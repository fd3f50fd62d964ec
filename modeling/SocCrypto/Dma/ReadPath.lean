import SocCrypto.Dma.Fifo

/-!
# Read masters

The read master that `RSA_Controller.v` and `SHA_256_Controller.v` share, with
the memory that answers it and the FIFO that takes the answers. The memory
accepts a request when it does not assert waitrequest and answers the accepted
requests in order, one per cycle at most. `stream` is what the FIFO will still
deliver: its words, the answers under way and the words not yet requested.
-/

namespace SocCrypto.Dma

/-! ### The read master -/

/-- `state_master_read`, in the order 2'd0 to 2'd3. -/
inductive MasterState where
  | start
  | raise
  | accept
  | check
  deriving DecidableEq

/-- Cycles a master still needs for `n` transfers when nothing stalls it. -/
def MasterState.rank : MasterState → ℕ → ℕ
  | .start, n => 3 * n + 1
  | .raise, n => 3 * n
  | .accept, n => 3 * n - 1
  | .check, n => 3 * n + 1

structure MasterRead where
  state : MasterState
  oAddress : Word
  oRead : Bool
  deriving DecidableEq

namespace MasterRead

def reset : MasterRead := ⟨.start, 0, false⟩

def next (m : MasterRead) (resetn startRead : Bool) (readStart endAddress : Word)
    (wait fifoFull : Bool) : MasterRead :=
  if !resetn then reset
  else
    match m.state with
    | .start => if startRead then { m with oAddress := readStart, state := .raise } else m
    | .raise => { m with oRead := true, state := .accept }
    | .accept =>
      if wait || fifoFull then m
      else { oAddress := m.oAddress + 4, oRead := false, state := .check }
    | .check => if m.oAddress = endAddress then m else { m with state := .raise }

section
variable {m : MasterRead} {readStart endAddress : Word} {startRead wait fifoFull : Bool}

theorem next_start (hs : m.state = .start) :
    m.next true startRead readStart endAddress wait fifoFull =
      if startRead then ⟨.raise, readStart, m.oRead⟩ else m := by
  simp only [next, hs, Bool.not_true, Bool.false_eq_true, if_false]

theorem next_raise (hs : m.state = .raise) :
    m.next true startRead readStart endAddress wait fifoFull = ⟨.accept, m.oAddress, true⟩ := by
  simp only [next, hs, Bool.not_true, Bool.false_eq_true, if_false]

theorem next_accept (hs : m.state = .accept) :
    m.next true startRead readStart endAddress wait fifoFull =
      if wait || fifoFull then m else ⟨.check, m.oAddress + 4, false⟩ := by
  simp only [next, hs, Bool.not_true, Bool.false_eq_true, if_false]

theorem next_check (hs : m.state = .check) :
    m.next true startRead readStart endAddress wait fifoFull =
      if m.oAddress = endAddress then m else ⟨.raise, m.oAddress, m.oRead⟩ := by
  simp only [next, hs, Bool.not_true, Bool.false_eq_true, if_false]

end

/-- The address of the next request. -/
def nextAddress (m : MasterRead) (readStart : Word) : Word :=
  if m.state = .start then readStart else m.oAddress

/-- `n` of `total` requests are left. -/
structure Left (readStart : Word) (total n : ℕ) (m : MasterRead) : Prop where
  le : n ≤ total
  address : m.nextAddress readStart = readStart + BitVec.ofNat 32 (4 * (total - n))
  read : m.oRead = decide (m.state = .accept)
  pending : n = 0 → m.state = .check

theorem left_reset (readStart : Word) {total : ℕ} (h : 0 < total) :
    Left readStart total total reset := by
  constructor
  · exact le_rfl
  · simp [nextAddress, reset]
  · rfl
  · omega

/-- The request of this cycle moves the master on. -/
def moves (m : MasterRead) (wait fifoFull : Bool) : Bool :=
  decide (m.state = .accept) && !wait && !fifoFull

end MasterRead

/-- The `n` word addresses from `a` on. -/
def addresses (a : Word) (n : ℕ) : List Word :=
  (List.range n).map fun j => a + BitVec.ofNat 32 (4 * j)

@[simp] theorem addresses_zero (a : Word) : addresses a 0 = [] := rfl

@[simp] theorem length_addresses (a : Word) (n : ℕ) : (addresses a n).length = n := by
  simp [addresses]

theorem addresses_succ (a : Word) (n : ℕ) : addresses a (n + 1) = a :: addresses (a + 4) n := by
  have hstep : ∀ j, a + BitVec.ofNat 32 (4 * (j + 1)) = a + 4 + BitVec.ofNat 32 (4 * j) := by
    intro j
    have hfour : BitVec.ofNat 32 4 = (4 : Word) := rfl
    rw [Nat.mul_succ, Nat.add_comm, BitVec.ofNat_add, hfour, BitVec.add_assoc]
  simp only [addresses, List.range_succ_eq_map, List.map_cons, List.map_map]
  congr 1
  · simp
  · apply List.map_congr_left
    intro j _
    exact hstep j

theorem addresses_succ_last (a : Word) (n : ℕ) :
    addresses a (n + 1) = addresses a n ++ [a + BitVec.ofNat 32 (4 * n)] := by
  simp [addresses, List.range_succ]

/-- Two offsets below the address range are equal when the addresses are. -/
theorem offset_inj {a : Word} {i j : ℕ} (hi : 4 * i < 2 ^ 32) (hj : 4 * j < 2 ^ 32)
    (h : a + BitVec.ofNat 32 (4 * i) = a + BitVec.ofNat 32 (4 * j)) : i = j := by
  have hsub : BitVec.ofNat 32 (4 * i) = BitVec.ofNat 32 (4 * j) := by simpa using h
  have hnat := congrArg BitVec.toNat hsub
  rw [BitVec.toNat_ofNat, BitVec.toNat_ofNat, Nat.mod_eq_of_lt hi, Nat.mod_eq_of_lt hj] at hnat
  omega

namespace MasterRead

theorem offset_next {a : Word} {total n : ℕ} (hn : 0 < n) (hle : n ≤ total) :
    a + BitVec.ofNat 32 (4 * (total - n)) + 4 = a + BitVec.ofNat 32 (4 * (total - (n - 1))) := by
  have hsplit : 4 * (total - (n - 1)) = 4 * (total - n) + 4 := by omega
  rw [hsplit, BitVec.ofNat_add, BitVec.add_assoc]
  rfl

theorem moves_of_ne {m : MasterRead} (hs : m.state ≠ .accept) (wait fifoFull : Bool) :
    m.moves wait fifoFull = false := by
  simp [moves, hs]

theorem moves_of_accept {m : MasterRead} (hs : m.state = .accept) (wait fifoFull : Bool) :
    m.moves wait fifoFull = !(wait || fifoFull) := by
  simp [moves, hs]

theorem Left.next {readStart : Word} {total n : ℕ} {m : MasterRead}
    (h : m.Left readStart total n) (startRead wait fifoFull : Bool) :
    (m.next true startRead readStart (readStart + BitVec.ofNat 32 (4 * total)) wait fifoFull).Left
      readStart total (if m.moves wait fifoFull then n - 1 else n) := by
  have hpos : m.state ≠ .check → n ≠ 0 := fun hs h0 => hs (h.pending h0)
  have haddr := h.address
  cases hs : m.state with
  | start =>
    rw [next_start hs, moves_of_ne (by simp [hs])]
    cases startRead
    · exact h
    · simp only [nextAddress, hs, if_true] at haddr
      exact ⟨h.le, by simpa [nextAddress] using haddr, by simp [h.read, hs],
        fun h0 => absurd h0 (hpos (by simp [hs]))⟩
  | raise =>
    rw [next_raise hs, moves_of_ne (by simp [hs])]
    exact ⟨h.le, by simpa [nextAddress, hs] using haddr, by simp,
      fun h0 => absurd h0 (hpos (by simp [hs]))⟩
  | accept =>
    have hn := hpos (by simp [hs])
    rw [next_accept hs, moves_of_accept hs]
    simp only [nextAddress, hs, reduceCtorEq, if_false] at haddr
    cases hstall : wait || fifoFull
    · refine ⟨by simp only [Bool.not_false, if_true]; have := h.le; omega, ?_, by simp, fun _ => rfl⟩
      simp only [nextAddress, Bool.false_eq_true, reduceCtorEq, if_false, haddr, Bool.not_false,
        if_true]
      exact offset_next (by omega) h.le
    · exact h
  | check =>
    rw [next_check hs, moves_of_ne (by simp [hs])]
    simp only [nextAddress, hs, reduceCtorEq, if_false] at haddr
    by_cases hdone : m.oAddress = readStart + BitVec.ofNat 32 (4 * total)
    · simp only [hdone, if_true, Bool.false_eq_true, if_false]
      exact h
    · have hn : n ≠ 0 := by
        rintro rfl
        exact hdone haddr
      simp only [hdone, Bool.false_eq_true, if_false]
      exact ⟨h.le, by simpa [nextAddress] using haddr, by simp [h.read, hs], fun h0 => absurd h0 hn⟩

/-- The address determines the number of requests left. -/
theorem Left.unique {readStart : Word} {total n n' : ℕ} {m : MasterRead} (ht : 4 * total < 2 ^ 32)
    (h : m.Left readStart total n) (h' : m.Left readStart total n') : n = n' := by
  have hle := h.le
  have hle' := h'.le
  have hsame := offset_inj (by omega) (by omega) (h.address.symm.trans h'.address)
  omega

/-- The rank of a running master does not grow. -/
theorem Left.rank_next_le {readStart : Word} {total n : ℕ} {m : MasterRead}
    (h : m.Left readStart total n) (startRead wait fifoFull : Bool) (endAddress : Word) :
    (m.next true startRead readStart endAddress wait fifoFull).state.rank
      (if m.moves wait fifoFull then n - 1 else n) ≤ m.state.rank n := by
  have hpos : m.state ≠ .check → n ≠ 0 := fun hs h0 => hs (h.pending h0)
  cases hs : m.state with
  | start =>
    rw [next_start hs, moves_of_ne (by simp [hs])]
    cases startRead <;> simp [hs, MasterState.rank]
  | raise =>
    rw [next_raise hs, moves_of_ne (by simp [hs])]
    simp [MasterState.rank]
  | accept =>
    have hn := hpos (by simp [hs])
    rw [next_accept hs, moves_of_accept hs]
    cases hstall : wait || fifoFull
    · simp [MasterState.rank]
      omega
    · simp [hs, MasterState.rank]
  | check =>
    rw [next_check hs, moves_of_ne (by simp [hs])]
    by_cases hdone : m.oAddress = endAddress <;> simp [hs, hdone, MasterState.rank]

/-- A cycle that leaves the rank alone is one the master waits in. -/
theorem Left.waits {readStart : Word} {total n : ℕ} {m : MasterRead} (ht : 4 * total < 2 ^ 32)
    (h : m.Left readStart total n) {startRead wait fifoFull : Bool}
    (hrank : (m.next true startRead readStart (readStart + BitVec.ofNat 32 (4 * total)) wait
      fifoFull).state.rank (if m.moves wait fifoFull then n - 1 else n) = m.state.rank n) :
    (m.state = .start ∧ startRead = false) ∨ (m.state = .accept ∧ (wait || fifoFull) = true) ∨
      (m.state = .check ∧ n = 0) := by
  have hpos : m.state ≠ .check → n ≠ 0 := fun hs h0 => hs (h.pending h0)
  cases hs : m.state with
  | start =>
    rw [next_start hs, moves_of_ne (by simp [hs])] at hrank
    cases startRead
    · simp
    · simp [hs, MasterState.rank] at hrank
  | raise =>
    have hn := hpos (by simp [hs])
    rw [next_raise hs, moves_of_ne (by simp [hs])] at hrank
    simp [hs, MasterState.rank] at hrank
    omega
  | accept =>
    have hn := hpos (by simp [hs])
    rw [next_accept hs, moves_of_accept hs] at hrank
    cases hstall : wait || fifoFull
    · simp [hs, hstall, MasterState.rank] at hrank
      omega
    · simp
  | check =>
    have haddr := h.address
    simp only [nextAddress, hs, reduceCtorEq, if_false] at haddr
    rw [next_check hs, moves_of_ne (by simp [hs])] at hrank
    by_cases hn : n = 0
    · simp [hn]
    · have hdone : ¬ m.oAddress = readStart + BitVec.ofNat 32 (4 * total) := by
        intro hend
        have hle := h.le
        have hsame := offset_inj (by omega) (by omega) (haddr.symm.trans hend)
        omega
      simp [hs, hdone, MasterState.rank] at hrank

/-- A request that moves the master takes the first of the addresses left. -/
theorem Left.addresses_next {readStart : Word} {total n : ℕ} {m : MasterRead}
    (h : m.Left readStart total n) (startRead wait fifoFull : Bool) (endAddress : Word) :
    addresses (m.nextAddress readStart) n =
      (if m.moves wait fifoFull then [m.oAddress] else []) ++
        addresses ((m.next true startRead readStart endAddress wait fifoFull).nextAddress readStart)
          (if m.moves wait fifoFull then n - 1 else n) := by
  cases hs : m.state with
  | start =>
    rw [next_start hs, moves_of_ne (by simp [hs])]
    cases startRead <;> simp [nextAddress, hs]
  | raise =>
    rw [next_raise hs, moves_of_ne (by simp [hs])]
    simp [nextAddress, hs]
  | accept =>
    have hn : n ≠ 0 := fun h0 => by simp [h.pending h0] at hs
    obtain ⟨k, rfl⟩ := Nat.exists_eq_succ_of_ne_zero hn
    rw [next_accept hs, moves_of_accept hs]
    cases hstall : wait || fifoFull
    · simp [nextAddress, hs, addresses_succ]
    · simp [nextAddress]
  | check =>
    rw [next_check hs, moves_of_ne (by simp [hs])]
    by_cases hdone : m.oAddress = endAddress <;> simp [nextAddress, hs, hdone]

end MasterRead

/-! ### Master, memory and FIFO -/

/-- The read side of a controller: its master, its FIFO and the addresses of the
accepted requests that memory has not answered. -/
structure ReadPath where
  master : MasterRead
  fifo : Fifo
  inflight : List Word
  deriving DecidableEq

namespace ReadPath

structure In where
  resetn : Bool
  startRead : Bool
  aclr : Bool
  readStart : Word
  endAddress : Word
  rdreq : Bool
  /-- `iWait_Master_Read`. -/
  wait : Bool
  /-- Memory answers the oldest request in this cycle. -/
  answer : Bool

/-- One clock with memory content `M`. -/
def next (M : Word → Word) (p : ReadPath) (i : In) : ReadPath :=
  { master := p.master.next i.resetn i.startRead i.readStart i.endAddress i.wait p.fifo.full
    fifo := p.fifo.next i.aclr (i.answer && !p.inflight.isEmpty) (M (p.inflight.headD 0)) i.rdreq
    inflight := (if i.answer then p.inflight.tail else p.inflight) ++
      (if p.master.oRead && !i.wait then [p.master.oAddress] else []) }

/-- Everything the FIFO will deliver while `n` requests are left. -/
def stream (M : Word → Word) (readStart : Word) (n : ℕ) (p : ReadPath) : List Word :=
  p.fifo.words ++ (p.inflight ++ addresses (p.master.nextAddress readStart) n).map M

/-- A cycle of a running controller. -/
structure Running (readStart : Word) (total : ℕ) (p : ReadPath) (i : In) : Prop where
  resetn : i.resetn = true
  aclr : i.aclr = false
  start : i.readStart = readStart
  stop : i.endAddress = readStart + BitVec.ofNat 32 (4 * total)
  rdreq : i.rdreq = true → p.fifo.words ≠ []

/-- Requests left after a cycle. -/
def left (p : ReadPath) (i : In) (n : ℕ) : ℕ :=
  if p.master.moves i.wait p.fifo.full then n - 1 else n

theorem left_le (p : ReadPath) (i : In) (n : ℕ) : p.left i n ≤ n := by
  unfold left
  split <;> omega

theorem left_next {M : Word → Word} {readStart : Word} {total n : ℕ} {p : ReadPath} {i : In}
    (h : p.master.Left readStart total n) (hi : Running readStart total p i) :
    (p.next M i).master.Left readStart total (p.left i n) := by
  simp only [next, hi.resetn, hi.start, hi.stop]
  exact h.next i.startRead i.wait p.fifo.full

/-- The FIFO takes what arrives: it is not full, or nothing is under way. -/
def Room (p : ReadPath) : Prop :=
  p.fifo.full = false ∨ (p.inflight = [] ∧ p.master.oRead = false)

/-- In a cycle with the FIFO full no answer arrives and no request is accepted. -/
def Fits (p : ReadPath) (i : In) : Prop :=
  p.fifo.full = true → (i.answer = true → p.inflight = []) ∧
    (p.master.oRead = true → i.wait = true)

theorem Room.fits {p : ReadPath} (h : p.Room) (i : In) : p.Fits i := by
  intro hfull
  rcases h with hnot | ⟨hnil, hread⟩
  · rw [hfull] at hnot
    cases hnot
  · exact ⟨fun _ => hnil, fun hup => by rw [hread] at hup; cases hup⟩

theorem Fits.moves_eq_request {readStart : Word} {total n : ℕ} {p : ReadPath} {i : In}
    (hfits : p.Fits i) (h : p.master.Left readStart total n) :
    p.master.moves i.wait p.fifo.full = (p.master.oRead && !i.wait) := by
  cases hfull : p.fifo.full
  · simp [MasterRead.moves, h.read]
  · have hwait := (hfits hfull).2
    cases hread : p.master.oRead
    · have hstate : decide (p.master.state = .accept) = false := by rw [← h.read, hread]
      simp [MasterRead.moves, hstate]
    · simp [MasterRead.moves, hwait hread]

theorem moves_eq_request {readStart : Word} {total n : ℕ} {p : ReadPath}
    (h : p.master.Left readStart total n) (hroom : p.Room) (i : In) :
    p.master.moves i.wait p.fifo.full = (p.master.oRead && !i.wait) :=
  (hroom.fits i).moves_eq_request h

/-- When all words of a job fit, a full FIFO holds all that are left. -/
theorem room_of_stream {M : Word → Word} {readStart : Word} {total n : ℕ} {p : ReadPath}
    (h : p.master.Left readStart total n) (hlen : (p.stream M readStart n).length ≤ 256) :
    p.Room := by
  cases hfull : p.fifo.full with
  | false => exact Or.inl hfull
  | true =>
    have hwords : 256 ≤ p.fifo.words.length := of_decide_eq_true hfull
    simp only [stream, List.length_append, List.length_map, length_addresses] at hlen
    have hinflight : p.inflight = [] := List.eq_nil_of_length_eq_zero (by omega)
    have hcheck := h.pending (by omega)
    exact Or.inr ⟨hinflight, by rw [h.read, hcheck]; rfl⟩

/-- Words that entered or will enter the FIFO, as long as it accepts them. -/
theorem Fits.stream_next {M : Word → Word} {readStart : Word} {total n : ℕ} {p : ReadPath} {i : In}
    (hfits : p.Fits i)
    (h : p.master.Left readStart total n) (hi : Running readStart total p i) :
    (p.next M i).stream M readStart (p.left i n) =
      if i.rdreq then (p.stream M readStart n).tail else p.stream M readStart n := by
  have haddr := h.addresses_next i.startRead i.wait p.fifo.full i.endAddress
  have hreq : (if p.master.moves i.wait p.fifo.full then [p.master.oAddress] else []) =
      if p.master.oRead && !i.wait then [p.master.oAddress] else [] := by
    rw [hfits.moves_eq_request h]
  have hwords : (p.next M i).fifo.words ++
      ((if i.answer then p.inflight.tail else p.inflight).map M) =
      (if i.rdreq then p.fifo.words.tail else p.fifo.words) ++ p.inflight.map M := by
    cases hq : p.inflight with
    | nil => simp [next, Fifo.next, hi.aclr, hq]
    | cons a rest =>
      cases hans : i.answer
      · simp [next, Fifo.next, hi.aclr, hq, hans]
      · have hfull : p.fifo.full = false := by
          by_contra hfull
          have hnil := (hfits (by simpa using hfull)).1 hans
          rw [hq] at hnil
          cases hnil
        simp [next, Fifo.next, hi.aclr, hq, hans, hfull]
  have hnext : (p.next M i).stream M readStart (p.left i n) =
      (if i.rdreq then p.fifo.words.tail else p.fifo.words) ++
        (p.inflight ++ addresses (p.master.nextAddress readStart) n).map M := by
    rw [haddr, hreq]
    simp only [stream, left]
    have hinf : (p.next M i).inflight = (if i.answer then p.inflight.tail else p.inflight) ++
        (if p.master.oRead && !i.wait then [p.master.oAddress] else []) := rfl
    have hmaster : (p.next M i).master =
        p.master.next true i.startRead readStart i.endAddress i.wait p.fifo.full := by
      simp only [next, hi.resetn, hi.start]
    rw [hinf, hmaster]
    simp only [List.map_append, List.append_assoc] at hwords ⊢
    rw [← List.append_assoc, hwords, List.append_assoc]
  rw [hnext]
  cases hr : i.rdreq
  · rfl
  · obtain ⟨w, ws, hw⟩ := List.exists_cons_of_ne_nil (hi.rdreq hr)
    simp [stream, hw]

theorem stream_next {M : Word → Word} {readStart : Word} {total n : ℕ} {p : ReadPath} {i : In}
    (h : p.master.Left readStart total n) (hi : Running readStart total p i)
    (hroom : p.Room) :
    (p.next M i).stream M readStart (p.left i n) =
      if i.rdreq then (p.stream M readStart n).tail else p.stream M readStart n :=
  (hroom.fits i).stream_next h hi

/-- A full FIFO drops answers and lets requests through twice, but not among the
words it already holds. -/
theorem stream_take {M : Word → Word} {readStart : Word} {total n : ℕ} {p : ReadPath} {i : In}
    (h : p.master.Left readStart total n) (hi : Running readStart total p i) :
    ((p.next M i).stream M readStart (p.left i n)).take 255 =
      (if i.rdreq then (p.stream M readStart n).tail else p.stream M readStart n).take 255 := by
  cases hfull : p.fifo.full with
  | false => rw [stream_next h hi (Or.inl hfull)]
  | true =>
    have hlen : 256 ≤ p.fifo.words.length := by
      have := hfull
      simp only [Fifo.full, decide_eq_true_eq] at this
      exact this
    have htail : 255 ≤ (if i.rdreq then p.fifo.words.tail else p.fifo.words).length := by
      cases i.rdreq
      · simp only [Bool.false_eq_true, if_false]
        omega
      · simp only [if_true, List.length_tail]
        omega
    have hold : (if i.rdreq then (p.stream M readStart n).tail else p.stream M readStart n) =
        (if i.rdreq then p.fifo.words.tail else p.fifo.words) ++
          (p.inflight ++ addresses (p.master.nextAddress readStart) n).map M := by
      cases hr : i.rdreq
      · rfl
      · obtain ⟨w, ws, hw⟩ := List.exists_cons_of_ne_nil (hi.rdreq hr)
        simp [stream, hw]
    have hnew : (p.next M i).fifo.words =
        if i.rdreq then p.fifo.words.tail else p.fifo.words := by
      simp [next, Fifo.next, hi.aclr, hfull]
    rw [hold, stream, hnew, List.take_append_of_le_length htail,
      List.take_append_of_le_length htail]

/-! ### Progress of the read side -/

/-- Cycles the read side still needs when nothing stalls it. -/
def potential (p : ReadPath) (n : ℕ) : ℕ := 2 * p.master.state.rank n + p.inflight.length

/-- An answer leaves the queue of requests in this cycle. -/
def answers (p : ReadPath) (i : In) : Bool := i.answer && !p.inflight.isEmpty

theorem inflight_length_next (M : Word → Word) (p : ReadPath) (i : In) :
    (p.next M i).inflight.length + (p.answers i).toNat =
      p.inflight.length + (p.master.oRead && !i.wait).toNat := by
  have hreq : (if p.master.oRead && !i.wait then [p.master.oAddress] else []).length =
      (p.master.oRead && !i.wait).toNat := by
    cases p.master.oRead && !i.wait <;> rfl
  have hq : (if i.answer then p.inflight.tail else p.inflight).length + (p.answers i).toNat =
      p.inflight.length := by
    cases hans : i.answer <;> cases hinf : p.inflight <;> simp [answers, hans, hinf]
  simp only [next, List.length_append, hreq]
  omega

/-- What the read side waits for in a cycle that does not change its potential. -/
structure Stalled (total n : ℕ) (p : ReadPath) (i : In) : Prop where
  quiet : p.answers i = false
  master : (p.master.state = .start ∧ i.startRead = false) ∨
    (p.master.state = .accept ∧ i.wait = true) ∨ (p.master.state = .check ∧ n = 0)

theorem potential_next_le {M : Word → Word} {readStart : Word} {total n : ℕ} {p : ReadPath}
    {i : In} (h : p.master.Left readStart total n) (hi : Running readStart total p i)
    (hroom : p.Room) : (p.next M i).potential (p.left i n) ≤ p.potential n := by
  have hlen := inflight_length_next M p i
  have hrank := h.rank_next_le i.startRead i.wait p.fifo.full i.endAddress
  have hmoves := moves_eq_request h hroom i
  have hmaster : (p.next M i).master =
      p.master.next true i.startRead readStart i.endAddress i.wait p.fifo.full := by
    simp only [next, hi.resetn, hi.start]
  simp only [potential, hmaster, left]
  cases hmove : p.master.moves i.wait p.fifo.full
  · have hreq : (p.master.oRead && !i.wait) = false := hmoves.symm.trans hmove
    simp only [hmove, hreq, Bool.toNat_false, Bool.false_eq_true, if_false] at hrank hlen ⊢
    omega
  · have hstate : p.master.state = .accept := by
      by_contra hne
      rw [MasterRead.moves_of_ne hne] at hmove
      cases hmove
    have hstall : (i.wait || p.fifo.full) = false := by
      simpa [MasterRead.moves_of_accept hstate] using hmove
    have hreq : (p.master.oRead && !i.wait) = true := hmoves.symm.trans hmove
    have hn : n ≠ 0 := fun h0 => by simp [h.pending h0] at hstate
    rw [MasterRead.next_accept hstate]
    simp only [hstall, hreq, hstate, MasterState.rank, Bool.toNat_true, Bool.false_eq_true,
      if_false, if_true] at hlen ⊢
    omega

theorem stalled_of_potential {M : Word → Word} {readStart : Word} {total n : ℕ} {p : ReadPath}
    {i : In} (ht : 4 * total < 2 ^ 32) (h : p.master.Left readStart total n)
    (hi : Running readStart total p i) (hroom : p.fifo.full = false)
    (heq : (p.next M i).potential (p.left i n) = p.potential n) : Stalled total n p i := by
  have hlen := inflight_length_next M p i
  have hrank := h.rank_next_le i.startRead i.wait p.fifo.full i.endAddress
  have hmaster : (p.next M i).master =
      p.master.next true i.startRead readStart i.endAddress i.wait p.fifo.full := by
    simp only [next, hi.resetn, hi.start]
  simp only [potential, hmaster, left] at heq
  cases hmove : p.master.moves i.wait p.fifo.full
  · have hreq : (p.master.oRead && !i.wait) = false := by
      simpa [MasterRead.moves, h.read, hroom] using hmove
    rw [hreq, Bool.toNat_false] at hlen
    have hquiet : (p.answers i).toNat = 0 := by omega
    refine ⟨by simpa using hquiet, ?_⟩
    have hwaits : (p.master.state = .start ∧ i.startRead = false) ∨
        (p.master.state = .accept ∧ (i.wait || p.fifo.full) = true) ∨
        (p.master.state = .check ∧ n = 0) := h.waits ht (by rw [← hi.stop]; omega)
    rw [hroom] at hwaits
    simpa using hwaits
  · obtain ⟨hstate, hwait⟩ : p.master.state = .accept ∧ i.wait = false := by
      simpa [MasterRead.moves, hroom] using hmove
    have hread : p.master.oRead = true := by simp [h.read, hstate]
    have hn : n ≠ 0 := fun h0 => by simp [h.pending h0] at hstate
    rw [MasterRead.next_accept hstate, hmove] at heq
    simp only [hwait, hroom, hread, hstate, MasterState.rank, Bool.or_self, Bool.not_false,
      Bool.and_self, Bool.toNat_true, Bool.false_eq_true, if_false, if_true] at hlen heq
    omega

/-- A started master that stands still while the bus grants its request has none left. -/
theorem Stalled.none_left {readStart : Word} {total n : ℕ} {p : ReadPath} {i : In}
    (h : Stalled total n p i) (hleft : p.master.Left readStart total n)
    (hstart : i.startRead = true) (hgrant : p.master.oRead = true → i.wait = false) : n = 0 := by
  rcases h.master with ⟨-, hidle⟩ | ⟨haccept, hwait⟩ | ⟨-, hn⟩
  · rw [hstart] at hidle
    cases hidle
  · have hread := hleft.read
    rw [haccept, decide_eq_true rfl] at hread
    rw [hgrant hread] at hwait
    cases hwait
  · exact hn

theorem Stalled.inflight_nil {total n : ℕ} {p : ReadPath} {i : In} (h : Stalled total n p i)
    (hanswer : p.inflight ≠ [] → i.answer = true) : p.inflight = [] := by
  by_contra hne
  have hquiet := h.quiet
  simp [answers, hanswer hne, hne] at hquiet

/-- A full FIFO lets one extra request through. -/
theorem potential_next_le_succ {M : Word → Word} {readStart : Word} {total n : ℕ} {p : ReadPath}
    {i : In} (h : p.master.Left readStart total n) (hi : Running readStart total p i) :
    (p.next M i).potential (p.left i n) ≤ p.potential n + 1 := by
  have hlen := inflight_length_next M p i
  have hrank := h.rank_next_le i.startRead i.wait p.fifo.full i.endAddress
  have hmaster : (p.next M i).master =
      p.master.next true i.startRead readStart i.endAddress i.wait p.fifo.full := by
    simp only [next, hi.resetn, hi.start]
  have hreq : (p.master.oRead && !i.wait).toNat ≤ 1 := Bool.toNat_le _
  simp only [potential, hmaster, left]
  omega

end ReadPath

end SocCrypto.Dma
