import SocCrypto.Rsa.Controller
import SocCrypto.Clocked

/-!
# Reading the operands

From the start of a job until `read_fifo_done`. The 96 operand words are the
first 96 words of what the FIFO holds, what is under way to it and what the read
master will request; `Filling` keeps that list, `Filled` is its end.
-/

namespace SocCrypto.Rsa
open Dma

/-! ### The drain machine -/

namespace FifoToMem

section
variable {d : FifoToMem} {fifoEmpty : Bool} {q : Word}

theorem next_poll (hs : d.state = .poll) :
    d.next true fifoEmpty q =
      if !fifoEmpty && !d.readFifoDone then { d with fifoRead := true, state := .request }
      else d := by
  simp only [next, hs, Bool.not_true, Bool.false_eq_true, if_false]

theorem next_request (hs : d.state = .request) :
    d.next true fifoEmpty q = { d with fifoRead := false, state := .store } := by
  simp only [next, hs, Bool.not_true, Bool.false_eq_true, if_false]

theorem next_store {c : ℕ} (hs : d.state = .store) (hc : d.counter.toNat = c) (hlt : c < 96) :
    d.next true fifoEmpty q =
      { d with
        mem := Function.update d.mem c q
        counter := d.counter + 1
        readFifoDone := if c = 95 then true else d.readFifoDone
        state := if c = 95 then .finish else .poll } := by
  have hlt' : d.counter < 96 := by
    rw [BitVec.lt_def, hc]
    exact hlt
  have hone : (d.counter + 1).toNat = c + 1 := by
    rw [BitVec.toNat_add, hc]
    exact Nat.mod_eq_of_lt (show c + 1 < 2 ^ 7 by omega)
  have hiff : d.counter + 1 = 96 ↔ c = 95 := by
    rw [← BitVec.toNat_inj, hone]
    show c + 1 = 96 ↔ _
    omega
  simp only [next, hs, Bool.not_true, Bool.false_eq_true, if_false, hlt', if_true, hiff, hc]
  split <;> rfl

theorem next_finish (hs : d.state = .finish) :
    d.next true fifoEmpty q = { d with counter := 0, state := .poll } := by
  simp only [next, hs, Bool.not_true, Bool.false_eq_true, if_false]

end

/-- Cycles to the end of the drain phase when the FIFO is never empty. -/
def rank (d : FifoToMem) : ℕ :=
  if d.readFifoDone then 0
  else 3 * (96 - d.counter.toNat) +
    match d.state with
    | .poll => 3
    | .request => 2
    | .store => 1
    | .finish => 0

end FifoToMem

theorem range_map_update (f : ℕ → Word) (c : ℕ) (w : Word) :
    (List.range (c + 1)).map (Function.update f c w) = (List.range c).map f ++ [w] := by
  rw [List.range_succ, List.map_append, List.map_singleton, Function.update_self]
  congr 1
  apply List.map_congr_left
  intro k hk
  have hne : k ≠ c := by
    have := List.mem_range.mp hk
    omega
  rw [Function.update_of_ne hne]

/-! ### The running controller -/

namespace Controller

/-- The register contents of a job: `length = 384`, control 3. -/
structure Started (readStart writeStart : Word) (s : Controller) : Prop where
  control : s.config.control = 3
  readStart : s.config.readStart = readStart
  writeStart : s.config.writeStart = writeStart
  length : s.config.length = 384

variable {M : Word → Word} {readStart writeStart : Word} {s : Controller} {i : In}
  {target : List Word} {n c : ℕ}

theorem Started.next (h : s.Started readStart writeStart) (hi : i.cpu = none) :
    (s.step M i).Started readStart writeStart := by
  have hsame : (s.step M i).config = s.config := by
    rw [step_config, hi]
    split <;> rfl
  exact ⟨by rw [hsame]; exact h.control, by rw [hsame]; exact h.readStart,
    by rw [hsame]; exact h.writeStart, by rw [hsame]; exact h.length⟩

theorem Started.resetn (h : s.Started readStart writeStart) : s.config.resetn = true := by
  rw [Config.resetn, h.control]
  rfl

theorem Started.running (h : s.Started readStart writeStart)
    (hread : s.drain.fifoRead = true → s.read.fifo.words ≠ []) :
    ReadPath.Running readStart 96 s.read (s.readIn i) := by
  constructor
  · exact h.resetn
  · simp only [readIn, Config.fifoClear, h.control]
    rfl
  · exact h.readStart
  · simp only [readIn, Config.endAddressRead, h.readStart, h.length]
    rfl
  · exact hread

theorem Started.startRead (h : s.Started readStart writeStart) : (s.readIn i).startRead = true := by
  simp only [readIn, Config.startRead, h.control]
  rfl

/-- Words stored so far and the word on the FIFO output that will be stored next. -/
def held (s : Controller) (c : ℕ) : List Word :=
  (List.range c).map s.drain.mem ++ if s.drain.state = .store then [s.read.fifo.q] else []

/-- `n` requests are left and `c` words are stored. -/
structure Filling (M : Word → Word) (readStart : Word) (target : List Word) (n c : ℕ)
    (s : Controller) : Prop where
  left : s.read.master.Left readStart 96 n
  counter : s.drain.counter.toNat = c
  lt : c < 96
  notDone : s.drain.readFifoDone = false
  state : s.drain.state ≠ .finish
  fifoRead : s.drain.fifoRead = decide (s.drain.state = .request)
  nonempty : s.drain.state = .request → s.read.fifo.words ≠ []
  words : (s.held c ++ s.read.stream M readStart n).take 96 = target

/-- All 96 words are stored. -/
structure Filled (readStart : Word) (target : List Word) (n : ℕ) (s : Controller) : Prop where
  left : s.read.master.Left readStart 96 n
  done : s.drain.readFifoDone = true
  fifoRead : s.drain.fifoRead = false
  state : s.drain.state = .finish ∨ s.drain.state = .poll
  words : (List.range 96).map s.drain.mem = target

theorem held_length_le (hc : c < 96) : (s.held c).length ≤ 96 := by
  simp only [held, List.length_append, List.length_map, List.length_range]
  split <;> simp <;> omega

/-- Lists that agree on a long prefix agree behind a short one. -/
theorem take_append_congr {a x y : List Word} (ha : a.length ≤ 96)
    (h : x.take 255 = y.take 255) : (a ++ x).take 96 = (a ++ y).take 96 := by
  rw [List.take_append, List.take_append]
  have hle : 96 - a.length ≤ 255 := by omega
  rw [← Nat.min_eq_left hle, ← List.take_take, h, List.take_take]

theorem Filling.running (h : s.Filling M readStart target n c)
    (hs : s.Started readStart writeStart) : ReadPath.Running readStart 96 s.read (s.readIn i) := by
  refine hs.running fun hread => h.nonempty ?_
  simpa [h.fifoRead] using hread

theorem Started.drain_next (hs : s.Started readStart writeStart) (hclk : i.sysClk = true) :
    (s.step M i).drain = s.drain.next true s.read.fifo.empty s.read.fifo.q := by
  rw [step_drain, if_pos hclk, hs.resetn]

theorem Filling.rdreq (h : s.Filling M readStart target n c) (i : In) :
    (s.readIn i).rdreq = decide (s.drain.state = .request) := h.fifoRead

/-- Requests and words on their way; the drain machine takes one in `request`. -/
theorem Filling.path_next (h : s.Filling M readStart target n c)
    (hs : s.Started readStart writeStart) (hclk : i.sysClk = true) :
    (s.step M i).read.master.Left readStart 96 (s.read.left (s.readIn i) n) ∧
      ((s.step M i).read.stream M readStart (s.read.left (s.readIn i) n)).take 255 =
        (if s.drain.state = .request then (s.read.stream M readStart n).tail
          else s.read.stream M readStart n).take 255 := by
  have hrun := h.running (i := i) hs
  rw [step_read, if_pos hclk]
  refine ⟨ReadPath.left_next (M := M) h.left hrun, ?_⟩
  rw [ReadPath.stream_take (M := M) h.left hrun, h.rdreq]
  simp only [decide_eq_true_eq]

theorem Filling.poll_next (h : s.Filling M readStart target n c)
    (hs : s.Started readStart writeStart) (hclk : i.sysClk = true) (hst : s.drain.state = .poll) :
    (s.step M i).Filling M readStart target (s.read.left (s.readIn i) n) c := by
  obtain ⟨hleft, hstream⟩ := h.path_next hs hclk
  have hdrain := hs.drain_next (M := M) hclk
  have hrdreq := h.rdreq i
  rw [hst, decide_eq_false (by simp)] at hrdreq
  rw [hst, if_neg (by simp)] at hstream
  have hgrow : s.read.fifo.words ≠ [] → (s.step M i).read.fifo.words ≠ [] := by
    intro hne
    simp [step_read, hclk, ReadPath.next, Fifo.next, (h.running (i := i) hs).aclr, hrdreq, hne]
  have hsame : (s.step M i).held c = s.held c := by
    rw [held, held, hdrain, FifoToMem.next_poll hst]
    split <;> simp [hst]
  have hwords : ((s.step M i).held c ++ (s.step M i).read.stream M readStart
      (s.read.left (s.readIn i) n)).take 96 = target := by
    rw [hsame, ← h.words]
    exact take_append_congr (held_length_le h.lt) hstream
  rw [FifoToMem.next_poll hst] at hdrain
  cases hempty : s.read.fifo.empty with
  | false =>
    have hne := Fifo.empty_eq_false_iff.mp hempty
    simp only [hempty, h.notDone, Bool.not_false, Bool.and_self, if_true] at hdrain
    exact ⟨hleft, by simp [hdrain, h.counter], h.lt, by simp [hdrain],
      by simp [hdrain], by simp [hdrain], fun _ => hgrow hne, hwords⟩
  | true =>
    simp only [hempty, Bool.not_true, Bool.false_and, Bool.false_eq_true, if_false] at hdrain
    exact ⟨hleft, by rw [hdrain]; exact h.counter, h.lt, by rw [hdrain]; exact h.notDone,
      by rw [hdrain]; exact h.state, by rw [hdrain]; exact h.fifoRead,
      by rw [hdrain, hst]; exact fun h0 => absurd h0 (by simp), hwords⟩

theorem Filling.request_next (h : s.Filling M readStart target n c)
    (hs : s.Started readStart writeStart) (hclk : i.sysClk = true)
    (hst : s.drain.state = .request) :
    (s.step M i).Filling M readStart target (s.read.left (s.readIn i) n) c := by
  obtain ⟨hleft, hstream⟩ := h.path_next hs hclk
  have hdrain := hs.drain_next (M := M) hclk
  have hrdreq := h.rdreq i
  rw [hst, decide_eq_true rfl] at hrdreq
  rw [hst, if_pos rfl] at hstream
  rw [FifoToMem.next_request hst] at hdrain
  obtain ⟨w, ws, hw⟩ := List.exists_cons_of_ne_nil (h.nonempty hst)
  have hq : (s.step M i).read.fifo.q = w := by
    simp [step_read, hclk, ReadPath.next, (h.running (i := i) hs).aclr, hrdreq, hw]
  have hwords : ((s.step M i).held c ++ (s.step M i).read.stream M readStart
      (s.read.left (s.readIn i) n)).take 96 = target := by
    rw [held, hq, hdrain, ← h.words, held, hst]
    simp only [reduceCtorEq, if_true, if_false, List.append_nil]
    have hcons : s.read.stream M readStart n = w :: (s.read.stream M readStart n).tail := by
      simp [ReadPath.stream, hw]
    have hlen : ((List.range c).map s.drain.mem ++ [w]).length ≤ 96 := by
      have hlt := h.lt
      simp
      omega
    have hsplit : (List.range c).map s.drain.mem ++ s.read.stream M readStart n =
        (List.range c).map s.drain.mem ++ [w] ++ (s.read.stream M readStart n).tail := by
      rw [List.append_assoc, List.singleton_append, ← hcons]
    rw [hsplit]
    exact take_append_congr hlen hstream
  exact ⟨hleft, by rw [hdrain]; exact h.counter, h.lt, by rw [hdrain]; exact h.notDone,
    by simp [hdrain], by simp [hdrain], by simp [hdrain], hwords⟩

/-- The store cycle of the last word ends the phase. -/
theorem Filling.store_next (h : s.Filling M readStart target n c)
    (hs : s.Started readStart writeStart) (hclk : i.sysClk = true)
    (hst : s.drain.state = .store) :
    (s.step M i).Filling M readStart target (s.read.left (s.readIn i) n) (c + 1) ∨
      (s.step M i).Filled readStart target (s.read.left (s.readIn i) n) := by
  obtain ⟨hleft, hstream⟩ := h.path_next hs hclk
  have hdrain := hs.drain_next (M := M) hclk
  rw [hst, if_neg (by simp)] at hstream
  rw [FifoToMem.next_store hst h.counter h.lt] at hdrain
  have hheldc : s.held c = (List.range (c + 1)).map (s.step M i).drain.mem := by
    rw [hdrain, range_map_update, held, hst]
    simp
  by_cases hlast : c = 95
  · right
    refine ⟨hleft, by simp [hdrain, hlast], ?_, by simp [hdrain, hlast], ?_⟩
    · rw [hdrain]
      simp [h.fifoRead, hst]
    · have hfull : (s.held c).length = 96 := by
        rw [hheldc]
        simp [hlast]
      rw [← h.words, List.take_append_of_le_length hfull.ge, List.take_of_length_le hfull.le,
        hheldc, hlast]
  · left
    have hlt := h.lt
    have hone : (s.drain.counter + 1).toNat = c + 1 := toNat_add_one h.counter (by omega)
    have hsame : (s.step M i).held (c + 1) = s.held c := by
      rw [held, ← hheldc, hdrain]
      simp [hlast]
    refine ⟨hleft, by rw [hdrain]; exact hone, by omega, by simp [hdrain, hlast, h.notDone],
      by simp [hdrain, hlast], by simp [hdrain, hlast, h.fifoRead, hst],
      by simp [hdrain, hlast], ?_⟩
    rw [hsame, ← h.words]
    exact take_append_congr (held_length_le h.lt) hstream

theorem Filling.sysEdge (h : s.Filling M readStart target n c)
    (hs : s.Started readStart writeStart) (hclk : i.sysClk = true) :
    (∃ c', (s.step M i).Filling M readStart target (s.read.left (s.readIn i) n) c') ∨
      (s.step M i).Filled readStart target (s.read.left (s.readIn i) n) := by
  cases hst : s.drain.state with
  | poll => exact Or.inl ⟨c, h.poll_next hs hclk hst⟩
  | request => exact Or.inl ⟨c, h.request_next hs hclk hst⟩
  | store => exact (h.store_next hs hclk hst).imp_left fun hf => ⟨c + 1, hf⟩
  | finish => exact absurd hst h.state

theorem Filled.sysEdge (h : s.Filled readStart target n) (hs : s.Started readStart writeStart)
    (hclk : i.sysClk = true) :
    (s.step M i).Filled readStart target (s.read.left (s.readIn i) n) := by
  have hrun : ReadPath.Running readStart 96 s.read (s.readIn i) :=
    hs.running fun hread => by simp [h.fifoRead] at hread
  have hleft := ReadPath.left_next (M := M) h.left hrun
  have hread : (s.step M i).read = s.read.next M (s.readIn i) := by rw [step_read, if_pos hclk]
  have hdrain := hs.drain_next (M := M) hclk
  rw [← hread] at hleft
  rcases h.state with hst | hst
  · rw [FifoToMem.next_finish hst] at hdrain
    exact ⟨hleft, by rw [hdrain]; exact h.done, by rw [hdrain]; exact h.fifoRead,
      by simp [hdrain], by rw [hdrain]; exact h.words⟩
  · rw [FifoToMem.next_poll hst] at hdrain
    simp only [h.done, Bool.not_true, Bool.and_false, Bool.false_eq_true, if_false] at hdrain
    exact ⟨hleft, by rw [hdrain]; exact h.done, by rw [hdrain]; exact h.fifoRead,
      by rw [hdrain]; exact h.state, by rw [hdrain]; exact h.words⟩

/-! ### The drain phase ends -/

/-- Cycles of the drain phase left when nothing stalls. -/
def fillPotential (s : Controller) (n : ℕ) : ℕ := 2 * s.drain.rank + s.read.potential n

/-- The drain machine moves unless it polls an empty FIFO. -/
theorem Filling.rank_next (h : s.Filling M readStart target n c) :
    (s.drain.next true s.read.fifo.empty s.read.fifo.q).rank < s.drain.rank ∨
      (s.drain.state = .poll ∧ s.read.fifo.empty = true ∧
        s.drain.next true s.read.fifo.empty s.read.fifo.q = s.drain) := by
  have hlt := h.lt
  have hcounter := h.counter
  cases hst : s.drain.state with
  | poll =>
    rw [FifoToMem.next_poll hst]
    cases hempty : s.read.fifo.empty
    · left
      simp [FifoToMem.rank, h.notDone, hst]
    · right
      simp
  | request =>
    left
    rw [FifoToMem.next_request hst]
    simp [FifoToMem.rank, h.notDone, hst]
  | store =>
    left
    rw [FifoToMem.next_store hst h.counter h.lt]
    have hone : (s.drain.counter + 1).toNat = c + 1 := by
      rw [BitVec.toNat_add, h.counter]
      exact Nat.mod_eq_of_lt (show c + 1 < 2 ^ 7 by omega)
    by_cases hlast : c = 95
    · simp [FifoToMem.rank, h.notDone, hlast, hst]
    · simp only [FifoToMem.rank, h.notDone, hlast, hst, hone, hcounter, if_false,
        Bool.false_eq_true]
      omega
  | finish => exact absurd hst h.state

theorem Filling.potential_next (h : s.Filling M readStart target n c)
    (hs : s.Started readStart writeStart) (hclk : i.sysClk = true) :
    (s.step M i).fillPotential (s.read.left (s.readIn i) n) ≤ s.fillPotential n ∧
      ((s.step M i).fillPotential (s.read.left (s.readIn i) n) = s.fillPotential n →
        s.read.fifo.words = [] ∧ s.drain.state = .poll ∧
          ReadPath.Stalled 96 n s.read (s.readIn i)) := by
  have hrun := h.running (i := i) hs
  have hread : (s.step M i).read = s.read.next M (s.readIn i) := by rw [step_read, if_pos hclk]
  have hdrain := hs.drain_next (M := M) hclk
  simp only [fillPotential, hread, hdrain]
  rcases h.rank_next with hlt | ⟨hpoll, hempty, hsame⟩
  · have hle := ReadPath.potential_next_le_succ (M := M) h.left hrun
    omega
  · have hwords : s.read.fifo.words = [] := by simpa [Fifo.empty] using hempty
    have hroom : s.read.fifo.full = false := by simp [Fifo.full, hwords, Fifo.capacity]
    have hle := ReadPath.potential_next_le (M := M) h.left hrun (Or.inl hroom)
    rw [hsame]
    refine ⟨by omega, fun heq => ⟨hwords, hpoll, ?_⟩⟩
    exact ReadPath.stalled_of_potential (M := M) (by omega) h.left hrun hroom (by omega)

/-- The bus of a run stalls no request and no answer for ever. -/
structure BusFair (s : ℕ → Controller) (i : ℕ → In) : Prop where
  grantRead : ∀ t, ∃ u ≥ t, (i u).sysClk = true ∧
    ((s u).read.master.oRead = true → (i u).waitRead = false)
  answer : ∀ t, ∃ u ≥ t, (i u).sysClk = true ∧
    ((s u).read.inflight ≠ [] → (i u).answer = true)
  grantWrite : ∀ t, ∃ u ≥ t, (i u).sysClk = true ∧
    ((s u).write.oWrite = true → (i u).waitWrite = false)

theorem step_of_not_sysClk (hclk : i.sysClk = false) :
    (s.step M i).read = s.read ∧ (s.step M i).drain = s.drain := by
  simp [step_read, step_drain, hclk]

theorem Filling.step (h : s.Filling M readStart target n c)
    (hs : s.Started readStart writeStart) :
    ∃ n', n' ≤ n ∧ (s.step M i).fillPotential n' ≤ s.fillPotential n ∧
      ((∃ c', (s.step M i).Filling M readStart target n' c') ∨
        (s.step M i).Filled readStart target n') := by
  cases hclk : i.sysClk
  · obtain ⟨hread, hdrain⟩ := step_of_not_sysClk (M := M) (s := s) hclk
    have hheld : (s.step M i).held c = s.held c := by rw [held, held, hread, hdrain]
    refine ⟨n, le_rfl, by rw [fillPotential, fillPotential, hread, hdrain], Or.inl ⟨c, ?_⟩⟩
    exact ⟨by rw [hread]; exact h.left, by rw [hdrain]; exact h.counter, h.lt,
      by rw [hdrain]; exact h.notDone, by rw [hdrain]; exact h.state,
      by rw [hdrain]; exact h.fifoRead, by rw [hdrain, hread]; exact h.nonempty,
      by rw [hheld, hread]; exact h.words⟩
  · exact ⟨_, ReadPath.left_le _ _ _, (h.potential_next hs hclk).1, h.sysEdge hs hclk⟩

/-- On a fair bus no drain phase stands still for ever. -/
theorem not_stalled {i : ℕ → In} {N C : ℕ → ℕ} (htarget : target.length = 96)
    (hstarted : ∀ t, (Clocked.run (Controller.step M) s i t).Started readStart writeStart)
    (hfilling : ∀ t,
      (Clocked.run (Controller.step M) s i t).Filling M readStart target (N t) (C t))
    (hdecr : ∀ t u, t ≤ u → N u ≤ N t) (hfair : BusFair (Clocked.run (Controller.step M) s i) i)
    {t₀ : ℕ} (hstall : ∀ t ≥ t₀, (i t).sysClk = true →
      (Clocked.run (Controller.step M) s i t).read.fifo.words = [] ∧
        (Clocked.run (Controller.step M) s i t).drain.state = .poll ∧
        ReadPath.Stalled 96 (N t) (Clocked.run (Controller.step M) s i t).read
          ((Clocked.run (Controller.step M) s i t).readIn (i t))) : False := by
  obtain ⟨u, hu, huclk, hugrant⟩ := hfair.grantRead t₀
  obtain ⟨-, -, hstill⟩ := hstall u hu huclk
  have hzero := hstill.none_left (hfilling u).left (hstarted u).startRead hugrant
  obtain ⟨v, hv, hvclk, hvanswer⟩ := hfair.answer u
  obtain ⟨hwords, hpoll, hstill'⟩ := hstall v (by omega) hvclk
  have hvzero : N v = 0 := by
    have hle := hdecr u v hv
    omega
  have hinflight := hstill'.inflight_nil hvanswer
  -- nothing is left, and yet fewer than 96 words are stored
  have hend := (hfilling v).words
  rw [held, hpoll, ReadPath.stream, hwords, hinflight, hvzero] at hend
  have hlen := congrArg List.length hend
  rw [htarget] at hlen
  simp at hlen
  have hlt := (hfilling v).lt
  omega

/-- A fair bus ends the drain phase. -/
theorem exists_filled (h : s.Filling M readStart target n c)
    (hs : s.Started readStart writeStart) (htarget : target.length = 96) {i : ℕ → In}
    (hcpu : ∀ t, (i t).cpu = none)
    (hfair : BusFair (Clocked.run (step M) s i) i) :
    ∃ t n, (Clocked.run (Controller.step M) s i t).Filled readStart target n := by
  by_contra hnever
  simp only [not_exists] at hnever
  have hstarted : ∀ t, (Clocked.run (Controller.step M) s i t).Started readStart writeStart := by
    intro t
    induction t with
    | zero => exact hs
    | succ t ih => exact ih.next (hcpu t)
  have hfilling : ∀ t, ∃ n c,
      (Clocked.run (Controller.step M) s i t).Filling M readStart target n c := by
    intro t
    induction t with
    | zero => exact ⟨n, c, h⟩
    | succ t ih =>
      obtain ⟨n, c, hf⟩ := ih
      obtain ⟨n', -, -, hnext⟩ := hf.step (i := i t) (hstarted t)
      rcases hnext with ⟨c', hf'⟩ | hdone
      · exact ⟨n', c', hf'⟩
      · exact absurd hdone (hnever (t + 1) n')
  choose N C hNC using hfilling
  have hstep : ∀ t, N (t + 1) ≤ N t ∧
      (Clocked.run (Controller.step M) s i (t + 1)).fillPotential (N (t + 1)) ≤
        (Clocked.run (Controller.step M) s i t).fillPotential (N t) := by
    intro t
    obtain ⟨n', hle, hpot, hnext⟩ := (hNC t).step (i := i t) (hstarted t)
    rcases hnext with ⟨c', hf'⟩ | hdone
    · obtain rfl : N (t + 1) = n' := (hNC (t + 1)).left.unique (by omega) hf'.left
      exact ⟨hle, hpot⟩
    · exact absurd hdone (hnever (t + 1) n')
  obtain ⟨t₀, hstable⟩ := Clocked.exists_stable
    (fun t => (Clocked.run (Controller.step M) s i t).fillPotential (N t)) fun t => (hstep t).2
  -- from t₀ on every bus clock finds the read side waiting
  have hstall : ∀ t ≥ t₀, (i t).sysClk = true →
      (Clocked.run (Controller.step M) s i t).read.fifo.words = [] ∧
        (Clocked.run (Controller.step M) s i t).drain.state = .poll ∧
        ReadPath.Stalled 96 (N t) (Clocked.run (Controller.step M) s i t).read
          ((Clocked.run (Controller.step M) s i t).readIn (i t)) := by
    intro t ht hclk
    refine ((hNC t).potential_next (hstarted t) hclk).2 ?_
    rcases (hNC t).sysEdge (hstarted t) hclk with ⟨c', hf'⟩ | hdone
    · have heq := (hNC (t + 1)).left.unique (by omega) hf'.left
      have h1 := hstable (t + 1) (by omega)
      have h0 := hstable t ht
      rw [← heq]
      exact h1.trans h0.symm
    · exact absurd hdone (hnever (t + 1) _)
  have hdecr : Antitone N := antitone_nat_of_succ_le fun t => (hstep t).1
  exact not_stalled htarget hstarted hNC (fun _ _ htu => hdecr htu) hfair hstall

end Controller

end SocCrypto.Rsa
