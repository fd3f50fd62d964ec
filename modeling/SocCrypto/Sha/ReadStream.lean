import SocCrypto.Clocked
import SocCrypto.Sha.Assembly

/-!
# The read stream of the SHA-256 controller

From the read master to the shift register `mem`, for messages of any length and a core that
asks for its blocks whenever it likes. The stream is the source as long as no answer arrives and
no request is accepted while the FIFO is full: then a word would be dropped, or one requested
twice, since the bus does not see what holds the master back.
-/

namespace SocCrypto.Sha
open Dma Clocked

/-- A word is stored in the cycle after its request. -/
theorem Assembler.next_state_store (d : Assembler) (fifoEmpty readBlock : Bool) (q : Word) :
    (d.next true fifoEmpty q readBlock).state = .store ↔ d.state = .request := by
  cases hs : d.state with
  | poll => rw [next_poll hs]; split <;> simp [hs]
  | request => rw [next_request hs]; simp
  | store => rw [next_store hs]; simp only; split <;> simp
  | offer => rw [next_offer hs]; split <;> simp [hs]

/-- The read side of the controller and the words shifted into `mem`. -/
structure ReadStream where
  read : ReadPath
  drain : Assembler
  shifted : List Word
  deriving DecidableEq

namespace ReadStream

structure In where
  waitRead : Bool
  /-- Memory answers the oldest accepted read. -/
  answer : Bool
  /-- `read_block` of the core. -/
  readBlock : Bool

/-- What the read side sees in a cycle with control 3. -/
def readIn (readStart length : Word) (s : ReadStream) (i : In) : ReadPath.In where
  resetn := true
  startRead := true
  aclr := false
  readStart := readStart
  endAddress := readStart + length
  rdreq := s.drain.fifoRead
  wait := i.waitRead
  answer := i.answer

def step (M : Word → Word) (readStart length : Word) (s : ReadStream) (i : In) : ReadStream where
  read := s.read.next M (s.readIn readStart length i)
  drain := s.drain.next true s.read.fifo.empty s.read.fifo.q i.readBlock
  shifted := if s.drain.state = .store then s.shifted ++ [s.read.fifo.q] else s.shifted

/-- After a reset, with the FIFO empty and no read under way. -/
structure AtStart (s : ReadStream) : Prop where
  master : s.read.master = MasterRead.reset
  fifo : s.read.fifo.words = []
  inflight : s.read.inflight = []
  drain : s.drain = s.drain.reset
  shifted : s.shifted = []

/-- The read side of the controller. -/
def ofController (s : Controller) (shifted : List Word) : ReadStream := ⟨s.read, s.drain, shifted⟩

/-- An edge of `iClk` steps it, whatever the core does. -/
theorem ofController_step (M : Word → Word) {s : Controller} {i : Controller.In} (hclk : i.clk = true)
    (hcontrol : s.config.control = 3) (shifted : List Word) :
    step M s.config.readStart s.config.length (ofController s shifted)
        ⟨i.waitRead, i.answer, s.core.oReadBlock⟩ =
      ofController (s.step M i)
        (if s.drain.state = .store then shifted ++ [s.read.fifo.q] else shifted) := by
  have hresetn : s.config.resetn = true := by rw [Config.resetn, hcontrol]; rfl
  have hstart : s.config.startRead = true := by rw [Config.startRead, hcontrol]; rfl
  have hclear : s.config.fifoClear = false := by rw [Config.fifoClear, hcontrol]; rfl
  simp [step, ofController, readIn, Controller.step_read, Controller.step_drain, hclk,
    Controller.readIn, hresetn, hstart, hclear, Config.endAddressRead]
  rfl

/-! ### What is under way -/

variable {M : Word → Word} {readStart length : Word} {total n : ℕ} {target : List Word}
  {s : ReadStream} {i : In}

/-- With `n` of `total` requests left, the words shifted and those on the way to `mem` are
`target`. -/
structure Carries (M : Word → Word) (readStart : Word) (total : ℕ) (target : List Word) (n : ℕ)
    (s : ReadStream) : Prop where
  left : s.read.master.Left readStart total n
  fifoRead : s.drain.fifoRead = decide (s.drain.state = .request)
  nonempty : s.drain.state = .request → s.read.fifo.words ≠ []
  writeDone : s.drain.writeDone = decide (s.drain.state = .offer)
  words : s.shifted ++ ((if s.drain.state = .store then [s.read.fifo.q] else []) ++
    s.read.stream M readStart n) = target

theorem AtStart.carries (h : s.AtStart) (htotal : 0 < total) :
    s.Carries M readStart total ((addresses readStart total).map M) total := by
  have hd := h.drain
  constructor
  · rw [h.master]
    exact MasterRead.left_reset readStart htotal
  · rw [hd]
    rfl
  · rw [hd]
    intro hs
    cases hs
  · rw [hd]
    rfl
  · have hstate : s.drain.state = .poll := by rw [hd]; rfl
    simp [h.shifted, hstate, ReadPath.stream, h.fifo, h.inflight, h.master, MasterRead.nextAddress,
      MasterRead.reset]

theorem Carries.running (h : s.Carries M readStart total target n)
    (htotal : length = BitVec.ofNat 32 (4 * total)) (i : In) :
    ReadPath.Running readStart total s.read (s.readIn readStart length i) := by
  refine ⟨rfl, rfl, rfl, by rw [htotal]; rfl, fun hread => ?_⟩
  have hfifo : s.drain.fifoRead = true := hread
  rw [h.fifoRead] at hfifo
  exact h.nonempty (of_decide_eq_true hfifo)

theorem Carries.step (h : s.Carries M readStart total target n)
    (htotal : length = BitVec.ofNat 32 (4 * total))
    (hfits : s.read.Fits (s.readIn readStart length i)) :
    (s.step M readStart length i).Carries M readStart total target
      (s.read.left (s.readIn readStart length i) n) := by
  have hrun := h.running htotal i
  have hleft := ReadPath.left_next (M := M) h.left hrun
  have hstream := hfits.stream_next (M := M) h.left hrun
  have hrdreq : (s.readIn readStart length i).rdreq = decide (s.drain.state = .request) := h.fifoRead
  have hread : (s.step M readStart length i).read =
      s.read.next M (s.readIn readStart length i) := rfl
  have hdrain : (s.step M readStart length i).drain =
      s.drain.next true s.read.fifo.empty s.read.fifo.q i.readBlock := rfl
  have hshifted : (s.step M readStart length i).shifted =
      if s.drain.state = .store then s.shifted ++ [s.read.fifo.q] else s.shifted := rfl
  have hdone := h.writeDone
  have hwords := h.words
  rw [← hread] at hleft hstream
  rw [hrdreq] at hstream
  refine ⟨hleft, ?_, ?_, ?_, ?_⟩
  · rw [hdrain]
    cases hs : s.drain.state with
    | poll => rw [Assembler.next_poll hs]; split <;> simp [h.fifoRead, hs]
    | request => rw [Assembler.next_request hs]; rfl
    | store => rw [Assembler.next_store hs]; simp only; split <;> simp [h.fifoRead, hs]
    | offer => rw [Assembler.next_offer hs]; split <;> simp [h.fifoRead, hs]
  · rw [hdrain]
    cases hs : s.drain.state with
    | poll =>
      rw [Assembler.next_poll hs]
      split
      · rename_i hgo
        intro _
        have hne : s.read.fifo.words ≠ [] := by
          rw [← Fifo.empty_eq_false_iff]
          simp only [Bool.and_eq_true, Bool.not_eq_true'] at hgo
          exact hgo.1
        have hoff : s.drain.fifoRead = false := by simp [h.fifoRead, hs]
        simp [hread, ReadPath.next, readIn, Fifo.next, hoff, hne]
      · simp [hs]
    | request => rw [Assembler.next_request hs]; simp
    | store => rw [Assembler.next_store hs]; simp only; split <;> simp
    | offer => rw [Assembler.next_offer hs]; split <;> simp [hs]
  · rw [hdrain]
    cases hs : s.drain.state with
    | poll => rw [Assembler.next_poll hs]; split <;> simp [hdone, hs]
    | request => rw [Assembler.next_request hs]; simp [hdone, hs]
    | store =>
      rw [Assembler.next_store hs]
      by_cases hc : s.drain.counter = 15#4 <;> simp [hdone, hs, hc]
    | offer => rw [Assembler.next_offer hs]; split <;> simp [hdone, hs]
  · rw [hshifted, hdrain, hstream]
    simp only [Assembler.next_state_store]
    rw [← hwords]
    cases hs : s.drain.state with
    | request =>
      obtain ⟨w, ws, hw⟩ := List.exists_cons_of_ne_nil (h.nonempty hs)
      have hq : (s.step M readStart length i).read.fifo.q = w := by
        simp [hread, ReadPath.next, readIn, h.fifoRead, hs, hw]
      simp [hq, ReadPath.stream, hw]
    | poll => simp
    | store => simp
    | offer => simp

/-! ### Progress -/

/-- The bus grants, memory answers and the core asks again and again, at least while the FIFO is
empty. -/
structure Serves (s : ℕ → ReadStream) (i : ℕ → In) : Prop where
  grant : ∀ t, ∃ u ≥ t, (s u).read.fifo.words = [] → (s u).read.master.oRead = true →
    (i u).waitRead = false
  answer : ∀ t, ∃ u ≥ t, (s u).read.fifo.words = [] → (s u).read.inflight ≠ [] →
    (i u).answer = true
  ask : ∀ t, ∃ u ≥ t, (i u).readBlock = true

section
variable {i : ℕ → In} {N : ℕ → ℕ}

/-- States of a run. -/
def after (M : Word → Word) (readStart length : Word) (s : ReadStream) (i : ℕ → In) :
    ℕ → ReadStream :=
  run (step M readStart length) s i

/-- Nothing is shifted and the master does not move from `T` on. -/
structure Stuck (M : Word → Word) (readStart length : Word) (total n : ℕ) (target : List Word)
    (r : ℕ → ReadStream) (i : ℕ → In) (T : ℕ) : Prop where
  step : ∀ t ≥ T, r (t + 1) = (r t).step M readStart length (i t)
  carries : ∀ t ≥ T, (r t).Carries M readStart total target n
  moves : ∀ t ≥ T, (r t).read.master.moves (i t).waitRead (r t).read.fifo.full = false ∨ n = 0
  store : ∀ t ≥ T, (r t).drain.state ≠ .store

variable {r : ℕ → ReadStream} {T : ℕ}

/-- The assembler polls an empty FIFO. -/
structure Starved (s : ReadStream) : Prop where
  state : s.drain.state = .poll
  empty : s.read.fifo.words = []

theorem Stuck.starved (h : Stuck M readStart length total n target r i T)
    (hask : ∀ t, ∃ u ≥ t, (i u).readBlock = true) : ∃ T' ≥ T, ∀ t ≥ T', (r t).Starved := by
  have hdrain : ∀ t ≥ T, (r (t + 1)).drain = (r t).drain.next true (r t).read.fifo.empty
      (r t).read.fifo.q (i t).readBlock := by
    intro t ht
    rw [h.step t ht]
    rfl
  have hrequest : ∀ t ≥ T, (r t).drain.state ≠ .request := by
    intro t ht hs
    refine h.store (t + 1) (by omega) ?_
    rw [hdrain t ht, Assembler.next_state_store]
    exact hs
  have hpoll : ∃ T' ≥ T, (r T').drain.state = .poll := by
    by_contra hno
    obtain ⟨u, hu, hrb⟩ := hask T
    have hoffer : (r u).drain.state = .offer := by
      cases hs : (r u).drain.state with
      | poll => exact absurd ⟨u, hu, hs⟩ hno
      | request => exact absurd hs (hrequest u hu)
      | store => exact absurd hs (h.store u hu)
      | offer => rfl
    refine hno ⟨u + 1, by omega, ?_⟩
    rw [hdrain u hu, Assembler.next_offer hoffer, hrb]
    rfl
  obtain ⟨T', hT', hs⟩ := hpoll
  have hempty : ∀ t ≥ T, (r t).drain.state = .poll → (r t).read.fifo.words = [] := by
    intro t ht hst
    by_contra hne
    refine hrequest (t + 1) (by omega) ?_
    have hdone : (r t).drain.writeDone = false := by simp [(h.carries t ht).writeDone, hst]
    rw [hdrain t ht, Assembler.next_poll hst, Fifo.empty_eq_false_iff.mpr hne, hdone]
    rfl
  have hstay : ∀ t ≥ T', (r t).drain.state = .poll := by
    intro t ht
    induction t, ht using Nat.le_induction with
    | base => exact hs
    | succ t ht ih =>
      have hno : (r t).read.fifo.empty = true := by
        rw [Fifo.empty, hempty t (by omega) ih]
        rfl
      rw [hdrain t (by omega), Assembler.next_poll ih, hno]
      exact ih
  exact ⟨T', hT', fun t ht => ⟨hstay t ht, hempty t (by omega) (hstay t ht)⟩⟩

/-- A master with requests left and an empty FIFO before it moves. -/
theorem Stuck.moves_late (h : Stuck M readStart length total n target r i T) (hn : n ≠ 0)
    (htotal : length = BitVec.ofNat 32 (4 * total)) (hlt : 4 * total < 2 ^ 32)
    (hgrant : ∀ t, ∃ u ≥ t, (r u).read.fifo.words = [] → (r u).read.master.oRead = true →
      (i u).waitRead = false) {T' : ℕ} (hT' : T' ≥ T)
    (hempty : ∀ t ≥ T', (r t).read.fifo.words = []) : False := by
  have hfull : ∀ t ≥ T', (r t).read.fifo.full = false := by
    intro t ht
    rw [Fifo.full_eq_false_iff, hempty t ht]
    decide
  have hmoves : ∀ t ≥ T', (r t).read.master.moves (i t).waitRead (r t).read.fifo.full = false := by
    intro t ht
    exact (h.moves t (by omega)).resolve_right hn
  have hmaster : ∀ t ≥ T', (r (t + 1)).read.master = (r t).read.master.next true true readStart
      (readStart + BitVec.ofNat 32 (4 * total)) (i t).waitRead (r t).read.fifo.full := by
    intro t ht
    rw [h.step t (by omega), ← htotal]
    rfl
  have hrank : ∀ t, (r (T' + (t + 1))).read.master.state.rank n ≤
      (r (T' + t)).read.master.state.rank n := by
    intro t
    have hle := (h.carries (T' + t) (by omega)).left.rank_next_le true (i (T' + t)).waitRead
      (r (T' + t)).read.fifo.full (readStart + BitVec.ofNat 32 (4 * total))
    rw [hmoves (T' + t) (by omega)] at hle
    rw [← Nat.add_assoc, hmaster (T' + t) (by omega)]
    exact hle
  obtain ⟨t₀, hstable⟩ := exists_stable (fun t => (r (T' + t)).read.master.state.rank n) hrank
  obtain ⟨u, hu, hgranted⟩ := hgrant (T' + t₀)
  have hconst : (r (u + 1)).read.master.state.rank n = (r u).read.master.state.rank n := by
    have hone := hstable (u - T') (by omega)
    have htwo := hstable (u + 1 - T') (by omega)
    rw [Nat.add_sub_cancel' (by omega)] at hone htwo
    rw [hone, htwo]
  rw [hmaster u (by omega)] at hconst
  have hleft := (h.carries u (by omega)).left
  have hwaits := hleft.waits hlt
    (by rw [hmoves u (by omega), if_neg Bool.false_ne_true]; exact hconst)
  rcases hwaits with ⟨-, hstart⟩ | ⟨hs, hwait⟩ | ⟨-, hzero⟩
  · cases hstart
  · have hread : (r u).read.master.oRead = true := by rw [hleft.read, hs]; rfl
    rw [hgranted (hempty u (by omega)) hread, hfull u (by omega)] at hwait
    cases hwait
  · exact hn hzero

theorem Stuck.shifted (h : Stuck M readStart length total n target r i T)
    (htotal : length = BitVec.ofNat 32 (4 * total)) (hlt : 4 * total < 2 ^ 32)
    (hserves : Serves r i) : ∃ T' ≥ T, ∀ t ≥ T', (r t).shifted = target := by
  obtain ⟨T₁, hT₁, hstarved⟩ := h.starved hserves.ask
  have hnext : ∀ t ≥ T, (r (t + 1)).read = (r t).read.next M ((r t).readIn readStart length (i t)) := by
    intro t ht
    rw [h.step t ht]
    rfl
  have hwords : ∀ t ≥ T₁, (r t).shifted ++
      ((r t).read.inflight ++ addresses ((r t).read.master.nextAddress readStart) n).map M =
      target := by
    intro t ht
    have hw := (h.carries t (by omega)).words
    simpa [(hstarved t ht).state, ReadPath.stream, (hstarved t ht).empty] using hw
  have hsame : ∀ t ≥ T, (r (t + 1)).shifted = (r t).shifted := by
    intro t ht
    rw [h.step t ht]
    exact if_neg (h.store t ht)
  have hkept : ∀ t ≥ T₁, (r t).shifted = (r T₁).shifted := by
    intro t ht
    induction t, ht using Nat.le_induction with
    | base => rfl
    | succ t ht ih => rw [hsame t (by omega), ih]
  obtain ⟨u, hu, hans⟩ := hserves.answer T₁
  have hinflight : (r u).read.inflight = [] := by
    by_contra hne
    have hfull : (r u).read.fifo.full = false := by
      rw [Fifo.full_eq_false_iff, (hstarved u hu).empty]
      decide
    have harrives : (r (u + 1)).read.fifo.words ≠ [] := by
      rw [hnext u (by omega)]
      simp [ReadPath.next, readIn, Fifo.next, hans (hstarved u hu).empty hne, hne, hfull]
    exact harrives (hstarved (u + 1) (by omega)).empty
  have hn : n = 0 := by
    by_contra hn
    exact h.moves_late hn htotal hlt hserves.grant hT₁ fun t ht => (hstarved t ht).empty
  refine ⟨T₁, hT₁, fun t ht => ?_⟩
  have hall := hwords u hu
  rw [hinflight, hn] at hall
  simp only [addresses_zero, List.append_nil, List.map_nil] at hall
  rw [hkept t ht, ← hkept u hu, hall]

/-- A run that never clashes with a full FIFO shifts everything under way. -/
theorem Carries.exists_shifted {i : ℕ → In} (h : s.Carries M readStart total target n)
    (htotal : length = BitVec.ofNat 32 (4 * total)) (hlt : 4 * total < 2 ^ 32)
    (hfits : ∀ t, (after M readStart length s i t).read.Fits
      ((after M readStart length s i t).readIn readStart length (i t)))
    (hserves : Serves (after M readStart length s i) i) :
    ∃ T, ∀ t ≥ T, (after M readStart length s i t).shifted = target := by
  have hcarries : ∀ t, ∃ n, (after M readStart length s i t).Carries M readStart total target n := by
    intro t
    induction t with
    | zero => exact ⟨n, h⟩
    | succ t ih =>
      obtain ⟨n, hn⟩ := ih
      exact ⟨_, hn.step htotal (hfits t)⟩
  choose N hN using hcarries
  have hleft : ∀ t, N (t + 1) = (after M readStart length s i t).read.left
      ((after M readStart length s i t).readIn readStart length (i t)) (N t) := fun t =>
    (hN (t + 1)).left.unique hlt ((hN t).step htotal (hfits t)).left
  obtain ⟨T₁, hstable⟩ := exists_stable N fun t => by
    rw [hleft t]
    exact ReadPath.left_le _ _ _
  have hlen : ∀ t, (after M readStart length s i t).shifted.length ≤ target.length := by
    intro t
    have hw := congrArg List.length (hN t).words
    rw [List.length_append] at hw
    omega
  have hgrow : ∀ t, (after M readStart length s i (t + 1)).shifted =
      if (after M readStart length s i t).drain.state = .store then
        (after M readStart length s i t).shifted ++ [(after M readStart length s i t).read.fifo.q]
      else (after M readStart length s i t).shifted := fun _ => rfl
  obtain ⟨T₂, hfinal⟩ := exists_stable
    (fun t => target.length - (after M readStart length s i t).shifted.length) fun t => by
      rw [hgrow t]
      split
      · rw [List.length_append]
        omega
      · exact le_rfl
  have hstuck : Stuck M readStart length total (N T₁) target (after M readStart length s i) i
      (max T₁ T₂) := by
    refine ⟨fun t _ => rfl, fun t ht => ?_, fun t ht => ?_, fun t ht hs => ?_⟩
    · rw [← hstable t (by omega)]
      exact hN t
    · by_contra hboth
      obtain ⟨hstays, hpos⟩ := not_or.mp hboth
      have hmoves : (after M readStart length s i t).read.master.moves
          ((after M readStart length s i t).readIn readStart length (i t)).wait
          (after M readStart length s i t).read.fifo.full = true :=
        Bool.eq_true_of_not_eq_false hstays
      have hnext := hleft t
      rw [hstable t (by omega), hstable (t + 1) (by omega), ReadPath.left,
        if_pos hmoves] at hnext
      omega
    · have hone := hfinal t (by omega)
      have htwo := hfinal (t + 1) (by omega)
      have hlate := hlen (t + 1)
      simp only [hgrow t, hs, if_true, List.length_append, List.length_singleton] at htwo hlate
      omega
  obtain ⟨T, -, hshifted⟩ := hstuck.shifted htotal hlt hserves
  exact ⟨T, hshifted⟩

end

/-- In every run from the reset of a message of positive length divisible by 64 in which no
answer arrives and no request is accepted while the FIFO is full, the words shifted into `mem`
are at all times the first ones of the source, and at the end, when the bus, memory and core
stall finitely, all of it. -/
theorem lossless (M : Word → Word) (readStart length : Word) (s : ReadStream) (i : ℕ → In)
    (hstart : s.AtStart) (hlength : 64 ∣ length.toNat) (hpos : 0 < length.toNat)
    (hfits : ∀ t, (after M readStart length s i t).read.Fits
      ((after M readStart length s i t).readIn readStart length (i t))) :
    (∀ t, (after M readStart length s i t).shifted <+:
        (addresses readStart (length.toNat / 4)).map M) ∧
      (Serves (after M readStart length s i) i → ∃ T, ∀ t ≥ T,
        (after M readStart length s i t).shifted =
          (addresses readStart (length.toNat / 4)).map M) := by
  have hlt := length.isLt
  have htotal : length = BitVec.ofNat 32 (4 * (length.toNat / 4)) := by
    rw [Nat.mul_div_cancel' (dvd_trans (by decide) hlength), BitVec.ofNat_toNat,
      BitVec.setWidth_eq]
  have hcarries : s.Carries M readStart (length.toNat / 4)
      ((addresses readStart (length.toNat / 4)).map M) (length.toNat / 4) :=
    hstart.carries (by omega)
  refine ⟨fun t => ?_, hcarries.exists_shifted htotal (by omega) hfits⟩
  have hrun : ∃ n, (after M readStart length s i t).Carries M readStart (length.toNat / 4)
      ((addresses readStart (length.toNat / 4)).map M) n := by
    induction t with
    | zero => exact ⟨_, hcarries⟩
    | succ t ih =>
      obtain ⟨n, hn⟩ := ih
      exact ⟨_, hn.step htotal (hfits t)⟩
  obtain ⟨n, hn⟩ := hrun
  rw [← hn.words]
  exact List.prefix_append _ _

theorem Carries.fits (h : s.Carries M readStart total target n) (hlen : target.length ≤ 256)
    (i : ReadPath.In) : s.read.Fits i := by
  refine (ReadPath.room_of_stream (M := M) h.left ?_).fits i
  have hw := congrArg List.length h.words
  rw [List.length_append, List.length_append] at hw
  omega

theorem fits_of_short {i : ℕ → In} (total : ℕ) (h : s.AtStart) (htotal : length = BitVec.ofNat 32 (4 * total))
    (hpos : 0 < total) (hshort : total ≤ 256) (t : ℕ) :
    (after M readStart length s i t).read.Fits
      ((after M readStart length s i t).readIn readStart length (i t)) := by
  have hlen : ((addresses readStart total).map M).length ≤ 256 := by simpa using hshort
  have hrun : ∃ n, (after M readStart length s i t).Carries M readStart total
      ((addresses readStart total).map M) n := by
    induction t with
    | zero => exact ⟨_, h.carries hpos⟩
    | succ t ih =>
      obtain ⟨n, hn⟩ := ih
      exact ⟨_, hn.step htotal (hn.fits hlen _)⟩
  obtain ⟨n, hn⟩ := hrun
  exact hn.fits hlen _

/-- The reset state. -/
def initial : ReadStream := ⟨⟨MasterRead.reset, ⟨[], 0⟩, []⟩, ⟨.poll, 0, false, false, false, 0⟩, []⟩

theorem initial_atStart : initial.AtStart := ⟨rfl, rfl, rfl, rfl, rfl⟩

theorem lossless_oneBlock : ∃ T, ∀ t ≥ T,
    (after id 0 64 initial (fun _ => ⟨false, true, true⟩) t).shifted = addresses 0 16 := by
  have h := (lossless id 0 64 initial (fun _ => ⟨false, true, true⟩) initial_atStart (by decide)
    (by decide) fun t => fits_of_short 16 initial_atStart rfl (by decide) (by decide) t).2
    ⟨fun t => ⟨t, le_rfl, fun _ _ => rfl⟩, fun t => ⟨t, le_rfl, fun _ _ => rfl⟩,
      fun t => ⟨t, le_rfl, rfl⟩⟩
  simpa using h

/-! ### A full FIFO -/

/-- A request accepted while the FIFO is full is made again. -/
theorem Carries.clash (h : s.Carries M readStart total target n)
    (hs : s.drain.state = .offer) (hfull : s.read.fifo.full = true)
    (hread : s.read.master.oRead = true) (hinflight : s.read.inflight = []) :
    ∃ target', (s.step M readStart length ⟨false, false, false⟩).Carries M readStart total target' n ∧
      target'.length = target.length + 1 := by
  have hleft := h.left
  have hst : s.read.master.state = .accept := by
    rw [hleft.read] at hread
    exact of_decide_eq_true hread
  have hmaster : (s.step M readStart length ⟨false, false, false⟩).read.master = s.read.master := by
    show s.read.master.next true true readStart (readStart + length) false s.read.fifo.full = _
    rw [MasterRead.next_accept hst, hfull]
    rfl
  have hdrain : (s.step M readStart length ⟨false, false, false⟩).drain = s.drain := by
    show s.drain.next true _ _ false = _
    rw [Assembler.next_offer hs]
    rfl
  have hoff : s.drain.fifoRead = false := by simp [h.fifoRead, hs]
  have hfifo : (s.step M readStart length ⟨false, false, false⟩).read.fifo = s.read.fifo := by
    simp [ReadStream.step, ReadPath.next, readIn, Fifo.next, hoff]
  have hnew : (s.step M readStart length ⟨false, false, false⟩).read.inflight =
      [s.read.master.oAddress] := by
    simp [ReadStream.step, ReadPath.next, readIn, hinflight, hread]
  have hshifted : (s.step M readStart length ⟨false, false, false⟩).shifted = s.shifted := by
    simp [ReadStream.step, hs]
  refine ⟨_, ⟨by rw [hmaster]; exact hleft, by rw [hdrain]; exact h.fifoRead,
    by rw [hdrain, hfifo]; exact h.nonempty, by rw [hdrain]; exact h.writeDone, rfl⟩, ?_⟩
  have hlen := congrArg List.length h.words
  rw [hshifted, hdrain, hfifo]
  simp only [ReadPath.stream, hfifo, hnew, hmaster, hs, hinflight, List.length_append,
    List.length_map, length_addresses, List.length_singleton, List.length_nil] at hlen ⊢
  omega

/-- A bus and a memory that wait for room in the FIFO. -/
def polite (s : ReadStream) : In := ⟨s.read.fifo.full, !s.read.fifo.full, true⟩

def closedLoop (M : Word → Word) (readStart length : Word) (s : ReadStream) : ℕ → ReadStream
  | 0 => s
  | t + 1 => (closedLoop M readStart length s t).step M readStart length
      (polite (closedLoop M readStart length s t))

theorem after_closedLoop (M : Word → Word) (readStart length : Word) (s : ReadStream) :
    after M readStart length s (fun t => polite (closedLoop M readStart length s t)) =
      closedLoop M readStart length s := by
  funext t
  induction t with
  | zero => rfl
  | succ t ih =>
    show (after M readStart length s _ t).step M readStart length _ = _
    rw [ih]
    rfl

theorem polite_fits (s : ReadStream) : s.read.Fits (s.readIn readStart length (polite s)) := by
  intro hfull
  simp [readIn, polite, hfull]

theorem polite_serves (s : ReadStream) : Serves (closedLoop M readStart length s)
    fun t => polite (closedLoop M readStart length s t) := by
  have hroom : ∀ t, (closedLoop M readStart length s t).read.fifo.words = [] →
      (closedLoop M readStart length s t).read.fifo.full = false := by
    intro t hempty
    rw [Fifo.full_eq_false_iff, hempty]
    decide
  refine ⟨fun t => ⟨t, le_rfl, fun hempty _ => hroom t hempty⟩,
    fun t => ⟨t, le_rfl, fun hempty _ => ?_⟩, fun t => ⟨t, le_rfl, rfl⟩⟩
  simp [polite, hroom t hempty]

theorem Carries.exists_closedLoop (h : s.Carries M readStart total target n) (length : Word)
    (htotal : length = BitVec.ofNat 32 (4 * total)) (hlt : 4 * total < 2 ^ 32) :
    ∃ T, ∀ t ≥ T, (closedLoop M readStart length s t).shifted = target := by
  have hrun := h.exists_shifted (i := fun t => polite (closedLoop M readStart length s t)) htotal hlt
  rw [after_closedLoop] at hrun
  exact hrun (fun t => polite_fits _) (polite_serves s)

/-- The core has its first block and asks for no other; `k` words wait in the FIFO. -/
structure Filled (k : ℕ) (s : ReadStream) : Prop where
  master : s.read.master = ⟨.raise, BitVec.ofNat 32 (64 + 4 * k), false⟩
  words : s.read.fifo.words = addresses 64 k
  inflight : s.read.inflight = []
  state : s.drain.state = .offer
  fifoRead : s.drain.fifoRead = false
  writeDone : s.drain.writeDone = true
  shifted : s.shifted = addresses 0 16

/-- An unstalled bus and a core that does not ask. -/
def fillIn : In := ⟨false, true, false⟩

theorem filled_first : (after id 0 1280 initial (fun _ => fillIn) 52).Filled 1 := by
  constructor <;> decide +kernel

theorem fill_period {f : Fifo} {a : Word} (hfull : f.full = false) (ha : a + 4 ≠ 1280) :
    let j : ReadPath.In := ⟨true, true, false, 0, 1280, false, false, true⟩
    ((ReadPath.next id ⟨⟨.raise, a, false⟩, f, []⟩ j).next id j).next id j =
      ⟨⟨.raise, a + 4, false⟩, ⟨f.words ++ [a], f.q⟩, []⟩ := by
  have ha' : ¬ a + 4#32 = 1280#32 := ha
  simp [ReadPath.next, MasterRead.next, Fifo.next, hfull, ha']

theorem Filled.next {k : ℕ} (h : s.Filled k) (hk : k < 256) :
    (after id 0 1280 s (fun _ => fillIn) 3).Filled (k + 1) := by
  have hstep : ∀ p : ReadPath, (⟨p, s.drain, s.shifted⟩ : ReadStream).step id 0 1280 fillIn =
      ⟨p.next id ⟨true, true, false, 0, 1280, false, false, true⟩, s.drain, s.shifted⟩ := by
    intro p
    simp [ReadStream.step, readIn, fillIn, Assembler.next_offer h.state, h.fifoRead, h.state]
  have hthree : after id 0 1280 s (fun _ => fillIn) 3 =
      ⟨⟨⟨.raise, BitVec.ofNat 32 (64 + 4 * k) + 4, false⟩,
        ⟨s.read.fifo.words ++ [BitVec.ofNat 32 (64 + 4 * k)], s.read.fifo.q⟩, []⟩, s.drain,
        s.shifted⟩ := by
    have hread : s.read = ⟨⟨.raise, BitVec.ofNat 32 (64 + 4 * k), false⟩, s.read.fifo, []⟩ := by
      rw [← h.master, ← h.inflight]
    have hend : BitVec.ofNat 32 (64 + 4 * k) + 4 ≠ 1280 := by
      intro heq
      have hnat := congrArg BitVec.toNat heq
      rw [BitVec.toNat_add, BitVec.toNat_ofNat] at hnat
      simp only [BitVec.reduceToNat] at hnat
      omega
    have hfull : s.read.fifo.full = false := by
      rw [Fifo.full_eq_false_iff, h.words, length_addresses]
      exact hk
    show ((ReadStream.step id 0 1280 ⟨s.read, s.drain, s.shifted⟩ fillIn).step id 0 1280
      fillIn).step id 0 1280 fillIn = _
    rw [hstep, hstep, hstep, hread, fill_period hfull hend]
  rw [hthree]
  have haddress : BitVec.ofNat 32 (64 + 4 * k) + 4 = BitVec.ofNat 32 (64 + 4 * (k + 1)) := by
    rw [show 64 + 4 * (k + 1) = 64 + 4 * k + 4 by omega, BitVec.ofNat_add (64 + 4 * k)]
    rfl
  refine ⟨by rw [haddress], ?_, rfl, h.state, h.fifoRead, h.writeDone, h.shifted⟩
  show s.read.fifo.words ++ _ = _
  rw [h.words, addresses_succ_last, BitVec.ofNat_add]
  rfl

theorem filled_all {k : ℕ} (hk : k < 256) :
    (after id 0 1280 initial (fun _ => fillIn) (52 + 3 * k)).Filled (k + 1) := by
  induction k with
  | zero => exact filled_first
  | succ k ih =>
    have hnext := (ih (by omega)).next (by omega)
    rw [show 52 + 3 * (k + 1) = 52 + 3 * k + 3 by omega, after, run_add]
    exact hnext

/-- The FIFO is full and the next request comes up. -/
theorem Filled.request (h : s.Filled 256) :
    (s.step id 0 1280 fillIn).Carries id 0 320 (addresses 0 320) 48 ∧
      (s.step id 0 1280 fillIn).drain.state = .offer ∧
      (s.step id 0 1280 fillIn).read =
        ⟨⟨.accept, 1088, true⟩, ⟨addresses 64 256, s.read.fifo.q⟩, []⟩ := by
  have hdrain : (s.step id 0 1280 fillIn).drain = s.drain := by
    show s.drain.next true _ _ false = _
    rw [Assembler.next_offer h.state]
    rfl
  have hread : (s.step id 0 1280 fillIn).read =
      ⟨⟨.accept, 1088, true⟩, ⟨addresses 64 256, s.read.fifo.q⟩, []⟩ := by
    simp [ReadStream.step, ReadPath.next, readIn, fillIn, h.master, h.inflight, h.fifoRead, h.words,
      MasterRead.next, Fifo.next]
  have hshifted : (s.step id 0 1280 fillIn).shifted = addresses 0 16 := by
    simp [ReadStream.step, h.state, h.shifted]
  refine ⟨⟨?_, ?_, ?_, ?_, ?_⟩, by rw [hdrain]; exact h.state, hread⟩
  · rw [hread]
    exact ⟨by decide, (by decide : (1088 : Word) = 0 + BitVec.ofNat 32 (4 * (320 - 48))), rfl,
      fun h0 => absurd h0 (by decide)⟩
  · rw [hdrain, h.fifoRead, h.state]
    rfl
  · rw [hdrain, h.state]
    simp
  · rw [hdrain, h.writeDone, h.state]
    rfl
  · rw [hread, hdrain, h.state, hshifted]
    show addresses 0 16 ++ ([] ++ (addresses 64 256 ++ ([] ++ addresses 1088 48).map id)) = _
    decide +kernel

/-- One request accepted while the FIFO is full, with a core that takes no block before: its
word is shifted twice. -/
theorem not_lossless : ∃ i : ℕ → In, Serves (after id 0 1280 initial i) i ∧
    ¬ ∀ t, (after id 0 1280 initial i t).shifted <+: addresses 0 320 := by
  let full := (after id 0 1280 initial (fun _ => fillIn) 817).step id 0 1280 fillIn
  let twice := full.step id 0 1280 ⟨false, false, false⟩
  have hfilled : (after id 0 1280 initial (fun _ => fillIn) 817).Filled 256 :=
    filled_all (k := 255) (by decide)
  obtain ⟨hcarries, hoffer, hread⟩ := hfilled.request
  obtain ⟨target, hclash, hlen⟩ : ∃ target, twice.Carries id 0 320 target 48 ∧
      target.length = (addresses 0 320).length + 1 :=
    hcarries.clash hoffer (by rw [hread]; decide +kernel) (by rw [hread]) (by rw [hread])
  obtain ⟨T, hT⟩ := hclash.exists_closedLoop 1280 rfl (by decide)
  -- the run to `twice`, the closed loop until everything is shifted, then no stalls at all
  let i : ℕ → In := fun t =>
    if t < 818 then fillIn
    else if t = 818 then ⟨false, false, false⟩
    else if t < 819 + T then polite (closedLoop id 0 1280 twice (t - 819))
    else ⟨false, true, true⟩
  have hearly : after id 0 1280 initial i 818 = full :=
    run_congr fun u hu => if_pos (by omega)
  have htwice : after id 0 1280 initial i 819 = twice := by
    show (after id 0 1280 initial i 818).step id 0 1280 (i 818) = _
    rw [hearly]
    rfl
  have hlate : after id 0 1280 initial i (819 + T) = closedLoop id 0 1280 twice T := by
    rw [← after_closedLoop, after, run_add]
    show run (ReadStream.step id 0 1280) (after id 0 1280 initial i 819) _ T = _
    rw [htwice]
    refine run_congr fun u hu => ?_
    show (if 819 + u < 818 then fillIn else _) = _
    rw [if_neg (by omega), if_neg (by omega), if_pos (by omega), Nat.add_sub_cancel_left]
  have hfree : ∀ t, ∃ u ≥ t, i u = ⟨false, true, true⟩ := by
    intro t
    refine ⟨max t (819 + T), le_max_left _ _, ?_⟩
    have hle := le_max_right t (819 + T)
    show (if _ < 818 then fillIn else _) = _
    rw [if_neg (by omega), if_neg (by omega), if_neg (by omega)]
  refine ⟨i, ⟨?_, ?_, ?_⟩, fun hfirst => ?_⟩
  · intro t
    obtain ⟨u, hu, hi⟩ := hfree t
    exact ⟨u, hu, fun _ _ => by rw [hi]⟩
  · intro t
    obtain ⟨u, hu, hi⟩ := hfree t
    exact ⟨u, hu, fun _ _ => by rw [hi]⟩
  · intro t
    obtain ⟨u, hu, hi⟩ := hfree t
    exact ⟨u, hu, by rw [hi]⟩
  · have hle := (hfirst (819 + T)).length_le
    rw [hlate, hT T le_rfl, hlen, length_addresses] at hle
    omega

end ReadStream

end SocCrypto.Sha
