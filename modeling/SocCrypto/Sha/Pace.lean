import SocCrypto.Sha.Job

/-!
# How slow the memory may be

The core works 65 cycles on a block and takes no notice of a block that is late. The assembler
needs 48 cycles for the words of a block and two for the handshake, which leaves it 15 cycles
in which it may find the FIFO empty.
-/

namespace SocCrypto.Sha
open Dma Clocked Sha256Function

/-! ### The core's side -/

/-- Cycles until the compressor takes the last word of the block it has begun. -/
def Core.left (k : Core) : ℕ :=
  match k.compressor.state with
  | .idle => 65
  | .init => 64
  | .round => 63 - k.compressor.iterations.toNat
  | .add => 64
  | .done => 0

section
variable {block : ℕ → List Word} {nb p : ℕ} {k : Core} {n : Word}

/-- A block is taken out of `idle` and in the last round only. -/
theorem Computing.left_take (h : Computing block nb p k) (ht : takes k.scheduler = true)
    (hp : p < nb) (dv : Bool) (m : BitVec 512) : (k.next true dv m n).left = 64 := by
  obtain ⟨hbusy, hready⟩ : k.scheduler.busy = false ∧ k.scheduler.dataReady = true := by
    simpa [takes] using ht
  have hcomp := Core.next_compressor k dv m n
  unfold Core.left
  cases h with
  | idle _ hstate _ _ _ _ =>
    rw [hcomp, Compressor.next_idle hstate, if_pos hready]
  | init _ _ _ _ _ hb _ _ =>
    rw [hbusy] at hb
    cases hb
  | round j r _ _ hr hstate _ _ _ hiter _ hb _ _ =>
    obtain ⟨-, -, -, -, hstate'⟩ :=
      Compressor.next_round hstate k.scheduler.dataReady k.scheduler.oW n
    have hlast : r = 63 := by
      rw [hbusy] at hb
      have := of_decide_eq_false hb.symm
      omega
    have hend : k.compressor.iterations + 1 = 64 :=
      (eq_ofNat_iff (toNat_add_one hiter (by omega)) (show 64 < 2 ^ 7 by decide)).mpr (by omega)
    rw [if_pos hend, ← hcomp] at hstate'
    rw [hstate']
  | add _ _ _ _ _ _ _ hb _ _ =>
    rw [hbusy] at hb
    cases hb
  | last _ hp' hj _ _ _ _ _ => omega
  | done hp' _ _ _ => omega

/-- A core that has begun a block comes one cycle closer to its end. -/
theorem Computing.left_next (h : Computing block nb p k) (ht : takes k.scheduler = false)
    (hpos : 0 < p) (hp : p < nb) (hn : n.toNat = nb) (hsup : Supplied k n) (dv : Bool)
    (m : BitVec 512) : (k.next true dv m n).left + 1 = k.left := by
  have hcomp := Core.next_compressor k dv m n
  unfold Core.left
  cases h with
  | idle hp' _ _ _ _ _ => omega
  | init _ hstate _ _ hiter _ _ _ =>
    rw [hcomp, Compressor.next_init hstate]
    simp [hstate, hiter]
  | round j r hp' _ hr hstate _ _ hblock hiter _ hb _ _ =>
    obtain ⟨-, -, -, hiter', hstate'⟩ :=
      Compressor.next_round hstate k.scheduler.dataReady k.scheduler.oW n
    have hone := toNat_add_one hiter (show r + 1 < 2 ^ 7 by omega)
    have hlt : r < 63 := by
      by_contra hge
      have hbusy : k.scheduler.busy = false := by rw [hb, decide_eq_false hge]
      have hready := hsup hstate hbusy fun heq => by
        have hlast := (blockI_eq_last_iff hblock hn (by omega)).mp heq
        omega
      simp [takes, hbusy, hready] at ht
    have hstay : ¬ k.compressor.iterations + 1 = 64 := by
      intro heq
      have h64 := (eq_ofNat_iff hone (show 64 < 2 ^ 7 by decide)).mp heq
      omega
    rw [if_neg hstay, ← hcomp] at hstate'
    rw [← hcomp] at hiter'
    rw [hstate', hstate]
    simp only [hiter', hone, hiter]
    omega
  | add j hp' hj hstate _ _ hblock _ _ _ =>
    obtain ⟨-, -, hiter', -, hstate'⟩ :=
      Compressor.next_add hstate k.scheduler.dataReady k.scheduler.oW n
    have hnot : ¬ k.compressor.blockI = n - 1 := by
      intro heq
      have hlast := (blockI_eq_last_iff hblock hn (by omega)).mp heq
      omega
    rw [if_neg hnot, ← hcomp] at hstate'
    rw [← hcomp] at hiter'
    rw [hstate', hstate]
    simp only [hiter']
    rfl
  | last _ hp' hj _ _ _ _ _ => omega
  | done hp' _ _ _ => omega

end

namespace Controller

variable {M : Word → Word} {readStart writeStart : Word} {nb n c p q d : ℕ} {s : Controller}
  {i : In} {target : List Word} {g : Progress}

/-! ### The assembler's side -/

/-- Memory has answered every request of the job. -/
def Delivered (s : Controller) : Prop :=
  s.read.master.state = .check ∧ s.read.master.oAddress = s.config.endAddressRead ∧
    s.read.inflight = []

instance (s : Controller) : Decidable s.Delivered := by
  unfold Delivered
  infer_instance

/-- With the core enabled the assembler finds the FIFO empty, and words are still to come. -/
def Dry (s : Controller) : Prop :=
  s.drain.shaEnable = true ∧ s.drain.state = .poll ∧ s.read.fifo.words = [] ∧ ¬ s.Delivered

instance (s : Controller) : Decidable s.Dry := by
  unfold Dry
  infer_instance

def dryNext (s : Controller) (d : ℕ) : ℕ :=
  if s.drain.state = .offer then 0 else if s.Dry then d + 1 else d

/-- Dry cycles before step `t` since the assembler last offered a block. -/
def dry (s : ℕ → Controller) : ℕ → ℕ
  | 0 => 0
  | t + 1 => (s t).dryNext (dry s t)

/-- Cycles until the block in the assembler is in the scheduler. -/
def need (s : Controller) : ℕ :=
  match s.drain.state with
  | .poll => 3 * (16 - s.drain.counter.toNat) + 2
  | .request => 3 * (16 - s.drain.counter.toNat) + 1
  | .store => 3 * (16 - s.drain.counter.toNat)
  | .offer => if s.core.oReadBlock then 1 else 2

/-- Of the 15 spare cycles of a block, `d` are used up; an offered block needs none. -/
def used (s : Controller) (d : ℕ) : ℕ := if s.drain.state = .offer then 15 else d

/-- A block that is not loaded yet will be in time, with the spare cycles that are left. -/
def Timely (nb p q d : ℕ) (s : Controller) : Prop :=
  q = p → 0 < p → p < nb → s.need + 15 ≤ s.core.left + s.used d

theorem need_poll (hs : s.drain.state = .poll) :
    s.need = 3 * (16 - s.drain.counter.toNat) + 2 := by
  simp [need, hs]

theorem need_request (hs : s.drain.state = .request) :
    s.need = 3 * (16 - s.drain.counter.toNat) + 1 := by
  simp [need, hs]

theorem need_store (hs : s.drain.state = .store) : s.need = 3 * (16 - s.drain.counter.toNat) := by
  simp [need, hs]

theorem need_offer (hs : s.drain.state = .offer) :
    s.need = if s.core.oReadBlock then 1 else 2 := by
  simp [need, hs]

theorem need_offer_le (hs : s.drain.state = .offer) : s.need ≤ 2 := by
  rw [need_offer hs]
  split <;> omega

theorem need_le (s : Controller) : s.need ≤ 50 := by
  cases hs : s.drain.state with
  | poll => rw [need_poll hs]; omega
  | request => rw [need_request hs]; omega
  | store => rw [need_store hs]; omega
  | offer => have := need_offer_le hs; omega

theorem need_pos (s : Controller) : 0 < s.need := by
  have hlt := s.drain.counter.isLt
  unfold need
  split
  · omega
  · omega
  · omega
  · split <;> omega

theorem Collecting.requests_zero_iff (h : s.Collecting M readStart target n c)
    (hs : s.Started readStart writeStart nb) (hlen : target.length = 16 * nb) (hnb : nb ≤ 16) :
    s.Delivered ↔ n = 0 ∧ s.read.inflight = [] := by
  have hend : s.config.endAddressRead = readStart + BitVec.ofNat 32 (4 * target.length) := by
    have hfour : 64 * nb = 4 * target.length := by omega
    rw [Config.endAddressRead, hs.readStart, hs.length, hfour]
  have hle := h.left.le
  have haddr := h.left.address
  constructor
  · rintro ⟨hcheck, hstop, hnil⟩
    rw [MasterRead.nextAddress, if_neg (by simp [hcheck]), hstop, hend] at haddr
    have hsame := offset_inj (by omega) (by omega) haddr
    exact ⟨by omega, hnil⟩
  · rintro ⟨rfl, hnil⟩
    have hcheck := h.left.pending rfl
    rw [MasterRead.nextAddress, if_neg (by simp [hcheck])] at haddr
    exact ⟨hcheck, haddr.trans hend.symm, hnil⟩

/-- A job with blocks left to load has words left to store. -/
theorem Collecting.not_delivered (h : s.Collecting M readStart target n c)
    (hs : s.Started readStart writeStart nb) (hlen : target.length = 16 * nb) (hnb : nb ≤ 16)
    (hpoll : s.drain.state = .poll) (hempty : s.read.fifo.words = []) (hc : c < 16 * nb) :
    ¬ s.Delivered := by
  intro hall
  obtain ⟨rfl, hnil⟩ := (h.requests_zero_iff hs hlen hnb).mp hall
  have hwords := congrArg List.length h.words
  simp [hpoll, ReadPath.stream, hempty, hnil, hlen] at hwords
  omega

theorem Hashing.stored_lt (h : s.Hashing target nb c p q) (hle : c ≤ 16 * nb) (hq : q < nb)
    (hne : s.drain.state ≠ .offer) : c < 16 * nb := by
  cases h.handover with
  | quiet _ hq' _ _ => omega
  | offered hoffer _ _ _ => exact absurd hoffer hne
  | reading hoffer _ _ _ _ => exact absurd hoffer hne
  | echo _ hq' hc _ _ _ => omega

/-- A cycle of the assembler brings the block closer or is dry. -/
theorem Collecting.need_next (h : s.Collecting M readStart target n c)
    (hs : s.Started readStart writeStart nb) (hi : Idle i) (hge : 16 ≤ c) (hd : d ≤ 15)
    (hmore : s.drain.state = .poll → s.read.fifo.words = [] → ¬ s.Delivered)
    (hne : s.drain.state ≠ .offer) :
    (s.step M i).need + d + 1 ≤ s.need + (s.step M i).used (s.dryNext d) := by
  have hdrain := hs.drain_next (M := M) hi
  have hcount := s.drain.counter.isLt
  rw [dryNext, if_neg hne]
  cases hst : s.drain.state with
  | poll =>
    have hdone : s.drain.writeDone = false := by rw [h.writeDone, hst]; rfl
    rw [Assembler.next_poll hst, hdone] at hdrain
    by_cases hempty : s.read.fifo.words = []
    · have hdry : s.Dry := ⟨by rw [h.shaEnable, decide_eq_true hge], hst, hempty, hmore hst hempty⟩
      have hemp : s.read.fifo.empty = true := by simp [Fifo.empty, hempty]
      simp only [hemp, Bool.not_true, Bool.false_and, Bool.false_eq_true, if_false] at hdrain
      have hst' : (s.step M i).drain.state = .poll := by rw [hdrain, hst]
      rw [if_pos hdry, used, if_neg (by simp [hst']), need_poll hst, need_poll hst', hdrain]
      omega
    · have hdry : ¬ s.Dry := fun hdry => hempty hdry.2.2.1
      have hemp := Fifo.empty_eq_false_iff.mpr hempty
      simp only [hemp, Bool.not_false, Bool.and_self, if_true] at hdrain
      have hst' : (s.step M i).drain.state = .request := by rw [hdrain]
      have hcounter : (s.step M i).drain.counter = s.drain.counter := by rw [hdrain]
      rw [if_neg hdry, used, if_neg (by simp [hst']), need_poll hst, need_request hst', hcounter]
      omega
  | request =>
    have hdry : ¬ s.Dry := fun hdry => by simp [Dry, hst] at hdry
    rw [Assembler.next_request hst] at hdrain
    have hst' : (s.step M i).drain.state = .store := by rw [hdrain]
    have hcounter : (s.step M i).drain.counter = s.drain.counter := by rw [hdrain]
    rw [if_neg hdry, used, if_neg (by simp [hst']), need_request hst, need_store hst', hcounter]
    omega
  | store =>
    have hdry : ¬ s.Dry := fun hdry => by simp [Dry, hst] at hdry
    rw [Assembler.next_store hst] at hdrain
    rw [if_neg hdry, need_store hst]
    by_cases hfull : s.drain.counter = 15
    · have h15 : s.drain.counter.toNat = 15 := by rw [hfull]; rfl
      have hst' : (s.step M i).drain.state = .offer := by rw [hdrain, if_pos hfull]
      have hle := need_offer_le hst'
      rw [used, if_pos hst']
      omega
    · have hlt : s.drain.counter.toNat + 1 < 2 ^ 4 := by
        by_contra hge'
        exact hfull ((eq_ofNat_iff rfl (show 15 < 2 ^ 4 by decide)).mpr (by omega))
      have hone : (s.step M i).drain.counter.toNat = s.drain.counter.toNat + 1 := by
        rw [hdrain]
        exact toNat_add_one rfl hlt
      have hst' : (s.step M i).drain.state = .poll := by rw [hdrain, if_neg hfull]
      rw [used, if_neg (by simp [hst']), need_poll hst', hone]
      omega
  | offer => exact absurd hst hne

/-! ### The race -/

theorem Timely.supplied (h : s.Timely nb p q d) (hd : d ≤ 15)
    (hh : s.Hashing target nb c p q) (hn : s.numberBlock.toNat = nb) (hpos : 0 < nb) :
    Supplied s.core s.numberBlock := by
  intro hround hidle hblock
  have hleft : p < nb ∧ 0 < p ∧ s.core.left = 0 := by
    cases hh.computing with
    | round j r hp hj hr hstate _ _ hblock' hiter _ hb _ _ =>
      have hlast := blockI_eq_last_iff hblock' hn hpos
      have hne : j + 1 ≠ nb := fun heq => hblock (hlast.mpr heq)
      rw [hidle] at hb
      have hge := of_decide_eq_false hb.symm
      refine ⟨by omega, by omega, ?_⟩
      rw [Core.left, hstate]
      simp only [hiter]
      omega
    | idle _ hstate _ _ _ _ => simp [hstate] at hround
    | init _ hstate _ _ _ _ _ _ => simp [hstate] at hround
    | add _ _ _ hstate _ _ _ _ _ _ => simp [hstate] at hround
    | last _ _ _ hstate _ _ _ _ => simp [hstate] at hround
    | done _ hstate _ _ => simp [hstate] at hround
  obtain ⟨hp, hp0, hzero⟩ := hleft
  rw [hh.ready.ready, decide_eq_true_eq]
  by_contra hne
  have hle := hh.ready.le
  have hle' := hh.ready.le_succ
  have hroom := h (by omega) hp0 hp
  have hneed := need_pos s
  have hused : s.used d ≤ 15 := by
    unfold used
    split <;> omega
  omega

theorem Timely.step (h : s.Timely nb p q d) (hd : d ≤ 15) (hh : s.Hashing target nb c p q)
    (hc : s.Collecting M readStart target n c) (hs : s.Started readStart writeStart nb)
    (hlen : target.length = 16 * nb) (hpos : 0 < nb) (hnb : nb ≤ 16) (hi : Idle i) :
    (s.step M i).Timely nb (takenNext s.core p) (loadedNext s.core q) (s.dryNext d) := by
  intro hpq hp hlt
  have hcore := hh.core_next hc hi
  have hle := hc.le
  have hnum := hs.numberBlock hnb
  have hsup := h.supplied hd hh hnum hpos
  have hqp := hh.ready.le
  rw [hlen] at hle
  -- outside an offer the assembler comes closer, or the cycle is dry
  have hassemble : q < nb → s.drain.state ≠ .offer →
      (s.step M i).need + d + 1 ≤ s.need + (s.step M i).used (s.dryNext d) := fun hq hne =>
    hc.need_next hs hi hh.ge hd (fun hpoll hempty =>
      hc.not_delivered hs hlen hnb hpoll hempty (hh.stored_lt hle hq hne)) hne
  cases ht : takes s.core.scheduler with
  | true =>
    have hready : s.core.scheduler.dataReady = true := by
      simp only [takes, Bool.and_eq_true] at ht
      exact ht.2
    have htaken : takenNext s.core p = p + 1 := by simp [takenNext, ht]
    have hloaded : loadedNext s.core q = q := by simp [loadedNext, hready]
    rw [htaken] at hpq hlt
    rw [hloaded] at hpq
    have hleft := hh.computing.left_take (n := s.numberBlock) ht (by omega) s.drain.writeDone
      s.drain.mem
    rw [← hcore] at hleft
    by_cases hoffer : s.drain.state = .offer
    · have hread : s.core.oReadBlock = false := by
        cases hh.handover with
        | quiet hne _ _ _ => exact absurd hoffer hne
        | offered _ _ hread _ => exact hread
        | reading _ _ _ _ hready' => simp [hready] at hready'
        | echo hpoll _ _ _ _ _ => simp [hoffer] at hpoll
      have hst' : (s.step M i).drain.state = .offer := by
        rw [hs.drain_next hi, Assembler.next_offer hoffer, hread]
        exact hoffer
      have hneed := need_offer_le hst'
      rw [used, if_pos hst']
      omega
    · have hnear := hassemble (by omega) hoffer
      have hneed := need_le s
      omega
  | false =>
    have htaken : takenNext s.core p = p := by simp [takenNext, ht]
    rw [htaken] at hpq hlt hp
    have hq : q = p ∧ loadedNext s.core q = q := by
      have hge : q ≤ loadedNext s.core q := by
        unfold loadedNext
        split <;> omega
      omega
    have hroom := h hq.1 hp hlt
    have hready : s.core.scheduler.dataReady = false := by
      rw [hh.ready.ready, decide_eq_false (by omega)]
    have hleft := hh.computing.left_next ht hp hlt hnum hsup s.drain.writeDone s.drain.mem
    rw [← hcore] at hleft
    by_cases hoffer : s.drain.state = .offer
    · have hread : s.core.oReadBlock = false := by
        by_contra hread
        have hload : loadedNext s.core q = q + 1 := by
          simp [loadedNext, hready, show s.core.oReadBlock = true by simpa using hread]
        omega
      cases hh.handover with
      | offered _ hq' _ hstate =>
        obtain ⟨hst', hread', -⟩ := hh.offered_next hc hs hlen hi hoffer hq' hread hstate
        rw [hready] at hread'
        rw [need_offer hoffer, hread, used, if_pos hoffer] at hroom
        rw [need_offer hst', hread', used, if_pos hst']
        simp only [Bool.not_false, Bool.false_eq_true, if_true, if_false] at hroom ⊢
        omega
      | quiet hne _ _ _ => exact absurd hoffer hne
      | reading _ _ hread' _ _ => simp [hread] at hread'
      | echo hpoll _ _ _ _ _ => simp [hoffer] at hpoll
    · have hnear := hassemble (by omega) hoffer
      rw [used, if_neg hoffer] at hroom
      omega

/-- One step of a job in which no block is late yet. -/
theorem InJob.step_timely (h : InJob M readStart writeStart nb g s)
    (ht : s.Timely nb g.taken g.loaded d) (hd : d ≤ 15) (hpos : 0 < nb) (hnb : nb ≤ 16)
    (hi : Idle i) :
    InJob M readStart writeStart nb (g.next s i) (s.step M i) ∧
      (s.step M i).Timely nb (g.next s i).taken (g.next s i).loaded (s.dryNext d) := by
  rcases h.phase with hf | hh
  · have hidle := hf.disabled
    have hsup : Supplied s.core s.numberBlock := by
      intro hround
      simp [hidle.idle] at hround
    refine ⟨h.step hpos hnb hi hsup, fun _ hp _ => ?_⟩
    have hzero : (g.next s i).taken = 0 := by
      simp [Progress.next, takenNext, takes, hidle.dataReady, hf.taken]
    omega
  · have hsup := ht.supplied hd hh (h.started.numberBlock hnb) hpos
    exact ⟨h.step hpos hnb hi hsup, ht.step hd hh h.collecting h.started
      (length_sourceWords M readStart nb) hpos hnb hi⟩

/-! ### A bus that never stalls -/

/-- Words the FIFO holds at least once the first word has arrived. Both the master and the
assembler take three cycles for a word. -/
def floor : AssemblerState → MasterState → ℕ
  | .request, .raise => 2
  | .store, .check => 0
  | _, _ => 1

/-- The states of an assembler that finds no FIFO empty. -/
def Follows (a' : AssemblerState) : AssemblerState → Prop
  | .poll => a' = .request
  | .request => a' = .store
  | .store | .offer => a' = .poll ∨ a' = .offer

/-- The states of a master that is granted every request. -/
def granted : MasterState → MasterState
  | .start => .raise
  | .raise => .accept
  | .accept => .check
  | .check => .raise

theorem floor_next {a a' : AssemblerState} {m : MasterState} {l l' : ℕ} (ha : Follows a' a)
    (hm : m ≠ .start) (hfloor : floor a m ≤ l)
    (hl : l' + (if a = .request then 1 else 0) = l + (if m = .check then 1 else 0)) :
    floor a' (granted m) ≤ l' := by
  cases a with
  | poll =>
    rw [show a' = .request from ha]
    cases m <;>
      simp only [floor, granted, ne_eq, reduceCtorEq, not_true_eq_false, if_true, if_false]
        at hfloor hl hm ⊢ <;> omega
  | request =>
    rw [show a' = .store from ha]
    cases m <;> simp [floor, granted] at hfloor hl hm ⊢ <;> omega
  | store =>
    rcases ha with rfl | rfl <;> cases m <;> simp [floor] at hfloor hl hm ⊢ <;> omega
  | offer =>
    rcases ha with rfl | rfl <;> cases m <;> simp [floor] at hfloor hl hm ⊢ <;> omega

/-- The first word is on its way, or the FIFO is never found empty. -/
structure Ahead (n c : ℕ) (s : Controller) : Prop where
  inflight : s.read.inflight.length ≤ 1
  check : s.read.inflight ≠ [] → s.read.master.state = .check
  last : s.read.master.state = .check → n ≠ 0 → s.read.inflight ≠ []
  start : s.read.master.state = .start → s.read.fifo.words = []
  ahead : (c = 0 ∧ s.drain.state = .poll ∧ s.read.fifo.words = []) ∨
    (n = 0 ∧ s.read.inflight = []) ∨
    floor s.drain.state s.read.master.state ≤ s.read.fifo.words.length

theorem Ahead.not_dry (h : s.Ahead n c) (hc : s.Collecting M readStart target n c)
    (hs : s.Started readStart writeStart nb) (hlen : target.length = 16 * nb) (hnb : nb ≤ 16) :
    ¬ s.Dry := by
  rintro ⟨henable, hpoll, hempty, hmore⟩
  rw [hc.shaEnable, decide_eq_true_eq] at henable
  rcases h.ahead with ⟨hzero, -, -⟩ | hnone | hfloor
  · omega
  · exact hmore ((hc.requests_zero_iff hs hlen hnb).mpr hnone)
  · rw [hpoll, hempty] at hfloor
    cases hm : s.read.master.state <;> simp [floor] at hfloor

theorem Ahead.fifo_next (h : s.Ahead n c) (hc : s.Collecting M readStart target n c)
    (hs : s.Started readStart writeStart nb) (hlen : target.length = 16 * nb) (hnb : nb ≤ 16)
    (hi : Idle i) (hanswer : i.answer = true) :
    (s.step M i).read.fifo.words.length + (if s.drain.state = .request then 1 else 0) =
      s.read.fifo.words.length + s.read.inflight.length := by
  have hrun := hc.running (i := i) hs hlen
  have haclr : (s.readIn i).aclr = false := hrun.aclr
  have hanswer' : (s.readIn i).answer = true := hanswer
  have hrdreq : (s.readIn i).rdreq = decide (s.drain.state = .request) := hc.fifoRead
  have hpop : (if (s.readIn i).rdreq then s.read.fifo.words.tail else s.read.fifo.words).length +
      (if s.drain.state = .request then 1 else 0) = s.read.fifo.words.length := by
    by_cases hst : s.drain.state = .request
    · have hpos := List.length_pos_iff.mpr (hc.nonempty hst)
      rw [hrdreq, decide_eq_true hst, if_pos rfl, if_pos hst, List.length_tail]
      omega
    · rw [hrdreq, decide_eq_false hst, if_neg hst]
      rfl
  have hpush : (if ((s.readIn i).answer && !s.read.inflight.isEmpty) && !s.read.fifo.full then
      [M (s.read.inflight.headD 0)] else []).length = s.read.inflight.length := by
    have hle := h.inflight
    rcases hc.room (by omega) with hroom | ⟨hnil, -⟩
    · rw [hanswer', hroom]
      cases hinf : s.read.inflight with
      | nil => rfl
      | cons a rest =>
        rw [hinf, List.length_cons] at hle
        obtain rfl : rest = [] := List.eq_nil_of_length_eq_zero (by omega)
        rfl
    · rw [hnil]
      simp
  rw [step_read, if_pos hi.clk, ReadPath.next, Fifo.next, haclr]
  simp only [Bool.false_eq_true, if_false, List.length_append]
  omega

theorem Ahead.inflight_next (h : s.Ahead n c) (hc : s.Collecting M readStart target n c)
    (hi : Idle i) (hwait : i.waitRead = false) (hanswer : i.answer = true) :
    (s.step M i).read.inflight.length = if s.read.master.state = .accept then 1 else 0 := by
  have hanswer' : (s.readIn i).answer = true := hanswer
  have hwait' : (s.readIn i).wait = false := hwait
  have htail : s.read.inflight.tail = [] := by
    have hle := h.inflight
    exact List.eq_nil_of_length_eq_zero (by rw [List.length_tail]; omega)
  rw [step_read, if_pos hi.clk, ReadPath.next, hanswer', hwait', hc.left.read, if_pos rfl, htail]
  by_cases hst : s.read.master.state = .accept <;> simp [hst]

theorem Collecting.master_next (hc : s.Collecting M readStart target n c)
    (hs : s.Started readStart writeStart nb) (hlen : target.length = 16 * nb) (hnb : nb ≤ 16)
    (hi : Idle i) (hwait : i.waitRead = false) :
    (s.step M i).read.master.state =
      if s.read.master.state = .check ∧ n = 0 then .check else granted s.read.master.state := by
  have hrun := hc.running (i := i) hs hlen
  have hmaster : (s.step M i).read.master = s.read.master.next true true readStart
      (readStart + BitVec.ofNat 32 (4 * target.length)) false s.read.fifo.full := by
    rw [step_read, if_pos hi.clk, ReadPath.next, hrun.resetn, hrun.start, hrun.stop, hs.startRead]
    rw [show (s.readIn i).wait = false from hwait]
  rw [hmaster]
  cases hst : s.read.master.state with
  | start =>
    rw [MasterRead.next_start hst]
    simp [granted]
  | raise =>
    rw [MasterRead.next_raise hst]
    simp [granted]
  | accept =>
    have hfull : s.read.fifo.full = false := by
      rcases hc.room (by omega) with hroom | ⟨-, hread⟩
      · exact hroom
      · simp [hc.left.read, hst] at hread
    rw [MasterRead.next_accept hst, hfull]
    simp [granted]
  | check =>
    have hle := hc.left.le
    have haddr := hc.left.address
    rw [MasterRead.nextAddress, if_neg (by simp [hst])] at haddr
    rw [MasterRead.next_check hst]
    by_cases hn : n = 0
    · rw [if_pos (by rw [haddr, hn, Nat.sub_zero]), if_pos ⟨rfl, hn⟩, hst]
    · have hne : s.read.master.oAddress ≠ readStart + BitVec.ofNat 32 (4 * target.length) := by
        intro heq
        have hsame := offset_inj (by omega) (by omega) (haddr.symm.trans heq)
        omega
      rw [if_neg hne, if_neg fun hboth => hn hboth.2]
      rfl

theorem Collecting.left_next (hc : s.Collecting M readStart target n c)
    (hlen : target.length = 16 * nb) (hnb : nb ≤ 16) (hwait : i.waitRead = false) :
    s.read.left (s.readIn i) n = if s.read.master.state = .accept then n - 1 else n := by
  have hroom := hc.room (by omega)
  rw [ReadPath.left, ReadPath.moves_eq_request hc.left hroom, hc.left.read]
  rw [show (s.readIn i).wait = false from hwait]
  by_cases hst : s.read.master.state = .accept <;> simp [hst]

theorem Collecting.follows_next (hc : s.Collecting M readStart target n c)
    (hs : s.Started readStart writeStart nb) (hi : Idle i)
    (hfull : s.drain.state = .poll → s.read.fifo.words ≠ []) :
    Follows (s.step M i).drain.state s.drain.state := by
  have hdrain := hs.drain_next (M := M) hi
  cases hst : s.drain.state with
  | poll =>
    have hdone : s.drain.writeDone = false := by rw [hc.writeDone, hst]; rfl
    rw [Assembler.next_poll hst, hdone, Fifo.empty_eq_false_iff.mpr (hfull hst)] at hdrain
    rw [hdrain]
    rfl
  | request =>
    rw [Assembler.next_request hst] at hdrain
    rw [hdrain]
    rfl
  | store =>
    rw [Assembler.next_store hst] at hdrain
    by_cases hcount : s.drain.counter = 15
    · exact Or.inr (by rw [hdrain, if_pos hcount])
    · exact Or.inl (by rw [hdrain, if_neg hcount])
  | offer =>
    rw [Assembler.next_offer hst] at hdrain
    cases hread : s.core.oReadBlock <;> simp [hdrain, hread, hst, Follows]

theorem Ahead.step (h : s.Ahead n c) (hc : s.Collecting M readStart target n c)
    (hs : s.Started readStart writeStart nb) (hlen : target.length = 16 * nb) (hnb : nb ≤ 16)
    (hi : Idle i) (hwait : i.waitRead = false) (hanswer : i.answer = true) :
    (s.step M i).Ahead (s.read.left (s.readIn i) n) (s.storedNext c) := by
  have hfifo := h.fifo_next hc hs hlen hnb hi hanswer
  have hinf := h.inflight_next hc hi hwait hanswer
  have hmaster := hc.master_next hs hlen hnb hi hwait
  rw [hc.left_next hlen hnb hwait]
  constructor
  case inflight =>
    rw [hinf]
    split <;> omega
  case check =>
    intro hne
    have haccept : s.read.master.state = .accept := by
      by_contra hst
      rw [if_neg hst] at hinf
      exact hne (List.eq_nil_of_length_eq_zero hinf)
    rw [hmaster, haccept]
    simp [granted]
  case last =>
    intro hcheck hn hnil
    rw [hnil] at hinf
    have hst : s.read.master.state ≠ .accept := fun hst => by simp [hst] at hinf
    rw [if_neg hst] at hn
    rw [hmaster, if_neg fun hboth => hn hboth.2] at hcheck
    cases hm : s.read.master.state <;> simp [hm, granted] at hcheck hst
  case start =>
    intro hstart
    rw [hmaster] at hstart
    split at hstart
    · cases hstart
    · cases hm : s.read.master.state <;> simp [hm, granted] at hstart
  case ahead =>
    rcases h.ahead with ⟨hzero, hpoll, hempty⟩ | ⟨hn, hnil⟩ | hfloor
    · -- the first word has not arrived, or arrives
      have hpoll' : (s.step M i).drain.state = .poll := by
        rw [hs.drain_next hi, Assembler.next_poll hpoll]
        simp [Fifo.empty, hempty, hpoll]
      rw [hpoll, hempty] at hfifo
      by_cases hnil : s.read.inflight = []
      · left
        refine ⟨by rw [storedNext_of_ne (by simp [hpoll]), hzero], hpoll', ?_⟩
        refine List.eq_nil_of_length_eq_zero ?_
        simpa [hnil] using hfifo
      · right; right
        have hpos := List.length_pos_iff.mpr hnil
        simp at hfifo
        rw [hpoll']
        cases (s.step M i).read.master.state <;> simp only [floor] <;> omega
    · -- all words have arrived
      right; left
      have hcheck := hc.left.pending hn
      rw [if_neg (by simp [hcheck])] at hinf ⊢
      exact ⟨hn, List.eq_nil_of_length_eq_zero hinf⟩
    · have hfollow := hc.follows_next (M := M) hs hi fun hpoll hempty => by
        rw [hpoll, hempty] at hfloor
        cases hm : s.read.master.state <;> simp [floor] at hfloor
      have hstart : s.read.master.state ≠ .start := by
        intro hst
        rw [h.start hst, hst] at hfloor
        cases hd : s.drain.state <;> simp [hd, floor] at hfloor
      by_cases hend : s.read.master.state = .check ∧ n = 0
      · right; left
        rw [if_neg (by simp [hend.1])] at hinf ⊢
        exact ⟨hend.2, List.eq_nil_of_length_eq_zero hinf⟩
      · right; right
        rw [hmaster, if_neg hend]
        refine floor_next hfollow hstart hfloor (hfifo.trans ?_)
        congr 1
        have hle := h.inflight
        by_cases hcheck : s.read.master.state = .check
        · have hpos := List.length_pos_iff.mpr (h.last hcheck fun hn => hend ⟨hcheck, hn⟩)
          rw [if_pos hcheck]
          omega
        · rw [if_neg hcheck, List.length_eq_zero_iff]
          by_contra hnil
          exact hcheck (h.check hnil)

/-! ### Jobs -/

/-- Nothing has been written, or nothing more is read. -/
def Settled (s : Controller) : Prop := s.writes = [] ∨ s.read.inflight = []

theorem InJob.settled (h : InJob M readStart writeStart nb g s) : s.Settled := by
  by_cases hnone : g.sent = 0
  · left
    rw [h.writes, hnone]
    rfl
  · right
    have hlen := length_sourceWords M readStart nb
    have hstart : s.write.state ≠ .start := fun hst => hnone (h.sent.idle hst)
    have hd := h.done hstart
    rcases h.phase with hf | hh
    · rw [hf.done] at hd
      cases hd
    · have hp := (hh.computing.of_done hd).1
      have hpq := hh.ready.le
      have hqc := hh.handover.le
      have hle := h.collecting.le
      have hwords := congrArg List.length h.collecting.words
      rw [List.length_append, List.length_drop, ReadPath.stream, List.length_append,
        List.length_map, List.length_append] at hwords
      exact List.eq_nil_of_length_eq_zero (by omega)

/-- A job from a hardware reset: the soft reset is low until cycle `T`, in which control is 3 and
`length` is `64 n`, and no register is written later. Memory shows `M` to it unless it has
written itself and reads no more. -/
structure JobRun (M : Word → Word) (s : ℕ → Controller) (i : ℕ → In) (T n : ℕ)
    (readStart writeStart : Word) : Prop where
  pos : 1 ≤ n
  le : n ≤ 16
  step : ∀ t, (s t).Settled → s (t + 1) = (s t).step M (i t)
  reset : HardwareReset (s 0)
  clocks : OneClock i
  before : 0 < T
  low : ∀ t < T, (s t).config.resetn = false
  started : (s T).Started readStart writeStart n
  cpu : ∀ t ≥ T, (i t).cpu = none

section
variable {s : ℕ → Controller} {i : ℕ → In} {T : ℕ}

theorem JobRun.idle (h : JobRun M s i T n readStart writeStart) (t : ℕ) : Idle (i (T + t)) :=
  ⟨(h.clocks (T + t)).1, (h.clocks (T + t)).2, h.cpu (T + t) (by omega)⟩

theorem JobRun.reset_le (h : JobRun M s i T n readStart writeStart) {t : ℕ} (ht : t ≤ T) :
    HardwareReset (s t) ∧ (0 < t → Disabled (s t).core) ∧ dry s t = 0 := by
  induction t with
  | zero => exact ⟨h.reset, fun h0 => absurd h0 (lt_irrefl 0), rfl⟩
  | succ t ih =>
    obtain ⟨hreset, -, hdry⟩ := ih (by omega)
    have hnext := hreset.step (M := M) (h.low t (by omega)) (h.clocks t)
    rw [← h.step t (Or.inl hreset.writes)] at hnext
    have hnot : ¬ (s t).Dry := by
      rintro ⟨henable, -⟩
      rw [hreset.drain] at henable
      cases henable
    refine ⟨hnext.1, fun _ => hnext.2, ?_⟩
    rw [dry, dryNext, hdry, if_neg hnot]
    exact ite_self _

/-- No block of the job is late as long as no block has used up its spare cycles. -/
theorem JobRun.inJob (h : JobRun M s i T n readStart writeStart) (hdry : ∀ t, dry s t ≤ 15)
    (t : ℕ) :
    InJob M readStart writeStart n
        (progress (fun u => s (T + u)) (fun u => i (T + u)) (.initial n) t) (s (T + t)) ∧
      (s (T + t)).Timely n
        (progress (fun u => s (T + u)) (fun u => i (T + u)) (.initial n) t).taken
        (progress (fun u => s (T + u)) (fun u => i (T + u)) (.initial n) t).loaded
        (dry s (T + t)) := by
  induction t with
  | zero =>
    obtain ⟨hreset, hdis, -⟩ := h.reset_le le_rfl
    exact ⟨hreset.inJob (hdis h.before) h.started h.pos, fun _ hp _ => absurd hp (lt_irrefl 0)⟩
  | succ t ih =>
    have hnext := ih.1.step_timely ih.2 (hdry (T + t)) h.pos h.le (h.idle t)
    rw [← h.step (T + t) ih.1.settled] at hnext
    exact hnext

/-- A job in time writes the digest on every fair bus, and never anything else. -/
theorem JobRun.writes (h : JobRun M s i T n readStart writeStart) (hdry : ∀ t, dry s t ≤ 15)
    (hfair : BusFair s i) :
    (∃ t₀, ∀ t ≥ t₀, (s t).writes = digestWrites writeStart (jobDigest M readStart n)) ∧
      ∀ t, (s t).writes <+: digestWrites writeStart (jobDigest M readStart n) := by
  have hjob := h.inJob hdry
  have hstep : ∀ t, s (T + (t + 1)) = (s (T + t)).step M (i (T + t)) := fun t =>
    h.step (T + t) (hjob t).1.settled
  obtain ⟨⟨t₀, hend⟩, hpart⟩ := transfers_of_inJob (fun t => (hjob t).1) hstep h.pos h.le h.idle
    (hfair.shift T)
  constructor
  · refine ⟨T + t₀, fun t ht => ?_⟩
    obtain ⟨u, rfl⟩ := Nat.exists_eq_add_of_le (show T ≤ t by omega)
    exact hend u (by omega)
  · intro t
    rcases Nat.lt_or_ge t T with hlt | hge
    · rw [(h.reset_le hlt.le).1.writes]
      exact List.nil_prefix
    · obtain ⟨u, rfl⟩ := Nat.exists_eq_add_of_le hge
      exact hpart u

/-- On a bus that grants every request and answers it in the next cycle no cycle is dry. -/
theorem JobRun.dry_eq_zero (h : JobRun M s i T n readStart writeStart)
    (hbus : ∀ t ≥ T, (i t).waitRead = false ∧ (i t).answer = true) (t : ℕ) : dry s t = 0 := by
  have hrun : ∀ t, ∃ g, InJob M readStart writeStart n g (s (T + t)) ∧
      (s (T + t)).Timely n g.taken g.loaded 0 ∧ (s (T + t)).Ahead g.requests g.stored ∧
      dry s (T + t) = 0 := by
    intro t
    induction t with
    | zero =>
      obtain ⟨hreset, hdis, hdry⟩ := h.reset_le le_rfl
      refine ⟨.initial n, hreset.inJob (hdis h.before) h.started h.pos,
        fun _ hp _ => absurd hp (lt_irrefl 0), ?_, hdry⟩
      constructor
      case inflight => simp [hreset.inflight]
      case check => exact fun hne => absurd hreset.inflight hne
      case last => simp [hreset.master, MasterRead.reset]
      case start => exact fun _ => hreset.fifo
      case ahead =>
        have hpoll : (s T).drain.state = .poll := by
          rw [hreset.drain]
          rfl
        exact Or.inl ⟨rfl, hpoll, hreset.fifo⟩
    | succ t ih =>
      obtain ⟨g, hjob, htimely, hahead, hdry⟩ := ih
      have hlen := length_sourceWords M readStart n
      have hi := h.idle t
      have hstep : s (T + (t + 1)) = (s (T + t)).step M (i (T + t)) :=
        h.step (T + t) hjob.settled
      obtain ⟨hwait, hanswer⟩ := hbus (T + t) (by omega)
      have hnot := hahead.not_dry hjob.collecting hjob.started hlen h.le
      have hnext : (s (T + t)).dryNext 0 = 0 := by
        rw [dryNext, if_neg hnot]
        exact ite_self _
      obtain ⟨hjob', htimely'⟩ := hjob.step_timely htimely (Nat.zero_le 15) h.pos h.le hi
      rw [hnext] at htimely'
      refine ⟨g.next (s (T + t)) (i (T + t)), ?_, ?_, ?_, ?_⟩
      · rw [hstep]
        exact hjob'
      · rw [hstep]
        exact htimely'
      · rw [hstep]
        exact hahead.step hjob.collecting hjob.started hlen h.le hi hwait hanswer
      · show (s (T + t)).dryNext (dry s (T + t)) = 0
        rw [hdry, hnext]
  rcases Nat.lt_or_ge t T with hlt | hge
  · exact (h.reset_le hlt.le).2.2
  · obtain ⟨-, -, -, -, hdry⟩ := hrun (t - T)
    rwa [Nat.add_sub_cancel' hge] at hdry

end

/-! ### The digest -/

/-- From a hardware reset, with the soft reset low until cycle `T`, in which control is 3 and
`length` is `64 n`: on every fair bus on which the assembler finds the FIFO empty in 15 cycles
of a block at most, the first block excepted, exactly the eight words of the hash of the stored
blocks are written, `H[7]` first. -/
theorem hash_of_dry_le (M : Word → Word) (s : Controller) (i : ℕ → In) (T n : ℕ)
    (readStart writeStart : Word) (hn : 1 ≤ n) (hn' : n ≤ 16) (hreset : HardwareReset s)
    (hclk : OneClock i) (hT : 0 < T)
    (hlow : ∀ t < T, (run (step M) s i t).config.resetn = false)
    (hstart : (run (step M) s i T).Started readStart writeStart n)
    (hcpu : ∀ t ≥ T, (i t).cpu = none) (hfair : BusFair (run (step M) s i) i)
    (hdry : ∀ t, dry (run (step M) s i) t ≤ 15) :
    let hash := digest ((List.range n).map (sourceBlock (sourceWords M readStart n)))
    (∃ t₀, ∀ t ≥ t₀, (run (step M) s i t).writes = digestWrites writeStart hash) ∧
      ∀ t, (run (step M) s i t).writes <+: digestWrites writeStart hash :=
  JobRun.writes ⟨hn, hn', fun _ _ => rfl, hreset, hclk, hT, hlow, hstart, hcpu⟩ hdry hfair

theorem driver_jobRun (n : ℕ) (hn : 1 ≤ n) (hn' : n ≤ 16) (answer : ℕ → Bool) :
    JobRun id (run (step id) powerUp (driver (BitVec.ofNat 32 (64 * n)) answer))
      (driver (BitVec.ofNat 32 (64 * n)) answer) 5 n 0 4096 :=
  ⟨hn, hn', fun _ _ => rfl, powerUp_reset, driver_oneClock _ _, by decide, driver_low _ _,
    driver_started n _, fun _ ht => driver_cpu _ _ ht⟩

/-- Sixteen blocks from a memory that never stalls. -/
theorem hash_of_dry_le_sixteen :
    ∃ t₀, ∀ t ≥ t₀, (run (step id) powerUp (driver 1024 fun _ => true) t).writes =
      digestWrites 4096 (digest ((List.range 16).map (sourceBlock (sourceWords id 0 16)))) :=
  (hash_of_dry_le id powerUp (driver 1024 fun _ => true) 5 16 0 4096 (by decide) le_rfl
    powerUp_reset (driver_oneClock _ _) (by decide) (driver_low _ _) (driver_started 16 _)
    (fun _ ht => driver_cpu _ _ ht) (driver_fair _ (n := 0) (fun _ _ => rfl) _)
    fun t => ((driver_jobRun 16 (by decide) le_rfl fun _ => true).dry_eq_zero
      (fun _ _ => ⟨rfl, rfl⟩) t).le.trans (Nat.zero_le 15)).1

/-- Two blocks; memory answers no read for 20 cycles. -/
def pausing : ℕ → In := driver 128 fun t => decide (t < 60) || decide (80 ≤ t)

/-- One dry cycle more is too many. -/
example : dry (run (step id) powerUp pausing) 100 = 16 ∧
    ¬ (run (step id) powerUp pausing 230).writes <+:
      digestWrites 4096 (digest ((List.range 2).map (sourceBlock (sourceWords id 0 2)))) := by
  decide +kernel

end Controller

end SocCrypto.Sha
