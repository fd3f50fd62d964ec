import SocCrypto.Sha.Assembly

/-!
# Handing blocks to the core

Between the assembler and the scheduler a block passes the handshake of
`SHA_256.v`. `q` blocks have been loaded into the scheduler and `p` of them taken;
the first block is read twice, which the scheduler does not notice.
-/

namespace SocCrypto.Sha
open Dma

/-! ### The scheduler's side -/

/-- Blocks taken by the scheduler after a cycle. -/
def takenNext (k : Core) (p : ℕ) : ℕ := if takes k.scheduler then p + 1 else p

/-- Blocks loaded into the scheduler after a cycle. -/
def loadedNext (k : Core) (q : ℕ) : ℕ :=
  if k.oReadBlock && !k.scheduler.dataReady then q + 1 else q

/-- `q` blocks have been loaded and `p` taken. -/
structure Ready (block : ℕ → List Word) (p q : ℕ) (s : Scheduler) : Prop where
  le : p ≤ q
  le_succ : q ≤ p + 1
  ready : s.dataReady = decide (q = p + 1)
  holds : q = p + 1 → Holds s.message (block p)

theorem Scheduler.next_keep {s : Scheduler} (hs : takes s = false) (iLoad : Bool)
    (iMessage : BitVec 512) :
    (s.next true iLoad iMessage).dataReady = (iLoad || s.dataReady) ∧
      (s.next true iLoad iMessage).message = if iLoad then iMessage else s.message := by
  cases hb : s.busy
  · have hready : s.dataReady = false := by simpa [takes, hb] using hs
    obtain ⟨-, hdr, hm⟩ := Scheduler.next_wait hb hs iLoad iMessage
    exact ⟨by rw [hdr, hready, Bool.or_false], hm⟩
  · obtain ⟨-, -, -, -, hdr, hm⟩ := Scheduler.next_busy hb iLoad iMessage
    exact ⟨hdr, hm⟩

theorem Ready.step {block : ℕ → List Word} {p q : ℕ} {k : Core} (h : Ready block p q k.scheduler)
    {m : BitVec 512}
    (hmem : k.oReadBlock = true → k.scheduler.dataReady = false → Holds m (block q))
    (hecho : k.oReadBlock = true → k.scheduler.dataReady = true → k.scheduler.busy = false) :
    Ready block (takenNext k p) (loadedNext k q) (k.scheduler.next true k.oReadBlock m) := by
  have hle := h.le
  have hle' := h.le_succ
  have hready := h.ready
  cases ht : takes k.scheduler
  · obtain ⟨hdr, hm⟩ := Scheduler.next_keep ht k.oReadBlock m
    rw [takenNext, ht, if_neg Bool.false_ne_true, loadedNext]
    cases hrb : k.oReadBlock
    · simp only [hrb, Bool.false_or, Bool.false_eq_true, if_false] at hdr hm
      rw [Bool.false_and, if_neg Bool.false_ne_true]
      exact ⟨hle, hle', by rw [hdr, hready], by rw [hm]; exact h.holds⟩
    · cases hdata : k.scheduler.dataReady
      · rw [hdata] at hready
        have hq : ¬ q = p + 1 := of_decide_eq_false hready.symm
        obtain rfl : q = p := by omega
        simp only [hrb, Bool.true_or, if_true] at hdr hm
        refine ⟨by simp, by simp, by simp [hdr], ?_⟩
        rw [hm]
        exact fun _ => hmem hrb hdata
      · have hbusy := hecho hrb hdata
        simp [takes, hbusy, hdata] at ht
  · obtain ⟨-, -, -, hdr⟩ := Scheduler.next_take ht k.oReadBlock m
    have hdata : k.scheduler.dataReady = true := by
      simp only [takes, Bool.and_eq_true] at ht
      exact ht.2
    rw [hdata] at hready
    have hq : q = p + 1 := of_decide_eq_true hready.symm
    rw [takenNext, ht, if_pos rfl, loadedNext, hdata, Bool.not_true, Bool.and_false,
      if_neg Bool.false_ne_true]
    refine ⟨by omega, by omega, ?_, by omega⟩
    rw [hdr]
    exact (decide_eq_false (by omega)).symm

namespace Controller

/-! ### The handshake -/

/-- Where the handshake stands when `c` words are stored and `q` blocks loaded. -/
inductive Handover (c q : ℕ) (s : Controller) : Prop
  | quiet (hdrain : s.drain.state ≠ .offer) (hq : q = c / 16) (hread : s.core.oReadBlock = false)
      (hstate : s.core.state = .wait ∨ (s.core.state = .finish ∧ s.core.oDone = true)) :
      Handover c q s
  | offered (hdrain : s.drain.state = .offer) (hq : q + 1 = c / 16)
      (hread : s.core.oReadBlock = false)
      (hstate : s.core.state = if q = 0 then .first else .wait) : Handover c q s
  | reading (hdrain : s.drain.state = .offer) (hq : q + 1 = c / 16)
      (hread : s.core.oReadBlock = true)
      (hstate : s.core.state = if q = 0 then .wait else .load)
      (hready : s.core.scheduler.dataReady = false) : Handover c q s
  | echo (hdrain : s.drain.state = .poll) (hq : q = 1) (hc : c = 16)
      (hread : s.core.oReadBlock = true) (hstate : s.core.state = .load)
      (hready : s.core.scheduler.dataReady = true) : Handover c q s

/-- Steps of the handshake left for `m` blocks. -/
def handRank (s : Controller) (m : ℕ) : ℕ :=
  4 * m + if s.drain.state = .offer then (if s.core.oReadBlock then 0 else 1)
    else if s.core.oReadBlock then 3 else 2

/-- A job whose first block is complete: `p` blocks taken, `q` loaded. -/
structure Hashing (target : List Word) (nb c p q : ℕ) (s : Controller) : Prop where
  ge : 16 ≤ c
  handover : Handover c q s
  ready : Ready (sourceBlock target) p q s.core.scheduler
  computing : Computing (sourceBlock target) nb p s.core

variable {M : Word → Word} {readStart writeStart : Word} {nb n c p q : ℕ} {s : Controller}
  {i : In} {target : List Word}

theorem Handover.le (h : s.Handover c q) : q ≤ c / 16 := by
  cases h <;> omega

theorem length_sourceBlock {j : ℕ} (hlen : target.length = 16 * nb) (hj : j < nb) :
    (sourceBlock target j).length = 16 := by
  rw [sourceBlock, List.length_take, List.length_drop]
  omega

end Controller

theorem Computing.of_done {block : ℕ → List Word} {nb p : ℕ} {k : Core}
    (h : Computing block nb p k) (hd : k.oDone = true) :
    p = nb ∧ k.compressor.H = chain block nb := by
  have hstate : k.compressor.state = .done := of_decide_eq_true hd
  cases h with
  | idle _ hs _ _ _ _ => simp [hs] at hstate
  | init _ hs _ _ _ _ _ _ => simp [hs] at hstate
  | round _ _ _ _ _ hs _ _ _ _ _ _ _ _ => simp [hs] at hstate
  | add _ _ _ hs _ _ _ _ _ _ => simp [hs] at hstate
  | last _ _ _ hs _ _ _ _ => simp [hs] at hstate
  | done hp _ hH _ => exact ⟨hp, hH⟩

theorem Computing.of_zero {block : ℕ → List Word} {nb p : ℕ} {k : Core}
    (h : Computing block nb p k) (hpos : 0 < nb) (hp : p = 0) : k.scheduler.busy = false := by
  cases h with
  | idle _ _ _ _ _ hb => exact hb
  | init hp' _ _ _ _ _ _ _ => omega
  | round _ _ hp' _ _ _ _ _ _ _ _ _ _ _ => omega
  | add _ hp' _ _ _ _ _ _ _ _ => omega
  | last _ hp' _ _ _ _ _ _ => omega
  | done hp' _ _ _ => exact absurd (hp'.symm.trans hp) hpos.ne'

theorem Core.oDone_next {k : Core} (h : k.oDone = true) (dv : Bool) (m : BitVec 512) (n : Word) :
    (k.next true dv m n).oDone = true := by
  have hstate : k.compressor.state = .done := of_decide_eq_true h
  simp [Core.oDone, Compressor.oDone, Core.next, Compressor.next, hstate]

theorem Core.next_without_block {k : Core} (hread : k.oReadBlock = false)
    (hstate : k.state = .wait ∨ k.state = .finish) (m : BitVec 512) (n : Word) :
    (k.next true false m n).oReadBlock = false := by
  rcases hstate with hst | hst
  · cases hd : k.oDone <;> simp [Core.next, hst, hd]
  · simp [Core.next, hst, hread]

/-- The core asks for an offered block as soon as the scheduler is free. -/
theorem Core.next_offered {k : Core} {q : ℕ} (hread : k.oReadBlock = false)
    (hstate : k.state = if q = 0 then .first else .wait) (hd : k.oDone = false)
    (m : BitVec 512) (n : Word) :
    (k.next true true m n).oReadBlock = !k.scheduler.dataReady ∧
      (k.next true true m n).state =
        if k.scheduler.dataReady then k.state else if q = 0 then .wait else .load := by
  by_cases h0 : q = 0 <;> simp only [h0, if_true, if_false] at hstate ⊢ <;>
    cases hdr : k.scheduler.dataReady <;>
    simp [Core.next, hstate, hd, Scheduler.oDataRequest, hdr, hread]

/-- Cycles the core still needs when it does not wait. -/
def Core.rank (nb : ℕ) (k : Core) : ℕ :=
  match k.compressor.state with
  | .idle => 65 * nb + 2
  | .init => 65 * nb + 1
  | .round => 65 * (nb - k.compressor.blockI.toNat) - k.compressor.iterations.toNat
  | .add => 65 * (nb - k.compressor.blockI.toNat) - 64
  | .done => 0

/-- The core moves on unless it waits for its first block or has finished. -/
theorem Computing.rank_next {block : ℕ → List Word} {nb p : ℕ} {k : Core}
    (h : Computing block nb p k) {n : Word} (hn : n.toNat = nb) (hpos : 0 < nb) (dv : Bool)
    (m : BitVec 512) :
    (k.next true dv m n).rank nb < k.rank nb ∨
      ((k.next true dv m n).rank nb = k.rank nb ∧
        ((p = 0 ∧ takes k.scheduler = false) ∨ k.oDone = true)) := by
  have hcomp : (k.next true dv m n).compressor =
      k.compressor.next true k.scheduler.dataReady k.scheduler.oW n := rfl
  unfold Core.rank
  rw [hcomp]
  have hround : ∀ j r, j < nb → r < 64 → k.compressor.state = .round →
      k.compressor.blockI.toNat = j → k.compressor.iterations.toNat = r →
      (k.next true dv m n).rank nb < k.rank nb := by
    intro j r hj hr hstate hblock hiter
    obtain ⟨-, -, hblock', hiter', hstate'⟩ :=
      Compressor.next_round hstate k.scheduler.dataReady k.scheduler.oW n
    have hone : (k.compressor.iterations + 1).toNat = r + 1 := toNat_add_one hiter (by omega)
    simp only [Core.rank, hcomp, hblock', hiter', hstate', hstate]
    by_cases hend : k.compressor.iterations + 1 = 64
    · have h64 : r + 1 = 64 := (eq_ofNat_iff hone (show 64 < 2 ^ 7 by decide)).mp hend
      simp only [if_pos hend, hblock, hiter]
      omega
    · simp only [if_neg hend, hblock, hiter, hone]
      omega
  have hadd : ∀ j, j < nb → k.compressor.state = .add → k.compressor.blockI.toNat = j →
      (k.next true dv m n).rank nb < k.rank nb := by
    intro j hj hstate hblock
    obtain ⟨-, -, hiter', hblock', hstate'⟩ :=
      Compressor.next_add hstate k.scheduler.dataReady k.scheduler.oW n
    have hlast := blockI_eq_last_iff hblock hn hpos
    simp only [Core.rank, hcomp, hblock', hiter', hstate', hstate]
    by_cases hend : k.compressor.blockI = n - 1
    · simp only [if_pos hend, hblock]
      omega
    · have hone : (k.compressor.blockI + 1).toNat = j + 1 := by
        refine toNat_add_one hblock ?_
        have := n.isLt
        omega
      have hne : ¬ j + 1 = nb := fun heq => hend (hlast.mpr heq)
      have hzero : (0 : BitVec 7).toNat = 0 := rfl
      simp only [if_neg hend, hblock, hone, hzero]
      omega
  cases h with
  | idle hp hstate hH hblock hiter hbusy =>
    cases hdr : k.scheduler.dataReady
    · right
      rw [Compressor.next_idle hstate, if_neg Bool.false_ne_true]
      exact ⟨rfl, Or.inl ⟨hp, takes_of_not_ready hdr⟩⟩
    · left
      simp [Compressor.next, hstate]
  | init hp hstate hH hblock hiter hbusy hcount hW =>
    left
    have hzero : (0 : BitVec 7).toNat = 0 := rfl
    have hzero' : (0 : Word).toNat = 0 := rfl
    simp only [Compressor.next, hstate, Bool.not_true, Bool.false_eq_true, if_false, hblock, hiter,
      hzero, hzero']
    omega
  | round j r hp hj hr hstate hH hvars hblock hiter hword hbusy hcount hW =>
    exact Or.inl (hround j r hj hr hstate hblock hiter)
  | add j hp hj hstate hH hvars hblock hbusy hcount hW =>
    exact Or.inl (hadd j (by omega) hstate hblock)
  | last j hp hj hstate hH hvars hblock hbusy =>
    exact Or.inl (hadd j (by omega) hstate hblock)
  | done hp hstate hH hbusy =>
    right
    rw [Compressor.next_done hstate]
    exact ⟨rfl, Or.inr (by simp [Core.oDone, Compressor.oDone, hstate])⟩

namespace Controller

variable {M : Word → Word} {readStart writeStart : Word} {nb n c p q : ℕ} {s : Controller}
  {i : In} {target : List Word}

theorem Hashing.not_done (h : s.Hashing target nb c p q) (hq : q < nb) : s.core.oDone = false := by
  by_contra hd
  have hp := (h.computing.of_done (by simpa using hd)).1
  have := h.ready.le
  omega

theorem core_next (h : s.Collecting M readStart target n c) (hi : Idle i) :
    (s.step M i).core =
      s.core.next (decide (16 ≤ c)) s.drain.writeDone s.drain.mem s.numberBlock := by
  rw [step_core, if_pos hi.shaClk, h.shaEnable]

theorem Hashing.core_next (h : s.Hashing target nb c p q)
    (hc : s.Collecting M readStart target n c) (hi : Idle i) :
    (s.step M i).core = s.core.next true s.drain.writeDone s.drain.mem s.numberBlock := by
  rw [Controller.core_next hc hi, decide_eq_true h.ge]

theorem loadedNext_of_not_read {k : Core} (hread : k.oReadBlock = false) : loadedNext k q = q := by
  simp [loadedNext, hread]

theorem Hashing.quiet_next (h : s.Hashing target nb c p q)
    (hc : s.Collecting M readStart target n c) (hi : Idle i) (hne : s.drain.state ≠ .offer)
    (hread : s.core.oReadBlock = false)
    (hstate : s.core.state = .wait ∨ (s.core.state = .finish ∧ s.core.oDone = true)) :
    (s.step M i).core.oReadBlock = false ∧
      (s.core.oDone = false → (s.step M i).core.state = .wait) ∧
      ((s.step M i).core.state = .wait ∨
        ((s.step M i).core.state = .finish ∧ (s.step M i).core.oDone = true)) := by
  have hcore := h.core_next hc hi
  have hdone : s.drain.writeDone = false := by rw [hc.writeDone, decide_eq_false hne]
  have hwait : s.core.oDone = false → (s.step M i).core.state = .wait := by
    intro hd
    rw [hcore]
    rcases hstate with hst | ⟨-, hd'⟩
    · simp [Core.next, hst, hd, hdone]
    · rw [hd] at hd'
      cases hd'
  refine ⟨?_, hwait, ?_⟩
  · rw [hcore, hdone]
    exact Core.next_without_block hread (hstate.imp_right And.left) _ _
  · cases hd : s.core.oDone
    · exact Or.inl (hwait hd)
    · right
      refine ⟨?_, by rw [hcore]; exact Core.oDone_next hd _ _ _⟩
      rw [hcore]
      rcases hstate with hst | ⟨hst, -⟩ <;> simp [Core.next, hst, hd]

/-- An offered block stays until the scheduler is free. -/
theorem Hashing.offered_next (h : s.Hashing target nb c p q)
    (hc : s.Collecting M readStart target n c) (hs : s.Started readStart writeStart nb)
    (hlen : target.length = 16 * nb) (hi : Idle i) (hoffer : s.drain.state = .offer)
    (hq : q + 1 = c / 16) (hread : s.core.oReadBlock = false)
    (hstate : s.core.state = if q = 0 then .first else .wait) :
    (s.step M i).drain.state = .offer ∧
      (s.step M i).core.oReadBlock = !s.core.scheduler.dataReady ∧
      (s.step M i).core.state =
        if s.core.scheduler.dataReady then s.core.state else if q = 0 then .wait else .load := by
  have hle := hc.le
  have hcore := h.core_next hc hi
  have hnot := h.not_done (by omega)
  have hnext := Core.next_offered hread hstate hnot s.drain.mem s.numberBlock
  rw [hc.writeDone, decide_eq_true hoffer] at hcore
  rw [← hcore] at hnext
  refine ⟨?_, hnext⟩
  rw [hs.drain_next hi, Assembler.next_offer hoffer, hread]
  exact hoffer

/-- A block that is read goes into the scheduler, and the assembler starts the next one. -/
theorem Hashing.reading_next (h : s.Hashing target nb c p q)
    (hc : s.Collecting M readStart target n c) (hs : s.Started readStart writeStart nb)
    (hi : Idle i) (hoffer : s.drain.state = .offer) (hread : s.core.oReadBlock = true)
    (hready : s.core.scheduler.dataReady = false) :
    (s.step M i).drain.state = .poll ∧ loadedNext s.core q = q + 1 ∧
      (s.step M i).core.scheduler.dataReady = true := by
  refine ⟨?_, by simp [loadedNext, hread, hready], ?_⟩
  · rw [hs.drain_next hi, Assembler.next_offer hoffer, hread]
    rfl
  · rw [h.core_next hc hi, Core.next_scheduler,
      (Scheduler.next_keep (takes_of_not_ready hready) _ _).1, hread]
    rfl

/-- The second read of the first block is not noticed. -/
theorem Hashing.echo_next (h : s.Hashing target nb c p q)
    (hc : s.Collecting M readStart target n c) (hs : s.Started readStart writeStart nb)
    (hi : Idle i) (hpoll : s.drain.state = .poll) (hstate : s.core.state = .load)
    (hready : s.core.scheduler.dataReady = true) :
    (s.step M i).drain.state ≠ .offer ∧ loadedNext s.core q = q ∧
      (s.step M i).core.oReadBlock = false ∧ (s.step M i).core.state = .wait := by
  refine ⟨?_, by simp [loadedNext, hready], ?_, ?_⟩
  · rw [hs.drain_next hi, Assembler.next_poll hpoll]
    split <;> simp [hpoll]
  · rw [h.core_next hc hi]
    simp [Core.next, hstate]
  · rw [h.core_next hc hi]
    simp [Core.next, hstate]

/-- The assembler offers a block when it has stored the last word of it. -/
theorem Collecting.offers_next (hc : s.Collecting M readStart target n c)
    (hs : s.Started readStart writeStart nb) (hi : Idle i) (hne : s.drain.state ≠ .offer) :
    (s.step M i).drain.state = .offer ↔ s.drain.state = .store ∧ c % 16 = 15 := by
  rw [hs.drain_next hi]
  cases hd : s.drain.state with
  | poll =>
    rw [Assembler.next_poll hd]
    split <;> simp [hd]
  | request =>
    rw [Assembler.next_request hd]
    simp
  | store =>
    have hfull : s.drain.counter = 15 ↔ c % 16 = 15 :=
      eq_ofNat_iff hc.counter (show 15 < 2 ^ 4 by decide)
    rw [Assembler.next_store hd, ← hfull]
    by_cases hcount : s.drain.counter = 15 <;> simp [hcount]
  | offer => exact absurd hd hne

theorem Handover.step (h : s.Hashing target nb c p q)
    (hc : s.Collecting M readStart target n c) (hs : s.Started readStart writeStart nb)
    (hlen : target.length = 16 * nb) (hi : Idle i) :
    (s.step M i).Handover (s.storedNext c) (loadedNext s.core q) := by
  have hge := h.ge
  have hle := hc.le
  have hcore := h.core_next hc hi
  cases h.handover with
  | quiet hne hq hread hstate =>
    obtain ⟨hrb, hwait, hst⟩ := h.quiet_next hc hi hne hread hstate
    have hoffers := hc.offers_next hs hi hne
    rw [loadedNext_of_not_read hread]
    by_cases hstore : s.drain.state = .store
    · have hlt := hc.store_lt hstore
      rw [storedNext_of_store hstore]
      by_cases h15 : c % 16 = 15
      · refine .offered (hoffers.mpr ⟨hstore, h15⟩) (by omega) hrb ?_
        rw [if_neg (by omega)]
        exact hwait (h.not_done (by omega))
      · exact .quiet (fun hoff => h15 (hoffers.mp hoff).2) (by omega) hrb hst
    · rw [storedNext_of_ne hstore]
      exact .quiet (fun hoff => hstore (hoffers.mp hoff).1) hq hrb hst
  | offered hoffer hq hread hstate =>
    obtain ⟨hkeep, hrb, hst⟩ := h.offered_next hc hs hlen hi hoffer hq hread hstate
    rw [loadedNext_of_not_read hread, storedNext_of_ne (by simp [hoffer])]
    cases hdr : s.core.scheduler.dataReady with
    | false =>
      have hloads : (s.step M i).core.scheduler.dataReady = false := by
        rw [hcore, Core.next_scheduler, (Scheduler.next_keep (takes_of_not_ready hdr) _ _).1,
          hread, hdr]
        rfl
      rw [hdr] at hrb hst
      exact .reading hkeep hq hrb hst hloads
    | true =>
      rw [hdr] at hrb hst
      exact .offered hkeep hq hrb (hst.trans hstate)
  | reading hoffer hq hread hstate hready =>
    obtain ⟨hpoll, hq', hdr⟩ := h.reading_next hc hs hi hoffer hread hready
    have hdone : s.drain.writeDone = true := by rw [hc.writeDone, decide_eq_true hoffer]
    have hnot := h.not_done (by omega)
    rw [hq', storedNext_of_ne (by simp [hoffer])]
    by_cases h0 : q = 0
    · obtain ⟨hmod, -⟩ := hc.offer hoffer
      rw [if_pos h0] at hstate
      refine .echo hpoll (by omega) (by omega) ?_ ?_ hdr
      · rw [hcore]
        simp [Core.next, hstate, hnot, hdone, Scheduler.oDataRequest, hready]
      · rw [hcore]
        simp [Core.next, hstate, hnot, hdone, Scheduler.oDataRequest, hready]
    · rw [if_neg h0] at hstate
      refine .quiet (by simp [hpoll]) hq ?_ (Or.inl ?_)
      · rw [hcore]
        simp [Core.next, hstate]
      · rw [hcore]
        simp [Core.next, hstate]
  | echo hpoll hq hc16 hread hstate hready =>
    obtain ⟨hne, hq', hrb, hst⟩ := h.echo_next hc hs hi hpoll hstate hready
    rw [hq', storedNext_of_ne (by simp [hpoll])]
    exact .quiet hne (by omega) hrb (Or.inl hst)

theorem Hashing.step (h : s.Hashing target nb c p q) (hc : s.Collecting M readStart target n c)
    (hs : s.Started readStart writeStart nb) (hlen : target.length = 16 * nb) (hpos : 0 < nb)
    (hnb : nb ≤ 16) (hi : Idle i) (hsup : Supplied s.core s.numberBlock) :
    (s.step M i).Hashing target nb (s.storedNext c) (takenNext s.core p)
      (loadedNext s.core q) := by
  have hge := h.ge
  have hle := hc.le
  have hqle := h.handover.le
  have hpq := h.ready.le
  have hcore := h.core_next hc hi
  refine ⟨?_, Handover.step h hc hs hlen hi, ?_, ?_⟩
  · unfold storedNext
    split <;> omega
  · rw [hcore]
    refine h.ready.step ?_ ?_
    · intro hrb hdr
      cases h.handover with
      | quiet _ _ hread _ => simp [hrb] at hread
      | offered _ _ hread _ => simp [hrb] at hread
      | reading hoffer hq _ _ _ =>
        obtain ⟨hmod, -⟩ := hc.offer hoffer
        exact hc.holds (by omega)
      | echo _ _ _ _ _ hready => simp [hdr] at hready
    · intro hrb hdr
      cases h.handover with
      | quiet _ _ hread _ => simp [hrb] at hread
      | offered _ _ hread _ => simp [hrb] at hread
      | reading _ _ _ _ hready => simp [hdr] at hready
      | echo _ hq _ _ _ _ =>
        have hready := h.ready.ready
        rw [hdr] at hready
        have hp := of_decide_eq_true hready.symm
        exact h.computing.of_zero hpos (by omega)
  · rw [hcore]
    have hlen' : ∀ j < nb, (sourceBlock target j).length = 16 := fun j hj =>
      length_sourceBlock hlen hj
    refine h.computing.step hlen' ?_ (hs.numberBlock hnb) hpos hsup _ _
    intro hdr
    have hready := h.ready.ready
    rw [hdr] at hready
    have hq := of_decide_eq_true hready.symm
    exact ⟨h.ready.holds hq, by omega⟩

/-- The handshake moves on unless it waits for a block or for the scheduler. -/
theorem Handover.rank_next (h : s.Hashing target nb c p q)
    (hc : s.Collecting M readStart target n c) (hs : s.Started readStart writeStart nb)
    (hlen : target.length = 16 * nb) (hi : Idle i) :
    (s.step M i).handRank (nb - loadedNext s.core q) < s.handRank (nb - q) ∨
      ((s.step M i).handRank (nb - loadedNext s.core q) = s.handRank (nb - q) ∧
        s.core.oReadBlock = false ∧
        (s.drain.state = .offer → s.core.scheduler.dataReady = true)) := by
  have hle := hc.le
  have hqle := h.handover.le
  cases h.handover with
  | quiet hne hq hread hstate =>
    have hrb := (h.quiet_next hc hi hne hread hstate).1
    rw [loadedNext_of_not_read hread, handRank, handRank, hrb, hread, if_neg hne]
    by_cases hoff : (s.step M i).drain.state = .offer
    · left
      simp [hoff]
    · right
      simp [hoff, hne]
  | offered hoffer hq hread hstate =>
    obtain ⟨hkeep, hrb, -⟩ := h.offered_next hc hs hlen hi hoffer hq hread hstate
    rw [loadedNext_of_not_read hread, handRank, handRank, hrb, hread, hkeep, hoffer]
    cases hdr : s.core.scheduler.dataReady <;> simp
  | reading hoffer hq hread hstate hready =>
    left
    obtain ⟨hpoll, hq', -⟩ := h.reading_next hc hs hi hoffer hread hready
    rw [hq', handRank, handRank, hread, hpoll, hoffer]
    cases (s.step M i).core.oReadBlock <;> simp <;> omega
  | echo hpoll hq hc16 hread hstate hready =>
    left
    obtain ⟨hne, hq', hrb, -⟩ := h.echo_next hc hs hi hpoll hstate hready
    rw [hq', handRank, handRank, hread, hrb, if_neg hne, hpoll]
    simp

end Controller

end SocCrypto.Sha
