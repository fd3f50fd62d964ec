import SocCrypto.Sha.Handover
import SocCrypto.Sha.Job

/-!
# The SHA-256 core by itself

The core under any driver that offers its blocks one after the other and holds an offer until
the core has read it. With every block there in time the digest is that of the blocks, however
long the driver waits before it offers them.
-/

namespace SocCrypto.Sha
open Sha256Function (Hash digest)
open Clocked

/-! ### The driver -/

/-- `iDataValid` and `iMessage`. -/
structure Offer where
  iDataValid : Bool
  iMessage : BitVec 512
  deriving DecidableEq

/-- One clock of an enabled core. -/
def Core.step (iNumberBlock : Word) (k : Core) (i : Offer) : Core :=
  k.next true i.iDataValid i.iMessage iNumberBlock

/-- Blocks read before a cycle. -/
def handed (n : Word) (k : Core) (i : ℕ → Offer) : ℕ → ℕ
  | 0 => 0
  | t + 1 =>
    if (i t).iDataValid && (run (Core.step n) k i t).oReadBlock then handed n k i t + 1
    else handed n k i t

/-- Each block is offered until the core reads it; the first one is offered some time. -/
structure Driven (blocks : List (BitVec 512)) (n : Word) (k : Core) (i : ℕ → Offer) : Prop where
  offered : ∀ t, (i t).iDataValid = true → blocks[handed n k i t]? = some (i t).iMessage
  held : ∀ t, (i t).iDataValid = true →
    (i (t + 1)).iDataValid = !(run (Core.step n) k i t).oReadBlock
  started : ∃ t, (i t).iDataValid = true

/-- The words of a block. -/
def wordsOf (m : BitVec 512) : List Word := (List.range 16).map (blockWord m)

theorem holds_wordsOf (m : BitVec 512) : Holds m (wordsOf m) := by
  intro k hk
  rw [wordsOf, List.getD_eq_getElem _ _ (by simpa using hk)]
  simp

/-! ### One cycle -/

/-- Where the handshake stands when `q` blocks have been read. -/
inductive Handing (q : ℕ) (k : Core) (iDataValid : Bool) : Prop
  | quiet (hvalid : iDataValid = false) (hread : k.oReadBlock = false)
      (hfirst : q = 0 → k.state = .first)
      (hstate : q ≠ 0 → k.state = .wait ∨ (k.state = .finish ∧ k.oDone = true)) :
      Handing q k iDataValid
  | offered (hvalid : iDataValid = true) (hread : k.oReadBlock = false)
      (hstate : k.state = if q = 0 then .first else .wait) : Handing q k iDataValid
  | reading (hvalid : iDataValid = true) (hread : k.oReadBlock = true)
      (hstate : k.state = if q = 0 then .wait else .load)
      (hready : k.scheduler.dataReady = false) : Handing q k iDataValid
  | echo (hvalid : iDataValid = false) (hq : q = 1) (hread : k.oReadBlock = true)
      (hstate : k.state = .load) (hready : k.scheduler.dataReady = true) : Handing q k iDataValid

/-- `q` of `nb` blocks have been read and `p` of them taken by the scheduler. -/
structure Fed (block : ℕ → List Word) (nb p q : ℕ) (k : Core) (iDataValid : Bool) : Prop where
  handing : Handing q k iDataValid
  ready : Ready block p q k.scheduler
  computing : Computing block nb p k

section
variable {block : ℕ → List Word} {nb p q : ℕ} {k : Core} {v v' : Bool} {m : BitVec 512} {n : Word}

theorem Fed.not_done (h : Fed block nb p q k v) (hq : q < nb) : k.oDone = false := by
  rw [← Bool.not_eq_true]
  intro hd
  have hp := (h.computing.of_done hd).1
  have hle := h.ready.le
  omega

/-- A block is read once. -/
theorem Handing.loadedNext_eq (h : Handing q k v) :
    loadedNext k q = if v && k.oReadBlock then q + 1 else q := by
  cases h with
  | quiet hvalid hread _ _ => simp [loadedNext, hread]
  | offered hvalid hread _ => simp [loadedNext, hread]
  | reading hvalid hread _ hready => simp [loadedNext, hread, hready, hvalid]
  | echo hvalid _ hread _ hready => simp [loadedNext, hready, hvalid]

/-- What the driver does next puts the handshake at its start or before it. -/
theorem Handing.of_wait (hread : k.oReadBlock = false) (hpos : q ≠ 0) (hstate : k.state = .wait) :
    Handing q k v := by
  cases hv : v
  · exact .quiet rfl hread (fun h0 => absurd h0 hpos) fun _ => Or.inl hstate
  · exact .offered rfl hread (hstate.trans (if_neg hpos).symm)

theorem Fed.handing_next (h : Fed block nb p q k v) (hq : v = true → q < nb)
    (hheld : v = true → v' = !k.oReadBlock) (hq' : v' = true → loadedNext k q < nb) :
    Handing (loadedNext k q) (k.next true v m n) v' := by
  have hload := h.handing.loadedNext_eq
  cases h.handing with
  | quiet hvalid hread hfirst hstate =>
    subst hvalid
    rw [Bool.false_and, if_neg Bool.false_ne_true] at hload
    rw [hload] at hq' ⊢
    by_cases h0 : q = 0
    · have hfirst' : (k.next true false m n).state = .first ∧
          (k.next true false m n).oReadBlock = false := by
        simp [Core.next, hfirst h0, hread]
      cases hv : v'
      · exact .quiet rfl hfirst'.2 (fun _ => hfirst'.1) fun hne => absurd h0 hne
      · exact .offered rfl hfirst'.2 (hfirst'.1.trans (if_pos h0).symm)
    · have hrb := Core.next_without_block hread ((hstate h0).imp_right And.left) m n
      cases hd : k.oDone
      · have hwait : k.state = .wait := by
          rcases hstate h0 with hst | ⟨-, hd'⟩
          · exact hst
          · rw [hd] at hd'
            cases hd'
        exact .of_wait hrb h0 (by simp [Core.next, hwait, hd])
      · have hnone : v' = false := by
          rw [← Bool.not_eq_true]
          intro hv
          rw [h.not_done (hq' hv)] at hd
          cases hd
        refine .quiet hnone hrb (fun hzero => absurd hzero h0) fun _ => Or.inr ⟨?_, ?_⟩
        · rcases hstate h0 with hst | ⟨hst, -⟩ <;> simp [Core.next, hst, hd]
        · exact Core.oDone_next hd _ _ _
  | offered hvalid hread hstate =>
    subst hvalid
    have hv : v' = true := by rw [hheld rfl, hread]; rfl
    rw [hread, Bool.and_false, if_neg Bool.false_ne_true] at hload
    obtain ⟨hrb, hst⟩ := Core.next_offered hread hstate (h.not_done (hq rfl)) m n
    rw [hload]
    cases hdr : k.scheduler.dataReady
    · have hkeep : (k.next true true m n).scheduler.dataReady = false := by
        have ht : takes k.scheduler = false := by simp [takes, hdr]
        show (k.scheduler.next true k.oReadBlock m).dataReady = false
        rw [(Scheduler.next_keep ht _ _).1, hread, hdr]
        rfl
      rw [hdr] at hrb hst
      exact .reading hv hrb hst hkeep
    · rw [hdr] at hrb hst
      exact .offered hv hrb (hst.trans hstate)
  | reading hvalid hread hstate hready =>
    subst hvalid
    have hv : v' = false := by rw [hheld rfl, hread]; rfl
    have hnot := h.not_done (hq rfl)
    rw [hread, Bool.and_self, if_pos rfl] at hload
    rw [hload]
    by_cases h0 : q = 0
    · rw [if_pos h0] at hstate
      have hdr : (k.next true true m n).scheduler.dataReady = true := by
        have ht : takes k.scheduler = false := by simp [takes, hready]
        show (k.scheduler.next true k.oReadBlock m).dataReady = true
        rw [(Scheduler.next_keep ht _ _).1, hread]
        rfl
      refine .echo hv (by omega) ?_ ?_ hdr
      · simp [Core.next, hstate, hnot, Scheduler.oDataRequest, hready]
      · simp [Core.next, hstate, hnot, Scheduler.oDataRequest, hready]
    · rw [if_neg h0] at hstate
      refine .of_wait ?_ (by omega) ?_
      · simp [Core.next, hstate]
      · simp [Core.next, hstate]
  | echo hvalid hq1 hread hstate hready =>
    subst hvalid
    rw [Bool.false_and, if_neg Bool.false_ne_true] at hload
    rw [hload]
    refine .of_wait ?_ (by omega) ?_
    · simp [Core.next, hstate]
    · simp [Core.next, hstate]

theorem Fed.next (h : Fed block nb p q k v) (hlen : ∀ j < nb, (block j).length = 16)
    (hn : n.toNat = nb) (hpos : 0 < nb) (hsup : Supplied k n)
    (hoffer : v = true → q < nb ∧ Holds m (block q)) (hle : q ≤ nb)
    (hheld : v = true → v' = !k.oReadBlock) (hq' : v' = true → loadedNext k q < nb) :
    Fed block nb (takenNext k p) (loadedNext k q) (k.next true v m n) v' := by
  refine ⟨h.handing_next (fun hv => (hoffer hv).1) hheld hq', ?_, ?_⟩
  · refine h.ready.step (fun hread hready => ?_) fun hread hready => ?_
    · cases h.handing with
      | quiet _ hno _ _ => simp [hread] at hno
      | offered _ hno _ => simp [hread] at hno
      | reading hvalid _ _ _ => exact (hoffer hvalid).2
      | echo _ _ _ _ hyes => simp [hready] at hyes
    · cases h.handing with
      | quiet _ hno _ _ => simp [hread] at hno
      | offered _ hno _ => simp [hread] at hno
      | reading _ _ _ hno => simp [hready] at hno
      | echo _ hq1 _ _ _ =>
        have hone := h.ready.ready
        rw [hready] at hone
        have hp := of_decide_eq_true hone.symm
        exact h.computing.of_zero hpos (by omega)
  · refine h.computing.step hlen (fun hready => ?_) hn hpos hsup _ _
    have hone := h.ready.ready
    rw [hready] at hone
    have hq := of_decide_eq_true hone.symm
    exact ⟨h.ready.holds hq, by omega⟩

/-- Once all blocks have been read the core waits for none. -/
theorem Fed.supplied (h : Fed block nb p q k v) (hn : n.toNat = nb) (hq : q = nb) :
    Supplied k n := by
  intro hstate _ hblock
  cases h.computing with
  | round j _ hp hj _ _ _ _ hblockI =>
    rw [h.ready.ready]
    refine decide_eq_true ?_
    by_contra hne
    have hle := h.ready.le
    have hlast : k.compressor.blockI = n - 1 := by
      apply BitVec.eq_of_toNat_eq
      have hsucc := h.ready.le_succ
      have hlt := n.isLt
      have hone : (1 : Word).toNat = 1 := rfl
      rw [hblockI, BitVec.toNat_sub, hone]
      omega
    exact hblock hlast
  | idle _ hst => simp [hst] at hstate
  | init _ hst => simp [hst] at hstate
  | add _ _ _ hst => simp [hst] at hstate
  | last _ _ _ hst => simp [hst] at hstate
  | done _ hst => simp [hst] at hstate

end

/-! ### Runs -/

section
variable {blocks : List (BitVec 512)} {n : Word} {k : Core} {i : ℕ → Offer}

/-- The blocks as lists of words. -/
def blockAt (blocks : List (BitVec 512)) (j : ℕ) : List Word := wordsOf (blocks.getD j 0)

/-- Blocks taken by the scheduler before a cycle. -/
def taken (n : Word) (k : Core) (i : ℕ → Offer) : ℕ → ℕ
  | 0 => 0
  | t + 1 => takenNext (run (Core.step n) k i t) (taken n k i t)

theorem Driven.offer (h : Driven blocks n k i) {t : ℕ} (hv : (i t).iDataValid = true) :
    handed n k i t < blocks.length ∧ Holds (i t).iMessage (blockAt blocks (handed n k i t)) := by
  have hblock := h.offered t hv
  obtain ⟨hlt, -⟩ := List.getElem?_eq_some_iff.mp hblock
  refine ⟨hlt, ?_⟩
  rw [blockAt, List.getD_eq_getElem?_getD, hblock]
  exact holds_wordsOf _

theorem Driven.fed (h : Driven blocks n k i) (hk : Disabled k) (hn : n.toNat = blocks.length)
    (hpos : 0 < blocks.length) (t : ℕ) (hsup : ∀ u < t, Supplied (run (Core.step n) k i u) n) :
    Fed (blockAt blocks) blocks.length (taken n k i t) (handed n k i t)
        (run (Core.step n) k i t) (i t).iDataValid ∧ handed n k i t ≤ blocks.length := by
  induction t with
  | zero =>
    refine ⟨⟨?_, ⟨le_rfl, Nat.le_succ 0, ?_, fun h0 => absurd h0 Nat.zero_ne_one⟩, ?_⟩, Nat.zero_le _⟩
    · cases hv : (i 0).iDataValid
      · exact .quiet rfl hk.oReadBlock (fun _ => hk.state) fun hne => absurd rfl hne
      · exact .offered rfl hk.oReadBlock hk.state
    · exact hk.dataReady
    · exact .idle rfl hk.idle hk.H hk.blockI hk.iterations hk.busy
  | succ t ih =>
    obtain ⟨hfed, hle⟩ := ih fun u hu => hsup u (by omega)
    have hload := hfed.handing.loadedNext_eq
    have hhanded : handed n k i (t + 1) =
        loadedNext (run (Core.step n) k i t) (handed n k i t) := hload.symm
    have hnext := hfed.next (m := (i t).iMessage) (fun j _ => by
      simp [blockAt, wordsOf]) hn hpos (hsup t (Nat.lt_succ_self t)) h.offer hle (h.held t) fun (hv : (i (t + 1)).iDataValid = true) => by
        rw [← hhanded]
        exact (h.offer hv).1
    rw [← hhanded] at hnext
    refine ⟨hnext, ?_⟩
    rw [hhanded, hload]
    split
    · next hread =>
      rw [Bool.and_eq_true] at hread
      exact (h.offer hread.1).1
    · exact hle

theorem Driven.exists_taken (h : Driven blocks n k i) (hk : Disabled k)
    (hn : n.toNat = blocks.length) (hpos : 0 < blocks.length)
    (hsup : ∀ t, Supplied (run (Core.step n) k i t) n) : ∃ t, 0 < taken n k i t := by
  have hfed := fun t => (h.fed hk hn hpos t fun u _ => hsup u).1
  -- an offer is read within two cycles
  have hread : ∃ t, 0 < handed n k i t := by
    obtain ⟨t, hv⟩ := h.started
    by_contra hnone
    have hzero : ∀ u, handed n k i u = 0 := fun u =>
      Nat.eq_zero_of_not_pos fun hu => hnone ⟨u, hu⟩
    have hnever : ∀ u, (i u).iDataValid = true →
        (run (Core.step n) k i u).oReadBlock = false := by
      intro u hu
      rw [← Bool.not_eq_true]
      intro hup
      have hone : handed n k i (u + 1) = handed n k i u + 1 := by
        rw [handed, hu, hup]
        rfl
      rw [hzero, hzero] at hone
      cases hone
    have hv' : (i (t + 1)).iDataValid = true := by
      rw [h.held t hv, hnever t hv]
      rfl
    have hnot : (run (Core.step n) k i t).scheduler.dataReady = false := by
      rw [(hfed t).ready.ready, hzero]
      rfl
    have hfirst : (run (Core.step n) k i t).state = if 0 = 0 then .first else .wait := by
      have hhand := (hfed t).handing
      rw [hzero] at hhand
      cases hhand with
      | quiet hno _ _ _ => simp [hv] at hno
      | offered _ _ hstate => exact hstate
      | reading _ hup _ _ => simp [hnever t hv] at hup
      | echo hno _ _ _ _ => simp [hv] at hno
    have hup := (Core.next_offered (hnever t hv) hfirst ((hfed t).not_done (by
      rw [hzero]
      exact hpos)) (i t).iMessage n).1
    have hlow := hnever (t + 1) hv'
    rw [show run (Core.step n) k i (t + 1) = (run (Core.step n) k i t).next true (i t).iDataValid
      (i t).iMessage n from rfl, hv, hup, hnot] at hlow
    cases hlow
  obtain ⟨t, ht⟩ := hread
  rcases Nat.eq_zero_or_pos (taken n k i t) with h0 | htaken
  · refine ⟨t + 1, ?_⟩
    have hready := (hfed t).ready
    have hle := hready.le_succ
    have hdr := hready.ready
    rw [decide_eq_true (by omega)] at hdr
    have htakes : takes (run (Core.step n) k i t).scheduler = true := by
      simp [takes, hdr, (hfed t).computing.of_zero hpos h0]
    rw [taken, takenNext, if_pos htakes]
    exact Nat.succ_pos _
  · exact ⟨t, htaken⟩

theorem Driven.exists_done (h : Driven blocks n k i) (hk : Disabled k)
    (hn : n.toNat = blocks.length) (hpos : 0 < blocks.length)
    (hsup : ∀ t, Supplied (run (Core.step n) k i t) n) :
    ∃ t, (run (Core.step n) k i t).oDone = true := by
  obtain ⟨t, ht⟩ := h.exists_taken hk hn hpos hsup
  by_contra hnone
  have htaken : ∀ u ≥ t, 0 < taken n k i u := by
    intro u hu
    induction u, hu using Nat.le_induction with
    | base => exact ht
    | succ u _ ih =>
      rw [taken, takenNext]
      split <;> omega
  have hrank : ∀ u, (run (Core.step n) k i (t + u)).rank blocks.length + u ≤
      (run (Core.step n) k i t).rank blocks.length := by
    intro u
    induction u with
    | zero => exact le_rfl
    | succ u ih =>
      have hstep := (h.fed hk hn hpos (t + u) fun u _ => hsup u).1.computing.rank_next hn hpos
        (i (t + u)).iDataValid (i (t + u)).iMessage
      have hmore := htaken (t + u) (by omega)
      have hlt : (run (Core.step n) k i (t + u + 1)).rank blocks.length <
          (run (Core.step n) k i (t + u)).rank blocks.length := by
        rcases hstep with hlt | ⟨-, ⟨hp, -⟩ | hdone⟩
        · exact hlt
        · omega
        · exact absurd ⟨_, hdone⟩ hnone
      have hassoc : t + (u + 1) = t + u + 1 := by omega
      rw [hassoc]
      omega
  have hover := hrank ((run (Core.step n) k i t).rank blocks.length + 1)
  omega

theorem chain_blockAt (blocks : List (BitVec 512)) :
    chain (blockAt blocks) blocks.length = digest (blocks.map wordsOf) := by
  rw [chain]
  congr 1
  apply List.ext_getElem
  · simp
  · intro j hj hj'
    have hlt : j < blocks.length := by simpa using hj
    simp [blockAt, hlt]

theorem Driven.digest (h : Driven blocks n k i) (hk : Disabled k)
    (hn : n.toNat = blocks.length) (hpos : 0 < blocks.length)
    (hsup : ∀ t, Supplied (run (Core.step n) k i t) n) :
    ∃ T, (∀ t < T, (run (Core.step n) k i t).oDone = false) ∧
      ∀ t ≥ T, (run (Core.step n) k i t).oDone = true ∧
        (run (Core.step n) k i t).oHashValue =
          digestValue (Sha256Function.digest (blocks.map wordsOf)) := by
  classical
  have hdone := h.exists_done hk hn hpos hsup
  refine ⟨Nat.find hdone, fun t ht => ?_, fun t ht => ?_⟩
  · rw [← Bool.not_eq_true]
    exact Nat.find_min hdone ht
  · have hup : (run (Core.step n) k i t).oDone = true := by
      induction t, ht using Nat.le_induction with
      | base => exact Nat.find_spec hdone
      | succ t _ ih => exact Core.oDone_next ih _ _ _
    refine ⟨hup, ?_⟩
    have hH := ((h.fed hk hn hpos t fun u _ => hsup u).1.computing.of_done hup).2
    have hup' : (run (Core.step n) k i t).compressor.oDone = true := hup
    rw [chain_blockAt] at hH
    rw [Core.oHashValue, Compressor.oHashDigit, if_pos hup', hH]
    rfl

theorem handed_mono (n : Word) (k : Core) (i : ℕ → Offer) : Monotone (handed n k i) := by
  refine monotone_nat_of_le_succ fun t => ?_
  rw [handed]
  split
  · exact Nat.le_succ _
  · exact le_rfl

/-- Blocks that have all been read early are read in time. -/
theorem Driven.supplied (h : Driven blocks n k i) (hk : Disabled k)
    (hn : n.toNat = blocks.length) (hpos : 0 < blocks.length) {T : ℕ}
    (hsup : ∀ t < T, Supplied (run (Core.step n) k i t) n)
    (hall : handed n k i T = blocks.length) (t : ℕ) : Supplied (run (Core.step n) k i t) n := by
  induction t using Nat.strong_induction_on with
  | h t ih =>
    rcases Nat.lt_or_ge t T with ht | ht
    · exact hsup t ht
    · obtain ⟨hfed, hle⟩ := h.fed hk hn hpos t ih
      have hmono := handed_mono n k i ht
      exact hfed.supplied hn (by omega)

/-- Two blocks, each offered as soon as the core can read it. -/
def twoOffers (m m' : BitVec 512) : ℕ → Offer
  | 0 | 1 => ⟨true, m⟩
  | 3 | 4 => ⟨true, m'⟩
  | _ => ⟨false, 0⟩

end

/-- A core out of the reset of its controller. -/
def disabledCore : Core where
  state := .first
  oReadBlock := false
  compressor :=
    { H := Compressor.initialH, vars := Compressor.initialH, state := .idle, blockI := 0,
      iterations := 0 }
  scheduler :=
    { W := 0, iterations := 0, message := 0, dataReady := false, busy := false, oW := 0 }

theorem disabledCore_disabled : Disabled disabledCore := by
  constructor <;> rfl

theorem twoOffers_driven : Driven [1, 2] 2 disabledCore (twoOffers 1 2) := by
  have hlate : ∀ t, 5 ≤ t → (twoOffers 1 2 t).iDataValid = false := by
    intro t ht
    obtain ⟨d, rfl⟩ : ∃ d, t = d + 5 := ⟨t - 5, by omega⟩
    rfl
  refine ⟨fun t hv => ?_, fun t hv => ?_, 0, rfl⟩
  all_goals
    have ht : t < 5 := by
      by_contra hge
      rw [hlate t (by omega)] at hv
      cases hv
    revert hv
    revert t
    decide +kernel

theorem Driven.digest_two :
    ∃ T, (∀ t < T, (run (Core.step 2) disabledCore (twoOffers 1 2) t).oDone = false) ∧
      ∀ t ≥ T, (run (Core.step 2) disabledCore (twoOffers 1 2) t).oDone = true ∧
        (run (Core.step 2) disabledCore (twoOffers 1 2) t).oHashValue =
          digestValue (Sha256Function.digest [wordsOf 1, wordsOf 2]) := by
  have hread : handed 2 disabledCore (twoOffers 1 2) 5 = 2 := by decide +kernel
  have hfirst : ∀ t < 5, Supplied (run (Core.step 2) disabledCore (twoOffers 1 2) t) 2 := by
    decide +kernel
  exact twoOffers_driven.digest disabledCore_disabled rfl Nat.two_pos
    (twoOffers_driven.supplied disabledCore_disabled rfl Nat.two_pos hfirst hread)

end SocCrypto.Sha
