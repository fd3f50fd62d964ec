import SocCrypto.Sha.Core

/-!
# The SHA-256 core computes the hash function

Scheduler and compressor run in lockstep as long as the next block is waiting in
the scheduler whenever it has put out the last word of a block. `Computing` is the
invariant of such a run: `p` blocks have been taken by the scheduler.
-/

namespace SocCrypto.Sha
open Sha256Function

/-! ### Message schedule -/

/-- The register holds the words of the block. -/
def Holds (m : BitVec 512) (b : List Word) : Prop := ∀ k < 16, blockWord m k = b.getD k 0

/-- The registers `W` hold the schedule words from `t` on. -/
def Window (m : BitVec 512) (b : List Word) (t : ℕ) : Prop :=
  ∀ k < 16, t + k < 64 → blockWord m k = scheduleWord b (t + k)

theorem Holds.window {m : BitVec 512} {b : List Word} (h : Holds m b) (hb : b.length = 16) :
    Window m b 0 := by
  intro k hk _
  have hword : scheduleWord b k = b.getD k 0 := scheduleWord_of_lt (by omega)
  rw [Nat.zero_add, hword]
  exact h k hk

theorem Window.push {s : Scheduler} {b : List Word} {t : ℕ} (hb : b.length = 16)
    (h : Window s.W b t) : Window (pushWord s.W s.wT) b (t + 1) := by
  intro k hk ht
  rcases Nat.lt_or_ge k 15 with hlt | hge
  · rw [blockWord_pushWord hlt, h (k + 1) (by omega) (by omega)]
    congr 1
    omega
  · obtain rfl : k = 15 := by omega
    have hidx : t + 1 + 15 = t + 16 := by omega
    rw [blockWord_pushWord_last, Scheduler.wT, h 14 (by omega) (by omega),
      h 1 (by omega) (by omega), h 9 (by omega) (by omega), h 0 (by omega) (by omega), hidx,
      scheduleWord_add hb (by omega), Nat.add_zero, add_right_comm (smallSigma1 _)]
    rfl

theorem kData_eq : ∀ t < 64, kData.getD t 0 = roundConstant t := by
  decide +kernel

theorem initialH_eq : Compressor.initialH = initial := by
  decide +kernel

/-! ### Chaining values -/

/-- Chaining value after `j` blocks. -/
def chain (block : ℕ → List Word) (j : ℕ) : Hash := digest ((List.range j).map block)

theorem chain_zero (block : ℕ → List Word) : chain block 0 = initial := rfl

theorem chain_succ (block : ℕ → List Word) (j : ℕ) :
    chain block (j + 1) = compress (chain block j) (block j) := by
  rw [chain, List.range_succ, List.map_append, List.map_singleton, digest_append]
  rfl

/-! ### The invariant of the core -/

/-- The scheduler has just been disabled and no block has arrived. -/
structure Disabled (k : Core) : Prop where
  state : k.state = .first
  oReadBlock : k.oReadBlock = false
  idle : k.compressor.state = .idle
  H : k.compressor.H = Compressor.initialH
  blockI : k.compressor.blockI = 0
  iterations : k.compressor.iterations = 0
  busy : k.scheduler.busy = false
  dataReady : k.scheduler.dataReady = false

theorem disabled_next (k : Core) (iDataValid : Bool) (iMessage : BitVec 512) (n : Word) :
    Disabled (k.next false iDataValid iMessage n) := by
  constructor <;> rfl

/-- `p` of `nb` blocks have been taken by the scheduler. -/
inductive Computing (block : ℕ → List Word) (nb p : ℕ) (k : Core) : Prop
  | idle (hp : p = 0) (hstate : k.compressor.state = .idle)
      (hH : k.compressor.H = Compressor.initialH) (hblock : k.compressor.blockI = 0)
      (hiter : k.compressor.iterations = 0) (hbusy : k.scheduler.busy = false) :
      Computing block nb p k
  | init (hp : p = 1) (hstate : k.compressor.state = .init)
      (hH : k.compressor.H = Compressor.initialH) (hblock : k.compressor.blockI = 0)
      (hiter : k.compressor.iterations = 0) (hbusy : k.scheduler.busy = true)
      (hcount : k.scheduler.iterations = 0) (hW : Window k.scheduler.W (block 0) 0) :
      Computing block nb p k
  | round (j r : ℕ) (hp : p = j + 1) (hj : j < nb) (hr : r < 64)
      (hstate : k.compressor.state = .round) (hH : k.compressor.H = chain block j)
      (hvars : k.compressor.vars = rounds (block j) (chain block j) r)
      (hblock : k.compressor.blockI.toNat = j) (hiter : k.compressor.iterations.toNat = r)
      (hword : k.scheduler.oW = roundConstant r + scheduleWord (block j) r)
      (hbusy : k.scheduler.busy = decide (r < 63))
      (hcount : r < 63 → k.scheduler.iterations.toNat = r + 1)
      (hW : r < 63 → Window k.scheduler.W (block j) (r + 1)) : Computing block nb p k
  | add (j : ℕ) (hp : p = j + 2) (hj : j + 1 < nb) (hstate : k.compressor.state = .add)
      (hH : k.compressor.H = chain block j)
      (hvars : k.compressor.vars = rounds (block j) (chain block j) 64)
      (hblock : k.compressor.blockI.toNat = j) (hbusy : k.scheduler.busy = true)
      (hcount : k.scheduler.iterations = 0) (hW : Window k.scheduler.W (block (j + 1)) 0) :
      Computing block nb p k
  | last (j : ℕ) (hp : p = j + 1) (hj : nb = j + 1) (hstate : k.compressor.state = .add)
      (hH : k.compressor.H = chain block j)
      (hvars : k.compressor.vars = rounds (block j) (chain block j) 64)
      (hblock : k.compressor.blockI.toNat = j) (hbusy : k.scheduler.busy = false) :
      Computing block nb p k
  | done (hp : p = nb) (hstate : k.compressor.state = .done)
      (hH : k.compressor.H = chain block nb) (hbusy : k.scheduler.busy = false) :
      Computing block nb p k

/-- The scheduler takes the loaded block in this cycle. -/
def takes (s : Scheduler) : Bool := !s.busy && s.dataReady

/-- The next block has been loaded by the time the compressor takes the last word
of a block that is not the last one. -/
def Supplied (k : Core) (iNumberBlock : Word) : Prop :=
  k.compressor.state = .round → k.scheduler.busy = false →
    k.compressor.blockI ≠ iNumberBlock - 1 → k.scheduler.dataReady = true

instance (k : Core) (n : Word) : Decidable (Supplied k n) := by
  unfold Supplied
  infer_instance

/-! ### One cycle -/

section
variable {block : ℕ → List Word} {nb p : ℕ} {k : Core}

theorem Scheduler.next_take {s : Scheduler} (hs : takes s = true) (iLoad : Bool)
    (iMessage : BitVec 512) :
    (s.next true iLoad iMessage).W = s.message ∧ (s.next true iLoad iMessage).iterations = 0 ∧
      (s.next true iLoad iMessage).busy = true ∧
      (s.next true iLoad iMessage).dataReady = false := by
  obtain ⟨hbusy, hready⟩ : s.busy = false ∧ s.dataReady = true := by simpa [takes] using hs
  simp [Scheduler.next, hbusy, hready]

theorem Scheduler.next_busy {s : Scheduler} (hs : s.busy = true) (iLoad : Bool)
    (iMessage : BitVec 512) :
    (s.next true iLoad iMessage).W = pushWord s.W s.wT ∧
      (s.next true iLoad iMessage).oW = blockWord s.W 0 + kData.getD s.iterations.toNat 0 ∧
      (s.next true iLoad iMessage).iterations = s.iterations + 1 ∧
      (s.next true iLoad iMessage).busy = (s.iterations != 63) ∧
      (s.next true iLoad iMessage).dataReady = (iLoad || s.dataReady) ∧
      (s.next true iLoad iMessage).message = if iLoad then iMessage else s.message := by
  cases iLoad <;> simp [Scheduler.next, hs]

theorem Scheduler.next_wait {s : Scheduler} (hb : s.busy = false) (hs : takes s = false)
    (iLoad : Bool) (iMessage : BitVec 512) :
    (s.next true iLoad iMessage).busy = false ∧
      (s.next true iLoad iMessage).dataReady = iLoad ∧
      (s.next true iLoad iMessage).message = if iLoad then iMessage else s.message := by
  have hready : s.dataReady = false := by simpa [takes, hb] using hs
  cases iLoad <;> simp [Scheduler.next, hb, hready]

/-- A busy scheduler puts out word `t` of the schedule. -/
theorem Window.word {s : Scheduler} {b : List Word} {t : ℕ} (h : Window s.W b t) (ht : t < 64)
    (hcount : s.iterations.toNat = t) :
    blockWord s.W 0 + kData.getD s.iterations.toNat 0 = roundConstant t + scheduleWord b t := by
  rw [h 0 (by omega) (by omega), hcount, kData_eq t ht, Nat.add_zero, BitVec.add_comm]

theorem Compressor.next_round {c : Compressor} (hs : c.state = .round) (iStart : Bool)
    (iW n : Word) :
    (c.next true iStart iW n).vars = Sha256Function.round c.vars iW ∧
      (c.next true iStart iW n).H = c.H ∧ (c.next true iStart iW n).blockI = c.blockI ∧
      (c.next true iStart iW n).iterations = c.iterations + 1 ∧
      (c.next true iStart iW n).state = if c.iterations + 1 = 64 then .add else .round := by
  simp only [Compressor.next, hs, Bool.not_true, Bool.false_eq_true, if_false]
  exact ⟨rfl, trivial, trivial, trivial, trivial⟩

theorem Compressor.next_add {c : Compressor} (hs : c.state = .add) (iStart : Bool)
    (iW n : Word) :
    (c.next true iStart iW n).H = Sha256Function.add c.vars c.H ∧
      (c.next true iStart iW n).vars = Sha256Function.add c.vars c.H ∧
      (c.next true iStart iW n).iterations = 0 ∧
      (c.next true iStart iW n).blockI = (if c.blockI = n - 1 then c.blockI else c.blockI + 1) ∧
      (c.next true iStart iW n).state = if c.blockI = n - 1 then .done else .round := by
  simp only [Compressor.next, hs, Bool.not_true, Bool.false_eq_true, if_false]
  split <;> exact ⟨rfl, rfl, rfl, rfl, rfl⟩

theorem blockI_eq_last_iff {b n : Word} {j : ℕ} (hb : b.toNat = j) (hn : n.toNat = nb)
    (hpos : 0 < nb) : b = n - 1 ↔ j + 1 = nb := by
  rw [← BitVec.toNat_inj, hb, BitVec.toNat_sub, hn]
  have hlt := n.isLt
  rw [hn] at hlt
  have hone : (1 : Word).toNat = 1 := rfl
  rw [hone]
  have hmod : (2 ^ 32 - 1 + nb) % 2 ^ 32 = nb - 1 := by omega
  rw [hmod]
  omega

theorem takes_of_busy {s : Scheduler} (h : s.busy = true) : takes s = false := by
  simp [takes, h]

theorem takes_of_not_ready {s : Scheduler} (h : s.dataReady = false) : takes s = false := by
  simp [takes, h]

/-- A busy scheduler with `t` words of the schedule behind it. -/
theorem Scheduler.next_word {s : Scheduler} {b : List Word} {t : ℕ} (hbusy : s.busy = true)
    (hlen : b.length = 16) (ht : t < 64) (hcount : s.iterations.toNat = t)
    (hW : Window s.W b t) (iLoad : Bool) (iMessage : BitVec 512) :
    (s.next true iLoad iMessage).oW = roundConstant t + scheduleWord b t ∧
      (s.next true iLoad iMessage).busy = decide (t < 63) ∧
      (t < 63 → (s.next true iLoad iMessage).iterations.toNat = t + 1) ∧
      Window (s.next true iLoad iMessage).W b (t + 1) := by
  obtain ⟨hW', hoW, hcount', hbusy', -⟩ := Scheduler.next_busy hbusy iLoad iMessage
  have hlast : s.iterations = 63 ↔ t = 63 := eq_ofNat_iff hcount (show 63 < 2 ^ 6 by decide)
  refine ⟨?_, ?_, ?_, ?_⟩
  · rw [hoW, hW.word ht hcount]
  · rw [hbusy']
    by_cases h63 : t = 63
    · simp [hlast.mpr h63, h63]
    · have hne : s.iterations ≠ 63 := fun heq => h63 (hlast.mp heq)
      rw [bne_iff_ne.mpr hne, decide_eq_true (by omega)]
  · intro hlt
    rw [hcount']
    exact toNat_add_one hcount (by omega)
  · rw [hW']
    exact hW.push hlen

theorem Compressor.next_idle {c : Compressor} (hs : c.state = .idle) (iStart : Bool)
    (iW n : Word) : c.next true iStart iW n = if iStart then { c with state := .init } else c := by
  simp [Compressor.next, hs]

theorem Compressor.next_init {c : Compressor} (hs : c.state = .init) (iStart : Bool)
    (iW n : Word) : c.next true iStart iW n = { c with vars := c.H, state := .round } := by
  simp [Compressor.next, hs]

theorem Compressor.next_done {c : Compressor} (hs : c.state = .done) (iStart : Bool)
    (iW n : Word) : c.next true iStart iW n = c := by
  simp [Compressor.next, hs]

/-! ### One cycle of the core, phase by phase -/

variable {n : Word} {dv : Bool} {m : BitVec 512}

theorem Core.next_compressor (k : Core) (dv : Bool) (m : BitVec 512) (n : Word) :
    (k.next true dv m n).compressor =
      k.compressor.next true k.scheduler.dataReady k.scheduler.oW n := rfl

theorem Core.next_scheduler (k : Core) (dv : Bool) (m : BitVec 512) (n : Word) :
    (k.next true dv m n).scheduler = k.scheduler.next true k.oReadBlock m := rfl

theorem Computing.idle_next (hp : p = 0) (hstate : k.compressor.state = .idle)
    (hH : k.compressor.H = Compressor.initialH) (hblock : k.compressor.blockI = 0)
    (hiter : k.compressor.iterations = 0) (hbusy : k.scheduler.busy = false)
    (hwindow : takes k.scheduler = true → Window k.scheduler.message (block p) 0) :
    Computing block nb (if takes k.scheduler then p + 1 else p) (k.next true dv m n) := by
  have hcomp := (Core.next_compressor k dv m n).trans (Compressor.next_idle hstate _ _ _)
  have hsched := Core.next_scheduler k dv m n
  cases hdr : k.scheduler.dataReady with
  | false =>
    have ht := takes_of_not_ready hdr
    rw [hdr, if_neg Bool.false_ne_true] at hcomp
    rw [ht]
    refine .idle hp ?_ ?_ ?_ ?_ ?_
    · rw [hcomp, hstate]
    · rw [hcomp, hH]
    · rw [hcomp, hblock]
    · rw [hcomp, hiter]
    · rw [hsched]
      exact (Scheduler.next_wait hbusy ht _ _).1
  | true =>
    have ht : takes k.scheduler = true := by simp [takes, hdr, hbusy]
    obtain ⟨hW, hcount, hbusy', -⟩ := Scheduler.next_take ht k.oReadBlock m
    rw [← hsched] at hW hcount hbusy'
    rw [hdr, if_pos rfl] at hcomp
    have h0 := hwindow ht
    rw [hp] at h0
    rw [ht, hp]
    refine .init rfl ?_ ?_ ?_ ?_ hbusy' hcount ?_
    · rw [hcomp]
    · rw [hcomp, ← hH]
    · rw [hcomp, ← hblock]
    · rw [hcomp, ← hiter]
    · rw [hW]
      exact h0

/-- The first word of block `j` is on its way to the compressor. -/
theorem Computing.round_start (j : ℕ) (hp : p = j + 1) (hj : j < nb)
    (hlen : (block j).length = 16) (hbusy : k.scheduler.busy = true)
    (hcount : k.scheduler.iterations = 0) (hW : Window k.scheduler.W (block j) 0)
    (hstate : (k.next true dv m n).compressor.state = .round)
    (hH : (k.next true dv m n).compressor.H = chain block j)
    (hvars : (k.next true dv m n).compressor.vars = chain block j)
    (hblock : (k.next true dv m n).compressor.blockI.toNat = j)
    (hiter : (k.next true dv m n).compressor.iterations = 0) :
    Computing block nb p (k.next true dv m n) := by
  have hzero : k.scheduler.iterations.toNat = 0 := by
    rw [hcount]
    rfl
  obtain ⟨hoW, hbusy', hcount', hW'⟩ :=
    Scheduler.next_word hbusy hlen (by omega) hzero hW k.oReadBlock m
  refine .round j 0 hp hj (by omega) hstate hH hvars hblock ?_ hoW hbusy' hcount' fun _ => hW'
  rw [hiter]
  rfl

theorem Computing.init_next (hp : p = 1) (hpos : 0 < nb) (hlen : (block 0).length = 16)
    (hstate : k.compressor.state = .init) (hH : k.compressor.H = Compressor.initialH)
    (hblock : k.compressor.blockI = 0) (hiter : k.compressor.iterations = 0)
    (hbusy : k.scheduler.busy = true) (hcount : k.scheduler.iterations = 0)
    (hW : Window k.scheduler.W (block 0) 0) : Computing block nb p (k.next true dv m n) := by
  have hcomp := (Core.next_compressor k dv m n).trans (Compressor.next_init hstate _ _ _)
  refine .round_start 0 hp hpos hlen hbusy hcount hW ?_ ?_ ?_ ?_ ?_
  · rw [hcomp]
  · rw [hcomp, chain_zero, ← initialH_eq, ← hH]
  · rw [hcomp, hH, initialH_eq]
    rfl
  · rw [hcomp, hblock]
    rfl
  · rw [hcomp, hiter]

/-- A round whose word is not the last one put out by the scheduler. -/
theorem Computing.round_next (j r : ℕ) (hp : p = j + 1) (hj : j < nb) (hr : r < 63)
    (hlen : (block j).length = 16) (hstate : k.compressor.state = .round)
    (hH : k.compressor.H = chain block j)
    (hvars : k.compressor.vars = rounds (block j) (chain block j) r)
    (hblock : k.compressor.blockI.toNat = j) (hiter : k.compressor.iterations.toNat = r)
    (hword : k.scheduler.oW = roundConstant r + scheduleWord (block j) r)
    (hbusy : k.scheduler.busy = true) (hcount : k.scheduler.iterations.toNat = r + 1)
    (hW : Window k.scheduler.W (block j) (r + 1)) :
    Computing block nb p (k.next true dv m n) := by
  obtain ⟨hvars', hH', hblock', hiter', hstate'⟩ :=
    Compressor.next_round hstate k.scheduler.dataReady k.scheduler.oW n
  rw [← Core.next_compressor k dv m n] at hvars' hH' hblock' hiter' hstate'
  have hone : (k.compressor.iterations + 1).toNat = r + 1 := toNat_add_one hiter (by omega)
  have hstay : ¬ k.compressor.iterations + 1 = 64 := by
    intro heq
    have h64 := (eq_ofNat_iff hone (show 64 < 2 ^ 7 by decide)).mp heq
    omega
  obtain ⟨hoW, hbusy', hcount', hW'⟩ :=
    Scheduler.next_word hbusy hlen (by omega) hcount hW k.oReadBlock m
  refine .round j (r + 1) hp hj (by omega) ?_ ?_ ?_ ?_ ?_ hoW hbusy' hcount' fun _ => hW'
  · rw [hstate', if_neg hstay]
  · rw [hH', hH]
  · rw [hvars', hvars, hword]
    rfl
  · rw [hblock', hblock]
  · rw [hiter', hone]

/-- The last round: the scheduler takes the next block if there is one. -/
theorem Computing.lastRound_next (j : ℕ) (hp : p = j + 1) (hj : j < nb)
    (hready : k.scheduler.dataReady = decide (j + 1 < nb))
    (hwindow : takes k.scheduler = true → Window k.scheduler.message (block p) 0)
    (hstate : k.compressor.state = .round) (hH : k.compressor.H = chain block j)
    (hvars : k.compressor.vars = rounds (block j) (chain block j) 63)
    (hblock : k.compressor.blockI.toNat = j) (hiter : k.compressor.iterations.toNat = 63)
    (hword : k.scheduler.oW = roundConstant 63 + scheduleWord (block j) 63)
    (hbusy : k.scheduler.busy = false) :
    Computing block nb (if takes k.scheduler then p + 1 else p) (k.next true dv m n) := by
  have hsched := Core.next_scheduler k dv m n
  obtain ⟨hvars', hH', hblock', -, hstate'⟩ :=
    Compressor.next_round hstate k.scheduler.dataReady k.scheduler.oW n
  rw [← Core.next_compressor k dv m n] at hvars' hH' hblock' hstate'
  have hend : k.compressor.iterations + 1 = 64 := by
    refine (eq_ofNat_iff (toNat_add_one hiter (by omega)) (show 64 < 2 ^ 7 by decide)).mpr rfl
  have hround : (k.next true dv m n).compressor.vars =
      rounds (block j) (chain block j) 64 := by
    rw [hvars', hvars, hword]
    rfl
  rw [if_pos hend] at hstate'
  by_cases hnext : j + 1 < nb
  · have ht : takes k.scheduler = true := by simp [takes, hready, hbusy, hnext]
    obtain ⟨hW', hcount', hbusy', -⟩ := Scheduler.next_take ht k.oReadBlock m
    rw [← hsched] at hW' hcount' hbusy'
    rw [ht]
    refine .add j (by simp [hp]) hnext hstate' ?_ hround ?_ hbusy' hcount' ?_
    · rw [hH', hH]
    · rw [hblock', hblock]
    · rw [hW', ← hp]
      exact hwindow ht
  · have ht : takes k.scheduler = false := takes_of_not_ready (by simp [hready, hnext])
    rw [ht]
    refine .last j hp (by omega) hstate' ?_ hround ?_ ?_
    · rw [hH', hH]
    · rw [hblock', hblock]
    · rw [hsched]
      exact (Scheduler.next_wait hbusy ht _ _).1

theorem Computing.add_next (j : ℕ) (hn : n.toNat = nb) (hp : p = j + 2) (hj : j + 1 < nb)
    (hlen : (block (j + 1)).length = 16) (hstate : k.compressor.state = .add)
    (hH : k.compressor.H = chain block j)
    (hvars : k.compressor.vars = rounds (block j) (chain block j) 64)
    (hblock : k.compressor.blockI.toNat = j) (hbusy : k.scheduler.busy = true)
    (hcount : k.scheduler.iterations = 0) (hW : Window k.scheduler.W (block (j + 1)) 0) :
    Computing block nb p (k.next true dv m n) := by
  obtain ⟨hH', hvars', hiter', hblock', hstate'⟩ :=
    Compressor.next_add hstate k.scheduler.dataReady k.scheduler.oW n
  rw [← Core.next_compressor k dv m n] at hH' hvars' hiter' hblock' hstate'
  have hnot : ¬ k.compressor.blockI = n - 1 := by
    intro heq
    have hlast := (blockI_eq_last_iff hblock hn (by omega)).mp heq
    omega
  have hsum : Sha256Function.add k.compressor.vars k.compressor.H = chain block (j + 1) := by
    rw [hvars, hH, chain_succ]
    rfl
  rw [if_neg hnot] at hblock' hstate'
  refine .round_start (j + 1) hp hj hlen hbusy hcount hW hstate' ?_ ?_ ?_ hiter'
  · rw [hH', hsum]
  · rw [hvars', hsum]
  · have hlt := n.isLt
    rw [hblock']
    exact toNat_add_one hblock (by omega)

theorem Computing.last_next (j : ℕ) (hn : n.toNat = nb) (hp : p = j + 1) (hj : nb = j + 1)
    (hready : k.scheduler.dataReady = false) (hstate : k.compressor.state = .add)
    (hH : k.compressor.H = chain block j)
    (hvars : k.compressor.vars = rounds (block j) (chain block j) 64)
    (hblock : k.compressor.blockI.toNat = j) (hbusy : k.scheduler.busy = false) :
    Computing block nb p (k.next true dv m n) := by
  obtain ⟨hH', -, -, -, hstate'⟩ :=
    Compressor.next_add hstate k.scheduler.dataReady k.scheduler.oW n
  rw [← Core.next_compressor k dv m n] at hH' hstate'
  rw [if_pos ((blockI_eq_last_iff hblock hn (by omega)).mpr hj.symm)] at hstate'
  refine .done (hp.trans hj.symm) hstate' ?_ ?_
  · rw [hH', hvars, hH, hj, chain_succ]
    rfl
  · rw [Core.next_scheduler]
    exact (Scheduler.next_wait hbusy (takes_of_not_ready hready) _ _).1

theorem Computing.step (h : Computing block nb p k) (hlen : ∀ j < nb, (block j).length = 16)
    (hready : k.scheduler.dataReady = true → Holds k.scheduler.message (block p) ∧ p < nb)
    {n : Word} (hn : n.toNat = nb) (hpos : 0 < nb) (hsup : Supplied k n) (dv : Bool)
    (m : BitVec 512) :
    Computing block nb (if takes k.scheduler then p + 1 else p) (k.next true dv m n) := by
  have hwindow : takes k.scheduler = true → Window k.scheduler.message (block p) 0 := by
    intro ht
    have hdr : k.scheduler.dataReady = true := by
      simp only [takes, Bool.and_eq_true] at ht
      exact ht.2
    exact (hready hdr).1.window (hlen p (hready hdr).2)
  -- once all blocks are taken none is waiting
  have hnone : p = nb → k.scheduler.dataReady = false := by
    intro hp
    by_contra hdr
    have hlt := (hready (by simpa using hdr)).2
    omega
  cases h with
  | idle hp hstate hH hblock hiter hbusy =>
    exact .idle_next hp hstate hH hblock hiter hbusy hwindow
  | init hp hstate hH hblock hiter hbusy hcount hW =>
    rw [takes_of_busy hbusy]
    exact .init_next hp hpos (hlen 0 hpos) hstate hH hblock hiter hbusy hcount hW
  | round j r hp hj hr hstate hH hvars hblock hiter hword hbusy hcount hW =>
    rcases Nat.lt_or_ge r 63 with hlt | hge
    · rw [decide_eq_true hlt] at hbusy
      rw [takes_of_busy hbusy]
      exact .round_next j r hp hj hlt (hlen j hj) hstate hH hvars hblock hiter hword hbusy
        (hcount hlt) (hW hlt)
    · obtain rfl : r = 63 := by omega
      have hdr : k.scheduler.dataReady = decide (j + 1 < nb) := by
        by_cases hnext : j + 1 < nb
        · rw [decide_eq_true hnext]
          refine hsup hstate hbusy fun heq => ?_
          have hlast := (blockI_eq_last_iff hblock hn hpos).mp heq
          omega
        · rw [decide_eq_false hnext]
          exact hnone (by omega)
      exact .lastRound_next j hp hj hdr hwindow hstate hH hvars hblock hiter hword hbusy
  | add j hp hj hstate hH hvars hblock hbusy hcount hW =>
    rw [takes_of_busy hbusy]
    exact .add_next j hn hp hj (hlen (j + 1) hj) hstate hH hvars hblock hbusy hcount hW
  | last j hp hj hstate hH hvars hblock hbusy =>
    have hdr := hnone (by omega)
    rw [takes_of_not_ready hdr]
    exact .last_next j hn hp hj hdr hstate hH hvars hblock hbusy
  | done hp hstate hH hbusy =>
    have hcomp := (Core.next_compressor k dv m n).trans (Compressor.next_done hstate _ _ _)
    have ht := takes_of_not_ready (hnone hp)
    rw [ht]
    refine .done hp ?_ ?_ ?_
    · rw [hcomp, hstate]
    · rw [hcomp, hH]
    · rw [Core.next_scheduler]
      exact (Scheduler.next_wait hbusy ht _ _).1

end

end SocCrypto.Sha
