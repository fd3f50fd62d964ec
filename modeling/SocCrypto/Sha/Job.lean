import SocCrypto.Clocked
import SocCrypto.Sha.Handover

/-!
# One job of the SHA-256 controller

From the release of the soft reset to the last digest word. `Progress` counts what a job has
done; its invariant is `InJob`. As long as every block is loaded by the time the
scheduler has put out the block before it, the words written are the hash of the
blocks.
-/

namespace SocCrypto.Sha
open Dma Clocked Sha256Function

/-! ### The digest -/

/-- `{H[0], ..., H[7]}`. -/
def digestValue (h : Hash) : BitVec 256 := h.a ++ h.b ++ h.c ++ h.d ++ h.e ++ h.f ++ h.g ++ h.h

/-- `H[7]` at `writeStart`, `H[0]` at `writeStart + 28`. -/
def digestWrites (writeStart : Word) (h : Hash) : List (Word × Word) :=
  [(writeStart, h.h), (writeStart + 4, h.g), (writeStart + 8, h.f), (writeStart + 12, h.e),
    (writeStart + 16, h.d), (writeStart + 20, h.c), (writeStart + 24, h.b), (writeStart + 28, h.a)]

theorem resultWord_append_zero {n : ℕ} (v : BitVec n) (w : Word) : resultWord (v ++ w) 0 = w := by
  apply BitVec.eq_of_getLsbD_eq
  intro j hj
  simp [resultWord, BitVec.getLsbD_append, hj]

theorem resultWord_append_succ {n : ℕ} (v : BitVec n) (w : Word) (k : ℕ) :
    resultWord (v ++ w) (k + 1) = resultWord v k := by
  apply BitVec.eq_of_getLsbD_eq
  intro j hj
  have hge : ¬ 32 * (k + 1) + j < 32 := by omega
  have hsub : 32 * (k + 1) + j - 32 = 32 * k + j := by omega
  simp [resultWord, BitVec.getLsbD_append, hge, hsub]

theorem resultWord_self (w : Word) : resultWord w 0 = w := by
  simp [resultWord]

theorem resultWrites_digestValue (writeStart : Word) (h : Hash) :
    resultWrites writeStart (digestValue h) 8 = digestWrites writeStart h := by
  simp [resultWrites, List.range_succ, digestWrites, digestValue, resultWord_append_zero,
    resultWord_append_succ, resultWord_self]

namespace Controller

variable {M : Word → Word} {readStart writeStart : Word} {nb : ℕ} {s : Controller} {i : In}
  {target : List Word}

/-! ### Invariant of a job -/

structure Progress where
  /-- Read requests left. -/
  requests : ℕ
  /-- Words in the assembler so far. -/
  stored : ℕ
  /-- Blocks loaded into the scheduler. -/
  loaded : ℕ
  /-- Blocks taken by the scheduler. -/
  taken : ℕ
  /-- Digest words written. -/
  sent : ℕ

def Progress.next (g : Progress) (s : Controller) (i : In) : Progress where
  requests := s.read.left (s.readIn i) g.requests
  stored := s.storedNext g.stored
  loaded := loadedNext s.core g.loaded
  taken := takenNext s.core g.taken
  sent := if s.write.moves i.waitWrite then g.sent + 1 else g.sent

/-- Before the first block is complete the core is disabled. -/
structure Filling (g : Progress) (s : Controller) : Prop where
  lt : g.stored < 16
  disabled : Disabled s.core
  loaded : g.loaded = 0
  taken : g.taken = 0

/-- Result of a job. -/
def jobDigest (M : Word → Word) (readStart : Word) (nb : ℕ) : Hash :=
  chain (sourceBlock (sourceWords M readStart nb)) nb

structure InJob (M : Word → Word) (readStart writeStart : Word) (nb : ℕ) (g : Progress)
    (s : Controller) : Prop where
  started : s.Started readStart writeStart nb
  collecting : s.Collecting M readStart (sourceWords M readStart nb) g.requests g.stored
  phase : s.Filling g ∨ s.Hashing (sourceWords M readStart nb) nb g.stored g.taken g.loaded
  sent : s.write.Sent writeStart (digestValue (jobDigest M readStart nb)) g.sent
  done : s.write.state ≠ .start → s.core.oDone = true
  writes : s.writes = resultWrites writeStart (digestValue (jobDigest M readStart nb)) g.sent

theorem Filling.done (h : s.Filling g) : s.core.oDone = false := by
  simp [Core.oDone, Compressor.oDone, h.disabled.idle]

theorem Filling.step {g : Progress} (h : s.Filling g)
    (hc : s.Collecting M readStart target g.requests g.stored)
    (hs : s.Started readStart writeStart nb) (hi : Idle i) :
    (s.step M i).Filling (g.next s i) ∨
      (s.step M i).Hashing target nb (s.storedNext g.stored) (takenNext s.core g.taken)
        (loadedNext s.core g.loaded) := by
  have hlt := h.lt
  have hdis : Disabled (s.step M i).core := by
    rw [core_next hc hi, decide_eq_false (by omega)]
    exact disabled_next _ _ _ _
  have htaken : takenNext s.core g.taken = 0 := by
    simp [takenNext, takes, h.disabled.dataReady, h.taken]
  have hloaded : loadedNext s.core g.loaded = 0 := by
    simp [loadedNext, h.disabled.oReadBlock, h.loaded]
  by_cases hfull : s.storedNext g.stored < 16
  · exact Or.inl ⟨hfull, hdis, hloaded, htaken⟩
  · right
    have hstore : s.drain.state = .store := by
      by_contra hne
      rw [storedNext_of_ne hne] at hfull
      omega
    rw [storedNext_of_store hstore] at hfull ⊢
    have h15 : g.stored = 15 := by omega
    have hcount : s.drain.counter = 15 := by
      refine (eq_ofNat_iff hc.counter (show 15 < 2 ^ 4 by decide)).mpr ?_
      omega
    have hoffer : (s.step M i).drain.state = .offer := by
      rw [step_drain, if_pos hi.clk, hs.resetn, Assembler.next_store hstore]
      exact if_pos hcount
    rw [htaken, hloaded, h15]
    refine ⟨by omega, .offered hoffer (by omega) hdis.oReadBlock hdis.state, ?_, ?_⟩
    · exact ⟨le_rfl, by omega, by simp [hdis.dataReady], fun h0 => by omega⟩
    · exact .idle rfl hdis.idle hdis.H hdis.blockI hdis.iterations hdis.busy

theorem Hashing.value {c p q : ℕ} (h : s.Hashing target nb c p q) (hd : s.core.oDone = true) :
    s.core.oHashValue = digestValue (chain (sourceBlock target) nb) := by
  obtain ⟨-, hH⟩ := h.computing.of_done hd
  have hd' : s.core.compressor.oDone = true := hd
  rw [Core.oHashValue, Compressor.oHashDigit, if_pos hd', hH]
  rfl

/-- The write master of a job sees the digest. -/
theorem InJob.write_next {g : Progress} (h : InJob M readStart writeStart nb g s) (hi : Idle i) :
    (s.step M i).write = s.write.next true s.core.oDone writeStart
      (writeStart + BitVec.ofNat 32 (4 * 2 ^ 3)) (digestValue (jobDigest M readStart nb))
      i.waitWrite := by
  have hend : s.endAddressWrite = writeStart + BitVec.ofNat 32 (4 * 2 ^ 3) := by
    rw [endAddressWrite, h.started.writeStart]
    rfl
  rw [step_write, if_pos hi.clk, h.started.resetn, h.started.writeStart, hend]
  cases hd : s.core.oDone
  · have hst : s.write.state = .start := by
      by_contra hne
      rw [h.done hne] at hd
      cases hd
    rw [MasterWrite.next_start hst, MasterWrite.next_start hst]
    rfl
  · rcases h.phase with hf | hh
    · rw [hf.done] at hd
      cases hd
    · rw [hh.value hd]
      rfl

theorem InJob.step {g : Progress} (h : InJob M readStart writeStart nb g s) (hpos : 0 < nb)
    (hnb : nb ≤ 16) (hi : Idle i) (hsup : Supplied s.core s.numberBlock) :
    InJob M readStart writeStart nb (g.next s i) (s.step M i) := by
  have hlen := length_sourceWords M readStart nb
  have hwrite := h.write_next hi
  have hnext := h.sent.next (by decide) s.core.oDone i.waitWrite
  rw [← hwrite] at hnext
  refine ⟨h.started.next hi, h.collecting.step h.started hlen hnb hi, ?_, hnext, ?_, ?_⟩
  · rcases h.phase with hf | hh
    · exact hf.step h.collecting h.started hi
    · exact Or.inr (hh.step h.collecting h.started hlen hpos hnb hi hsup)
  · intro hst
    have hd : s.core.oDone = true := by
      by_contra hne
      have hidle : s.write.state = .start := by
        by_contra hne'
        exact hne (h.done hne')
      have hfalse : s.core.oDone = false := by simpa using hne
      rw [hwrite, MasterWrite.next_start hidle, hfalse] at hst
      exact hst hidle
    rcases h.phase with hf | hh
    · rw [hf.done] at hd
      cases hd
    · rw [core_next h.collecting hi, decide_eq_true hh.ge]
      exact Core.oDone_next hd _ _ _
  · rw [step_writes, h.writes, hi.clk, Bool.true_and]
    exact h.sent.resultWrites_next i.waitWrite

/-! ### Progress -/

/-- Cycles a job still needs when nothing stalls it. -/
def jobRank (nb : ℕ) (g : Progress) (s : Controller) : ℕ :=
  s.read.potential g.requests + s.drain.rank (16 * nb - g.stored) +
    s.handRank (nb - g.loaded) + (if g.stored < 16 then 65 * nb + 2 else s.core.rank nb) +
    s.write.state.rank (2 ^ 3 - g.sent)

/-- What a cycle that makes no progress waits for: the bus, or the scheduler for a
word of the bus. -/
structure Waiting (nb : ℕ) (g : Progress) (s : Controller) (i : In) : Prop where
  empty : s.drain.state = .poll ∧ s.read.fifo.words = []
  read : ReadPath.Stalled (16 * nb) g.requests s.read (s.readIn i)
  core : g.stored = 16 * nb → s.core.oDone = true
  write : (s.write.state = .start ∧ s.core.oDone = false) ∨
    (s.write.state = .accept ∧ i.waitWrite = true) ∨ (s.write.state = .check ∧ g.sent = 8)

theorem Hashing.ready_of_dataReady {c p q : ℕ} (h : s.Hashing target nb c p q)
    (hdr : s.core.scheduler.dataReady = true) : q = p + 1 := by
  have hready := h.ready.ready
  rw [hdr] at hready
  exact of_decide_eq_true hready.symm

/-- A core that makes no progress has no block to take. -/
theorem Hashing.not_ready {c p q : ℕ} (h : s.Hashing target nb c p q) (hpos : 0 < nb)
    (hc : c ≤ 16 * nb) (hcore : (p = 0 ∧ takes s.core.scheduler = false) ∨ s.core.oDone = true) :
    s.core.scheduler.dataReady = false := by
  by_contra hdr
  have hdr' : s.core.scheduler.dataReady = true := by simpa using hdr
  have hq := h.ready_of_dataReady hdr'
  have hle := h.handover.le
  rcases hcore with ⟨hp, ht⟩ | hd
  · have hbusy := h.computing.of_zero hpos hp
    simp [takes, hbusy, hdr'] at ht
  · have hp := (h.computing.of_done hd).1
    omega

theorem Filling.handRank_next {g : Progress} (h : s.Filling g)
    (hc : s.Collecting M readStart target g.requests g.stored) (hi : Idle i) :
    (s.step M i).handRank (nb - (g.next s i).loaded) ≤ s.handRank (nb - g.loaded) := by
  have hdis : Disabled (s.step M i).core := by
    rw [core_next hc hi, decide_eq_false (by have := h.lt; omega)]
    exact disabled_next _ _ _ _
  have hne : s.drain.state ≠ .offer := by
    intro hst
    have := (hc.offer hst).2
    have := h.lt
    omega
  have hloaded : (g.next s i).loaded = 0 := by
    simp [Progress.next, loadedNext, h.disabled.oReadBlock, h.loaded]
  rw [hloaded, h.loaded, handRank, handRank, hdis.oReadBlock, h.disabled.oReadBlock, if_neg hne]
  split <;> simp

theorem InJob.core_rank_next {g : Progress} (h : InJob M readStart writeStart nb g s)
    (hpos : 0 < nb) (hnb : nb ≤ 16) (hi : Idle i) :
    (if (g.next s i).stored < 16 then 65 * nb + 2 else (s.step M i).core.rank nb) ≤
        (if g.stored < 16 then 65 * nb + 2 else s.core.rank nb) ∧
      ((if (g.next s i).stored < 16 then 65 * nb + 2 else (s.step M i).core.rank nb) =
          (if g.stored < 16 then 65 * nb + 2 else s.core.rank nb) → 16 ≤ g.stored →
        (g.taken = 0 ∧ takes s.core.scheduler = false) ∨ s.core.oDone = true) := by
  have hcore := core_next h.collecting hi
  rcases h.phase with hf | hh
  · have hlt := hf.lt
    rw [if_pos hlt]
    refine ⟨?_, fun _ hge => absurd hge (by omega)⟩
    split
    · exact le_rfl
    · rw [hcore, decide_eq_false (by omega)]
      exact le_rfl
  · have hge := hh.ge
    have hge' : ¬ (g.next s i).stored < 16 := by
      simp only [Progress.next, storedNext]
      split <;> omega
    rw [if_neg hge', if_neg (by omega), hcore, decide_eq_true hge]
    rcases hh.computing.rank_next (h.started.numberBlock hnb) hpos s.drain.writeDone
      s.drain.mem with hlt | ⟨heq, hwait⟩
    · exact ⟨hlt.le, fun heq => absurd heq hlt.ne⟩
    · exact ⟨heq.le, fun _ _ => hwait⟩

theorem InJob.hand_rank_next {g : Progress} (h : InJob M readStart writeStart nb g s)
    (hi : Idle i) :
    (s.step M i).handRank (nb - (g.next s i).loaded) ≤ s.handRank (nb - g.loaded) ∧
      ((s.step M i).handRank (nb - (g.next s i).loaded) = s.handRank (nb - g.loaded) →
        16 ≤ g.stored → s.core.oReadBlock = false ∧
          (s.drain.state = .offer → s.core.scheduler.dataReady = true)) := by
  rcases h.phase with hf | hh
  · have hlt := hf.lt
    exact ⟨hf.handRank_next h.collecting hi, fun _ hge => absurd hge (by omega)⟩
  · rcases Handover.rank_next hh h.collecting h.started (length_sourceWords M readStart nb) hi with
      hlt | ⟨heq, hwait⟩
    · exact ⟨hlt.le, fun heq => absurd heq hlt.ne⟩
    · exact ⟨heq.le, fun _ _ => hwait⟩

/-- A core at a standstill behind the last block is done. -/
theorem Hashing.done_of_still {p q : ℕ} (h : s.Hashing target nb (16 * nb) p q) (hpos : 0 < nb)
    (hpoll : s.drain.state = .poll) (hread : s.core.oReadBlock = false)
    (hcore : (p = 0 ∧ takes s.core.scheduler = false) ∨ s.core.oDone = true) :
    s.core.oDone = true := by
  have hq : q = nb := by
    cases h.handover with
    | quiet _ hq _ _ => omega
    | offered hoffer _ _ _ => simp [hpoll] at hoffer
    | reading _ _ hread' _ _ => simp [hread] at hread'
    | echo _ _ _ hread' _ _ => simp [hread] at hread'
  rcases hcore with ⟨hp, ht⟩ | hd
  · have hready := h.ready.ready
    have hle := h.ready.le_succ
    rw [h.not_ready hpos le_rfl (Or.inl ⟨hp, ht⟩)] at hready
    have hne := of_decide_eq_false hready.symm
    omega
  · exact hd

theorem InJob.rank_next {g : Progress} (h : InJob M readStart writeStart nb g s) (hpos : 0 < nb)
    (hnb : nb ≤ 16) (hi : Idle i) :
    jobRank nb (g.next s i) (s.step M i) ≤ jobRank nb g s ∧
      (jobRank nb (g.next s i) (s.step M i) = jobRank nb g s → Waiting nb g s i) := by
  have hlen := length_sourceWords M readStart nb
  have hle := h.collecting.le
  have hrun := h.collecting.running (i := i) h.started hlen
  have hread : (s.step M i).read = s.read.next M (s.readIn i) := by rw [step_read, if_pos hi.clk]
  have hreadRank := ReadPath.potential_next_le (M := M) h.collecting.left hrun
    (h.collecting.room (by omega))
  have hdrain : (s.step M i).drain.rank (16 * nb - (g.next s i).stored) <
        s.drain.rank (16 * nb - g.stored) ∨
      ((s.step M i).drain.rank (16 * nb - (g.next s i).stored) =
          s.drain.rank (16 * nb - g.stored) ∧
        ((s.drain.state = .poll ∧ s.read.fifo.words = []) ∨
          (s.drain.state = .offer ∧ s.core.oReadBlock = false))) := by
    have hnext := h.collecting.rank_next h.started hi
    rw [hlen] at hnext
    exact hnext
  have hhand := h.hand_rank_next hi
  have hcore := h.core_rank_next hpos hnb hi
  have hwriteRank := h.sent.rank_next_le s.core.oDone i.waitWrite
    (writeStart + BitVec.ofNat 32 (4 * 2 ^ 3))
  rw [← h.write_next hi] at hwriteRank
  rw [hlen] at hle
  rw [← hread] at hreadRank
  have hdrainRank : (s.step M i).drain.rank (16 * nb - (g.next s i).stored) ≤
      s.drain.rank (16 * nb - g.stored) := by
    rcases hdrain with hlt | ⟨heq, -⟩
    · exact hlt.le
    · exact heq.le
  have hreadRank' : (s.step M i).read.potential (g.next s i).requests ≤
      s.read.potential g.requests := hreadRank
  have hwriteRank' : (s.step M i).write.state.rank (2 ^ 3 - (g.next s i).sent) ≤
      s.write.state.rank (2 ^ 3 - g.sent) := hwriteRank
  refine ⟨by unfold jobRank; omega, fun heq => ?_⟩
  unfold jobRank at heq
  have hcoreWait := hcore.2 (by omega)
  have hhandWait := hhand.2 (by omega)
  have hempty : s.drain.state = .poll ∧ s.read.fifo.words = [] := by
    rcases hdrain with hlt | ⟨-, hpoll | ⟨hoffer, -⟩⟩
    · omega
    · exact hpoll
    · rcases h.phase with hf | hh
      · exact absurd (h.collecting.offer hoffer).2 (by have := hf.lt; omega)
      · have hdr := (hhandWait hh.ge).2 hoffer
        rw [hh.not_ready hpos hle (hcoreWait hh.ge)] at hdr
        cases hdr
  constructor
  · exact hempty
  · have hroom : s.read.fifo.full = false := by simp [Fifo.full, hempty.2, Fifo.capacity]
    have hstall := ReadPath.stalled_of_potential (M := M) (by omega) h.collecting.left hrun hroom
      (by
        rw [← hread]
        show (s.step M i).read.potential (g.next s i).requests = _
        omega)
    rwa [hlen] at hstall
  · intro hall
    rcases h.phase with hf | hh
    · exact absurd hf.lt (by omega)
    · have hrb := (hhandWait hh.ge).1
      have hwait := hcoreWait hh.ge
      rw [hall] at hh
      exact hh.done_of_still hpos hempty.1 hrb hwait
  · have hsame : (s.step M i).write.state.rank (2 ^ 3 - (g.next s i).sent) =
        s.write.state.rank (2 ^ 3 - g.sent) := by omega
    rw [h.write_next hi] at hsame
    exact h.sent.waits (by decide) hsame

/-! ### Soft reset held low -/

/-- Both clocks have an edge in every step. -/
def OneClock (i : ℕ → In) : Prop := ∀ t, (i t).clk = true ∧ (i t).shaClk = true

/-- What a cycle of the soft reset leaves, whatever went on before. -/
structure SoftReset (s : Controller) : Prop where
  master : s.read.master = MasterRead.reset
  drain : s.drain = s.drain.reset
  write : s.write = s.write.reset

theorem softReset_step (hreset : s.config.resetn = false) (hclk : i.clk = true) :
    SoftReset (s.step M i) := by
  constructor
  case master => simp [step_read, hclk, ReadPath.next, readIn, hreset, MasterRead.next]
  case drain =>
    rw [step_drain, hreset, if_pos hclk]
    rfl
  case write =>
    rw [step_write, hreset, if_pos hclk]
    rfl

theorem SoftReset.disabled_step (h : SoftReset s) (hclk : i.shaClk = true) :
    Disabled (s.step M i).core := by
  have henable : s.drain.shaEnable = false := by
    rw [h.drain]
    rfl
  rw [step_core, if_pos hclk, henable]
  exact disabled_next _ _ _ _

theorem HardwareReset.softReset (h : HardwareReset s) : SoftReset s :=
  ⟨h.master, h.drain, h.write⟩

theorem HardwareReset.step (h : HardwareReset s) (hreset : s.config.resetn = false)
    (hclk : i.clk = true ∧ i.shaClk = true) :
    HardwareReset (s.step M i) ∧ Disabled (s.step M i).core := by
  have hread : s.drain.fifoRead = false := by
    rw [h.drain]
    rfl
  have hwrite : s.write.oWrite = false := by
    rw [h.write]
    rfl
  have hoRead : s.read.master.oRead = false := by
    rw [h.master]
    rfl
  have hsoft := softReset_step (M := M) hreset hclk.1
  refine ⟨⟨hsoft.master, ?_, ?_, hsoft.drain, hsoft.write, ?_⟩, h.softReset.disabled_step hclk.2⟩
  · cases haclr : s.config.fifoClear <;>
      simp [step_read, hclk.1, h.fifo, h.inflight, ReadPath.next, readIn, Fifo.next, hread, haclr]
  · simp [step_read, hclk.1, h.inflight, ReadPath.next, hoRead]
  · simp [step_writes, hwrite, h.writes]

theorem run_reset {i : ℕ → In} (h : HardwareReset s) (hclk : OneClock i) {T : ℕ}
    (hlow : ∀ t < T, (run (step M) s i t).config.resetn = false) :
    ∀ t ≤ T, HardwareReset (run (step M) s i t) ∧
      (0 < t → Disabled (run (step M) s i t).core) := by
  intro t
  induction t with
  | zero => exact fun _ => ⟨h, fun h0 => absurd h0 (lt_irrefl 0)⟩
  | succ t ih =>
    intro ht
    have hnext := (ih (by omega)).1.step (M := M) (hlow t (by omega)) (hclk t)
    exact ⟨hnext.1, fun _ => hnext.2⟩

/-- Nothing done yet. -/
def Progress.initial (nb : ℕ) : Progress := ⟨16 * nb, 0, 0, 0, 0⟩

theorem HardwareReset.inJob (h : HardwareReset s) (hdis : Disabled s.core)
    (hs : s.Started readStart writeStart nb) (hpos : 0 < nb) :
    InJob M readStart writeStart nb (.initial nb) s := by
  have hstate : s.drain.state = .poll := by
    rw [h.drain]
    rfl
  refine ⟨hs, ?_, Or.inl ⟨by simp [Progress.initial], hdis, rfl, rfl⟩, ?_, ?_, ?_⟩
  · constructor
    case left =>
      rw [h.master, length_sourceWords]
      exact MasterRead.left_reset readStart (by omega)
    case words =>
      simp [hstate, ReadPath.stream, h.fifo, h.inflight, h.master, MasterRead.nextAddress,
        MasterRead.reset, sourceWords, Progress.initial]
    case mem =>
      intro k hk hge
      have hge' : 16 ≤ 0 + k := hge
      omega
    case le => simp [Progress.initial]
    all_goals rw [h.drain]; simp [Assembler.reset, Progress.initial]
  · rw [h.write]
    exact MasterWrite.sent_reset _ _ _
  · rw [h.write]
    exact fun hst => absurd rfl hst
  · simp [h.writes, resultWrites, Progress.initial]

/-! ### The whole run -/

section
variable {s : ℕ → Controller} {i : ℕ → In} {g : Progress}

/-- The bus of a run stalls no request and no answer for ever. -/
structure BusFair (s : ℕ → Controller) (i : ℕ → In) : Prop where
  grantRead : ∀ t, ∃ u ≥ t, (s u).read.master.oRead = true → (i u).waitRead = false
  answer : ∀ t, ∃ u ≥ t, (s u).read.inflight ≠ [] → (i u).answer = true
  grantWrite : ∀ t, ∃ u ≥ t, (s u).write.oWrite = true → (i u).waitWrite = false

/-- What a run has done before step `t`. -/
def progress (s : ℕ → Controller) (i : ℕ → In) (g : Progress) : ℕ → Progress
  | 0 => g
  | t + 1 => (progress s i g t).next (s t) (i t)

/-- A fair bus brings a job to its end. -/
theorem exists_sent (hjob : ∀ t, InJob M readStart writeStart nb (progress s i g t) (s t))
    (hstep : ∀ t, s (t + 1) = (s t).step M (i t)) (hpos : 0 < nb) (hnb : nb ≤ 16)
    (hidle : ∀ t, Idle (i t)) (hfair : BusFair s i) : ∃ t, (progress s i g t).sent = 8 := by
  have hrank : ∀ t, jobRank nb (progress s i g (t + 1)) (s (t + 1)) ≤
      jobRank nb (progress s i g t) (s t) := by
    intro t
    rw [hstep t]
    exact ((hjob t).rank_next hpos hnb (hidle t)).1
  obtain ⟨t₀, hstable⟩ := exists_stable (fun t => jobRank nb (progress s i g t) (s t)) hrank
  -- from t₀ on every cycle waits
  have hwait : ∀ t ≥ t₀, Waiting nb (progress s i g t) (s t) (i t) := by
    intro t ht
    refine ((hjob t).rank_next hpos hnb (hidle t)).2 ?_
    have hnext := hstable (t + 1) (by omega)
    rw [hstep t] at hnext
    exact hnext.trans (hstable t ht).symm
  have hdecr : Antitone fun t => (progress s i g t).requests :=
    antitone_nat_of_succ_le fun t => ReadPath.left_le _ _ _
  obtain ⟨u, hu, hgrant⟩ := hfair.grantRead t₀
  have hleft := (hjob u).collecting.left
  rw [length_sourceWords] at hleft
  have hzero := (hwait u hu).read.none_left hleft (hjob u).started.startRead hgrant
  obtain ⟨v, hv, hanswer⟩ := hfair.answer u
  have hwaitv := hwait v (by omega)
  have hinflight := hwaitv.read.inflight_nil hanswer
  have hvzero : (progress s i g v).requests = 0 := by
    have hle : (progress s i g v).requests ≤ (progress s i g u).requests := hdecr hv
    omega
  have hstored : (progress s i g v).stored = 16 * nb := by
    have hwords := congrArg List.length (hjob v).collecting.words
    rw [hwaitv.empty.1, ReadPath.stream, hwaitv.empty.2, hinflight, hvzero] at hwords
    have hle := (hjob v).collecting.le
    simp at hwords hle
    omega
  have hdone : ∀ w ≥ v, (s w).core.oDone = true := by
    intro w hw
    induction w, hw using Nat.le_induction with
    | base => exact hwaitv.core hstored
    | succ w _ ih =>
      rcases (hjob w).phase with hf | hh
      · rw [hf.done] at ih
        cases ih
      · rw [hstep w, core_next (hjob w).collecting (hidle w), decide_eq_true hh.ge]
        exact Core.oDone_next ih _ _ _
  obtain ⟨w, hw, hgrantw⟩ := hfair.grantWrite v
  exact ⟨w, (hjob w).sent.all_sent (hwait w (by omega)).write (hdone w hw) hgrantw⟩

/-- A job on a fair bus writes its digest and nothing else. -/
theorem transfers_of_inJob
    (hjob : ∀ t, InJob M readStart writeStart nb (progress s i g t) (s t))
    (hstep : ∀ t, s (t + 1) = (s t).step M (i t)) (hpos : 0 < nb) (hnb : nb ≤ 16)
    (hidle : ∀ t, Idle (i t)) (hfair : BusFair s i) :
    (∃ t₀, ∀ t ≥ t₀, (s t).writes = digestWrites writeStart (jobDigest M readStart nb)) ∧
      ∀ t, (s t).writes <+: digestWrites writeStart (jobDigest M readStart nb) := by
  rw [← resultWrites_digestValue]
  constructor
  · obtain ⟨t₀, ht₀⟩ := exists_sent hjob hstep hpos hnb hidle hfair
    refine ⟨t₀, fun t ht => ?_⟩
    have hstay : (progress s i g t).sent = 8 := by
      induction t, ht using Nat.le_induction with
      | base => exact ht₀
      | succ t _ ih =>
        have hst := (hjob t).sent.pending ih
        have hmoves := MasterWrite.moves_of_ne
          (show (s t).write.state ≠ .accept by simp [hst]) (i t).waitWrite
        show (if _ then _ else _) = 8
        rw [hmoves]
        exact ih
    rw [(hjob t).writes, hstay]
  · intro t
    rw [(hjob t).writes]
    exact resultWrites_prefix _ _ (hjob t).sent.le

theorem BusFair.shift (h : BusFair s i) (T : ℕ) :
    BusFair (fun t => s (T + t)) fun t => i (T + t) := by
  have hback : ∀ P : ℕ → Prop, (∀ t, ∃ u ≥ t, P u) → ∀ t, ∃ u ≥ t, P (T + u) := by
    intro P hP t
    obtain ⟨u, hu, hPu⟩ := hP (T + t)
    refine ⟨u - T, by omega, ?_⟩
    rw [Nat.add_sub_cancel' (by omega)]
    exact hPu
  exact ⟨hback _ h.grantRead, hback _ h.answer, hback _ h.grantWrite⟩

end

/-! ### Writes of earlier jobs -/

/-- The controller with `before` in front of its writes. -/
def logged (before : List (Word × Word)) (s : Controller) : Controller :=
  { s with writes := before ++ s.writes }

theorem step_logged (before : List (Word × Word)) :
    (s.logged before).step M i = (s.step M i).logged before := by
  cases hclk : i.clk
  · simp [step, logged, numberBlock, hclk]
  · cases hmoves : s.write.oWrite && !i.waitWrite <;>
      simp [step, clkEdge, logged, readIn, endAddressWrite, numberBlock, hclk, hmoves]

/-- No step looks at the writes that are done. -/
theorem run_logged (before : List (Word × Word)) (i : ℕ → In) (t : ℕ) :
    run (step M) (s.logged before) i t = (run (step M) s i t).logged before := by
  induction t with
  | zero => rfl
  | succ t ih => rw [run_last, ih, step_logged, run_last]

/-- From any state: the soft reset is low in the two cycles before cycle `T` at least, in which
control is 3 and `length` is `64 n`, the FIFO is empty and no read is under way. On every fair
bus, as long as each block is loaded by the time the scheduler has put out the block before it,
exactly the eight words of the hash of the stored blocks are written from then on, `H[7]` first. -/
theorem hash_transfers (M : Word → Word) (s : Controller) (i : ℕ → In) (T n : ℕ)
    (readStart writeStart : Word) (hn : 1 ≤ n) (hn' : n ≤ 16) (hclk : OneClock i) (hT : 2 ≤ T)
    (hlow : ∀ t < T, T ≤ t + 2 → (run (step M) s i t).config.resetn = false)
    (hstart : (run (step M) s i T).Started readStart writeStart n)
    (hfifo : (run (step M) s i T).read.fifo.words = [])
    (hinflight : (run (step M) s i T).read.inflight = [])
    (hcpu : ∀ t ≥ T, (i t).cpu = none) (hfair : BusFair (run (step M) s i) i)
    (hsup : ∀ t ≥ T,
      Supplied (run (step M) s i t).core (run (step M) s i t).numberBlock) :
    let hash := digest ((List.range n).map (sourceBlock (sourceWords M readStart n)))
    let before := (run (step M) s i T).writes
    (∃ t₀, ∀ t ≥ t₀, (run (step M) s i t).writes = before ++ digestWrites writeStart hash) ∧
      ∀ t ≥ T, before <+: (run (step M) s i t).writes ∧
        (run (step M) s i t).writes <+: before ++ digestWrites writeStart hash := by
  intro hash before
  obtain ⟨T, rfl⟩ := Nat.exists_eq_add_of_le' hT
  have hsoft := softReset_step (M := M) (hlow T (by omega) le_rfl) (hclk T).1
  have hsoft' := softReset_step (M := M) (hlow (T + 1) (by omega) (by omega)) (hclk (T + 1)).1
  have hdis := hsoft.disabled_step (M := M) (hclk (T + 1)).2
  -- the run from the release, without the writes before it
  let fresh : Controller := { run (step M) s i (T + 2) with writes := [] }
  let j : ℕ → In := fun t => i (T + 2 + t)
  have hfresh : HardwareReset fresh :=
    ⟨hsoft'.master, hfifo, hinflight, hsoft'.drain, hsoft'.write, rfl⟩
  have hrun : ∀ t, run (step M) s i (T + 2 + t) = (run (step M) fresh j t).logged before := by
    intro t
    have hnow : run (step M) s i (T + 2) = fresh.logged before := by
      simp [fresh, logged, before]
    rw [run_add, hnow]
    exact run_logged before j t
  have hidle : ∀ t, Idle (j t) := fun t =>
    ⟨(hclk (T + 2 + t)).1, (hclk (T + 2 + t)).2, hcpu (T + 2 + t) (by omega)⟩
  have hsupply : ∀ t, Supplied (run (step M) fresh j t).core
      (run (step M) fresh j t).numberBlock := by
    intro t
    have hnow := hsup (T + 2 + t) (by omega)
    rw [hrun t] at hnow
    exact hnow
  have hjob : ∀ t, InJob M readStart writeStart n
      (progress (run (step M) fresh j) j (.initial n) t) (run (step M) fresh j t) := by
    intro t
    induction t with
    | zero =>
      exact hfresh.inJob hdis
        ⟨hstart.control, hstart.readStart, hstart.writeStart, hstart.length⟩ hn
    | succ t ih => exact ih.step hn hn' (hidle t) (hsupply t)
  have hfair' : BusFair (run (step M) fresh j) j := by
    have hlate := hfair.shift (T + 2)
    simp only [hrun] at hlate
    exact ⟨hlate.grantRead, hlate.answer, hlate.grantWrite⟩
  obtain ⟨⟨t₀, hend⟩, hpart⟩ := transfers_of_inJob hjob (fun _ => rfl) hn hn' hidle hfair'
  constructor
  · refine ⟨T + 2 + t₀, fun t ht => ?_⟩
    obtain ⟨u, rfl⟩ := Nat.exists_eq_add_of_le (show T + 2 ≤ t by omega)
    rw [hrun u, logged, hend u (by omega)]
    rfl
  · intro t ht
    obtain ⟨u, rfl⟩ := Nat.exists_eq_add_of_le ht
    rw [hrun u]
    exact ⟨List.prefix_append _ _, (List.prefix_append_right_inj before).mpr (hpart u)⟩

/-! ### Two jobs -/

def powerUp : Controller where
  config := ⟨0, 0, 0, 0⟩
  read := ⟨.reset, ⟨[], 0⟩, []⟩
  drain := ⟨.poll, 0, false, false, false, 0⟩
  core :=
    ⟨.first, false, ⟨Compressor.initialH, Compressor.initialH, .idle, 0, 0⟩,
      ⟨0, 0, 0, false, false, 0⟩⟩
  write := ⟨.start, 0, 0, false, 0⟩
  writes := []

theorem powerUp_reset : HardwareReset powerUp := by
  constructor <;> rfl

/-- Register writes of a job with write address 4096 on a bus that never asserts
waitrequest; `answer` says when memory answers. -/
def driver (length : Word) (answer : ℕ → Bool) (t : ℕ) : In where
  clk := true
  shaClk := true
  cpu :=
    match t with
    | 0 => some (3, length)
    | 1 => some (2, 4096)
    | 2 => some (0, 4)
    | 3 => some (0, 0)
    | 4 => some (0, 3)
    | _ => none
  waitRead := false
  answer := answer t
  waitWrite := false

theorem driver_oneClock (length : Word) (answer : ℕ → Bool) : OneClock (driver length answer) :=
  fun _ => ⟨rfl, rfl⟩

theorem driver_cpu (length : Word) (answer : ℕ → Bool) {t : ℕ} (ht : t ≥ 5) :
    (driver length answer t).cpu = none := by
  obtain ⟨u, rfl⟩ := Nat.exists_eq_add_of_le' ht
  rfl

theorem driver_low (length : Word) (answer : ℕ → Bool) :
    ∀ t < 5, (run (step id) powerUp (driver length answer) t).config.resetn = false := by
  have hzero : ∀ s : Controller, s.config.control = 0 → s.config.resetn = false := by
    intro s hs
    rw [Config.resetn, hs]
    rfl
  have hclear : ∀ s : Controller, s.config.control = 4 → s.config.resetn = false := by
    intro s hs
    rw [Config.resetn, hs]
    rfl
  intro t ht
  have hcases : t = 0 ∨ t = 1 ∨ t = 2 ∨ t = 3 ∨ t = 4 := by omega
  rcases hcases with rfl | rfl | rfl | rfl | rfl
  · exact hzero _ rfl
  · exact hzero _ rfl
  · exact hzero _ rfl
  · exact hclear _ rfl
  · exact hzero _ rfl

theorem driver_started (nb : ℕ) (answer : ℕ → Bool) :
    (run (step id) powerUp (driver (BitVec.ofNat 32 (64 * nb)) answer) 5).Started 0 4096 nb :=
  ⟨rfl, rfl, rfl, rfl⟩

theorem driver_fair (length : Word) {answer : ℕ → Bool} {n : ℕ}
    (hanswer : ∀ t ≥ n, answer t = true) (s : ℕ → Controller) :
    BusFair s (driver length answer) := by
  constructor
  · exact fun t => ⟨t, le_rfl, fun _ => rfl⟩
  · exact fun t => ⟨max t n, le_max_left _ _, fun _ => hanswer _ (le_max_right _ _)⟩
  · exact fun t => ⟨t, le_rfl, fun _ => rfl⟩

/-- A single block. -/
def oneBlock : ℕ → In := driver 64 fun _ => true

theorem oneBlock_supplied {t : ℕ} (ht : t ≥ 5) :
    Supplied (run (step id) powerUp oneBlock t).core
      (run (step id) powerUp oneBlock t).numberBlock := by
  have hkeep : (run (step id) powerUp oneBlock t).config.length = 64 ∧
      (run (step id) powerUp oneBlock t).core.compressor.blockI = 0 := by
    induction t, ht using Nat.le_induction with
    | base => exact ⟨rfl, rfl⟩
    | succ t ht ih =>
      have hlength : (run (step id) powerUp oneBlock (t + 1)).config =
          (run (step id) powerUp oneBlock t).config := by
        show ((run (step id) powerUp oneBlock t).step id (oneBlock t)).config = _
        rw [step_config, oneBlock, driver_cpu 64 _ ht]
        rfl
      refine ⟨by rw [hlength]; exact ih.1, ?_⟩
      show ((run (step id) powerUp oneBlock t).core.compressor.next _ _ _ _).blockI = 0
      have hone : (run (step id) powerUp oneBlock t).numberBlock = 1 := by
        rw [numberBlock, ih.1]
        rfl
      rw [hone]
      unfold Compressor.next
      split
      · rfl
      · cases hst : (run (step id) powerUp oneBlock t).core.compressor.state
        case idle =>
          simp only
          split <;> exact ih.2
        all_goals simp [ih.2]
  intro _ _ hblock
  refine absurd ?_ hblock
  rw [hkeep.2, numberBlock, hkeep.1]
  rfl

theorem oneBlock_inJob (t : ℕ) :
    InJob id 0 4096 1 (progress (fun u => run (step id) powerUp oneBlock (5 + u))
      (fun u => oneBlock (5 + u)) (.initial 1) t) (run (step id) powerUp oneBlock (5 + t)) := by
  obtain ⟨hreset, hdis⟩ := run_reset powerUp_reset (driver_oneClock 64 fun _ => true)
    (driver_low 64 fun _ => true) 5 le_rfl
  induction t with
  | zero => exact hreset.inJob (hdis (by decide)) (driver_started 1 _) (by decide)
  | succ t ih =>
    exact ih.step (by decide) (by decide) ⟨rfl, rfl, driver_cpu _ _ (by omega)⟩
      (oneBlock_supplied (by omega))

theorem exists_oneBlock :
    ∃ t g, InJob id 0 4096 1 g (run (step id) powerUp oneBlock t) ∧ g.sent = 8 := by
  obtain ⟨t, ht⟩ := exists_sent oneBlock_inJob (fun _ => rfl) (by decide) (by decide)
    (fun t => ⟨rfl, rfl, driver_cpu _ _ (by omega)⟩)
    (by constructor <;> exact fun t => ⟨t, le_rfl, fun _ => rfl⟩)
  exact ⟨5 + t, _, oneBlock_inJob t, ht⟩

/-- The hash of the one block of `oneBlock`. -/
theorem hash_transfers_oneBlock :
    ∃ t₀, ∀ t ≥ t₀, (run (step id) powerUp oneBlock t).writes =
      digestWrites 4096 (digest ((List.range 1).map (sourceBlock (sourceWords id 0 1)))) :=
  (hash_transfers id powerUp oneBlock 5 1 0 4096 le_rfl (by decide) (driver_oneClock _ _)
    (by decide) (fun t ht _ => driver_low _ _ t ht) (driver_started 1 _) rfl rfl
    (fun _ ht => driver_cpu _ _ ht) (driver_fair _ (n := 0) (fun _ _ => rfl) _)
    fun _ ht => oneBlock_supplied ht).1

/-- Two blocks; memory answers no read for 18 cycles. -/
def slowMemory : ℕ → In := driver 128 fun t => decide (t < 55) || decide (73 < t)

/-- The second block comes too late and the digest is wrong. -/
theorem slowMemory_wrong_digest :
    HardwareReset powerUp ∧ OneClock slowMemory ∧
      (∀ t < 5, (run (step id) powerUp slowMemory t).config.resetn = false) ∧
      (run (step id) powerUp slowMemory 5).Started 0 4096 2 ∧
      (∀ t ≥ 5, (slowMemory t).cpu = none) ∧ BusFair (run (step id) powerUp slowMemory) slowMemory ∧
      ¬ (run (step id) powerUp slowMemory 195).writes <+:
        digestWrites 4096 (digest ((List.range 2).map (sourceBlock (sourceWords id 0 2)))) := by
  refine ⟨powerUp_reset, driver_oneClock _ _, driver_low _ _, driver_started 2 _,
    fun t ht => driver_cpu _ _ ht, driver_fair _ (n := 74) ?_ _, by decide +kernel⟩
  intro t ht
  simp
  omega

end Controller

end SocCrypto.Sha
