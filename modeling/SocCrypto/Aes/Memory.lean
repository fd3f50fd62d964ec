import SocCrypto.Aes.EndToEnd
import SocCrypto.Dma.Memory

/-!
# The AES engine and its memory

Reads and writes of a job overlap in time, so the memory that answers the reads is already being
changed. A word of the result is written after the block it belongs to has been read; a job whose
target does not run into source blocks still to be read works on the words that memory held at
its start, in place or elsewhere.
-/

namespace SocCrypto.Aes
open AesFunction (Block)
open Clocked
open Dma (addresses addresses_succ_last stored stored_append stored_of_notMem)

/-! ### Engine and memory in step -/

/-- The engine over the memory that it writes to. -/
structure Live where
  system : System
  memory : Word → Word

namespace Live

def next (s : Live) (i : System.In) : Live where
  system := s.system.next s.memory i
  memory := stored s.memory (s.system.accepted i)

def after (s : Live) (i : ℕ → System.In) : ℕ → Live := run next s i

end Live

/-- No target word of the blocks before block `q` is a source word from block `q` on. -/
def Apart (rmAddr wmAddr : Word) (n : ℕ) : Prop :=
  ∀ q < n, ∀ j < 4 * q, ∀ m, 4 * q ≤ m → m < 4 * n →
    wmAddr + BitVec.ofNat 32 (4 * j) ≠ rmAddr + BitVec.ofNat 32 (4 * m)

theorem apart_self (a : Word) {n : ℕ} (hlt : 16 * n < 2 ^ 32) : Apart a a n := by
  intro q hq j hj m hm hmn heq
  have hsame := Dma.offset_inj (a := a) (by omega) (by omega) heq
  omega

namespace System

section
variable {M M' : Word → Word} {f : Block → Block} {e : Bool} {ke kd : BitVec 4 → Block}
  {rmAddr wmAddr : Word} {n k d φ : ℕ} {c : Block} {target : List Word}
  {w : List (Word × Word)} {s : System} {i : In}

/-- Memory matters in the cycle of an answer, at the address that is answered. -/
theorem next_congr (h : s.rddatavalid i = true → M (s.inflight.headD 0) = M' (s.inflight.headD 0)) :
    s.next M i = s.next M' i := by
  have hin : s.qsys.next (s.qsysIn M i) = s.qsys.next (s.qsysIn M' i) := by
    cases hvalid : s.rddatavalid i
    · simp only [Qsys.next, qsysIn, hvalid, Bool.false_eq_true, if_false]
      rfl
    · rw [qsysIn, qsysIn, h hvalid]
  rw [next, next, hin]

/-- Words that no block has taken yet. -/
def untaken (s : System) (left : ℕ) : ℕ :=
  s.qsys.aesFifo.aes.partialIn.length + s.arriving.length + (s.incoming id).length + left

/-- The reads that have not been answered are the last ones, and what no block has taken is a
number of whole blocks. -/
structure Behind (rmAddr : Word) (total k : ℕ) (s : System) : Prop where
  reads : ∃ l, l ++ s.inflight = addresses rmAddr k
  whole : s.untaken (total - k) % 4 = 0

theorem length_incoming (s : System) (M M' : Word → Word) :
    (s.incoming M).length = (s.incoming M').length := by
  simp [incoming]

/-- The core takes words in fours. -/
theorem Flowing.partialIn_mod
    (h : Flowing M f e ke kd rmAddr wmAddr (4 * n) target k d φ c w s)
    (hf : ∀ b, Cipher.Delivers e ke kd b (f b)) (i : In) :
    ((s.next M i).qsys.aesFifo.aes.partialIn.length) % 4 =
      (s.qsys.aesFifo.aes.partialIn.length + s.arriving.length) % 4 := by
  obtain ⟨c', -, hcore⟩ := h.holding.words_next (i := s.qsys.aesFifo.aesIn s.qsys.aesFifoIn)
    h.keyed hf h.programmed.enable h.programmed.enable
  have hlength : ∀ m : ℕ, (Core.toWrite φ c).length +
      (s.qsys.aesFifo.aes.partialIn.length + (s.arriving.length + m)) / 4 * 4 =
        s.qsys.aesFifo.aes.pushed.length +
          ((Core.toWrite (s.qsys.aesFifo.aes.nextPhase φ) c').length +
            ((s.next M i).qsys.aesFifo.aes.partialIn.length + m) / 4 * 4) := by
    intro m
    have hmove := congrArg List.length (hcore (List.replicate m 0))
    simp only [List.length_append, length_cipherWords, List.length_replicate] at hmove
    exact hmove
  have h0 := hlength 0
  have h1 := hlength 1
  have h2 := hlength 2
  have h3 := hlength 3
  omega

theorem Behind.next (hb : s.Behind rmAddr (4 * n) k)
    (h : Flowing M f e ke kd rmAddr wmAddr (4 * n) target k d φ c w s)
    (hf : ∀ b, Cipher.Delivers e ke kd b (f b)) (hlt : 16 * n < 2 ^ 32) (i : In) :
    (s.next M i).Behind rmAddr (4 * n) (k + (s.reads i).toNat) := by
  obtain ⟨⟨l, hreads⟩, hwhole⟩ := hb
  constructor
  case reads =>
    have hnew : addresses rmAddr (k + (s.reads i).toNat) =
        addresses rmAddr k ++ if s.reads i then [s.qsys.rm.oRMRdaddr] else [] := by
      cases hnow : s.reads i
      · rw [Bool.toNat_false, Nat.add_zero, if_neg (by decide), List.append_nil]
      · rw [Bool.toNat_true, addresses_succ_last, (h.lt_of_reads (by omega) hnow).2, if_pos rfl]
    have hinflight : (s.next M i).inflight = (if i.answer then s.inflight.tail else s.inflight) ++
        (if s.reads i then [s.qsys.rm.oRMRdaddr] else []) := rfl
    rw [hnew, hinflight, ← hreads]
    cases hin : s.inflight with
    | nil => exact ⟨l, by cases i.answer <;> simp⟩
    | cons a rest =>
      cases i.answer
      · exact ⟨l, by simp⟩
      · exact ⟨l ++ [a], by simp⟩
  case whole =>
    have hpartial := h.partialIn_mod hf i
    have hmove := congrArg List.length
      (incoming_next (M := M) (i := i) h.credited h.programmed.resetBit)
    have hsame := length_incoming s id M
    have hsame' := length_incoming (s.next M i) id M
    have hread : (if s.reads i then [s.qsys.rm.oRMRdaddr] else []).length = (s.reads i).toNat := by
      cases s.reads i <;> rfl
    have hfew : (s.reads i).toNat ≤ 4 * n - k := by
      cases hnow : s.reads i
      · exact Nat.zero_le _
      · have hmore := (h.lt_of_reads (by omega) hnow).1
        rw [Bool.toNat_true]
        omega
    rw [List.length_append, List.length_append, List.length_map, hread] at hmove
    rw [untaken] at hwhole ⊢
    omega

/-- The writes lie in blocks before the one that is being read. -/
theorem Behind.le (hb : s.Behind rmAddr (4 * n) k)
    (h : Flowing M f e ke kd rmAddr wmAddr (4 * n) target k d φ c w s)
    (hlength : target.length = 4 * n) (hlt : 16 * n < 2 ^ 32) {a : Word} {rest : List Word}
    (hin : s.inflight = a :: rest) :
    ∃ q < n, ∃ m, d ≤ 4 * q ∧ 4 * q ≤ m ∧ m < 4 * n ∧ a = rmAddr + BitVec.ofNat 32 (4 * m) := by
  obtain ⟨⟨l, hreads⟩, hwhole⟩ := hb
  have hcount := congrArg List.length hreads
  rw [hin, List.length_append, List.length_cons, Dma.length_addresses] at hcount
  have hk : k ≤ 4 * n := by
    have hle := h.reading.le
    rw [BitVec.toNat_ofNat, Nat.mod_eq_of_lt (by omega)] at hle
    omega
  have hat : a = rmAddr + BitVec.ofNat 32 (4 * l.length) := by
    have hget := congrArg (fun l' => l'[l.length]?) hreads
    have hlow : l.length < k := by omega
    simpa [hin, addresses, hlow] using hget
  have hplaces := congrArg List.length h.places
  have hline := congrArg List.length h.words
  have hsame := length_incoming s id M
  have hinflight : s.inflight.length ≤ (s.incoming M).length := by
    rw [incoming, List.length_append, List.length_append, List.length_map]
    omega
  rw [hin, List.length_cons] at hinflight
  rw [untaken] at hwhole
  simp only [List.length_append, List.length_map, Dma.length_addresses, length_cipherWords] at hplaces hline
  refine ⟨(4 * n - s.untaken (4 * n - k)) / 4, ?_, l.length, ?_, ?_, by omega, hat⟩ <;>
    rw [untaken] <;> omega

end

/-! ### Jobs -/

/-- A clean engine with the key `K` in mode `e`, at the start of a job. -/
structure Ready (e : Bool) (K : Block) (rmAddr wmAddr : Word) (n : ℕ) (s : System) : Prop where
  pos : 0 < n
  lt : 16 * n < 2 ^ 32
  starting : s.Starting rmAddr wmAddr n
  clean : s.Clean wmAddr n
  regular : s.qsys.Regular
  key : s.qsys.aesFifo.aes.HoldsKey e K

theorem Ready.behind {e : Bool} {K : Block} {rmAddr wmAddr : Word} {n : ℕ} {s : System}
    (h : s.Ready e K rmAddr wmAddr n) : s.Behind rmAddr (4 * n) 0 := by
  have hin := h.starting.inflight
  refine ⟨⟨[], by rw [hin]; rfl⟩, ?_⟩
  have hcore := h.clean.core
  rw [untaken, Core.partialIn, hcore.bufferINCounter, arriving, Core.taken, hcore.ffInDataValid,
    incoming, h.starting.cleared.fifoIn, h.clean.latched, hin]
  simp

end System

namespace Live

section
variable {e : Bool} {K : Block} {rmAddr wmAddr : Word} {n : ℕ} {s : Live} {i : ℕ → System.In}

/-- The bus and memory hold no request up for ever. -/
structure Serves (s : Live) (i : ℕ → System.In) : Prop where
  read : ∀ t, ∃ u ≥ t, (after s i u).system.qsys.rm.oRMRead = true → (i u).rmWait = false
  answer : ∀ t, ∃ u ≥ t, (after s i u).system.inflight ≠ [] → (i u).answer = true
  write : ∀ t, ∃ u ≥ t, (after s i u).system.qsys.wm.oWMWrite = true → (i u).wmWait = false

/-- No answer shows a word that the job has changed. -/
theorem follows (h : s.system.Ready e K rmAddr wmAddr n) (hapart : Apart rmAddr wmAddr n)
    (hi : ∀ t, (i t).Harmless) (t : ℕ) :
    (after s i t).system = run (System.next s.memory) s.system i t ∧
      (after s i t).memory = stored s.memory (System.writes s.memory s.system i t) ∧
        (run (System.next s.memory) s.system i t).Behind rmAddr (4 * n)
          (System.readCount s.memory s.system i t) := by
  obtain ⟨ke, kd, hkeyed, hholds⟩ := h.key
  have hf := delivers_aes hholds e
  have hpos := h.pos
  have hlt := h.lt
  have hflow := h.starting.flowing_source hpos hlt h.regular hkeyed h.clean.wm h.clean.core
    h.clean.latched s.memory (aes e K)
  have hlength := System.length_source (aes e K) s.memory rmAddr n
  induction t with
  | zero => exact ⟨rfl, rfl, h.behind⟩
  | succ t ih =>
    obtain ⟨hsystem, hmemory, hbehind⟩ := ih
    obtain ⟨c, hnow⟩ := hflow.run hf (by omega) hi t
    have hstep : (after s i t).system.next (after s i t).memory (i t) =
        (run (System.next s.memory) s.system i t).next s.memory (i t) := by
      rw [hsystem, hmemory]
      refine System.next_congr fun hvalid => ?_
      generalize run (System.next s.memory) s.system i t = x at hvalid hnow hbehind
      generalize System.writes s.memory s.system i t = l at hnow
      cases hin : x.inflight with
      | nil =>
        rw [System.rddatavalid, hin] at hvalid
        simp at hvalid
      | cons a rest =>
        obtain ⟨q, hq, m, hd, hm, hmn, rfl⟩ := hbehind.le hnow hlength hlt hin
        refine stored_of_notMem s.memory fun v hv => ?_
        have hplace : v.1 ∈ addresses wmAddr l.length := hnow.places ▸ List.mem_map_of_mem hv
        obtain ⟨j, hj, heq⟩ := List.mem_map.mp hplace
        rw [← heq]
        exact hapart q hq j (lt_of_lt_of_le (List.mem_range.mp hj) hd) m hm hmn
    refine ⟨hstep, ?_, hbehind.next hnow hf hlt (i t)⟩
    show stored (after s i t).memory ((after s i t).system.accepted (i t)) = _
    rw [hmemory, hsystem, System.writes, stored_append]

theorem Serves.frozen (hserves : s.Serves i) (h : s.system.Ready e K rmAddr wmAddr n)
    (hapart : Apart rmAddr wmAddr n) (hi : ∀ t, (i t).Harmless) :
    System.Serves s.memory s.system i := by
  have hsame := fun t => (follows h hapart hi t).1
  constructor
  · simp only [← hsame]
    exact hserves.read
  · simp only [← hsame]
    exact hserves.answer
  · simp only [← hsame]
    exact hserves.write

/-- Memory after the job. -/
def outcome (f : Block → Block) (M : Word → Word) (rmAddr wmAddr : Word) (n : ℕ) : Word → Word :=
  stored M (result f M rmAddr wmAddr n)

theorem outcome_target (f : Block → Block) (M : Word → Word) (rmAddr wmAddr : Word) {n j : ℕ}
    (hlt : 16 * n < 2 ^ 32) (hj : j < 4 * n) :
    outcome f M rmAddr wmAddr n (wmAddr + BitVec.ofNat 32 (4 * j)) =
      Soft.ecb f (fun k => M (rmAddr + BitVec.ofNat 32 (4 * k))) j :=
  Dma.stored_block M wmAddr (by omega) _ hj

theorem outcome_other (f : Block → Block) (M : Word → Word) (rmAddr wmAddr : Word) (n : ℕ)
    {x : Word} (hx : ∀ j < 4 * n, wmAddr + BitVec.ofNat 32 (4 * j) ≠ x) :
    outcome f M rmAddr wmAddr n x = M x :=
  Dma.stored_block_other M wmAddr _ _ hx

/-- What a job does to the memory that it reads and writes. -/
structure Enciphers (f : Block → Block) (rmAddr wmAddr : Word) (n : ℕ) (s : Live)
    (i : ℕ → System.In) : Prop where
  ends : ∃ T, ∀ t ≥ T, (after s i t).memory = outcome f s.memory rmAddr wmAddr n
  status : ∀ t, ((after s i t).system.qsys.ram 14).getLsbD 2 = true →
    (after s i t).memory = outcome f s.memory rmAddr wmAddr n
  others : ∀ t x, (∀ j < 4 * n, wmAddr + BitVec.ofNat 32 (4 * j) ≠ x) →
    (after s i t).memory x = s.memory x

theorem enciphers (h : s.system.Ready e K rmAddr wmAddr n) (hapart : Apart rmAddr wmAddr n)
    (hi : ∀ t, (i t).Harmless) (hserves : s.Serves i) :
    Enciphers (aes e K) rmAddr wmAddr n s i := by
  obtain ⟨ke, kd, hkeyed, hholds⟩ := h.key
  have hperforms := h.clean.performs h.starting h.pos h.lt h.regular hkeyed (delivers_aes hholds e)
    hi (hserves.frozen h hapart hi)
  have hsame := follows h hapart hi
  refine ⟨?_, fun t hdone => ?_, fun t x hx => ?_⟩
  · obtain ⟨T, hend⟩ := hperforms.writes
    refine ⟨T, fun t ht => ?_⟩
    rw [(hsame t).2.1, hend t ht]
    rfl
  · rw [(hsame t).1] at hdone
    rw [(hsame t).2.1, hperforms.done t hdone]
    rfl
  · rw [(hsame t).2.1]
    refine stored_of_notMem s.memory fun v hv => ?_
    obtain ⟨j, hj, heq⟩ := hperforms.inside t v hv
    rw [heq]
    exact hx j hj

/-- The memory that the engine reads is the memory that it writes, and yet a job whose target does
not reach source blocks before they are read leaves the enciphered source of the start. The
status says so, and no other word changes at any time. -/
theorem job_on_memory (h : s.system.Ready e K rmAddr wmAddr n) (hapart : Apart rmAddr wmAddr n)
    (hi : ∀ t, (i t).Harmless) (hserves : s.Serves i) :
    (∃ T, ∀ t ≥ T, ∀ j < 4 * n, (after s i t).memory (wmAddr + BitVec.ofNat 32 (4 * j)) =
        Soft.ecb (aes e K) (fun k => s.memory (rmAddr + BitVec.ofNat 32 (4 * k))) j) ∧
      (∀ t, ((after s i t).system.qsys.ram 14).getLsbD 2 = true →
        ∀ j < 4 * n, (after s i t).memory (wmAddr + BitVec.ofNat 32 (4 * j)) =
          Soft.ecb (aes e K) (fun k => s.memory (rmAddr + BitVec.ofNat 32 (4 * k))) j) ∧
        ∀ t x, (∀ j < 4 * n, wmAddr + BitVec.ofNat 32 (4 * j) ≠ x) →
          (after s i t).memory x = s.memory x := by
  obtain ⟨⟨T, hend⟩, hstatus, hothers⟩ := enciphers h hapart hi hserves
  refine ⟨⟨T, fun t ht j hj => ?_⟩, fun t hdone j hj => ?_, hothers⟩
  · rw [hend t ht, outcome_target _ _ _ _ h.lt hj]
  · rw [hstatus t hdone, outcome_target _ _ _ _ h.lt hj]

end

/-! ### Prepared engines -/

/-- From power-up: the mode, a load of key 0, and after `RESET` a job of one block. -/
def prepare (p : Word × Word × Word) (t : ℕ) : System.In :=
  if t = 0 then .write 1 p.1
  else if t = 1 then .write 0 3
  else if t = 100 then .write 13 2
  else if t = 101 then .write 10 p.2.1
  else if t = 102 then .write 11 p.2.2
  else if t = 103 then .write 12 16
  else if t = 104 then .write 13 1
  else .idle

/-- Mode, read address and write address. -/
def jobs : List (Word × Word × Word) := [(0, 0, 0), (0, 0, 64), (1, 64, 0)]

def prepared (p : Word × Word × Word) (t : ℕ) : System :=
  run (System.next id) System.powerUp (prepare p) t

theorem prepared_registers : ∀ p ∈ jobs,
    (∀ t < 105, (prepared p t).qsys.enable = true →
      3 ≤ t ∧ t < 3 + 4 ∧ (prepared p t).qsys.keyData = ⟨0, 0, 0, 0⟩ ∧
        (prepared p t).qsys.mode = p.1.getLsbD 0) ∧
    (∀ t < 105, (prepared p t).qsys.startBit = true → (prepared p t).qsys.resetBit = true) ∧
    (prepared p 3).qsys.enable = true ∧ (prepared p 104).qsys.resetBit = true ∧
    (prepared p 105).qsys.resetBit = false ∧ (prepared p 105).qsys.startBit = true ∧
    (prepared p 105).qsys.rmStartAddr = p.2.1 ∧ (prepared p 105).qsys.wmStartAddr = p.2.2 ∧
    (prepared p 105).qsys.length = 16 ∧ (prepared p 105).qsys.enable = false ∧
    ((prepared p 105).qsys.ram 0).getLsbD 0 = false ∧
    (prepared p 105).inflight = [] ∧ (prepared p 105).qsys.wm.rWMDone = false ∧
    ((prepared p 105).qsys.ram 14).getLsbD 2 = false := by
  -- job by job: the search must not run over all triples of words
  rw [jobs]
  simp only [List.forall_mem_cons]
  refine ⟨?_, ?_, ?_, fun p hp => absurd hp List.not_mem_nil⟩
  all_goals decide +kernel

theorem prepared_ready {p : Word × Word × Word} (hp : p ∈ jobs) :
    (prepared p 105).Ready (p.1.getLsbD 0) ⟨0, 0, 0, 0⟩ p.2.1 p.2.2 1 := by
  obtain ⟨hheld, hstarts, hload, hreset, hdown, hstart, hrm, hwm, hlength, henable, hram, hanswered,
    hdone, hstatus⟩ := prepared_registers p hp
  have h : System.Prepared (p.1.getLsbD 0) ⟨0, 0, 0, 0⟩ p.2.1 p.2.2 1 104 (prepared p) :=
    ⟨System.powerUp_hardwareReset, ⟨3, ⟨hload, fun t ht => hheld t (by omega)⟩, by decide⟩, hreset,
      ⟨hdown, hstart, hrm, hwm, hlength, henable, by rw [hram]; rfl⟩, hanswered⟩
  have hquiet : System.powerUp.Quiet :=
    ⟨.of_reset System.powerUp_afterReset rfl, (h.regular 0).wm, rfl⟩
  have hnow := (hquiet.run (M := id) (i := prepare p) (t := 105) hstarts).1
  exact ⟨by decide, by decide, h.starting,
    ⟨Or.inl hnow.wm, hnow.resting.core, hnow.resting.rWriteFifoIn, hdone, hstatus⟩,
    h.regular 105, h.holdsKey⟩

/-- A bus that never waits. -/
def serving : ℕ → System.In := fun _ => .serve

theorem harmless_serving (t : ℕ) : (serving t).Harmless := System.harmless_serve

theorem serves_serving (s : Live) : s.Serves serving :=
  ⟨fun t => ⟨t, le_rfl, fun _ => rfl⟩, fun t => ⟨t, le_rfl, fun _ => rfl⟩,
    fun t => ⟨t, le_rfl, fun _ => rfl⟩⟩

theorem job_on_memory_inPlace :
    ∃ T, ∀ t ≥ T, ∀ j < 4, (after ⟨prepared (0, 0, 0) 105, id⟩ serving t).memory
      (0 + BitVec.ofNat 32 (4 * j)) =
        Soft.ecb (aes false ⟨0, 0, 0, 0⟩) (fun k => 0 + BitVec.ofNat 32 (4 * k)) j :=
  (job_on_memory (s := ⟨prepared (0, 0, 0) 105, id⟩) (prepared_ready (by decide))
    (apart_self 0 (by decide)) harmless_serving (serves_serving _)).1

/-! ### There and back -/

/-- A job and, when the status has reported its end, a job with the same key in the other mode on
what it has left: the source is restored where the second job writes, and outside of the two
targets nothing has changed. -/
theorem job_undoes_job {e : Bool} {K : Block} {source target back : Word} {n t : ℕ} {s s' : Live}
    {i i' : ℕ → System.In} (h : s.system.Ready e K source target n)
    (hapart : Apart source target n) (hi : ∀ t, (i t).Harmless) (hserves : s.Serves i)
    (hdone : ((after s i t).system.qsys.ram 14).getLsbD 2 = true)
    (hmemory : s'.memory = (after s i t).memory) (h' : s'.system.Ready (!e) K target back n)
    (hapart' : Apart target back n) (hi' : ∀ t, (i' t).Harmless) (hserves' : s'.Serves i') :
    ∃ T, ∀ u ≥ T, (∀ j < 4 * n, (after s' i' u).memory (back + BitVec.ofNat 32 (4 * j)) =
        s.memory (source + BitVec.ofNat 32 (4 * j))) ∧
      ∀ x, (∀ j < 4 * n, target + BitVec.ofNat 32 (4 * j) ≠ x) →
        (∀ j < 4 * n, back + BitVec.ofNat 32 (4 * j) ≠ x) →
          (after s' i' u).memory x = s.memory x := by
  have hfirst := enciphers h hapart hi hserves
  obtain ⟨⟨T, hend⟩, -, hothers⟩ := enciphers h' hapart' hi' hserves'
  have hgiven : s'.memory = outcome (aes e K) s.memory source target n :=
    hmemory.trans (hfirst.status t hdone)
  refine ⟨T, fun u hu => ⟨fun j hj => ?_, fun x htarget hback => ?_⟩⟩
  · have hinverse : ∀ b, aes (!e) K (aes e K b) = b := by
      intro b
      have hself := aes_aes (!e) K b
      rwa [Bool.not_not] at hself
    have hsource : ∀ k, k / 4 = j / 4 → s'.memory (target + BitVec.ofNat 32 (4 * k)) =
        Soft.ecb (aes e K) (fun k => s.memory (source + BitVec.ofNat 32 (4 * k))) k := by
      intro k hk
      rw [hgiven]
      exact outcome_target _ _ _ _ h.lt (by omega)
    rw [hend u hu, outcome_target _ _ _ _ h.lt hj, Soft.ecb_congr hsource,
      Soft.ecb_ecb hinverse]
  · rw [hothers u x hback, hgiven]
    exact outcome_other _ _ _ _ n htarget

def there : Live := ⟨prepared (0, 0, 64) 105, id⟩

def andBack (t : ℕ) : Live := ⟨prepared (1, 64, 0) 105, (after there serving t).memory⟩

/-- A block enciphered to address 64 and deciphered to address 0 again. -/
theorem job_undoes_job_block :
    ∃ t T, ∀ u ≥ T, ∀ j < 4, (after (andBack t) serving u).memory (0 + BitVec.ofNat 32 (4 * j)) =
      0 + BitVec.ofNat 32 (4 * j) := by
  obtain ⟨t, hdone⟩ : ∃ t, ((after there serving t).system.qsys.ram 14).getLsbD 2 = true :=
    ⟨75, by decide +kernel⟩
  have happart : ∀ a b : Word, Apart a b 1 := by
    intro a b q hq j hj
    omega
  have hthere : there.system.Ready false ⟨0, 0, 0, 0⟩ 0 64 1 :=
    prepared_ready (p := (0, 0, 64)) (by decide)
  have hback : (andBack t).system.Ready (!false) ⟨0, 0, 0, 0⟩ 64 0 1 :=
    prepared_ready (p := (1, 64, 0)) (by decide)
  obtain ⟨T, hend⟩ := job_undoes_job hthere (happart 0 64) harmless_serving
    (serves_serving there) hdone (rfl : (andBack t).memory = _) hback (happart 64 0)
    harmless_serving (serves_serving (andBack t))
  exact ⟨t, T, fun u hu j hj => (hend u hu).1 j hj⟩

end Live

end SocCrypto.Aes
