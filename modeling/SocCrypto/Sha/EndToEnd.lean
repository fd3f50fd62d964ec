import SocCrypto.Dma.Memory
import SocCrypto.Sha.Pace
import SocCrypto.Sha.Printed
import SocCrypto.Soft.Padding

/-!
# From a message to its printed digest

`Padding` lays the message out in memory, the controller hashes the blocks from there and writes
the digest into the same memory, and `SHA_256_Show_Result` prints it.
-/

namespace SocCrypto.Sha
open Clocked Sha256Function Soft
open Dma (stored stored_append addresses)

/-! ### The standard -/

/-- Four bytes, the first one on top. -/
def beWord (f : ℕ → Byte) (j : ℕ) : Word :=
  f (4 * j) ++ f (4 * j + 1) ++ f (4 * j + 2) ++ f (4 * j + 3)

/-- SHA-256 of the first `l` characters. -/
def sha256 (message : Buffer) (l : ℕ) : Hash :=
  digest ((List.range (fipsBlocks l)).map fun j =>
    (List.range 16).map fun k => beWord (paddedByte message l) (16 * j + k))

/-- The test value of the standard for `abc`. -/
example : hashHex (sha256 (fun i => [0x61, 0x62, 0x63].getD i 0) 3) =
    "ba7816bf8f01cfea414140de5dae2223b00361a396177a9cb410ff61f20015ad".toList := by
  decide +kernel

theorem append_beByte (w : Word) : beByte w 0 ++ beByte w 1 ++ beByte w 2 ++ beByte w 3 = w := by
  apply BitVec.eq_of_getLsbD_eq
  intro b hb
  simp only [beByte, BitVec.getLsbD_append, BitVec.getLsbD_setWidth, BitVec.getLsbD_ushiftRight]
  split
  · simp [*]
  · split
    · rw [decide_eq_true (by omega), Bool.true_and]
      congr 1
      omega
    · split
      · rw [decide_eq_true (by omega), Bool.true_and]
        congr 1
        omega
      · rw [decide_eq_true (by omega), Bool.true_and]
        congr 1
        omega

theorem beWord_eq {m : Sdram} {f : ℕ → Byte} {j : ℕ}
    (h : ∀ i, 4 * j ≤ i → i < 4 * j + 4 → beByte (m (i / 4)) (i % 4) = f i) : beWord f j = m j := by
  have hbyte : ∀ p < 4, f (4 * j + p) = beByte (m j) p := by
    intro p hp
    rw [← h (4 * j + p) (by omega) (by omega)]
    congr 1
    · congr 1
      omega
    · omega
  rw [beWord, ← append_beByte (m j), hbyte 1 (by omega), hbyte 2 (by omega), hbyte 3 (by omega)]
  rw [show f (4 * j) = beByte (m j) 0 from hbyte 0 (by omega)]

/-! ### Blocks in memory -/

theorem sourceBlock_sourceWords (M : Word → Word) (a : Word) {n j : ℕ} (hj : j < n) :
    Controller.sourceBlock (Controller.sourceWords M a n) j =
      (List.range 16).map fun k => window a M (16 * j + k) := by
  unfold Controller.sourceBlock Controller.sourceWords addresses
  apply List.ext_getElem
  · simp
    omega
  · intro k hk hk'
    simp [window]

theorem digest_eq_sha256 {M : Word → Word} {a : Word} {message : Buffer} {l : ℕ}
    (h : ∀ i < 64 * fipsBlocks l, beByte (window a M (i / 4)) (i % 4) = paddedByte message l i) :
    digest ((List.range (fipsBlocks l)).map
        (Controller.sourceBlock (Controller.sourceWords M a (fipsBlocks l)))) =
      sha256 message l := by
  unfold sha256
  congr 1
  refine List.map_congr_left fun j hj => ?_
  have hj' := List.mem_range.mp hj
  rw [sourceBlock_sourceWords M a hj']
  refine List.map_congr_left fun k hk => ?_
  have hk' := List.mem_range.mp hk
  exact (beWord_eq fun i _ hi => h i (by omega)).symm

/-- What `Padding` has returned a number of blocks for. -/
theorem pads_of_assigned {mem : Sdram} {message : Buffer} {l n : ℕ}
    (h : (padding mem message l).2 = some n) : n = fipsBlocks l ∧ Pads mem message l := by
  have hl : l ≤ 887 ∨ 898 ≤ l ∧ l ≤ 951 := by
    by_contra hbad
    rw [padding_unassigned (by omega)] at h
    cases h
  have hpads := pads_of_blockRange (by omega) (blockRange_fips hl) mem message
  have hn := hpads.1
  rw [h] at hn
  exact ⟨Option.some.inj hn, hpads⟩

/-! ### Controller and memory in step -/

/-- The controller over the memory that it writes to. -/
structure Live where
  controller : Controller
  memory : Word → Word

namespace Live
open Controller

/-- The write that the bus takes in a cycle. -/
def accepted (s : Live) (i : In) : List (Word × Word) :=
  if i.clk && s.controller.write.oWrite && !i.waitWrite then
    [(s.controller.write.oAddress, s.controller.write.oData)]
  else []

def next (s : Live) (i : In) : Live where
  controller := s.controller.step s.memory i
  memory := stored s.memory (s.accepted i)

def after (s : Live) (i : ℕ → In) : ℕ → Live := run next s i

end Live

namespace Controller

/-- Memory matters while a request is under way. -/
theorem step_congr {s : Controller} (h : s.read.inflight = []) (M M' : Word → Word) (i : In) :
    s.step M i = s.step M' i := by
  have hread : s.read.next M (s.readIn i) = s.read.next M' (s.readIn i) := by
    simp [Dma.ReadPath.next, Dma.Fifo.next, h]
  simp only [step, clkEdge, hread]

end Controller

namespace Live
open Controller

variable {s : Live} {i : ℕ → In} {T n : ℕ} {readStart writeStart : Word}

theorem memory_eq (hnone : s.controller.writes = []) (t : ℕ) :
    (after s i t).memory = stored s.memory (after s i t).controller.writes := by
  induction t with
  | zero =>
    show s.memory = stored s.memory s.controller.writes
    rw [hnone]
    rfl
  | succ t ih =>
    show stored (after s i t).memory ((after s i t).accepted (i t)) =
      stored s.memory ((after s i t).controller.step (after s i t).memory (i t)).writes
    rw [step_writes, ih, accepted]
    split
    · rw [stored_append]
    · rfl

/-- A job on the memory that it writes, with the register writes of `SHA_256_Intit` done before
cycle `T`, on a fair bus that uses up the spare cycles of no block. -/
structure Job (s : Live) (i : ℕ → In) (T n : ℕ) (readStart writeStart : Word) : Prop where
  reset : HardwareReset s.controller
  clocks : OneClock i
  before : 0 < T
  low : ∀ t < T, (after s i t).controller.config.resetn = false
  started : (after s i T).controller.Started readStart writeStart n
  cpu : ∀ t ≥ T, (i t).cpu = none
  fair : BusFair (fun t => (after s i t).controller) i
  dry : ∀ t, dry (fun t => (after s i t).controller) t ≤ 15

theorem step_settled (hnone : s.controller.writes = []) (t : ℕ)
    (h : (after s i t).controller.Settled) :
    (after s i (t + 1)).controller = (after s i t).controller.step s.memory (i t) := by
  show (after s i t).controller.step (after s i t).memory (i t) = _
  rcases h with hwrites | hread
  · rw [memory_eq hnone, hwrites]
    rfl
  · exact step_congr hread _ _ _

theorem Job.jobRun (h : Job s i T n readStart writeStart) (hn : 1 ≤ n) (hn' : n ≤ 16) :
    JobRun s.memory (fun t => (after s i t).controller) i T n readStart writeStart :=
  ⟨hn, hn', step_settled h.reset.writes, h.reset, h.clocks, h.before, h.low, h.started, h.cpu⟩

/-- What a job leaves: the digest, and everything else as it was. -/
theorem Job.memory (h : Job s i T n readStart writeStart) (hn : 1 ≤ n) (hn' : n ≤ 16) :
    ∃ t₀, ∀ t ≥ t₀, (after s i t).memory =
      stored s.memory (digestWrites writeStart (jobDigest s.memory readStart n)) := by
  obtain ⟨t₀, hend⟩ := ((h.jobRun hn hn').writes h.dry h.fair).1
  refine ⟨t₀, fun t ht => ?_⟩
  rw [memory_eq h.reset.writes, hend t ht]

/-- A message for which `Padding` has returned a number of blocks, a job of so many blocks on the
memory with them and the digest behind them: what is printed in the end is the SHA-256 digest of
the message, with the leading zeros of the words left out. -/
theorem message_prints_digest (message : Buffer) (l n : ℕ) (mem : Sdram) (base : Word)
    (hpadded : (padding mem message l).2 = some n)
    (hmemory : ∀ j < 16 * n, window base s.memory j = (padding mem message l).1 j)
    (hjob : Job s i T n base (base + BitVec.ofNat 32 12000)) :
    ∃ t₀, ∀ t ≥ t₀, sha256ShowResult (window base (after s i t).memory) 12000 =
        "\nHASH SHA_256: ".toList ++ hashText (sha256 message l) ∧
      (FullWords (sha256 message l) →
        sha256ShowResult (window base (after s i t).memory) 12000 =
          "\nHASH SHA_256: ".toList ++ hashHex (sha256 message l)) := by
  obtain ⟨rfl, hnumber, hbytes⟩ := pads_of_assigned hpadded
  have hfew : 1 ≤ fipsBlocks l ∧ fipsBlocks l ≤ 16 := by
    unfold fipsBlocks
    have hl : l ≤ 951 := by
      by_contra hlong
      rw [padding_unassigned (by omega)] at hpadded
      cases hpadded
    omega
  have hdigest : jobDigest s.memory base (fipsBlocks l) = sha256 message l :=
    digest_eq_sha256 fun i hi => by rw [hmemory _ (by omega), hbytes i hi]
  obtain ⟨t₀, hend⟩ := hjob.memory hfew.1 hfew.2
  have hprinted : ∀ t ≥ t₀, sha256ShowResult (window base (after s i t).memory) 12000 =
      "\nHASH SHA_256: ".toList ++ hashText (sha256 message l) := by
    intro t ht
    rw [hend t ht, hdigest]
    exact sha256ShowResult_window s.memory base 3000 (sha256 message l)
  refine ⟨t₀, fun t ht => ⟨hprinted t ht, fun hfull => ?_⟩⟩
  rw [hprinted t ht, (hashText_eq_hashHex_iff _).mpr hfull]

/-! ### A message -/

def abc : Buffer := fun i => [0x61, 0x62, 0x63].getD i 0

/-- `Padding` has laid the message out at address 0. -/
def abcMemory : Word → Word := fun a => (padding (fun _ => 0) abc 3).1 (a.toNat / 4)

/-- A job of one block with the digest at address 12000. -/
def abcDriver (t : ℕ) : In :=
  { driver 64 (fun _ => true) t with
    cpu := if t = 1 then some (2, 12000) else (driver 64 (fun _ => true) t).cpu }

theorem abcDriver_cpu {t : ℕ} (ht : t ≥ 5) : (abcDriver t).cpu = none := by
  show (if t = 1 then some (2, 12000) else (driver 64 (fun _ => true) t).cpu) = none
  rw [if_neg (by omega)]
  exact driver_cpu 64 (fun _ => true) ht

theorem abcDriver_registers :
    (∀ t < 5, (after ⟨powerUp, abcMemory⟩ abcDriver t).controller.config.resetn = false) ∧
      (after ⟨powerUp, abcMemory⟩ abcDriver 5).controller.config = ⟨3, 0, 12000, 64⟩ := by
  decide +kernel

theorem abc_job : Job ⟨powerUp, abcMemory⟩ abcDriver 5 1 0 (0 + BitVec.ofNat 32 12000) := by
  obtain ⟨hlow, hconfig⟩ := abcDriver_registers
  have hclocks : OneClock abcDriver := fun _ => ⟨rfl, rfl⟩
  have hstarted : (after ⟨powerUp, abcMemory⟩ abcDriver 5).controller.Started 0
      (0 + BitVec.ofNat 32 12000) 1 := by
    constructor <;> rw [hconfig] <;> rfl
  have hrun : JobRun abcMemory (fun t => (after ⟨powerUp, abcMemory⟩ abcDriver t).controller)
      abcDriver 5 1 0 (0 + BitVec.ofNat 32 12000) :=
    ⟨le_rfl, by decide, step_settled rfl, powerUp_reset, hclocks, by decide, hlow, hstarted,
      fun _ ht => abcDriver_cpu ht⟩
  refine ⟨powerUp_reset, hclocks, by decide, hlow, hstarted, fun _ ht => abcDriver_cpu ht, ?_, ?_⟩
  · constructor <;> exact fun t => ⟨t, le_rfl, fun _ => rfl⟩
  · exact fun t => (hrun.dry_eq_zero (fun _ _ => ⟨rfl, rfl⟩) t).le.trans (Nat.zero_le 15)

theorem message_prints_digest_abc :
    ∃ t₀, ∀ t ≥ t₀,
      sha256ShowResult (window 0 (after ⟨powerUp, abcMemory⟩ abcDriver t).memory) 12000 =
        "\nHASH SHA_256: ".toList ++ hashHex (sha256 abc 3) := by
  have hmemory : ∀ j < 16 * 1, window 0 abcMemory j = (padding (fun _ => 0) abc 3).1 j := by
    intro j hj
    rw [window, abcMemory, zero_add, BitVec.toNat_ofNat, Nat.mod_eq_of_lt (by omega),
      Nat.mul_div_cancel_left j (by decide)]
  obtain ⟨t₀, hend⟩ := message_prints_digest (s := ⟨powerUp, abcMemory⟩) abc 3 1 (fun _ => 0) 0
    (by decide +kernel) hmemory abc_job
  exact ⟨t₀, fun t ht => (hend t ht).2 (by decide +kernel)⟩

end Live

end SocCrypto.Sha
