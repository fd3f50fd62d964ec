import SocCrypto.Dma.ReadPath

/-!
# Write masters and configuration registers

The write master of `RSA_Controller.v` and `SHA_256_Controller.v`, which differ
in the number of result words, and the four registers the processor writes.
-/

namespace SocCrypto.Dma

/-! ### Configuration registers -/

structure Config where
  control : Word
  readStart : Word
  writeStart : Word
  length : Word
  deriving DecidableEq

namespace Config

/-- The register write of one cycle: `iAddress_Control` and `iData_Control`. -/
abbrev Write := BitVec 3 × Word

def next (c : Config) : Option Write → Config
  | some (0, d) => { c with control := d }
  | some (1, d) => { c with readStart := d }
  | some (2, d) => { c with writeStart := d }
  | some (3, d) => { c with length := d }
  | _ => c

/-- `resetn = control[0]`. -/
def resetn (c : Config) : Bool := c.control.getLsbD 0

/-- `start_read = control[1]`. -/
def startRead (c : Config) : Bool := c.control.getLsbD 1

/-- `fifo_clear = control[2]`. -/
def fifoClear (c : Config) : Bool := c.control.getLsbD 2

def endAddressRead (c : Config) : Word := c.readStart + c.length

end Config

/-! ### The write master -/

/-- Result word `k`: bits `32 k + 31` to `32 k`. -/
def resultWord {N : ℕ} (v : BitVec N) (k : ℕ) : Word := (v >>> (32 * k)).setWidth 32

/-- The bus writes of the first `k` result words. -/
def resultWrites {N : ℕ} (writeStart : Word) (v : BitVec N) (k : ℕ) : List (Word × Word) :=
  (List.range k).map fun j => (writeStart + BitVec.ofNat 32 (4 * j), resultWord v j)

theorem resultWrites_succ {N : ℕ} (writeStart : Word) (v : BitVec N) (k : ℕ) :
    resultWrites writeStart v (k + 1) = resultWrites writeStart v k ++
      [(writeStart + BitVec.ofNat 32 (4 * k), resultWord v k)] := by
  simp [resultWrites, List.range_succ]

theorem resultWrites_prefix {N : ℕ} (writeStart : Word) (v : BitVec N) {k n : ℕ} (hk : k ≤ n) :
    resultWrites writeStart v k <+: resultWrites writeStart v n := by
  obtain ⟨m, rfl⟩ := Nat.exists_eq_add_of_le hk
  rw [resultWrites, resultWrites, List.range_add, List.map_append]
  exact List.prefix_append _ _

/-- Registers of a write master for `2 ^ w` words. -/
structure MasterWrite (w : ℕ) where
  state : MasterState
  oAddress : Word
  oData : Word
  oWrite : Bool
  addressWrite : BitVec w
  deriving DecidableEq

namespace MasterWrite

variable {w N : ℕ}

/-- The soft reset keeps the data register. -/
def reset (m : MasterWrite w) : MasterWrite w := ⟨.start, 0, m.oData, false, 0⟩

def next (m : MasterWrite w) (resetn startWrite : Bool) (writeStart endAddress : Word)
    (value : BitVec N) (wait : Bool) : MasterWrite w :=
  if !resetn then m.reset
  else
    match m.state with
    | .start =>
      if startWrite then
        { m with
          oAddress := writeStart, oData := resultWord value 0, state := .raise, addressWrite := 1 }
      else m
    | .raise => { m with oWrite := true, state := .accept }
    | .accept =>
      if !wait then
        { oWrite := false, oAddress := m.oAddress + 4, addressWrite := m.addressWrite + 1,
          oData := resultWord value m.addressWrite.toNat, state := .check }
      else m
    | .check => if m.oAddress = endAddress then m else { m with state := .raise }

section
variable {m : MasterWrite w} {writeStart endAddress : Word} {startWrite wait : Bool}
  {value : BitVec N}

theorem next_start (hs : m.state = .start) :
    m.next true startWrite writeStart endAddress value wait =
      if startWrite then ⟨.raise, writeStart, resultWord value 0, m.oWrite, 1⟩ else m := by
  simp only [next, hs, Bool.not_true, Bool.false_eq_true, if_false]

theorem next_raise (hs : m.state = .raise) :
    m.next true startWrite writeStart endAddress value wait =
      ⟨.accept, m.oAddress, m.oData, true, m.addressWrite⟩ := by
  simp only [next, hs, Bool.not_true, Bool.false_eq_true, if_false]

theorem next_accept (hs : m.state = .accept) :
    m.next true startWrite writeStart endAddress value wait =
      if wait then m
      else ⟨.check, m.oAddress + 4, resultWord value m.addressWrite.toNat, false,
        m.addressWrite + 1⟩ := by
  simp only [next, hs, Bool.not_true, Bool.false_eq_true, if_false]
  cases wait <;> rfl

theorem next_check (hs : m.state = .check) :
    m.next true startWrite writeStart endAddress value wait =
      if m.oAddress = endAddress then m
      else ⟨.raise, m.oAddress, m.oData, m.oWrite, m.addressWrite⟩ := by
  simp only [next, hs, Bool.not_true, Bool.false_eq_true, if_false]

end

/-- `k` of the `2 ^ w` words have been accepted. -/
structure Sent (writeStart : Word) (value : BitVec N) (k : ℕ) (m : MasterWrite w) : Prop where
  le : k ≤ 2 ^ w
  write : m.oWrite = decide (m.state = .accept)
  idle : m.state = .start → k = 0
  pending : k = 2 ^ w → m.state = .check
  address : m.state ≠ .start → m.oAddress = writeStart + BitVec.ofNat 32 (4 * k)
  data : m.state ≠ .start → k < 2 ^ w → m.oData = resultWord value k
  index : m.state ≠ .start → m.addressWrite.toNat = (k + 1) % 2 ^ w

/-- The bus takes the word of this cycle. -/
def moves (m : MasterWrite w) (wait : Bool) : Bool := decide (m.state = .accept) && !wait

theorem sent_reset (m : MasterWrite w) (writeStart : Word) (value : BitVec N) :
    m.reset.Sent writeStart value 0 := by
  have hpos : 0 < 2 ^ w := Nat.pow_pos (by decide)
  constructor
  case pending =>
    intro h
    omega
  all_goals simp [reset]

theorem moves_of_ne {m : MasterWrite w} (hs : m.state ≠ .accept) (wait : Bool) :
    m.moves wait = false := by
  simp [moves, hs]

theorem moves_of_accept {m : MasterWrite w} (hs : m.state = .accept) (wait : Bool) :
    m.moves wait = !wait := by
  simp [moves, hs]

theorem Sent.next {writeStart : Word} {value : BitVec N} {k : ℕ} {m : MasterWrite w}
    (hw : 1 ≤ w) (h : m.Sent writeStart value k) (startWrite wait : Bool) :
    (m.next true startWrite writeStart (writeStart + BitVec.ofNat 32 (4 * 2 ^ w)) value wait).Sent
      writeStart value (if m.moves wait then k + 1 else k) := by
  have hlt : m.state ≠ .check → k < 2 ^ w := fun hs =>
    lt_of_le_of_ne h.le fun hk => hs (h.pending hk)
  have hone : 1 < 2 ^ w := Nat.one_lt_two_pow (by omega)
  cases hs : m.state with
  | start =>
    rw [next_start hs, moves_of_ne (by simp [hs])]
    obtain rfl := h.idle hs
    cases startWrite
    · exact h
    · constructor
      case pending =>
        intro h0
        have hzero : 0 = 2 ^ w := h0
        omega
      all_goals simp [h.write, hs]
  | raise =>
    have hk := hlt (by simp [hs])
    rw [next_raise hs, moves_of_ne (by simp [hs])]
    constructor
    case le => exact h.le
    case pending => exact fun h0 => absurd h0 (by simp; omega)
    case address => exact fun _ => h.address (by simp [hs])
    case data => exact fun _ => h.data (by simp [hs])
    case index => exact fun _ => h.index (by simp [hs])
    all_goals simp
  | accept =>
    have hk := hlt (by simp [hs])
    have haddr := h.address (by simp [hs])
    have hindex := h.index (by simp [hs])
    rw [next_accept hs, moves_of_accept hs]
    cases wait
    · constructor
      case le =>
        simp
        omega
      case address =>
        intro _
        simp only [Bool.false_eq_true, if_false, Bool.not_false, if_true, haddr, Nat.mul_succ,
          BitVec.ofNat_add, BitVec.add_assoc]
        rfl
      case data =>
        intro _ hk'
        simp only [Bool.not_false, if_true] at hk'
        simp only [Bool.false_eq_true, if_false, Bool.not_false, if_true, hindex]
        rw [Nat.mod_eq_of_lt hk']
      case index =>
        intro _
        have hbit : (1 : BitVec w).toNat = 1 := Nat.mod_eq_of_lt hone
        simp only [Bool.false_eq_true, if_false, Bool.not_false, if_true, BitVec.toNat_add, hindex,
          hbit, Nat.mod_add_mod]
      all_goals simp
    · exact h
  | check =>
    have haddr := h.address (by simp [hs])
    rw [next_check hs, moves_of_ne (by simp [hs])]
    by_cases hdone : m.oAddress = writeStart + BitVec.ofNat 32 (4 * 2 ^ w)
    · simp only [hdone, if_true, Bool.false_eq_true, if_false]
      exact h
    · have hne : k ≠ 2 ^ w := by
        rintro rfl
        exact hdone haddr
      simp only [hdone, if_false, Bool.false_eq_true]
      constructor
      case le => exact h.le
      case pending => exact fun h0 => absurd h0 hne
      case address => exact fun _ => haddr
      case data => exact fun _ => h.data (by simp [hs])
      case index => exact fun _ => h.index (by simp [hs])
      all_goals simp [h.write, hs]

theorem Sent.resultWrites_next {writeStart : Word} {value : BitVec N} {k : ℕ} {m : MasterWrite w}
    (h : m.Sent writeStart value k) (wait : Bool) :
    (if m.oWrite && !wait then resultWrites writeStart value k ++ [(m.oAddress, m.oData)]
      else resultWrites writeStart value k) =
      resultWrites writeStart value (if m.moves wait then k + 1 else k) := by
  rw [h.write, moves]
  by_cases hst : m.state = .accept
  · have hlt : k < 2 ^ w := by
      refine lt_of_le_of_ne h.le fun hk => ?_
      have hcheck := h.pending hk
      rw [hst] at hcheck
      cases hcheck
    have haddr := h.address (by simp [hst])
    have hdata := h.data (by simp [hst]) hlt
    cases wait
    · simp [hst, resultWrites_succ, haddr, hdata]
    · simp [hst]
  · simp [hst]

theorem Sent.rank_next_le {writeStart : Word} {value : BitVec N} {k : ℕ} {m : MasterWrite w}
    (h : m.Sent writeStart value k) (startWrite wait : Bool) (endAddress : Word) :
    (m.next true startWrite writeStart endAddress value wait).state.rank
      (2 ^ w - if m.moves wait then k + 1 else k) ≤ m.state.rank (2 ^ w - k) := by
  have hlt : m.state ≠ .check → k < 2 ^ w := fun hs =>
    lt_of_le_of_ne h.le fun hk => hs (h.pending hk)
  cases hs : m.state with
  | start =>
    rw [next_start hs, moves_of_ne (by simp [hs])]
    cases startWrite <;> simp [hs, MasterState.rank]
  | raise =>
    rw [next_raise hs, moves_of_ne (by simp [hs])]
    simp [MasterState.rank]
  | accept =>
    have hk := hlt (by simp [hs])
    rw [next_accept hs, moves_of_accept hs]
    cases wait
    · simp [MasterState.rank]
      omega
    · simp [hs, MasterState.rank]
  | check =>
    rw [next_check hs, moves_of_ne (by simp [hs])]
    by_cases hdone : m.oAddress = endAddress <;> simp [hs, hdone, MasterState.rank]

theorem Sent.waits {writeStart : Word} {value : BitVec N} {k : ℕ} {m : MasterWrite w}
    (ht : 4 * 2 ^ w < 2 ^ 32) (h : m.Sent writeStart value k) {startWrite wait : Bool}
    (hrank : (m.next true startWrite writeStart (writeStart + BitVec.ofNat 32 (4 * 2 ^ w)) value
      wait).state.rank (2 ^ w - if m.moves wait then k + 1 else k) = m.state.rank (2 ^ w - k)) :
    (m.state = .start ∧ startWrite = false) ∨ (m.state = .accept ∧ wait = true) ∨
      (m.state = .check ∧ k = 2 ^ w) := by
  have hlt : m.state ≠ .check → k < 2 ^ w := fun hs =>
    lt_of_le_of_ne h.le fun hk => hs (h.pending hk)
  cases hs : m.state with
  | start =>
    rw [next_start hs, moves_of_ne (by simp [hs])] at hrank
    cases startWrite
    · simp
    · simp [hs, MasterState.rank] at hrank
  | raise =>
    have hk := hlt (by simp [hs])
    rw [next_raise hs, moves_of_ne (by simp [hs])] at hrank
    simp [hs, MasterState.rank] at hrank
    omega
  | accept =>
    have hk := hlt (by simp [hs])
    rw [next_accept hs, moves_of_accept hs] at hrank
    cases wait
    · simp [hs, MasterState.rank] at hrank
      omega
    · simp
  | check =>
    rw [next_check hs, moves_of_ne (by simp [hs])] at hrank
    by_cases hk : k = 2 ^ w
    · simp [hk]
    · have hle := h.le
      have hdone : ¬ m.oAddress = writeStart + BitVec.ofNat 32 (4 * 2 ^ w) := by
        intro hend
        have hsame := offset_inj (by omega) (by omega)
          ((h.address (by simp [hs])).symm.trans hend)
        omega
      simp [hs, hdone, MasterState.rank] at hrank

/-- A started master that stands still while the bus grants its write has sent everything. -/
theorem Sent.all_sent {writeStart : Word} {value : BitVec N} {k : ℕ} {m : MasterWrite w}
    (h : m.Sent writeStart value k) {startWrite wait : Bool}
    (hwaits : (m.state = .start ∧ startWrite = false) ∨ (m.state = .accept ∧ wait = true) ∨
      (m.state = .check ∧ k = 2 ^ w))
    (hstart : startWrite = true) (hgrant : m.oWrite = true → wait = false) : k = 2 ^ w := by
  rcases hwaits with ⟨-, hidle⟩ | ⟨haccept, hwait⟩ | ⟨-, hk⟩
  · rw [hstart] at hidle
    cases hidle
  · have hwrite := h.write
    rw [haccept, decide_eq_true rfl] at hwrite
    rw [hgrant hwrite] at hwait
    cases hwait
  · exact hk

end MasterWrite

end SocCrypto.Dma
