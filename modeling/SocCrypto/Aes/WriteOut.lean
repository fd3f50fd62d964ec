import SocCrypto.Aes.Qsys
import SocCrypto.Stepper

/-!
# The write master of the AES engine

The master fetches a word from the output FIFO, holds it while it crosses three registers, and
offers it to the bus until the bus accepts it. `inHand` is the word it holds. `Serving` covers
every state from which it goes on to write a given window, not only those after `IDLE`.
-/

namespace SocCrypto.Aes

namespace WriteMaster

/-- The word on its way to the bus; `q` is the output of the FIFO. -/
def inHand (m : WriteMaster) (q : Word) : List Word :=
  match m.rStateDMAWM with
  | .STEP_3 => [q]
  | .STEP_4 | .STEP_5 => [m.oWMWrdata]
  | _ => []

/-- The bus accepts a request. -/
def accepts (m : WriteMaster) (wait : Bool) : Bool := m.oWMWrite && !wait

/-- After `d` words, on the way to `total` of them from `startAddr` on. -/
structure Serving (startAddr : Word) (total d : ℕ) (words : List Word) (m : WriteMaster) :
    Prop where
  write : m.oWMWrite = decide (m.rStateDMAWM = .STEP_5)
  read : m.rReadFifoOut = decide (m.rStateDMAWM = .STEP_2)
  idle : m.rStateDMAWM = .IDLE → d = 0
  address : m.rStateDMAWM ≠ .IDLE → m.oWMWraddr = startAddr + BitVec.ofNat 32 (4 * d)
  far : m.rStateDMAWM ≠ .IDLE → ∀ j, 0 < j → j < total →
    m.rWMLastaddr ≠ startAddr + BitVec.ofNat 32 (4 * j)
  near : m.rStateDMAWM = .STOP → d = 0 → m.rWMLastaddr ≠ startAddr
  words : m.rStateDMAWM = .STEP_2 → words ≠ []

section
variable {startAddr LENGTH q : Word} {total d : ℕ} {words new : List Word} {m : WriteMaster}
  {wait : Bool}

/-- The FIFO after a cycle of the master. -/
def left (m : WriteMaster) (words : List Word) : List Word :=
  if m.rReadFifoOut then words.tail else words

theorem Serving.keep {words' : List Word} {m' : WriteMaster} (h : m.Serving startAddr total d words)
    (hs : m.rStateDMAWM ≠ .IDLE) (hs' : m'.rStateDMAWM ≠ .IDLE)
    (hstop : m'.rStateDMAWM = .STOP → m.rStateDMAWM = .STOP)
    (haddr : m'.oWMWraddr = m.oWMWraddr) (hlast : m'.rWMLastaddr = m.rWMLastaddr)
    (hwrite : m'.oWMWrite = decide (m'.rStateDMAWM = .STEP_5))
    (hread : m'.rReadFifoOut = decide (m'.rStateDMAWM = .STEP_2))
    (hwords : m'.rStateDMAWM = .STEP_2 → words' ≠ []) : m'.Serving startAddr total d words' := by
  refine ⟨hwrite, hread, fun hidle => absurd hidle hs', fun _ => ?_, fun _ => ?_, ?_, hwords⟩
  · rw [haddr]
    exact h.address hs
  · rw [hlast]
    exact h.far hs
  · rw [hlast]
    exact fun hnow => h.near (hstop hnow)

theorem Serving.next (h : m.Serving startAddr total d words)
    (hlength : LENGTH = BitVec.ofNat 32 (4 * total)) (hlt : 4 * total < 2 ^ 32) :
    (m.next false startAddr LENGTH words.isEmpty q wait).Serving startAddr total
      (d + (m.accepts wait).toNat) (m.left words ++ new) := by
  have hwrite := h.write
  have hread := h.read
  have hidle := h.idle
  have haddress := h.address
  obtain ⟨state, write, addr, data, last, done, read⟩ := m
  cases state with
  | IDLE =>
    obtain rfl : write = false := hwrite
    obtain rfl : d = 0 := hidle rfl
    cases words with
    | nil => constructor <;> simp [WriteMaster.next, accepts]
    | cons w l =>
      constructor <;> simp [WriteMaster.next, accepts]
      intro j hj hjt
      rw [hlength, ← BitVec.toNat_inj, BitVec.toNat_ofNat, BitVec.toNat_ofNat,
        Nat.mod_eq_of_lt (by omega), Nat.mod_eq_of_lt (by omega)]
      omega
  | STEP_1 =>
    obtain rfl : write = false := hwrite
    obtain rfl : read = false := hread
    cases words with
    | nil => exact h.keep nofun nofun nofun rfl rfl rfl rfl nofun
    | cons w l => exact h.keep nofun nofun nofun rfl rfl rfl rfl nofun
  | STEP_2 =>
    obtain rfl : write = false := hwrite
    exact h.keep nofun nofun nofun rfl rfl rfl rfl nofun
  | STEP_3 | STEP_4 =>
    obtain rfl : write = false := hwrite
    obtain rfl : read = false := hread
    exact h.keep nofun nofun nofun rfl rfl rfl rfl nofun
  | STEP_5 =>
    obtain rfl : write = true := hwrite
    obtain rfl : read = false := hread
    cases wait with
    | true => exact h.keep nofun nofun nofun rfl rfl rfl rfl nofun
    | false =>
      have hstep : addr = startAddr + BitVec.ofNat 32 (4 * d) := haddress nofun
      have hnext : addr + 4 = startAddr + BitVec.ofNat 32 (4 * (d + 1)) := by
        rw [hstep, BitVec.add_assoc, show 4 * (d + 1) = 4 * d + 4 by omega, BitVec.ofNat_add]
        rfl
      exact ⟨rfl, rfl, nofun, fun _ => hnext, fun _ => h.far nofun,
        fun _ hd => absurd hd (Nat.succ_ne_zero d), nofun⟩
  | STOP =>
    obtain rfl : write = false := hwrite
    obtain rfl : read = false := hread
    by_cases hend : addr = last
    · simp only [WriteMaster.next, hend, if_true, Bool.false_eq_true, if_false]
      exact h.keep nofun nofun (fun _ => rfl) hend.symm rfl rfl rfl nofun
    · simp only [WriteMaster.next, hend, if_false, Bool.false_eq_true]
      exact h.keep nofun nofun nofun rfl rfl rfl rfl nofun

theorem Serving.address_of_accepts (h : m.Serving startAddr total d words)
    (hnow : m.accepts wait = true) : m.oWMWraddr = startAddr + BitVec.ofNat 32 (4 * d) := by
  rw [accepts, h.write, Bool.and_eq_true, decide_eq_true_eq] at hnow
  exact h.address (by simp [hnow.1])

theorem Serving.total_le (h : m.Serving startAddr total d words) (hs : m.rStateDMAWM = .STOP)
    (hend : m.oWMWraddr = m.rWMLastaddr) : total ≤ d := by
  have hne : m.rStateDMAWM ≠ .IDLE := by
    rw [hs]
    decide
  have haddress := h.address hne
  have hpos : d ≠ 0 := by
    rintro rfl
    refine h.near hs rfl ?_
    rw [← hend, haddress]
    simp
  by_contra hlow
  exact h.far hne d (by omega) (by omega) (hend.symm.trans haddress)

theorem done_next (m : WriteMaster) (empty : Bool) :
    (m.next false startAddr LENGTH empty q wait).rWMDone = true →
      m.rWMDone = true ∨ (m.rStateDMAWM = .STOP ∧ m.oWMWraddr = m.rWMLastaddr) := by
  obtain ⟨state, write, addr, data, last, done, read⟩ := m
  cases state with
  | IDLE | STEP_1 => cases empty <;> exact Or.inl
  | STEP_2 | STEP_3 | STEP_4 => exact Or.inl
  | STEP_5 => cases wait <;> exact Or.inl
  | STOP =>
    by_cases hend : addr = last
    · exact fun _ => Or.inr ⟨rfl, hend⟩
    · simp only [WriteMaster.next, hend, if_false]
      exact Or.inl

variable (LENGTH q wait) in
theorem Serving.words_next (h : m.Serving startAddr total d words) :
    m.inHand q ++ words = (if m.accepts wait then [m.oWMWrdata] else []) ++
      ((m.next false startAddr LENGTH words.isEmpty q wait).inHand
        (if m.rReadFifoOut then words.headD q else q) ++ m.left words) := by
  have hread := h.read
  have hwrite := h.write
  have hwords := h.words
  obtain ⟨state, write, addr, data, last, done, read⟩ := m
  cases state with
  | IDLE | STEP_1 =>
    obtain rfl : write = false := hwrite
    obtain rfl : read = false := hread
    cases words <;> rfl
  | STEP_2 =>
    obtain rfl : write = false := hwrite
    obtain rfl : read = true := hread
    obtain ⟨w, l, rfl⟩ := List.exists_cons_of_ne_nil (hwords rfl)
    rfl
  | STEP_3 | STEP_4 =>
    obtain rfl : write = false := hwrite
    obtain rfl : read = false := hread
    rfl
  | STEP_5 =>
    obtain rfl : write = true := hwrite
    obtain rfl : read = false := hread
    cases wait <;> rfl
  | STOP =>
    obtain rfl : write = false := hwrite
    obtain rfl : read = false := hread
    by_cases hend : addr = last <;> simp [inHand, accepts, left, WriteMaster.next, hend]

/-- Cycles the master still needs for `n` words when nothing holds it up. -/
def rank (m : WriteMaster) (n : ℕ) : ℕ :=
  match m.rStateDMAWM with
  | .IDLE => 6 * n + 1
  | .STEP_1 => 6 * n
  | .STEP_2 => 6 * n - 1
  | .STEP_3 => 6 * n - 2
  | .STEP_4 => 6 * n - 3
  | .STEP_5 => 6 * n - 4
  | .STOP => 6 * n + 1

/-- The master waits in this cycle. -/
inductive Waits (words : List Word) (wait : Bool) (m : WriteMaster) : Prop
  | empty : m.rStateDMAWM = .IDLE ∨ m.rStateDMAWM = .STEP_1 → words = [] → Waits words wait m
  | bus : m.rStateDMAWM = .STEP_5 → wait = true → Waits words wait m
  | done : m.rStateDMAWM = .STOP → m.oWMWraddr = m.rWMLastaddr → Waits words wait m

theorem Waits.wait_of_bus (h : m.Waits words wait) (hs : m.rStateDMAWM = .STEP_5) :
    wait = true := by
  rcases h with ⟨hs' | hs', -⟩ | ⟨-, hwait⟩ | ⟨hs', -⟩
  · exact absurd (hs'.symm.trans hs) (by decide)
  · exact absurd (hs'.symm.trans hs) (by decide)
  · exact hwait
  · exact absurd (hs'.symm.trans hs) (by decide)

variable (LENGTH q wait) in
/-- The rank does not grow, and a cycle that leaves it alone is one the master waits in. -/
theorem Serving.rank_next {n : ℕ} (h : m.Serving startAddr total d words)
    (hn : (m.inHand q ++ words).length ≤ n) :
    let m' := m.next false startAddr LENGTH words.isEmpty q wait
    m'.rank (n - (m.accepts wait).toNat) ≤ m.rank n ∧
      (m'.rank (n - (m.accepts wait).toNat) = m.rank n → m.Waits words wait) := by
  have hwrite := h.write
  have hwords := h.words
  obtain ⟨state, write, addr, data, last, done, read⟩ := m
  rw [List.length_append] at hn
  cases state with
  | IDLE =>
    obtain rfl : write = false := hwrite
    cases words with
    | nil => exact ⟨le_rfl, fun _ => .empty (Or.inl rfl) rfl⟩
    | cons w l => simp [WriteMaster.next, rank, accepts]
  | STEP_1 =>
    obtain rfl : write = false := hwrite
    cases words with
    | nil => exact ⟨le_rfl, fun _ => .empty (Or.inr rfl) rfl⟩
    | cons w l =>
      simp only [inHand, List.length_nil, List.length_cons] at hn
      simp [WriteMaster.next, rank, accepts]
      omega
  | STEP_2 =>
    obtain rfl : write = false := hwrite
    have hpos := List.length_pos_of_ne_nil (hwords rfl)
    simp [WriteMaster.next, rank, accepts]
    omega
  | STEP_3 | STEP_4 =>
    obtain rfl : write = false := hwrite
    simp only [inHand, List.length_singleton] at hn
    simp [WriteMaster.next, rank, accepts]
    omega
  | STEP_5 =>
    obtain rfl : write = true := hwrite
    cases wait with
    | true => exact ⟨by simp [WriteMaster.next, rank, accepts], fun _ => .bus rfl rfl⟩
    | false =>
      simp only [inHand, List.length_singleton] at hn
      simp [WriteMaster.next, rank, accepts]
      omega
  | STOP =>
    obtain rfl : write = false := hwrite
    by_cases hend : addr = last
    · exact ⟨by simp [WriteMaster.next, rank, accepts, hend], fun _ => .done rfl hend⟩
    · simp [WriteMaster.next, rank, accepts, hend]

end

end WriteMaster

end SocCrypto.Aes
