import Mathlib.Data.BitVec

/-!
# Words and memory

The 32-bit word of the bus and the engines, the byte of the software's
character buffers, and the word-addressed DRAM window the processor and the
engines share.
-/

namespace SocCrypto

abbrev Word := BitVec 32

/-- `char` on the target, which is unsigned. -/
abbrev Byte := BitVec 8

/-- A counter that does not wrap. -/
theorem toNat_add_one {w k : ℕ} {a : BitVec w} (h : a.toNat = k) (hk : k + 1 < 2 ^ w) :
    (a + 1).toNat = k + 1 := by
  have hone : (1 : BitVec w).toNat = 1 % 2 ^ w := rfl
  rw [BitVec.toNat_add, h, hone, Nat.add_mod_mod, Nat.mod_eq_of_lt hk]

theorem eq_ofNat_iff {w k n : ℕ} {a : BitVec w} (h : a.toNat = k) (hn : n < 2 ^ w) :
    a = BitVec.ofNat w n ↔ k = n := by
  rw [← BitVec.toNat_inj, h, BitVec.toNat_ofNat, Nat.mod_eq_of_lt hn]

/-- The DRAM window, by word offset. -/
abbrev Sdram := ℕ → Word

namespace Sdram

def write (m : Sdram) (a : ℕ) (w : Word) : Sdram := fun b => if b = a then w else m b

/-- The `n` words from offset `a` on. -/
def slice (m : Sdram) (a n : ℕ) : Fin n → Word := fun i => m (a + i)

/-- A store loop: `n` words from offset `a` on. -/
def writeAll (m : Sdram) (a : ℕ) {n : ℕ} (f : Fin n → Word) : Sdram := fun b =>
  if h : a ≤ b ∧ b < a + n then f ⟨b - a, by omega⟩ else m b

@[simp] theorem write_same (m : Sdram) (a : ℕ) (w : Word) : m.write a w a = w := if_pos rfl

theorem write_other {m : Sdram} {a b : ℕ} (h : b ≠ a) (w : Word) : m.write a w b = m b := if_neg h

theorem writeAll_at {m : Sdram} {a n : ℕ} (f : Fin n → Word) (i : Fin n) :
    m.writeAll a f (a + i) = f i := by
  have hi := i.isLt
  have h : a ≤ a + i.val ∧ a + i.val < a + n := by omega
  simp [writeAll, h]

theorem writeAll_other {m : Sdram} {a b n : ℕ} (f : Fin n → Word) (h : b < a ∨ a + n ≤ b) :
    m.writeAll a f b = m b := by
  have hb : ¬ (a ≤ b ∧ b < a + n) := by omega
  simp only [writeAll, dif_neg hb]

theorem slice_writeAll {m : Sdram} {a n : ℕ} (f : Fin n → Word) :
    (m.writeAll a f).slice a n = f := by
  funext i
  exact writeAll_at f i

theorem slice_writeAll_other {m : Sdram} {a b k n : ℕ} (f : Fin n → Word)
    (h : b + k ≤ a ∨ a + n ≤ b) : (m.writeAll a f).slice b k = m.slice b k := by
  funext i
  have hi := i.isLt
  exact writeAll_other f (by omega)

end Sdram

end SocCrypto
