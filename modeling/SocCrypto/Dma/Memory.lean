import SocCrypto.Dma.ReadPath

/-!
# Memory behind the masters

What a list of accepted writes leaves in memory: the last write to an address is the one that
counts. A block written word by word at ascending addresses is read back word by word.
-/

namespace SocCrypto.Dma

/-- Memory after the writes of a list, the first one first. -/
def stored (M : Word → Word) (writes : List (Word × Word)) : Word → Word :=
  writes.foldl (fun M w => Function.update M w.1 w.2) M

/-- The writes of `n` words `d` from `a` on. -/
def block (a : Word) (n : ℕ) (d : ℕ → Word) : List (Word × Word) :=
  (List.range n).map fun j => (a + BitVec.ofNat 32 (4 * j), d j)

theorem block_succ (a : Word) (n : ℕ) (d : ℕ → Word) :
    block a (n + 1) d = block a n d ++ [(a + BitVec.ofNat 32 (4 * n), d n)] := by
  simp [block, List.range_succ]

theorem stored_append (M : Word → Word) (l l' : List (Word × Word)) :
    stored M (l ++ l') = stored (stored M l) l' := List.foldl_append

/-- An address that no write of the list has keeps its word. -/
theorem stored_of_notMem (M : Word → Word) {l : List (Word × Word)} {x : Word}
    (h : ∀ w ∈ l, w.1 ≠ x) : stored M l x = M x := by
  induction l generalizing M with
  | nil => rfl
  | cons w l ih =>
    have hne : x ≠ w.1 := (h w (List.mem_cons_self ..)).symm
    rw [stored, List.foldl_cons, ← stored, ih _ fun v hv => h v (List.mem_cons_of_mem _ hv),
      Function.update_of_ne hne]

theorem stored_block (M : Word → Word) (a : Word) {n : ℕ} (hn : n ≤ 2 ^ 30) (d : ℕ → Word) {k : ℕ}
    (hk : k < n) : stored M (block a n d) (a + BitVec.ofNat 32 (4 * k)) = d k := by
  induction n with
  | zero => exact absurd hk (Nat.not_lt_zero k)
  | succ n ih =>
    rw [block_succ, stored_append]
    show Function.update _ _ _ _ = _
    rcases Nat.lt_or_eq_of_le (Nat.lt_succ_iff.mp hk) with hlt | rfl
    · have hne : a + BitVec.ofNat 32 (4 * k) ≠ a + BitVec.ofNat 32 (4 * n) := fun h =>
        absurd (offset_inj (by omega) (by omega) h) (Nat.ne_of_lt hlt)
      rw [Function.update_of_ne hne]
      exact ih (by omega) hlt
    · rw [Function.update_self]

theorem stored_block_other (M : Word → Word) (a : Word) (n : ℕ) (d : ℕ → Word) {x : Word}
    (h : ∀ k < n, a + BitVec.ofNat 32 (4 * k) ≠ x) : stored M (block a n d) x = M x := by
  refine stored_of_notMem M fun w hw => ?_
  obtain ⟨j, hj, rfl⟩ := List.mem_map.mp hw
  exact h j (List.mem_range.mp hj)

end SocCrypto.Dma
