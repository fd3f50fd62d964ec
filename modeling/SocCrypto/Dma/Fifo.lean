import SocCrypto.Word

/-!
# The dual-clock FIFO of the controllers

`FIFO.v`: 256 words, `lpm_showahead` off, so a word is on `q` one cycle after its
read request. Both ports run on one clock in the controllers.
-/

namespace SocCrypto.Dma

structure Fifo where
  words : List Word
  q : Word
  deriving DecidableEq

namespace Fifo

def capacity : ℕ := 256

/-- `rdempty`. -/
def empty (f : Fifo) : Bool := f.words.isEmpty

/-- `wrfull`. -/
def full (f : Fifo) : Bool := decide (capacity ≤ f.words.length)

/-- One clock. A write into a full FIFO is dropped, a read from an empty one does
nothing, and `aclr` empties it. -/
def next (f : Fifo) (aclr wrreq : Bool) (data : Word) (rdreq : Bool) : Fifo :=
  if aclr then ⟨[], 0⟩
  else
    { words := (if rdreq then f.words.tail else f.words) ++
        (if wrreq && !f.full then [data] else [])
      q := if rdreq then f.words.headD f.q else f.q }

theorem full_eq_false_iff {f : Fifo} : f.full = false ↔ f.words.length < capacity := by
  simp [full]

theorem empty_eq_false_iff {f : Fifo} : f.empty = false ↔ f.words ≠ [] := by
  simp [empty]

@[simp] theorem next_q {f : Fifo} (wrreq : Bool) (data : Word) (rdreq : Bool) :
    (f.next false wrreq data rdreq).q = if rdreq then f.words.headD f.q else f.q := rfl

end Fifo

end SocCrypto.Dma
