import Mathlib.Data.List.Infix
import SocCrypto.Soft.Sha256

/-!
# The character buffer of `UART.h`

`UART_Put_Buffer` stores at the index and moves it up, `UART_Get_Buffer` reads at the index
and moves it down, `UART_Show_Buffer` prints up to and with the index. For the first the
index is the next free place, for the other two the last one used.
-/

namespace SocCrypto.Soft

/-- A buffer and its `char` index. -/
structure CharBuffer where
  buffer : Buffer
  pointer : Byte

def uartPutBuffer (s : CharBuffer) (value : Byte) : CharBuffer :=
  ⟨Function.update s.buffer s.pointer.toNat value, s.pointer + 1⟩

def uartGetBuffer (s : CharBuffer) : Byte × CharBuffer :=
  (s.buffer s.pointer.toNat, ⟨s.buffer, s.pointer - 1⟩)

def ascii (s : String) : List Byte := s.toList.map fun c => BitVec.ofNat 8 c.toNat

/-- The line with the characters `cs`. -/
def charLine (cs : List Byte) : List Byte := ascii "Char = " ++ cs ++ ascii "\n"

/-- `for(i = 0; i <= pointer; i++)`. -/
def uartShowBuffer (buffer : Buffer) (pointer : Byte) : List Byte :=
  charLine ((List.range (pointer.toNat + 1)).map buffer)

/-! ### Sequences of calls -/

inductive Call where
  | put (value : Byte)
  | get
  deriving DecidableEq

namespace Call

def run (s : CharBuffer) : Call → CharBuffer
  | put value => uartPutBuffer s value
  | get => (uartGetBuffer s).2

/-- What a stack holds after the call, the character put last at the end. -/
def store (cs : List Byte) : Call → List Byte
  | put value => cs ++ [value]
  | get => cs.dropLast

def isPut : Call → Bool
  | put _ => true
  | get => false

end Call

def callState (buffer : Buffer) (calls : List Call) : CharBuffer :=
  calls.foldl Call.run ⟨buffer, 0⟩

def stored (calls : List Call) : List Byte := calls.foldl Call.store []

def puts (calls : List Call) : ℕ := calls.countP Call.isPut

def gets (calls : List Call) : ℕ := calls.count Call.get

/-- No prefix has more Gets than Puts, and what is stored fits the buffer and a `char`. -/
def Fits (size : ℕ) (calls : List Call) : Prop :=
  ∀ pre, pre <+: calls →
    gets pre ≤ puts pre ∧ puts pre ≤ gets pre + size ∧ puts pre ≤ gets pre + 255

/-- Each Get returns the character put last of those still stored. -/
def GetsLast (buffer : Buffer) (calls : List Call) : Prop :=
  ∀ pre, pre ++ [Call.get] <+: calls →
    some (uartGetBuffer (callState buffer pre)).1 = (stored pre).getLast?

/-- The characters stored are printed, and no others. -/
def ShowsStored (buffer : Buffer) (calls : List Call) : Prop :=
  ∀ pre, pre <+: calls →
    uartShowBuffer (callState buffer pre).buffer (callState buffer pre).pointer =
      charLine (stored pre)

/-! ### What the calls do -/

@[simp] theorem callState_snoc (buffer : Buffer) (calls : List Call) (c : Call) :
    callState buffer (calls ++ [c]) = c.run (callState buffer calls) := by
  simp [callState]

@[simp] theorem stored_snoc (calls : List Call) (c : Call) :
    stored (calls ++ [c]) = c.store (stored calls) := by
  simp [stored]

theorem Fits.of_prefix {size : ℕ} {calls pre : List Call} (h : Fits size calls)
    (hpre : pre <+: calls) : Fits size pre :=
  fun p hp => h p (hp.trans hpre)

theorem charLine_inj {cs ds : List Byte} (h : charLine cs = charLine ds) : cs = ds := by
  unfold charLine at h
  exact List.append_cancel_left (List.append_cancel_right h)

/-- The cells below the index hold the stack. -/
structure Stacked (cs : List Byte) (s : CharBuffer) : Prop where
  pointer : s.pointer.toNat = cs.length
  cells : ∀ i (h : i < cs.length), s.buffer i = cs[i]

theorem Stacked.put {cs : List Byte} {s : CharBuffer} (h : Stacked cs s) (hlen : cs.length < 255)
    (value : Byte) : Stacked (cs ++ [value]) (uartPutBuffer s value) := by
  constructor
  case pointer =>
    rw [List.length_append, List.length_singleton]
    exact toNat_add_one h.pointer (by omega)
  case cells =>
    intro i hi
    rw [List.length_append, List.length_singleton] at hi
    show Function.update s.buffer s.pointer.toNat value i = _
    rw [h.pointer, Function.update_apply, List.getElem_append]
    split
    · next heq => simp [heq]
    · next hne =>
      have hlt : i < cs.length := by omega
      rw [dif_pos hlt]
      exact h.cells i hlt

theorem Stacked.get {cs : List Byte} {s : CharBuffer} (h : Stacked cs s) (hne : 0 < cs.length) :
    Stacked cs.dropLast (uartGetBuffer s).2 := by
  constructor
  case pointer =>
    have hpos : 1 ≤ s.pointer.toNat := by
      rw [h.pointer]
      exact hne
    show (s.pointer - 1).toNat = _
    rw [BitVec.toNat_sub_of_le hpos, h.pointer, List.length_dropLast]
    rfl
  case cells =>
    intro i hi
    rw [List.length_dropLast] at hi
    rw [List.getElem_dropLast]
    exact h.cells i (by omega)

/-- The index is the number of characters stored. -/
theorem stacked_callState {size : ℕ} {calls : List Call} (h : Fits size calls) (buffer : Buffer) :
    (stored calls).length + gets calls = puts calls ∧
      Stacked (stored calls) (callState buffer calls) := by
  induction calls using List.reverseRecOn with
  | nil => exact ⟨rfl, rfl, fun i hi => absurd hi (Nat.not_lt_zero i)⟩
  | append_singleton calls c ih =>
    obtain ⟨hlen, hstacked⟩ := ih (h.of_prefix (List.prefix_append calls [c]))
    obtain ⟨hgets, -, hchar⟩ := h _ List.prefix_rfl
    rw [stored_snoc, callState_snoc]
    simp only [gets, puts, List.count_append, List.countP_append] at hlen hgets hchar ⊢
    cases c with
    | put value =>
      have hcount : [Call.put value].count Call.get = 0 := rfl
      have hput : [Call.put value].countP Call.isPut = 1 := rfl
      rw [hcount, hput] at hgets hchar ⊢
      refine ⟨?_, hstacked.put (by omega) value⟩
      rw [Call.store, List.length_append, List.length_singleton]
      omega
    | get =>
      have hcount : [Call.get].count Call.get = 1 := rfl
      have hput : [Call.get].countP Call.isPut = 0 := rfl
      rw [hcount, hput] at hgets hchar ⊢
      refine ⟨?_, hstacked.get (by omega)⟩
      rw [Call.store, List.length_dropLast]
      omega

/-- A Get reads the first cell above the stack. -/
theorem Stacked.getBuffer_eq_iff {cs : List Byte} {s : CharBuffer} (h : Stacked cs s)
    (hne : 0 < cs.length) :
    some (uartGetBuffer s).1 = cs.getLast? ↔ s.buffer cs.length = s.buffer (cs.length - 1) := by
  have hlt : cs.length - 1 < cs.length := by omega
  show some (s.buffer s.pointer.toNat) = _ ↔ _
  rw [h.pointer, h.cells _ hlt, List.getLast?_eq_getElem?, List.getElem?_eq_getElem hlt,
    Option.some_inj]

/-- Printing adds that cell to the stack. -/
theorem Stacked.showBuffer {cs : List Byte} {s : CharBuffer} (h : Stacked cs s) :
    uartShowBuffer s.buffer s.pointer = charLine (cs ++ [s.buffer cs.length]) := by
  have hcells : (List.range cs.length).map s.buffer = cs := by
    apply List.ext_getElem
    · simp
    · intro i _ hi
      simp [h.cells i hi]
  unfold uartShowBuffer
  rw [h.pointer, List.range_succ, List.map_append, hcells]
  rfl

/-- A Get returns the right character only when the cell above the stack happens to hold it, and
the printed line always has one character too many. -/
theorem buffer_discipline_never (size : ℕ) (buffer : Buffer) (calls : List Call)
    (h : Fits size calls) :
    (GetsLast buffer calls ↔ ∀ pre, pre ++ [Call.get] <+: calls →
      (callState buffer pre).buffer (stored pre).length =
        (callState buffer pre).buffer ((stored pre).length - 1)) ∧
    (∀ pre, pre <+: calls →
      uartShowBuffer (callState buffer pre).buffer (callState buffer pre).pointer =
        charLine (stored pre ++ [(callState buffer pre).buffer (stored pre).length])) ∧
    ¬ (GetsLast buffer calls ∧ ShowsStored buffer calls) := by
  have hstack : ∀ pre, pre <+: calls → Stacked (stored pre) (callState buffer pre) :=
    fun pre hpre => (stacked_callState (h.of_prefix hpre) buffer).2
  refine ⟨forall₂_congr fun pre hpre => ?_, fun pre hpre => (hstack pre hpre).showBuffer, ?_⟩
  · have hbefore := (List.prefix_append pre [Call.get]).trans hpre
    have hlen := (stacked_callState (h.of_prefix hbefore) buffer).1
    have hgets := (h _ hpre).1
    have hcount : [Call.get].count Call.get = 1 := rfl
    have hput : [Call.get].countP Call.isPut = 0 := rfl
    simp only [gets, puts, List.count_append, List.countP_append, hcount, hput] at hlen hgets
    exact (hstack pre hbefore).getBuffer_eq_iff (by omega)
  · rintro ⟨-, hshow⟩
    have hempty := charLine_inj (hshow [] (List.nil_prefix))
    cases hempty

/-- Put `a`, Get. -/
def putGet : List Call := [.put 97, .get]

theorem fits_putGet : Fits 10 putGet := by
  have hall : ∀ pre ∈ putGet.inits,
      gets pre ≤ puts pre ∧ puts pre ≤ gets pre + 10 ∧ puts pre ≤ gets pre + 255 := by decide
  exact fun pre hpre => hall pre ((List.mem_inits pre putGet).mpr hpre)

theorem buffer_discipline_never_putGet :
    ¬ (GetsLast (fun _ => 0) putGet ∧ ShowsStored (fun _ => 0) putGet) :=
  (buffer_discipline_never 10 (fun _ => 0) putGet fits_putGet).2.2

/-- In a cleared buffer the Get returns the terminator instead of `a`, and the line printed
before it has a character behind `a`. -/
theorem buffer_discipline_fails :
    ¬ ∀ size buffer calls, Fits size calls → GetsLast buffer calls ∧ ShowsStored buffer calls := by
  intro h
  have hget := (h 10 (fun _ => 0) putGet fits_putGet).1 [.put 97] List.prefix_rfl
  revert hget
  decide

end SocCrypto.Soft
