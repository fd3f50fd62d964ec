import SocCrypto.Sha.Compression
import SocCrypto.Sha.Controller

/-!
# From memory to message blocks

A job of the SHA-256 controller up to the core: the words memory holds at the read
address arrive in the FIFO in order, the assembler shifts them into `mem`, and each
complete block is handed to the scheduler once.
-/

namespace SocCrypto.Sha
open Dma

/-! ### The assembler -/

namespace Assembler

section
variable {d : Assembler} {fifoEmpty readBlock : Bool} {fifoOutData : Word}

theorem next_poll (hs : d.state = .poll) :
    d.next true fifoEmpty fifoOutData readBlock =
      if !fifoEmpty && !d.writeDone then { d with fifoRead := true, state := .request } else d := by
  simp only [next, hs, Bool.not_true, Bool.false_eq_true, if_false]

theorem next_request (hs : d.state = .request) :
    d.next true fifoEmpty fifoOutData readBlock = { d with fifoRead := false, state := .store } := by
  simp only [next, hs, Bool.not_true, Bool.false_eq_true, if_false]

theorem next_store (hs : d.state = .store) :
    d.next true fifoEmpty fifoOutData readBlock =
      { d with
        mem := pushWord d.mem fifoOutData, counter := d.counter + 1,
        writeDone := d.counter = 15 || d.writeDone, shaEnable := d.counter = 15 || d.shaEnable,
        state := if d.counter = 15 then .offer else .poll } := by
  simp only [next, hs, Bool.not_true, Bool.false_eq_true, if_false]
  by_cases hc : d.counter = 15#4 <;> simp [hc]

theorem next_offer (hs : d.state = .offer) :
    d.next true fifoEmpty fifoOutData readBlock =
      if readBlock then { d with writeDone := false, counter := 0, state := .poll } else d := by
  simp only [next, hs, Bool.not_true, Bool.false_eq_true, if_false]

end

/-- Cycles left for `m` words when nothing stalls. -/
def rank (d : Assembler) (m : ℕ) : ℕ :=
  4 * m + match d.state with
    | .poll => 3
    | .request => 2
    | .store => 1
    | .offer => 4

end Assembler

namespace Controller

/-- The register contents of a job of `nb` blocks. -/
structure Started (readStart writeStart : Word) (nb : ℕ) (s : Controller) : Prop where
  control : s.config.control = 3
  readStart : s.config.readStart = readStart
  writeStart : s.config.writeStart = writeStart
  length : s.config.length = BitVec.ofNat 32 (64 * nb)

/-- An edge of both clocks without a register write. -/
structure Idle (i : In) : Prop where
  clk : i.clk = true
  shaClk : i.shaClk = true
  cpu : i.cpu = none

/-- The words memory holds for `nb` blocks from `a` on. -/
def sourceWords (M : Word → Word) (a : Word) (nb : ℕ) : List Word := (addresses a (16 * nb)).map M

/-- Block `j` of the source words. -/
def sourceBlock (target : List Word) (j : ℕ) : List Word := (target.drop (16 * j)).take 16

variable {M : Word → Word} {readStart writeStart : Word} {nb n c : ℕ} {s : Controller} {i : In}
  {target : List Word}

@[simp] theorem length_sourceWords (M : Word → Word) (a : Word) (nb : ℕ) :
    (sourceWords M a nb).length = 16 * nb := by
  simp [sourceWords]

theorem sourceBlock_getD {j k : ℕ} (hk : k < 16) :
    (sourceBlock target j).getD k 0 = target.getD (16 * j + k) 0 := by
  rw [sourceBlock, List.getD_eq_getElem?_getD, List.getD_eq_getElem?_getD,
    List.getElem?_take_of_lt hk, List.getElem?_drop]

theorem Started.next (h : s.Started readStart writeStart nb) (hi : Idle i) :
    (s.step M i).Started readStart writeStart nb := by
  have hsame : (s.step M i).config = s.config := by
    rw [step_config, hi.cpu]
    split <;> rfl
  exact ⟨by rw [hsame]; exact h.control, by rw [hsame]; exact h.readStart,
    by rw [hsame]; exact h.writeStart, by rw [hsame]; exact h.length⟩

theorem Started.resetn (h : s.Started readStart writeStart nb) : s.config.resetn = true := by
  rw [Config.resetn, h.control]
  rfl

theorem Started.startRead (h : s.Started readStart writeStart nb) :
    (s.readIn i).startRead = true := by
  simp only [readIn, Config.startRead, h.control]
  rfl

theorem Started.numberBlock (h : s.Started readStart writeStart nb) (hnb : nb ≤ 16) :
    s.numberBlock.toNat = nb := by
  rw [Controller.numberBlock, h.length, BitVec.toNat_ushiftRight, BitVec.toNat_ofNat,
    Nat.mod_eq_of_lt (by omega), Nat.shiftRight_eq_div_pow]
  omega

/-! ### Words -/

/-- `n` requests are left and `c` words have been shifted into `mem`. -/
structure Collecting (M : Word → Word) (readStart : Word) (target : List Word) (n c : ℕ)
    (s : Controller) : Prop where
  left : s.read.master.Left readStart target.length n
  le : c ≤ target.length
  counter : s.drain.counter.toNat = c % 16
  fifoRead : s.drain.fifoRead = decide (s.drain.state = .request)
  nonempty : s.drain.state = .request → s.read.fifo.words ≠ []
  writeDone : s.drain.writeDone = decide (s.drain.state = .offer)
  offer : s.drain.state = .offer → c % 16 = 0 ∧ 16 ≤ c
  shaEnable : s.drain.shaEnable = decide (16 ≤ c)
  words : (if s.drain.state = .store then [s.read.fifo.q] else []) ++
    s.read.stream M readStart n = target.drop c
  mem : ∀ k < 16, 16 ≤ c + k → blockWord s.drain.mem k = target.getD (c + k - 16) 0

/-- Words stored after a step. -/
def storedNext (s : Controller) (c : ℕ) : ℕ := if s.drain.state = .store then c + 1 else c

theorem storedNext_of_ne (hs : s.drain.state ≠ .store) : s.storedNext c = c := if_neg hs

theorem storedNext_of_store (hs : s.drain.state = .store) : s.storedNext c = c + 1 := if_pos hs

theorem Collecting.running (h : s.Collecting M readStart target n c)
    (hs : s.Started readStart writeStart nb) (hlen : target.length = 16 * nb) :
    ReadPath.Running readStart target.length s.read (s.readIn i) := by
  constructor
  · exact hs.resetn
  · simp only [readIn, Config.fifoClear, hs.control]
    rfl
  · exact hs.readStart
  · have hfour : 64 * nb = 4 * target.length := by omega
    simp only [readIn, Config.endAddressRead, hs.readStart, hs.length, hfour]
  · intro hread
    have hfifo : s.drain.fifoRead = true := hread
    rw [h.fifoRead] at hfifo
    exact h.nonempty (of_decide_eq_true hfifo)

theorem Collecting.room (h : s.Collecting M readStart target n c) (hlen : target.length ≤ 256) :
    s.read.Room := by
  refine ReadPath.room_of_stream (M := M) h.left ?_
  have hwords := congrArg List.length h.words
  rw [List.length_append, List.length_drop] at hwords
  omega

theorem Collecting.holds (h : s.Collecting M readStart target n c) {q : ℕ} (hc : c = 16 * (q + 1)) :
    Holds s.drain.mem (sourceBlock target q) := by
  intro k hk
  rw [h.mem k hk (by omega), sourceBlock_getD hk]
  congr 1
  omega

theorem Collecting.store_lt (h : s.Collecting M readStart target n c)
    (hst : s.drain.state = .store) : c < target.length := by
  have hwords := congrArg List.length h.words
  simp [hst] at hwords
  omega

theorem Started.drain_next (hs : s.Started readStart writeStart nb) (hi : Idle i) :
    (s.step M i).drain =
      s.drain.next true s.read.fifo.empty s.read.fifo.q s.core.oReadBlock := by
  rw [step_drain, if_pos hi.clk, hs.resetn]

/-- Requests and words on their way; the assembler takes one in `request`. -/
theorem Collecting.path_next (h : s.Collecting M readStart target n c)
    (hs : s.Started readStart writeStart nb) (hlen : target.length = 16 * nb) (hnb : nb ≤ 16)
    (hi : Idle i) :
    (s.step M i).read.master.Left readStart target.length (s.read.left (s.readIn i) n) ∧
      (s.step M i).read.stream M readStart (s.read.left (s.readIn i) n) =
        if s.drain.state = .request then (s.read.stream M readStart n).tail
        else s.read.stream M readStart n := by
  have hrun := h.running (i := i) hs hlen
  have hstream := ReadPath.stream_next (M := M) h.left hrun (h.room (by omega))
  have hrdreq : (s.readIn i).rdreq = decide (s.drain.state = .request) := h.fifoRead
  rw [step_read, if_pos hi.clk]
  refine ⟨ReadPath.left_next (M := M) h.left hrun, ?_⟩
  rw [hstream, hrdreq]
  simp only [decide_eq_true_eq]

/-- A cycle that stores no word leaves `mem` as it is. -/
theorem Collecting.kept {s' : Controller} {n' : ℕ} (h : s.Collecting M readStart target n c)
    (hleft : s'.read.master.Left readStart target.length n')
    (hcounter : s'.drain.counter.toNat = c % 16)
    (hfifoRead : s'.drain.fifoRead = decide (s'.drain.state = .request))
    (hnonempty : s'.drain.state = .request → s'.read.fifo.words ≠ [])
    (hwriteDone : s'.drain.writeDone = decide (s'.drain.state = .offer))
    (hoffer : s'.drain.state = .offer → c % 16 = 0 ∧ 16 ≤ c)
    (hshaEnable : s'.drain.shaEnable = s.drain.shaEnable) (hmem : s'.drain.mem = s.drain.mem)
    (hwords : (if s'.drain.state = .store then [s'.read.fifo.q] else []) ++
      s'.read.stream M readStart n' = target.drop c) :
    s'.Collecting M readStart target n' c where
  left := hleft
  le := h.le
  counter := hcounter
  fifoRead := hfifoRead
  nonempty := hnonempty
  writeDone := hwriteDone
  offer := hoffer
  shaEnable := hshaEnable.trans h.shaEnable
  words := hwords
  mem := by
    rw [hmem]
    exact h.mem

theorem Collecting.poll_next (h : s.Collecting M readStart target n c)
    (hs : s.Started readStart writeStart nb) (hlen : target.length = 16 * nb) (hnb : nb ≤ 16)
    (hi : Idle i) (hst : s.drain.state = .poll) :
    (s.step M i).Collecting M readStart target (s.read.left (s.readIn i) n) c := by
  obtain ⟨hleft, hstream⟩ := h.path_next hs hlen hnb hi
  have hwords := h.words
  have hdrain := hs.drain_next (M := M) hi
  rw [hst, if_neg (by simp)] at hstream
  simp only [hst, reduceCtorEq, if_false, List.nil_append] at hwords
  rw [Assembler.next_poll hst] at hdrain
  cases hempty : s.read.fifo.empty with
  | false =>
    have hdone : s.drain.writeDone = false := by
      rw [h.writeDone, hst]
      rfl
    have hrdreq : (s.readIn i).rdreq = false := by
      show s.drain.fifoRead = false
      rw [h.fifoRead, hst]
      rfl
    have hgrow : s.read.fifo.words ≠ [] → (s.step M i).read.fifo.words ≠ [] := by
      intro hne
      simp [step_read, hi.clk, ReadPath.next, Fifo.next, (h.running (i := i) hs hlen).aclr,
        hrdreq, hne]
    simp only [hempty, hdone, Bool.not_false, Bool.and_self, if_true] at hdrain
    apply h.kept hleft
    case hcounter => rw [hdrain]; exact h.counter
    case hnonempty => exact fun _ => hgrow (Fifo.empty_eq_false_iff.mp hempty)
    case hwords => simp [hdrain, hstream, hwords]
    all_goals simp [hdrain]
  | true =>
    simp only [hempty, Bool.not_true, Bool.false_and, Bool.false_eq_true, if_false] at hdrain
    apply h.kept hleft
    case hcounter => rw [hdrain]; exact h.counter
    case hfifoRead => rw [hdrain]; exact h.fifoRead
    case hwriteDone => rw [hdrain]; exact h.writeDone
    case hwords => simp [hdrain, hst, hstream, hwords]
    all_goals simp [hdrain, hst]

theorem Collecting.request_next (h : s.Collecting M readStart target n c)
    (hs : s.Started readStart writeStart nb) (hlen : target.length = 16 * nb) (hnb : nb ≤ 16)
    (hi : Idle i) (hst : s.drain.state = .request) :
    (s.step M i).Collecting M readStart target (s.read.left (s.readIn i) n) c := by
  obtain ⟨hleft, hstream⟩ := h.path_next hs hlen hnb hi
  have hwords := h.words
  have hdrain := hs.drain_next (M := M) hi
  rw [hst, if_pos rfl] at hstream
  simp only [hst, reduceCtorEq, if_false, List.nil_append] at hwords
  rw [Assembler.next_request hst] at hdrain
  obtain ⟨w, ws, hw⟩ := List.exists_cons_of_ne_nil (h.nonempty hst)
  have hrdreq : (s.readIn i).rdreq = true := by
    show s.drain.fifoRead = true
    rw [h.fifoRead, hst]
    rfl
  have hq : (s.step M i).read.fifo.q = w := by
    simp [step_read, hi.clk, ReadPath.next, (h.running (i := i) hs hlen).aclr, hrdreq, hw]
  apply h.kept hleft
  case hcounter => rw [hdrain]; exact h.counter
  case hwriteDone => simp [hdrain, h.writeDone, hst]
  case hwords =>
    rw [hq, hstream, ← hwords]
    simp [hdrain, ReadPath.stream, hw]
  all_goals simp [hdrain]

/-- The word stored is the next one of the source. -/
theorem Collecting.mem_next (h : s.Collecting M readStart target n c) {q : Word}
    (hq : target.getD c 0 = q) {k : ℕ} (hk : k < 16) (hck : 16 ≤ c + 1 + k) :
    blockWord (pushWord s.drain.mem q) k = target.getD (c + 1 + k - 16) 0 := by
  rcases Nat.lt_or_ge k 15 with hlt | hge
  · rw [blockWord_pushWord hlt, h.mem (k + 1) (by omega) (by omega)]
    congr 1
    omega
  · obtain rfl : k = 15 := by omega
    rw [blockWord_pushWord_last, ← hq]
    rfl

theorem Collecting.store_next (h : s.Collecting M readStart target n c)
    (hs : s.Started readStart writeStart nb) (hlen : target.length = 16 * nb) (hnb : nb ≤ 16)
    (hi : Idle i) (hst : s.drain.state = .store) :
    (s.step M i).Collecting M readStart target (s.read.left (s.readIn i) n) (c + 1) := by
  obtain ⟨hleft, hstream⟩ := h.path_next hs hlen hnb hi
  have hlt := h.store_lt hst
  have hwords := h.words
  have hdrain := hs.drain_next (M := M) hi
  rw [hst, if_neg (by simp)] at hstream
  simp only [hst, if_true, List.singleton_append] at hwords
  rw [List.drop_eq_getElem_cons hlt] at hwords
  obtain ⟨hword, hrest⟩ := List.cons.inj hwords
  rw [Assembler.next_store hst] at hdrain
  have hfull : s.drain.counter = 15#4 ↔ c % 16 = 15 :=
    eq_ofNat_iff h.counter (show 15 < 2 ^ 4 by decide)
  have hdone : s.drain.writeDone = false := by
    rw [h.writeDone, hst]
    rfl
  constructor
  case left => exact hleft
  case le => exact hlt
  case counter =>
    rw [hdrain]
    show (s.drain.counter + 1).toNat = (c + 1) % 16
    rw [BitVec.toNat_add, h.counter]
    exact Nat.mod_add_mod c 16 1
  case fifoRead =>
    rw [hdrain]
    by_cases hc : s.drain.counter = 15#4 <;> simp [h.fifoRead, hst, hc]
  case nonempty =>
    rw [hdrain]
    by_cases hc : s.drain.counter = 15#4 <;> simp [hc]
  case writeDone =>
    rw [hdrain]
    by_cases hc : s.drain.counter = 15#4 <;> simp [hdone, hc]
  case offer =>
    rw [hdrain]
    by_cases hc : s.drain.counter = 15#4
    · have hmod := hfull.mp hc
      intro _
      omega
    · simp [hc]
  case shaEnable =>
    rw [hdrain]
    by_cases hc : s.drain.counter = 15#4
    · have hmod := hfull.mp hc
      simp [hc]
      omega
    · have hmod : ¬ c % 16 = 15 := fun heq => hc (hfull.mpr heq)
      have hdec : decide (s.drain.counter = 15) = false := decide_eq_false hc
      show (decide (s.drain.counter = 15) || s.drain.shaEnable) = _
      rw [hdec, h.shaEnable, Bool.false_or, decide_eq_decide]
      omega
  case words =>
    rw [hstream, hrest, hdrain]
    by_cases hc : s.drain.counter = 15#4 <;> simp [hc]
  case mem =>
    intro k hk hck
    rw [hdrain]
    exact h.mem_next (by rw [List.getD_eq_getElem _ _ hlt, hword]) hk hck

theorem Collecting.offer_next (h : s.Collecting M readStart target n c)
    (hs : s.Started readStart writeStart nb) (hlen : target.length = 16 * nb) (hnb : nb ≤ 16)
    (hi : Idle i) (hst : s.drain.state = .offer) :
    (s.step M i).Collecting M readStart target (s.read.left (s.readIn i) n) c := by
  obtain ⟨hleft, hstream⟩ := h.path_next hs hlen hnb hi
  have hwords := h.words
  have hdrain := hs.drain_next (M := M) hi
  rw [hst, if_neg (by simp)] at hstream
  simp only [hst, reduceCtorEq, if_false, List.nil_append] at hwords
  rw [Assembler.next_offer hst] at hdrain
  obtain ⟨hmod, hge⟩ := h.offer hst
  cases hrb : s.core.oReadBlock with
  | false =>
    simp only [hrb, Bool.false_eq_true, if_false] at hdrain
    apply h.kept hleft
    case hcounter => rw [hdrain]; exact h.counter
    case hfifoRead => rw [hdrain]; exact h.fifoRead
    case hwriteDone => rw [hdrain]; exact h.writeDone
    case hoffer => exact fun _ => ⟨hmod, hge⟩
    case hwords => simp [hdrain, hst, hstream, hwords]
    all_goals simp [hdrain, hst]
  | true =>
    simp only [hrb, if_true] at hdrain
    apply h.kept hleft
    case hcounter => simp [hdrain, hmod]
    case hfifoRead => simp [hdrain, h.fifoRead, hst]
    case hwords => simp [hdrain, hstream, hwords]
    all_goals simp [hdrain]

theorem Collecting.step (h : s.Collecting M readStart target n c)
    (hs : s.Started readStart writeStart nb) (hlen : target.length = 16 * nb) (hnb : nb ≤ 16)
    (hi : Idle i) :
    (s.step M i).Collecting M readStart target (s.read.left (s.readIn i) n) (s.storedNext c) := by
  cases hst : s.drain.state with
  | poll =>
    rw [storedNext_of_ne (by simp [hst])]
    exact h.poll_next hs hlen hnb hi hst
  | request =>
    rw [storedNext_of_ne (by simp [hst])]
    exact h.request_next hs hlen hnb hi hst
  | store =>
    rw [storedNext_of_store hst]
    exact h.store_next hs hlen hnb hi hst
  | offer =>
    rw [storedNext_of_ne (by simp [hst])]
    exact h.offer_next hs hlen hnb hi hst

/-- The assembler moves unless it polls an empty FIFO or waits for the core. -/
theorem Collecting.rank_next (h : s.Collecting M readStart target n c)
    (hs : s.Started readStart writeStart nb) (hi : Idle i) :
    (s.step M i).drain.rank (target.length - s.storedNext c) < s.drain.rank (target.length - c) ∨
      ((s.step M i).drain.rank (target.length - s.storedNext c) =
          s.drain.rank (target.length - c) ∧
        ((s.drain.state = .poll ∧ s.read.fifo.words = []) ∨
          (s.drain.state = .offer ∧ s.core.oReadBlock = false))) := by
  rw [hs.drain_next hi]
  cases hst : s.drain.state with
  | poll =>
    have hdone : s.drain.writeDone = false := by rw [h.writeDone, hst]; rfl
    rw [Assembler.next_poll hst, storedNext_of_ne (by simp [hst]), hdone]
    cases hempty : s.read.fifo.empty
    · left
      simp [Assembler.rank, hst]
    · right
      exact ⟨rfl, Or.inl ⟨rfl, by simpa [Fifo.empty] using hempty⟩⟩
  | request =>
    left
    rw [Assembler.next_request hst, storedNext_of_ne (by simp [hst])]
    simp [Assembler.rank, hst]
  | store =>
    left
    have hlt := h.store_lt hst
    rw [Assembler.next_store hst, storedNext_of_store hst]
    by_cases hc : s.drain.counter = 15
    · simp only [Assembler.rank, hc, hst, if_true]
      omega
    · simp only [Assembler.rank, hc, hst, if_false]
      omega
  | offer =>
    rw [Assembler.next_offer hst, storedNext_of_ne (by simp [hst])]
    cases hrb : s.core.oReadBlock
    · right
      exact ⟨rfl, Or.inr ⟨rfl, rfl⟩⟩
    · left
      simp [Assembler.rank, hst]

end Controller

end SocCrypto.Sha
