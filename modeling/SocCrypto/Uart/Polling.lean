import SocCrypto.Uart.Control
import SocCrypto.Uart.ReceiveFifo

/-!
# The poll loop of `main`

`main` reads `USR`, tests bit 6, reads `RDR` when it is set, sleeps 200 ms, and stops
after ten characters. A read takes one wait state, so the word of `USR` is the one
captured at the first rising edge of `SSP_SCK` within the read.
-/

namespace SocCrypto.Uart

/-! ### The pulse behind a read of `RDR` -/

namespace Re1ce

/-- `Clk` edges until the detector rests; `pls` is up at two. -/
def left (r : Re1ce) : ℕ :=
  match r.qIn, r.qSync.q2, r.qSync.q1, r.qSync.q0 with
  | true, false, _, false => 4
  | true, false, false, true => 3
  | false, true, true, true => 2
  | false, false, true, false => 1
  | false, false, false, false => 0
  | _, _, _, _ => 5

theorem left_next {r : Re1ce} (h : r.left ≤ 4) (clk din : Bool) :
    (r.next false clk din false).left = r.left - clk.toNat := by
  revert h
  rcases r with ⟨_ | _, _ | _, _ | _, _ | _⟩ <;> cases clk <;> cases din <;> decide

theorem left_next_le {r : Re1ce} (h : r.left ≤ 4) (rst clk din den : Bool) :
    (r.next rst clk din den).left ≤ 4 := by
  revert h
  rcases r with ⟨_ | _, _ | _, _ | _, _ | _⟩ <;> cases rst <;> cases clk <;> cases din <;>
    cases den <;> decide

theorem pls_eq {r : Re1ce} (h : r.left ≤ 4) : r.pls = decide (r.left = 2) := by
  revert h
  rcases r with ⟨_ | _, _ | _, _ | _, _ | _⟩ <;> decide

theorem left_zero {r : Re1ce} (h : r.left = 0) : r = clear := by
  revert h
  rcases r with ⟨_ | _, _ | _, _ | _, _ | _⟩ <;> decide

theorem left_armed (clk : Bool) : (clear.next false clk true true).left = 4 := by
  cases clk <;> rfl

/-- `den` counts at an edge of `din` only. -/
theorem next_unarmed (r : Re1ce) (rst clk din den : Bool) (h : (din && den) = false) :
    r.next rst clk din den = r.next rst clk din false := by
  cases din <;> cases den <;> first | rfl | cases h

end Re1ce

namespace SspUart

/-! ### Edges of the loop -/

/-- A write to `TDR` with the bit that clears the receive FIFO. -/
def clearsReceiver (b : Bus) : Bool := b.sspWE && b.selTDR && b.sspDI.getLsbD 10

def Reads (a : BitVec 3) (b : Bus) : Prop :=
  b.iChipSelect = true ∧ b.iRead = true ∧ b.iWrite = false ∧ b.iAddress = a

instance (a : BitVec 3) (b : Bus) : Decidable (Reads a b) :=
  inferInstanceAs (Decidable (_ ∧ _ ∧ _ ∧ _))

/-- Neither a reset nor an access that empties the FIFO. -/
structure Calm (e : Edge) : Prop where
  running : e.iRst = false
  keeps : clearsReceiver e.bus = false

/-- A calm edge that does not read `RDR`. -/
structure Passive (e : Edge) : Prop extends Calm e where
  elsewhere : e.bus.sspEn = false

instance (e : Edge) : Decidable (Passive e) :=
  decidable_of_iff ((e.iRst = false ∧ clearsReceiver e.bus = false) ∧ e.bus.sspEn = false)
    ⟨fun h => ⟨⟨h.1.1, h.1.2⟩, h.2⟩, fun h => ⟨⟨h.running, h.keeps⟩, h.elsewhere⟩⟩

theorem rfc_eq_false {e : Edge} (s : SspUart) (he : Calm e) : s.rfc e.bus = false := by
  have hkeeps := he.keeps
  unfold clearsReceiver at hkeeps
  unfold rfc weTDR
  cases hd : e.bus.sspDI.getLsbD 10 with
  | false => rfl
  | true =>
    rw [hd, Bool.and_true] at hkeeps
    rw [hkeeps]
    rfl

theorem Reads.calm {a : BitVec 3} {e : Edge} (hr : e.iRst = false) (h : Reads a e.bus) : Calm e :=
  ⟨hr, by simp [clearsReceiver, Bus.sspWE, Bus.sspWnR, h.2.2.1]⟩

theorem Reads.passive {e : Edge} (hr : e.iRst = false) (h : Reads 1 e.bus) : Passive e :=
  ⟨h.calm hr, by simp [Bus.sspEn, Bus.sspRA, h.1, h.2.1, h.2.2.2]⟩

theorem Reads.sspEn {b : Bus} (h : Reads 3 b) : b.sspEn = true := by
  simp [Bus.sspEn, Bus.sspRA, h.1, h.2.1, h.2.2.2]

theorem Reads.reRDR {b : Bus} (h : Reads 3 b) (s : SspUart) :
    s.reRDR b = (!s.en && s.rdr.getLsbD 10) := by
  have hsel : b.selRDR = true := by
    simp [Bus.selRDR, Bus.sspRA, h.1, h.2.1, h.2.2.2]
  have hwn : b.sspWnR = false := by simp [Bus.sspWnR, h.2.2.1]
  simp [SspUart.reRDR, h.sspEn, hsel, hwn]

/-! ### What arrives and what leaves -/

variable {α : Type}

/-- What `f` yields at the edges of a list, in order. -/
def gather (f : SspUart → Edge → List α) (s : SspUart) : List Edge → List α
  | [] => []
  | e :: es => f s e ++ gather f (step s e) es

theorem gather_append (f : SspUart → Edge → List α) (s : SspUart) (es fs : List Edge) :
    gather f s (es ++ fs) = gather f s es ++ gather f (run s es) fs := by
  induction es generalizing s with
  | nil => rfl
  | cons e es ih =>
    rw [List.cons_append, gather, gather, ih, List.append_assoc]
    rfl

/-- A character completed by the receiver. -/
def arrival (s : SspUart) (e : Edge) : List (BitVec 9) :=
  if e.clk && s.rcv.weRHR then [s.rcv.rd] else []

/-- A character taken off the receive FIFO. -/
def removal (s : SspUart) (e : Edge) : List (BitVec 9) :=
  if e.clk && s.rf1.rd s.red5.pls then [s.rhr] else []

/-- The receive FIFO is in order and no clear of it is under way. -/
structure Kept (s : SspUart) : Prop where
  fifo : s.rf1.Sound
  uncleared : s.red3 = Re1ce.clear
  pulse : s.red5.left ≤ 4

theorem red3_step {s : SspUart} {e : Edge} (h : s.red3 = Re1ce.clear) (he : Calm e) :
    (step s e).red3 = Re1ce.clear := by
  show s.red3.next e.iRst e.clk e.sckRise (s.rfc e.bus) = Re1ce.clear
  rw [rfc_eq_false s he, h]
  exact Re1ce.next_clear _ _ _

theorem rf1_sound_step {s : SspUart} (h : s.rf1.Sound) (e : Edge) : (step s e).rf1.Sound := by
  show (if e.clk then _ else s.rf1 : Dpsf 6 9).Sound
  split
  · exact h.next (by omega) _ _ _ _
  · exact h

theorem red5_le_step {s : SspUart} (h : s.red5.left ≤ 4) (e : Edge) : (step s e).red5.left ≤ 4 :=
  Re1ce.left_next_le h _ _ _ _

theorem Kept.step {s : SspUart} {e : Edge} (h : Kept s) (he : Calm e) : Kept (step s e) :=
  ⟨rf1_sound_step h.fifo e, red3_step h.uncleared he, red5_le_step h.pulse e⟩

theorem Kept.rf1_step {s : SspUart} {e : Edge} (h : Kept s) (he : Calm e) :
    (SspUart.step s e).rf1 =
      if e.clk then s.rf1.next false s.rcv.weRHR s.red5.pls s.rcv.rd else s.rf1 := by
  have hclear : s.red3.pls = false := by
    rw [h.uncleared]
    rfl
  show (if e.clk then s.rf1.next (e.iRst || s.red3.pls) s.rcv.weRHR s.red5.pls s.rcv.rd
    else s.rf1) = _
  rw [he.running, hclear]
  rfl

/-- One edge moves the character it removes out of the FIFO and the one it accepts in. -/
theorem Kept.held_step {s : SspUart} {e : Edge} (h : Kept s) (he : Calm e) :
    removal s e ++ (SspUart.step s e).rf1.held =
      s.rf1.held ++ (if s.rf1.ff then [] else arrival s e) := by
  unfold removal arrival
  rw [h.rf1_step he]
  cases hc : e.clk with
  | false => simp
  | true =>
    have hnext := h.fifo.held_next (by omega) s.rcv.weRHR s.red5.pls s.rcv.rd
    rw [Bool.true_and, if_pos rfl]
    refine hnext.trans ?_
    unfold Dpsf.wr
    cases s.rf1.ff <;> cases s.rcv.weRHR <;> simp

theorem Kept.run {s : SspUart} {es : List Edge} (h : Kept s) (hes : ∀ e ∈ es, Calm e) :
    Kept (run s es) := by
  induction es generalizing s with
  | nil => exact h
  | cons e es ih =>
    exact ih (h.step (hes e List.mem_cons_self)) fun f hf => hes f (List.mem_cons_of_mem e hf)

/-- The first 64 characters that arrived are the first 64 of those removed and those held:
a character is dropped behind 64 others. -/
def Accounts (s : SspUart) (arrived removed : List (BitVec 9)) : Prop :=
  (removed ++ s.rf1.held).take 64 = arrived.take 64

theorem Kept.accounts_step {s : SspUart} {e : Edge} (h : Kept s) (he : Calm e)
    {arrived removed : List (BitVec 9)} (hacc : Accounts s arrived removed) :
    Accounts (SspUart.step s e) (arrived ++ arrival s e) (removed ++ removal s e) := by
  unfold Accounts at hacc ⊢
  rw [List.append_assoc, h.held_step he, ← List.append_assoc, List.take_append, hacc]
  rw [List.take_append]
  cases hff : s.rf1.ff with
  | true =>
    rw [h.fifo.ff_eq, decide_eq_true_iff, ← Dpsf.length_held] at hff
    have hlen := congrArg List.length hacc
    rw [List.length_take, List.length_take, List.length_append, hff] at hlen
    rw [show 64 - arrived.length = 0 by omega]
    simp
  | false =>
    have hlen := congrArg List.length hacc
    rw [List.length_take, List.length_take] at hlen
    rw [show 64 - (removed ++ s.rf1.held).length = 64 - arrived.length by omega]
    rfl

theorem Kept.accounts_run {s : SspUart} {es : List Edge} (h : Kept s) (hes : ∀ e ∈ es, Calm e)
    {arrived removed : List (BitVec 9)} (hacc : Accounts s arrived removed) :
    Accounts (SspUart.run s es) (arrived ++ gather arrival s es)
      (removed ++ gather removal s es) := by
  induction es generalizing s arrived removed with
  | nil =>
    rw [gather, gather, List.append_nil, List.append_nil]
    exact hacc
  | cons e es ih =>
    have he := hes e List.mem_cons_self
    have hrest := ih (h.step he) (fun f hf => hes f (List.mem_cons_of_mem e hf))
      (h.accounts_step he hacc)
    rw [List.append_assoc, List.append_assoc] at hrest
    exact hrest

/-! ### Edges that arm no removal -/

/-- At no edge of the list is a removal armed. -/
def Silent (s : SspUart) : List Edge → Prop
  | [] => True
  | e :: es => (Calm e ∧ (e.sckRise && s.reRDR e.bus) = false) ∧ Silent (step s e) es

theorem Silent.calm {s : SspUart} {es : List Edge} (h : Silent s es) : ∀ e ∈ es, Calm e := by
  induction es generalizing s with
  | nil => exact fun e he => absurd he List.not_mem_nil
  | cons e es ih =>
    intro f hf
    rcases List.mem_cons.mp hf with rfl | hf
    · exact h.1.1
    · exact ih h.2 f hf

theorem silent_append {s : SspUart} {es fs : List Edge} (hes : Silent s es)
    (hfs : Silent (run s es) fs) : Silent s (es ++ fs) := by
  induction es generalizing s with
  | nil => exact hfs
  | cons e es ih => exact ⟨hes.1, ih hes.2 hfs⟩

theorem silent_of_passive {es : List Edge} (h : ∀ e ∈ es, Passive e) (s : SspUart) :
    Silent s es := by
  induction es generalizing s with
  | nil => exact trivial
  | cons e es ih =>
    have he := h e List.mem_cons_self
    refine ⟨⟨he.toCalm, ?_⟩, ih (fun f hf => h f (List.mem_cons_of_mem e hf)) _⟩
    simp [reRDR, he.elsewhere]

/-- What each edge lowers at `Clk` alone is lowered once for each `Clk` edge of a list. -/
theorem countdown_run (level : SspUart → ℕ) (P : SspUart → List Edge → Prop)
    (hstep : ∀ s e es, P s (e :: es) →
      level (step s e) = level s - e.clk.toNat ∧ P (step s e) es) {s : SspUart} {es : List Edge}
    (h : P s es) : level (run s es) = level s - es.countP Edge.clk := by
  induction es generalizing s with
  | nil => rfl
  | cons e es ih =>
    obtain ⟨hlevel, hrest⟩ := hstep s e es h
    have hrun := ih hrest
    rw [hlevel] at hrun
    refine hrun.trans ?_
    rw [List.countP_cons]
    cases e.clk
    · simp
    · simp
      omega

/-- The detector counts down at the `Clk` edges. -/
theorem red5_left_step {s : SspUart} {e : Edge} (hle : s.red5.left ≤ 4) (he : Calm e)
    (hs : (e.sckRise && s.reRDR e.bus) = false) :
    (step s e).red5.left = s.red5.left - e.clk.toNat := by
  show (s.red5.next e.iRst e.clk e.sckRise (s.reRDR e.bus)).left = _
  rw [Re1ce.next_unarmed _ _ _ _ _ hs, he.running]
  exact Re1ce.left_next hle _ _

theorem red5_left_run {s : SspUart} {es : List Edge} (hle : s.red5.left ≤ 4)
    (hs : Silent s es) :
    (run s es).red5.left = s.red5.left - es.countP Edge.clk := by
  refine countdown_run (fun s => s.red5.left) (fun s es => s.red5.left ≤ 4 ∧ Silent s es) ?_
    ⟨hle, hs⟩
  rintro s e es ⟨hle, hs⟩
  exact ⟨red5_left_step hle hs.1.1 hs.1.2, red5_le_step hle e, hs.2⟩

theorem removal_none {s : SspUart} {es : List Edge} (hk : Kept s) (hs : Silent s es)
    (hleft : s.red5.left ≤ 1) : gather removal s es = [] := by
  induction es generalizing s with
  | nil => rfl
  | cons e es ih =>
    have hpls : s.red5.pls = false := by
      rw [Re1ce.pls_eq hk.pulse, decide_eq_false_iff_not]
      omega
    have hleft' := red5_left_step hk.pulse hs.1.1 hs.1.2
    have hnone : removal s e = [] := by simp [removal, hpls, Dpsf.rd]
    rw [gather, hnone, List.nil_append]
    exact ih (hk.step hs.1.1) hs.2 (by omega)

/-- A detector before its pulse removes the oldest character, once. -/
theorem removal_once {s : SspUart} {es : List Edge} {c : BitVec 9} {cs : List (BitVec 9)}
    (hk : Kept s) (hs : Silent s es) (hheld : s.rf1.held = c :: cs) (hleft : 2 ≤ s.red5.left)
    (hclk : s.red5.left ≤ es.countP Edge.clk + 1) : gather removal s es = [c] := by
  induction es generalizing s cs with
  | nil => simp at hclk; omega
  | cons e es ih =>
    have hleft' := red5_left_step hk.pulse hs.1.1 hs.1.2
    have hnext := hk.held_step hs.1.1
    have hpls := Re1ce.pls_eq hk.pulse
    rw [List.countP_cons] at hclk
    by_cases hpop : e.clk = true ∧ s.red5.left = 2
    · have hef : s.rf1.ef = false := by
        rw [← Bool.not_eq_true, hk.fifo.ef_iff, hheld]
        exact List.cons_ne_nil c cs
      have hhead := Dpsf.held_head (f := s.rf1) (by rw [hheld]; exact List.cons_ne_nil c cs)
      rw [hheld, List.head?_cons, Option.some_inj] at hhead
      have hone : removal s e = [c] := by
        rw [hpop.2] at hpls
        simp [removal, hpop.1, hpls, hef, Dpsf.rd, rhr, hhead]
      rw [hpop.1, hpop.2, Bool.toNat_true] at hleft'
      rw [gather, hone, removal_none (hk.step hs.1.1) hs.2 (by omega)]
      rfl
    · have hnone : removal s e = [] := by
        rcases Bool.eq_false_or_eq_true e.clk with hc | hc
        · have hne : ¬ s.red5.left = 2 := fun h => hpop ⟨hc, h⟩
          simp [removal, hpls, hne, Dpsf.rd]
        · simp [removal, hc]
      rw [hnone, List.nil_append, hheld, List.cons_append] at hnext
      rw [gather, hnone, List.nil_append]
      refine ih (hk.step hs.1.1) hs.2 hnext ?_ ?_
      · rcases Bool.eq_false_or_eq_true e.clk with hc | hc
        · have hne : ¬ s.red5.left = 2 := fun h => hpop ⟨hc, h⟩
          rw [hc, Bool.toNat_true] at hleft'
          omega
        · rw [hc, Bool.toNat_false] at hleft'
          omega
      · rw [hleft']
        cases hc : e.clk <;> simp [hc] at hclk ⊢ <;> omega

/-! ### Before and during a read of `RDR` -/

/-- `RDR` shows the oldest character, and nothing is under way. -/
structure Shows (s : SspUart) (c : BitVec 9) : Prop where
  kept : Kept s
  rest : s.red5 = Re1ce.clear
  waits : ∃ cs, s.rf1.held = c :: cs
  fresh : s.en = false
  valid : s.rdr.getLsbD 10 = true
  shown : s.rdr.setWidth 8 = c.setWidth 8

theorem removal_rest {s : SspUart} (h : s.red5 = Re1ce.clear) (e : Edge) : removal s e = [] := by
  simp [removal, h, Re1ce.pls, Re1ce.clear, QSync.pls, QSync.clear, Dpsf.rd]

theorem red5_rest {s : SspUart} {e : Edge} (h : s.red5 = Re1ce.clear) (he : Calm e)
    (hs : (e.sckRise && s.reRDR e.bus) = false) : (step s e).red5 = Re1ce.clear := by
  refine Re1ce.left_zero ?_
  rw [red5_left_step (by rw [h]; decide) he hs, h]
  exact Nat.zero_sub _

theorem Kept.held_stays {s : SspUart} {e : Edge} {c : BitVec 9} (hk : Kept s) (he : Calm e)
    (hrest : s.red5 = Re1ce.clear) (h : ∃ cs, s.rf1.held = c :: cs) :
    ∃ cs, (SspUart.step s e).rf1.held = c :: cs := by
  obtain ⟨cs, hcs⟩ := h
  have hnext := hk.held_step he
  rw [removal_rest hrest, hcs] at hnext
  exact ⟨_, hnext⟩

theorem rdr_passive {s : SspUart} {e : Edge} (he : Passive e) (hr : e.sckRise = true) :
    (step s e).rdr = BitVec.ofBool s.trdy ++ BitVec.ofBool s.rrdy ++
      BitVec.ofBool s.tmr.rcvTimeout ++ BitVec.ofBool (s.rhr.getLsbD 8) ++ s.rhr.setWidth 8 := by
  simp [step, onRise, he.running, hr, he.elsewhere]

theorem en_rise {s : SspUart} {e : Edge} (he : e.iRst = false) (hr : e.sckRise = true) :
    (step s e).en = e.bus.sspEn := by
  simp [step, onRise, he, hr]

/-- A rising edge that does not read `RDR` captures the oldest character. -/
theorem shows_capture {s : SspUart} {e : Edge} {c : BitVec 9} (hk : Kept s)
    (hrest : s.red5 = Re1ce.clear) (hwaits : ∃ cs, s.rf1.held = c :: cs) (he : Passive e)
    (hr : e.sckRise = true) : Shows (step s e) c := by
  have hne : s.rf1.held ≠ [] := by
    obtain ⟨cs, hcs⟩ := hwaits
    rw [hcs]
    exact List.cons_ne_nil c cs
  have hhead : s.rhr = c := by
    obtain ⟨cs, hcs⟩ := hwaits
    have h := Dpsf.held_head hne
    rw [hcs, List.head?_cons, Option.some_inj] at h
    exact h.symm
  have hrrdy : s.rrdy = true := by
    have hef : ¬ s.rf1.ef = true := fun h => hne (hk.fifo.ef_iff.mp h)
    unfold rrdy
    rw [Bool.not_eq_true] at hef
    rw [hef]
    rfl
  constructor
  case kept => exact hk.step he.toCalm
  case rest => exact red5_rest hrest he.toCalm (by simp [reRDR, he.elsewhere])
  case waits => exact hk.held_stays he.toCalm hrest hwaits
  case fresh => rw [en_rise he.running hr, he.elsewhere]
  case valid =>
    rw [rdr_passive he hr, hrrdy]
    simp only [BitVec.getLsbD_append]
    rfl
  case shown =>
    rw [rdr_passive he hr, hhead]
    exact BitVec.setWidth_append_eq_right

theorem rdr_still {s : SspUart} {e : Edge} (he : e.iRst = false) (hr : e.sckRise = false) :
    (step s e).rdr = s.rdr ∧ (step s e).en = s.en := by
  simp [step, onRise, he, hr]

theorem Shows.still {s : SspUart} {e : Edge} {c : BitVec 9} (h : Shows s c) (he : Calm e)
    (hr : e.sckRise = false) : Shows (SspUart.step s e) c := by
  obtain ⟨hrdr, hen⟩ := rdr_still (s := s) he.running hr
  exact ⟨h.kept.step he, red5_rest h.rest he (by rw [hr]; rfl), h.kept.held_stays he h.rest h.waits,
    hen.trans h.fresh, by rw [hrdr]; exact h.valid, by rw [hrdr]; exact h.shown⟩

theorem Shows.step {s : SspUart} {e : Edge} {c : BitVec 9} (h : Shows s c) (he : Passive e) :
    Shows (SspUart.step s e) c := by
  cases hr : e.sckRise with
  | true => exact shows_capture h.kept h.rest h.waits he hr
  | false => exact h.still he.toCalm hr

theorem Shows.run {s : SspUart} {es : List Edge} {c : BitVec 9} (h : Shows s c)
    (hes : ∀ e ∈ es, Passive e) : Shows (SspUart.run s es) c := by
  induction es generalizing s with
  | nil => exact h
  | cons e es ih =>
    exact ih (h.step (hes e List.mem_cons_self)) fun f hf => hes f (List.mem_cons_of_mem e hf)

/-! ### The read of `RDR` -/

/-- The edges of a read of `RDR`. -/
def Reading (es : List Edge) : Prop := ∀ e ∈ es, e.iRst = false ∧ Reads 3 e.bus

instance (es : List Edge) : Decidable (Reading es) :=
  inferInstanceAs (Decidable (∀ e ∈ es, _))

theorem rdr_reading {s : SspUart} {e : Edge} (he : e.iRst = false) (h : Reads 3 e.bus) :
    (step s e).rdr = s.rdr := by
  simp [step, onRise, he, h.sspEn]

theorem rdr_reading_run {s : SspUart} {es : List Edge} (h : Reading es) :
    (run s es).rdr = s.rdr := by
  induction es generalizing s with
  | nil => rfl
  | cons e es ih =>
    have he := h e List.mem_cons_self
    exact (ih fun f hf => h f (List.mem_cons_of_mem e hf)).trans (rdr_reading he.1 he.2)

/-- Behind the first rising edge of the read `En` masks the strobe. -/
theorem silent_of_reading {s : SspUart} {es : List Edge} (h : Reading es) (hen : s.en = true) :
    Silent s es := by
  induction es generalizing s with
  | nil => exact trivial
  | cons e es ih =>
    obtain ⟨hr, hread⟩ := h e List.mem_cons_self
    refine ⟨⟨hread.calm hr, ?_⟩, ih (fun f hf => h f (List.mem_cons_of_mem e hf)) ?_⟩
    · rw [hread.reRDR, hen]
      simp
    · cases hrise : e.sckRise with
      | true => rw [en_rise hr hrise, hread.sspEn]
      | false => rw [(rdr_still hr hrise).2, hen]

theorem Shows.strobe {s : SspUart} {e : Edge} {c : BitVec 9} (h : Shows s c)
    (he : e.iRst = false) (hread : Reads 3 e.bus) (hr : e.sckRise = true) :
    (SspUart.step s e).red5.left = 4 ∧ (SspUart.step s e).en = true := by
  refine ⟨?_, by rw [en_rise he hr, hread.sspEn]⟩
  show (s.red5.next e.iRst e.clk e.sckRise (s.reRDR e.bus)).left = 4
  rw [hread.reRDR, h.fresh, h.valid, h.rest, he, hr]
  exact Re1ce.left_armed e.clk

/-- A read of `RDR` and a sleep remove the character that `RDR` shows, and no other. -/
theorem Shows.read {s : SspUart} {es sleep : List Edge} {c : BitVec 9} (h : Shows s c)
    (hes : Reading es) (hrise : ∃ e ∈ es, e.sckRise = true) (hsleep : ∀ e ∈ sleep, Passive e)
    (hclk : 4 ≤ sleep.countP Edge.clk) :
    gather removal s (es ++ sleep) = [c] ∧
      (SspUart.run s (es ++ sleep)).red5 = Re1ce.clear := by
  induction es generalizing s with
  | nil =>
    obtain ⟨e, he, -⟩ := hrise
    exact absurd he List.not_mem_nil
  | cons e es ih =>
    obtain ⟨hr, hread⟩ := hes e List.mem_cons_self
    have hes' : Reading es := fun f hf => hes f (List.mem_cons_of_mem e hf)
    have hkept := h.kept.step (hread.calm hr)
    rw [List.cons_append, gather, removal_rest h.rest, List.nil_append]
    cases hup : e.sckRise with
    | false =>
      -- still before the strobe
      obtain ⟨f, hf, hfr⟩ := hrise
      have hfes : f ∈ es := by
        rcases List.mem_cons.mp hf with rfl | hf
        · rw [hup] at hfr
          exact absurd hfr Bool.false_ne_true
        · exact hf
      exact ih (h.still (hread.calm hr) hup) hes' ⟨f, hfes, hfr⟩
    | true =>
      obtain ⟨hleft, hen⟩ := h.strobe hr hread hup
      obtain ⟨cs, hcs⟩ := h.kept.held_stays (hread.calm hr) h.rest h.waits
      have hsilent := silent_append (silent_of_reading hes' hen)
        (silent_of_passive hsleep (SspUart.run (SspUart.step s e) es))
      have hcount : 4 ≤ (es ++ sleep).countP Edge.clk := by
        rw [List.countP_append]
        omega
      constructor
      · exact removal_once hkept hsilent hcs (by omega) (by omega)
      · have hzero := red5_left_run hkept.pulse hsilent
        exact Re1ce.left_zero (hzero.trans (by omega))

end SspUart

open SspUart

/-! ### The loop -/

/-- The edges of one iteration. `gap` and `access` are those of the read of `RDR`, if the
iteration makes it; `gap` and `sleep` may hold any access that leaves `RDR` alone. -/
structure Poll where
  capture : Edge
  hold : List Edge
  gap : List Edge
  access : List Edge
  sleep : List Edge
  captures : capture.iRst = false ∧ capture.sckRise = true ∧ Reads 1 capture.bus
  holds : ∀ e ∈ hold, e.iRst = false ∧ e.sckRise = false ∧ Reads 1 e.bus
  spaced : ∀ e ∈ gap, Passive e
  reading : Reading access
  strobed : ∃ e ∈ access, e.sckRise = true
  sleeping : ∀ e ∈ sleep, Passive e
  settles : 4 ≤ sleep.countP Edge.clk

namespace Poll

def status (p : Poll) : List Edge := p.capture :: p.hold

/-- `temp & 0x40`, `temp == 0x40`. -/
def tests (p : Poll) (s : SspUart) : Bool :=
  (run s p.status).oData (readBus 1) &&& 0x40 == 0x40

/-- `*((uint32_t*)ssp_uart + 3) & 0x7F` as a `char`. -/
def char (p : Poll) (s : SspUart) : BitVec 8 :=
  ((run s (p.status ++ (p.gap ++ p.access))).oData (readBus 3) &&& 0x7F).setWidth 8

def edges (p : Poll) (s : SspUart) : List Edge :=
  p.status ++ (if p.tests s then p.gap ++ (p.access ++ p.sleep) else p.sleep)

end Poll

/-- The device, and the characters the program has printed: `count` is their number. -/
structure Loop where
  device : SspUart
  chars : List (BitVec 8)

/-- A power-up, a reset, any use of the device, and the start of the UART section of `main`,
which clears the transmitter and writes to it; then the polls. -/
structure Session where
  powerUp : SspUart
  reset : Edge
  earlier : List Edge
  prepare : List Edge
  polls : ℕ → Poll
  resets : reset.iRst = true ∧ reset.clk = true
  prepared : ∀ e ∈ prepare, Passive e
  settles : 4 ≤ prepare.countP Edge.clk

namespace Session

def start (σ : Session) : SspUart := run (step σ.powerUp σ.reset) (σ.earlier ++ σ.prepare)

/-- The loop after `k` iterations, or as many as it makes. -/
def loop (σ : Session) : ℕ → Loop
  | 0 => ⟨σ.start, []⟩
  | k + 1 =>
    let l := σ.loop k
    if l.chars.length = 10 then l
    else
      { device := run l.device ((σ.polls k).edges l.device)
        chars := if (σ.polls k).tests l.device then l.chars ++ [(σ.polls k).char l.device]
          else l.chars }

def device (σ : Session) (k : ℕ) : SspUart := (σ.loop k).device

def chars (σ : Session) (k : ℕ) : List (BitVec 8) := (σ.loop k).chars

def pass (σ : Session) (k : ℕ) : List Edge :=
  if (σ.chars k).length = 10 then [] else (σ.polls k).edges (σ.device k)

def tests (σ : Session) (k : ℕ) : Bool := (σ.polls k).tests (σ.device k)

/-- The characters the receiver has completed, those that wait at the start first. -/
def arrived (σ : Session) : ℕ → List (BitVec 9)
  | 0 => σ.start.rf1.held
  | k + 1 => σ.arrived k ++ gather arrival (σ.device k) (σ.pass k)

/-- The characters that have left the receive FIFO. -/
def removed (σ : Session) : ℕ → List (BitVec 9)
  | 0 => []
  | k + 1 => σ.removed k ++ gather removal (σ.device k) (σ.pass k)

end Session

/-- The seven bits of a received character that `main` keeps. -/
def charOf (c : BitVec 9) : BitVec 8 := c.setWidth 8 &&& 0x7F

/-- Every iteration that finds a character removes exactly one, and the loop collects the
first ten that arrive, in order. -/
structure NeverLeftBehind (σ : Session) : Prop where
  removes : ∀ k, (σ.chars k).length < 10 → (σ.device k).rf1.held ≠ [] →
    σ.tests k = true ∧ (gather removal (σ.device k) (σ.pass k)).length = 1
  collects : ∀ k, 10 ≤ (σ.arrived k).length →
    ∃ m, σ.chars m = ((σ.arrived k).take 10).map charOf

/-! ### One iteration -/

namespace Poll

theorem status_passive (p : Poll) : ∀ e ∈ p.status, Passive e := by
  intro e he
  rcases List.mem_cons.mp he with rfl | he
  · exact p.captures.2.2.passive p.captures.1
  · exact (p.holds e he).2.2.passive (p.holds e he).1

/-- The word that is tested is the status of the state in which the poll finds the device. -/
theorem usr_status (p : Poll) (s : SspUart) :
    (run s p.status).usr = s.status p.capture.lines := by
  have hhold : ∀ t es, (∀ e ∈ es, e.iRst = false ∧ e.sckRise = false ∧ Reads 1 e.bus) →
      (run t es).usr = t.usr := by
    intro t es h
    induction es generalizing t with
    | nil => rfl
    | cons e es ih =>
      obtain ⟨hr, hrise, -⟩ := h e List.mem_cons_self
      refine (ih (step t e) fun f hf => h f (List.mem_cons_of_mem e hf)).trans ?_
      simp [step, onRise, hr, hrise]
  refine (hhold (step s p.capture) p.hold p.holds).trans ?_
  simp [step, onRise, p.captures.1, p.captures.2.1]

theorem oData_status (s : SspUart) :
    (s.oData (readBus 1) &&& 0x40 == 0x40) = s.usr.getLsbD 6 := by
  have hbit : (s.oData (readBus 1)).getLsbD 6 = s.usr.getLsbD 6 := by
    show (0#16 ++ 1#1 ++ 0#1 ++ 0#1 ++ 1#1 ++ s.usr : BitVec 32).getLsbD 6 = _
    rw [BitVec.getLsbD_append, if_pos (by omega)]
  have hmask : (0x40 : BitVec 32) = BitVec.twoPow 32 6 := by decide
  rw [hmask, BitVec.and_twoPow, hbit]
  cases s.usr.getLsbD 6 <;> decide

theorem oData_char (s : SspUart) :
    (s.oData (readBus 3) &&& 0x7F).setWidth 8 = s.rdr.setWidth 8 &&& 0x7F := by
  have hlow : (s.oData (readBus 3)).setWidth 8 = s.rdr.setWidth 8 := by
    show (0#16 ++ 1#1 ++ 1#1 ++ 0#1 ++ 1#1 ++ s.rdr : BitVec 32).setWidth 8 = _
    rw [BitVec.setWidth_append, dif_pos (by omega)]
  rw [BitVec.setWidth_and, hlow]
  rfl

/-- Bit 6 misses the FIFO from half full to one short of full. -/
theorem tests_eq (p : Poll) {s : SspUart} (hk : Kept s) :
    p.tests s = decide (0 < s.rf1.occupancy ∧ (s.rf1.occupancy < 32 ∨ s.rf1.occupancy = 64)) := by
  unfold tests
  rw [oData_status, p.usr_status, status_bit, rs_low s hk.fifo]

theorem Reading.calm {es : List Edge} (h : Reading es) : ∀ e ∈ es, Calm e :=
  fun e he => (h e he).2.calm (h e he).1

theorem edges_calm (p : Poll) (s : SspUart) : ∀ e ∈ p.edges s, Calm e := by
  intro e he
  unfold edges at he
  rcases List.mem_append.mp he with he | he
  · exact (p.status_passive e he).toCalm
  · split at he
    · rcases List.mem_append.mp he with he | he
      · exact (p.spaced e he).toCalm
      · rcases List.mem_append.mp he with he | he
        · exact Reading.calm p.reading e he
        · exact (p.sleeping e he).toCalm
    · exact (p.sleeping e he).toCalm

theorem passes (p : Poll) {s : SspUart} (hk : Kept s) (hrest : s.red5 = Re1ce.clear)
    (ht : p.tests s = false) :
    gather removal s (p.edges s) = [] ∧ (run s (p.edges s)).red5 = Re1ce.clear := by
  have hedges : p.edges s = p.status ++ p.sleep := by simp [edges, ht]
  have hpassive : ∀ e ∈ p.edges s, Passive e := by
    intro e he
    rw [hedges] at he
    rcases List.mem_append.mp he with he | he
    · exact p.status_passive e he
    · exact p.sleeping e he
  have hsilent := silent_of_passive hpassive s
  have hleft : s.red5.left = 0 := by
    rw [hrest]
    rfl
  refine ⟨removal_none hk hsilent (by omega), Re1ce.left_zero ?_⟩
  rw [red5_left_run hk.pulse hsilent, hleft, Nat.zero_sub]

theorem takes (p : Poll) {s : SspUart} (hk : Kept s) (hrest : s.red5 = Re1ce.clear)
    {c : BitVec 9} {cs : List (BitVec 9)} (hheld : s.rf1.held = c :: cs)
    (ht : p.tests s = true) :
    gather removal s (p.edges s) = [c] ∧ (run s (p.edges s)).red5 = Re1ce.clear ∧
      p.char s = charOf c := by
  have hedges : p.edges s = p.status ++ p.gap ++ (p.access ++ p.sleep) := by
    simp [edges, ht]
  have hbefore : ∀ e ∈ p.status ++ p.gap, Passive e := by
    intro e he
    rcases List.mem_append.mp he with he | he
    · exact p.status_passive e he
    · exact p.spaced e he
  have hshows : Shows (run s (p.status ++ p.gap)) c := by
    have hfirst := shows_capture hk hrest ⟨cs, hheld⟩
      (p.captures.2.2.passive p.captures.1) p.captures.2.1
    exact hfirst.run fun e he => hbefore e (List.mem_cons_of_mem _ he)
  have hquiet : gather removal s (p.status ++ p.gap) = [] := by
    refine removal_none hk (silent_of_passive hbefore s) ?_
    rw [hrest]
    decide
  obtain ⟨hone, hrest'⟩ := hshows.read p.reading p.strobed p.sleeping p.settles
  refine ⟨?_, ?_, ?_⟩
  · rw [hedges, gather_append, hquiet, hone, List.nil_append]
  · rw [hedges, run_append]
    exact hrest'
  · unfold char charOf
    rw [oData_char, ← List.append_assoc, run_append, rdr_reading_run p.reading, hshows.shown]

end Poll

/-! ### The start of the loop -/

namespace SspUart

/-- What every state behind a reset keeps, whatever the bus does. -/
structure InOrder (s : SspUart) : Prop where
  fifo : s.rf1.Sound
  clear : s.red3.left ≤ 4
  pulse : s.red5.left ≤ 4

theorem inOrder_reset (s : SspUart) {e : Edge} (h : e.iRst = true ∧ e.clk = true) :
    InOrder (step s e) := by
  have hfifo : (step s e).rf1 = s.rf1.next true s.rcv.weRHR s.red5.pls s.rcv.rd := by
    simp [step, h.1, h.2]
  have hclear : (step s e).red3 = s.red3.next true e.clk e.sckRise (s.rfc e.bus) := by
    simp [step, h.1]
  have hpulse : (step s e).red5 = s.red5.next true e.clk e.sckRise (s.reRDR e.bus) := by
    simp [step, h.1]
  constructor
  case fifo =>
    rw [hfifo]
    exact (Dpsf.Sound.reset _ _ _ _).1
  case clear =>
    rw [hclear, Re1ce.next_reset]
    decide
  case pulse =>
    rw [hpulse, Re1ce.next_reset]
    decide

theorem InOrder.run {s : SspUart} (h : InOrder s) (es : List Edge) : InOrder (run s es) := by
  induction es generalizing s with
  | nil => exact h
  | cons e es ih =>
    exact ih ⟨rf1_sound_step h.fifo e, Re1ce.left_next_le h.clear _ _ _ _,
      red5_le_step h.pulse e⟩

theorem red3_left_run {s : SspUart} {es : List Edge} (hle : s.red3.left ≤ 4)
    (hes : ∀ e ∈ es, Calm e) :
    (SspUart.run s es).red3.left = s.red3.left - es.countP Edge.clk := by
  refine countdown_run (fun s => s.red3.left)
    (fun s es => s.red3.left ≤ 4 ∧ ∀ e ∈ es, Calm e) ?_ ⟨hle, hes⟩
  rintro s e es ⟨hle, hes⟩
  have he := hes e List.mem_cons_self
  have hstep : (step s e).red3.left = s.red3.left - e.clk.toNat := by
    show (s.red3.next e.iRst e.clk e.sckRise (s.rfc e.bus)).left = _
    rw [rfc_eq_false s he, he.running]
    exact Re1ce.left_next hle _ _
  exact ⟨hstep, by rw [hstep]; omega, fun f hf => hes f (List.mem_cons_of_mem e hf)⟩

/-- Four `Clk` edges without a strobe let both detectors come to rest. -/
theorem InOrder.settle {s : SspUart} {es : List Edge} (h : InOrder s)
    (hes : ∀ e ∈ es, Passive e) (hclk : 4 ≤ es.countP Edge.clk) :
    Kept (SspUart.run s es) ∧ (SspUart.run s es).red5 = Re1ce.clear := by
  have hclear := red3_left_run h.clear fun e he => (hes e he).toCalm
  have hpulse := red5_left_run h.pulse (silent_of_passive hes s)
  have hbefore := h.clear
  have hbefore' := h.pulse
  have hfinal := h.run es
  exact ⟨⟨hfinal.fifo, Re1ce.left_zero (by omega), hfinal.pulse⟩, Re1ce.left_zero (by omega)⟩

end SspUart

/-! ### The whole loop -/

namespace Session

theorem start_settled (σ : Session) : Kept σ.start ∧ σ.start.red5 = Re1ce.clear := by
  unfold start
  rw [run_append]
  exact ((inOrder_reset σ.powerUp σ.resets).run σ.earlier).settle σ.prepared σ.settles

theorem device_succ (σ : Session) (k : ℕ) :
    σ.device (k + 1) = run (σ.device k) (σ.pass k) := by
  unfold device pass
  rw [loop]
  by_cases h : (σ.loop k).chars.length = 10
  · simp [chars, h]
  · simp [chars, h, device]

theorem chars_done (σ : Session) {k : ℕ} (h : (σ.chars k).length = 10) :
    σ.chars (k + 1) = σ.chars k := by
  unfold chars at h ⊢
  rw [loop]
  simp [h]

theorem chars_succ (σ : Session) {k : ℕ} (h : (σ.chars k).length ≠ 10) :
    σ.chars (k + 1) =
      if σ.tests k then σ.chars k ++ [(σ.polls k).char (σ.device k)] else σ.chars k := by
  unfold chars at h ⊢
  rw [loop, if_neg h]
  rfl

/-- What holds at the start of every iteration. -/
structure Follows (σ : Session) (k : ℕ) : Prop where
  kept : Kept (σ.device k)
  rest : (σ.device k).red5 = Re1ce.clear
  accounts : Accounts (σ.device k) (σ.arrived k) (σ.removed k)
  printed : σ.chars k = (σ.removed k).map charOf
  bound : (σ.chars k).length ≤ 10

theorem Follows.length {σ : Session} {k : ℕ} (h : Follows σ k) :
    (σ.removed k).length = (σ.chars k).length := by
  rw [h.printed, List.length_map]

theorem follows_start (σ : Session) : Follows σ 0 :=
  ⟨σ.start_settled.1, σ.start_settled.2, rfl, rfl, by simp [chars, loop]⟩

theorem tests_eq (σ : Session) {k : ℕ} (h : Follows σ k) :
    σ.tests k = decide (0 < (σ.device k).rf1.occupancy ∧
      ((σ.device k).rf1.occupancy < 32 ∨ (σ.device k).rf1.occupancy = 64)) :=
  (σ.polls k).tests_eq h.kept

/-- One iteration: a character leaves the FIFO for the program, or none does. -/
theorem Follows.iteration {σ : Session} {k : ℕ} (h : Follows σ k)
    (hgoing : (σ.chars k).length ≠ 10) :
    (σ.device (k + 1)).red5 = Re1ce.clear ∧
      if σ.tests k then
        ∃ c, gather removal (σ.device k) (σ.pass k) = [c] ∧
          σ.chars (k + 1) = σ.chars k ++ [charOf c]
      else
        gather removal (σ.device k) (σ.pass k) = [] ∧ σ.chars (k + 1) = σ.chars k := by
  have hpass : σ.pass k = (σ.polls k).edges (σ.device k) := if_neg hgoing
  rw [device_succ, hpass, σ.chars_succ hgoing]
  cases ht : σ.tests k with
  | false =>
    obtain ⟨hnone, hrest⟩ := (σ.polls k).passes h.kept h.rest ht
    exact ⟨hrest, hnone, rfl⟩
  | true =>
    have hpos := ht
    rw [σ.tests_eq h, decide_eq_true_iff, ← Dpsf.length_held] at hpos
    obtain ⟨c, cs, hheld⟩ := List.exists_cons_of_length_pos hpos.1
    obtain ⟨hone, hrest, hchar⟩ := (σ.polls k).takes h.kept h.rest hheld ht
    exact ⟨hrest, c, hone, by rw [if_pos rfl, hchar]⟩

theorem Follows.succ {σ : Session} {k : ℕ} (h : Follows σ k) : Follows σ (k + 1) := by
  by_cases hgoing : (σ.chars k).length = 10
  · have hpass : σ.pass k = [] := if_pos hgoing
    have hdevice : σ.device (k + 1) = σ.device k := by
      rw [device_succ, hpass]
      rfl
    have harrived : σ.arrived (k + 1) = σ.arrived k := by
      rw [arrived, hpass, gather, List.append_nil]
    have hremoved : σ.removed (k + 1) = σ.removed k := by
      rw [removed, hpass, gather, List.append_nil]
    have hchars := σ.chars_done hgoing
    constructor
    case kept => rw [hdevice]; exact h.kept
    case rest => rw [hdevice]; exact h.rest
    case accounts => rw [hdevice, harrived, hremoved]; exact h.accounts
    case printed => rw [hchars, hremoved]; exact h.printed
    case bound => rw [hchars]; exact h.bound
  · have hcalm : ∀ e ∈ σ.pass k, Calm e := by
      intro e he
      rw [pass, if_neg hgoing] at he
      exact (σ.polls k).edges_calm _ e he
    have hbound := h.bound
    obtain ⟨hrest, hout⟩ := h.iteration hgoing
    have hprinted : σ.chars (k + 1) = (σ.removed (k + 1)).map charOf ∧
        (σ.chars (k + 1)).length ≤ 10 := by
      rw [removed, List.map_append, ← h.printed]
      cases ht : σ.tests k with
      | false =>
        rw [ht] at hout
        obtain ⟨hnone, hchars⟩ := hout
        rw [hnone, hchars]
        exact ⟨by simp, hbound⟩
      | true =>
        rw [ht] at hout
        obtain ⟨c, hone, hchars⟩ := hout
        rw [hone, hchars]
        refine ⟨rfl, ?_⟩
        rw [List.length_append, List.length_singleton]
        omega
    constructor
    case kept =>
      rw [device_succ]
      exact h.kept.run hcalm
    case rest => exact hrest
    case accounts =>
      rw [device_succ]
      exact h.kept.accounts_run hcalm h.accounts
    case printed => exact hprinted.1
    case bound => exact hprinted.2

theorem follows (σ : Session) (k : ℕ) : Follows σ k := by
  induction k with
  | zero => exact σ.follows_start
  | succ k ih => exact ih.succ

/-- The FIFO levels at which bit 6 hides the characters. -/
def Hidden (s : SspUart) : Prop := 32 ≤ s.rf1.occupancy ∧ s.rf1.occupancy < 64

/-- A poll that finds characters at a level that bit 6 shows takes one. -/
theorem takes_one (σ : Session) {k : ℕ} (hgoing : (σ.chars k).length < 10)
    (hheld : (σ.device k).rf1.held ≠ []) (hshown : ¬ Hidden (σ.device k)) :
    σ.tests k = true ∧ (gather removal (σ.device k) (σ.pass k)).length = 1 ∧
      (σ.chars (k + 1)).length = (σ.chars k).length + 1 := by
  have h := σ.follows k
  have hle := h.kept.fifo.occupancy_le
  have hpos := List.length_pos_iff.mpr hheld
  rw [Dpsf.length_held] at hpos
  have ht : σ.tests k = true := by
    rw [σ.tests_eq h, decide_eq_true_iff]
    unfold Hidden at hshown
    omega
  obtain ⟨-, hout⟩ := h.iteration (by omega)
  rw [ht] at hout
  obtain ⟨c, hone, hchars⟩ := hout
  rw [hone, hchars]
  exact ⟨ht, rfl, by rw [List.length_append, List.length_singleton]⟩

theorem arrived_prefix (σ : Session) (k j : ℕ) : σ.arrived k <+: σ.arrived (k + j) := by
  induction j with
  | zero => exact List.prefix_refl _
  | succ j ih => exact ih.trans (List.prefix_append _ _)

/-- With ten characters arrived and no level hidden, every poll brings one. -/
theorem reaches_ten (σ : Session) {k : ℕ} (harrived : 10 ≤ (σ.arrived k).length)
    (hshown : ∀ k, (σ.chars k).length < 10 → ¬ Hidden (σ.device k)) (j : ℕ) :
    min 10 j ≤ (σ.chars (k + j)).length := by
  induction j with
  | zero => omega
  | succ j ih =>
    have h := σ.follows (k + j)
    have hbound := h.bound
    by_cases hgoing : (σ.chars (k + j)).length = 10
    · have hdone := σ.chars_done hgoing
      rw [← Nat.add_assoc, hdone]
      omega
    · have hheld : (σ.device (k + j)).rf1.held ≠ [] := by
        intro hnil
        have hacc := congrArg List.length h.accounts
        have hmore := (σ.arrived_prefix k j).length_le
        rw [hnil, List.append_nil, List.length_take, List.length_take, h.length] at hacc
        omega
      have hone := (σ.takes_one (by omega) hheld (hshown _ (by omega))).2.2
      rw [← Nat.add_assoc, hone]
      omega

theorem first_ten (σ : Session) {k m : ℕ} (hk : 10 ≤ (σ.arrived k).length) (hkm : k ≤ m)
    (hm : (σ.chars m).length = 10) : σ.chars m = ((σ.arrived k).take 10).map charOf := by
  obtain ⟨j, rfl⟩ := Nat.exists_eq_add_of_le hkm
  have h := σ.follows (k + j)
  have hremoved := h.length
  obtain ⟨later, hlater⟩ := σ.arrived_prefix k j
  have hten := congrArg (List.take 10) h.accounts
  rw [List.take_take, List.take_take, ← hlater, Nat.min_eq_left (by omega),
    List.take_append_of_le_length (by omega), List.take_append_of_le_length hk,
    List.take_of_length_le (by omega)] at hten
  rw [h.printed, hten]

end Session

/-- The two halves of the loop's contract hold together as long as no poll finds the FIFO at
a hidden level. -/
theorem neverLeftBehind_of_shown (σ : Session)
    (hshown : ∀ k, (σ.chars k).length < 10 → ¬ Session.Hidden (σ.device k)) :
    NeverLeftBehind σ where
  removes k hgoing hheld :=
    ⟨(σ.takes_one hgoing hheld (hshown k hgoing)).1,
      (σ.takes_one hgoing hheld (hshown k hgoing)).2.1⟩
  collects k hk := by
    have hten := σ.reaches_ten hk hshown 10
    have hbound := (σ.follows (k + 10)).bound
    exact ⟨k + 10, σ.first_ten hk (by omega) (by omega)⟩

theorem shown_of_neverLeftBehind {σ : Session} (h : NeverLeftBehind σ) {k : ℕ}
    (hgoing : (σ.chars k).length < 10) : ¬ Session.Hidden (σ.device k) := by
  intro hhidden
  have hheld : (σ.device k).rf1.held ≠ [] := by
    rw [← List.length_pos_iff, Dpsf.length_held]
    unfold Session.Hidden at hhidden
    omega
  have ht := (h.removes k hgoing hheld).1
  rw [σ.tests_eq (σ.follows k), decide_eq_true_iff] at ht
  unfold Session.Hidden at hhidden
  omega

/-- The loop leaves no character behind if and only if no poll finds the receive FIFO half
full or more and not full. -/
theorem polling_complete_iff (σ : Session) :
    NeverLeftBehind σ ↔
      ∀ k, (σ.chars k).length < 10 →
        ¬ (32 ≤ (σ.device k).rf1.occupancy ∧ (σ.device k).rf1.occupancy < 64) := by
  constructor
  · exact fun h k hgoing => shown_of_neverLeftBehind h hgoing
  · exact neverLeftBehind_of_shown σ

end SocCrypto.Uart
