import SocCrypto.Aes.KeyLoad

/-!
# What `RESET` leaves behind in the AES engine

A job is performed whatever the source and the bus exactly when the engine is clean at its start:
anything left makes the first write wrong for some source, stops the write master early, or
leaves it waiting for a bus that it does not ask.
-/

namespace SocCrypto.Aes
open AesFunction (Block)
open Clocked
open Dma (addresses)
open Soft (ecb blockAt)

/-! ### The write master at work -/

namespace WriteMaster

/-- The master has left `IDLE` and its request is up in `STEP_5`. -/
structure AtWork (m : WriteMaster) : Prop where
  state : m.rStateDMAWM ≠ .IDLE
  write : m.oWMWrite = decide (m.rStateDMAWM = .STEP_5)

theorem AtWork.next {m : WriteMaster} (h : m.AtWork) (startAddr LENGTH : Word) (empty : Bool)
    (q : Word) (wait : Bool) :
    let m' := m.next false startAddr LENGTH empty q wait
    m'.AtWork ∧ m'.rWMLastaddr = m.rWMLastaddr ∧
      m'.oWMWraddr = (if m.accepts wait then m.oWMWraddr + 4 else m.oWMWraddr) ∧
      (m.rStateDMAWM = .STOP → m.oWMWraddr = m.rWMLastaddr → m'.rStateDMAWM = .STOP) ∧
      (m.accepts wait = true → m'.rStateDMAWM = .STOP) ∧
      (m'.rStateDMAWM = .STOP → m.accepts wait = true ∨ m.oWMWraddr = m.rWMLastaddr) := by
  obtain ⟨hstate, hwrite⟩ := h
  obtain ⟨state, write, addr, data, last, done, read⟩ := m
  cases state with
  | IDLE => exact absurd rfl hstate
  | STEP_1 =>
    obtain rfl : write = false := hwrite
    cases empty <;> refine ⟨⟨?_, rfl⟩, rfl, rfl, ?_, ?_, ?_⟩ <;> intro hno <;> cases hno
  | STEP_2 | STEP_3 | STEP_4 =>
    obtain rfl : write = false := hwrite
    refine ⟨⟨?_, rfl⟩, rfl, rfl, ?_, ?_, ?_⟩ <;> intro hno <;> cases hno
  | STEP_5 =>
    obtain rfl : write = true := hwrite
    cases wait with
    | false =>
      refine ⟨⟨?_, rfl⟩, rfl, rfl, ?_, fun _ => rfl, fun _ => Or.inl rfl⟩ <;> intro hno <;> cases hno
    | true => refine ⟨⟨?_, rfl⟩, rfl, rfl, ?_, ?_, ?_⟩ <;> intro hno <;> cases hno
  | STOP =>
    obtain rfl : write = false := hwrite
    by_cases hend : addr = last
    · have hnext : WriteMaster.next ⟨.STOP, false, addr, data, last, done, read⟩ false startAddr
          LENGTH empty q wait = ⟨.STOP, false, addr, data, last, true, read⟩ := by
        simp [WriteMaster.next, hend]
      rw [hnext]
      refine ⟨⟨?_, rfl⟩, rfl, rfl, fun _ _ => rfl, ?_, fun _ => Or.inr hend⟩ <;> intro hno <;> cases hno
    · have hnext : WriteMaster.next ⟨.STOP, false, addr, data, last, done, read⟩ false startAddr
          LENGTH empty q wait = ⟨.STEP_1, false, addr, data, last, done, read⟩ := by
        simp [WriteMaster.next, hend]
      rw [hnext]
      refine ⟨⟨?_, rfl⟩, rfl, rfl, fun _ heq => absurd heq hend, ?_, ?_⟩ <;> intro hno <;> cases hno

end WriteMaster

namespace System

/-! ### Free runs -/

/-- Memory answers and the bus accepts at once. -/
def In.serve : In := ⟨false, false, 0, 0, false, true, false⟩

/-- The same, but for writes. -/
def In.hold : In := ⟨false, false, 0, 0, false, true, true⟩

theorem harmless_serve : In.serve.Harmless := by
  decide

theorem harmless_hold : In.hold.Harmless := by
  decide

theorem serves_serve (M : Word → Word) (s : System) : Serves M s fun _ => In.serve :=
  ⟨fun t => ⟨t, le_rfl, fun _ => rfl⟩, fun t => ⟨t, le_rfl, fun _ => rfl⟩,
    fun t => ⟨t, le_rfl, fun _ => rfl⟩⟩

section
variable {M : Word → Word} {f : Block → Block} {rmAddr wmAddr D : Word} {n total : ℕ} {s : System}
  {i : ℕ → In}

theorem writes_invariant {P : List (Word × Word) → System → Prop}
    (hprogrammed : s.qsys.Programmed rmAddr wmAddr total) (hi : ∀ t, (i t).Harmless)
    (hstep : ∀ w s t, s.qsys.Programmed rmAddr wmAddr total → P w s →
      P (w ++ s.accepted (i t)) (s.next M (i t))) (hs : P [] s) (t : ℕ) :
    (run (next M) s i t).qsys.Programmed rmAddr wmAddr total ∧
      P (writes M s i t) (run (next M) s i t) := by
  induction t with
  | zero => exact ⟨hprogrammed, hs⟩
  | succ t ih => exact ⟨Programmed_next ih.1 (hi t) M, hstep _ _ t ih.1 ih.2⟩

/-! ### The first write -/

theorem result_head (hpos : 0 < n) : (result f M rmAddr wmAddr n).head? =
    some (wmAddr, (f (blockAt (fun k => M (rmAddr + BitVec.ofNat 32 (4 * k))) 0)).w1) := by
  obtain ⟨k, rfl⟩ : ∃ k, n = k + 1 := ⟨n - 1, by omega⟩
  rw [result, show 4 * (k + 1) = 4 * k + 3 + 1 by omega, List.range_succ_eq_map, List.map_cons,
    List.head?_cons]
  simp only [Nat.mul_zero, BitVec.add_zero]
  rfl

theorem exists_source (rmAddr : Word) (b : Block) :
    ∃ M : Word → Word, blockAt (fun k => M (rmAddr + BitVec.ofNat 32 (4 * k))) 0 = b := by
  refine ⟨fun a => if a = rmAddr then b.w1 else if a = rmAddr + 4 then b.w2
    else if a = rmAddr + 8 then b.w3 else b.w4, ?_⟩
  simp [blockAt]

/-- Some source is enciphered to another first word. -/
theorem exists_other (hsurj : Function.Surjective f) (rmAddr D : Word) :
    ∃ M : Word → Word,
      (f (blockAt (fun k => M (rmAddr + BitVec.ofNat 32 (4 * k))) 0)).w1 ≠ D := by
  obtain ⟨b, hb⟩ := hsurj ⟨D + 1, 0, 0, 0⟩
  obtain ⟨M, hM⟩ := exists_source rmAddr b
  refine ⟨M, ?_⟩
  rw [hM, hb]
  simp

/-- A master at work makes its first write where it stands. -/
theorem head_place (hprogrammed : s.qsys.Programmed rmAddr wmAddr total)
    (hi : ∀ t, (i t).Harmless) (hwm : s.qsys.wm.AtWork) (t : ℕ) (w : Word × Word)
    (hw : (writes M s i t).head? = some w) : w.1 = s.qsys.wm.oWMWraddr := by
  have hrun := writes_invariant (M := M) (i := i)
    (P := fun l u => u.qsys.wm.AtWork ∧ (l = [] → u.qsys.wm.oWMWraddr = s.qsys.wm.oWMWraddr) ∧
      ∀ w, l.head? = some w → w.1 = s.qsys.wm.oWMWraddr)
    hprogrammed hi (fun l u t hu hP => ?_) ⟨hwm, fun _ => rfl, nofun⟩ t
  · exact hrun.2.2.2 w hw
  · obtain ⟨hwork, hplace, hhead⟩ := hP
    obtain ⟨hwork', -, haddr, -⟩ := hwork.next wmAddr (BitVec.ofNat 32 (4 * total))
      u.qsys.aesFifo.fifoOut.words.isEmpty u.qsys.aesFifo.fifoOut.q (i t).wmWait
    rw [← wm_next hu M (i t)] at hwork' haddr
    refine ⟨hwork', fun hnil => ?_, fun w hw => ?_⟩
    · obtain ⟨hl, hnone⟩ := List.append_eq_nil_iff.mp hnil
      rw [haddr, hplace hl, if_neg]
      intro hnow
      rw [accepted, hnow] at hnone
      cases hnone
    · rcases l with _ | ⟨a, l⟩
      · rw [List.nil_append, accepted] at hw
        cases hnow : u.qsys.wm.accepts (i t).wmWait
        · rw [hnow] at hw
          cases hw
        · rw [hnow, if_pos rfl, List.head?_cons, Option.some_inj] at hw
          rw [← hw]
          exact hplace rfl
      · exact hhead w hw

/-- The master has a word already, or will take the one that stands at the FIFO. -/
def Loaded (D : Word) (s : System) : Prop :=
  (s.qsys.wm.rStateDMAWM = .STEP_2 ∧ s.qsys.aesFifo.fifoOut.words = [] ∧
      s.qsys.aesFifo.fifoOut.q = D) ∨
    (s.qsys.wm.rStateDMAWM = .STEP_3 ∧ s.qsys.aesFifo.fifoOut.q = D) ∨
      ((s.qsys.wm.rStateDMAWM = .STEP_4 ∨ s.qsys.wm.rStateDMAWM = .STEP_5) ∧
        s.qsys.wm.oWMWrdata = D)

theorem Loaded.next (h : s.Loaded D) (hprogrammed : s.qsys.Programmed rmAddr wmAddr total)
    (hwm : s.qsys.wm.AtWork) (M : Word → Word) {j : In} (hnone : s.qsys.wm.accepts j.wmWait = false) :
    (s.next M j).Loaded D := by
  have hq : (s.next M j).qsys.aesFifo.fifoOut.q =
      if s.qsys.wm.rReadFifoOut then s.qsys.aesFifo.fifoOut.words.headD s.qsys.aesFifo.fifoOut.q
      else s.qsys.aesFifo.fifoOut.q := by
    show (s.qsys.aesFifo.fifoOut.next s.qsys.resetBit _ _ _).q = _
    rw [hprogrammed.resetBit]
    rfl
  have hnext := wm_next hprogrammed M j
  rcases h with ⟨hs, hempty, hD⟩ | ⟨hs, hD⟩ | ⟨hs | hs, hD⟩
  · refine Or.inr (Or.inl ⟨?_, ?_⟩)
    · rw [hnext, WriteMaster.next, hs]
    · rw [hq, hempty, List.headD_nil, ite_self, hD]
  · refine Or.inr (Or.inr ⟨Or.inl ?_, ?_⟩)
    · rw [hnext, WriteMaster.next, hs]
    · rw [hnext, WriteMaster.next, hs]
      exact hD
  · refine Or.inr (Or.inr ⟨Or.inr ?_, ?_⟩)
    · rw [hnext, WriteMaster.next, hs]
    · rw [hnext, WriteMaster.next, hs]
      exact hD
  · rw [WriteMaster.accepts, hwm.write, hs, decide_eq_true rfl, Bool.true_and,
      Bool.not_eq_false'] at hnone
    refine Or.inr (Or.inr ⟨Or.inr ?_, ?_⟩)
    · rw [hnext, WriteMaster.next, hs, hnone]
      rfl
    · rw [hnext, WriteMaster.next, hs, hnone]
      exact hD

theorem head_word (hprogrammed : s.qsys.Programmed rmAddr wmAddr total)
    (hi : ∀ t, (i t).Harmless) (hwm : s.qsys.wm.AtWork) (hloaded : s.Loaded D) (t : ℕ)
    (w : Word × Word) (hw : (writes M s i t).head? = some w) : w.2 = D := by
  have hrun := writes_invariant (M := M) (i := i)
    (P := fun l u => u.qsys.wm.AtWork ∧ (l = [] → u.Loaded D) ∧ ∀ w, l.head? = some w → w.2 = D)
    hprogrammed hi (fun l u t hu hP => ?_) ⟨hwm, fun _ => hloaded, fun _ hnil => by cases hnil⟩ t
  · exact hrun.2.2.2 w hw
  · obtain ⟨hwork, hload, hhead⟩ := hP
    have hwork' := (hwork.next wmAddr (BitVec.ofNat 32 (4 * total))
      u.qsys.aesFifo.fifoOut.words.isEmpty u.qsys.aesFifo.fifoOut.q (i t).wmWait).1
    rw [← wm_next hu M (i t)] at hwork'
    refine ⟨hwork', fun hnil => ?_, fun w hw => ?_⟩
    · obtain ⟨hl, hnone⟩ := List.append_eq_nil_iff.mp hnil
      refine (hload hl).next hu hwork M ?_
      rw [accepted] at hnone
      cases hnow : u.qsys.wm.accepts (i t).wmWait
      · rfl
      · rw [hnow] at hnone
        cases hnone
    · rcases l with _ | ⟨a, l⟩
      · rw [List.nil_append, accepted] at hw
        cases hnow : u.qsys.wm.accepts (i t).wmWait
        · rw [hnow] at hw
          cases hw
        · rw [hnow, if_pos rfl, List.head?_cons, Option.some_inj] at hw
          rw [WriteMaster.accepts, hwork.write, Bool.and_eq_true, decide_eq_true_eq] at hnow
          rw [← hw]
          rcases hload rfl with ⟨hs, -⟩ | ⟨hs, -⟩ | ⟨-, hD⟩
          · cases hs.symm.trans hnow.1
          · cases hs.symm.trans hnow.1
          · exact hD
      · exact hhead w hw

/-- A master that meets its end address after `j` words makes no further write. -/
theorem length_writes_le {j : ℕ} (hprogrammed : s.qsys.Programmed rmAddr wmAddr total)
    (hi : ∀ t, (i t).Harmless) (hwm : s.qsys.wm.AtWork) (haddr : s.qsys.wm.oWMWraddr = wmAddr)
    (hlast : s.qsys.wm.rWMLastaddr = wmAddr + BitVec.ofNat 32 (4 * j))
    (hstop : s.qsys.wm.rStateDMAWM = .STOP ∨ 0 < j) (t : ℕ) :
    (writes M s i t).length ≤ j := by
  have hrun := writes_invariant (M := M) (i := i)
    (P := fun l u => u.qsys.wm.AtWork ∧
      u.qsys.wm.oWMWraddr = wmAddr + BitVec.ofNat 32 (4 * l.length) ∧
      u.qsys.wm.rWMLastaddr = wmAddr + BitVec.ofNat 32 (4 * j) ∧
      (l.length < j ∨ (l.length = j ∧ u.qsys.wm.rStateDMAWM = .STOP)))
    hprogrammed hi (fun l u t hu hP => ?_) ⟨hwm, ?_, hlast, ?_⟩ t
  · rcases hrun.2.2.2.2 with hlt | ⟨heq, -⟩
    · exact hlt.le
    · exact heq.le
  · obtain ⟨hwork, hplace, hend, hcount⟩ := hP
    obtain ⟨hwork', hend', hplace', hstay, hstopped, -⟩ := hwork.next wmAddr
      (BitVec.ofNat 32 (4 * total)) u.qsys.aesFifo.fifoOut.words.isEmpty u.qsys.aesFifo.fifoOut.q
      (i t).wmWait
    rw [← wm_next hu M (i t)] at hwork' hend' hplace' hstay hstopped
    have hlength : (l ++ u.accepted (i t)).length =
        l.length + (u.qsys.wm.accepts (i t).wmWait).toNat := by
      rw [List.length_append, length_accepted]
    refine ⟨hwork', ?_, hend'.trans hend, ?_⟩
    · rw [hplace', hplace, hlength]
      cases u.qsys.wm.accepts (i t).wmWait
      · rfl
      · rw [if_pos rfl, BitVec.add_assoc, Bool.toNat_true,
          show 4 * (l.length + 1) = 4 * l.length + 4 by omega, BitVec.ofNat_add]
        rfl
    · rw [hlength]
      cases hnow : u.qsys.wm.accepts (i t).wmWait
      · rw [Bool.toNat_false, Nat.add_zero]
        rcases hcount with hlt | ⟨heq, hs⟩
        · exact Or.inl hlt
        · exact Or.inr ⟨heq, hstay hs (by rw [hplace, hend, heq])⟩
      · rw [Bool.toNat_true]
        rcases hcount with hlt | ⟨-, hs⟩
        · by_cases hlate : l.length + 1 = j
          · exact Or.inr ⟨hlate, hstopped hnow⟩
          · exact Or.inl (by omega)
        · rw [WriteMaster.accepts, hwork.write, hs] at hnow
          cases hnow
  · rw [haddr]
    simp
  · rcases Nat.eq_zero_or_pos j with rfl | hj
    · exact Or.inr ⟨rfl, hstop.resolve_right (by omega)⟩
    · exact Or.inl hj

/-- Without a request in `STEP_5` the master waits as long as the bus holds. -/
theorem writes_hold (hprogrammed : s.qsys.Programmed rmAddr wmAddr total)
    (hs : s.qsys.wm.rStateDMAWM = .STEP_5) (hwrite : s.qsys.wm.oWMWrite = false) (t : ℕ) :
    (run (next M) s (fun _ => In.hold) t).qsys.wm.oWMWrite = false ∧
      writes M s (fun _ => In.hold) t = [] := by
  have hrun := writes_invariant (M := M) (i := fun _ => In.hold)
    (P := fun l u => l = [] ∧ u.qsys.wm.rStateDMAWM = .STEP_5 ∧ u.qsys.wm.oWMWrite = false)
    hprogrammed (fun _ => harmless_hold) (fun l u t hu hP => ?_) ⟨rfl, hs, hwrite⟩ t
  · exact ⟨hrun.2.2.2, hrun.2.1⟩
  · obtain ⟨rfl, hs, hwrite⟩ := hP
    have hnext := wm_next hu M In.hold
    refine ⟨?_, ?_, ?_⟩
    · rw [accepted, WriteMaster.accepts, hwrite]
      rfl
    · rw [hnext, WriteMaster.next, hs]
      rfl
    · rw [hnext, WriteMaster.next, hs]
      exact hwrite

/-! ### What a job needs -/

theorem length_result (f : Block → Block) (M : Word → Word) (rmAddr wmAddr : Word) (n : ℕ) :
    (result f M rmAddr wmAddr n).length = 4 * n := by
  rw [result, List.length_map, List.length_range]

theorem Writes.exists_head (h : s.Writes f rmAddr wmAddr n) (hpos : 0 < n) (M : Word → Word) :
    ∃ t, (writes M s (fun _ => In.serve) t).head? =
      some (wmAddr, (f (blockAt (fun k => M (rmAddr + BitVec.ofNat 32 (4 * k))) 0)).w1) := by
  obtain ⟨T, hT⟩ := h M (fun _ => In.serve) (fun _ => harmless_serve) (serves_serve M s)
  exact ⟨T, by rw [hT T le_rfl, result_head hpos]⟩

/-- A word already in the master is wrong for some source. -/
theorem Writes.not_loaded (h : s.Writes f rmAddr wmAddr n) (hpos : 0 < n)
    (hsurj : Function.Surjective f) (hprogrammed : s.qsys.Programmed rmAddr wmAddr total)
    (hwm : s.qsys.wm.AtWork) : ¬ s.Loaded D := by
  intro hloaded
  obtain ⟨M, hM⟩ := exists_other hsurj rmAddr D
  obtain ⟨t, ht⟩ := h.exists_head hpos M
  exact hM (head_word hprogrammed (fun _ => harmless_serve) hwm hloaded t _ ht)

theorem Writes.aimed (h : s.Writes f rmAddr wmAddr n) (hpos : 0 < n)
    (hsurj : Function.Surjective f) (hstart : s.Starting rmAddr wmAddr n)
    (hsound : s.qsys.wm.Sound) : s.qsys.wm.Aimed wmAddr (4 * n) := by
  have hprogrammed := hstart.programmed
  have hwork : s.qsys.wm.rStateDMAWM ≠ .IDLE → s.qsys.wm.rStateDMAWM ≠ .STEP_5 →
      s.qsys.wm.AtWork := by
    intro hne hne'
    refine ⟨hne, ?_⟩
    rw [decide_eq_false hne', ← Bool.not_eq_true]
    exact fun hup => hne' (hsound.write hup)
  -- in `STEP_1` and `STOP` the place and the number of the writes tell
  have hstands : s.qsys.wm.AtWork →
      (s.qsys.wm.rStateDMAWM = .STEP_1 ∨ s.qsys.wm.rStateDMAWM = .STOP) →
        s.qsys.wm.Aimed wmAddr (4 * n) := by
    intro hwm hs
    have hplace : s.qsys.wm.oWMWraddr = wmAddr := by
      obtain ⟨t, ht⟩ := h.exists_head hpos id
      exact (head_place hprogrammed (fun _ => harmless_serve) hwm t _ ht).symm
    refine Or.inr ⟨hs, hplace, fun j hj hstop hlast => ?_⟩
    obtain ⟨T, hT⟩ := h id (fun _ => In.serve) (fun _ => harmless_serve) (serves_serve id s)
    have hfew := length_writes_le (M := id) (i := fun _ => In.serve) hprogrammed
      (fun _ => harmless_serve) hwm hplace hlast hstop T
    rw [hT T le_rfl, length_result] at hfew
    omega
  cases hs : s.qsys.wm.rStateDMAWM with
  | IDLE => exact Or.inl hs
  | STEP_1 => exact hstands (hwork (by rw [hs]; nofun) (by rw [hs]; nofun)) (Or.inl hs)
  | STEP_2 =>
    exact absurd (Or.inl ⟨hs, hstart.cleared.fifoOut, rfl⟩)
      (h.not_loaded hpos hsurj hprogrammed (hwork (by rw [hs]; nofun) (by rw [hs]; nofun)))
  | STEP_3 =>
    exact absurd (Or.inr (Or.inl ⟨hs, rfl⟩))
      (h.not_loaded hpos hsurj hprogrammed (hwork (by rw [hs]; nofun) (by rw [hs]; nofun)))
  | STEP_4 =>
    exact absurd (Or.inr (Or.inr ⟨Or.inl hs, rfl⟩))
      (h.not_loaded hpos hsurj hprogrammed (hwork (by rw [hs]; nofun) (by rw [hs]; nofun)))
  | STEP_5 =>
    cases hwrite : s.qsys.wm.oWMWrite with
    | true =>
      have hwm : s.qsys.wm.AtWork := by
        refine ⟨by rw [hs]; nofun, ?_⟩
        rw [hwrite, hs]
        rfl
      exact absurd (Or.inr (Or.inr ⟨Or.inr hs, rfl⟩)) (h.not_loaded hpos hsurj hprogrammed hwm)
    | false =>
      have hhold := writes_hold (M := id) hprogrammed hs hwrite
      obtain ⟨T, hT⟩ := h id (fun _ => In.hold) (fun _ => harmless_hold)
        ⟨fun t => ⟨t, le_rfl, fun _ => rfl⟩, fun t => ⟨t, le_rfl, fun _ => rfl⟩,
          fun t => ⟨t, le_rfl, fun hup => by rw [(hhold t).1] at hup; cases hup⟩⟩
      have hnone := congrArg List.length (hT T le_rfl)
      rw [(hhold T).2, length_result] at hnone
      simp only [List.length_nil] at hnone
      omega
  | STOP => exact hstands (hwork (by rw [hs]; nofun) (by rw [hs]; nofun)) (Or.inr hs)

/-- A word ahead of the source shows in the first block, whatever follows it. -/
theorem head_of_cipherWords_prefix (hinj : Function.Injective f) {a b c d D : Word}
    {l r : List Word} (h : cipherWords f (a :: b :: c :: d :: r) <+:
      cipherWords f (D :: (l ++ a :: b :: c :: d :: r))) : a = D := by
  obtain ⟨x, y, z, r', hr⟩ : ∃ x y z r', l ++ a :: b :: c :: d :: r = x :: y :: z :: r' := by
    rcases l with _ | ⟨x, _ | ⟨y, _ | ⟨z, l⟩⟩⟩
    · exact ⟨_, _, _, _, rfl⟩
    · exact ⟨_, _, _, _, rfl⟩
    · exact ⟨_, _, _, _, rfl⟩
    · exact ⟨_, _, _, _, rfl⟩
  rw [hr, cipherWords, cipherWords, blockWords, blockWords] at h
  simp only [List.cons_append, List.cons_prefix_cons] at h
  obtain ⟨h1, h2, h3, h4, -⟩ := h
  have hblock : (⟨a, b, c, d⟩ : Block) = ⟨D, x, y, z⟩ := hinj (AesFunction.Block.ext h1 h2 h3 h4)
  exact congrArg Block.w1 hblock

theorem Writes.empty {e : Bool} {ke kd : BitVec 4 → Block} (h : s.Writes f rmAddr wmAddr n)
    (hpos : 0 < n) (hlt : 16 * n < 2 ^ 32) (hinj : Function.Injective f)
    (hsurj : Function.Surjective f) (hstart : s.Starting rmAddr wmAddr n)
    (hregular : s.qsys.Regular) (hkeyed : s.qsys.aesFifo.aes.Keyed e ke kd)
    (hf : ∀ b, Cipher.Delivers e ke kd b (f b)) :
    s.qsys.aesFifo.aes.Empty ∧ s.qsys.rWriteFifoIn = false := by
  have haimed := h.aimed hpos hsurj hstart hregular.wm
  obtain ⟨φ, hbounded, hshown⟩ := hregular.core
  have hprefix : ∀ M : Word → Word, (result f M rmAddr wmAddr n).map Prod.snd <+:
      Core.toWrite φ (s.qsys.aesFifo.aes.lastBlock f φ) ++
        cipherWords f (s.stale ++ (addresses rmAddr (4 * n)).map M) := by
    intro M
    have hflow := hstart.flowing hpos hlt hbounded hshown hkeyed hregular.wm haimed M f
    obtain ⟨T, hT⟩ := h M (fun _ => In.serve) (fun _ => harmless_serve) (serves_serve M s)
    rw [← hT T le_rfl]
    exact (hflow.writes_eq hf (by omega) (fun _ => harmless_serve) T).2
  have hphase : φ = 27 := by
    have hle := hbounded.phase.le
    by_contra hne
    have hpending : 4 - Core.pending φ < 4 := by
      rw [Core.pending]
      omega
    obtain ⟨M, hM⟩ := exists_other hsurj rmAddr
      (getWord (s.qsys.aesFifo.aes.lastBlock f φ) (BitVec.ofNat 3 (4 - Core.pending φ)))
    obtain ⟨l, hl⟩ := hprefix M
    have hhead := congrArg List.head? hl
    rw [Core.toWrite, getWord_eq _ hpending, List.head?_append_of_ne_nil, List.head?_map,
      result_head hpos] at hhead
    · exact hM (Option.some_inj.mp hhead)
    · intro hnil
      have hlen := congrArg List.length hnil
      rw [List.length_map, length_result, List.length_nil] at hlen
      omega
  subst hphase
  have hstale : s.stale = [] := by
    rcases hs : s.stale with _ | ⟨D, l⟩
    · rfl
    · have hbad := hprefix fun _ => D + 1
      obtain ⟨k, rfl⟩ : ∃ k, n = k + 1 := ⟨n - 1, by omega⟩
      have hsource : (addresses rmAddr (4 * (k + 1))).map (fun _ => D + 1) =
          (D + 1) :: (D + 1) :: (D + 1) :: (D + 1) :: (List.replicate (4 * k) (D + 1)) := by
        rw [List.map_const', Dma.length_addresses]
        rfl
      rw [hs, Core.toWrite_done, List.nil_append, result_snd, hsource, List.cons_append] at hbad
      have heq := head_of_cipherWords_prefix hinj hbad
      simp at heq
  have hcounter := hbounded.phase.counterIN
  rw [stale, List.append_eq_nil_iff, List.append_eq_nil_iff] at hstale
  obtain ⟨hhalf, harriving, hlatched⟩ := hstale
  refine ⟨⟨?_, ?_, hbounded.phase.start, hbounded.phase.control, hbounded.phase.rDelay,
    hbounded.phase.writeReq⟩, ?_⟩
  · rw [← Bool.not_eq_true]
    intro hvalid
    rw [arriving, Core.taken, hvalid] at harriving
    cases harriving
  · have hlen := congrArg List.length hhalf
    rw [Core.partialIn, List.length_take] at hlen
    simp only [blockWords, List.length_cons, List.length_nil] at hlen
    exact BitVec.eq_of_toNat_eq (by show _ = 0; omega)
  · rw [← Bool.not_eq_true]
    intro hlatch
    rw [hlatch] at hlatched
    cases hlatched

/-! ### Isolation -/

/-- A job is performed, over every source and on every bus, exactly when the engine is clean at
its start. -/
theorem performs_iff {e : Bool} {K : Block} (hpos : 0 < n) (hlt : 16 * n < 2 ^ 32)
    (hstart : s.Starting rmAddr wmAddr n) (hregular : s.qsys.Regular)
    (hkey : s.qsys.aesFifo.aes.HoldsKey e K) :
    (∀ (M : Word → Word) (i : ℕ → In), (∀ t, (i t).Harmless) → Serves M s i →
      Performs (aes e K) M rmAddr wmAddr n s i) ↔ s.Clean wmAddr n := by
  obtain ⟨ke, kd, hkeyed, hholds⟩ := hkey
  have hf := delivers_aes hholds e
  constructor
  · intro h
    have hwrites : s.Writes (aes e K) rmAddr wmAddr n := fun M i hi hserves =>
      (h M i hi hserves).writes
    have hsurj := aes_surjective e K
    have haimed := hwrites.aimed hpos hsurj hstart hregular.wm
    obtain ⟨hcore, hlatched⟩ := hwrites.empty hpos hlt (aes_injective e K) hsurj hstart hregular
      hkeyed hf
    have hperforms := h id (fun _ => In.serve) (fun _ => harmless_serve) (serves_serve id s)
    have hlength := length_result (aes e K) id rmAddr wmAddr n
    refine ⟨haimed, hcore, hlatched, ?_, ?_⟩
    · -- the status shows the old flag in the next cycle, which is too early
      rw [← Bool.not_eq_true]
      intro hdone
      have hearly := hperforms.done 1 ((status_next id s In.serve).trans hdone)
      have hwrite := (haimed.serving hregular.wm (by omega)).write
      have hnone : s.accepted In.serve = [] := by
        rw [accepted, WriteMaster.accepts, hwrite]
        rcases haimed with hs | ⟨hs | hs, -⟩ <;> rw [hs] <;> rfl
      have hfirst : System.writes id s (fun _ => In.serve) 1 = s.accepted In.serve := rfl
      rw [← hearly, hfirst, hnone, List.length_nil] at hlength
      omega
    · rw [← Bool.not_eq_true]
      intro hstatus
      have hearly := hperforms.done 0 hstatus
      rw [← hearly] at hlength
      simp only [System.writes, List.length_nil] at hlength
      omega
  · intro h M i hi hserves
    exact h.performs hstart hpos hlt hregular hkeyed hf hi hserves

end

/-- What the engine comes to after a hardware reset, over any memory contents. -/
inductive Reached : System → Prop
  | reset {s : System} : s.qsys.HardwareReset → Reached s
  | step {s : System} (M : Word → Word) (i : In) : Reached s → Reached (s.next M i)

theorem Reached.regular {s : System} (h : s.Reached) : s.qsys.Regular := by
  induction h with
  | reset hreset => exact hreset.regular
  | step M i _ ih => exact ih.next _

theorem Reached.run {s : System} (h : s.Reached) (M : Word → Word) (i : ℕ → In) (t : ℕ) :
    (Clocked.run (System.next M) s i t).Reached :=
  Clocked.run_invariant (fun _ j hs => hs.step M j) h i t

theorem powerUp_hardwareReset : powerUp.qsys.HardwareReset :=
  ⟨powerUp_afterReset, powerUp.qsys.wm, 0, 0, true, 0, false, rfl⟩

/-- Whatever the engine did before: when `START` follows `RESET` and every read has been answered,
the job is performed, over every source and on every bus, exactly when the engine is clean. -/
theorem reset_isolates_iff {s : System} (hs : s.Reached) (hreset : s.qsys.resetBit = true)
    {M₀ : Word → Word} {i₀ : In} {rmAddr wmAddr : Word} {n : ℕ} (hpos : 0 < n)
    (hlt : 16 * n < 2 ^ 32) (hprogrammed : (s.next M₀ i₀).qsys.Programmed rmAddr wmAddr (4 * n))
    (hanswered : (s.next M₀ i₀).inflight = []) {e : Bool} {K : Block}
    (hkey : (s.next M₀ i₀).qsys.aesFifo.aes.HoldsKey e K) :
    (∀ (M : Word → Word) (i : ℕ → In), (∀ t, (i t).Harmless) → Serves M (s.next M₀ i₀) i →
      Performs (aes e K) M rmAddr wmAddr n (s.next M₀ i₀) i) ↔ (s.next M₀ i₀).Clean wmAddr n :=
  performs_iff hpos hlt ⟨Qsys.cleared_next hreset _, hprogrammed, hanswered⟩
    (hs.step M₀ i₀).regular hkey

/-! ### Two interrupted jobs -/

/-- A key load, a job of one block, and `RESET` in cycle `c`, written in the cycle before, with the
next job three cycles later. -/
def interruptedAt (c t : ℕ) : In :=
  if t = 0 then In.write 0 3
  else if t = 100 then In.write 12 16
  else if t = 101 then In.write 13 1
  else if t = c - 1 then In.write 13 2
  else if t = c + 1 then In.write 11 64
  else if t = c + 2 then In.write 13 1
  else In.serve

/-- The first `t` cycles of that. -/
def interrupted (c t : ℕ) : System := Clocked.run (System.next id) powerUp (interruptedAt c) t

theorem interrupted_reached (c t : ℕ) : (interrupted c t).Reached :=
  (Reached.reset powerUp_hardwareReset).run id (interruptedAt c) t

/-- The registers up to the second start: key 0 is loaded, in mode 0, and nothing else but
the jobs is programmed. -/
theorem interrupted_registers : ∀ c ∈ [105, 109],
    (∀ t < c + 3, (interrupted c t).qsys.enable = true →
      2 ≤ t ∧ t < 2 + 4 ∧ (interrupted c t).qsys.keyData = ⟨0, 0, 0, 0⟩ ∧
        (interrupted c t).qsys.mode = false) ∧
    (interrupted c 2).qsys.enable = true ∧ (interrupted c (c + 2)).qsys.resetBit = true ∧
    (interrupted c (c + 3)).inflight = [] ∧ (interrupted c (c + 3)).qsys.resetBit = false ∧
    (interrupted c (c + 3)).qsys.startBit = true ∧ (interrupted c (c + 3)).qsys.rmStartAddr = 0 ∧
    (interrupted c (c + 3)).qsys.wmStartAddr = 64 ∧ (interrupted c (c + 3)).qsys.length = 16 ∧
    (interrupted c (c + 3)).qsys.enable = false ∧
    ((interrupted c (c + 3)).qsys.ram 0).getLsbD 0 = false := by
  decide +kernel

theorem interrupted_holdsKey {c : ℕ} (hc : c ∈ [105, 109]) :
    (interrupted c (c + 3)).qsys.aesFifo.aes.HoldsKey false ⟨0, 0, 0, 0⟩ := by
  obtain ⟨hheld, hload, -⟩ := interrupted_registers c hc
  have hlate : 105 ≤ c := by
    simp only [List.mem_cons, List.not_mem_nil, or_false] at hc
    omega
  have hloads : Qsys.LoadsKey (fun t => (interrupted c t).qsys) false ⟨0, 0, 0, 0⟩ 2 (c + 2) :=
    ⟨hload, fun t ht hup => hheld t (by omega) hup⟩
  exact hloads.holdsKey (j := fun t => (interrupted c t).qsysIn id (interruptedAt c t))
    (fun _ => rfl) rfl (by omega)

theorem interrupted_programmed {c : ℕ} (hc : c ∈ [105, 109]) :
    (interrupted c (c + 3)).qsys.Programmed 0 64 (4 * 1) := by
  obtain ⟨-, -, -, -, hreset, hstart, hrm, hwm, hlength, henable, hload⟩ := interrupted_registers c hc
  exact ⟨hreset, hstart, hrm, hwm, hlength, henable, by rw [hload]; rfl⟩

/-- Interrupted with a read outstanding, the engine is clean, and it performs the next job. -/
theorem reset_isolates_read : (interrupted 105 108).Clean 64 1 ∧
    ∀ (M : Word → Word) (i : ℕ → In), (∀ t, (i t).Harmless) → Serves M (interrupted 105 108) i →
      Performs (aes false ⟨0, 0, 0, 0⟩) M 0 64 1 (interrupted 105 108) i := by
  have hmem : 105 ∈ [105, 109] := by decide
  obtain ⟨-, -, hreset, hanswered, -⟩ := interrupted_registers 105 hmem
  have hclean : (interrupted 105 108).Clean 64 1 := by
    have hfields : (interrupted 105 108).qsys.wm.rStateDMAWM = .IDLE ∧
        (interrupted 105 108).qsys.wm.rWMDone = false ∧
        ((interrupted 105 108).qsys.ram 14).getLsbD 2 = false ∧
        (interrupted 105 108).qsys.rWriteFifoIn = false ∧
        (interrupted 105 108).qsys.aesFifo.aes.ffInDataValid = false ∧
        (interrupted 105 108).qsys.aesFifo.aes.bufferINCounter = 0 ∧
        (interrupted 105 108).qsys.aesFifo.aes.start = false ∧
        (interrupted 105 108).qsys.aesFifo.aes.cipher.endec.control = Endec.Control.idle ∧
        (interrupted 105 108).qsys.aesFifo.aes.rDelay = false ∧
        (interrupted 105 108).qsys.aesFifo.aes.oFFOutWriteReq = false := by
      decide +kernel
    obtain ⟨hwm, hdone, hstatus, hlatched, hvalid, hcounter, hstart, hcontrol, hdelay, hwrite⟩ := hfields
    exact ⟨Or.inl hwm, ⟨hvalid, hcounter, hstart, hcontrol, hdelay, hwrite⟩, hlatched, hdone, hstatus⟩
  refine ⟨hclean, ?_⟩
  have hprogrammed : ((interrupted 105 107).next id (interruptedAt 105 107)).qsys.Programmed 0 64
      (4 * 1) := interrupted_programmed hmem
  exact (reset_isolates_iff (s := interrupted 105 107) (interrupted_reached 105 107) hreset
    (by decide) (by decide) hprogrammed hanswered (interrupted_holdsKey hmem)).mpr hclean

/-- Interrupted with one word of a block in the core, the engine keeps it over `RESET`: the next
job is not performed. -/
theorem reset_keeps_word : (interrupted 109 111).Reached ∧
    (interrupted 109 111).qsys.resetBit = true ∧
    (interrupted 109 112).qsys.Programmed 0 64 (4 * 1) ∧ (interrupted 109 112).inflight = [] ∧
    (interrupted 109 112).qsys.aesFifo.aes.HoldsKey false ⟨0, 0, 0, 0⟩ ∧
    ¬ ∀ (M : Word → Word) (i : ℕ → In), (∀ t, (i t).Harmless) → Serves M (interrupted 109 112) i →
      Performs (aes false ⟨0, 0, 0, 0⟩) M 0 64 1 (interrupted 109 112) i := by
  have hmem : 109 ∈ [105, 109] := by decide
  obtain ⟨-, -, hreset, hanswered, -⟩ := interrupted_registers 109 hmem
  refine ⟨interrupted_reached 109 111, hreset, interrupted_programmed hmem, hanswered,
    interrupted_holdsKey hmem, fun hperforms => ?_⟩
  have hstarting : (interrupted 109 112).Starting 0 64 1 :=
    ⟨Qsys.cleared_next hreset ((interrupted 109 111).qsysIn id (interruptedAt 109 111)),
      interrupted_programmed hmem, hanswered⟩
  have hclean := (performs_iff (by decide) (by decide) hstarting (interrupted_reached 109 112).regular
    (interrupted_holdsKey hmem)).mp hperforms
  have hword : (interrupted 109 112).qsys.aesFifo.aes.bufferINCounter = 1 := by
    decide +kernel
  have hnone := hclean.core.bufferINCounter
  rw [hword] at hnone
  cases hnone

end System

end SocCrypto.Aes
