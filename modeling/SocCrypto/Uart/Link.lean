import SocCrypto.Uart.Line

/-!
# Two UARTs on one line

The serial output of one core is the serial input of another one, or of the same, in RS-232 mode
without handshake, both on one `Clk` with the same format and baud rate. The buses of the two and
their `SCK` edges are free. What the transmit FIFO of the first accepts comes into the receive FIFO
of the second.
-/

namespace SocCrypto.Uart

open SocCrypto.Clocked

namespace SspUart

/-- The receiver and its FIFO at rest. -/
structure RxRest (s : SspUart) : Prop where
  sound : s.rf1.Sound
  idle : s.rcv.rxSM = .pIdle
  mark : s.rxD = true
  weRHR : s.rcv.weRHR = false

/-- Core `s` with the edges `a` sends to core `r` with the edges `e`. -/
structure Link (s r : ℕ → SspUart) (a e : ℕ → Edge) (f : Format) (ps : BitVec 4) (div : BitVec 8) :
    Prop where
  sender : Steady s a f ps div
  receiver : Steady r e f ps div
  clock : ∀ t, (e t).clk = (a t).clk
  wire : ∀ t, (e t).lines.rxD232 = (s t).xmt.txD
  plain : ∀ t, (s t).md = 0
  rs232 : ∀ t, (r t).rs232 = true
  txKept : ∀ t, (s t).red2.pls = false
  rxKept : ∀ t, (r t).red3.pls = false
  txRest : TxRest (s 0)
  rxRest : RxRest (r 0)

variable {s r : ℕ → SspUart} {a e : ℕ → Edge} {f : Format} {ps : BitVec 4} {div : BitVec 8}

namespace Link

theorem tick_eq (h : Link s r a e f ps div) : tick e = tick a := by
  have hclk : (fun t => (e t).clk = true) = fun t => (a t).clk = true := by
    funext t
    rw [h.clock]
  funext k
  rw [tick, tick, hclk]

/-- Without handshake no character is sent twice. -/
theorem framed_eq_taken (h : Link s r a e f ps div) (k : ℕ) :
    TxSm.framed (fun j => (s (tick a j)).xmt) k = taken s a k := by
  refine (h.sender.framed_eq_taken_iff k).mpr fun j _ => ?_
  have hcts : (txFeed s a j).ctsi = true := by simp [txFeed, ctsI, h.plain]
  simp [TxSm.repeats, hcts]

theorem rcv_zero (h : Link s r a e f ps div) : (r (tick e 0)).rcv = (r 0).rcv :=
  h.receiver.first_tick (g := SspUart.rcv) fun u a _ hclk => by simp [step, hclk]

theorem log_zero (h : Link s r a e f ps div) : RxSm.log (fun k => (r (tick e k)).rcv) 0 = [] := by
  rw [RxSm.log, h.rcv_zero, h.rxRest.weRHR]
  rfl

/-- Before the line begins the receiver stays idle. -/
theorem first_edge (h : Link s r a e f ps div) : (r (tick e 1)).rcv.rxSM = .pIdle ∧
    RxSm.log (fun k => (r (tick e k)).rcv) 1 = [] := by
  obtain ⟨φ, hφ⟩ := h.receiver.enable
  have hrxD : (r (tick e 0)).rxD = true := by
    rw [h.receiver.first_tick (g := SspUart.rxD) fun u a hrst hclk => by simp [step, hrst, hclk]]
    exact h.rxRest.mark
  have hidle : (r (tick e 0)).rcv.rxSM = .pIdle := by
    rw [h.rcv_zero]
    exact h.rxRest.idle
  have hrest := (h.receiver.rcv hφ).rest (t := 0) (n := 1) hidle fun d hd => Or.inl ?_
  · exact ⟨hrest.1, hrest.2.trans h.log_zero⟩
  · obtain rfl : d = 0 := by omega
    exact hrxD

theorem entered_one (h : Link s r a e f ps div) :
    Dpsf.entered (rxPorts r e) (fun j => (r (tick e j)).rf1) 1 = [] := by
  have hwe : (rxPorts r e 0).we = false := by
    show (r (tick e 0)).rcv.weRHR = false
    rw [h.rcv_zero]
    exact h.rxRest.weRHR
  simp [Dpsf.entered, Dpsf.wr, hwe]

theorem received_two (h : Link s r a e f ps div) (hroom : ∀ b, Room r e 0 b) :
    received r e 2 = (r (tick e 0)).rf1.held := by
  obtain ⟨ws, hlog, hrec⟩ := h.receiver.received_log h.rxKept h.rxRest.sound (Nat.zero_le 1)
    fun k _ hb => hroom 2 k (Nat.zero_le k) hb
  rw [h.first_edge.2, h.log_zero] at hlog
  rw [hrec, ← show [] = ws from hlog, h.receiver.received_eq h.rxKept h.rxRest.sound, h.entered_one]
  simp

theorem line_eq (h : Link s r a e f ps div) :
    (fun j => (s (tick a j)).xmt.txD) = fun j => (e (tick e j)).lines.rxD232 := by
  funext j
  rw [h.tick_eq]
  exact (h.wire _).symm

/-- The characters taken from the transmit FIFO are in the receive FIFO about a frame later. -/
theorem received_taken (h : Link s r a e f ps div) (hroom : ∀ b, Room r e 0 b) (k : ℕ) :
    ∃ b, k < b ∧ b ≤ k + 1 + 16 * Brg.period ps div * f.size ∧
      received r e (b + 2) =
        (r (tick e 0)).rf1.held ++ (taken s a k).map fun w => 0#1 ++ f.character w := by
  obtain ⟨b, hlt, hle, hline⟩ := h.sender.carries h.txRest k
  refine ⟨b, hlt, hle, ?_⟩
  rw [h.line_eq, h.framed_eq_taken] at hline
  have hrec := h.receiver.receives h.rs232 h.rxKept h.rxRest.sound h.first_edge.1
    (hline.mono fun β hβ => hβ.fits f.size) fun k _ hb => hroom _ k (Nat.zero_le k) hb
  rw [hrec, h.received_two hroom]

/-! ### Progress -/

theorem taken_succ (h : Link s r a e f ps div) {k : ℕ} {φ : ℕ}
    (hφ : ∀ k, (s (tick a k)).brg.ce16x = enable (Brg.period ps div) φ k)
    (hload : (s (tick a k)).xmt.ldTSR (enable (Brg.period ps div) φ k) (txFeed s a k).tfEF
      (txFeed s a k).ctsi = false) :
    taken s a (k + 1) = taken s a k ∧ (s (tick a (k + 1))).xmt.tfRE = false := by
  constructor
  · rw [taken, TxSm.taken, hφ, hload]
    exact List.append_nil _
  · have hnext : (s (tick a (k + 1))).xmt =
        (s (tick a k)).xmt.next false (enable (Brg.period ps div) φ k) f (txFeed s a k).tfEF
          (txFeed s a k).thr (txFeed s a k).ctsi := h.sender.xmt hφ k
    rw [hnext]
    simp [TxSm.next, hload]

/-- A character that waits is taken. -/
theorem takes_next (h : Link s r a e f ps div) (hhold : ∀ t, (s t).txHold = false) {k m : ℕ}
    (hle : k ≤ m) (hwait : (taken s a m).length < (accepted s a k).length) :
    ∃ u > m, (taken s a m).length < (taken s a u).length := by
  obtain ⟨φ, hφ⟩ := h.sender.enable
  have hxmt : (s (tick a 0)).xmt = (s 0).xmt :=
    h.sender.first_tick (g := SspUart.xmt) fun u a _ hclk => by simp [step, hclk]
  have hsends := fun t => (h.sender.xmt hφ).sends (Brg.period_pos ps div)
    (show (s (tick a 0)).xmt.txSM = .pIdle by rw [hxmt]; exact h.txRest.idle)
    (show (s (tick a 0)).xmt.txD = true by rw [hxmt]; exact h.txRest.mark) t
  -- otherwise the FIFO is never empty again, and the transmitter loads after all
  by_contra hnever
  push Not at hnever
  have hload : ∀ u ≥ m, (s (tick a u)).xmt.ldTSR (enable (Brg.period ps div) φ u)
      (txFeed s a u).tfEF (txFeed s a u).ctsi = false := by
    intro u hu
    by_contra hload
    rw [Bool.not_eq_false] at hload
    have hmore := hnever (u + 1) (by omega)
    have hpart := (TxSm.taken_prefix (c := fun j => (s (tick a j)).brg.ce16x)
      (i := txFeed s a) (y := fun j => (s (tick a j)).xmt) hu).length_le
    have hone : (taken s a (u + 1)).length = (taken s a u).length + 1 := by
      rw [taken, TxSm.taken, hφ, if_pos hload, List.length_append]
      rfl
    rw [taken, taken] at hone hmore
    omega
  have hsame : ∀ u ≥ m, taken s a u = taken s a m := by
    intro u hu
    induction u, hu using Nat.le_induction with
    | base => rfl
    | succ u hu ih => exact (h.taken_succ hφ (hload u hu)).1.trans ih
  have hfeed : ∀ u ≥ m + 1, (txFeed s a u).tfEF = false ∧ (txFeed s a u).ctsi = true := by
    intro u hu
    obtain ⟨v, rfl⟩ : ∃ v, u = v + 1 := ⟨u - 1, by omega⟩
    obtain ⟨ws, hws, hheld⟩ := h.sender.accepted_eq h.txKept h.txRest (v + 1)
    have hlen := congrArg List.length hws
    rw [List.length_append, hsame (v + 1) (by omega),
      hheld (h.taken_succ hφ (hload v (by omega))).2] at hlen
    have hmono := (Dpsf.entered_prefix (i := txPorts s a) (q := fun j => (s (tick a j)).tf1)
      (show k ≤ v + 1 by omega)).length_le
    rw [accepted, List.length_append] at hwait hlen
    have hstart : (s (tick a 0)).tf1.Sound := by
      rw [h.sender.first_tick (g := SspUart.tf1) fun u a _ hclk => by simp [step, hclk]]
      exact h.txRest.sound
    have hs := (h.sender.tf1 h.txKept).sound (by omega) hstart (v + 1)
    have hef : (s (tick a (v + 1))).tf1.ef = false := by
      by_contra hef
      have hnil : (s (tick a (v + 1))).tf1.held = [] :=
        hs.ef_iff.mp (Bool.eq_true_of_not_eq_false hef)
      rw [hnil, List.length_nil] at hlen
      omega
    exact ⟨by simp [txFeed, hef, hhold], by simp [txFeed, ctsI, h.plain]⟩
  obtain ⟨u, hu, hload'⟩ := (h.sender.xmt hφ).loads (Brg.period_pos ps div) (hsends (m + 1)) hfeed
  rw [hload u (by omega)] at hload'
  exact absurd hload' (by decide)

theorem takes (h : Link s r a e f ps div) (hhold : ∀ t, (s t).txHold = false) (k n : ℕ)
    (hn : n ≤ (accepted s a k).length) : ∃ m ≥ k, n ≤ (taken s a m).length := by
  induction n with
  | zero => exact ⟨k, le_rfl, Nat.zero_le _⟩
  | succ n ih =>
    obtain ⟨m, hm, hlen⟩ := ih (by omega)
    rcases Nat.lt_or_ge n (taken s a m).length with hmore | hless
    · exact ⟨m, hm, hmore⟩
    · obtain ⟨u, hu, hgrow⟩ := h.takes_next hhold hm (by omega)
      exact ⟨u, by omega, by omega⟩

/-- Every character that the transmit FIFO of one core accepts comes into the receive FIFO of the
other one, once, in its place and without an error, and nothing else does. -/
theorem delivers (h : Link s r a e f ps div) (hhold : ∀ t, (s t).txHold = false)
    (hroom : ∀ b, Room r e 0 b) (k : ℕ) :
    received r e k <+: (r (tick e 0)).rf1.held ++
        (accepted s a k).map (fun w => 0#1 ++ f.character w) ∧
      ∃ m ≥ k, (r (tick e 0)).rf1.held ++ (accepted s a k).map (fun w => 0#1 ++ f.character w) <+:
        received r e m := by
  have hpart : ∀ m, taken s a m <+: accepted s a m := by
    intro m
    obtain ⟨ws, hws, -⟩ := h.sender.accepted_eq h.txKept h.txRest m
    exact ⟨ws, hws.symm⟩
  constructor
  · obtain ⟨b, hlt, -, hrec⟩ := h.received_taken hroom k
    refine (h.receiver.received_prefix h.rxKept h.rxRest.sound (show k ≤ b + 2 by omega)).trans ?_
    rw [hrec, List.prefix_append_right_inj]
    exact (hpart k).map _
  · obtain ⟨m, hm, hlen⟩ := h.takes hhold k (accepted s a k).length le_rfl
    obtain ⟨b, hlt, -, hrec⟩ := h.received_taken hroom m
    have hearlier : accepted s a k <+: accepted s a m :=
      (List.prefix_append_right_inj _).mpr (Dpsf.entered_prefix hm)
    refine ⟨b + 2, by omega, ?_⟩
    rw [hrec, List.prefix_append_right_inj]
    exact (List.prefix_of_prefix_length_le hearlier (hpart m) hlen).map _

/-- The receive FIFO has room when it has a free cell for every character accepted. -/
theorem room_of_free (h : Link s r a e f ps div)
    (hfree : ∀ k, (r (tick e 0)).rf1.occupancy + (accepted s a k).length ≤ 64) (b : ℕ) :
    Room r e 0 b := by
  intro k _ _ hwe
  obtain ⟨j, rfl⟩ : ∃ j, k = j + 1 := by
    refine Nat.exists_eq_succ_of_ne_zero ?_
    rintro rfl
    rw [h.rcv_zero, h.rxRest.weRHR] at hwe
    exact absurd hwe (by decide)
  obtain ⟨φ, hφ⟩ := h.receiver.enable
  obtain ⟨c, hlt, -, hline⟩ := h.sender.carries h.txRest (j + 1)
  obtain ⟨ws, hws, -⟩ := h.sender.accepted_eq h.txKept h.txRest (j + 1)
  have hall := congrArg List.length hws
  rw [List.length_append] at hall
  rw [h.line_eq, h.framed_eq_taken] at hline
  have hlater := (hline.mono fun β hβ => hβ.fits f.size).later
    (r := fun k => (r (tick e k)).rxD) (h.receiver.rxD h.rs232)
  have hlog := (RxSm.receives (Brg.period_pos ps div) (h.receiver.rcv hφ) h.first_edge.1 hlater).2
  have hlen := (RxSm.log_prefix (x := fun k => (r (tick e k)).rcv)
    (show j + 1 ≤ c + 1 by omega)).length_le
  rw [hlog, h.first_edge.2, List.nil_append, List.length_map] at hlen
  have hzero : (r (tick e 0)).rf1.Sound := by
    rw [h.receiver.first_tick (g := SspUart.rf1) fun u a _ hclk => by simp [step, hclk]]
    exact h.rxRest.sound
  have hledger := congrArg List.length ((h.receiver.rf1 h.rxKept).ledger (by omega) hzero 1)
  rw [h.entered_one, List.append_nil, List.length_append, Dpsf.length_held, Dpsf.length_held]
    at hledger
  have hcells := hfree (j + 1)
  refine h.receiver.room_of_free h.rxKept h.rxRest.sound (a := 0) (b := j + 1)
    (n := (accepted s a (j + 1)).length) ?_ ?_ (j + 1) (by omega) (by omega) hwe
  · omega
  · show (r (tick e 1)).rf1.occupancy + _ ≤ 64
    omega

end Link

/-! ### A core on its own line -/

def looped : ℕ → SspUart
  | 0 => restCore
  | t + 1 => (looped t).step (quiet (looped t).xmt.txD)

theorem link_looped : Link looped looped (fun t => quiet (looped t).xmt.txD)
    (fun t => quiet (looped t).xmt.txD) restCore.format 0 0 := by
  obtain ⟨hsteady, hall⟩ := settled_restCore.steady (s := looped) fun _ => rfl
  refine ⟨hsteady, hsteady, fun _ => rfl, fun _ => rfl, fun t => ?_, fun t => ?_,
    fun t => ?_, fun t => ?_, txRest_restCore, ⟨?_, rfl, rfl, rfl⟩⟩
  · rw [md, (hall t).2]
    rfl
  · rw [rs232, md, (hall t).2]
    rfl
  · rw [(hall t).1.red2]
    rfl
  · rw [(hall t).1.red3]
    rfl
  · exact ⟨rfl, fun h => absurd h (by decide), by decide⟩

theorem accepted_looped (k : ℕ) :
    accepted looped (fun t => quiet (looped t).xmt.txD) k = [0x55] := by
  obtain ⟨-, hall⟩ := settled_restCore.steady (s := looped) fun _ => rfl
  have hput : Dpsf.entered (txPorts looped fun t => quiet (looped t).xmt.txD)
      (fun j => (looped (tick (fun t => quiet (looped t).xmt.txD) j)).tf1) k = [] := by
    induction k with
    | zero => rfl
    | succ k ih =>
      have hwe : (txPorts looped (fun t => quiet (looped t).xmt.txD) k).we = false := by
        simp only [txPorts]
        rw [(hall _).1.red4]
        rfl
      rw [Dpsf.entered, ih]
      simp [Dpsf.wr, hwe]
  rw [accepted, hput, List.append_nil, tick_quiet]
  rfl

theorem delivers_looped :
    received looped (fun t => quiet (looped t).xmt.txD) 300 <+: [0x55] ∧
      ∃ m, [0x55] <+: received looped (fun t => quiet (looped t).xmt.txD) m := by
  obtain ⟨-, hall⟩ := settled_restCore.steady (s := looped) fun _ => rfl
  have hheld : (looped (tick (fun t => quiet (looped t).xmt.txD) 0)).rf1.held = [] := by
    rw [tick_quiet]
    rfl
  obtain ⟨hsafe, m, -, hlive⟩ := link_looped.delivers (fun t => (hall t).1.txHold)
    (link_looped.room_of_free fun k => by
      rw [accepted_looped, ← Dpsf.length_held, hheld]
      decide) 300
  rw [hheld, accepted_looped] at hsafe hlive
  exact ⟨hsafe, m, hlive⟩

end SspUart

end SocCrypto.Uart
