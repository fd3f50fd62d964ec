import SocCrypto.Word

/-!
# Register access over the OpenCores I2C master

`oc_i2c_master_write_reg` and `oc_i2c_master_read_reg` of the I2C `main.c`: the same retry
loop around a list of commands. A routine runs from one read of the status register to the
next, so it is a function of the values these reads return, which may be anything.
-/

namespace SocCrypto.I2c

/-! ### Registers -/

def crSta : Byte := 0x80
def crSto : Byte := 0x40
def crRd : Byte := 0x20
def crWr : Byte := 0x10
def crAck : Byte := 0x08

def srRxAck : Byte := 0x80
def srBusy : Byte := 0x40
def srAl : Byte := 0x20
def srTip : Byte := 0x02
def srIf : Byte := 0x01

/-- `temp & mask` as a condition. -/
def has (temp mask : Byte) : Bool := temp &&& mask != 0

inductive Access where
  | iordSR (v : Byte)
  | iowrTXR (data : Byte)
  | iowrCR (data : Byte)
  | iordRXR (v : Byte)
  deriving DecidableEq

/-- The condition of the loop after a command. -/
def unfinished (temp : Byte) : Bool := has temp srTip || !has temp srIf

/-! ### Commands -/

/-- A write of `CR`, after one of `TXR` where the command sends a byte. -/
structure Command where
  txr : Option Byte
  cr : Byte
  /-- The `RxACK` bit the step asks for. -/
  nack : Bool
  deriving DecidableEq

def Command.writes (c : Command) : List Access :=
  (c.txr.map Access.iowrTXR).toList ++ [.iowrCR c.cr]

/-- The condition of `continue`. -/
def Command.refused (c : Command) (temp : Byte) : Bool :=
  (if c.nack then !has temp srRxAck else has temp srRxAck) || has temp srAl

def writeRegCommands (address reg data : Byte) : List Command :=
  [⟨some (address <<< 1), crSta ||| crWr ||| srIf, false⟩,
    ⟨some reg, crWr ||| srIf, false⟩,
    ⟨some data, crSto ||| crWr ||| srIf, false⟩]

def readRegCommands (address reg : Byte) : List Command :=
  [⟨some (address <<< 1), crSta ||| crWr ||| srIf, false⟩,
    ⟨some reg, crWr ||| srIf, false⟩,
    ⟨some (address <<< 1 ||| 1), crSta ||| crWr ||| srIf, false⟩,
    ⟨none, crRd ||| crAck ||| crSto ||| srIf, true⟩]

/-! ### The retry loop -/

/-- The read of the status register a routine stands at. -/
inductive Pc where
  /-- The loop before `while(1)`. -/
  | entry
  /-- The first read in `while(1)`. -/
  | top
  /-- The read in the loop on a busy bus. -/
  | busy
  /-- The loop after the stop command. -/
  | recovery
  /-- The loop after a command, with the commands still to come. -/
  | command (c : Command) (rest : List Command)
  /-- Past `break`. -/
  | returned
  deriving DecidableEq

structure Master where
  pc : Pc
  accesses : List Access
  busyOnEntry : ℕ
  badCycleTerm : ℕ
  deriving DecidableEq

namespace Master

def start : Master := ⟨.entry, [], 0, 0⟩

/-- The next command of the attempt; `break` after the last one. -/
def issue (s : Master) : List Command → Master
  | [] => { s with pc := .returned }
  | c :: rest => { s with pc := .command c rest, accesses := s.accesses ++ c.writes }

/-- The condition of the loop on a busy bus. -/
def whileBusy (commands : List Command) (s : Master) (temp : Byte) : Master :=
  if has temp srBusy then { s with pc := .busy, busyOnEntry := s.busyOnEntry + 1 }
  else s.issue commands

/-- From one read of the status register to the next. -/
def afterRead (commands : List Command) (s : Master) (temp : Byte) : Master :=
  match s.pc with
  | .entry => if has temp srTip then s else { s with pc := .top }
  | .top => s.whileBusy commands temp
  | .busy =>
    if has temp srBusy then
      { s with pc := .recovery, accesses := s.accesses ++ [.iowrCR (crSto ||| srIf)] }
    else s.whileBusy commands temp
  | .recovery => if unfinished temp then s else s.whileBusy commands temp
  | .command c rest =>
    if unfinished temp then s
    else if c.refused temp then { s with pc := .top, badCycleTerm := s.badCycleTerm + 1 }
    else s.issue rest
  | .returned => s

def step (commands : List Command) (s : Master) (temp : Byte) : Master :=
  if s.pc = .returned then s
  else afterRead commands { s with accesses := s.accesses ++ [.iordSR temp] } temp

/-- The routine on the values `sr` of the status register. -/
def run (commands : List Command) (sr : List Byte) : Master := sr.foldl (step commands) start

end Master

def writeReg (address reg data : Byte) (sr : List Byte) : Master :=
  Master.run (writeRegCommands address reg data) sr

/-- The value returned with all accesses of the call; `rxr` is what `RXR` reads as. -/
def readReg (address reg : Byte) (sr : List Byte) (rxr : Byte) : Option (Byte × List Access) :=
  let s := Master.run (readRegCommands address reg) sr
  if s.pc = .returned then some (rxr, s.accesses ++ [.iordRXR rxr]) else none

/-! ### The protocol -/

/-- Reads that keep a loop going. -/
def Polling (wait : Byte → Bool) (l : List Access) : Prop :=
  ∀ a ∈ l, ∃ v, a = .iordSR v ∧ wait v = true

/-- The reads of a loop that ends with `v`. -/
def Polled (wait : Byte → Bool) (l : List Access) (v : Byte) : Prop :=
  ∃ p, Polling wait p ∧ wait v = false ∧ l = p ++ [.iordSR v]

/-- The commands in order, each one finished and accepted before the next. -/
inductive Acked : List Command → List Access → Prop
  | nil : Acked [] []
  | snoc {cs : List Command} {l p : List Access} {c : Command} {v : Byte} (before : Acked cs l)
      (finished : Polled unfinished p v) (accepted : c.refused v = false) :
      Acked (cs ++ [c]) (l ++ (c.writes ++ p))

/-- The accesses before an attempt, `v` the last status. A bus that is busy in two reads is
released by a stop command, which is waited for. -/
inductive Recovering : List Access → Byte → Prop
  | top (v : Byte) : Recovering [.iordSR v] v
  | free {l : List Access} {v w : Byte} (before : Recovering l v) (hbusy : has v srBusy = true)
      (hfree : has w srBusy = false) : Recovering (l ++ [.iordSR w]) w
  | stop {l p : List Access} {v w u : Byte} (before : Recovering l v)
      (hbusy : has v srBusy = true) (hstill : has w srBusy = true)
      (finished : Polled unfinished p u) :
      Recovering (l ++ [.iordSR w, .iowrCR (crSto ||| srIf)] ++ p) u

/-- The bus has been seen free. -/
def Recovered (l : List Access) : Prop := ∃ v, Recovering l v ∧ has v srBusy = false

/-- An attempt given up at a command that was refused, its accesses up to there. -/
def Failed (commands : List Command) (l : List Access) : Prop :=
  ∃ cs c rest r a p v, commands = cs ++ c :: rest ∧ l = r ++ a ++ c.writes ++ p ∧ Recovered r ∧
    Acked cs a ∧ Polled unfinished p v ∧ c.refused v = true

/-- An attempt with every command accepted. -/
def Passed (commands : List Command) (l : List Access) : Prop :=
  ∃ r a, l = r ++ a ∧ Recovered r ∧ Acked commands a

/-- The wait for a transfer in progress, then failed attempts. -/
def Tried (commands : List Command) (l : List Access) : Prop :=
  ∃ (e : List Access) (v : Byte) (failed : List (List Access)), l = e ++ failed.flatten ∧
    Polled (has · srTip) e v ∧ ∀ f ∈ failed, Failed commands f

/-- A call that returns: all attempts but the last one failed. -/
def Protocol (commands : List Command) (l : List Access) : Prop :=
  ∃ t a, l = t ++ a ∧ Tried commands t ∧ Passed commands a

theorem Polling.snoc {wait : Byte → Bool} {l : List Access} {v : Byte} (h : Polling wait l)
    (hv : wait v = true) : Polling wait (l ++ [.iordSR v]) := by
  intro a ha
  rcases List.mem_append.mp ha with ha | ha
  · exact h a ha
  · exact ⟨v, List.mem_singleton.mp ha, hv⟩

theorem Polling.done {wait : Byte → Bool} {l : List Access} {v : Byte} (h : Polling wait l)
    (hv : wait v = false) : Polled wait (l ++ [.iordSR v]) v :=
  ⟨l, h, hv, rfl⟩

theorem Polling.nil (wait : Byte → Bool) : Polling wait [] :=
  fun _ ha => absurd ha List.not_mem_nil

theorem Tried.failed {commands : List Command} {t f : List Access} (h : Tried commands t)
    (hf : Failed commands f) : Tried commands (t ++ f) := by
  obtain ⟨e, v, failed, rfl, he, hall⟩ := h
  refine ⟨e, v, failed ++ [f], by simp, he, ?_⟩
  intro g hg
  rcases List.mem_append.mp hg with hg | hg
  · exact hall g hg
  · rw [List.mem_singleton.mp hg]
    exact hf

/-! ### What a routine has done where it stands -/

/-- The accesses of a routine that stands at `pc`. -/
inductive Follows (commands : List Command) : Pc → List Access → Prop
  | entry {l : List Access} (polling : Polling (has · srTip) l) : Follows commands .entry l
  | top {t : List Access} (tried : Tried commands t) : Follows commands .top t
  | busy {t r : List Access} {v : Byte} (tried : Tried commands t) (recovering : Recovering r v)
      (hbusy : has v srBusy = true) : Follows commands .busy (t ++ r)
  | recovery {t r p : List Access} {v w : Byte} (tried : Tried commands t)
      (recovering : Recovering r v) (hbusy : has v srBusy = true) (hstill : has w srBusy = true)
      (polling : Polling unfinished p) :
      Follows commands .recovery (t ++ (r ++ [.iordSR w, .iowrCR (crSto ||| srIf)] ++ p))
  | command {t r a p : List Access} {cs rest : List Command} {c : Command}
      (tried : Tried commands t) (recovered : Recovered r) (acked : Acked cs a)
      (hcommands : commands = cs ++ c :: rest) (polling : Polling unfinished p) :
      Follows commands (.command c rest) (t ++ (r ++ a ++ c.writes ++ p))
  | returned {l : List Access} (protocol : Protocol commands l) : Follows commands .returned l

section
variable {commands : List Command}

theorem Follows.issue {t r a : List Access} {cs rest : List Command} {s : Master}
    (hl : s.accesses = t ++ (r ++ a)) (ht : Tried commands t) (hr : Recovered r)
    (ha : Acked cs a) (hcommands : commands = cs ++ rest) :
    Follows commands (s.issue rest).pc (s.issue rest).accesses := by
  cases rest with
  | nil =>
    rw [List.append_nil] at hcommands
    subst hcommands
    exact .returned ⟨t, r ++ a, hl, ht, r, a, rfl, hr, ha⟩
  | cons c rest =>
    have hnew := Follows.command ht hr ha hcommands (Polling.nil unfinished)
    simpa [Master.issue, hl] using hnew

theorem Follows.whileBusy {t r : List Access} {v : Byte} {s : Master}
    (hl : s.accesses = t ++ r) (ht : Tried commands t) (hr : Recovering r v) :
    Follows commands (s.whileBusy commands v).pc (s.whileBusy commands v).accesses := by
  rw [Master.whileBusy]
  split
  · next hbusy =>
    show Follows commands .busy s.accesses
    rw [hl]
    exact .busy ht hr hbusy
  · next hfree =>
    exact .issue (by rw [hl, List.append_nil]) ht ⟨v, hr, Bool.not_eq_true _ ▸ hfree⟩ .nil rfl

theorem Follows.step {s : Master} (h : Follows commands s.pc s.accesses) (temp : Byte) :
    Follows commands (s.step commands temp).pc (s.step commands temp).accesses := by
  obtain ⟨pc, l, n, m⟩ := s
  cases h with
  | entry polling =>
    rw [Master.step, if_neg (by simp)]
    show Follows commands (if has temp srTip then _ else _ : Master).pc _
    simp only [Master.afterRead]
    split
    · next htip => exact .entry (polling.snoc htip)
    · next htip =>
      have hpolled := polling.done (Bool.not_eq_true _ ▸ htip)
      exact .top ⟨_, temp, [], by simp, hpolled, fun f hf => absurd hf List.not_mem_nil⟩
  | top tried =>
    rw [Master.step, if_neg (by simp)]
    exact .whileBusy rfl tried (.top temp)
  | busy tried recovering hbusy =>
    rw [Master.step, if_neg (by simp)]
    simp only [Master.afterRead]
    split
    · next hstill =>
      have hnew := Follows.recovery tried recovering hbusy hstill (Polling.nil unfinished)
      simpa using hnew
    · next hfree =>
      exact .whileBusy (List.append_assoc _ _ _) tried
        (recovering.free hbusy (Bool.not_eq_true _ ▸ hfree))
  | recovery tried recovering hbusy hstill polling =>
    rw [Master.step, if_neg (by simp)]
    simp only [Master.afterRead]
    split
    · next hwait =>
      have hnew := Follows.recovery tried recovering hbusy hstill (polling.snoc hwait)
      simpa using hnew
    · next hdone =>
      refine .whileBusy ?_ tried
        (recovering.stop hbusy hstill (polling.done (Bool.not_eq_true _ ▸ hdone)))
      simp
  | command tried recovered acked hcommands polling =>
    rw [Master.step, if_neg (by simp)]
    simp only [Master.afterRead]
    split
    · next hwait =>
      have hnew := Follows.command tried recovered acked hcommands (polling.snoc hwait)
      simpa using hnew
    · next hdone =>
      have hpolled := polling.done (Bool.not_eq_true _ ▸ hdone)
      split
      · next hrefused =>
        have hfailed := tried.failed ⟨_, _, _, _, _, _, _, hcommands, rfl, recovered, acked,
          hpolled, hrefused⟩
        refine .top ?_
        simpa using hfailed
      · next haccepted =>
        refine .issue ?_ tried recovered (acked.snoc hpolled (Bool.not_eq_true _ ▸ haccepted)) ?_
        · simp
        · simp [hcommands]
  | returned protocol =>
    rw [Master.step, if_pos rfl]
    exact .returned protocol

theorem follows_run (commands : List Command) (sr : List Byte) :
    Follows commands (Master.run commands sr).pc (Master.run commands sr).accesses := by
  induction sr using List.reverseRecOn with
  | nil => exact .entry (Polling.nil _)
  | append_singleton sr temp ih =>
    have hrun : Master.run commands (sr ++ [temp]) =
        (Master.run commands sr).step commands temp := by
      rw [Master.run, List.foldl_append]
      rfl
    rw [hrun]
    exact ih.step temp

/-! ### Every run is the beginning of one that returns -/

/-- A status a command is content with. -/
def Command.answer (c : Command) : Byte := if c.nack then 0x81 else 0x01

theorem Command.answer_accepted (c : Command) : c.refused c.answer = false := by
  cases hn : c.nack <;> simp only [Command.refused, Command.answer, hn] <;> decide

theorem Command.answer_finished (c : Command) : unfinished c.answer = false := by
  cases hn : c.nack <;> simp only [Command.answer, hn] <;> decide

theorem Acked.extend {cs : List Command} {a : List Access} (h : Acked cs a)
    (rest : List Command) : ∃ b, Acked (cs ++ rest) (a ++ b) := by
  induction rest generalizing cs a with
  | nil => exact ⟨[], by simpa using h⟩
  | cons c rest ih =>
    obtain ⟨b, hb⟩ :=
      ih (h.snoc ((Polling.nil unfinished).done c.answer_finished) c.answer_accepted)
    refine ⟨c.writes ++ ([] ++ [.iordSR c.answer]) ++ b, ?_⟩
    simpa using hb

theorem Tried.extend_attempt {t r a : List Access} {cs rest : List Command}
    (ht : Tried commands t) (hr : Recovered r) (ha : Acked cs a)
    (hcommands : commands = cs ++ rest) :
    ∃ l, Protocol commands l ∧ t ++ (r ++ a) <+: l := by
  obtain ⟨b, hb⟩ := ha.extend rest
  rw [← hcommands] at hb
  refine ⟨t ++ (r ++ (a ++ b)), ⟨t, r ++ (a ++ b), rfl, ht, r, a ++ b, rfl, hr, hb⟩, b, ?_⟩
  simp

theorem Tried.extend_recovered {t r : List Access} (ht : Tried commands t) (hr : Recovered r) :
    ∃ l, Protocol commands l ∧ t ++ r <+: l := by
  have hnew := ht.extend_attempt hr .nil (List.nil_append commands).symm
  rwa [List.append_nil] at hnew

theorem Follows.extend {pc : Pc} {l : List Access} (h : Follows commands pc l) :
    ∃ l', Protocol commands l' ∧ l <+: l' := by
  cases h with
  | entry polling =>
    have htried : Tried commands (l ++ [.iordSR 0]) :=
      ⟨_, 0, [], by simp, polling.done rfl, fun f hf => absurd hf List.not_mem_nil⟩
    obtain ⟨l', hl', hpre⟩ := htried.extend_recovered ⟨0, .top 0, rfl⟩
    refine ⟨l', hl', (List.prefix_append _ _).trans ((List.prefix_append _ _).trans hpre)⟩
  | top tried =>
    obtain ⟨l', hl', hpre⟩ := tried.extend_recovered ⟨0, .top 0, rfl⟩
    exact ⟨l', hl', (List.prefix_append _ _).trans hpre⟩
  | busy tried recovering hbusy =>
    obtain ⟨l', hl', hpre⟩ := tried.extend_recovered ⟨0, recovering.free hbusy rfl, rfl⟩
    refine ⟨l', hl', List.IsPrefix.trans ?_ hpre⟩
    rw [← List.append_assoc]
    exact List.prefix_append _ _
  | recovery tried recovering hbusy hstill polling =>
    obtain ⟨l', hl', hpre⟩ := tried.extend_recovered
      ⟨1, recovering.stop hbusy hstill (polling.done rfl), rfl⟩
    refine ⟨l', hl', List.IsPrefix.trans ?_ hpre⟩
    refine ⟨[.iordSR 1], ?_⟩
    simp
  | @command t r a p cs rest c tried recovered acked hcommands polling =>
    have hsnoc : commands = (cs ++ [c]) ++ rest := by simp [hcommands]
    obtain ⟨l', hl', hpre⟩ := tried.extend_attempt recovered
      (acked.snoc (polling.done c.answer_finished) c.answer_accepted) hsnoc
    refine ⟨l', hl', List.IsPrefix.trans ?_ hpre⟩
    refine ⟨[.iordSR c.answer], ?_⟩
    simp
  | returned protocol => exact ⟨l, protocol, List.prefix_rfl⟩

end

/-! ### The statuses of a run -/

def Access.status : Access → Option Byte
  | .iordSR v => some v
  | _ => none

/-- The values of the status register, in the order of the reads. -/
def statuses (l : List Access) : List Byte := l.filterMap Access.status

theorem statuses_append (l l' : List Access) : statuses (l ++ l') = statuses l ++ statuses l' :=
  List.filterMap_append

theorem statuses_writes (c : Command) : statuses c.writes = [] := by
  obtain ⟨_ | _, cr, nack⟩ := c <;> rfl

theorem Master.statuses_issue (s : Master) (commands : List Command) :
    statuses (s.issue commands).accesses = statuses s.accesses := by
  cases commands with
  | nil => rfl
  | cons c rest => rw [Master.issue, statuses_append, statuses_writes, List.append_nil]

theorem Master.statuses_whileBusy (s : Master) (commands : List Command) (temp : Byte) :
    statuses (s.whileBusy commands temp).accesses = statuses s.accesses := by
  rw [Master.whileBusy]
  split
  · rfl
  · exact s.statuses_issue commands

theorem Master.statuses_afterRead (s : Master) (commands : List Command) (temp : Byte) :
    statuses (s.afterRead commands temp).accesses = statuses s.accesses := by
  simp only [Master.afterRead]
  cases s.pc with
  | entry => dsimp only; split <;> rfl
  | top => exact s.statuses_whileBusy commands temp
  | busy =>
    dsimp only
    split
    · rw [statuses_append]
      exact List.append_nil _
    · exact s.statuses_whileBusy commands temp
  | recovery =>
    dsimp only
    split
    · rfl
    · exact s.statuses_whileBusy commands temp
  | command c rest =>
    dsimp only
    split
    · rfl
    · split
      · rfl
      · exact s.statuses_issue rest
  | returned => rfl

/-- A run reads the values it is given, up to the end of the call. -/
theorem statuses_run (commands : List Command) (sr : List Byte) :
    statuses (Master.run commands sr).accesses <+: sr ∧
      ((Master.run commands sr).pc ≠ .returned →
        statuses (Master.run commands sr).accesses = sr) := by
  induction sr using List.reverseRecOn with
  | nil => exact ⟨List.prefix_rfl, fun _ => rfl⟩
  | append_singleton sr temp ih =>
    have hrun : Master.run commands (sr ++ [temp]) =
        (Master.run commands sr).step commands temp := by
      rw [Master.run, List.foldl_append]
      rfl
    rw [hrun, Master.step]
    split
    · next hreturned => exact ⟨ih.1.trans (List.prefix_append _ _), fun h => absurd hreturned h⟩
    · next hpc =>
      have hread : statuses ((Master.run commands sr).accesses ++ [.iordSR temp]) =
          sr ++ [temp] := by
        rw [statuses_append, ih.2 hpc]
        rfl
      rw [Master.statuses_afterRead]
      exact ⟨hread ▸ List.prefix_rfl, fun _ => hread⟩

/-! ### The two routines -/

/-- Both routines keep to the protocol, whatever the status register reads as: what they
have done is the beginning of a call that returns, and a call that has returned is one. -/
theorem registerAccess_protocol (address reg data : Byte) (sr : List Byte) (rxr : Byte) :
    ((∃ l, Protocol (writeRegCommands address reg data) l ∧
        (writeReg address reg data sr).accesses <+: l) ∧
      statuses (writeReg address reg data sr).accesses <+: sr ∧
      ((writeReg address reg data sr).pc = .returned →
        Protocol (writeRegCommands address reg data) (writeReg address reg data sr).accesses)) ∧
    ((∃ l, Protocol (readRegCommands address reg) l ∧
        (Master.run (readRegCommands address reg) sr).accesses <+: l) ∧
      statuses (Master.run (readRegCommands address reg) sr).accesses <+: sr ∧
      ∀ v l, readReg address reg sr rxr = some (v, l) → v = rxr ∧
        ∃ l', l = l' ++ [.iordRXR v] ∧ Protocol (readRegCommands address reg) l') := by
  refine ⟨⟨(follows_run _ sr).extend, (statuses_run _ sr).1, fun hpc => ?_⟩,
    (follows_run _ sr).extend, (statuses_run _ sr).1, fun v l hread => ?_⟩
  · have hfollows := follows_run (writeRegCommands address reg data) sr
    rw [show (Master.run (writeRegCommands address reg data) sr).pc = .returned from hpc]
      at hfollows
    cases hfollows with
    | returned protocol => exact protocol
  · have hfollows := follows_run (readRegCommands address reg) sr
    simp only [readReg] at hread
    split at hread
    · next hpc =>
      cases hread
      rw [hpc] at hfollows
      cases hfollows with
      | returned protocol => exact ⟨rfl, _, rfl, protocol⟩
    · cases hread

/-- The second attempt is the one that passes. -/
example : readReg 0x55 7 [0x00, 0x00, 0x81, 0x00, 0x01, 0x01, 0x02, 0x01, 0x81] 0x2a = some (0x2a,
    [.iordSR 0x00, .iordSR 0x00, .iowrTXR 0xaa, .iowrCR 0x91, .iordSR 0x81,
      .iordSR 0x00, .iowrTXR 0xaa, .iowrCR 0x91, .iordSR 0x01, .iowrTXR 7, .iowrCR 0x11,
      .iordSR 0x01, .iowrTXR 0xab, .iowrCR 0x91, .iordSR 0x02, .iordSR 0x01, .iowrCR 0x69,
      .iordSR 0x81, .iordRXR 0x2a]) := by
  decide

end SocCrypto.I2c
