import Mathlib.Data.Nat.Notation
import SocCrypto.Clocked

/-!
# Address steppers

A machine that requests one address after another, `d` apart, and stops when the address
it has advanced to equals an end address. Its requests stay in the window up to the end
address, and it stops, exactly when the window is not empty and `d` divides its length.
`Trace` is what an observer of the requests sees.
-/

namespace SocCrypto
open Clocked

/-! ### Traces of requests -/

@[ext]
structure Trace (w : ℕ) where
  /-- A request is up. -/
  read : ℕ → Bool
  address : ℕ → BitVec w
  /-- The request of the cycle is done with. -/
  moves : ℕ → Bool

namespace Trace
variable {w : ℕ}

/-- Requests done with before cycle `t`. -/
def count (τ : Trace w) : ℕ → ℕ
  | 0 => 0
  | t + 1 => τ.count t + (τ.moves t).toNat

/-- Every request lies in the `length` addresses from `first` on, after finitely many no
further one comes, and when none hangs for ever there is an end to them in time. -/
structure Within (τ : Trace w) (first length : BitVec w) : Prop where
  window : ∀ t, τ.read t = true →
    first.toNat ≤ (τ.address t).toNat ∧ (τ.address t).toNat < first.toNat + length.toNat
  stops : ∃ n, ∀ t, τ.count t ≤ n ∧ (τ.count t = n → τ.read t = false)
  ends : (∀ t, τ.read t = true → ∃ u ≥ t, τ.moves u = true) →
    ∃ T, ∀ t ≥ T, τ.read t = false

theorem count_mono (τ : Trace w) : Monotone τ.count :=
  monotone_nat_of_le_succ fun t => Nat.le_add_right (τ.count t) _

/-- A bounded number of requests, none hanging for ever, comes to an end. -/
theorem ends_of_count_le {τ : Trace w} {n : ℕ} (h : ∀ t, τ.count t ≤ n)
    (hmoves : ∀ t, τ.read t = true → ∃ u ≥ t, τ.moves u = true) :
    ∃ T, ∀ t ≥ T, τ.read t = false := by
  have hanti : ∀ t, n - τ.count (t + 1) ≤ n - τ.count t := fun t =>
    Nat.sub_le_sub_left (τ.count_mono (Nat.le_succ t)) n
  obtain ⟨T, hT⟩ := exists_stable (fun t => n - τ.count t) hanti
  refine ⟨T, fun t ht => ?_⟩
  by_contra hup
  obtain ⟨u, hu, hmove⟩ := hmoves t (by simpa using hup)
  -- one more request is done with after the last one
  have hstep : τ.count (u + 1) = τ.count u + 1 := by rw [count, hmove]; rfl
  have hlate := hT (u + 1) (by omega)
  have hnow := hT u (by omega)
  have hbound := h (u + 1)
  omega

end Trace

/-! ### The machine -/

namespace Stepper

inductive Phase
  | idle | raise | request | compare
  deriving DecidableEq

structure State (w : ℕ) where
  phase : Phase
  address : BitVec w

/-- Which moves the surroundings allow in a cycle. -/
structure Gates where
  start : Bool
  raise : Bool
  accept : Bool

variable {w : ℕ}

def next (d : ℕ) (first last : BitVec w) (s : State w) (g : Gates) : State w :=
  match s.phase with
  | .idle => if g.start then ⟨.raise, first⟩ else s
  | .raise => if g.raise then ⟨.request, s.address⟩ else s
  | .request => if g.accept then ⟨.compare, s.address + BitVec.ofNat w d⟩ else s
  | .compare => if s.address = last then s else ⟨.raise, s.address⟩

def idle : State w := ⟨.idle, 0⟩

/-- State after `t` cycles from idle. -/
def after (d : ℕ) (first last : BitVec w) (g : ℕ → Gates) (t : ℕ) : State w :=
  run (next d first last) idle g t

def trace (d : ℕ) (first last : BitVec w) (g : ℕ → Gates) : Trace w where
  read t := decide ((after d first last g t).phase = .request)
  address t := (after d first last g t).address
  moves t := decide ((after d first last g t).phase = .request) && (g t).accept

/-! ### Inside the window -/

/-- `k` requests are done with. -/
structure At (d : ℕ) (first length : BitVec w) (k : ℕ) (s : State w) : Prop where
  idle : s.phase = .idle → k = 0
  address : s.phase ≠ .idle → s.address = first + BitVec.ofNat w (d * k)
  more : s.phase ≠ .compare → d * k < length.toNat
  le : d * k ≤ length.toNat

section
variable {d : ℕ} {first length : BitVec w} {g : ℕ → Gates}

theorem add_ofNat_inj {a b : ℕ} (ha : a < 2 ^ w) (hb : b < 2 ^ w) :
    first + BitVec.ofNat w a = first + BitVec.ofNat w b ↔ a = b := by
  rw [BitVec.add_right_inj, ← BitVec.toNat_inj, BitVec.toNat_ofNat, BitVec.toNat_ofNat,
    Nat.mod_eq_of_lt ha, Nat.mod_eq_of_lt hb]

theorem At.next {k : ℕ} {s : State w} (h : At d first length k s) (hdvd : d ∣ length.toNat)
    (g : Gates) :
    At d first length (k + (decide (s.phase = .request) && g.accept).toNat)
      (next d first (first + length) s g) := by
  have hlen := length.isLt
  have haddress := h.address
  have hmore := h.more
  have hle := h.le
  obtain ⟨phase, address⟩ := s
  cases phase with
  | idle =>
    have hk : k = 0 := h.idle rfl
    subst hk
    cases hg : g.start <;> simp only [Stepper.next, hg, if_true, if_false, Bool.false_eq_true]
    · exact h
    · refine ⟨fun hp => (by cases hp), fun _ => ?_, fun _ => hmore (by simp), hle⟩
      simp
  | raise =>
    cases hg : g.raise <;> simp only [Stepper.next, hg, if_true, if_false, Bool.false_eq_true]
    · exact h
    · exact ⟨fun hp => (by cases hp), fun _ => haddress (by simp), fun _ => hmore (by simp), hle⟩
  | request =>
    have hstep := haddress (by simp)
    have hlow := hmore (by simp)
    cases hg : g.accept <;> simp only [Stepper.next, hg, if_true, if_false, Bool.false_eq_true]
    · exact h
    · obtain ⟨n, hn⟩ := hdvd
      have hk : k < n := Nat.lt_of_mul_lt_mul_left (hn ▸ hlow)
      refine ⟨fun hp => (by cases hp), fun _ => ?_, fun hc => absurd rfl hc, ?_⟩
      · simp only at hstep
        rw [hstep, BitVec.add_assoc, ← BitVec.ofNat_add]
        rfl
      · rw [hn]
        exact Nat.mul_le_mul_left d hk
  | compare =>
    have hstep := haddress (by simp)
    by_cases hend : address = first + length
    · simp only [Stepper.next, hend, if_true]
      subst hend
      exact h
    · simp only [Stepper.next, hend, if_false]
      refine ⟨fun hp => (by cases hp), fun _ => hstep, fun _ => ?_, hle⟩
      -- the comparison has just failed
      refine lt_of_le_of_ne hle fun heq => hend ?_
      have hlength : length = BitVec.ofNat w (d * k) := by
        change d * k = length.toNat at heq
        rw [heq, BitVec.ofNat_toNat, BitVec.setWidth_eq]
      rw [hlength]
      exact hstep

/-- Cycles a stepper still needs for `n` requests when nothing holds it up. -/
def Phase.rank : Phase → ℕ → ℕ
  | .idle, n => 3 * n + 1
  | .raise, n => 3 * n
  | .request, n => 3 * n - 1
  | .compare, n => 3 * n + 1

/-- The rank does not grow, and a cycle that leaves it alone is one the stepper waits in. -/
theorem At.rank_next {k n : ℕ} {s : State w} (h : At d first length k s)
    (hlength : length.toNat = d * n) (hpos : 0 < d) (g : Gates) :
    let moves := decide (s.phase = .request) && g.accept
    let s' := Stepper.next d first (first + length) s g
    s'.phase.rank (n - (k + moves.toNat)) ≤ s.phase.rank (n - k) ∧
      (s'.phase.rank (n - (k + moves.toNat)) = s.phase.rank (n - k) →
        (s.phase = .idle ∧ g.start = false) ∨ (s.phase = .raise ∧ g.raise = false) ∨
          (s.phase = .request ∧ g.accept = false) ∨ (s.phase = .compare ∧ k = n)) := by
  have hmore := h.more
  have hle := h.le
  have haddress := h.address
  have hlt := length.isLt
  have hfew : s.phase ≠ .compare → k < n := by
    intro hp
    exact Nat.lt_of_mul_lt_mul_left (hlength ▸ hmore hp)
  obtain ⟨phase, address⟩ := s
  cases phase with
  | idle => cases hg : g.start <;> simp [Stepper.next, hg, Phase.rank]
  | raise =>
    have hk := hfew (by simp)
    cases hg : g.raise
    · simp [Stepper.next, hg, Phase.rank]
    · simp [Stepper.next, hg, Phase.rank]
      omega
  | request =>
    have hk := hfew (by simp)
    cases hg : g.accept
    · simp [Stepper.next, hg, Phase.rank]
    · simp [Stepper.next, hg, Phase.rank]
      omega
  | compare =>
    by_cases hend : address = first + length
    · have hstep := haddress (by simp)
      simp only at hstep
      have hlen : length = BitVec.ofNat w (d * n) := by
        rw [← hlength, BitVec.ofNat_toNat, BitVec.setWidth_eq]
      rw [hend, hlen, add_ofNat_inj (hlength ▸ hlt) (lt_of_le_of_lt hle hlt)] at hstep
      have hkn : n = k := Nat.eq_of_mul_eq_mul_left hpos hstep
      simp [Stepper.next, hend, hkn]
    · simp [Stepper.next, hend, Phase.rank]

variable (first) in
theorem at_after (hlength : 0 < length.toNat) (hdvd : d ∣ length.toNat) (g : ℕ → Gates)
    (t : ℕ) : At d first length ((trace d first (first + length) g).count t)
      (after d first (first + length) g t) := by
  induction t with
  | zero =>
    exact ⟨fun _ => rfl, fun hp => absurd rfl hp, fun _ => hlength, Nat.zero_le _⟩
  | succ t ih => exact ih.next hdvd (g t)

/-- Whatever the surroundings do, a stepper over a window of its stride stays inside. -/
theorem trace_within (hfit : first.toNat + length.toNat ≤ 2 ^ w) (hlength : 0 < length.toNat)
    (hdvd : d ∣ length.toNat) (hpos : 0 < d) (g : ℕ → Gates) :
    (trace d first (first + length) g).Within first length := by
  obtain ⟨n, hn⟩ := hdvd
  have hstops : ∀ t, (trace d first (first + length) g).count t ≤ n ∧
      ((trace d first (first + length) g).count t = n →
        (trace d first (first + length) g).read t = false) := by
    intro t
    have h := at_after first hlength ⟨n, hn⟩ g t
    constructor
    · exact Nat.le_of_mul_le_mul_left (hn ▸ h.le) hpos
    · intro hcount
      refine decide_eq_false fun hphase => ?_
      have hmore := h.more (by simp [hphase])
      rw [hcount, hn] at hmore
      exact lt_irrefl _ hmore
  refine ⟨?_, ⟨n, hstops⟩, Trace.ends_of_count_le fun t => (hstops t).1⟩
  · intro t hup
    have hphase : (after d first (first + length) g t).phase = .request := of_decide_eq_true hup
    have h := at_after first hlength ⟨n, hn⟩ g t
    have hmore := h.more (by simp [hphase])
    have haddress := h.address (by simp [hphase])
    have hat : ((trace d first (first + length) g).address t).toNat =
        first.toNat + d * (trace d first (first + length) g).count t := by
      show (after d first (first + length) g t).address.toNat = _
      rw [haddress, BitVec.toNat_add, BitVec.toNat_ofNat, Nat.add_mod_mod,
        Nat.mod_eq_of_lt (by omega)]
    rw [hat]
    omega

/-! ### Outside the window -/

/-- Nothing holds the stepper up. -/
def unhindered : ℕ → Gates := fun _ => ⟨true, true, true⟩

variable (first) in
theorem after_open (hwidth : d ∣ 2 ^ w) (hdvd : ¬ d ∣ length.toNat) (k : ℕ) :
    after d first (first + length) unhindered (3 * k + 1) =
        ⟨.raise, first + BitVec.ofNat w (d * k)⟩ ∧
      (trace d first (first + length) unhindered).count (3 * k + 1) = k := by
  have hne : ∀ n, first + BitVec.ofNat w (d * n) ≠ first + length := by
    intro n heq
    rw [BitVec.add_right_inj] at heq
    apply hdvd
    rw [← heq, BitVec.toNat_ofNat]
    exact (Nat.dvd_mod_iff hwidth).mpr (Nat.dvd_mul_right d n)
  induction k with
  | zero =>
    refine ⟨?_, rfl⟩
    simp [after, run, next, idle, unhindered]
  | succ k ih =>
    obtain ⟨hstate, hcount⟩ := ih
    have hrequest : after d first (first + length) unhindered (3 * k + 2) =
        ⟨.request, first + BitVec.ofNat w (d * k)⟩ := by
      show next d first (first + length) (after d first (first + length) unhindered (3 * k + 1)) _ = _
      rw [hstate]
      rfl
    have hcompare : after d first (first + length) unhindered (3 * k + 3) =
        ⟨.compare, first + BitVec.ofNat w (d * (k + 1))⟩ := by
      show next d first (first + length) (after d first (first + length) unhindered (3 * k + 2)) _ = _
      rw [hrequest]
      show (⟨.compare, first + BitVec.ofNat w (d * k) + BitVec.ofNat w d⟩ : State w) = _
      rw [BitVec.add_assoc, ← BitVec.ofNat_add]
      rfl
    constructor
    · show next d first (first + length) (after d first (first + length) unhindered (3 * k + 3)) _ = _
      rw [hcompare]
      exact if_neg (hne (k + 1))
    · have hmoves : ∀ t, (trace d first (first + length) unhindered).moves t =
          decide ((after d first (first + length) unhindered t).phase = .request) := fun t =>
        Bool.and_true _
      have hraise : (trace d first (first + length) unhindered).moves (3 * k + 1) = false := by
        rw [hmoves, hstate]
        rfl
      have haccept : (trace d first (first + length) unhindered).moves (3 * k + 2) = true := by
        rw [hmoves, hrequest]
        rfl
      have hdone : (trace d first (first + length) unhindered).moves (3 * k + 3) = false := by
        rw [hmoves, hcompare]
        rfl
      rw [show 3 * (k + 1) + 1 = 3 * k + 1 + 1 + 1 + 1 by omega, Trace.count, Trace.count,
        Trace.count, hcount, hraise, haccept, hdone]
      rfl

/-- Unhindered, it leaves the window or never stops otherwise. -/
theorem not_trace_within (hwidth : d ∣ 2 ^ w) (hbad : ¬ (0 < length.toNat ∧ d ∣ length.toNat)) :
    ¬ (trace d first (first + length) unhindered).Within first length := by
  intro h
  by_cases hdvd : d ∣ length.toNat
  · have hzero : length.toNat = 0 := by
      by_contra hne
      exact hbad ⟨Nat.pos_of_ne_zero hne, hdvd⟩
    have hup : (trace d first (first + length) unhindered).read 2 = true := by
      simp [trace, after, run, next, idle, unhindered]
    have hwindow := h.window 2 hup
    omega
  · obtain ⟨n, hn⟩ := h.stops
    have hcount := (after_open first hwidth hdvd (n + 1)).2
    have hle := (hn (3 * (n + 1) + 1)).1
    omega

end

end Stepper

end SocCrypto
