import Mathlib.Data.Nat.Nth
import Mathlib.Order.Lattice.Nat
import Mathlib.Order.Monotone.Basic

/-!
# Clocked machines

A synchronous machine is a step function `S → I → S`: one application is one
clock edge, the input is what the ports carry in the cycle before that edge.
`Leads` is the total-correctness rule of such a machine under an assumption on
its inputs: a fixed number of cycles, all quiet, after which a property holds.
Counting loops, sequencing and waiting for a child machine are its three rules.
-/

namespace SocCrypto.Clocked

variable {S I C J : Type}

/-- State after `t` cycles under the input stream `i`. -/
def run (step : S → I → S) (s : S) (i : ℕ → I) : ℕ → S
  | 0 => s
  | t + 1 => step (run step s i t) (i t)

theorem run_add (step : S → I → S) (s : S) (i : ℕ → I) (a b : ℕ) :
    run step s i (a + b) = run step (run step s i a) (fun t => i (a + t)) b := by
  induction b with
  | zero => rfl
  | succ b ih =>
    show step (run step s i (a + b)) (i (a + b)) = _
    rw [ih]
    rfl

theorem run_last (step : S → I → S) (s : S) (i : ℕ → I) (t : ℕ) :
    run step s i (t + 1) = step (run step s i t) (i t) := rfl

theorem run_succ (step : S → I → S) (s : S) (i : ℕ → I) (t : ℕ) :
    run step s i (t + 1) = run step (step s (i 0)) (fun t => i (t + 1)) t := by
  rw [Nat.add_comm, run_add]
  simp only [Nat.add_comm 1]
  rfl

/-- A run depends on the inputs before its end only. -/
theorem run_congr {step : S → I → S} {s : S} {i j : ℕ → I} {t : ℕ} (h : ∀ u < t, i u = j u) :
    run step s i t = run step s j t := by
  induction t with
  | zero => rfl
  | succ t ih =>
    show step (run step s i t) (i t) = step (run step s j t) (j t)
    rw [ih fun u hu => h u (by omega), h t (by omega)]

theorem run_invariant {step : S → I → S} {P : S → Prop} (hstep : ∀ s i, P s → P (step s i))
    {s : S} (hs : P s) (i : ℕ → I) (t : ℕ) : P (run step s i t) := by
  induction t with
  | zero => exact hs
  | succ t ih => exact hstep _ _ ih

theorem run_conserves {T : Type} {step : S → I → S} {f : S → T} (hf : ∀ s i, f (step s i) = f s)
    (s : S) (i : ℕ → I) (t : ℕ) : f (run step s i t) = f s :=
  run_invariant (P := fun u => f u = f s) (fun _ _ h => (hf _ _).trans h) rfl i t

/-- A run follows the run of another machine when each step does. -/
theorem run_simulates {step : S → I → S} {step' : C → J → C} {P : S → Prop} {abs : S → C}
    {f : I → J} (hP : ∀ s i, P s → P (step s i))
    (hstep : ∀ s i, P s → abs (step s i) = step' (abs s) (f i))
    (s : S) (i : ℕ → I) (hs : P s) (t : ℕ) :
    P (run step s i t) ∧ abs (run step s i t) = run step' (abs s) (fun u => f (i u)) t := by
  induction t with
  | zero => exact ⟨hs, rfl⟩
  | succ t ih =>
    refine ⟨hP _ _ ih.1, ?_⟩
    show abs (step (run step s i t) (i t)) = step' (run step' (abs s) (fun u => f (i u)) t) (f (i t))
    rw [hstep _ _ ih.1, ih.2]

/-- `Leads step hold quiet Q n s`: whatever inputs satisfying `hold` arrive,
the next `n` cycles from `s` are quiet and the state after them satisfies `Q`. -/
def Leads (step : S → I → S) (hold : I → Prop) (quiet : S → I → Prop) (Q : S → Prop) :
    ℕ → S → Prop
  | 0, s => Q s
  | n + 1, s => ∀ i, hold i → quiet s i ∧ Leads step hold quiet Q n (step s i)

variable {step : S → I → S} {hold : I → Prop} {quiet : S → I → Prop} {Q R : S → Prop}

theorem Leads.mono (h : ∀ s, Q s → R s) {n : ℕ} {s : S}
    (hs : Leads step hold quiet Q n s) : Leads step hold quiet R n s := by
  induction n generalizing s with
  | zero => exact h s hs
  | succ n ih => exact fun i hi => ⟨(hs i hi).1, ih (hs i hi).2⟩

/-- Sequencing: what the first phase leads to leads on. -/
theorem Leads.trans {m n : ℕ} {s : S}
    (hs : Leads step hold quiet (Leads step hold quiet Q n) m s) :
    Leads step hold quiet Q (m + n) s := by
  induction m generalizing s with
  | zero =>
    rw [Nat.zero_add]
    exact hs
  | succ m ih =>
    rw [Nat.succ_add]
    exact fun i hi => ⟨(hs i hi).1, ih (hs i hi).2⟩

theorem Leads.seq {m n : ℕ} {s : S} (hs : Leads step hold quiet R m s)
    (h : ∀ s, R s → Leads step hold quiet Q n s) :
    Leads step hold quiet Q (m + n) s :=
  (hs.mono h).trans

theorem Leads.cons {n : ℕ} {s : S}
    (h : ∀ i, hold i → quiet s i ∧ Leads step hold quiet Q n (step s i)) :
    Leads step hold quiet Q (n + 1) s := h

/-- Counting loop: `P k` holds before cycle `k` of the loop. -/
theorem Leads.loop (P : ℕ → S → Prop) (n : ℕ)
    (hstep : ∀ k < n, ∀ s i, P k s → hold i → quiet s i ∧ P (k + 1) (step s i))
    {s : S} (hs : P 0 s) : Leads step hold quiet (P n) n s := by
  have key : ∀ m k s, k + m = n → P k s → Leads step hold quiet (P n) m s := by
    intro m
    induction m with
    | zero =>
      intro k s hk hp
      have hkn : k = n := by omega
      subst hkn
      exact hp
    | succ m ih =>
      intro k s hk hp i hi
      have hq := hstep k (by omega) s i hp hi
      exact ⟨hq.1, ih (k + 1) (step s i) (by omega) hq.2⟩
  exact key n 0 s (by omega) hs

/-- Counting loop whose body takes `c` cycles. -/
theorem Leads.iterate (P : ℕ → S → Prop) (n c : ℕ)
    (hbody : ∀ k < n, ∀ s, P k s → Leads step hold quiet (P (k + 1)) c s)
    {s : S} (hs : P 0 s) : Leads step hold quiet (P n) (n * c) s := by
  induction n with
  | zero =>
    rw [Nat.zero_mul]
    exact hs
  | succ n ih =>
    rw [Nat.succ_mul]
    exact (ih fun k hk => hbody k (by omega)).seq (hbody n (by omega))

/-- Waiting for a child machine: while the child is quiet the parent keeps its
waiting assertion `W` and feeds the child an input it accepts. -/
theorem Leads.wait {step' : C → J → C} {hold' : J → Prop} {quiet' : C → J → Prop}
    {Q' : C → Prop} (child : S → C) (input : S → I → J) (W : S → Prop)
    (hin : ∀ s i, W s → hold i → hold' (input s i))
    (hstep : ∀ s i, W s → hold i → quiet' (child s) (input s i) →
      quiet s i ∧ W (step s i) ∧ child (step s i) = step' (child s) (input s i))
    {n : ℕ} {s : S} (hW : W s) (hc : Leads step' hold' quiet' Q' n (child s)) :
    Leads step hold quiet (fun s => W s ∧ Q' (child s)) n s := by
  induction n generalizing s with
  | zero => exact ⟨hW, hc⟩
  | succ n ih =>
    intro i hi
    have hq := hc (input s i) (hin s i hW hi)
    obtain ⟨h1, h2, h3⟩ := hstep s i hW hi hq.1
    refine ⟨h1, ih h2 ?_⟩
    rw [h3]
    exact hq.2

/-- What `Leads` says of a run: quiet for `n` cycles, then `Q`. -/
theorem Leads.run {n : ℕ} {s : S} (hs : Leads step hold quiet Q n s) (i : ℕ → I)
    (hi : ∀ t < n, hold (i t)) :
    (∀ t < n, quiet (run step s i t) (i t)) ∧ Q (run step s i n) := by
  induction n generalizing s i with
  | zero => exact ⟨fun t ht => absurd ht (Nat.not_lt_zero t), hs⟩
  | succ n ih =>
    have h0 := hs (i 0) (hi 0 (by omega))
    have htail := ih h0.2 (fun t => i (t + 1)) (fun t ht => hi (t + 1) (by omega))
    refine ⟨?_, ?_⟩
    · intro t ht
      cases t with
      | zero => exact h0.1
      | succ t =>
        rw [run_succ]
        exact htail.1 t (by omega)
    · rw [run_succ]
      exact htail.2

theorem Leads.run_cons {n : ℕ} {s : S} (i : ℕ → I) (h0 : quiet s (i 0))
    (hs : Leads step hold quiet Q n (step s (i 0))) (hi : ∀ t < n, hold (i (t + 1))) :
    (∀ t < n + 1, quiet (Clocked.run step s i t) (i t)) ∧ Q (Clocked.run step s i (n + 1)) := by
  have htail := hs.run (fun t => i (t + 1)) hi
  constructor
  · intro t ht
    cases t with
    | zero => exact h0
    | succ t =>
      rw [run_succ]
      exact htail.1 t (by omega)
  · rw [run_succ]
    exact htail.2

/-! ### Phases of unknown length -/

/-- Whatever inputs satisfying `hold` arrive, a number of quiet cycles leads to `Q`; it may
depend on the inputs. -/
def Ends (step : S → I → S) (hold : I → Prop) (quiet : S → I → Prop) (Q : S → Prop) (s : S) :
    Prop :=
  ∀ i, (∀ t, hold (i t)) →
    ∃ n, (∀ t < n, quiet (run step s i t) (i t)) ∧ Q (run step s i n)

theorem Leads.ends {n : ℕ} {s : S} (h : Leads step hold quiet Q n s) :
    Ends step hold quiet Q s :=
  fun i hi => ⟨n, h.run i fun t _ => hi t⟩

theorem Ends.conserves {T : Type} {f : S → T} (hf : ∀ s i, f (step s i) = f s) {s : S}
    (hs : Ends step hold quiet Q s) : Ends step hold quiet (fun u => Q u ∧ f u = f s) s := by
  intro i hi
  obtain ⟨n, hbefore, hQ⟩ := hs i hi
  exact ⟨n, hbefore, hQ, run_conserves hf s i n⟩

theorem Ends.seq {s : S} (hs : Ends step hold quiet R s)
    (h : ∀ s, R s → Ends step hold quiet Q s) : Ends step hold quiet Q s := by
  intro i hi
  obtain ⟨m, hbefore, hR⟩ := hs i hi
  obtain ⟨n, hafter, hQ⟩ := h _ hR (fun t => i (m + t)) fun t => hi (m + t)
  refine ⟨m + n, ?_, ?_⟩
  · intro t ht
    rcases Nat.lt_or_ge t m with hlt | hge
    · exact hbefore t hlt
    · obtain ⟨u, rfl⟩ := Nat.exists_eq_add_of_le hge
      rw [run_add]
      exact hafter u (by omega)
  · rw [run_add]
    exact hQ

theorem Ends.cons {s : S} (h : ∀ i, hold i → quiet s i ∧ Ends step hold quiet Q (step s i)) :
    Ends step hold quiet Q s := by
  intro i hi
  obtain ⟨hnow, hrest⟩ := h (i 0) (hi 0)
  obtain ⟨n, hafter, hQ⟩ := hrest (fun t => i (t + 1)) fun t => hi (t + 1)
  refine ⟨n + 1, ?_, ?_⟩
  · intro t ht
    cases t with
    | zero => exact hnow
    | succ t =>
      rw [run_succ]
      exact hafter t (by omega)
  · rw [run_succ]
    exact hQ

/-! ### Machines side by side -/

/-- A machine `k` cycles after its start: quiet before cycle `m`, in which `Q` holds, and `R`
holds from then on. -/
structure Timed (step : S → I → S) (hold : I → Prop) (quiet : S → I → Prop) (Q R : S → Prop)
    (m k : ℕ) (s : S) : Prop where
  busy : k ≤ m → Leads step hold quiet Q (m - k) s
  ended : m < k → R s

theorem Timed.start {m : ℕ} {s : S} (h : Leads step hold quiet Q m s) :
    Timed step hold quiet Q R m 0 s where
  busy := fun _ => h
  ended := fun hm => absurd hm (Nat.not_lt_zero m)

theorem Timed.done {m : ℕ} {s : S} (h : Timed step hold quiet Q R m m s) : Q s := by
  have hnow := h.busy le_rfl
  rw [Nat.sub_self] at hnow
  exact hnow

theorem Timed.before {m k : ℕ} {s : S} {i : I} (h : Timed step hold quiet Q R m k s) (hk : k < m)
    (hi : hold i) : quiet s i := by
  have hnow := h.busy hk.le
  rw [show m - k = m - (k + 1) + 1 by omega] at hnow
  exact (hnow i hi).1

theorem Timed.next {m k : ℕ} {s : S} {i : I} (h : Timed step hold quiet Q R m k s)
    (hi : k < m → hold i) (hend : Q s → R (step s i)) (hkeep : R s → R (step s i)) :
    Timed step hold quiet Q R m (k + 1) (step s i) := by
  constructor
  case busy =>
    intro hk
    have hnow := h.busy (by omega)
    rw [show m - k = m - (k + 1) + 1 by omega] at hnow
    exact (hnow i (hi hk)).2
  case ended =>
    intro hk
    rcases Nat.lt_or_eq_of_le (Nat.lt_succ_iff.mp hk) with hlt | rfl
    · exact hkeep (h.ended hlt)
    · exact hend h.done

/-- The first cycle with a signal up is known. -/
theorem first_iff {valid : ℕ → Bool} {P : ℕ → Prop} {m : ℕ} (hlow : ∀ t < m, valid t = false)
    (hm : valid m = true) :
    (∃ T, (∀ t < T, valid t = false) ∧ valid T = true ∧ P T) ↔ P m := by
  constructor
  · rintro ⟨T, hbefore, hT, hP⟩
    have heq : T = m := by
      rcases Nat.lt_trichotomy T m with hlt | heq | hgt
      · rw [hlow T hlt] at hT
        cases hT
      · exact heq
      · rw [hbefore m hgt] at hm
        cases hm
    rw [← heq]
    exact hP
  · exact fun hP => ⟨m, hlow, hm, hP⟩

/-! ### Clock edges

A machine in a system with several clocks moves in the cycles with an edge of its own one. -/

theorem infinite_edges {p : ℕ → Prop} (hp : ∀ t, ∃ u ≥ t, p u) : (Set.ofPred p).Infinite := by
  refine Set.infinite_of_not_bddAbove ?_
  rintro ⟨b, hb⟩
  obtain ⟨u, hu, hpu⟩ := hp (b + 1)
  have hle : u ≤ b := hb hpu
  omega

section
variable {p : ℕ → Prop} [DecidablePred p] {x : ℕ → S} {j : ℕ → I}

/-- The state after `t` cycles is the state after as many edges as these have. -/
theorem run_count (hedge : ∀ t, p t → x (t + 1) = step (x t) (j t))
    (hnone : ∀ t, ¬ p t → x (t + 1) = x t) (t : ℕ) :
    x t = run step (x 0) (fun k => j (Nat.nth p k)) (Nat.count p t) := by
  induction t with
  | zero =>
    rw [Nat.count_zero]
    rfl
  | succ t ih =>
    by_cases ht : p t
    · rw [hedge t ht, Nat.count_succ, if_pos ht, run_last, Nat.nth_count ht, ← ih]
    · rw [hnone t ht, Nat.count_succ, if_neg ht, Nat.add_zero]
      exact ih

/-- Edges that never stop reach every count. -/
theorem exists_edge (hp : ∀ t, ∃ u ≥ t, p u) (k : ℕ) : ∃ t, p t ∧ Nat.count p t = k := by
  have hinf := infinite_edges hp
  exact ⟨Nat.nth p k, Nat.nth_mem_of_infinite hinf k, Nat.count_nth_of_infinite hinf k⟩

/-- What moves in the cycles of an edge only is at an edge what the edge before has left. -/
theorem nth_succ {α : Type} {g : ℕ → α} (hp : ∀ t, ∃ u ≥ t, p u)
    (hnone : ∀ t, ¬ p t → g (t + 1) = g t) (k : ℕ) :
    g (Nat.nth p (k + 1)) = g (Nat.nth p k + 1) := by
  have hinf := infinite_edges hp
  have hbetween : ∀ t, Nat.nth p k + 1 ≤ t → t ≤ Nat.nth p (k + 1) →
      g t = g (Nat.nth p k + 1) := by
    intro t ht
    induction t, ht using Nat.le_induction with
    | base => exact fun _ => rfl
    | succ t ht ih =>
      intro hle
      rw [hnone t ?_, ih (by omega)]
      intro hpt
      obtain ⟨hlow, hhigh⟩ : Nat.nth p k < t ∧ t < Nat.nth p (k + 1) := ⟨by omega, by omega⟩
      rw [← Nat.nth_count hpt, Nat.nth_lt_nth hinf] at hlow hhigh
      omega
  exact hbetween _ ((Nat.nth_lt_nth hinf).mpr (Nat.lt_succ_self k)) le_rfl

theorem nth_zero {α : Type} {g : ℕ → α} (hp : ∀ t, ∃ u ≥ t, p u)
    (hnone : ∀ t, ¬ p t → g (t + 1) = g t) : g (Nat.nth p 0) = g 0 := by
  have hbefore : ∀ t ≤ Nat.nth p 0, g t = g 0 := by
    intro t
    induction t with
    | zero => exact fun _ => rfl
    | succ t ih =>
      intro hle
      rw [hnone t ?_, ih (by omega)]
      intro hpt
      have hlow : t < Nat.nth p 0 := hle
      rw [← Nat.nth_count hpt, Nat.nth_lt_nth (infinite_edges hp)] at hlow
      omega
  exact hbefore _ le_rfl

theorem lt_of_count_lt {t u : ℕ} (h : Nat.count p t < Nat.count p u) : t < u := by
  by_contra hge
  exact absurd (Nat.count_monotone p (Nat.le_of_not_lt hge)) (Nat.not_le.mpr h)

end

/-! ### Eventual progress -/

/-- A quantity that never grows is constant from some time on. -/
theorem exists_stable (μ : ℕ → ℕ) (h : ∀ t, μ (t + 1) ≤ μ t) :
    ∃ t₀, ∀ t ≥ t₀, μ t = μ t₀ := by
  have hanti : Antitone μ := antitone_nat_of_succ_le h
  obtain ⟨t₀, hmin⟩ : ∃ t₀, ∀ t, μ t₀ ≤ μ t := by
    have hne : (Set.range μ).Nonempty := ⟨μ 0, 0, rfl⟩
    obtain ⟨t₀, ht₀⟩ := Nat.sInf_mem hne
    exact ⟨t₀, fun t => ht₀ ▸ Nat.sInf_le ⟨t, rfl⟩⟩
  exact ⟨t₀, fun t ht => le_antisymm (hanti ht) (hmin t)⟩

/-- What persists from some time on, yet ends again and again, does not hold from then on. -/
theorem never_of_persists {P : ℕ → Prop} {T : ℕ} (hstep : ∀ t ≥ T, P t → P (t + 1))
    (hends : ∀ t ≥ T, ∃ u ≥ t, ¬ P u) : ∀ t ≥ T, ¬ P t := by
  intro t ht hnow
  have hkept : ∀ u ≥ t, P u := by
    intro u hu
    induction u, hu using Nat.le_induction with
    | base => exact hnow
    | succ u hu ih => exact hstep u (by omega) ih
  obtain ⟨u, hu, hend⟩ := hends t ht
  exact hend (hkept u hu)

end SocCrypto.Clocked
