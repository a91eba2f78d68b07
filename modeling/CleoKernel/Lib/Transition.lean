/-
# Runs of labelled transition systems, and refinement of deterministic machines

Three notions of execution are used in this development.

* A concurrent component is a relation `step : ℓ → σ → σ → Prop`: a label, the state before
  and the state after.  `Run step s₀ tr s` says that `s` is reached from `s₀` by steps whose
  labels, in order, are `tr`.
* A sequential component is a `Machine`: every operation either answers and moves to a new
  state, or is undefined (`none`).  `Machine.run` executes a list of operations.
* A program decides itself how long it runs.  `runUntil next stop fuel` takes steps of a
  function until `stop` holds, and `Reaches` says that it gets there for every large enough
  amount of fuel.  What comes after the stop, and what never stops, is followed with `runFor`,
  which takes a given number of steps.

Nothing here knows what is being executed.  The rules proved are those that later modules use:
an invariant holds in every reached state (`Run.invariant`), a fact about each label holds of
the whole trace (`Run.forall_label`), steps that lower a rank are few
(`Run.rank_add_countP_le`), a step-wise simulation lifts to whole runs with equal
answers (`Machine.run_refines`, and `Machine.run_map` where the simulation is a map), a program
that runs to a stop can be followed one step at a time (`Reaches.step`), and one that keeps a
silent invariant never stops (`runFor_silent`).
-/
import Mathlib.Data.List.Basic

namespace CleoKernel.Transition

/-! ## 1. Runs of a labelled step relation -/

section Runs

variable {σ ℓ : Type*} {step : ℓ → σ → σ → Prop} {s₀ s : σ} {tr : List ℓ}

/-- `Run step s₀ tr s`: the steps labelled `tr`, in this order, lead from `s₀` to `s`. -/
inductive Run (step : ℓ → σ → σ → Prop) (s₀ : σ) : List ℓ → σ → Prop
  | start : Run step s₀ [] s₀
  | next {tr : List ℓ} {a : ℓ} {s s' : σ} :
      Run step s₀ tr s → step a s s' → Run step s₀ (tr ++ [a]) s'

/-- **The invariant rule.**  What holds at the start and is kept by every step holds in every
state a run reaches. -/
theorem Run.invariant {I : σ → Prop} (h : Run step s₀ tr s) (hinit : I s₀)
    (hstep : ∀ a s s', I s → step a s s' → I s') : I s := by
  induction h with
  | start => exact hinit
  | next _ hs ih => exact hstep _ _ _ ih hs

/-- **The trace rule.**  What every step from an invariant state makes true of its label is
true of every label of a run. -/
theorem Run.forall_label {I : σ → Prop} {P : ℓ → Prop} (h : Run step s₀ tr s) (hinit : I s₀)
    (hstep : ∀ a s s', I s → step a s s' → I s')
    (hlabel : ∀ a s s', I s → step a s s' → P a) : ∀ a ∈ tr, P a := by
  induction h with
  | start => simp
  | @next tr a s s' hrun hs ih =>
    intro b hb
    rcases List.mem_append.mp hb with hb | hb
    · exact ih b hb
    · rw [List.mem_singleton.mp hb]
      exact hlabel a s s' (hrun.invariant hinit hstep) hs

/-- **The rank rule.**  If, while the labels are `quiet`, every step that is `mine` lowers the
rank and no step raises it, a quiet run has at most `rank` steps of mine. -/
theorem Run.rank_add_countP_le {I : σ → Prop} {quiet : ℓ → Prop} (rank : σ → ℕ)
    (mine : ℓ → Bool) (h : Run step s₀ tr s) (hquiet : ∀ a ∈ tr, quiet a) (hinit : I s₀)
    (hstep : ∀ a s s', I s → quiet a → step a s s' →
      I s' ∧ rank s' + (if mine a then 1 else 0) ≤ rank s) :
    I s ∧ rank s + tr.countP mine ≤ rank s₀ := by
  induction h with
  | start => exact ⟨hinit, Nat.le_refl _⟩
  | @next tr a s s' _ hs ih =>
    obtain ⟨hI, hle⟩ := ih fun b hb => hquiet b (List.mem_append_left _ hb)
    have hqa : quiet a := hquiet a (List.mem_append_right _ (List.mem_singleton_self a))
    obtain ⟨hI', hstep'⟩ := hstep a s s' hI hqa hs
    refine ⟨hI', ?_⟩
    calc rank s' + (tr ++ [a]).countP mine
        = rank s' + (if mine a then 1 else 0) + tr.countP mine := by
          rw [List.countP_append, List.countP_singleton, Nat.add_assoc, Nat.add_comm (tr.countP _)]
      _ ≤ rank s + tr.countP mine := Nat.add_le_add_right hstep' _
      _ ≤ rank s₀ := hle

end Runs

/-! ## 2. Deterministic machines with undefined behaviour -/

/-- An operation `o` in state `s` answers `r` and moves to `s'` (`some (r, s')`), or has no
defined behaviour (`none`). -/
abbrev Machine (σ ω ρ : Type*) := ω → σ → Option (ρ × σ)

namespace Machine

variable {σ τ ω ρ : Type*}

/-- Execute the operations in order; the answers come out in the same order. -/
def run (m : Machine σ ω ρ) : List ω → σ → Option (List ρ × σ)
  | [], s => some ([], s)
  | o :: os, s =>
    (m o s).bind fun (r, s') => (run m os s').map fun (rs, s'') => (r :: rs, s'')

theorem run_nil (m : Machine σ ω ρ) (s : σ) : m.run [] s = some ([], s) := rfl

/-- A run of `o :: os` is one step of `o` and a run of `os` from where that step ends. -/
theorem run_cons_eq_some {m : Machine σ ω ρ} {o : ω} {os : List ω} {s s'' : σ}
    {rs : List ρ} : m.run (o :: os) s = some (rs, s'') ↔
      ∃ r s' rs', m o s = some (r, s') ∧ m.run os s' = some (rs', s'') ∧ rs = r :: rs' := by
  simp only [run, Option.bind_eq_some_iff, Option.map_eq_some_iff, Prod.exists, Prod.mk.injEq]
  constructor
  · rintro ⟨r, s', h1, rs', t, h2, rfl, rfl⟩
    exact ⟨r, s', rs', h1, h2, rfl⟩
  · rintro ⟨r, s', rs', h1, h2, rfl⟩
    exact ⟨r, s', h1, rs', s'', h2, rfl, rfl⟩

/-- What every defined step keeps, every defined run keeps. -/
theorem run_invariant {m : Machine σ ω ρ} {I : σ → Prop}
    (hstep : ∀ o s r s', I s → m o s = some (r, s') → I s') :
    ∀ (os : List ω) (s : σ) (rs : List ρ) (s' : σ), I s → m.run os s = some (rs, s') → I s'
  | [], s, rs, s', hs, h => by
    rw [run_nil, Option.some.injEq, Prod.mk.injEq] at h
    exact h.2 ▸ hs
  | o :: os, s, rs, s'', hs, h => by
    obtain ⟨r, s', rs', h1, h2, -⟩ := run_cons_eq_some.mp h
    exact run_invariant hstep os s' rs' s'' (hstep o s r s' hs h1) h2

/-- **A map that commutes with every step commutes with every run**: the answers are the same,
and one of the two runs is undefined when the other is. -/
theorem run_map {m : Machine σ ω ρ} {m' : Machine τ ω ρ} {f : σ → τ}
    (hstep : ∀ o s, (m o s).map (Prod.map id f) = m' o (f s)) (os : List ω) (s : σ) :
    (m.run os s).map (Prod.map id f) = m'.run os (f s) := by
  induction os generalizing s with
  | nil => rfl
  | cons o os ih =>
    rw [run, run, ← hstep]
    cases h : m o s with
    | none => rfl
    | some a =>
      obtain ⟨r, s'⟩ := a
      simp only [Option.bind_some, Option.map_some, Prod.map_apply, id_eq, ← ih, Option.map_map]
      rfl

/-- What no step enters from outside, no run enters from outside. -/
theorem run_back {m : Machine σ ω ρ} {good : σ → Prop}
    (hback : ∀ o s r s', m o s = some (r, s') → good s' → good s)
    {os : List ω} {s s' : σ} {rs : List ρ} (h : m.run os s = some (rs, s')) (hg : good s') :
    good s := by
  by_contra hs
  exact run_invariant (I := fun u => ¬ good u)
    (fun o u r u' hu hstep hu' => hu (hback o u r u' hstep hu')) os s rs s' hs h hg

/-- **Step-wise simulation lifts to runs.**  `R` relates code states to specification states.
If, as long as the specification stays inside `good`, every specification step is matched by
a code step with the same answer that restores `R`, then every specification run that ends
inside `good` is matched by a code run with the same answers.  `good` need only be checked at
the end of the run, because a step never enters it from outside. -/
theorem run_refines {code : Machine σ ω ρ} {spec : Machine τ ω ρ} {R : σ → τ → Prop}
    {good : τ → Prop}
    (hback : ∀ o t r t', spec o t = some (r, t') → good t' → good t)
    (hsim : ∀ o s t r t', R s t → spec o t = some (r, t') → good t' →
      ∃ s', code o s = some (r, s') ∧ R s' t') :
    ∀ (os : List ω) (s : σ) (t : τ) (rs : List ρ) (t' : τ),
      R s t → spec.run os t = some (rs, t') → good t' →
        ∃ s', code.run os s = some (rs, s') ∧ R s' t'
  | [], s, t, rs, t', hR, h, _ => by
    rw [run_nil, Option.some.injEq, Prod.mk.injEq] at h
    obtain ⟨rfl, rfl⟩ := h
    exact ⟨s, rfl, hR⟩
  | o :: os, s, t, rs, t'', hR, h, hg => by
    obtain ⟨r, t', rs', h1, h2, rfl⟩ := run_cons_eq_some.mp h
    have hg' : good t' := run_back hback h2 hg
    obtain ⟨s', hs', hR'⟩ := hsim o s t r t' hR h1 hg'
    obtain ⟨s'', hs'', hR''⟩ := run_refines hback hsim os s' t' rs' t'' hR' h2 hg
    exact ⟨s'', run_cons_eq_some.mpr ⟨r, s', rs', hs', hs'', rfl⟩, hR''⟩

end Machine

/-! ## 3. Programs that run to a stop -/

section Fuel

variable {σ α : Type*} {next : σ → Option (List α × σ)} {stop : σ → Bool} {n : ℕ} {s t u : σ}
  {as bs : List α}

/-- Take steps until `stop` holds, but at most `fuel` of them, and collect what they emit.
`none` when the fuel ran out or a step was undefined. -/
def runUntil (next : σ → Option (List α × σ)) (stop : σ → Bool) :
    ℕ → σ → Option (List α × σ)
  | 0, s => if stop s then some ([], s) else none
  | fuel + 1, s =>
    if stop s then some ([], s)
    else (next s).bind fun (as, s') =>
      (runUntil next stop fuel s').map fun (bs, s'') => (as ++ bs, s'')

/-- From `s` the program comes to a stop in `u`, after at most `n` steps, and emits `as`. -/
def Reaches (next : σ → Option (List α × σ)) (stop : σ → Bool) (n : ℕ) (s : σ) (as : List α)
    (u : σ) : Prop :=
  ∀ fuel, n ≤ fuel → runUntil next stop fuel s = some (as, u)

theorem Reaches.done (h : stop s = true) : Reaches next stop 0 s [] s := by
  intro fuel _
  cases fuel <;> simp [runUntil, h]

/-- Before the stop, one step leads on. -/
theorem Reaches.step (h : stop s = false) (hs : next s = some (as, t))
    (ht : Reaches next stop n t bs u) : Reaches next stop (n + 1) s (as ++ bs) u := by
  intro fuel hfuel
  cases fuel with
  | zero => exact absurd hfuel (Nat.not_succ_le_zero n)
  | succ fuel => simp [runUntil, h, hs, ht fuel (Nat.le_of_succ_le_succ hfuel)]

/-- Take exactly `n` steps and collect what they emit; `none` when one of them was undefined. -/
def runFor (next : σ → Option (List α × σ)) : ℕ → σ → Option (List α × σ)
  | 0, s => some ([], s)
  | n + 1, s =>
    (next s).bind fun (as, s') => (runFor next n s').map fun (bs, s'') => (as ++ bs, s'')

theorem runFor_succ (hs : next s = some (as, t)) (ht : runFor next n t = some (bs, u)) :
    runFor next (n + 1) s = some (as ++ bs, u) := by
  simp [runFor, hs, ht]

/-- A run to a stop is a run of some length, and it has stopped. -/
theorem runFor_of_runUntil {fuel : ℕ} (h : runUntil next stop fuel s = some (as, u)) :
    stop u = true ∧ ∃ n ≤ fuel, runFor next n s = some (as, u) := by
  induction fuel generalizing s as with
  | zero =>
    rw [runUntil] at h
    split at h
    · obtain ⟨rfl, rfl⟩ := Prod.mk.inj (Option.some.inj h)
      exact ⟨‹_›, 0, Nat.le_refl _, rfl⟩
    · exact absurd h (by simp)
  | succ fuel ih =>
    rw [runUntil] at h
    split at h
    · obtain ⟨rfl, rfl⟩ := Prod.mk.inj (Option.some.inj h)
      exact ⟨‹_›, 0, Nat.zero_le _, rfl⟩
    · simp only [Option.bind_eq_some_iff, Option.map_eq_some_iff, Prod.exists,
        Prod.mk.injEq] at h
      obtain ⟨as', t, hs, bs, u', hrest, rfl, rfl⟩ := h
      obtain ⟨hstop, n, hn, hrun⟩ := ih hrest
      exact ⟨hstop, n + 1, Nat.succ_le_succ hn, runFor_succ hs hrun⟩

/-- One more step at the end. -/
theorem runFor_last (h : runFor next n s = some (as, t)) (ht : next t = some (bs, u)) :
    runFor next (n + 1) s = some (as ++ bs, u) := by
  induction n generalizing s as with
  | zero =>
    obtain ⟨rfl, rfl⟩ := Prod.mk.inj (Option.some.inj h)
    simp [runFor, ht]
  | succ n ih =>
    simp only [runFor, Option.bind_eq_some_iff, Option.map_eq_some_iff, Prod.exists,
      Prod.mk.injEq] at h
    obtain ⟨as', s', hs, bs', t', hrest, rfl, rfl⟩ := h
    rw [List.append_assoc]
    exact runFor_succ hs (ih hrest)

/-- **A silent loop.**  Where every step is defined, emits nothing and keeps `I`, a program runs
for ever in silence. -/
theorem runFor_silent {I : σ → Prop} (hstep : ∀ s, I s → ∃ s', next s = some ([], s') ∧ I s')
    (hs : I s) (n : ℕ) : ∃ t, runFor next n s = some ([], t) ∧ I t := by
  induction n with
  | zero => exact ⟨s, rfl, hs⟩
  | succ n ih =>
    obtain ⟨t, hrun, ht⟩ := ih
    obtain ⟨u, hnext, hu⟩ := hstep t ht
    exact ⟨u, runFor_last hrun hnext, hu⟩

end Fuel

end CleoKernel.Transition
