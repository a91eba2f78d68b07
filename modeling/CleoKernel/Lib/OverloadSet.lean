/-
# Constrained overload sets

A call is resolved against a list of candidates.  A candidate takes part when the call fits it
and its constraint holds; it then stands for an expression (`formed`), and it is viable when that
expression is well-formed, that is, has a type.

Exclusive constraints are what makes such a set work.  `viables_of_formed`: if no two candidates
ever take part in the same call, the whole resolution is decided by the one that does.  Where
several are viable, the one that is better than every other is chosen (`best`), and a call without
such a candidate is ill-formed.
-/
import Mathlib.Data.List.Nodup

namespace CleoKernel.OverloadSet

variable {ι ε τ α κ : Type*} {formed : ι → Option ε} {typeOf : ε → Option τ} {cands : List ι}
  {i : ι} {e : ε}

/-- A viable candidate, with its expression and the type of that. -/
structure Viable (ι ε τ : Type*) where
  candidate : ι
  expr : ε
  type : τ

/-- The candidate `i`, if it is viable. -/
def viable (formed : ι → Option ε) (typeOf : ε → Option τ) (i : ι) : Option (Viable ι ε τ) :=
  (formed i).bind fun e => (typeOf e).map fun t => ⟨i, e, t⟩

/-- The viable candidates. -/
def viables (formed : ι → Option ε) (typeOf : ε → Option τ) (cands : List ι) :
    List (Viable ι ε τ) :=
  cands.filterMap (viable formed typeOf)

/-- What overload resolution chooses among viable candidates, each with a key by which they are
told apart and ranked: the one that is better than every other. -/
def best [DecidableEq κ] (key : α → κ) (better : κ → κ → Bool) (vs : List α) : Option α :=
  vs.find? fun v => vs.all fun u => key u = key v || better (key v) (key u)

/-- No two candidates take part in the same call. -/
def Exclusive (formed : ι → Option ε) : Prop :=
  ∀ i j, (formed i).isSome → (formed j).isSome → i = j

theorem viable_of_formed_none (h : formed i = none) : viable formed typeOf i = none := by
  rw [viable, h, Option.bind_none]

/-- Where no candidate takes part, none is viable. -/
theorem viables_of_not_formed (h : ∀ i ∈ cands, formed i = none) :
    viables formed typeOf cands = [] :=
  List.filterMap_eq_nil_iff.mpr fun i hi => viable_of_formed_none (h i hi)

/-- **The candidate that takes part decides the resolution.** -/
theorem viables_of_formed (hex : Exclusive formed) (hnd : cands.Nodup) (hi : i ∈ cands)
    (h : formed i = some e) :
    viables formed typeOf cands = ((typeOf e).map fun t => ⟨i, e, t⟩).toList := by
  induction cands with
  | nil => exact absurd hi List.not_mem_nil
  | cons j js ih =>
    obtain ⟨hj, hjs⟩ := List.nodup_cons.mp hnd
    rcases List.mem_cons.mp hi with rfl | hi'
    · -- the others do not take part
      have hrest : viables formed typeOf js = [] := by
        apply viables_of_not_formed
        intro k hk
        by_contra hne
        have hik : i = k := hex i k (by simp [h]) (Option.isSome_iff_ne_none.mpr hne)
        exact hj (hik ▸ hk)
      have hhead : viable formed typeOf i = (typeOf e).map fun t => ⟨i, e, t⟩ := by
        rw [viable, h, Option.bind_some]
      rw [viables] at hrest ⊢
      cases ht : typeOf e with
      | none => rw [List.filterMap_cons_none (by rw [hhead, ht]; rfl), hrest]; rfl
      | some t => rw [List.filterMap_cons_some (by rw [hhead, ht]; rfl), hrest]; rfl
    · have hjnone : formed j = none := by
        by_contra hne
        have hij : i = j := hex i j (by simp [h]) (Option.isSome_iff_ne_none.mpr hne)
        exact hj (hij ▸ hi')
      rw [viables, List.filterMap_cons_none (viable_of_formed_none hjnone)]
      exact ih hjs hi'

end CleoKernel.OverloadSet
