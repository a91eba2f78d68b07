/-
# `common_type` and `common_reference` on packs

Both traits extend from two types to a pack by a left fold, and the two folds are written
differently.  `common_type<T1, T2, R...>` derives from a helper that has a member only if
`common_type<T1, T2>` does; `common_reference<T, U, Rest...>` names
`common_reference<T, U>::type` in its base clause.

* `common_type_decay`: no fold can tell a pack from the pack of its decayed types, and the one
  recursion of the trait that has no decreasing argument, `common_type<T1, T2>` into
  `common_type<decay_t<T1>, decay_t<T2>>`, is at most one instantiation deep.
* `commonReferencePack_eq_fold_iff`: where each step has a type or none, `common_reference` reports
  a pack without a common reference as absent exactly when no proper prefix of the pack is without
  one already.  On the others it is a hard error.
-/
import CleoKernel.Types.Common
import CleoKernel.Lib.LeftFold

namespace CleoKernel.Types

open Ty LeftFold

variable {L : Language}

/-! ## 1. The folds of the source -/

/-- `common_type<T, R...>`.  From three types on the base is `common_type_multi_impl`, whose
partial specialisation asks for the member of `common_type<T1, T2>` and whose primary template
is empty. -/
def commonTypeMulti (L : Language) : Ty → List Ty → Inst Ty
  | T, [] => commonType L T T
  | T1, [T2] => commonType L T1 T2
  | T1, T2 :: R :: Rs => (commonType L T1 T2).bind fun
    | some C => commonTypeMulti L C (R :: Rs)
    | none => .ok none

/-- `common_type<T...>`. -/
def commonTypePack (L : Language) : List Ty → Inst Ty
  | [] => .ok none
  | T :: Ts => commonTypeMulti L T Ts

/-- The member `type` of `common_reference<T, U>`. -/
def commonReferenceType (L : Language) (T U : Ty) : Inst Ty :=
  (commonReference L T U).map fun r => r.map Prod.snd

/-- `common_reference<T, Rest...>`.  From three types on the base clause names
`common_reference<T, U>::type`. -/
def commonReferenceMulti (L : Language) : Ty → List Ty → Inst Ty
  | T, [] => .ok (some T)
  | T, [U] => commonReferenceType L T U
  | T, U :: V :: Rest => (commonReferenceType L T U).bind fun
    | some C => commonReferenceMulti L C (V :: Rest)
    | none => .error .absentMember

/-- `common_reference<T...>`. -/
def commonReferencePack (L : Language) : List Ty → Inst Ty
  | [] => .ok none
  | T :: Ts => commonReferenceMulti L T Ts

/-- Past the single type, `common_type` is the left fold that asks. -/
theorem commonTypeMulti_eq_foldFrom (T U : Ty) (Ts : List Ty) :
    commonTypeMulti L T (U :: Ts) = foldFrom (commonType L) T (U :: Ts) := by
  induction Ts generalizing T U with
  | nil => exact (foldFrom_pair T U).symm
  | cons V Ts ih =>
    rw [commonTypeMulti, foldFrom_cons]
    rcases commonType L T U with e | _ | C
    · rfl
    · rfl
    · exact ih C V

/-- `common_reference` is the left fold that does not. -/
theorem commonReferenceMulti_eq_namingFrom (T : Ty) (Ts : List Ty) :
    commonReferenceMulti L T Ts = namingFrom .absentMember (commonReferenceType L) T Ts := by
  induction Ts generalizing T with
  | nil => rfl
  | cons U Ts ih =>
    cases Ts with
    | nil => rfl
    | cons V Ts =>
      rw [commonReferenceMulti, namingFrom]
      rcases commonReferenceType L T U with e | _ | C
      · rfl
      · rfl
      · exact ih C

/-! ## 2. `common_type` and decay -/

/-- Users specialise `common_type` for decayed types only, as the standard asks of them. -/
def Language.SpecialisesDecayed (L : Language) : Prop :=
  ∀ T U, (L.commonTypeSpec T U).isSome → T = T.decay ∧ U = U.decay

/-- `common_type<T1, T2>`, instantiated inside at most `depth - 1` others of its kind.  `none` when
that is not deep enough. -/
def commonTypeWithin (L : Language) : ℕ → Ty → Ty → Option (Inst Ty)
  | 0, _, _ => none
  | depth + 1, T1, T2 =>
    match L.commonTypeSpec T1 T2 with
    | some r => some (.ok r)
    | none =>
      if T1 = T1.decay ∧ T2 = T2.decay then some (commonType2Impl L T1 T2)
      else commonTypeWithin L depth T1.decay T2.decay

/-- Decayed types are not decayed again. -/
theorem commonTypeWithin_decayed {T U : Ty} (hT : T = T.decay) (hU : U = U.decay) (depth : ℕ) :
    commonTypeWithin L (depth + 1) T U = some (commonType L T U) := by
  rw [commonTypeWithin, commonType_of_decayed hT hU, if_pos ⟨hT, hU⟩]
  cases L.commonTypeSpec T U <;> rfl

/-- **One re-entry is enough.** -/
theorem commonTypeWithin_two (T U : Ty) (depth : ℕ) :
    commonTypeWithin L (depth + 2) T U = some (commonType L T U) := by
  by_cases h : T = T.decay ∧ U = U.decay
  · exact commonTypeWithin_decayed h.1 h.2 (depth + 1)
  · rw [commonTypeWithin, commonType_of_not_decayed h, if_neg h,
      commonTypeWithin_decayed (decay_idem T).symm (decay_idem U).symm]
    cases L.commonTypeSpec T U <;> rfl

/-- On a pair only the decayed types matter. -/
theorem commonType_decay (h : L.SpecialisesDecayed) (T U : Ty) :
    commonType L T U = commonType L T.decay U.decay := by
  by_cases hdec : T = T.decay ∧ U = U.decay
  · rw [← hdec.1, ← hdec.2]
  · have hnone : L.commonTypeSpec T U = none := by
      by_contra hne
      exact hdec (h T U (Option.isSome_iff_ne_none.mpr hne))
    rw [commonType_of_not_decayed hdec, hnone]

/-- The same along a pack. -/
theorem commonTypePack_decay (h : L.SpecialisesDecayed) (Ts : List Ty) :
    commonTypePack L (Ts.map decay) = commonTypePack L Ts := by
  rcases Ts with _ | ⟨T, _ | ⟨U, Ts⟩⟩
  · rfl
  · exact (commonType_decay h T T).symm
  · change commonTypeMulti L T.decay (U.decay :: Ts.map decay) = commonTypeMulti L T (U :: Ts)
    rw [commonTypeMulti_eq_foldFrom, commonTypeMulti_eq_foldFrom, foldFrom_cons, foldFrom_cons,
      ← commonType_decay h]
    congr 1
    funext C
    exact foldFrom_map (commonType_decay h) decay_idem C Ts

/-- **`common_type` is invariant under decay, and its recursion ends**: decaying twice is decaying
once, so that two instantiations of the trait are always deep enough, and a pack has the same
outcome as the pack of its decayed types. -/
theorem common_type_decay (L : Language) :
    (∀ T : Ty, T.decay.decay = T.decay) ∧
      (∀ T U depth, 2 ≤ depth → commonTypeWithin L depth T U = some (commonType L T U)) ∧
      (L.SpecialisesDecayed → ∀ Ts, commonTypePack L Ts = commonTypePack L (Ts.map decay)) := by
  refine ⟨decay_idem, ?_, fun h Ts => (commonTypePack_decay h Ts).symm⟩
  intro T U depth hdepth
  obtain ⟨d, rfl⟩ := Nat.exists_eq_add_of_le' hdepth
  exact commonTypeWithin_two T U d

/-- In a language without specialisations, `int&` and `const int` have the common type of
`int` and `int`. -/
theorem common_type_decay_int :
    let int : NonRef := .arithmetic .none .int
    commonTypeWithin sameTypeOnly 2 (.lref int) (.plain (int.addCv .const)) =
        some (commonType sameTypeOnly (.lref int) (.plain (int.addCv .const))) ∧
      commonTypePack sameTypeOnly [.lref int, .plain (int.addCv .const)] =
        commonTypePack sameTypeOnly [.plain int, .plain int] :=
  ⟨(common_type_decay sameTypeOnly).2.1 _ _ 2 (Nat.le_refl 2),
    (common_type_decay sameTypeOnly).2.2 (fun _ _ h => nomatch h) _⟩

/-! ## 3. `common_reference` and absent steps -/

/-- A language without conditional expressions, and a user who answers for every pair of types. -/
def answering (pair : Ty → Ty → Option Ty) : Language where
  conditional _ _ := none
  passable _ _ := false
  commonTypeSpec _ _ := some none
  basicCommonReference _ _ x y := pair x.src y.src

/-- The binary `common_reference` can have any outcome on any pair, so a statement about every
language is one about every outcome of every step. -/
theorem commonReferenceType_answering (pair : Ty → Ty → Option Ty) (T U : Ty) :
    commonReferenceType (answering pair) T U = .ok (pair T U) := by
  have hcond : ∀ T U, conditionalResult (answering pair) T U = none := by
    intro T U
    unfold conditionalResult
    cases declval T <;> cases declval U <;> rfl
  have hLL : ∀ X Y, commonRefLL (answering pair) X Y = none := by
    intro X Y
    rw [commonRefLL, commonRefLvalue, hcond]
    rfl
  have href : commonRef (answering pair) T U = none := by
    cases T <;> cases U <;> simp [commonRef, commonRefRR, commonRefRL, commonRefRvalue, hLL]
  have hbasic : (answering pair).basicCommonReference T.removeCvref U.removeCvref ⟨T⟩ ⟨U⟩ =
      pair T U := rfl
  have htype : commonType (answering pair) T U = .ok none := by
    rw [commonType]
    rfl
  rw [commonReferenceType, commonReference, href, commonReferenceStep2, hbasic,
    commonReferenceStep3, hcond, commonReferenceStep4, htype]
  cases pair T U <;> rfl

/-- **Exactly when a pack is reported as absent and not as an error**: when no proper prefix of
it is without a common reference.  This is about steps that have a type or none.  A step that is a
hard error itself is one in both folds, and they agree on a pack that comes to one. -/
theorem commonReferencePack_eq_fold_iff (L : Language) (Ts : List Ty) :
    commonReferencePack L Ts = fold (commonReferenceType L) Ts ↔
      NoGap (commonReferenceType L) Ts := by
  cases Ts with
  | nil => exact iff_of_true rfl noGap_nil
  | cons T Ts =>
    rw [commonReferencePack, fold, commonReferenceMulti_eq_namingFrom]
    exact namingFrom_eq_foldFrom_iff T Ts

/-- **`common_reference<int, W, int>` is a hard error**, for a class `W` that has nothing to do
with `int`. -/
theorem common_reference_hard_error :
    ¬ ∀ (L : Language) (Ts : List Ty),
      commonReferencePack L Ts = fold (commonReferenceType L) Ts := by
  intro hall
  let int : Ty := .plain (.arithmetic .none .int)
  let W : Ty := .plain (.record .none (.class_ 0))
  have habsent : commonReferenceType sameTypeOnly int W = .ok none := by
    have htype : commonType sameTypeOnly int W = .ok none := by
      rw [commonType_of_decayed rfl rfl]
      rfl
    change (commonReferenceStep4 sameTypeOnly int W).map _ = _
    rw [commonReferenceStep4, htype]
    rfl
  have h := hall sameTypeOnly [int, W, int]
  rw [commonReferencePack, commonReferenceMulti, fold, foldFrom_cons, habsent] at h
  have hdiffer : (Except.error .absentMember : Inst Ty) = .ok none := h
  cases hdiffer

end CleoKernel.Types
