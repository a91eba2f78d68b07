/-
# `common_type` and `common_reference`, in either order

`common_type<T1, T2>` and `common_reference<T, U>` ask the language what type a conditional
expression has, and user code what it has specialised, in a fixed sequence of attempts.  Those
answers are the parameters of the model (`Language`); the sequence is the library's.

An instantiation has three outcomes, and the difference between two of them is what constraints
depend on: it can be a class with a member `type`, a class without one, or an error outside the
immediate context that no constraint recovers from.  On a pair of types the last happens in one
place, where `common_type_2_impl` writes `const T1&` in its base clause without asking whether
there is such a type; on longer packs there is another (`Types/Packs.lean`).

`common_symmetric`: if the conditional operator and the user's specialisations are symmetric,
both traits have the same outcome in both orders, and `common_reference` takes it from the same
one of its four steps.
-/
import CleoKernel.Types.Basic

namespace CleoKernel.Types

open Ty

/-! ## 1. The language and the user's specialisations -/

/-- `xref<From>`, whose member `apply` is handed to `basic_common_reference`.  It is determined
by `From`. -/
structure Xref where
  src : Ty

/-- `xref<From>::apply<To>`. -/
def Xref.apply (x : Xref) (dst : Ty) : Ty := copyCvref x.src dst

/-- A specialisation of `basic_common_reference` is given `remove_cvref_t<T>` and `xref<T>`, and
can recover `T` from them. -/
theorem Xref.apply_removeCvref {x : Xref} (h : x.src.referent.isReferenceable = true) :
    x.apply x.src.removeCvref = x.src := copyCvref_removeCvref h

/-- What the traits ask. -/
structure Language where
  /-- The type of `false ? a : b`, for operands declared with the given types; `none` when the
  expression is ill-formed. -/
  conditional : Ty → Ty → Option Ty
  /-- Can an operand of the first type be passed to a parameter of the second? -/
  passable : Ty → Ty → Bool
  /-- A user's specialisation of `common_type`, which may lack a member `type`. -/
  commonTypeSpec : Ty → Ty → Option (Option Ty)
  /-- The member `type` of `basic_common_reference`. -/
  basicCommonReference : Ty → Ty → Xref → Xref → Option Ty

/-- The language and the user treat the two types alike. -/
structure Language.Symmetric (L : Language) : Prop where
  conditional : ∀ a b, L.conditional a b = L.conditional b a
  commonTypeSpec : ∀ a b, L.commonTypeSpec a b = L.commonTypeSpec b a
  basicCommonReference : ∀ a b x y,
    L.basicCommonReference a b x y = L.basicCommonReference b a y x

/-! ## 2. Outcomes of an instantiation -/

/-- An error outside the immediate context. -/
inductive HardError
  /-- `T&` was written where there is no such type. -/
  | referenceToUnreferenceable
  /-- `::type` was named of a class that does not have it. -/
  | absentMember
  /-- An expression or a declaration in the body of a function or class is ill-formed. -/
  | illFormed
  deriving DecidableEq, Repr

/-- The outcome of an instantiation: a hard error, or a class whose member is present or
absent. -/
abbrev Inst (α : Type) := Except HardError (Option α)

variable {L : Language} {T U : Ty} {X Y : NonRef}

/-! ## 3. `common_type` -/

/-- `conditional_result_t<T1, T2>`. -/
def conditionalResult (L : Language) (T1 T2 : Ty) : Option Ty := do
  L.conditional (← declval T1) (← declval T2)

/-- `decay_conditional_result<T1, T2>`. -/
def decayConditionalResult (L : Language) (T1 T2 : Ty) : Option Ty :=
  (conditionalResult L T1 T2).map decay

/-- `const T&`, written without a guard. -/
def constLref : Ty → Except HardError Ty
  | .plain o =>
    if o.isReferenceable then .ok (.lref (o.addCv .const))
    else .error .referenceToUnreferenceable
  | .lref o | .rref o => .ok (.lref o)

/-- `common_type_2_impl<T1, T2>`. -/
def commonType2Impl (L : Language) (T1 T2 : Ty) : Inst Ty :=
  if (conditionalResult L T1 T2).isSome then .ok (decayConditionalResult L T1 T2)
  else (constLref T1).bind fun a => (constLref T2).bind fun b => .ok (decayConditionalResult L a b)

/-- `common_type<T1, T2>`. -/
def commonType (L : Language) (T1 T2 : Ty) : Inst Ty :=
  match L.commonTypeSpec T1 T2 with
  | some r => .ok r
  | none =>
    if T1 = T1.decay ∧ T2 = T2.decay then commonType2Impl L T1 T2
    else commonType L T1.decay T2.decay
termination_by if T1 = T1.decay ∧ T2 = T2.decay then 0 else 1
decreasing_by simp [*, decay_idem]

/-! ## 4. `common_reference` -/

/-- `is_convertible_v<From, To>`: can a function return `To`, and can an operand of type `From`
be passed as `To`? -/
def isConvertible (L : Language) (src dst : Ty) : Bool :=
  (!dst.isArray && !dst.isFunction && (declval src).any (L.passable · dst)) ||
    (src.isVoid && dst.isVoid)

/-- `common_ref_lvalue_t<X, Y>`. -/
def commonRefLvalue (L : Language) (X Y : NonRef) : Option Ty :=
  conditionalResult L (.lref (X.copyCv Y)) (.lref (Y.copyCv X))

/-- `common_ref<X&, Y&>`. -/
def commonRefLL (L : Language) (X Y : NonRef) : Option Ty :=
  (commonRefLvalue L X Y).filter isReference

/-- `common_ref_rvalue_t<X, Y>`. -/
def commonRefRvalue (L : Language) (X Y : NonRef) : Option Ty :=
  (commonRefLL L X Y).map fun r => r.removeReference.addRvalueReference

/-- `common_ref<X&&, Y&&>`. -/
def commonRefRR (L : Language) (X Y : NonRef) : Option Ty :=
  (commonRefRvalue L X Y).filter fun r =>
    isConvertible L (.rref X) r && isConvertible L (.rref Y) r

/-- `common_ref<X&&, Y&>`. -/
def commonRefRL (L : Language) (X Y : NonRef) : Option Ty :=
  (commonRefLL L (X.addCv .const) Y).filter fun r => isConvertible L (.rref X) r

/-- `common_ref<T, U>`. -/
def commonRef (L : Language) : Ty → Ty → Option Ty
  | .lref X, .lref Y => commonRefLL L X Y
  | .rref X, .rref Y => commonRefRR L X Y
  | .rref X, .lref Y => commonRefRL L X Y
  | .lref X, .rref Y => commonRefRL L Y X
  | _, _ => none

/-- The four steps. -/
inductive Step
  | commonRef
  | basicCommonReference
  | conditional
  | commonType
  deriving DecidableEq, Repr

/-- `common_reference_step4`. -/
def commonReferenceStep4 (L : Language) (T U : Ty) : Inst (Step × Ty) :=
  (commonType L T U).map fun r => r.map (Step.commonType, ·)

/-- `common_reference_step3`. -/
def commonReferenceStep3 (L : Language) (T U : Ty) : Inst (Step × Ty) :=
  match conditionalResult L T U with
  | some r => .ok (some (.conditional, r))
  | none => commonReferenceStep4 L T U

/-- `common_reference_step2`. -/
def commonReferenceStep2 (L : Language) (T U : Ty) : Inst (Step × Ty) :=
  match L.basicCommonReference T.removeCvref U.removeCvref ⟨T⟩ ⟨U⟩ with
  | some r => .ok (some (.basicCommonReference, r))
  | none => commonReferenceStep3 L T U

/-- `common_reference<T, U>`, which is `common_reference_step1`: the step taken and the member
`type`. -/
def commonReference (L : Language) (T U : Ty) : Inst (Step × Ty) :=
  match commonRef L T U with
  | some r => .ok (some (.commonRef, r))
  | none => commonReferenceStep2 L T U

/-! ## 5. Symmetry -/

theorem conditionalResult_comm (h : L.Symmetric) (T U : Ty) :
    conditionalResult L T U = conditionalResult L U T := by
  unfold conditionalResult
  cases declval T <;> cases declval U <;> simp [h.conditional]

theorem decayConditionalResult_comm (h : L.Symmetric) (T U : Ty) :
    decayConditionalResult L T U = decayConditionalResult L U T := by
  rw [decayConditionalResult, conditionalResult_comm h, decayConditionalResult]

/-- There is one way for `const T&` to fail. -/
theorem constLref_error {e : HardError} (h : constLref T = .error e) :
    e = .referenceToUnreferenceable := by
  cases T with
  | plain o =>
    rw [constLref] at h
    split at h
    · exact nomatch h
    · exact (Except.error.inj h).symm
  | lref o | rref o => exact nomatch h

/-- The retry with `const T1&` and `const T2&` fails outright in both orders or in none. -/
theorem commonType2Impl_comm (h : L.Symmetric) (T U : Ty) :
    commonType2Impl L T U = commonType2Impl L U T := by
  unfold commonType2Impl
  rw [conditionalResult_comm h T U, decayConditionalResult_comm h T U]
  split
  · rfl
  · rcases hT : constLref T with e | a <;> rcases hU : constLref U with e' | b
    · rw [constLref_error hT, constLref_error hU]
    · rfl
    · rfl
    · change Except.ok _ = Except.ok _
      rw [decayConditionalResult_comm h]

theorem commonType_of_decayed (hT : T = T.decay) (hU : U = U.decay) :
    commonType L T U =
      match L.commonTypeSpec T U with
      | some r => .ok r
      | none => commonType2Impl L T U := by
  rw [commonType, if_pos ⟨hT, hU⟩]

theorem commonType_of_not_decayed (h : ¬ (T = T.decay ∧ U = U.decay)) :
    commonType L T U =
      match L.commonTypeSpec T U with
      | some r => .ok r
      | none => commonType L T.decay U.decay := by
  rw [commonType, if_neg h]

theorem commonType_comm (h : L.Symmetric) (T U : Ty) : commonType L T U = commonType L U T := by
  -- once both types are decayed there is no further recursion
  have hdecayed : ∀ T U : Ty, T = T.decay → U = U.decay →
      commonType L T U = commonType L U T := by
    intro T U hT hU
    rw [commonType_of_decayed hT hU, commonType_of_decayed hU hT, h.commonTypeSpec,
      commonType2Impl_comm h]
  by_cases hTU : T = T.decay ∧ U = U.decay
  · exact hdecayed T U hTU.1 hTU.2
  · rw [commonType_of_not_decayed hTU, commonType_of_not_decayed (hTU ∘ And.symm),
      h.commonTypeSpec, hdecayed _ _ (decay_idem T).symm (decay_idem U).symm]

theorem commonRefLL_comm (h : L.Symmetric) (X Y : NonRef) :
    commonRefLL L X Y = commonRefLL L Y X := by
  rw [commonRefLL, commonRefLvalue, conditionalResult_comm h, commonRefLL, commonRefLvalue]

theorem commonRefRR_comm (h : L.Symmetric) (X Y : NonRef) :
    commonRefRR L X Y = commonRefRR L Y X := by
  unfold commonRefRR commonRefRvalue
  rw [commonRefLL_comm h]
  simp only [Bool.and_comm]

theorem commonRef_comm (h : L.Symmetric) (T U : Ty) : commonRef L T U = commonRef L U T := by
  cases T <;> cases U <;> simp only [commonRef, commonRefLL_comm h, commonRefRR_comm h]

theorem commonReferenceStep4_comm (h : L.Symmetric) (T U : Ty) :
    commonReferenceStep4 L T U = commonReferenceStep4 L U T := by
  rw [commonReferenceStep4, commonType_comm h, commonReferenceStep4]

theorem commonReferenceStep3_comm (h : L.Symmetric) (T U : Ty) :
    commonReferenceStep3 L T U = commonReferenceStep3 L U T := by
  unfold commonReferenceStep3
  rw [conditionalResult_comm h, commonReferenceStep4_comm h]

theorem commonReferenceStep2_comm (h : L.Symmetric) (T U : Ty) :
    commonReferenceStep2 L T U = commonReferenceStep2 L U T := by
  unfold commonReferenceStep2
  rw [h.basicCommonReference, commonReferenceStep3_comm h]

theorem commonReference_comm (h : L.Symmetric) (T U : Ty) :
    commonReference L T U = commonReference L U T := by
  unfold commonReference
  rw [commonRef_comm h, commonReferenceStep2_comm h]

/-- **Both traits are symmetric**: the same outcome in both orders, and for `common_reference`
by the same step. -/
theorem common_symmetric (h : L.Symmetric) (T U : Ty) :
    commonType L T U = commonType L U T ∧ commonReference L T U = commonReference L U T :=
  ⟨commonType_comm h T U, commonReference_comm h T U⟩

/-- A language in which a conditional expression, and the passing of an argument, ask for the same
type on both sides, and no user has specialised anything. -/
def sameTypeOnly : Language where
  conditional a b := if a = b then some a else none
  passable a b := a = b
  commonTypeSpec _ _ := none
  basicCommonReference _ _ _ _ := none

theorem sameTypeOnly_symmetric : sameTypeOnly.Symmetric where
  conditional a b := by
    change (if a = b then some a else none) = if b = a then some b else none
    by_cases h : a = b
    · rw [h]
    · rw [if_neg h, if_neg (Ne.symm h)]
  commonTypeSpec _ _ := rfl
  basicCommonReference _ _ _ _ := rfl

/-- `int&` and `const int&`. -/
theorem common_symmetric_int :
    let int : NonRef := .arithmetic .none .int
    commonType sameTypeOnly (.lref int) (.lref (int.addCv .const)) =
        commonType sameTypeOnly (.lref (int.addCv .const)) (.lref int) ∧
      commonReference sameTypeOnly (.lref int) (.lref (int.addCv .const)) =
        commonReference sameTypeOnly (.lref (int.addCv .const)) (.lref int) :=
  common_symmetric sameTypeOnly_symmetric _ _

end CleoKernel.Types
