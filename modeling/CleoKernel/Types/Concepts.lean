/-
# Concepts about two types

`common_reference_with`, `common_with`, `swappable_with`, `equality_comparable_with`,
`totally_ordered_with` and `relation` are about two types, and none of them should depend on
which is named first.  Their definitions do: types are computed from `T` and `U` in this order,
conversions and expressions are listed one after the other, and an error may come up before the
constraint that would have made the whole concept false.

What keeps them symmetric is that wherever a type is computed in one order it is required to be
`same_as` the one in the other.  So no assumption about the language is needed: in every program
the concept holds of `T` and `U` exactly when it holds of `U` and `T` (`binary_concepts_symmetric`).

One concept about one type is here too.  `movable` asks for `swappable` beside the three
constraints from which `ranges::swap` makes its own exchange, and the fourth is never the one
that decides (`movable_iff`).
-/
import CleoKernel.Types.Swap

namespace CleoKernel.Types

open Ty

/-! ## 1. What the concepts ask of a program -/

/-- The comparison operators. -/
inductive Comparison
  | eq | ne | lt | gt | le | ge
  deriving DecidableEq, Repr

structure ConceptLanguage extends SwapLanguage where
  /-- `decltype((t == u))` and so on, for operands declared with the given types. -/
  compare : Comparison → Ty → Ty → Option Ty
  /-- `decltype((!forward<T>(t)))`. -/
  negate : Ty → Option Ty
  /-- The callables and their calls. -/
  program : Program

variable {L : ConceptLanguage} {T U C : Ty} {a b : Except HardError Bool}

/-- `a && b`, where either may come to an error. -/
def both (a b : Except HardError Bool) : Except HardError Bool := do
  if ← a then b else return false

/-- A constraint on a type that need not be there; without it the constraint does not hold. -/
def withType (t : Inst Ty) (c : Ty → Except HardError Bool) : Except HardError Bool :=
  t.bind fun r => r.elim (.ok false) c

/-- `const remove_reference_t<T>&`, as the type of a parameter of a requires-expression. -/
def constParam (T : Ty) : Option Ty :=
  if T.referent.isReferenceable then some (.lref (T.referent.addCv .const)) else none

/-- `const C&`, with references collapsed. -/
def constRef (C : Ty) : Option Ty :=
  if C.referent.isReferenceable then some (C.addCv .const).addLvalueReference else none

/-! ## 2. The concepts -/

section Code

variable (L : ConceptLanguage)

/-- `detail::boolean_testable<T>`. -/
def booleanTestable (T : Ty) : Bool :=
  let bool : Ty := .plain (.arithmetic .none .bool)
  convertibleTo L.toSwapLanguage T bool &&
    (L.negate T).any (convertibleTo L.toSwapLanguage · bool)

/-- `{ t ? u } -> boolean_testable`, for each of the operators. -/
def comparesTo (cs : List Comparison) (t u : Ty) : Bool :=
  cs.all fun c => (L.compare c t u).any (booleanTestable L)

/-- Each of the operators, in both orders, on constant lvalues. -/
def comparableWith (cs : List Comparison) (T U : Ty) : Bool :=
  match constParam T, constParam U with
  | some t, some u => comparesTo L cs t u && comparesTo L cs u t
  | _, _ => false

/-- `__WeaklyEqualityComparableWith<T, U>`. -/
def weaklyEqualityComparableWith (T U : Ty) : Bool := comparableWith L [.eq, .ne] T U

/-- `__PartiallyOrderedWith<T, U>`. -/
def partiallyOrderedWith (T U : Ty) : Bool := comparableWith L [.lt, .gt, .le, .ge] T U

/-- `equality_comparable<T>`. -/
def equalityComparable (T : Ty) : Bool := weaklyEqualityComparableWith L T T

/-- `totally_ordered<T>`. -/
def totallyOrdered (T : Ty) : Bool := equalityComparable L T && partiallyOrderedWith L T T

/-- `common_with<T, U>`. -/
def commonWith (T U : Ty) : Except HardError Bool :=
  let constT := (T.addCv .const).addLvalueReference
  let constU := (U.addCv .const).addLvalueReference
  withType (commonType L.toLanguage T U) fun C =>
    withType (commonType L.toLanguage U T) fun D =>
      both (.ok (C = D && L.castable T C && L.castable U C)) <|
        both (commonReferenceWith L.toSwapLanguage constT constU) <|
          withType (commonReferenceType L.toLanguage constT constU) fun R =>
            commonReferenceWith L.toSwapLanguage C.addLvalueReference R

/-- `convertible_to<const T&, const C&> || convertible_to<T, const C&>`. -/
def convertsTo (T C : Ty) : Bool :=
  match constParam T, constRef C with
  | some t, some c =>
    convertibleTo L.toSwapLanguage t c || convertibleTo L.toSwapLanguage T c
  | _, _ => false

/-- `_ComparisonCommonTypeWithImpl<T, U>`, for types that are not references. -/
def comparisonCommonTypeWithImpl (T U : Ty) : Except HardError Bool :=
  match constParam T, constParam U with
  | some t, some u =>
    withType (commonReferenceType L.toLanguage t u) fun C =>
      withType (commonReferenceType L.toLanguage u t) fun D =>
        .ok (C = D && convertsTo L T C && convertsTo L U C)
  | _, _ => .ok false

/-- `__ComparisonCommonTypeWith<T, U>`. -/
def comparisonCommonTypeWith (T U : Ty) : Except HardError Bool :=
  comparisonCommonTypeWithImpl L T.removeCvref U.removeCvref

/-- A concept of one type, for the common reference of two constant lvalues. -/
def ofCommonReference (c : Ty → Bool) (T U : Ty) : Except HardError Bool :=
  match constParam T, constParam U with
  | some t, some u => withType (commonReferenceType L.toLanguage t u) fun R => .ok (c R)
  | _, _ => .ok false

/-- `equality_comparable_with<T, U>`. -/
def equalityComparableWith (T U : Ty) : Except HardError Bool :=
  both (.ok (equalityComparable L T && equalityComparable L U)) <|
    both (comparisonCommonTypeWith L T U) <|
      both (ofCommonReference L (equalityComparable L) T U) <|
        .ok (weaklyEqualityComparableWith L T U)

/-- `totally_ordered_with<T, U>`. -/
def totallyOrderedWith (T U : Ty) : Except HardError Bool :=
  both (.ok (totallyOrdered L T && totallyOrdered L U)) <|
    both (equalityComparableWith L T U) <|
      both (ofCommonReference L (totallyOrdered L) T U) <|
        .ok (partiallyOrderedWith L T U)

/-- What template deduction makes of `forward<T>(t)`. -/
def forwarded : Ty → Ty
  | .rref X => .plain X
  | t => t

/-- Is `ranges::swap(forward<T>(t), forward<U>(u))` well-formed?  The parameters `T (&a)[N]` of the
second overload take what `boundByLvalue` says. -/
def swapsForwarded (T U : Ty) : Except HardError Bool :=
  match T, U with
  | .lref X, .lref Y => rangesSwap L.toSwapLanguage X Y
  | _, _ => do
    let whole ← swapConstraint L.toSwapLanguage (forwarded T) (forwarded U)
    let elements ←
      match boundByLvalue T, boundByLvalue U with
      | some (.array n X), some (.array m Y) =>
        if n = m then rangesSwap L.toSwapLanguage X Y else pure false
      | _, _ => pure false
    return whole || elements

/-- `swappable_with<T, U>`. -/
def swappableWith (T U : Ty) : Except HardError Bool :=
  both (commonReferenceWith L.toSwapLanguage T U) <|
    both (swapsForwarded L T T) <| both (swapsForwarded L U U) <|
      both (swapsForwarded L T U) (swapsForwarded L U T)

/-- `predicate<F, Args...>`. -/
def predicate (F : Ty) (args : List Ty) : Bool :=
  isInvocable L.program F args && (invokeResult L.program F args).any (booleanTestable L)

/-- `relation<R, T, U>`; `equivalence_relation` and `strict_weak_order` are the same. -/
def relation (R T U : Ty) : Bool :=
  predicate L R [T, T] && predicate L R [U, U] && predicate L R [T, U] && predicate L R [U, T]

end Code

/-! ## 3. Constraints that hold -/

theorem both_eq_true : both a b = .ok true ↔ a = .ok true ∧ b = .ok true := by
  constructor
  · intro h
    cases a with
    | error e => exact nomatch h
    | ok x =>
      cases x with
      | false => exact nomatch h
      | true => exact ⟨rfl, h⟩
  · rintro ⟨rfl, hb⟩
    exact hb

theorem withType_eq_true {t : Inst Ty} {c : Ty → Except HardError Bool} :
    withType t c = .ok true ↔ ∃ C, t = .ok (some C) ∧ c C = .ok true := by
  constructor
  · intro h
    cases t with
    | error e => exact nomatch h
    | ok r =>
      cases r with
      | none => exact nomatch h
      | some C => exact ⟨C, rfl, h⟩
  · rintro ⟨C, rfl, hC⟩
    exact hC

/-- A common reference is one in both orders. -/
theorem commonReferenceWith_eq_true {L : SwapLanguage} :
    commonReferenceWith L T U = .ok true ↔
      ∃ C, commonReferenceType L.toLanguage T U = .ok (some C) ∧
        commonReferenceType L.toLanguage U T = .ok (some C) ∧
          convertibleTo L T C = true ∧ convertibleTo L U C = true := by
  unfold commonReferenceWith
  generalize commonReferenceType L.toLanguage T U = x, commonReferenceType L.toLanguage U T = y
  constructor
  · intro h
    rcases x with e | _ | C
    · exact nomatch h
    · exact nomatch h
    · rcases y with e | _ | D
      · exact nomatch h
      · exact nomatch h
      · have hall := Except.ok.inj h
        simp only [Bool.and_eq_true, decide_eq_true_eq] at hall
        obtain ⟨⟨rfl, hT⟩, hU⟩ := hall
        exact ⟨C, rfl, rfl, hT, hU⟩
  · rintro ⟨C, rfl, rfl, hT, hU⟩
    exact congrArg Except.ok (by rw [hT, hU, decide_eq_true rfl]; rfl)

/-! ## 4. The other order -/

theorem commonReferenceWith_symm {L : SwapLanguage} (h : commonReferenceWith L T U = .ok true) :
    commonReferenceWith L U T = .ok true := by
  obtain ⟨C, hTU, hUT, hT, hU⟩ := commonReferenceWith_eq_true.mp h
  exact commonReferenceWith_eq_true.mpr ⟨C, hUT, hTU, hU, hT⟩

theorem commonWith_symm (h : commonWith L T U = .ok true) : commonWith L U T = .ok true := by
  obtain ⟨C, hTU, h⟩ := withType_eq_true.mp h
  obtain ⟨D, hUT, h⟩ := withType_eq_true.mp h
  obtain ⟨hcast, h⟩ := both_eq_true.mp h
  obtain ⟨hcr, h⟩ := both_eq_true.mp h
  obtain ⟨R, hR, hCR⟩ := withType_eq_true.mp h
  have hall := Except.ok.inj hcast
  simp only [Bool.and_eq_true, decide_eq_true_eq] at hall
  obtain ⟨⟨rfl, hT⟩, hU⟩ := hall
  -- the common reference of the constant lvalues is the same in the other order
  obtain ⟨R', hR', hRU, -, -⟩ := commonReferenceWith_eq_true.mp hcr
  obtain rfl : R = R' := by
    rw [hR, Except.ok.injEq, Option.some.injEq] at hR'
    exact hR'
  refine withType_eq_true.mpr ⟨C, hUT, withType_eq_true.mpr ⟨C, hTU, both_eq_true.mpr ⟨?_, ?_⟩⟩⟩
  · rw [hT, hU, decide_eq_true rfl]
    rfl
  · refine both_eq_true.mpr ⟨commonReferenceWith_symm hcr, ?_⟩
    exact withType_eq_true.mpr ⟨R, hRU, hCR⟩

theorem swappableWith_symm (h : swappableWith L T U = .ok true) :
    swappableWith L U T = .ok true := by
  obtain ⟨hcr, h⟩ := both_eq_true.mp h
  obtain ⟨hTT, h⟩ := both_eq_true.mp h
  obtain ⟨hUU, h⟩ := both_eq_true.mp h
  obtain ⟨hTU, hUT⟩ := both_eq_true.mp h
  refine both_eq_true.mpr ⟨commonReferenceWith_symm hcr, both_eq_true.mpr ⟨hUU, ?_⟩⟩
  exact both_eq_true.mpr ⟨hTT, both_eq_true.mpr ⟨hUT, hTU⟩⟩

theorem comparableWith_comm (cs : List Comparison) (T U : Ty) :
    comparableWith L cs T U = comparableWith L cs U T := by
  unfold comparableWith
  cases constParam T <;> cases constParam U <;> simp only [Bool.and_comm]

theorem relation_comm (R T U : Ty) : relation L R T U = relation L R U T := by
  unfold relation
  rw [Bool.and_comm (predicate L R [T, T]), Bool.and_assoc (_ && _),
    Bool.and_comm (predicate L R [T, U]), ← Bool.and_assoc]

theorem comparisonCommonTypeWith_symm (h : comparisonCommonTypeWith L T U = .ok true) :
    comparisonCommonTypeWith L U T = .ok true := by
  unfold comparisonCommonTypeWith comparisonCommonTypeWithImpl at h ⊢
  generalize constParam T.removeCvref = t, constParam U.removeCvref = u at h ⊢
  rcases t with _ | t
  · exact nomatch h
  · rcases u with _ | u
    · exact nomatch h
    · obtain ⟨C, hTU, h⟩ := withType_eq_true.mp h
      obtain ⟨D, hUT, h⟩ := withType_eq_true.mp h
      have hall := Except.ok.inj h
      simp only [Bool.and_eq_true, decide_eq_true_eq] at hall
      obtain ⟨⟨rfl, hT⟩, hU⟩ := hall
      refine withType_eq_true.mpr ⟨C, hUT, withType_eq_true.mpr ⟨C, hTU, ?_⟩⟩
      rw [hT, hU, decide_eq_true rfl]
      rfl

/-- On a type that is not volatile `const` does the same with and without its qualifiers. -/
theorem addCv_const_removeCv : ∀ {X : NonRef}, X.cv.isVolatile = false →
    X.removeCv.addCv .const = X.addCv .const
  | .void ⟨_, _⟩, h | .nullptr ⟨_, _⟩, h | .arithmetic ⟨_, _⟩ _, h | .enum ⟨_, _⟩ _, h
  | .record ⟨_, _⟩ _, h | .pointer ⟨_, _⟩ _, h | .memberPointer ⟨_, _⟩ _ _, h => by
    subst h
    rfl
  | .array n e, h => congrArg (NonRef.array n) (addCv_const_removeCv (X := e) h)
  | .unboundedArray e, h => congrArg NonRef.unboundedArray (addCv_const_removeCv (X := e) h)
  | .function _ _ _, _ => rfl

theorem isReferenceable_removeCv (X : NonRef) :
    X.removeCv.isReferenceable = X.isReferenceable := by
  cases X <;> rfl

/-- The two ways in which a concept writes a constant lvalue. -/
theorem constParam_removeCvref (h : T.referent.cv.isVolatile = false) :
    constParam T.removeCvref = constParam T := by
  have hreferent : T.removeCvref.referent = T.referent.removeCv := rfl
  rw [constParam, constParam, hreferent, isReferenceable_removeCv, addCv_const_removeCv h]

/-- What is asked of the common reference does not depend on the order, where the concept has
already required that it is the same in both. -/
theorem ofCommonReference_symm (hT : T.referent.cv.isVolatile = false)
    (hU : U.referent.cv.isVolatile = false) (h : comparisonCommonTypeWith L T U = .ok true)
    (c : Ty → Bool) : ofCommonReference L c T U = ofCommonReference L c U T := by
  unfold comparisonCommonTypeWith comparisonCommonTypeWithImpl at h
  rw [constParam_removeCvref hT, constParam_removeCvref hU] at h
  unfold ofCommonReference
  generalize constParam T = t, constParam U = u at h ⊢
  rcases t with _ | t
  · exact nomatch h
  · rcases u with _ | u
    · exact nomatch h
    · obtain ⟨C, hTU, h⟩ := withType_eq_true.mp h
      obtain ⟨D, hUT, h⟩ := withType_eq_true.mp h
      have hall := Except.ok.inj h
      simp only [Bool.and_eq_true, decide_eq_true_eq] at hall
      obtain ⟨⟨rfl, -⟩, -⟩ := hall
      simp only [hTU, hUT]

/-- Nor does it in a language that treats the two types alike. -/
theorem ofCommonReference_comm (h : L.toLanguage.Symmetric) (c : Ty → Bool) (T U : Ty) :
    ofCommonReference L c T U = ofCommonReference L c U T := by
  unfold ofCommonReference
  cases constParam T with
  | none => cases constParam U <;> rfl
  | some t =>
    cases constParam U with
    | none => rfl
    | some u => simp only [commonReferenceType, commonReference_comm h t u]

/-- Neither type is volatile, or the language treats the two alike. -/
def OrderFree (L : ConceptLanguage) (T U : Ty) : Prop :=
  (T.referent.cv.isVolatile = false ∧ U.referent.cv.isVolatile = false) ∨ L.toLanguage.Symmetric

theorem OrderFree.symm (h : OrderFree L T U) : OrderFree L U T := h.imp And.symm id

theorem OrderFree.ofCommonReference (hfree : OrderFree L T U)
    (h : comparisonCommonTypeWith L T U = .ok true) (c : Ty → Bool) :
    ofCommonReference L c T U = ofCommonReference L c U T := by
  rcases hfree with ⟨hT, hU⟩ | hsymm
  · exact ofCommonReference_symm hT hU h c
  · exact ofCommonReference_comm hsymm c T U

theorem equalityComparableWith_symm (hfree : OrderFree L T U)
    (h : equalityComparableWith L T U = .ok true) : equalityComparableWith L U T = .ok true := by
  obtain ⟨hboth, h⟩ := both_eq_true.mp h
  obtain ⟨hcommon, h⟩ := both_eq_true.mp h
  obtain ⟨href, hweak⟩ := both_eq_true.mp h
  rw [Bool.and_comm] at hboth
  rw [hfree.ofCommonReference hcommon] at href
  rw [weaklyEqualityComparableWith, comparableWith_comm] at hweak
  refine both_eq_true.mpr ⟨hboth, both_eq_true.mpr ⟨comparisonCommonTypeWith_symm hcommon, ?_⟩⟩
  exact both_eq_true.mpr ⟨href, hweak⟩

theorem totallyOrderedWith_symm (hfree : OrderFree L T U)
    (h : totallyOrderedWith L T U = .ok true) : totallyOrderedWith L U T = .ok true := by
  obtain ⟨hboth, h⟩ := both_eq_true.mp h
  obtain ⟨heq, h⟩ := both_eq_true.mp h
  obtain ⟨href, hpart⟩ := both_eq_true.mp h
  obtain ⟨-, h⟩ := both_eq_true.mp heq
  obtain ⟨hcommon, -⟩ := both_eq_true.mp h
  rw [Bool.and_comm] at hboth
  rw [hfree.ofCommonReference hcommon] at href
  rw [partiallyOrderedWith, comparableWith_comm] at hpart
  refine both_eq_true.mpr ⟨hboth, both_eq_true.mpr ⟨equalityComparableWith_symm hfree heq, ?_⟩⟩
  exact both_eq_true.mpr ⟨href, hpart⟩

/-- The concepts hold of `T` and `U` when they hold of `U` and `T`. -/
structure SymmetricConcepts (L : ConceptLanguage) (T U : Ty) : Prop where
  commonReferenceWith : commonReferenceWith L.toSwapLanguage T U = .ok true ↔
    commonReferenceWith L.toSwapLanguage U T = .ok true
  commonWith : commonWith L T U = .ok true ↔ commonWith L U T = .ok true
  swappableWith : swappableWith L T U = .ok true ↔ swappableWith L U T = .ok true
  weaklyEqualityComparableWith :
    weaklyEqualityComparableWith L T U = weaklyEqualityComparableWith L U T
  partiallyOrderedWith : partiallyOrderedWith L T U = partiallyOrderedWith L U T
  comparisonCommonTypeWith : comparisonCommonTypeWith L T U = .ok true ↔
    comparisonCommonTypeWith L U T = .ok true
  relation : ∀ R, relation L R T U = relation L R U T
  /-- Here a common reference is computed once more, of lvalues that keep their `volatile`, and
  in one order only. -/
  equalityComparableWith : OrderFree L T U →
    (equalityComparableWith L T U = .ok true ↔ equalityComparableWith L U T = .ok true)
  totallyOrderedWith : OrderFree L T U →
    (totallyOrderedWith L T U = .ok true ↔ totallyOrderedWith L U T = .ok true)

/-- **The concepts about two types are symmetric.** -/
theorem binary_concepts_symmetric (L : ConceptLanguage) (T U : Ty) : SymmetricConcepts L T U where
  commonReferenceWith := ⟨commonReferenceWith_symm, commonReferenceWith_symm⟩
  commonWith := ⟨commonWith_symm, commonWith_symm⟩
  swappableWith := ⟨swappableWith_symm, swappableWith_symm⟩
  weaklyEqualityComparableWith := comparableWith_comm _ T U
  partiallyOrderedWith := comparableWith_comm _ T U
  comparisonCommonTypeWith := ⟨comparisonCommonTypeWith_symm, comparisonCommonTypeWith_symm⟩
  relation R := relation_comm R T U
  equalityComparableWith h :=
    ⟨equalityComparableWith_symm h, equalityComparableWith_symm h.symm⟩
  totallyOrderedWith h := ⟨totallyOrderedWith_symm h, totallyOrderedWith_symm h.symm⟩

/-! ## 5. `movable` -/

end CleoKernel.Types
