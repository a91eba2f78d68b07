/-
# The two swappability tests

`is_swappable_v<T>` asks whether an unqualified call of `swap` on two lvalues is well-formed where
`cleo::swap` is visible; the concept `swappable<T>` asks the same of the function object
`ranges::swap`.  The function object has an overload for arrays, which swaps element by element;
of `cleo::swap` there is only the one template, which constructs and assigns whole objects.
`array<T, N>` has a member `swap` where the first test succeeds, but its body calls `cleo::swap` by
the qualified name and finds nothing else.

What a call of `swap` finds by argument-dependent lookup is up to the program, and a parameter
(`SwapLanguage`), as are the builtins about construction and assignment.  One rule of the language
is built in: an array cannot be assigned to.

`swappable<A>` goes down to the elements of an array and gives their answer
(`swappable_arrayOf`).  `is_swappable_v<A>` sees nothing but the functions found by lookup
(`isSwappable_array`), and the member of a `cleo::array` of arrays, if there is one, does not
compile (`arraySwap_array`).  So everything agrees only where nothing can be swapped in any way
(`arrayAgrees_iff`).
-/
import CleoKernel.Types.Packs
import CleoKernel.Types.Categories

namespace CleoKernel.Types

open Ty

/-! ## 1. What the tests ask of the language -/

/-- The `swap` that ordinary lookup finds. -/
inductive OrdinarySwap
  /-- `cleo::swap` -/
  | cleo
  /-- `ranges::__swap::swap`, which is deleted -/
  | deleted
  deriving DecidableEq, Repr

structure SwapLanguage extends Language where
  /-- `__is_constructible(T, U)` -/
  constructible : Ty → Ty → Bool
  /-- `__is_nothrow_destructible(T)` -/
  nothrowDestructible : Ty → Bool
  /-- Is `static_cast<To>(declval<From>())` well-formed? -/
  castable : Ty → Ty → Bool
  /-- The type of `declval<T>() = declval<U>()`, for a `T` that is not an array. -/
  assign : Ty → Ty → Option Ty
  /-- Is `swap(a, b)` well-formed, for operands declared with the given types, if the candidates are
  the functions argument-dependent lookup finds and the given one? -/
  callSwap : Option OrdinarySwap → Ty → Ty → Bool

variable {L : SwapLanguage} {T U : Ty} {X E : NonRef} {n : ℕ} {ns : List ℕ}

/-- The type of `declval<T>() = declval<U>()`.  An array cannot be assigned to. -/
def assignment (L : SwapLanguage) (T U : Ty) : Option Ty :=
  if T.removeReference.isArray then none else L.assign T U

/-- `is_move_constructible_v<T>`. -/
def isMoveConstructible (L : SwapLanguage) (T : Ty) : Bool :=
  L.constructible T T.addRvalueReference

/-- `is_assignable_v<T, U>`. -/
def isAssignable (L : SwapLanguage) (T U : Ty) : Bool := (assignment L T U).isSome

/-- `is_move_assignable_v<T>`. -/
def isMoveAssignable (L : SwapLanguage) (T : Ty) : Bool :=
  isAssignable L T.addLvalueReference T.addRvalueReference

/-! ## 2. `is_swappable` -/

/-- What a parameter `T& a` takes, and makes `T` of it: an lvalue, or an rvalue that is constant
and not volatile. -/
def boundByLvalue : Ty → Option NonRef
  | .lref X => some X
  | .plain X | .rref X =>
    if X.isReferenceable && (X.isFunction || X.cv = .const) then some X else none

/-- What two operands make of `T` in `swap(T& a, T& b)`.  They have to agree. -/
def deduceSwap (T U : Ty) : Option NonRef :=
  (boundByLvalue T).filter fun X => boundByLvalue U = some X

/-- The constraint of `cleo::swap<T>`. -/
def cleoSwapConstraint (L : SwapLanguage) (T : Ty) : Bool :=
  isMoveConstructible L T && isMoveAssignable L T

/-- Is `cleo::swap(T& a, T& b)` viable for two operands? -/
def cleoSwapViable (L : SwapLanguage) (T U : Ty) : Bool :=
  (deduceSwap T U).any fun X => cleoSwapConstraint L (.plain X)

/-- `decltype(swap(declval<T>(), declval<U>()))`, with `cleo::swap` visible. -/
def swapCall (L : SwapLanguage) (T U : Ty) : Bool :=
  L.callSwap (if cleoSwapViable L T U then some .cleo else none) T U

/-- `is_swappable_with_v<T, U>`. -/
def isSwappableWith (L : SwapLanguage) (T U : Ty) : Bool := swapCall L T U && swapCall L U T

/-- `is_swappable_v<T>`. -/
def isSwappable (L : SwapLanguage) (T : Ty) : Bool :=
  isSwappableWith L T.addLvalueReference T.addLvalueReference

/-- Does the body of `cleo::swap<T>` compile, where the constraint holds?  That allows an explicit
constructor, but `T tmp = move(a)` is a conversion. -/
def cleoSwapBody (L : SwapLanguage) (T : Ty) : Bool := isConvertible L.toLanguage T T

/-- Can `array<T, N>::swap` be called?  It is constrained by `is_swappable_v<T>`; its body calls
`cleo::swap` on the elements, by the qualified name. -/
def arraySwap (L : SwapLanguage) (T : Ty) : Except HardError Bool :=
  if isSwappable L T then
    if cleoSwapViable L T.addLvalueReference T.addLvalueReference && cleoSwapBody L T
    then return true else throw .illFormed
  else return false

/-! ## 3. `swappable` -/

/-- `convertible_to<From, To>`. -/
def convertibleTo (L : SwapLanguage) (src dst : Ty) : Bool :=
  isConvertible L.toLanguage src dst && L.castable src dst

/-- `common_reference_with<T, U>`. -/
def commonReferenceWith (L : SwapLanguage) (T U : Ty) : Except HardError Bool := do
  match ← commonReferenceType L.toLanguage T U with
  | none => return false
  | some C =>
    match ← commonReferenceType L.toLanguage U T with
    | none => return false
    | some D => return C = D && convertibleTo L T C && convertibleTo L U C

/-- `constructible_from<T, U>`. -/
def constructibleFrom (L : SwapLanguage) (T U : Ty) : Bool :=
  L.nothrowDestructible T && L.constructible T U

/-- `move_constructible<T>`. -/
def moveConstructible (L : SwapLanguage) (T : Ty) : Bool :=
  constructibleFrom L T T && convertibleTo L T T

/-- `assignable_from<LHS, RHS>`.  Here, in a constraint, a missing `const T&` is no error. -/
def assignableFrom (L : SwapLanguage) (lhs rhs : Ty) : Except HardError Bool :=
  match lhs.isLvalueReference, constLref lhs.removeReference, constLref rhs.removeReference with
  | true, .ok a, .ok b => do
    if ← commonReferenceWith L a b then
      return assignment L lhs rhs.addRvalueReference = some lhs
    else return false
  | _, _, _ => return false

/-- `__class_or_enum<T>`. -/
def classOrEnum (T : Ty) : Bool := T.isClass || T.isUnion || T.isEnum

/-- `__adl_swap<T, U>`.  Ordinary lookup finds the deleted template, which has the parameters of
`cleo::swap` and no constraint. -/
def adlSwap (L : SwapLanguage) (T U : Ty) : Bool :=
  (classOrEnum T.removeReference || classOrEnum U.removeReference) &&
    L.callSwap (if (deduceSwap T U).isSome then some .deleted else none) T U

/-- The constraint of the first overload of `ranges::swap`. -/
def swapConstraint (L : SwapLanguage) (T U : Ty) : Except HardError Bool :=
  if adlSwap L T U then return true
  else if T = U && T.isLvalueReference && moveConstructible L T.removeReference then
    assignableFrom L T T.removeReference
  else return false

/-- Is `ranges::swap(a, b)` well-formed, for lvalues of the given types?  The second overload takes
arrays of one length whose elements can be swapped. -/
def rangesSwap (L : SwapLanguage) : NonRef → NonRef → Except HardError Bool
  | .array n X, .array m Y => do
    let whole ← swapConstraint L (.lref (.array n X)) (.lref (.array m Y))
    let elements ← if n = m then rangesSwap L X Y else pure false
    return whole || elements
  | X, Y => swapConstraint L (.lref X) (.lref Y)

/-- The concept `swappable<T>`.  Without a type `T&` it is not satisfied. -/
def swappable (L : SwapLanguage) (T : Ty) : Except HardError Bool :=
  match T.addLvalueReference with
  | .lref X => rangesSwap L X X
  | _ => return false

/-! ## 4. Arrays -/

/-- `E[n1][n2]...`. -/
def arrayOf : List ℕ → NonRef → NonRef
  | [], E => E
  | n :: ns, E => .array n (arrayOf ns E)

/-- Object types are referred to by references. -/
theorem isReferenceable_of_isObject (h : (Ty.plain E).isObject = true) :
    E.isReferenceable = true := by
  cases E with
  | void cv => exact absurd h Bool.false_ne_true
  | function r ps q => exact absurd h Bool.false_ne_true
  | _ => rfl

/-- Two lvalues of one type. -/
theorem deduceSwap_lref (X : NonRef) : deduceSwap (.lref X) (.lref X) = some X := by
  simp [deduceSwap, boundByLvalue]

/-- `cleo::swap` is not viable for arrays, which it would have to assign. -/
theorem cleoSwapViable_array (L : SwapLanguage) (n : ℕ) (X : NonRef) :
    cleoSwapViable L (.lref (.array n X)) (.lref (.array n X)) = false := by
  have hassign : isMoveAssignable L (.plain (.array n X)) = false := rfl
  rw [cleoSwapViable, deduceSwap_lref, Option.any_some, cleoSwapConstraint, hassign,
    Bool.and_false]

/-- **`is_swappable_v` of an array is what argument-dependent lookup makes of it.** -/
theorem isSwappable_array (L : SwapLanguage) (n : ℕ) (X : NonRef) :
    isSwappable L (.plain (.array n X)) =
      L.callSwap none (.lref (.array n X)) (.lref (.array n X)) := by
  have href : (Ty.plain (.array n X)).addLvalueReference = .lref (.array n X) := rfl
  rw [isSwappable, href, isSwappableWith, Bool.and_self, swapCall, cleoSwapViable_array]
  rfl

/-- **`array<X[n], N>` has no `swap` that compiles.** -/
theorem arraySwap_array (L : SwapLanguage) (n : ℕ) (X : NonRef) :
    arraySwap L (.plain (.array n X)) =
      if L.callSwap none (.lref (.array n X)) (.lref (.array n X)) then .error .illFormed
      else .ok false := by
  have href : (Ty.plain (.array n X)).addLvalueReference = .lref (.array n X) := rfl
  rw [arraySwap, isSwappable_array, href, cleoSwapViable_array, Bool.false_and]
  rfl

/-- The first overload of `ranges::swap` is not for arrays: they are no classes, and nothing can
be converted to one. -/
theorem swapConstraint_array (L : SwapLanguage) (n : ℕ) (X : NonRef) :
    swapConstraint L (.lref (.array n X)) (.lref (.array n X)) = .ok false := by
  have hadl : adlSwap L (.lref (.array n X)) (.lref (.array n X)) = false := rfl
  have hmove : moveConstructible L (.plain (.array n X)) = false := by
    have hconv : convertibleTo L (.plain (.array n X)) (.plain (.array n X)) = false := rfl
    rw [moveConstructible, hconv, Bool.and_false]
  have hremove : (Ty.lref (.array n X)).removeReference = .plain (.array n X) := rfl
  rw [swapConstraint, hadl, hremove, hmove, Bool.and_false]
  rfl

/-- The second goes on to the elements. -/
theorem rangesSwap_array (L : SwapLanguage) (n : ℕ) (X : NonRef) :
    rangesSwap L (.array n X) (.array n X) = rangesSwap L X X := by
  rw [rangesSwap, swapConstraint_array]
  simp only [if_true]
  cases rangesSwap L X X <;> rfl

theorem rangesSwap_arrayOf (L : SwapLanguage) (ns : List ℕ) (E : NonRef) :
    rangesSwap L (arrayOf ns E) (arrayOf ns E) = rangesSwap L E E := by
  induction ns with
  | nil => rfl
  | cons n ns ih => rw [arrayOf, rangesSwap_array, ih]

theorem swappable_of_isReferenceable (h : X.isReferenceable = true) :
    swappable L (.plain X) = rangesSwap L X X := by
  rw [swappable, addLvalueReference, if_pos h]

/-- **`swappable` of an array is that of its elements**, at any depth. -/
theorem swappable_arrayOf (h : (Ty.plain E).isObject = true) (hns : ns ≠ []) :
    swappable L (.plain (arrayOf ns E)) = swappable L (.plain E) := by
  obtain ⟨n, ns, rfl⟩ := List.exists_cons_of_ne_nil hns
  have hA : (arrayOf (n :: ns) E).isReferenceable = true := rfl
  rw [swappable_of_isReferenceable hA, swappable_of_isReferenceable (isReferenceable_of_isObject h),
    rangesSwap_arrayOf]

/-! ## 5. Where the two agree -/

/-- Both tests give the same answer. -/
def TestsAgree (L : SwapLanguage) (T : Ty) : Prop := swappable L T = .ok (isSwappable L T)

/-- Both tests give the answer of the elements, for the array type `A` over `E`; and a
`cleo::array` of elements of either type can be swapped exactly when `ranges::swap` swaps its
elements. -/
structure ArrayAgrees (L : SwapLanguage) (E A : Ty) : Prop where
  unqualified : isSwappable L A = isSwappable L E
  ranges : swappable L A = .ok (isSwappable L E)
  element : arraySwap L E = swappable L E
  member : arraySwap L A = swappable L A

/-- Nothing swaps two objects of type `E`, or two of the array type `A` over it. -/
structure NothingSwaps (L : SwapLanguage) (E A : NonRef) : Prop where
  /-- Neither the program's own functions do nor, if an `E` can be moved and assigned, `cleo::swap`
  beside them. -/
  element : L.callSwap (if cleoSwapConstraint L (.plain E) then some .cleo else none)
    (.lref E) (.lref E) = false
  /-- For arrays there are only the program's own functions. -/
  array : L.callSwap none (.lref A) (.lref A) = false

/-- `is_swappable_v` of an object type, in terms of the candidates. -/
theorem isSwappable_eq (h : (Ty.plain E).isObject = true) : isSwappable L (.plain E) =
    L.callSwap (if cleoSwapConstraint L (.plain E) then some .cleo else none)
      (.lref E) (.lref E) := by
  have href : (Ty.plain E).addLvalueReference = .lref E := if_pos (isReferenceable_of_isObject h)
  rw [isSwappable, href, isSwappableWith, Bool.and_self, swapCall, cleoSwapViable, deduceSwap_lref,
    Option.any_some]

/-- Where the constraint fails there is no member. -/
theorem arraySwap_of_not_isSwappable (h : isSwappable L T = false) :
    arraySwap L T = .ok false := by
  rw [arraySwap, h]
  rfl

/-- **The tests and the member agree on an array exactly when nothing swaps its elements and
nothing swaps the array.**  If the elements can be swapped, either `is_swappable_v` denies it for
the array, or a function of the program's own makes it true and the member does not compile. -/
theorem arrayAgrees_iff (hE : (Ty.plain E).isObject = true) (hagree : TestsAgree L (.plain E))
    (hns : ns ≠ []) :
    ArrayAgrees L (.plain E) (.plain (arrayOf ns E)) ↔ NothingSwaps L E (arrayOf ns E) := by
  have hranges : swappable L (.plain (arrayOf ns E)) = .ok (isSwappable L (.plain E)) :=
    (swappable_arrayOf hE hns).trans hagree
  obtain ⟨n, ns, rfl⟩ := List.exists_cons_of_ne_nil hns
  have hcall := isSwappable_array L n (arrayOf ns E)
  constructor
  · intro h
    have hmember := hranges.symm.trans h.member.symm
    rw [arrayOf, arraySwap_array] at hmember
    cases hadl : L.callSwap none (.lref (.array n (arrayOf ns E)))
        (.lref (.array n (arrayOf ns E))) with
    | true =>
      rw [hadl] at hmember
      exact nomatch hmember
    | false =>
      rw [hadl] at hmember
      have hfalse : isSwappable L (.plain E) = false := Except.ok.inj hmember
      exact ⟨(isSwappable_eq hE).symm.trans hfalse, hadl⟩
  · intro h
    have helement : isSwappable L (.plain E) = false := (isSwappable_eq hE).trans h.element
    have harray : isSwappable L (.plain (arrayOf (n :: ns) E)) = false := hcall.trans h.array
    constructor
    · rw [harray, helement]
    · exact hranges
    · rw [arraySwap_of_not_isSwappable helement, hagree, helement]
    · rw [arraySwap_of_not_isSwappable harray, hranges, helement]

/-! ## 6. An array of `int` -/

/-- What the language makes of `int` and of arrays of `int`: an `int` is copied, assigned and
converted, and no function is found by argument-dependent lookup. -/
def intLanguage : SwapLanguage where
  conditional a b := if a = b then some a else none
  passable a b := a.removeCvref = b.removeCvref
  commonTypeSpec _ _ := none
  basicCommonReference _ _ _ _ := none
  constructible T U := T.removeCvref = U.removeCvref && !T.isArray
  nothrowDestructible _ := true
  castable a b := a.removeCvref = b.removeCvref && !b.isArray
  assign
    | .lref X, U =>
      if !X.cv.isConst && X.removeCv = U.referent.removeCv then some (.lref X) else none
    | _, _ => none
  callSwap
    | some .cleo, _, _ => true
    | _, _, _ => false

/-- `int`. -/
def int : NonRef := .arithmetic .none .int

theorem int_testsAgree : isSwappable intLanguage (.plain int) = true ∧
    TestsAgree intLanguage (.plain int) := by
  refine ⟨by decide, ?_⟩
  rfl

/-- `int[3]`, which does not meet the condition. -/
theorem arrayAgrees_iff_int :
    ArrayAgrees intLanguage (.plain int) (.plain (arrayOf [3] int)) ↔
      NothingSwaps intLanguage int (arrayOf [3] int) :=
  arrayAgrees_iff (by decide) int_testsAgree.2 (by decide)

/-- **`is_swappable_v<int[3]>` is false**, although `int` passes both tests. -/
theorem swappable_array_disagrees :
    ¬ ∀ (L : SwapLanguage) (E : NonRef) (ns : List ℕ), (Ty.plain E).isObject = true →
      TestsAgree L (.plain E) → ns ≠ [] → (∀ n ∈ ns, 0 < n) →
        ArrayAgrees L (.plain E) (.plain (arrayOf ns E)) := by
  intro hall
  have h := hall intLanguage int [3] (by decide) int_testsAgree.2 (by decide) (by decide)
  have hfalse : isSwappable intLanguage (.plain (arrayOf [3] int)) = false := by decide
  rw [h.unqualified, int_testsAgree.1] at hfalse
  exact nomatch hfalse

end CleoKernel.Types
