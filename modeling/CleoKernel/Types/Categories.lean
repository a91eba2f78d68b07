/-
# The type categories

The fourteen primary traits of `lib/type_traits.hpp` are fourteen separate definitions, and each
deals with the qualifiers of its argument in its own way: some take them off first, some list
the four variants, some rely on the rules for arrays, functions and references.  The composite
traits are computed from the primary ones.

The language has its own answer to the question what kind of type a type is (`Ty.category`), by
the outermost constructor.  `Category.trait_eq` says that the trait of each category recognises
exactly the types of that category; that the traits partition all types, qualified or not, and
that the composite ones mean what the standard says they mean, follows
(`categories_partition`).
-/
import CleoKernel.Types.Invoke

namespace CleoKernel.Types

/-! ## 1. The primary traits -/

namespace Ty

/-- `is_null_pointer_v`. -/
def isNullPointer (t : Ty) : Bool := .plain (.nullptr .none) = t.removeCv

/-- The types for which `is_integral_helper` is specialised, in order. -/
def integralHelpers : List Arithmetic :=
  [.bool, .char, .signedChar, .unsignedChar, .char8, .char16, .char32, .wchar, .short,
    .unsignedShort, .int, .unsignedInt, .long, .unsignedLong, .longLong, .unsignedLongLong]

/-- `is_integral_v`. -/
def isIntegral (t : Ty) : Bool :=
  integralHelpers.any fun k => t.removeCv = .plain (.arithmetic .none k)

/-- `is_floating_point_v`. -/
def isFloatingPoint (t : Ty) : Bool :=
  .plain (.arithmetic .none .float) = t.removeCv || .plain (.arithmetic .none .double) = t.removeCv
    || .plain (.arithmetic .none .longDouble) = t.removeCv

/-- `is_pointer_v`: `T*`, `T* const`, `T* volatile` and `T* const volatile`. -/
def isPointer : Ty → Bool
  | .plain (.pointer ⟨false, false⟩ _) => true
  | .plain (.pointer ⟨true, false⟩ _) => true
  | .plain (.pointer ⟨false, true⟩ _) => true
  | .plain (.pointer ⟨true, true⟩ _) => true
  | _ => false

/-- `is_lvalue_reference_helper`. -/
def isLvalueReferenceHelper : Ty → Bool
  | .lref _ => true
  | _ => false

/-- `is_lvalue_reference_v`. -/
def isLvalueReference (t : Ty) : Bool := t.removeCv.isLvalueReferenceHelper

/-- `is_rvalue_reference_helper`. -/
def isRvalueReferenceHelper : Ty → Bool
  | .rref _ => true
  | _ => false

/-- `is_rvalue_reference_v`. -/
def isRvalueReference (t : Ty) : Bool := t.removeCv.isRvalueReferenceHelper

/-- `is_enum_v`. -/
def isEnum : Ty → Bool
  | .plain (.enum _ _) => true
  | _ => false

/-- `is_union_v`. -/
def isUnion : Ty → Bool
  | .plain (.record _ c) => c.isUnion
  | _ => false

/-- `is_class_v`.  Of the two overloads of `test` the first drops out when there is no type
`int T::*`, that is, when `T` is neither a class nor a union. -/
def isClass (t : Ty) : Bool :=
  match t.asRecord with
  | some _ => !t.isUnion
  | none => false

/-! ## 2. The composite traits -/

/-- `is_arithmetic_v`. -/
def isArithmetic (t : Ty) : Bool := t.isIntegral || t.isFloatingPoint

/-- `is_fundamental_v`. -/
def isFundamental (t : Ty) : Bool :=
  t.isArithmetic || t.isVoid || .plain (.nullptr .none) = t.removeCv

/-- `is_scalar_v`. -/
def isScalar (t : Ty) : Bool :=
  t.isArithmetic || t.isEnum || t.isPointer || t.isMemberPointer || t.isNullPointer

/-- `is_object_v`. -/
def isObject (t : Ty) : Bool := t.isScalar || t.isArray || t.isUnion || t.isClass

/-- `is_compound_v`. -/
def isCompound (t : Ty) : Bool := !t.isFundamental

end Ty

/-! ## 3. The categories of the language -/

/-- The primary categories. -/
inductive Category
  | void | nullPointer | integral | floatingPoint | array | pointer | lvalueReference
  | rvalueReference | enum | union | class_ | function | memberObjectPointer
  | memberFunctionPointer
  deriving DecidableEq, Repr

/-- The trait for a category. -/
def Category.trait : Category → Ty → Bool
  | .void => Ty.isVoid
  | .nullPointer => Ty.isNullPointer
  | .integral => Ty.isIntegral
  | .floatingPoint => Ty.isFloatingPoint
  | .array => Ty.isArray
  | .pointer => Ty.isPointer
  | .lvalueReference => Ty.isLvalueReference
  | .rvalueReference => Ty.isRvalueReference
  | .enum => Ty.isEnum
  | .union => Ty.isUnion
  | .class_ => Ty.isClass
  | .function => Ty.isFunction
  | .memberObjectPointer => Ty.isMemberObjectPointer
  | .memberFunctionPointer => Ty.isMemberFunctionPointer

/-- The category of an arithmetic type. -/
def Arithmetic.category : Arithmetic → Category
  | .float | .double | .longDouble => .floatingPoint
  | _ => .integral

/-- The category of a type that is not a reference, whatever its qualifiers. -/
def NonRef.category : NonRef → Category
  | .void _ => .void
  | .nullptr _ => .nullPointer
  | .arithmetic _ k => k.category
  | .enum _ _ => .enum
  | .record _ (.union_ _) => .union
  | .record _ _ => .class_
  | .pointer _ _ => .pointer
  | .memberPointer _ _ (.function _ _ _) => .memberFunctionPointer
  | .memberPointer _ _ _ => .memberObjectPointer
  | .array _ _ | .unboundedArray _ => .array
  | .function _ _ _ => .function

/-- The category of a type. -/
def Ty.category : Ty → Category
  | .plain o => o.category
  | .lref _ => .lvalueReference
  | .rref _ => .rvalueReference

/-! ## 4. Each trait recognises its category -/

/-- The four partial specialisations leave no qualifier out. -/
theorem Ty.isPointer_pointer (cv : CV) (o : NonRef) :
    (Ty.plain (.pointer cv o)).isPointer = true := by
  rcases cv with ⟨_ | _, _ | _⟩ <;> rfl

theorem trait_arithmetic (c : Category) (cv : CV) (k : Arithmetic) :
    c.trait (.plain (.arithmetic cv k)) = decide (c = k.category) := by
  cases k <;> cases c <;> rfl

theorem trait_record (c : Category) (cv : CV) (k : ClassTy) :
    c.trait (.plain (.record cv k)) = decide (c = (NonRef.record cv k).category) := by
  cases k <;> cases c <;> rfl

theorem trait_memberPointer (c : Category) (cv : CV) (k : ClassTy) (m : NonRef) :
    c.trait (.plain (.memberPointer cv k m)) =
      decide (c = (NonRef.memberPointer cv k m).category) := by
  cases m <;> cases c <;> rfl

theorem trait_pointer (c : Category) (cv : CV) (o : NonRef) :
    c.trait (.plain (.pointer cv o)) = decide (c = .pointer) := by
  cases c with
  | pointer => exact Ty.isPointer_pointer cv o
  | _ => rfl

/-- **The trait of a category recognises the types of that category.** -/
theorem Category.trait_eq (c : Category) (t : Ty) : c.trait t = decide (c = t.category) := by
  rcases t with o | o | o
  · cases o with
    | arithmetic cv k => exact trait_arithmetic c cv k
    | record cv k => exact trait_record c cv k
    | memberPointer cv k m => exact trait_memberPointer c cv k m
    | pointer cv o => exact trait_pointer c cv o
    | _ => cases c <;> rfl
  · cases c <;> rfl
  · cases c <;> rfl

/-! ## 5. The partition -/

/-- Exactly one trait is true of a type. -/
theorem Category.existsUnique_trait (t : Ty) : ∃! c : Category, c.trait t = true := by
  refine ⟨t.category, ?_, ?_⟩
  · exact (trait_eq t.category t).trans (decide_eq_true rfl)
  · intro c hc
    rw [trait_eq] at hc
    exact of_decide_eq_true hc

/-- Top-level qualifiers do not change the category. -/
theorem Ty.category_addCv (cv : CV) (t : Ty) : (t.addCv cv).category = t.category := by
  rcases t with o | o | o
  · cases o with
    | record cv' k => cases k <;> rfl
    | memberPointer cv' k m => cases m <;> rfl
    | _ => rfl
  · rfl
  · rfl

/-- Nor do they change which trait is true. -/
theorem Category.trait_addCv (c : Category) (cv : CV) (t : Ty) :
    c.trait (t.addCv cv) = c.trait t := by
  rw [trait_eq, trait_eq, Ty.category_addCv]

/-- What the standard says of the composite traits. -/
structure StandardMeaning (t : Ty) : Prop where
  reference : t.isReference = (t.isLvalueReference || t.isRvalueReference)
  memberPointer : t.isMemberPointer = (t.isMemberObjectPointer || t.isMemberFunctionPointer)
  arithmetic : t.isArithmetic = (t.isIntegral || t.isFloatingPoint)
  object : t.isObject = !(t.isFunction || t.isReference || t.isVoid)
  fundamental : t.isFundamental = (t.isArithmetic || t.isVoid || t.isNullPointer)
  compound : t.isCompound = !t.isFundamental
  scalar : t.isScalar =
    (t.isArithmetic || t.isEnum || t.isPointer || t.isMemberPointer || t.isNullPointer)

theorem Ty.isReference_eq (t : Ty) :
    t.isReference = (t.isLvalueReference || t.isRvalueReference) := by
  cases t <;> rfl

theorem Ty.isMemberPointer_eq (t : Ty) :
    t.isMemberPointer = (t.isMemberObjectPointer || t.isMemberFunctionPointer) := by
  unfold isMemberPointer isMemberObjectPointer isMemberFunctionPointer
  rcases t.removeCv.asMemberPointer with _ | ⟨C, m⟩
  · rfl
  · cases hm : m.isFunction <;> simp [hm]

/-- **Every type that is not a function, a reference or void is an object type.**  The source lists
the categories of object types; that these are all the others needs the partition. -/
theorem Ty.isObject_eq (t : Ty) : t.isObject = !(t.isFunction || t.isReference || t.isVoid) := by
  rw [isObject, isScalar, isArithmetic, isMemberPointer_eq, isReference_eq]
  change
    ((((((Category.integral.trait t || Category.floatingPoint.trait t) || Category.enum.trait t) ||
      Category.pointer.trait t) || (Category.memberObjectPointer.trait t ||
      Category.memberFunctionPointer.trait t)) || Category.nullPointer.trait t) ||
      Category.array.trait t || Category.union.trait t || Category.class_.trait t) =
    !(Category.function.trait t || (Category.lvalueReference.trait t ||
      Category.rvalueReference.trait t) || Category.void.trait t)
  simp only [Category.trait_eq]
  cases t.category <;> rfl

theorem standardMeaning (t : Ty) : StandardMeaning t where
  reference := t.isReference_eq
  memberPointer := t.isMemberPointer_eq
  arithmetic := rfl
  object := t.isObject_eq
  fundamental := rfl
  compound := rfl
  scalar := rfl

/-- **The categories partition all types**, top-level qualifiers do not matter, and the composite
traits have their standard meaning. -/
theorem categories_partition (t : Ty) :
    (∃! c : Category, c.trait t = true) ∧
      (∀ (c : Category) (cv : CV), c.trait (t.addCv cv) = c.trait t) ∧ StandardMeaning t :=
  ⟨Category.existsUnique_trait t, fun c cv => c.trait_addCv cv t, standardMeaning t⟩

/-- `void() const` is a function and not an object. -/
example :
    let t : Ty := .plain (.function (.plain (.void .none)) .nil ⟨.const, .none, false, false⟩)
    t.isFunction = true ∧ t.isObject = false := by decide

end CleoKernel.Types
