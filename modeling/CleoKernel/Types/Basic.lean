/-
# C++ types, and the transformations of `lib/type_traits.hpp` on them

The traits of the library are functions on types, so the model starts with a datatype of types.
It is built so that what the language does not have cannot be written down:

* references stand only at the top (`Ty`): there is no reference to a reference, no pointer to
  one and no array of them.  `NonRef` is a type that is not a reference;
* cv-qualifiers are part of the constructors that can carry them.  An array has the qualifiers
  of its elements, a function type and a reference have none, so each type has one spelling.

The transformations are those of the source, partial specialisation by partial specialisation.
Where the source forms `T&`, `T&&` or `T*` under an overload that may drop out, the fallback is
the second branch.
-/
import Mathlib.Data.Nat.Notation

namespace CleoKernel.Types

/-! ## 1. Types -/

/-- `const` and `volatile`. -/
structure CV where
  isConst : Bool
  isVolatile : Bool
  deriving DecidableEq, Repr

/-- No qualifiers. -/
def CV.none : CV := ⟨false, false⟩

/-- `const`. -/
def CV.const : CV := ⟨true, false⟩

/-- The qualifiers of a type that is qualified twice. -/
def CV.join (c d : CV) : CV := ⟨c.isConst || d.isConst, c.isVolatile || d.isVolatile⟩

/-- The arithmetic types. -/
inductive Arithmetic
  | bool | char | signedChar | unsignedChar | wchar | char8 | char16 | char32
  | short | unsignedShort | int | unsignedInt | long | unsignedLong | longLong | unsignedLongLong
  | float | double | longDouble
  deriving DecidableEq, Repr

/-- The ref-qualifier of a function type. -/
inductive RefQual
  | none | lvalue | rvalue
  deriving DecidableEq, Repr

/-- What a function type has besides its result and its parameters. -/
structure FnQuals where
  cv : CV
  ref : RefQual
  isVariadic : Bool
  isNoexcept : Bool
  deriving DecidableEq, Repr

mutual

/-- Classes and unions.  `reference_wrapper` is the one class template the library itself looks
for; all other classes and unions are told apart by a number. -/
inductive ClassTy
  | class_ (id : ℕ)
  | union_ (id : ℕ)
  | referenceWrapper (target : NonRef)

/-- Types that are not references. -/
inductive NonRef
  | void (cv : CV)
  | nullptr (cv : CV)
  | arithmetic (cv : CV) (kind : Arithmetic)
  | enum (cv : CV) (id : ℕ)
  | record (cv : CV) (c : ClassTy)
  | pointer (cv : CV) (target : NonRef)
  | memberPointer (cv : CV) (c : ClassTy) (member : NonRef)
  | array (extent : ℕ) (elem : NonRef)
  | unboundedArray (elem : NonRef)
  | function (result : Ty) (params : Params) (quals : FnQuals)

/-- Types. -/
inductive Ty
  | plain (o : NonRef)
  | lref (o : NonRef)
  | rref (o : NonRef)

/-- Parameter lists. -/
inductive Params
  | nil
  | cons (t : Ty) (ts : Params)

end

deriving instance DecidableEq for ClassTy, NonRef, Ty, Params

/-! ## 2. Qualifiers -/

namespace NonRef

/-- The top-level qualifiers, which for an array are those of its elements. -/
def cv : NonRef → CV
  | .void c | .nullptr c | .arithmetic c _ | .enum c _ | .record c _ | .pointer c _
  | .memberPointer c _ _ => c
  | .array _ e | .unboundedArray e => e.cv
  | .function _ _ _ => .none

/-- Change the top-level qualifiers.  A function type has none to change. -/
def mapCv (f : CV → CV) : NonRef → NonRef
  | .void c => .void (f c)
  | .nullptr c => .nullptr (f c)
  | .arithmetic c k => .arithmetic (f c) k
  | .enum c i => .enum (f c) i
  | .record c k => .record (f c) k
  | .pointer c t => .pointer (f c) t
  | .memberPointer c k m => .memberPointer (f c) k m
  | .array n e => .array n (e.mapCv f)
  | .unboundedArray e => .unboundedArray (e.mapCv f)
  | .function r ps q => .function r ps q

/-- The type qualified by `c` as well. -/
def addCv (c : CV) (o : NonRef) : NonRef := o.mapCv c.join

/-- `remove_cv_t`, on a type that is not a reference. -/
def removeCv (o : NonRef) : NonRef := o.mapCv fun _ => .none

/-- `copy_cv_t<From, To>`, on types that are not references: the partial specialisations for
`const From`, `volatile From` and `const volatile From`. -/
def copyCv (src dst : NonRef) : NonRef := dst.addCv src.cv

/-- Is it a function type with a cv- or ref-qualifier? -/
def isQualifiedFunction : NonRef → Bool
  | .function _ _ q => q.cv != .none || q.ref != .none
  | _ => false

/-- Can the type be referred to by a reference? -/
def isReferenceable : NonRef → Bool
  | .void _ => false
  | o => !o.isQualifiedFunction

/-- Can the type be pointed to by a pointer? -/
def isPointable (o : NonRef) : Bool := !o.isQualifiedFunction

/-- Taking the qualifiers off and putting them back. -/
theorem addCv_cv_removeCv : ∀ o : NonRef, o.removeCv.addCv o.cv = o
  | .void _ | .nullptr _ | .arithmetic _ _ | .enum _ _ | .record _ _ | .pointer _ _
  | .memberPointer _ _ _ => by simp [removeCv, addCv, mapCv, cv, CV.join, CV.none]
  | .function _ _ _ => rfl
  | .array n e => congrArg (NonRef.array n) (addCv_cv_removeCv e)
  | .unboundedArray e => congrArg NonRef.unboundedArray (addCv_cv_removeCv e)

end NonRef

/-! ## 3. Transformations -/

namespace Ty

/-- The type without its reference. -/
def referent : Ty → NonRef
  | .plain o | .lref o | .rref o => o

/-- `remove_reference_t`. -/
def removeReference (t : Ty) : Ty := .plain t.referent

/-- Qualify a type.  On a reference the qualifiers are ignored. -/
def addCv (c : CV) : Ty → Ty
  | .plain o => .plain (o.addCv c)
  | t => t

/-- `remove_cv_t`. -/
def removeCv : Ty → Ty
  | .plain o => .plain o.removeCv
  | t => t

/-- `remove_cvref_t`. -/
def removeCvref (t : Ty) : Ty := t.removeReference.removeCv

/-- `add_lvalue_reference_t`: `T&` if there is such a type, with references collapsed. -/
def addLvalueReference : Ty → Ty
  | .plain o => if o.isReferenceable then .lref o else .plain o
  | .lref o | .rref o => .lref o

/-- `add_rvalue_reference_t`: `T&&` if there is such a type, with references collapsed. -/
def addRvalueReference : Ty → Ty
  | .plain o => if o.isReferenceable then .rref o else .plain o
  | t => t

/-- `add_pointer_t`: a pointer to the type without its reference, if there is one. -/
def addPointer (t : Ty) : Ty :=
  if t.referent.isPointable then .plain (.pointer .none t.referent) else t

/-- `remove_extent_t`. -/
def removeExtent : Ty → Ty
  | .plain (.array _ e) | .plain (.unboundedArray e) => .plain e
  | t => t

/-- `is_void_v`. -/
def isVoid (t : Ty) : Bool := .plain (.void .none) = t.removeCv

/-- `is_array_v`. -/
def isArray : Ty → Bool
  | .plain (.array _ _) | .plain (.unboundedArray _) => true
  | _ => false

/-- `is_function_v`. -/
def isFunction : Ty → Bool
  | .plain (.function _ _ _) => true
  | _ => false

/-- `is_reference_v`. -/
def isReference : Ty → Bool
  | .plain _ => false
  | _ => true

/-- `decay_t`. -/
def decay (t : Ty) : Ty :=
  let u := t.removeReference
  if u.isArray then u.removeExtent.addPointer
  else if u.isFunction then u.addPointer
  else u.removeCv

/-- `copy_cvref_t<From, To>`. -/
def copyCvref : Ty → Ty → Ty
  | .plain src, dst => dst.addCv src.cv
  | .lref src, dst => (dst.addCv src.cv).addLvalueReference
  | .rref src, dst => (dst.addCv src.cv).addRvalueReference

/-- **`copy_cvref_t` undoes `remove_cvref_t`**, on every type a reference to which can be
written. -/
theorem copyCvref_removeCvref {t : Ty} (h : t.referent.isReferenceable = true) :
    copyCvref t t.removeCvref = t := by
  have hcv : t.removeCvref.addCv t.referent.cv = .plain t.referent :=
    congrArg plain t.referent.addCv_cv_removeCv
  cases t with
  | plain o => exact hcv
  | lref o =>
    have href : o.isReferenceable = true := h
    have hadd : (lref o).removeCvref.addCv o.cv = .plain o := hcv
    rw [copyCvref, hadd, addLvalueReference, if_pos href]
  | rref o =>
    have href : o.isReferenceable = true := h
    have hadd : (rref o).removeCvref.addCv o.cv = .plain o := hcv
    rw [copyCvref, hadd, addRvalueReference, if_pos href]

/-- The type of the expression `declval<T>()`.  There is none when the function would have to
return a function. -/
def declval (t : Ty) : Option Ty :=
  if t.addRvalueReference.isFunction then none else some t.addRvalueReference

/-- A function type with qualifiers has no pointer to decay to, and stays as it is. -/
theorem decay_of_not_isPointable {o : NonRef} (h : o.isPointable = false) :
    (plain o).decay = plain o := by
  cases o with
  | function r ps q => simp [decay, removeReference, referent, isArray, isFunction, addPointer, h]
  | _ => exact absurd h (by simp [NonRef.isPointable, NonRef.isQualifiedFunction])

/-- A pointer that has just been formed does not decay any further. -/
theorem decay_addPointer (o : NonRef) : (plain o).addPointer.decay = (plain o).addPointer := by
  cases h : o.isPointable with
  | true => simp [addPointer, referent, h]; rfl
  | false => simp [addPointer, referent, h, decay_of_not_isPointable h]

/-- **Decaying twice is decaying once.** -/
theorem decay_idem (t : Ty) : t.decay.decay = t.decay := by
  have key : ∀ o : NonRef, (Ty.plain o).decay.decay = (Ty.plain o).decay := by
    intro o
    cases o with
    | array n e => exact decay_addPointer e
    | unboundedArray e => exact decay_addPointer e
    | function r ps q => exact decay_addPointer (.function r ps q)
    | _ => rfl
  cases t <;> exact key _

end Ty

end CleoKernel.Types
