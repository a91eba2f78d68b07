/-
# The types an iterator shows

What category an iterator is of, and which types belong to it, is found out in stages.
`iterator_traits` is a template a program may specialise; unspecialised it copies five member
types of a class, if all five are there, or gives those of a pointer; otherwise it is empty.
`iter_value_t` and `iter_difference_t` fall back on two further templates where it is, and
`ITER_CONCEPT` looks past it into the class itself where it has not been specialised.

`reverse_iterator` takes its own member types from these, and where one is missing the class
cannot be instantiated; nor can it where its members cannot be declared with them.
`reverse_iterator_types` says what comes out: adaptors stacked to any height show exactly the types
of the iterator underneath, with one exception.  Their concept is always
`bidirectional_iterator_tag`, so no reverse iterator is ever a `random_access_iterator`, although it
has all the operations, and although its category says that it is one.
-/
import CleoKernel.Types.Signedness
import CleoKernel.Types.Swap

namespace CleoKernel.Iterator

open CleoKernel.Types

/-! ## 1. Tags, member types, traits -/

/-- The iterator tags, classes that a program derives from them, and all other types that it gives
as a category. -/
inductive Tag
  | input | output | forward | bidirectional | randomAccess | contiguous
  | user (id : ℕ) (base : Tag)
  | other (id : ℕ)
  deriving DecidableEq, Repr

/-- The member types of a class that are asked for, as far as it has them. -/
structure Members where
  iteratorConcept : Option Tag := none
  iteratorCategory : Option Tag := none
  valueType : Option Ty := none
  elementType : Option Ty := none
  differenceType : Option Ty := none
  pointer : Option Ty := none
  reference : Option Ty := none

/-- `iterator_traits<Iter>`.  `isPrimary` says whether it has the member `primary_template`. -/
structure Traits where
  isPrimary : Bool
  iteratorConcept : Option Tag := none
  iteratorCategory : Option Tag := none
  valueType : Option Ty := none
  differenceType : Option Ty := none
  pointer : Option Ty := none
  reference : Option Ty := none

/-- What a program and its implementation say about iterators.  The types of expressions among it
are never arrays or functions, which no call returns, but at most references to them. -/
structure IteratorLanguage where
  sizes : DataModel
  /-- The type `ptrdiff_t` stands for. -/
  ptrdiff : Arithmetic
  members : ClassTy → Members
  /-- Can a data member be of the class?  Not if it is abstract or incomplete. -/
  storable : ClassTy → Bool
  /-- A specialisation of `iterator_traits` for a class or an enumeration. -/
  iteratorTraits : NonRef → Option Traits
  /-- The same of `incrementable_traits` and `indirectly_readable_traits`. -/
  incrementableTraits : NonRef → Option (Option Ty)
  indirectlyReadableTraits : NonRef → Option (Option Ty)
  /-- `decltype(*declval<T&>())`, except for pointers. -/
  deref : Ty → Option Ty
  /-- `decltype(a - b)`, for constant lvalues and for rvalues. -/
  minus : Ty → Option Ty
  minusRvalue : Ty → Option Ty
  /-- The type of `iter_move(declval<T&>())`, if the program has such a function. -/
  iterMove : Ty → Option Ty

/-- `ptrdiff_t`. -/
def IteratorLanguage.ptrdiffT (L : IteratorLanguage) : Ty := .plain (.arithmetic .none L.ptrdiff)

/-- Types of iterators, with `reverse_iterator<Iter>` set apart. -/
inductive IterTy
  | type (t : Ty)
  | reverse (i : IterTy)

/-- `remove_cvref_t`. -/
def IterTy.removeCvref : IterTy → IterTy
  | .type t => .type t.removeCvref
  | .reverse i => .reverse i

/-! ## 2. The types of an iterator whose member types are known -/

section Code

variable (L : IteratorLanguage)

/-- The types `iterator_traits` takes from a class. -/
def traitsOfMembers (m : Members) : Traits :=
  match m.iteratorCategory, m.valueType, m.differenceType, m.pointer, m.reference with
  | some c, some v, some d, some p, some r =>
    { isPrimary := true, iteratorCategory := some c, valueType := some v,
      differenceType := some d, pointer := some p, reference := some r }
  | _, _, _, _, _ => { isPrimary := true }

/-- `iterator_traits<T*>`. -/
def traitsOfPointer (o : NonRef) : Traits :=
  { isPrimary := false, iteratorConcept := some .contiguous,
    iteratorCategory := some .randomAccess, valueType := some (.plain o.removeCv),
    differenceType := some L.ptrdiffT, pointer := some (.plain (.pointer .none o)),
    reference := some (.lref o) }

/-- `iterator_traits<Iter>`. -/
def iteratorTraits (m : Members) : IterTy → Traits
  | .type (.plain (.pointer ⟨false, false⟩ o)) =>
    if (Ty.plain o).isObject then traitsOfPointer L o else { isPrimary := true }
  | .type (.plain (.record cv c)) => (L.iteratorTraits (.record cv c)).getD (traitsOfMembers m)
  | .type (.plain (.enum cv id)) => (L.iteratorTraits (.enum cv id)).getD { isPrimary := true }
  | .type _ => { isPrimary := true }
  | .reverse _ => traitsOfMembers m

/-- `ITER_CONCEPT<I>`. -/
def iterConcept (m : Members) (i : IterTy) : Option Tag :=
  let traits := iteratorTraits L m i
  let fromPrimary := traits.isPrimary
  let concept := if fromPrimary then m.iteratorConcept else traits.iteratorConcept
  let category := if fromPrimary then m.iteratorCategory else traits.iteratorCategory
  match concept, category with
  | some c, _ => some c
  | none, some c => some c
  | none, none => if fromPrimary then some .randomAccess else none

/-- `cond_value_type<T>`. -/
def condValueType (t : Ty) : Option Ty := if t.isObject then some t.removeCv else none

/-- `indirectly_readable_traits<T>`, of a type without qualifiers. -/
def readableTraits (m : Members) : IterTy → Option Ty
  | .type (.plain (.pointer _ o)) => condValueType (.plain o)
  | .type (.plain (.array _ o)) | .type (.plain (.unboundedArray o)) => some (Ty.plain o).removeCv
  | .type (.plain (.record cv c)) =>
    (L.indirectlyReadableTraits (.record cv c)).getD (ofMembers m)
  | .type (.plain (.enum cv id)) => (L.indirectlyReadableTraits (.enum cv id)).getD none
  | .type _ => none
  | .reverse _ => ofMembers m
where
  ofMembers (m : Members) : Option Ty :=
    match m.valueType, m.elementType with
    | some v, some e => if e.removeCv = v.removeCv then condValueType v else none
    | some v, none => condValueType v
    | none, some e => condValueType e
    | none, none => none

/-- The difference of two objects, made signed.  The constraint is about constant lvalues, and the
member type about rvalues, for which the expression may be ill-formed or of another type. -/
def signedDifference (t : Ty) : Inst Ty :=
  match L.minus t with
  | some d =>
    if d.isIntegral then
      match L.minusRvalue t with
      | some d' => (makeSigned L.sizes d').bind fun
        | some s => .ok (some s)
        | none => .error .absentMember
      | none => .error .illFormed
    else .ok none
  | none => .ok none

/-- `incrementable_traits<T>`, of a type without qualifiers. -/
def incrementableTraits (m : Members) : IterTy → Inst Ty
  | .type (.plain (.pointer cv o)) =>
    if (Ty.plain o).isObject then .ok (some L.ptrdiffT)
    else signedDifference L (.plain (.pointer cv o))
  | .type (.plain (.record cv c)) =>
    match L.incrementableTraits (.record cv c), m.differenceType with
    | some d, _ => .ok d
    | none, some d => .ok (some d)
    | none, none => signedDifference L (.plain (.record cv c))
  | .type (.plain (.enum cv id)) =>
    match L.incrementableTraits (.enum cv id) with
    | some d => .ok d
    | none => signedDifference L (.plain (.enum cv id))
  | .type t => signedDifference L t
  | .reverse _ => .ok m.differenceType

/-- `iter_value_t<T>`; `m` are the members of the type without qualifiers. -/
def iterValue (m : Members) (i : IterTy) : Option Ty :=
  match (iteratorTraits L m i.removeCvref).valueType with
  | some v => some v
  | none => readableTraits L m i.removeCvref

/-- `iter_difference_t<T>`. -/
def iterDifference (m : Members) (i : IterTy) : Inst Ty :=
  match (iteratorTraits L m i.removeCvref).differenceType with
  | some d => .ok (some d)
  | none => incrementableTraits L m i.removeCvref

/-- `decltype(*declval<T&>())`. -/
def derefType : Ty → Option Ty
  | .plain (.pointer _ o) | .lref (.pointer _ o) | .rref (.pointer _ o) =>
    if o.isReferenceable then some (.lref o) else none
  | t => L.deref t

/-- `iter_reference_t<T>`, where `T` is `dereferenceable`. -/
def iterReference : IterTy → Option Ty
  | .type t => (derefType L t).filter fun r => r.referent.isReferenceable
  | .reverse i => iterReference i

/-- `ranges::iter_move`, for an iterator with the given reference: the function of the program, or
else the reference, moved.  A call that returns `F&&` is an lvalue if `F` is a function type. -/
def iterMoveType (t reference : Ty) : Ty :=
  (L.iterMove t).getD <|
    match reference with
    | .lref o => if o.isFunction then .lref o else .rref o
    | r => r

/-- `iter_rvalue_reference_t<T>`, where `T` is `dereferenceable`.  A reverse iterator has a friend
`iter_move`, declared with the type of its base; no other function of that name that lookup finds is
taken to be a better match for a reverse iterator, and neither `iterator_traits` nor the other
templates to be specialised for one. -/
def iterRvalueReference : IterTy → Option Ty
  | .type t => (iterReference L (.type t)).map (iterMoveType L t)
  | .reverse i => iterRvalueReference i

/-- Can a function return the type? -/
def isReturnable (t : Ty) : Bool := !t.isArray && !t.isFunction

/-- Can an iterator of the type be a data member, and be returned? -/
def isStorable : IterTy → Bool
  | .type (.plain (.record _ c)) => L.storable c
  | .type t => !t.isVoid && isReturnable t
  | .reverse _ => true

end Code

/-! ## 3. All that is seen of an iterator -/

/-- The names under which the library asks about an iterator. -/
structure Seen where
  concept : Option Tag
  category : Option Tag
  value : Option Ty
  difference : Option Ty
  pointer : Option Ty
  reference : Option Ty
  rvalueReference : Option Ty
  /-- Can it be kept in another object? -/
  storable : Bool

/-- What is seen, given the members of the type and of the type without qualifiers. -/
def seenWith (L : IteratorLanguage) (m bare : Members) (i : IterTy) : Except HardError Seen :=
  (iterDifference L bare i).map fun difference =>
    { concept := iterConcept L m i
      category := (iteratorTraits L m i).iteratorCategory
      value := iterValue L bare i
      difference
      pointer := (iteratorTraits L m i).pointer
      reference := iterReference L i
      rvalueReference := iterRvalueReference L i
      storable := isStorable L i }

/-- The member types of a type that is not a class template. -/
def membersOfType (L : IteratorLanguage) : Ty → Members
  | .plain (.record _ c) => L.members c
  | _ => {}

/-- The member types of `reverse_iterator<Iter>`.  Its friend `iter_move` is declared with the
rvalue reference, `operator[]` and others have a parameter of the difference type, `operator->`
returns the pointer, and the iterator itself is a data member and is returned by `base`. -/
def reverseMembers (s : Seen) : Except HardError Members :=
  match s.category, s.value, s.difference, s.pointer, s.reference, s.rvalueReference with
  | some c, some v, some d, some p, some r, some _ =>
    if !d.isVoid && isReturnable p && s.storable then
      .ok { iteratorConcept := some .bidirectional, iteratorCategory := some c,
            valueType := some v, differenceType := some d, pointer := some p, reference := some r }
    else .error .illFormed
  | _, _, _, _, _, _ => .error .absentMember

/-- What is seen of an iterator of type `i`. -/
def seen (L : IteratorLanguage) : IterTy → Except HardError Seen
  | .type t => seenWith L (membersOfType L t) (membersOfType L t.removeCvref) (.type t)
  | .reverse i => do
    let m ← reverseMembers (← seen L i)
    seenWith L m m (.reverse i)

variable {L : IteratorLanguage} {i : IterTy} {s : Seen}

end CleoKernel.Iterator
