/-
# `invoke_impl` and INVOKE

INVOKE gives a call of a callable `f` its meaning by cases: on a pointer to a member of class `C`
the member is selected from the first argument, or from what the first argument wraps or points
to; on anything else it is a plain call.  The library realises it with five constrained
overloads and lets overload resolution choose.

The classes of a program and the typing of its expressions are the parameters (`Program`), and
nothing is assumed about them: an expression is well-formed when `typeOf` gives it a type.  Another
one is what a program declares under the name `invoke_impl`.  `invoke` calls the five overloads by
their qualified name, but `invoke_result` does not, and its call is resolved together with the
functions that argument-dependent lookup finds in the namespaces of the arguments.

The five constraints never overlap, and together they leave no callable out; what they choose
from the first argument is not always what INVOKE asks for.  There is no overload for a
`reference_wrapper`, and the question whether the argument is an object of `C` is put as
`is_base_of`, which a union does not answer for itself.  `invoke_realizes_iff` says that besides
the functions found by that lookup these are the only two gaps.
-/
import CleoKernel.Types.Basic
import CleoKernel.Lib.OverloadSet

namespace CleoKernel.Types

open CleoKernel.OverloadSet

/-! ## 1. Member pointers -/

/-- `is_union_v`, on a class type. -/
def ClassTy.isUnion : ClassTy → Bool
  | .union_ _ => true
  | _ => false

/-- `is_function_v`, on a type that is not a reference. -/
def NonRef.isFunction : NonRef → Bool
  | .function _ _ _ => true
  | _ => false

namespace Ty

/-- The class and the member type of a pointer to member: what the pattern `M C::*` matches. -/
def asMemberPointer : Ty → Option (ClassTy × NonRef)
  | .plain (.memberPointer _ c m) => some (c, m)
  | _ => none

/-- `is_member_pointer_v`. -/
def isMemberPointer (t : Ty) : Bool := t.removeCv.asMemberPointer.isSome

/-- `is_member_function_pointer_v`. -/
def isMemberFunctionPointer (t : Ty) : Bool := t.removeCv.asMemberPointer.any (·.2.isFunction)

/-- `is_member_object_pointer_v`. -/
def isMemberObjectPointer (t : Ty) : Bool := t.removeCv.asMemberPointer.any (!·.2.isFunction)

/-- `member_pointer_class_t`. -/
def memberPointerClass (t : Ty) : Option ClassTy := t.removeCvref.asMemberPointer.map (·.1)

/-- The class of an object type. -/
def asRecord : Ty → Option ClassTy
  | .plain (.record _ c) => some c
  | _ => none

/-- Is the type, up to qualifiers and reference, a specialisation of `reference_wrapper`? -/
def isReferenceWrapper (t : Ty) : Bool :=
  match t.removeCvref.asRecord with
  | some (.referenceWrapper _) => true
  | _ => false

end Ty

/-! ## 2. Expressions -/

/-- What the member is selected from: `t1`, `t1.get()` or `*t1`, with the type of `t1`. -/
inductive Operand
  | obj (t : Ty)
  | get (t : Ty)
  | deref (t : Ty)
  deriving DecidableEq

/-- The expressions a call of `f` can denote. -/
inductive Expr
  /-- `(o.*f)(args...)` -/
  | memberCall (o : Operand) (f : Ty) (args : List Ty)
  /-- `o.*f` -/
  | memberAccess (o : Operand) (f : Ty)
  /-- `f(args...)` -/
  | call (f : Ty) (args : List Ty)
  deriving DecidableEq

/-- The five overloads of `invoke_impl`, in order. -/
inductive Overload
  /-- pmf, (derived) object -/
  | pmfObject
  /-- pmf, pointer-like object -/
  | pmfPointer
  /-- pmd, (derived) object -/
  | pmdObject
  /-- pmd, pointer-like object -/
  | pmdPointer
  /-- ordinary callable -/
  | ordinary
  deriving DecidableEq, Repr

/-- The functions an unqualified call of `invoke_impl` can choose from. -/
inductive Callee
  | overload (i : Overload)
  /-- One of those argument-dependent lookup finds, by its number. -/
  | found (k : ℕ)
  deriving DecidableEq, Repr

/-- A program: its class hierarchy, which expressions are well-formed with which type, and its own
functions called `invoke_impl`. -/
structure Program where
  /-- Is the first class derived from the second, and a different one? -/
  derives : ClassTy → ClassTy → Bool
  typeOf : Expr → Option Ty
  /-- What argument-dependent lookup finds for a callable and arguments of these types: the
  functions that are viable, each with the type of a call of it, or `none` if it is deleted. -/
  found : Ty → List Ty → List (Option Ty)
  /-- Is the first function a better match for such a call than the second? -/
  better : Ty → List Ty → Callee → Callee → Bool
  /-- Can a function with the first return type return an expression of the second, a different
  one? -/
  returns : Ty → Ty → Bool

variable {P : Program} {F O : Ty} {A rest : List Ty} {C : ClassTy} {member : NonRef}

/-- `is_base_of_v<C, D>`: among classes that are not unions, the same or a base. -/
def Program.isBaseOf (P : Program) (c d : ClassTy) : Bool :=
  !c.isUnion && !d.isUnion && (c = d || P.derives d c)

/-- `is_base_of_v<C, remove_cvref_t<O>>`, which is false for what is not a class. -/
def Program.isBaseOfType (P : Program) (c : ClassTy) (t : Ty) : Bool :=
  t.removeCvref.asRecord.any (P.isBaseOf c)

/-- `is_base_of_v<member_pointer_class_t<F>, remove_cvref_t<O>>`. -/
def Program.isMemberOf (P : Program) (F O : Ty) : Bool :=
  F.memberPointerClass.any (P.isBaseOfType · O)

/-! ## 3. The overload set -/

/-- The candidates. -/
def Overload.all : List Overload := [pmfObject, pmfPointer, pmdObject, pmdPointer, ordinary]

/-- The return expression of an overload, if the arguments fit its parameters and its constraint
holds. -/
def Overload.formed (P : Program) (F : Ty) : List Ty → Overload → Option Expr
  | O :: A, pmfObject =>
    if F.removeCvref.isMemberFunctionPointer && P.isMemberOf F O
    then some (.memberCall (.obj O) F A) else none
  | O :: A, pmfPointer =>
    if F.removeCvref.isMemberFunctionPointer && !P.isMemberOf F O
    then some (.memberCall (.deref O) F A) else none
  | [O], pmdObject =>
    if F.removeCvref.isMemberObjectPointer && P.isMemberOf F O
    then some (.memberAccess (.obj O) F) else none
  | [O], pmdPointer =>
    if F.removeCvref.isMemberObjectPointer && !P.isMemberOf F O
    then some (.memberAccess (.deref O) F) else none
  | A, ordinary => if !F.removeCvref.isMemberPointer then some (.call F A) else none
  | _, _ => none

/-- The viable overloads of `invoke_impl(f, t1, ..., tn)`. -/
def invokeImpl (P : Program) (F : Ty) (A : List Ty) : List (Viable Overload Expr Ty) :=
  viables (Overload.formed P F A) P.typeOf Overload.all

/-- The functions argument-dependent lookup finds, as candidates. -/
def Program.foundCandidates (P : Program) (F : Ty) (A : List Ty) : List (Callee × Option Ty) :=
  (P.found F A).zipIdx.map fun f => (.found f.2, f.1)

/-- The member `type` of `invoke_result<F, A...>`: `decltype(invoke_impl(f, t1, ..., tn))`, by the
unqualified name. -/
def invokeResult (P : Program) (F : Ty) (A : List Ty) : Option Ty :=
  let own := (invokeImpl P F A).map fun v => (Callee.overload v.candidate, some v.type)
  (best Prod.fst (P.better F A) (own ++ P.foundCandidates F A)).bind Prod.snd

/-- `is_invocable_v<F, A...>`. -/
def isInvocable (P : Program) (F : Ty) (A : List Ty) : Bool := (invokeResult P F A).isSome

/-- What INVOKE selects a member of `C` from: the object itself if it has type `C` or a type
derived from it, the object a `reference_wrapper` refers to, and otherwise `*t1`. -/
def invokeOperand (P : Program) (C : ClassTy) (O : Ty) : Operand :=
  if O.removeCvref.asRecord = some C ∨ P.isBaseOfType C O = true then .obj O
  else if O.isReferenceWrapper then .get O
  else .deref O

/-- Select a member: call it if it is a function; a data member takes no further arguments. -/
def selectMember (member : NonRef) (o : Operand) (F : Ty) (rest : List Ty) : Option Expr :=
  if member.isFunction then some (.memberCall o F rest)
  else if rest = [] then some (.memberAccess o F)
  else none

/-- The expression of a call, given what a member is selected from.  Anything but a pointer to
member is simply called. -/
def callExpr (operand : ClassTy → Ty → Operand) (F : Ty) (A : List Ty) : Option Expr :=
  match F.removeCvref.asMemberPointer, A with
  | some (C, member), O :: rest => selectMember member (operand C O) F rest
  | some _, [] => none
  | none, A => some (.call F A)

/-- The expression INVOKE(f, t1, ..., tn). -/
def invokeExpr (P : Program) : Ty → List Ty → Option Expr := callExpr (invokeOperand P)

/-- The type of INVOKE(f, t1, ..., tn), if it is well-formed. -/
def invokeType (P : Program) (F : Ty) (A : List Ty) : Option Ty := (invokeExpr P F A).bind P.typeOf

/-- Of the five overloads, the one INVOKE asks for is selected. -/
structure Selects (P : Program) (F : Ty) (A : List Ty) : Prop where
  /-- Some overload is viable exactly when INVOKE is well-formed. -/
  viable_iff : invokeImpl P F A ≠ [] ↔ (invokeType P F A).isSome
  /-- At most one is. -/
  at_most_one : (invokeImpl P F A).length ≤ 1
  /-- The one that is denotes the same expression. -/
  same : ∀ v ∈ invokeImpl P F A, invokeExpr P F A = some v.expr

/-- What the overload set selects a member of `C` from. -/
def overloadOperand (P : Program) (C : ClassTy) (O : Ty) : Operand :=
  if P.isBaseOfType C O then .obj O else .deref O

/-- The return expression of the overload that takes part. -/
def overloadExpr (P : Program) : Ty → List Ty → Option Expr := callExpr (overloadOperand P)

section CallExpr

variable {operand : ClassTy → Ty → Operand}

theorem callExpr_member (hF : F.removeCvref.asMemberPointer = some (C, member)) :
    callExpr operand F (O :: rest) = selectMember member (operand C O) F rest := by
  simp [callExpr, hF]

theorem callExpr_member_nil (hF : F.removeCvref.asMemberPointer = some (C, member)) :
    callExpr operand F [] = none := by
  simp [callExpr, hF]

theorem callExpr_ordinary (hF : F.removeCvref.asMemberPointer = none) :
    callExpr operand F A = some (.call F A) := by
  simp [callExpr, hF]

end CallExpr

/-- Qualifiers do not hide a pointer to member. -/
@[simp] theorem Ty.asMemberPointer_removeCv (t : Ty) :
    t.removeCv.asMemberPointer = t.asMemberPointer := by
  cases t with
  | plain o => cases o <;> rfl
  | lref o => rfl
  | rref o => rfl

/-- The overload for a member of `C`, which depends on what kind of member it is and on whether
the first argument is an object of `C`. -/
def memberOverload (P : Program) (C : ClassTy) (member : NonRef) (O : Ty) : Overload :=
  if member.isFunction then (if P.isBaseOfType C O then .pmfObject else .pmfPointer)
  else if P.isBaseOfType C O then .pmdObject else .pmdPointer

/-- The overload that takes part in a call. -/
def overloadFor (P : Program) (F : Ty) (A : List Ty) : Overload :=
  match F.removeCvref.asMemberPointer, A with
  | some (C, member), O :: _ => memberOverload P C member O
  | _, _ => .ordinary

/-- On a pointer to member, one overload takes part. -/
theorem formed_member (hF : F.removeCvref.asMemberPointer = some (C, member)) (i : Overload) :
    Overload.formed P F (O :: rest) i =
      if i = memberOverload P C member O
      then selectMember member (overloadOperand P C O) F rest else none := by
  have hof : P.isMemberOf F O = P.isBaseOfType C O := by
    simp [Program.isMemberOf, Ty.memberPointerClass, hF]
  cases i <;> cases hfun : member.isFunction <;> cases hbase : P.isBaseOfType C O <;>
    cases rest <;>
    simp [Overload.formed, Ty.isMemberFunctionPointer, Ty.isMemberObjectPointer,
      Ty.isMemberPointer, memberOverload, selectMember, overloadOperand, hF, hof, hfun, hbase]

/-- Without an argument to select it from, none does. -/
theorem formed_member_nil (hF : F.removeCvref.asMemberPointer = some (C, member))
    (i : Overload) : Overload.formed P F [] i = none := by
  cases i <;> simp [Overload.formed, Ty.isMemberPointer, hF]

/-- On any other callable, the ordinary one does. -/
theorem formed_ordinary (hF : F.removeCvref.asMemberPointer = none) (i : Overload) :
    Overload.formed P F A i = if i = .ordinary then some (.call F A) else none := by
  have hmf : F.removeCvref.isMemberFunctionPointer = false := by
    simp [Ty.isMemberFunctionPointer, hF]
  have hmo : F.removeCvref.isMemberObjectPointer = false := by
    simp [Ty.isMemberObjectPointer, hF]
  have hm : F.removeCvref.isMemberPointer = false := by simp [Ty.isMemberPointer, hF]
  cases i with
  | ordinary => simp [Overload.formed, hm]
  | pmfObject | pmfPointer => cases A <;> simp [Overload.formed, hmf]
  | pmdObject | pmdPointer => rcases A with _ | ⟨O, _ | _⟩ <;> simp [Overload.formed, hmo]

/-- **In every call one overload at most takes part**, and it stands for `overloadExpr`. -/
theorem formed_eq (P : Program) (F : Ty) (A : List Ty) (i : Overload) :
    Overload.formed P F A i = if i = overloadFor P F A then overloadExpr P F A else none := by
  cases hF : F.removeCvref.asMemberPointer with
  | none =>
    have hfor : overloadFor P F A = .ordinary := by simp [overloadFor, hF]
    rw [formed_ordinary hF, hfor, overloadExpr, callExpr_ordinary hF]
  | some cm =>
    obtain ⟨C, member⟩ := cm
    cases A with
    | nil => rw [formed_member_nil hF, overloadExpr, callExpr_member_nil hF, ite_self]
    | cons O rest =>
      have hfor : overloadFor P F (O :: rest) = memberOverload P C member O := by
        simp [overloadFor, hF]
      rw [formed_member hF, hfor, overloadExpr, callExpr_member hF]

/-- Overload resolution finds what takes part, if that is well-formed. -/
theorem invokeImpl_eq (P : Program) (F : Ty) (A : List Ty) : invokeImpl P F A =
    ((overloadExpr P F A).bind fun e =>
      (P.typeOf e).map fun t => ⟨overloadFor P F A, e, t⟩).toList := by
  have hmem : overloadFor P F A ∈ Overload.all := by cases overloadFor P F A <;> decide
  have htakes : ∀ j, (Overload.formed P F A j).isSome → j = overloadFor P F A := by
    intro j hj
    by_contra hne
    rw [formed_eq, if_neg hne] at hj
    exact nomatch hj
  cases he : overloadExpr P F A with
  | none =>
    refine viables_of_not_formed fun j _ => ?_
    rw [formed_eq, he, ite_self]
  | some e =>
    refine viables_of_formed (fun j k hj hk => (htakes j hj).trans (htakes k hk).symm)
      (by decide) hmem ?_
    rw [formed_eq, if_pos rfl, he]

/-! ## 6. Exactly when that is INVOKE -/

theorem selects_of_nil (h : invokeImpl P F A = []) :
    Selects P F A ↔ invokeType P F A = none := by
  constructor
  · intro hS
    by_contra hne
    exact hS.viable_iff.mpr (Option.isSome_iff_ne_none.mpr hne) h
  · intro hnone
    exact ⟨by simp [h, hnone], by simp [h], by simp [h]⟩

/-- A viable overload is the one that takes part, and its expression is well-formed. -/
theorem mem_invokeImpl {v : Viable Overload Expr Ty} (h : v ∈ invokeImpl P F A) :
    v.candidate = overloadFor P F A ∧ P.typeOf v.expr = some v.type := by
  rw [invokeImpl_eq, Option.mem_toList, Option.bind_eq_some_iff] at h
  obtain ⟨e, -, h⟩ := h
  obtain ⟨t, ht, rfl⟩ := Option.map_eq_some_iff.mp h
  exact ⟨rfl, ht⟩

/-- What there is to choose from, if the right overload is selected. -/
theorem Selects.cases (h : Selects P F A) :
    (invokeImpl P F A = [] ∧ invokeType P F A = none) ∨
      ∃ v, invokeImpl P F A = [v] ∧ v.candidate = overloadFor P F A ∧
        invokeExpr P F A = some v.expr ∧ P.typeOf v.expr = some v.type := by
  cases himpl : invokeImpl P F A with
  | nil => exact Or.inl ⟨rfl, (selects_of_nil himpl).mp h⟩
  | cons v vs =>
    have hv : v ∈ invokeImpl P F A := by simp [himpl]
    have hlength := h.at_most_one
    rw [himpl, List.length_cons] at hlength
    obtain rfl : vs = [] := List.eq_nil_of_length_eq_zero (by omega)
    exact Or.inr ⟨v, rfl, (mem_invokeImpl hv).1, h.same v hv, (mem_invokeImpl hv).2⟩

end CleoKernel.Types
