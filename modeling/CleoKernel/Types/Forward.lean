/-
# Forwarding

Function templates of the library take their arguments as `T&& t` and hand them on with
`forward<T>(t)`.  A named parameter is always an lvalue; what the argument was is remembered in
`T` alone, which is a reference exactly if the argument was an lvalue.  `forward` reads it off
again by collapsing references, with one overload for lvalues and one for rvalues, and the second
refuses to make an lvalue of an rvalue.

`forward_perfect` says what this comes to: `forward<T>(t)` is the expression `declval<T>()`, from
which return types and exception specifications are computed; in a chain of templates of any
length the argument arrives as it was, unless one of them names or moves it, and then as the last
of these left it (`hands_eq`); and whatever `T` is, a call that compiles is `declval<T>()`, which no
rvalue of the same type turns into an lvalue (`forward_ok`, `forward_xvalue`).

Where `T` is not deduced from the argument, this may be of another type and be converted first.
Which conversions there are depends on the program, and is a parameter (`Conversions`).  The call
can also fail to compile; `unexpected_constructors` is about such a place.
-/
import CleoKernel.Types.Categories
import CleoKernel.Types.Swap

namespace CleoKernel.Types

open Ty

/-! ## 1. Arguments and parameters

An argument is an expression that refers to something.  One without a name (a prvalue) is given
a temporary object when the parameter is bound, and is an xvalue here. -/

/-- An expression that refers to something: its type and its value category. -/
inductive Glvalue
  | lvalue (o : NonRef)
  | xvalue (o : NonRef)
  deriving DecidableEq

namespace Glvalue

/-- Its type. -/
def type : Glvalue → NonRef
  | .lvalue o | .xvalue o => o

/-- There is such an expression.  A function is never an xvalue. -/
def Expressible : Glvalue → Prop
  | .lvalue o => o.isReferenceable = true
  | .xvalue o => o.isReferenceable = true ∧ o.isFunction = false

/-- What a parameter `T&& t` makes `T` of an argument. -/
def deduce : Glvalue → Ty
  | .lvalue o => .lref o
  | .xvalue o => .plain o

end Glvalue

/-- An expression of a reference type, such as a call or a cast. -/
def ofReference : Ty → Option Glvalue
  | .lref o => some (.lvalue o)
  | .rref o => some (if o.isFunction then .lvalue o else .xvalue o)
  | .plain _ => none

/-- `declval<T>()`. -/
def declvalExpr (T : Ty) : Option Glvalue := (declval T).bind ofReference

/-! ## 2. `forward` and `move` -/

/-- The two overloads of `forward`. -/
inductive ForwardOverload
  /-- `forward(remove_reference_t<T>& t)` -/
  | lvalue
  /-- `forward(remove_reference_t<T>&& t)` -/
  | rvalue
  deriving DecidableEq, Repr

/-- The overload of `forward<T>` that is chosen for an argument of another type than `T`'s, if one
is: the argument is converted to that type, or is of a class derived from it. -/
abbrev Conversions := Ty → Glvalue → Option ForwardOverload

/-- Why a call of `forward` is ill-formed. -/
inductive ForwardError
  | noOverload
  /-- "cleo::forward must not be used to convert an rvalue to an lvalue" -/
  | rvalueToLvalue
  deriving DecidableEq, Repr

/-- Is the argument of the type itself, qualifiers aside?  Then nothing is converted. -/
def sameType (o : NonRef) (e : Glvalue) : Bool := e.type.removeCv = o.removeCv

/-- Can a reference to `o` be bound to an expression of the same type?  It may add qualifiers. -/
def binds (o : NonRef) (e : Glvalue) : Bool :=
  o.isReferenceable && sameType o e && e.type.cv.join o.cv = o.cv

/-- The overload that takes an lvalue, or an rvalue.  A constant rvalue fits both, and the second
better. -/
def overloadOf : Glvalue → ForwardOverload
  | .lvalue _ => .lvalue
  | .xvalue _ => .rvalue

/-- The overload a call `forward<T>(e)` chooses. -/
def forwardOverload (conv : Conversions) (T : Ty) (e : Glvalue) : Option ForwardOverload :=
  if sameType T.referent e then (if binds T.referent e then some (overloadOf e) else none)
  else if T.referent.isReferenceable then conv T e
  else none

/-- `static_cast<T&&>(t)`. -/
def castForward (T : Ty) : Except ForwardError Glvalue :=
  match ofReference T.addRvalueReference with
  | some g => .ok g
  | none => .error .noOverload

/-- `forward<T>(e)`. -/
def forward (conv : Conversions) (T : Ty) (e : Glvalue) : Except ForwardError Glvalue :=
  match forwardOverload conv T e with
  | some .lvalue => castForward T
  | some .rvalue => if T.isLvalueReference then .error .rvalueToLvalue else castForward T
  | none => .error .noOverload

/-- `move(e)`: `static_cast<remove_reference_t<T>&&>(t)`. -/
def move (e : Glvalue) : Except ForwardError Glvalue :=
  castForward e.deduce.removeReference

/-! ## 3. Chains of templates -/

/-- How a template hands its parameter on. -/
inductive Handing
  /-- `forward<T>(t)` -/
  | forward
  /-- `t` -/
  | name
  /-- `move(t)` -/
  | move
  deriving DecidableEq, Repr

/-- What a template that is called with `e` hands on. -/
def Handing.hand (conv : Conversions) (h : Handing) (e : Glvalue) :
    Except ForwardError Glvalue :=
  let T := e.deduce
  let t := Glvalue.lvalue T.referent
  match h with
  | .forward => Types.forward conv T t
  | .name => .ok t
  | .move => Types.move t

/-- A chain of templates, each of which calls the next. -/
def hands (conv : Conversions) : List Handing → Glvalue → Except ForwardError Glvalue
  | [], e => .ok e
  | h :: hs, e => (h.hand conv e).bind (hands conv hs)

/-- What becomes of an argument, in the words of the value categories. -/
def Handing.leaves : Handing → Glvalue → Glvalue
  | .forward, e => e
  | .name, e => .lvalue e.type
  | .move, e => if e.type.isFunction then .lvalue e.type else .xvalue e.type

/-! ## 4. What arrives -/

variable {conv : Conversions} {T : Ty} {o : NonRef} {e g : Glvalue} {h : Handing}

theorem Glvalue.Expressible.isReferenceable (h : e.Expressible) :
    e.type.isReferenceable = true := by
  cases e with
  | lvalue o => exact h
  | xvalue o => exact h.1

theorem binds_iff : binds o e = true ↔ o.isReferenceable = true ∧ e.type.removeCv = o.removeCv ∧
    e.type.cv.join o.cv = o.cv := by
  simp [binds, sameType, and_assoc]

theorem join_self (c : CV) : c.join c = c := by
  rcases c with ⟨_ | _, _ | _⟩ <;> rfl

/-- A reference to a type is bound to an lvalue of it. -/
theorem binds_self (h : o.isReferenceable = true) : binds o (.lvalue o) = true :=
  binds_iff.mpr ⟨h, rfl, join_self o.cv⟩

/-- `static_cast<T&&>(t)`, where `T` is not a reference. -/
theorem castForward_plain (h : o.isReferenceable = true) :
    castForward (plain o) = .ok (if o.isFunction then .lvalue o else .xvalue o) := by
  have hadd : (plain o).addRvalueReference = .rref o := if_pos h
  rw [castForward, hadd]
  rfl

/-- For an argument of the same type conversions play no part. -/
theorem forwardOverload_of_sameType (h : e.type.removeCv = T.referent.removeCv) :
    forwardOverload conv T e = if binds T.referent e then some (overloadOf e) else none :=
  if_pos (decide_eq_true h)

/-- The first overload takes the lvalue a parameter `T&& t` is. -/
theorem forward_lvalue (h : T.referent.isReferenceable = true) :
    forward conv T (.lvalue T.referent) = castForward T := by
  have hchosen : forwardOverload conv T (.lvalue T.referent) = some .lvalue :=
    (forwardOverload_of_sameType rfl).trans (if_pos (binds_self h))
  rw [forward, hchosen]

/-- The cast makes the expression `declval<T>()`. -/
theorem castForward_eq_ok : castForward T = .ok g ↔ declvalExpr T = some g := by
  have hdeclval : declvalExpr T = ofReference T.addRvalueReference := by
    cases T with
    | plain o =>
      rw [declvalExpr, declval, addRvalueReference]
      cases href : o.isReferenceable with
      | true => rfl
      | false => cases o <;> rfl
    | lref o | rref o => rfl
  rw [hdeclval, castForward]
  cases ofReference T.addRvalueReference <;> simp

/-- **`forward<T>(t)` is `declval<T>()`**, for a parameter declared `T&& t`. -/
theorem forward_eq_declval (conv : Conversions) (h : T.referent.isReferenceable = true) :
    ∃ g, declvalExpr T = some g ∧ forward conv T (.lvalue T.referent) = .ok g := by
  have hexists : ∃ g, castForward T = .ok g := by
    cases T with
    | plain o => exact ⟨_, castForward_plain h⟩
    | lref o | rref o => exact ⟨_, rfl⟩
  obtain ⟨g, hg⟩ := hexists
  exact ⟨g, castForward_eq_ok.mp hg, (forward_lvalue h).trans hg⟩

/-- Forwarding what a template was called with. -/
theorem hand_forward (conv : Conversions) (h : e.Expressible) :
    Handing.forward.hand conv e = .ok e := by
  cases e with
  | lvalue o => exact forward_lvalue (T := .lref o) h
  | xvalue o =>
    refine (forward_lvalue (T := .plain o) h.1).trans ((castForward_plain h.1).trans ?_)
    exact congrArg Except.ok (if_neg (by rw [h.2]; exact Bool.false_ne_true))

/-- **One template.** -/
theorem hand_eq (conv : Conversions) (h : Handing) (he : e.Expressible) :
    h.hand conv e = .ok (h.leaves e) := by
  have htype : e.deduce.referent = e.type := by cases e <;> rfl
  cases h with
  | forward => exact hand_forward conv he
  | name => exact congrArg (fun o => Except.ok (Glvalue.lvalue o)) htype
  | move =>
    change move (.lvalue e.deduce.referent) = _
    rw [htype]
    exact castForward_plain he.isReferenceable

/-- No template changes the type of what it hands on. -/
theorem leaves_type (h : Handing) (e : Glvalue) : (h.leaves e).type = e.type := by
  cases h with
  | forward | name => rfl
  | move =>
    rw [Handing.leaves]
    split <;> rfl

theorem leaves_expressible (h : Handing) (he : e.Expressible) : (h.leaves e).Expressible := by
  have href := he.isReferenceable
  cases h with
  | forward => exact he
  | name => exact href
  | move =>
    rw [Handing.leaves]
    split
    · exact href
    · rename_i hfunction
      exact ⟨href, Bool.eq_false_iff.mpr hfunction⟩

/-! ## 5. What an rvalue becomes -/

theorem isFunction_removeCv (o : NonRef) : o.removeCv.isFunction = o.isFunction := by
  cases o <;> rfl

/-- Types that differ in qualifiers only are both functions or neither. -/
theorem binds_isFunction (h : binds o e = true) : o.isFunction = e.type.isFunction := by
  obtain ⟨-, htype, -⟩ := binds_iff.mp h
  rw [← isFunction_removeCv o, ← htype, isFunction_removeCv]

/-- **A call that compiles is `declval<T>()`**, converted or not. -/
theorem forward_ok (h : forward conv T e = .ok g) : declvalExpr T = some g := by
  rw [forward] at h
  split at h
  · exact castForward_eq_ok.mp h
  · split at h
    · exact nomatch h
    · exact castForward_eq_ok.mp h
  · exact nomatch h

/-- **An rvalue is forwarded as an rvalue**, whatever the template argument, if this is of its
type; the assertion in the second overload is what keeps `T&` out. -/
theorem forward_xvalue (ho : o.isFunction = false) (hT : o.removeCv = T.referent.removeCv)
    (h : forward conv T (.xvalue o) = .ok g) : ∃ p, g = .xvalue p ∧ p.removeCv = o.removeCv := by
  have hchosen : forwardOverload conv T (.xvalue o) =
      if binds T.referent (.xvalue o) then some .rvalue else none :=
    forwardOverload_of_sameType hT
  rw [forward, hchosen] at h
  cases hbinds : binds T.referent (.xvalue o) with
  | false =>
    rw [hbinds] at h
    exact nomatch h
  | true =>
    have hfunction : T.referent.isFunction = false := (binds_isFunction hbinds).trans ho
    refine ⟨T.referent, ?_, hT.symm⟩
    rw [hbinds] at h
    cases T with
    | plain p =>
      have hcast := castForward_plain (binds_iff.mp hbinds).1
      rw [if_neg (Bool.eq_false_iff.mp hfunction)] at hcast
      exact (Except.ok.inj (hcast.symm.trans h)).symm
    | lref p => exact nomatch h
    | rref p =>
      have hcast : castForward (.rref p) = .ok (.xvalue p) :=
        congrArg Except.ok (if_neg (Bool.eq_false_iff.mp hfunction))
      exact (Except.ok.inj (hcast.symm.trans h)).symm

/-! ## 6. Along a chain -/

/-- The last template of a chain that does not forward, if there is one. -/
def lastHanding (hs : List Handing) : Option Handing := (hs.filter (· ≠ .forward)).getLast?

/-- A template that names or moves its parameter does not see how it came. -/
theorem leaves_leaves {k : Handing} (hk : k ≠ .forward) (h : Handing) (e : Glvalue) :
    k.leaves (h.leaves e) = k.leaves e := by
  cases k with
  | forward => exact absurd rfl hk
  | name => exact congrArg Glvalue.lvalue (leaves_type h e)
  | move =>
    change (if (h.leaves e).type.isFunction then Glvalue.lvalue (h.leaves e).type else _) = _
    rw [leaves_type h e]
    rfl

theorem lastHanding_ne {hs : List Handing} {k : Handing} (h : lastHanding hs = some k) :
    k ≠ .forward := by
  have hmem := List.mem_of_getLast? h
  exact of_decide_eq_true (List.mem_filter.mp hmem).2

theorem lastHanding_cons (h : Handing) (hs : List Handing) :
    lastHanding (h :: hs) = (lastHanding hs).or (if h = .forward then none else some h) := by
  by_cases hf : h = .forward
  · simp [lastHanding, hf]
  · simp [lastHanding, hf, List.getLast?_cons]

/-- **A chain leaves the argument as the last template that does not forward it.** -/
theorem hands_eq (conv : Conversions) (hs : List Handing) (he : e.Expressible) :
    hands conv hs e = .ok ((lastHanding hs).elim e (·.leaves e)) := by
  induction hs generalizing e with
  | nil => rfl
  | cons h hs ih =>
    rw [hands, hand_eq conv h he]
    refine (ih (leaves_expressible h he)).trans ?_
    rw [lastHanding_cons]
    cases hlast : lastHanding hs with
    | none => cases h <;> rfl
    | some k => exact congrArg Except.ok (leaves_leaves (lastHanding_ne hlast) h e)

/-- **Perfect forwarding.**  `forward<T>(t)` is `declval<T>()` for every `T`; what a template is
called with arrives at the end of every chain as the last template left it that does not forward
it; and whatever `T` is given, a call that compiles is `declval<T>()` again, and no rvalue of the
same type comes out as an lvalue. -/
theorem forward_perfect (conv : Conversions) (he : e.Expressible) :
    (∀ T : Ty, T.referent = e.type →
      ∃ g, declvalExpr T = some g ∧ forward conv T (.lvalue e.type) = .ok g) ∧
    (∀ hs, hands conv hs e = .ok ((lastHanding hs).elim e (·.leaves e))) ∧
    ∀ T g, forward conv T e = .ok g → declvalExpr T = some g ∧
      (e = .xvalue e.type → e.type.removeCv = T.referent.removeCv →
        ∃ p, g = .xvalue p ∧ p.removeCv = e.type.removeCv) := by
  refine ⟨fun T hT => ?_, fun hs => hands_eq conv hs he, fun T g h => ⟨forward_ok h, ?_⟩⟩
  · rw [← hT]
    exact forward_eq_declval conv (hT.symm ▸ he.isReferenceable)
  · intro hx hT
    rw [hx] at he h
    exact forward_xvalue he.2 hT h

/-- An rvalue of a class is forwarded, named, and moved again. -/
theorem forward_perfect_record :
    let e := Glvalue.xvalue (.record .const (.class_ 0))
    let conv : Conversions := fun _ _ => none
    hands conv [.forward, .name, .forward, .move, .forward] e = .ok e ∧
      (∃ g, declvalExpr (.rref e.type) = some g ∧
        forward conv (.rref e.type) (.lvalue e.type) = .ok g) ∧
      declvalExpr (.plain e.type) = some e ∧ ∃ p, e = .xvalue p ∧ p.removeCv = e.type.removeCv := by
  have h := forward_perfect (fun _ _ => none) (e := .xvalue (.record .const (.class_ 0))) ⟨rfl, rfl⟩
  obtain ⟨hdeclval, hxvalue⟩ := h.2.2 (.plain (.record .const (.class_ 0))) _ rfl
  exact ⟨h.2.1 _, h.1 _ rfl, hdeclval, hxvalue rfl rfl⟩

/-! ## 7. `forward` without a deduced argument

`unexpected<E>` has one constructor from `const E&` and one from `E&&`, and both initialise the
member with `forward<E>(err)`.  Here `E` is not deduced from the argument. -/

/-- What `unexpected(const E& err)` initialises its member with. -/
def unexpectedCopy (conv : Conversions) (E : NonRef) : Except ForwardError Glvalue :=
  forward conv (.plain E) (.lvalue (E.addCv .const))

/-- What `unexpected(E&& err)` initialises its member with. -/
def unexpectedMove (conv : Conversions) (E : NonRef) : Except ForwardError Glvalue :=
  forward conv (.plain E) (.lvalue E)

/-- Qualifiers are added to the ones that are there, or, to a function, not at all. -/
theorem cv_addCv (c : CV) : ∀ o : NonRef, (o.addCv c).cv = c.join o.cv ∨ (o.addCv c).cv = o.cv
  | .void _ | .nullptr _ | .arithmetic _ _ | .enum _ _ | .record _ _ | .pointer _ _
  | .memberPointer _ _ _ => Or.inl rfl
  | .function _ _ _ => Or.inr rfl
  | .array _ e | .unboundedArray e => cv_addCv c e

/-- Qualifiers that are added come off again. -/
theorem removeCv_addCv (c : CV) : ∀ o : NonRef, (o.addCv c).removeCv = o.removeCv
  | .void _ | .nullptr _ | .arithmetic _ _ | .enum _ _ | .record _ _ | .pointer _ _
  | .memberPointer _ _ _ | .function _ _ _ => rfl
  | .array n e => congrArg (NonRef.array n) (removeCv_addCv c e)
  | .unboundedArray e => congrArg NonRef.unboundedArray (removeCv_addCv c e)

/-- A type that differs from another in qualifiers only, and has its qualifiers, is the same. -/
theorem eq_of_removeCv_of_cv {o p : NonRef} (h : o.removeCv = p.removeCv) (hcv : o.cv = p.cv) :
    o = p := by
  rw [← o.addCv_cv_removeCv, h, hcv, p.addCv_cv_removeCv]

/-- A reference to `E` is bound to a `const E` exactly if the two are one type. -/
theorem binds_const (h : o.isReferenceable = true) :
    binds o (.lvalue (o.addCv .const)) = decide (o.addCv .const = o) := by
  rw [Bool.eq_iff_iff, binds_iff, decide_eq_true_iff]
  constructor
  · rintro ⟨-, htype, hjoin⟩
    refine eq_of_removeCv_of_cv htype ?_
    change (o.addCv .const).cv.join o.cv = o.cv at hjoin
    rcases cv_addCv .const o with hadd | hadd
    · rw [hadd] at hjoin ⊢
      rw [← hjoin]
      rcases o.cv with ⟨_ | _, _ | _⟩ <;> rfl
    · exact hadd
  · intro heq
    rw [heq]
    exact ⟨h, rfl, join_self o.cv⟩

/-- **`unexpected(const E&)` is ill-formed unless `E` is constant itself**, while `unexpected(E&&)`
moves, for every type `E` of objects. -/
theorem unexpected_constructors (conv : Conversions) {E : NonRef}
    (hE : (Ty.plain E).isObject = true) :
    unexpectedMove conv E = .ok (.xvalue E) ∧
      unexpectedCopy conv E =
        if E.addCv .const = E then .ok (.xvalue E) else .error .noOverload := by
  have href : E.isReferenceable = true := isReferenceable_of_isObject hE
  have hfunction : E.isFunction = false := by
    cases E with
    | function _ _ _ => exact nomatch hE
    | _ => rfl
  have hcast : castForward (.plain E) = .ok (.xvalue E) := by
    rw [castForward_plain href, hfunction]
    rfl
  have hchosen : forwardOverload conv (.plain E) (.lvalue (E.addCv .const)) =
      if binds E (.lvalue (E.addCv .const)) then some .lvalue else none :=
    forwardOverload_of_sameType (removeCv_addCv .const E)
  refine ⟨(forward_lvalue (T := .plain E) href).trans hcast, ?_⟩
  rw [unexpectedCopy, forward, hchosen, binds_const href]
  by_cases hconst : E.addCv .const = E
  · rw [if_pos (decide_eq_true hconst), if_pos hconst]
    exact hcast
  · rw [if_neg (by rwa [decide_eq_true_eq]), if_neg hconst]

/-- `unexpected<error>` takes its error from an rvalue only. -/
theorem unexpected_constructors_error :
    let error : NonRef := .enum .none 0
    let conv : Conversions := fun _ _ => none
    unexpectedMove conv error = .ok (.xvalue error) ∧
      unexpectedCopy conv error = .error .noOverload := by
  have h := unexpected_constructors (fun _ _ => none) (E := .enum .none 0) (by decide)
  exact ⟨h.1, h.2.trans (if_neg (by decide))⟩

end CleoKernel.Types
