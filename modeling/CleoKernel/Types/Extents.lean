/-
# Array types, taken apart and put together

`rank`, `extent`, `remove_extent`, `remove_all_extents`, `is_bounded_array` and
`is_unbounded_array` each look at an array type with partial specialisations of their own.  They
are one view of it (`ArrayMeaning`): `remove_extent` goes down one dimension, `rank` is how often
that can be done, `extent` reads the bound of the outermost dimension after so many steps, and
`remove_all_extents` is where the steps end.  Qualifiers make no difference on the way and arrive
at the element.

Nothing is lost: from its rank, its extents and what is left without them a type can be put
together again (`rebuildType_eq`), if no bound is zero, which the language forbids.
-/
import CleoKernel.Types.Basic
import Mathlib.Logic.Function.Iterate

namespace CleoKernel.Types

/-! ## 1. The traits -/

namespace NonRef

/-- `rank_v`, on a type that is not a reference. -/
def rank : NonRef → ℕ
  | .unboundedArray e => e.rank + 1
  | .array _ e => e.rank + 1
  | _ => 0

/-- `extent_v<T, N>`, on a type that is not a reference. -/
def extent : NonRef → ℕ → ℕ
  | .unboundedArray _, 0 => 0
  | .unboundedArray e, n + 1 => e.extent n
  | .array i _, 0 => i
  | .array _ e, n + 1 => e.extent n
  | _, _ => 0

/-- `remove_all_extents_t`, on a type that is not a reference. -/
def removeAllExtents : NonRef → NonRef
  | .unboundedArray e => e.removeAllExtents
  | .array _ e => e.removeAllExtents
  | o => o

end NonRef

namespace Ty

/-- `rank_v`. -/
def rank : Ty → ℕ
  | .plain o => o.rank
  | _ => 0

/-- `extent_v<T, N>`. -/
def extent : Ty → ℕ → ℕ
  | .plain o => o.extent
  | _ => fun _ => 0

/-- `remove_all_extents_t`. -/
def removeAllExtents : Ty → Ty
  | .plain o => .plain o.removeAllExtents
  | t => t

/-- `is_bounded_array_v`. -/
def isBoundedArray : Ty → Bool
  | .plain (.array _ _) => true
  | _ => false

/-- `is_unbounded_array_v`. -/
def isUnboundedArray : Ty → Bool
  | .plain (.unboundedArray _) => true
  | _ => false

end Ty

/-! ## 2. One view -/

/-- How the traits of array types go together. -/
structure ArrayMeaning (t : Ty) : Prop where
  /-- `rank` counts the dimensions. -/
  dimensions : ∀ n, (Ty.removeExtent^[n] t).isArray = true ↔ n < t.rank
  /-- `remove_all_extents` goes down all of them, and so ends at no array. -/
  element : t.removeAllExtents = Ty.removeExtent^[t.rank] t
  /-- `extent` reads the bound of one dimension. -/
  extent : ∀ n, t.extent n = (Ty.removeExtent^[n] t).extent 0
  /-- There is a bound only where `is_bounded_array` says so. -/
  bound : ∀ n, (Ty.removeExtent^[n] t).isBoundedArray = false → t.extent n = 0
  kinds : t.isArray = (t.isBoundedArray ^^ t.isUnboundedArray)
  /-- Qualifiers go through to the element. -/
  qualified : ∀ c, (t.addCv c).rank = t.rank ∧ (t.addCv c).extent = t.extent ∧
    (t.addCv c).removeAllExtents = t.removeAllExtents.addCv c

variable {t u : Ty} {o : NonRef}

/-- A type that is no array stays as it is. -/
theorem arrayMeaning_of_not_isArray (h : t.isArray = false) (hremove : t.removeExtent = t)
    (hrank : t.rank = 0) (hextent : ∀ n, t.extent n = 0) (helement : t.removeAllExtents = t)
    (hkinds : t.isArray = (t.isBoundedArray ^^ t.isUnboundedArray))
    (hqualified : ∀ c, (t.addCv c).rank = t.rank ∧ (t.addCv c).extent = t.extent ∧
      (t.addCv c).removeAllExtents = t.removeAllExtents.addCv c) : ArrayMeaning t where
  dimensions n := by rw [Function.iterate_fixed hremove, h, hrank]; simp
  element := by rw [hrank, helement]; rfl
  extent n := by rw [hextent, Function.iterate_fixed hremove, hextent]
  bound n _ := hextent n
  kinds := hkinds
  qualified := hqualified

/-- An array of `u` has one dimension more than `u`. -/
theorem arrayMeaning_of_removeExtent (hu : ArrayMeaning u) (harray : t.isArray = true)
    (hremove : t.removeExtent = u) (hrank : t.rank = u.rank + 1)
    (hextent : ∀ n, t.extent (n + 1) = u.extent n)
    (helement : t.removeAllExtents = u.removeAllExtents)
    (hbound : t.isBoundedArray = false → t.extent 0 = 0)
    (hkinds : t.isArray = (t.isBoundedArray ^^ t.isUnboundedArray))
    (hqualified : ∀ c, (t.addCv c).rank = t.rank ∧ (t.addCv c).extent = t.extent ∧
      (t.addCv c).removeAllExtents = t.removeAllExtents.addCv c) : ArrayMeaning t where
  dimensions n := by
    cases n with
    | zero => simp [harray, hrank]
    | succ n => rw [Function.iterate_succ_apply, hremove, hu.dimensions, hrank]; omega
  element := by rw [helement, hu.element, hrank, Function.iterate_succ_apply, hremove]
  extent n := by
    cases n with
    | zero => rfl
    | succ n => rw [Function.iterate_succ_apply, hremove, hextent, hu.extent]
  bound n h := by
    cases n with
    | zero => exact hbound h
    | succ n =>
      rw [Function.iterate_succ_apply, hremove] at h
      rw [hextent, hu.bound n h]
  kinds := hkinds
  qualified := hqualified

/-- **The traits of array types are one view**, by induction on the dimensions. -/
theorem arrayMeaning_plain : ∀ o : NonRef, ArrayMeaning (.plain o)
  | .array i e => by
    have he := arrayMeaning_plain e
    refine arrayMeaning_of_removeExtent he rfl rfl rfl (fun _ => rfl) rfl (fun h => nomatch h) rfl
      fun c => ?_
    obtain ⟨hrank, hextent, helement⟩ := he.qualified c
    refine ⟨congrArg (· + 1) hrank, funext fun n => ?_, helement⟩
    cases n with
    | zero => rfl
    | succ n => exact congrFun hextent n
  | .unboundedArray e => by
    have he := arrayMeaning_plain e
    refine arrayMeaning_of_removeExtent he rfl rfl rfl (fun _ => rfl) rfl (fun _ => rfl) rfl
      fun c => ?_
    obtain ⟨hrank, hextent, helement⟩ := he.qualified c
    refine ⟨congrArg (· + 1) hrank, funext fun n => ?_, helement⟩
    cases n with
    | zero => rfl
    | succ n => exact congrFun hextent n
  | .void _ | .nullptr _ | .arithmetic _ _ | .enum _ _ | .record _ _ | .pointer _ _
  | .memberPointer _ _ _ | .function _ _ _ =>
    arrayMeaning_of_not_isArray rfl rfl rfl (fun _ => rfl) rfl rfl fun _ => ⟨rfl, rfl, rfl⟩

theorem arrayMeaning (t : Ty) : ArrayMeaning t := by
  cases t with
  | plain o => exact arrayMeaning_plain o
  | lref o | rref o =>
    exact arrayMeaning_of_not_isArray rfl rfl rfl (fun _ => rfl) rfl rfl fun _ => ⟨rfl, rfl, rfl⟩

/-! ## 3. Putting a type together -/

/-- No dimension has the bound zero. -/
def NonRef.PositiveBounds : NonRef → Prop
  | .unboundedArray e => e.PositiveBounds
  | .array n e => n ≠ 0 ∧ e.PositiveBounds
  | _ => True

/-- The same of a type.  A reference has no dimensions. -/
def Ty.PositiveBounds : Ty → Prop
  | .plain o => o.PositiveBounds
  | _ => True

/-- The array type with this rank, these extents and this element.  An extent of zero stands for
an unknown bound. -/
def rebuild : ℕ → (ℕ → ℕ) → NonRef → NonRef
  | 0, _, o => o
  | rank + 1, extent, o =>
    if extent 0 = 0 then .unboundedArray (rebuild rank (fun n => extent (n + 1)) o)
    else .array (extent 0) (rebuild rank (fun n => extent (n + 1)) o)

/-- The same of any element.  A reference is never one. -/
def rebuildType (rank : ℕ) (extent : ℕ → ℕ) : Ty → Ty
  | .plain o => .plain (rebuild rank extent o)
  | t => t

/-- The three traits together lose nothing. -/
theorem rebuild_eq : ∀ {o : NonRef}, o.PositiveBounds →
    rebuild o.rank o.extent o.removeAllExtents = o
  | .array i e, h => by
    have he : rebuild e.rank e.extent e.removeAllExtents = e := rebuild_eq h.2
    have hbound : (NonRef.array i e).extent 0 ≠ 0 := h.1
    exact (if_neg hbound).trans (congrArg (NonRef.array i) he)
  | .unboundedArray e, h => by
    have he : rebuild e.rank e.extent e.removeAllExtents = e := rebuild_eq h
    have hbound : (NonRef.unboundedArray e).extent 0 = 0 := rfl
    exact (if_pos hbound).trans (congrArg NonRef.unboundedArray he)
  | .void _, _ | .nullptr _, _ | .arithmetic _ _, _ | .enum _ _, _ | .record _ _, _
  | .pointer _ _, _ | .memberPointer _ _ _, _ | .function _ _ _, _ => rfl

/-- **Nor do they on any type.** -/
theorem rebuildType_eq (h : t.PositiveBounds) :
    rebuildType t.rank t.extent t.removeAllExtents = t := by
  cases t with
  | plain o => exact congrArg Ty.plain (rebuild_eq h)
  | lref o | rref o => rfl

/-- **Array types**, as one statement: how the traits go together on every type, and that a type is
known when its rank, its extents and its element are. -/
theorem array_traits : (∀ t, ArrayMeaning t) ∧ ∀ t u : Ty, t.PositiveBounds →
    u.PositiveBounds → (t = u ↔ t.rank = u.rank ∧ t.extent = u.extent ∧
      t.removeAllExtents = u.removeAllExtents) := by
  refine ⟨arrayMeaning, fun t u ht hu => ⟨?_, ?_⟩⟩
  · rintro rfl
    exact ⟨rfl, rfl, rfl⟩
  · rintro ⟨hrank, hextent, helement⟩
    rw [← rebuildType_eq ht, ← rebuildType_eq hu, hrank, hextent, helement]

end CleoKernel.Types
