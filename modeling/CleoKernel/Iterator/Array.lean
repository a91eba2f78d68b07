/-
# `cleo::array`, read backwards

The iterators of `cleo::array<T, N>` are pointers into its buffer, and its reverse iterators the
adaptor of `Reverse.lean` on them.  Pointers into a buffer of `N` elements obey the laws of
random access (`Pointer.laws`), so the reverse iterators do too, and the loop from `rbegin()` to
`rend()` reads the buffer from its end to its beginning (`reads_backwards`).
-/
import CleoKernel.Iterator.Reverse
import Mathlib.Data.List.FinRange

namespace CleoKernel.Iterator

open CleoKernel.RandomAccess CleoKernel.Transition

/-! ## 1. Pointers into a buffer -/

/-- A pointer into a buffer of `N` elements, or past its last one. -/
abbrev Pointer (N : ℕ) := Fin (N + 1)

variable {N : ℕ} {p q : Pointer N} {n : ℤ}

namespace Pointer

/-- `p + n`, which is undefined outside the buffer. -/
def offset (p : Pointer N) (n : ℤ) : Option (Pointer N) :=
  if h : 0 ≤ (p : ℤ) + n ∧ (p : ℤ) + n ≤ N then some ⟨((p : ℤ) + n).toNat, by omega⟩ else none

/-- `*p`: which element it refers to.  There is none past the last one. -/
def deref (p : Pointer N) : Option (Fin N) :=
  if h : p.val < N then some ⟨p, h⟩ else none

/-- The built-in operations.  A reference is given by the element it refers to. -/
def ops (N : ℕ) : Ops (Pointer N) (Fin N) (Pointer N) (Fin N) where
  preIncr p := offset p 1
  preDecr p := offset p (-1)
  postIncr p := (offset p 1).map fun q => (p, q)
  postDecr p := (offset p (-1)).map fun q => (p, q)
  addAssign p n := offset p n
  subAssign p n := offset p (-n)
  add p n := offset p n
  addLeft n p := offset p n
  sub p n := offset p (-n)
  diff p q := some (p - q)
  eq p q := some (decide (p.val = q.val))
  ne p q := some (decide (p.val ≠ q.val))
  lt p q := some (decide (p.val < q.val))
  le p q := some (decide (p.val ≤ q.val))
  gt p q := some (decide (q.val < p.val))
  ge p q := some (decide (q.val ≤ p.val))
  deref := deref
  index p n := (offset p n).bind deref
  arrow := some fun p => some p
  customIterMove := none
  addressOf i := i.castSucc
  moved i := i

theorem offset_eq_some : offset p n = some q ↔ (q : ℤ) = p + n := by
  have hq := q.isLt
  rw [offset]
  split
  · rw [Option.some.injEq, Fin.ext_iff]
    constructor <;> intro h <;> simp only at h ⊢ <;> omega
  · constructor
    · exact fun h => nomatch h
    · intro h
      omega

theorem deref_eq_some {i : Fin N} : deref p = some i ↔ p.val = i := by
  have hi := i.isLt
  rw [deref]
  split
  · rw [Option.some.injEq, Fin.ext_iff]
  · constructor
    · exact fun h => nomatch h
    · intro h
      omega

theorem diff_eq_some : (ops N).diff q p = some n ↔ (q : ℤ) = p + n := by
  change some ((q : ℤ) - p) = some n ↔ (q : ℤ) = p + n
  rw [Option.some.injEq]
  omega

/-- A comparison of two pointers asks for the sign of their difference. -/
theorem compare_diff {c : Prop} {d : ℤ → Prop} [Decidable c] [DecidablePred d]
    (hn : (ops N).diff q p = some n) (hc : c ↔ d (q - p)) :
    some (decide c) = some (decide (d n)) := by
  have hsub : (q : ℤ) - p = n := Option.some.inj hn
  rw [hsub] at hc
  exact congrArg some (decide_eq_decide.mpr hc)

theorem same_iff : (ops N).Same p q ↔ p = q := by
  change some (decide (p.val = q.val)) = some true ↔ p = q
  rw [Option.some.injEq, decide_eq_true_eq, Fin.ext_iff]

theorem sameOpt_of_eq {x y : Option (Pointer N)} (h : x = y) : (ops N).SameOpt x y := by
  rw [h]
  cases y with
  | none => exact .none
  | some p => exact .some (same_iff.mpr rfl)

/-- `n` steps of one element each. -/
theorem steps_offset {f : Pointer N → Option (Pointer N)} {d : ℤ} (hd : d = 1 ∨ d = -1)
    (hf : ∀ p, f p = offset p d) (n : ℕ) (p : Pointer N) : steps f n p = offset p (n * d) := by
  induction n generalizing p with
  | zero =>
    refine (offset_eq_some.mpr ?_).symm
    omega
  | succ n ih =>
    have hp := p.isLt
    apply Option.ext
    intro q
    have hq := q.isLt
    rw [steps_succ, Option.bind_eq_some_iff, offset_eq_some]
    simp only [hf, ih, offset_eq_some]
    constructor
    · rintro ⟨r, hr, hq⟩
      rw [hq, hr, Int.natCast_succ, Int.add_mul]
      omega
    · intro hq
      rw [Int.natCast_succ, Int.add_mul] at hq
      -- the first step stays inside, because the last one does
      have hr : 0 ≤ (p : ℤ) + d ∧ (p : ℤ) + d ≤ N := by
        rcases hd with rfl | rfl <;> omega
      refine ⟨⟨((p : ℤ) + d).toNat, by omega⟩, ?_, ?_⟩ <;> simp only <;> omega

theorem steps_preIncr (n : ℕ) (p : Pointer N) : steps (ops N).preIncr n p = offset p n := by
  rw [steps_offset (f := (ops N).preIncr) (Or.inl rfl) fun _ => rfl, Int.mul_one]

theorem steps_preDecr (n : ℕ) (p : Pointer N) : steps (ops N).preDecr n p = offset p (-n) := by
  rw [steps_offset (f := (ops N).preDecr) (Or.inr rfl) fun _ => rfl, Int.mul_neg, Int.mul_one]

/-- There is a next pointer exactly from where there is an element. -/
theorem offset_one_isSome (p : Pointer N) : (offset p 1).isSome = (deref p).isSome := by
  rw [Bool.eq_iff_iff, Option.isSome_iff_exists, Option.isSome_iff_exists]
  constructor
  · rintro ⟨q, hq⟩
    have h := offset_eq_some.mp hq
    exact ⟨⟨p, by omega⟩, deref_eq_some.mpr rfl⟩
  · rintro ⟨i, hi⟩
    have h := deref_eq_some.mp hi
    exact ⟨i.succ, offset_eq_some.mpr (by rw [h, Fin.val_succ]; omega)⟩

/-- **Pointers obey the laws of random access.** -/
theorem laws (N : ℕ) : (ops N).Laws where
  refl a := same_iff.mpr rfl
  symm hab := same_iff.mpr (same_iff.mp hab).symm
  trans hab hbc := same_iff.mpr ((same_iff.mp hab).trans (same_iff.mp hbc))
  preIncr_congr hab := sameOpt_of_eq (congrArg _ (same_iff.mp hab))
  preDecr_congr hab := sameOpt_of_eq (congrArg _ (same_iff.mp hab))
  diff_congr hab hcd := by rw [same_iff.mp hab, same_iff.mp hcd]
  deref_congr hab := by rw [same_iff.mp hab]
  preDecr_preIncr {a b} hab := by
    have h : (b : ℤ) = a + 1 := offset_eq_some.mp hab
    exact sameOpt_of_eq (offset_eq_some.mpr (by omega))
  preIncr_preDecr {a b} hab := by
    have h : (b : ℤ) = a + -1 := offset_eq_some.mp hab
    exact sameOpt_of_eq (offset_eq_some.mpr (by omega))
  postIncr a := Ops.samePair_refl (fun _ => same_iff.mpr rfl) _
  postDecr a := Ops.samePair_refl (fun _ => same_iff.mpr rfl) _
  add_ofNat a n := sameOpt_of_eq (steps_preIncr n a).symm
  add_neg a n := sameOpt_of_eq (steps_preDecr n a).symm
  addAssign a n := sameOpt_of_eq rfl
  addLeft a n := sameOpt_of_eq rfl
  sub a n := sameOpt_of_eq rfl
  subAssign a n := sameOpt_of_eq rfl
  add_diff hn := sameOpt_of_eq (offset_eq_some.mpr (diff_eq_some.mp hn))
  diff_add hadd := diff_eq_some.mpr (offset_eq_some.mp hadd)
  eq hn := compare_diff (d := (· = 0)) hn (by omega)
  ne hn := compare_diff (d := (· ≠ 0)) hn (by omega)
  lt hn := compare_diff (d := (0 < ·)) hn (by omega)
  le hn := compare_diff (d := (0 ≤ ·)) hn (by omega)
  gt hn := compare_diff (d := (· < 0)) hn (by omega)
  ge hn := compare_diff (d := (· ≤ 0)) hn (by omega)
  preIncr_isSome := offset_one_isSome
  index a n := rfl
  arrow f hf {a r} hr := by
    obtain rfl := Option.some.inj hf
    exact congrArg some (Fin.ext (deref_eq_some.mp hr))
  iterMove a := rfl

end Pointer

/-! ## 2. The array -/

/-- `cleo::array<T, N>`. -/
structure Array (T : Type*) (N : ℕ) where
  pos : 0 < N
  buffer : Fin N → T

namespace Array

variable {T : Type*}

/-- `begin()`: `buffer`. -/
def begin (_ : Array T N) : Pointer N := 0

/-- `end()`: `buffer + N`. -/
def end_ (_ : Array T N) : Pointer N := Fin.last N

/-- `rbegin()`. -/
def rbegin (a : Array T N) : ReverseIterator (Pointer N) := ⟨a.end_⟩

/-- `rend()`. -/
def rend (a : Array T N) : ReverseIterator (Pointer N) := ⟨a.begin⟩

/-- The operations of `array<T, N>::reverse_iterator`. -/
def reverseOps (N : ℕ) : Ops (ReverseIterator (Pointer N)) (Fin N) (Pointer N) (Fin N) :=
  ReverseIterator.ops (Pointer.ops N)

/-- `rend() - rbegin()` is the length. -/
theorem rend_sub_rbegin (a : Array T N) : (reverseOps N).diff a.rend a.rbegin = some (N : ℤ) := by
  change some (((Fin.last N : Pointer N) : ℤ) - ((0 : Pointer N) : ℤ)) = some (N : ℤ)
  rw [Fin.val_last, Fin.val_zero, Int.ofNat_zero, Int.sub_zero]

/-- `rbegin()[i]` is the `i`th element from the end. -/
theorem rbegin_index (a : Array T N) (i : Fin N) :
    (reverseOps N).index a.rbegin (i : ℕ) = some i.rev := by
  have hi := i.isLt
  have hadd : Pointer.offset (Fin.last N) (-(i : ℕ)) = some ⟨N - i, by omega⟩ := by
    refine Pointer.offset_eq_some.mpr ?_
    change ((N - i : ℕ) : ℤ) = (N : ℤ) + -(i : ℕ)
    omega
  have hdecr : Pointer.offset (⟨N - i, by omega⟩ : Pointer N) (-1) = some i.rev.castSucc := by
    refine Pointer.offset_eq_some.mpr ?_
    change ((N - (i + 1) : ℕ) : ℤ) = ((N - i : ℕ) : ℤ) + -1
    omega
  change ((Pointer.offset (Fin.last N) (-(i : ℕ))).map ReverseIterator.mk).bind _ = some i.rev
  rw [hadd, Option.map_some, Option.bind_some]
  change (Pointer.offset (⟨N - i, by omega⟩ : Pointer N) (-1)).bind Pointer.deref = some i.rev
  rw [hdecr, Option.bind_some]
  exact Pointer.deref_eq_some.mpr rfl

/-- The loop from `rbegin()` to `rend()` comes to its end, and has then read every element once,
the last one first. -/
structure ReadsBackwards (a : Array T N) (is : List (Fin N)) (u : ReverseIterator (Pointer N)) :
    Prop where
  reaches : Reaches ((reverseOps N).walkStep a.rend) ((reverseOps N).walkEnd a.rend) N a.rbegin is u
  stops : (reverseOps N).eq u a.rend = some true
  once : is = (List.finRange N).reverse
  values : is.map a.buffer = (List.ofFn a.buffer).reverse

/-- That it does follows from the laws. -/
theorem reads_backwards (a : Array T N) : ∃ is u, a.ReadsBackwards is u := by
  have h : (reverseOps N).Laws := ReverseIterator.laws (Pointer.laws N)
  obtain ⟨is, u, hreach, hu, his⟩ := h.walk_reaches N a.rend_sub_rbegin
  have hrev : is = (List.finRange N).reverse := by
    refine List.map_injective_iff.mpr (Option.some_injective (Fin N)) ?_
    rw [his, List.finRange_reverse, ← List.map_coe_finRange_eq_range, List.map_map, List.map_map]
    exact List.map_congr_left fun i _ => a.rbegin_index i
  refine ⟨is, u, hreach, hu, hrev, ?_⟩
  rw [hrev, List.map_reverse, List.ofFn_eq_map]

end Array

/-! ## 3. All of it -/

variable {I R P X T : Type*} {o : Ops I R P X}

/-- **`reverse_iterator` preserves the laws of random access**, at every depth of nesting, where two
adaptors more make no difference; and so an array is read backwards. -/
theorem reverse_iterator_random_access (h : o.Laws) (a : Array T N) :
    (∀ k, (nested o k).Laws ∧ (nested o k).TotalOrder ∧
      (nested o k).Agrees (nested o (k + 2)) ReverseIterator.twice) ∧
      ∃ is u, a.ReadsBackwards is u := by
  refine ⟨fun k => ⟨nested_laws h k, (nested_laws h k).totalOrder, nested_agrees h k⟩, ?_⟩
  exact a.reads_backwards

/-- Pointers into a buffer, and an array of three. -/
theorem reverse_iterator_random_access_three :
    let a : Array ℕ 3 := ⟨by decide, fun i => 10 * i⟩
    (∀ k, (nested (Pointer.ops 3) k).Laws ∧ (nested (Pointer.ops 3) k).TotalOrder ∧
      (nested (Pointer.ops 3) k).Agrees (nested (Pointer.ops 3) (k + 2)) ReverseIterator.twice) ∧
      ∃ is u, a.ReadsBackwards is u :=
  reverse_iterator_random_access (Pointer.laws 3) _

end CleoKernel.Iterator
