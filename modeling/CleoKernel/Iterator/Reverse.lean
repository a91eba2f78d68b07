/-
# `reverse_iterator`

An iterator adaptor that holds an iterator `current_` and denotes the element before it.  Every
operation is one or two of the base iterator, with the direction, the sign of the offset or the
order of the operands turned round.

If the base iterator obeys the laws of a random-access iterator, so does the adaptor
(`laws`), hence also the adaptor on the adaptor, to any depth (`nested_laws`); and applied
twice it cannot be told from the base iterator (`agrees_twice`).
-/
import CleoKernel.Lib.RandomAccess

namespace CleoKernel.Iterator

open CleoKernel.RandomAccess

variable {I R P X : Type*} {o : Ops I R P X}

/-- `reverse_iterator<Iter>`. -/
structure ReverseIterator (I : Type*) where
  current : I
  deriving DecidableEq

namespace ReverseIterator

/-! ## 1. Members -/

/-- `base()`. -/
def base (r : ReverseIterator I) : I := r.current

/-- `*r`: `Iter tmp = current_; return *--tmp;` -/
def deref (o : Ops I R P X) (r : ReverseIterator I) : Option R :=
  (o.preDecr r.current).bind o.deref

/-- `r + n`: `reverse_iterator(base() - n)`. -/
def add (o : Ops I R P X) (r : ReverseIterator I) (n : ℤ) : Option (ReverseIterator I) :=
  (o.sub r.base n).map mk

/-- The operations of `reverse_iterator<Iter>`, given those of `Iter`. -/
def ops (o : Ops I R P X) : Ops (ReverseIterator I) R P X where
  preIncr r := (o.preDecr r.current).map mk
  preDecr r := (o.preIncr r.current).map mk
  postIncr r := (o.preDecr r.current).map fun c => (r, ⟨c⟩)
  postDecr r := (o.preIncr r.current).map fun c => (r, ⟨c⟩)
  addAssign r n := (o.subAssign r.current n).map mk
  subAssign r n := (o.addAssign r.current n).map mk
  add r n := add o r n
  addLeft n r := (o.sub r.base n).map mk
  sub r n := (o.add r.base n).map mk
  diff l r := o.diff r.base l.base
  eq l r := o.eq l.base r.base
  ne l r := o.ne l.base r.base
  lt l r := o.lt r.base l.base
  le l r := o.le r.base l.base
  gt l r := o.gt r.base l.base
  ge l r := o.ge r.base l.base
  deref := deref o
  index r n := (add o r n).bind (deref o)
  arrow := o.arrow.map fun f r => (o.preDecr r.current).bind f
  -- the friend `iter_move`, which calls `ranges::iter_move(--it)`
  customIterMove := some fun r => (o.preDecr r.base).bind o.rangesIterMove
  addressOf := o.addressOf
  moved := o.moved

/-! ## 2. The laws -/

/-- Results of the base iterator that are the same still are when they are wrapped. -/
theorem sameOpt_map {x y : Option I} (h : o.SameOpt x y) :
    (ops o).SameOpt (x.map mk) (y.map mk) := by
  cases h with
  | none => exact .none
  | some hab => exact .some hab

/-- `n` increments are `n` decrements of the base. -/
theorem steps_preIncr (o : Ops I R P X) (n : ℕ) (r : ReverseIterator I) :
    steps (ops o).preIncr n r = (steps o.preDecr n r.current).map mk :=
  steps_map (f := o.preDecr) (g := mk) (fun _ => rfl) n r.current

theorem steps_preDecr (o : Ops I R P X) (n : ℕ) (r : ReverseIterator I) :
    steps (ops o).preDecr n r = (steps o.preIncr n r.current).map mk :=
  steps_map (f := o.preIncr) (g := mk) (fun _ => rfl) n r.current

/-- The offset is subtracted from the base. -/
theorem sub_neg (h : o.Laws) (a : I) (n : ℤ) : o.SameOpt (o.sub a (-n)) (o.add a n) := by
  have hsub := h.sub a (-n)
  rwa [Int.neg_neg] at hsub

/-- A base iterator that could be decremented has an element. -/
theorem deref_isSome (h : o.Laws) (a : I) :
    ((o.preDecr a).bind o.deref).isSome = (o.preDecr a).isSome := by
  cases hd : o.preDecr a with
  | none => rfl
  | some d =>
    obtain ⟨a', ha', -⟩ := Ops.sameOpt_some_iff.mp (h.preIncr_preDecr hd)
    rw [Option.bind_some, ← h.preIncr_isSome, ha']
    rfl

/-- **The laws of random access pass from the base iterator to the adaptor.** -/
theorem laws (h : o.Laws) : (ops o).Laws where
  refl a := h.refl a.current
  symm hab := h.symm hab
  trans hab hbc := h.trans hab hbc
  preIncr_congr hab := sameOpt_map (h.preDecr_congr hab)
  preDecr_congr hab := sameOpt_map (h.preIncr_congr hab)
  diff_congr hab hcd := h.diff_congr hcd hab
  deref_congr hab := h.bind_deref (h.preDecr_congr hab)
  preDecr_preIncr hab := by
    obtain ⟨c, hc, rfl⟩ := Option.map_eq_some_iff.mp hab
    exact sameOpt_map (h.preIncr_preDecr hc)
  preIncr_preDecr hab := by
    obtain ⟨c, hc, rfl⟩ := Option.map_eq_some_iff.mp hab
    exact sameOpt_map (h.preDecr_preIncr hc)
  postIncr a := by
    change (ops o).SamePair _ (((o.preDecr a.current).map mk).map _)
    rw [Option.map_map]
    exact Ops.samePair_refl (fun r => h.refl r.current) _
  postDecr a := by
    change (ops o).SamePair _ (((o.preIncr a.current).map mk).map _)
    rw [Option.map_map]
    exact Ops.samePair_refl (fun r => h.refl r.current) _
  add_ofNat a n := by
    rw [steps_preIncr]
    exact sameOpt_map (h.sameOpt_trans (h.sub a.base n) (h.add_neg a.base n))
  add_neg a n := by
    rw [steps_preDecr]
    exact sameOpt_map (h.sameOpt_trans (sub_neg h a.base n) (h.add_ofNat a.base n))
  addAssign a n :=
    sameOpt_map (h.sameOpt_trans (h.subAssign a.current n) (h.sameOpt_symm (h.sub a.base n)))
  addLeft a n := sameOpt_map (h.sameOpt_refl (o.sub a.base n))
  sub a n := sameOpt_map (h.sameOpt_symm (sub_neg h a.base n))
  subAssign a n :=
    sameOpt_map (h.sameOpt_trans (h.addAssign a.current n) (h.sameOpt_symm (sub_neg h a.base n)))
  add_diff {a b n} hn :=
    sameOpt_map (y := some b.current)
      (h.sameOpt_trans (h.sub a.base n) (h.add_diff (h.diff_neg hn)))
  diff_add {a b n} hadd := by
    obtain ⟨c, hc, rfl⟩ := Option.map_eq_some_iff.mp hadd
    have hsub := h.sameOpt_symm (h.sub a.base n)
    rw [hc] at hsub
    have hneg := h.diff_neg (h.diff_eq_iff.mpr hsub)
    rwa [Int.neg_neg] at hneg
  -- equality keeps the order of its operands, and so sees the difference negated
  eq hn := by
    have heq := h.eq (h.diff_neg hn)
    simp only [Int.neg_eq_zero] at heq
    exact heq
  ne hn := by
    have hne := h.ne (h.diff_neg hn)
    simp only [ne_eq, Int.neg_eq_zero] at hne
    exact hne
  lt hn := h.lt hn
  le hn := h.le hn
  gt hn := h.gt hn
  ge hn := h.ge hn
  preIncr_isSome a := by
    change ((o.preDecr a.current).map mk).isSome = ((o.preDecr a.current).bind o.deref).isSome
    rw [Option.isSome_map, deref_isSome h]
  index a n := rfl
  arrow f hf {a r} hr := by
    obtain ⟨g, hg, rfl⟩ := Option.map_eq_some_iff.mp hf
    obtain ⟨d, hd, hdr⟩ := Option.bind_eq_some_iff.mp hr
    change (o.preDecr a.current).bind g = some (o.addressOf r)
    rw [hd, Option.bind_some]
    exact h.arrow g hg hdr
  iterMove a := by
    change (o.preDecr a.current).bind o.rangesIterMove =
      ((o.preDecr a.current).bind o.deref).map o.moved
    cases o.preDecr a.current with
    | none => rfl
    | some d => exact h.iterMove d

/-! ## 3. Twice, and any number of times -/

/-- The adaptor on the adaptor. -/
def twice (a : I) : ReverseIterator (ReverseIterator I) := ⟨⟨a⟩⟩

theorem sameOpt_twice {x y : Option I} (h : o.SameOpt x y) :
    (ops (ops o)).SameOpt ((x.map mk).map mk) (y.map twice) := by
  cases h with
  | none => exact .none
  | some hab => exact .some hab

/-- A postfix operation returns the iterator it was applied to. -/
theorem samePair_twice {a : I} {x : Option I} {y : Option (I × I)}
    (h : o.SamePair y (x.map fun b => (a, b))) (hsymm : ∀ {b c}, o.Same b c → o.Same c b) :
    (ops (ops o)).SamePair ((x.map mk).map fun c => (twice a, ⟨c⟩))
      (y.map (Prod.map twice twice)) := by
  cases x with
  | none =>
    cases h
    exact .none
  | some b =>
    cases h with
    | some hab => exact .some ⟨hsymm hab.1, hsymm hab.2⟩

/-- One step forth and one back. -/
theorem deref_twice (h : o.Laws) (a : I) : (ops (ops o)).deref (twice a) = o.deref a := by
  change ((o.preIncr a).map mk).bind (deref o) = o.deref a
  cases hi : o.preIncr a with
  | none =>
    have hnone : o.deref a = none := by
      rw [← Option.not_isSome_iff_eq_none, ← h.preIncr_isSome, hi]
      exact Bool.false_ne_true
    exact hnone.symm
  | some b => exact h.bind_deref (h.preDecr_preIncr hi)

/-- **Reversed twice is the base iterator.** -/
theorem agrees_twice (h : o.Laws) : o.Agrees (ops (ops o)) twice where
  preIncr a := sameOpt_twice (h.sameOpt_refl (o.preIncr a))
  preDecr a := sameOpt_twice (h.sameOpt_refl (o.preDecr a))
  postIncr a := samePair_twice (h.postIncr a) h.symm
  postDecr a := samePair_twice (h.postDecr a) h.symm
  addAssign a n := sameOpt_twice (h.sameOpt_refl (o.addAssign a n))
  subAssign a n := sameOpt_twice (h.sameOpt_refl (o.subAssign a n))
  add a n := sameOpt_twice (h.sameOpt_refl (o.add a n))
  addLeft a n := sameOpt_twice (h.sameOpt_symm (h.addLeft a n))
  sub a n := sameOpt_twice (h.sameOpt_refl (o.sub a n))
  diff a b := rfl
  eq a b := rfl
  ne a b := rfl
  lt a b := rfl
  le a b := rfl
  gt a b := rfl
  ge a b := rfl
  deref := deref_twice h
  index a n := by
    rw [(laws (laws h)).index, h.index]
    change (((o.add a n).map mk).map mk).bind _ = _
    cases o.add a n with
    | none => rfl
    | some b => exact deref_twice h b
  arrow g hg := by
    refine ⟨_, Option.mem_map_of_mem _ (Option.mem_map_of_mem _ hg), fun a r hr => ?_⟩
    have hr' : (ops (ops o)).deref (twice a) = some r := (deref_twice h a).trans hr
    rw [h.arrow g hg hr]
    exact (laws (laws h)).arrow _ (Option.mem_map_of_mem _ (Option.mem_map_of_mem _ hg)) hr'
  iterMove a := by
    rw [(laws (laws h)).iterMove, h.iterMove, deref_twice h]
    rfl

end ReverseIterator

open ReverseIterator

/-- `reverse_iterator<reverse_iterator<...>>`, with `k` adaptors. -/
def Nested (I : Type u) : ℕ → Type u
  | 0 => I
  | k + 1 => ReverseIterator (Nested I k)

/-- Its operations. -/
def nested (o : Ops I R P X) : (k : ℕ) → Ops (Nested I k) R P X
  | 0 => o
  | k + 1 => ops (nested o k)

/-- **The laws hold at every depth.** -/
theorem nested_laws (h : o.Laws) (k : ℕ) : (nested o k).Laws := by
  induction k with
  | zero => exact h
  | succ k ih => exact laws ih

/-- Two more adaptors make no difference, at any depth. -/
theorem nested_agrees (h : o.Laws) (k : ℕ) :
    (nested o k).Agrees (nested o (k + 2)) (twice : Nested I k → Nested I (k + 2)) :=
  agrees_twice (nested_laws h k)

end CleoKernel.Iterator
