/-
# `make_signed` and `make_unsigned`

For a standard integer type the two traits are tables.  For the character types and for
enumerations they look for the standard integer type of the right size, trying the five in the
order of their ranks; which one that is depends on the implementation, so the sizes are a
parameter (`DataModel`).  `bool` and every other type have no counterpart, and where the size of
a character type or an enumeration is the size of no standard integer type, naming the member of
`signed_integer_by_size` is an error that nothing catches.

The two traits, each of them fifteen specialisations and three helpers, turn out to be one
function: find a rank (`Ty.rank`), and take the integer type of that rank and of the signedness
asked for, with the qualifiers of the argument (`make_eq`).  A result has the rank it was
made from, so in a chain of `make_signed` and `make_unsigned` only the last one counts
(`makeSigns_concat`).
-/
import CleoKernel.Lib.LeftFold
import CleoKernel.Types.Categories
import CleoKernel.Types.Common

namespace CleoKernel.Types

open CleoKernel.LeftFold

/-! ## 1. Integer types and their sizes -/

/-- The ranks of the standard integer types, in order. -/
inductive Rank
  | char | short | int | long | longLong
  deriving DecidableEq, Repr

/-- The ranks in the order in which the source tries them. -/
def Rank.all : List Rank := [.char, .short, .int, .long, .longLong]

/-- Which of the two traits. -/
inductive Sign
  | signed | unsigned
  deriving DecidableEq, Repr

/-- The standard integer type of a rank. -/
def Sign.integer : Sign → Rank → Arithmetic
  | .signed, .char => .signedChar
  | .signed, .short => .short
  | .signed, .int => .int
  | .signed, .long => .long
  | .signed, .longLong => .longLong
  | .unsigned, .char => .unsignedChar
  | .unsigned, .short => .unsignedShort
  | .unsigned, .int => .unsignedInt
  | .unsigned, .long => .unsignedLong
  | .unsigned, .longLong => .unsignedLongLong

/-- What an implementation says about sizes. -/
structure DataModel where
  size : Arithmetic → ℕ
  enumSize : ℕ → ℕ
  /-- Corresponding signed and unsigned types take the same space. -/
  unsigned_size : ∀ r, size (Sign.unsigned.integer r) = size (Sign.signed.integer r)

/-- `sizeof`, for the types the traits ask about. -/
def DataModel.sizeOf (M : DataModel) : NonRef → ℕ
  | .arithmetic _ k => M.size k
  | .enum _ id => M.enumSize id
  | _ => 0

/-! ## 2. The traits -/

section Code

variable (M : DataModel) (s : Sign)

/-- `signed_integer_by_size<Size>`, `unsigned_integer_by_size<Size>`: the partial specialisations
for the first of the five comparisons that is true. -/
def integerBySize (size : ℕ) : Option NonRef :=
  (Rank.all.find? fun r => size = M.size (s.integer r)).map fun r => .arithmetic .none (s.integer r)

/-- `sign_copy_cv<From, To>`. -/
def signCopyCv (src dst : NonRef) : NonRef := src.copyCv dst

/-- `make_signed_raw<T>`, `make_unsigned_raw<T>`. -/
def makeRaw : NonRef → Option NonRef
  | .arithmetic ⟨false, false⟩ k =>
    match k with
    | .char | .wchar | .char8 | .char16 | .char32 => integerBySize M s (M.size k)
    | .signedChar | .unsignedChar => some (.arithmetic .none (s.integer .char))
    | .short | .unsignedShort => some (.arithmetic .none (s.integer .short))
    | .int | .unsignedInt => some (.arithmetic .none (s.integer .int))
    | .long | .unsignedLong => some (.arithmetic .none (s.integer .long))
    | .longLong | .unsignedLongLong => some (.arithmetic .none (s.integer .longLong))
    | .bool | .float | .double | .longDouble => none
  | _ => none

/-- `typename X::type`, written where a missing member is an error. -/
def memberType (t : Option NonRef) : Except HardError NonRef :=
  t.elim (.error .absentMember) .ok

/-- `make_signed_integral<T>`, `make_unsigned_integral<T>`. -/
def makeSignIntegral (o : NonRef) : Inst Ty :=
  if o.removeCv = .arithmetic .none .bool then .ok none
  else (memberType (makeRaw M s o.removeCv)).map fun u => some (.plain (signCopyCv o u))

/-- `make_signed_selector<T>`, `make_unsigned_selector<T>`. -/
def makeSignSelector (t : Ty) : Inst Ty :=
  match t with
  | .plain o =>
    match t.removeCv.isIntegral, t.removeCv.isEnum with
    | true, false => makeSignIntegral M s o
    | false, true =>
      (memberType (integerBySize M s (M.sizeOf o.removeCv))).map fun u =>
        some (.plain (signCopyCv o u))
    | _, _ => .ok none
  | _ => .ok none

end Code

/-- `make_signed<T>`. -/
def makeSigned (M : DataModel) (t : Ty) : Inst Ty := makeSignSelector M .signed t

/-- `make_unsigned<T>`. -/
def makeUnsigned (M : DataModel) (t : Ty) : Inst Ty := makeSignSelector M .unsigned t

/-- Either of them. -/
def Sign.make : Sign → DataModel → Ty → Inst Ty
  | .signed => makeSigned
  | .unsigned => makeUnsigned

/-- One after the other, each on the type the one before has made. -/
def makeSigns (M : DataModel) : List Sign → Ty → Inst Ty
  | [], t => .ok (some t)
  | s :: ss, t => andThen (s.make M t) (makeSigns M ss)

/-! ## 3. One function -/

variable {M : DataModel} {s : Sign} {t u : Ty} {r : Rank} {n : ℕ}

/-- How far up a rank is. -/
def Rank.order : Rank → ℕ
  | .char => 0
  | .short => 1
  | .int => 2
  | .long => 3
  | .longLong => 4

/-- The lowest rank whose types have this size. -/
def DataModel.rankOfSize (M : DataModel) (n : ℕ) : Option Rank :=
  Rank.all.find? fun r => n = M.size (Sign.signed.integer r)

/-- The rank at which the counterparts of an arithmetic type are. -/
def DataModel.arithmeticRank (M : DataModel) (k : Arithmetic) : Inst Rank :=
  match k with
  | .char | .wchar | .char8 | .char16 | .char32 =>
    (M.rankOfSize (M.size k)).elim (.error .absentMember) fun r => .ok (some r)
  | .signedChar | .unsignedChar => .ok (some .char)
  | .short | .unsignedShort => .ok (some .short)
  | .int | .unsignedInt => .ok (some .int)
  | .long | .unsignedLong => .ok (some .long)
  | .longLong | .unsignedLongLong => .ok (some .longLong)
  | .bool | .float | .double | .longDouble => .ok none

/-- The rank at which the counterparts of a type are, if it has any. -/
def DataModel.rank (M : DataModel) : Ty → Inst Rank
  | .plain (.arithmetic _ k) => M.arithmeticRank k
  | .plain (.enum _ id) =>
    (M.rankOfSize (M.enumSize id)).elim (.error .absentMember) fun r => .ok (some r)
  | _ => .ok none

/-- The type of a rank and a signedness, with the qualifiers of `t`. -/
def Sign.counterpart (s : Sign) (t : Ty) (r : Rank) : Ty :=
  .plain (.arithmetic t.referent.cv (s.integer r))

/-- Signed and unsigned types are found at the same rank, because their sizes agree. -/
theorem integerBySize_eq (M : DataModel) (s : Sign) (n : ℕ) :
    integerBySize M s n = (M.rankOfSize n).map fun r => .arithmetic .none (s.integer r) := by
  cases s with
  | signed => rfl
  | unsigned =>
    simp only [integerBySize, DataModel.rankOfSize, M.unsigned_size]

/-- The qualifiers go from the argument to the result. -/
theorem signCopyCv_arithmetic (o : NonRef) (k : Arithmetic) :
    signCopyCv o (.arithmetic .none k) = .arithmetic o.cv k := by
  simp [signCopyCv, NonRef.copyCv, NonRef.addCv, NonRef.mapCv, CV.join, CV.none]

/-- A search by size, as a search for a rank. -/
theorem memberType_integerBySize (o : NonRef) (n : ℕ) :
    ((memberType (integerBySize M s n)).map fun u => some (.plain (signCopyCv o u))) =
      ((M.rankOfSize n).elim (.error .absentMember) fun r => .ok (some r) : Inst Rank).map
        (Option.map (s.counterpart (.plain o))) := by
  rw [integerBySize_eq]
  cases M.rankOfSize n with
  | none => rfl
  | some r => exact congrArg (fun u => Except.ok (some (Ty.plain u))) (signCopyCv_arithmetic o _)

theorem makeSignSelector_arithmetic (cv : CV) (k : Arithmetic) :
    makeSignSelector M s (.plain (.arithmetic cv k)) =
      (M.arithmeticRank k).map (Option.map (s.counterpart (.plain (.arithmetic cv k)))) := by
  have htable : ∀ r, (memberType (some (.arithmetic .none (s.integer r)))).map
      (fun u => some (.plain (signCopyCv (.arithmetic cv k) u))) =
        (.ok (some (s.counterpart (.plain (.arithmetic cv k)) r)) : Inst Ty) := fun r =>
    congrArg (fun u => Except.ok (some (Ty.plain u))) (signCopyCv_arithmetic _ _)
  cases k with
  | bool | float | double | longDouble => rfl
  | char | wchar | char8 | char16 | char32 => exact memberType_integerBySize _ _
  | _ => exact htable _

/-- **The traits are one function** of the rank. -/
theorem makeSignSelector_eq (M : DataModel) (s : Sign) (t : Ty) :
    makeSignSelector M s t = (M.rank t).map (Option.map (s.counterpart t)) := by
  rcases t with o | o | o
  · cases o with
    | arithmetic cv k => exact makeSignSelector_arithmetic cv k
    | enum cv id => exact memberType_integerBySize _ _
    | _ => rfl
  · rfl
  · rfl

/-! ## 4. What they say -/

/-- The rank found by size is the lowest of that size. -/
theorem rankOfSize_spec (h : M.rankOfSize n = some r) :
    M.size (Sign.signed.integer r) = n ∧
      ∀ r' : Rank, r'.order < r.order → M.size (Sign.signed.integer r') ≠ n := by
  obtain ⟨hr, lower, higher, hall, hlower⟩ := List.find?_eq_some_iff_append.mp h
  have hsorted : (lower ++ r :: higher).Pairwise fun r r' => r.order < r'.order := by
    rw [← hall]
    decide
  refine ⟨(of_decide_eq_true hr).symm, fun r' hlt hsize => ?_⟩
  have hmem : r' ∈ lower ++ r :: higher := by
    rw [← hall]
    cases r' <;> decide
  rcases List.mem_append.mp hmem with hmem | hmem
  · have hne := hlower r' hmem
    simp [hsize] at hne
  · -- a rank from here on is not lower
    rcases List.mem_cons.mp hmem with rfl | hmem
    · exact Nat.lt_irrefl _ hlt
    · have hgt := List.rel_of_pairwise_cons (List.pairwise_append.mp hsorted).2.1 hmem
      exact Nat.lt_asymm hlt hgt

theorem rankOfSize_eq_none (h : M.rankOfSize n = none) (r : Rank) :
    M.size (Sign.signed.integer r) ≠ n := by
  have hmem : r ∈ Rank.all := by cases r <;> decide
  intro hsize
  exact List.find?_eq_none.mp h r hmem (decide_eq_true hsize.symm)

/-- The types the two traits are for: integral types other than `bool`, and enumerations. -/
def Ty.HasSign (t : Ty) : Prop :=
  (t.isIntegral = true ∧ t.removeCv ≠ .plain (.arithmetic .none .bool)) ∨ t.isEnum = true

theorem hasSign_arithmetic (cv : CV) (k : Arithmetic) :
    (Ty.plain (.arithmetic cv k)).HasSign ↔ k ∉ [.bool, .float, .double, .longDouble] := by
  have hcat : (Ty.plain (.arithmetic cv k)).isIntegral = decide (.integral = k.category) :=
    Category.trait_eq .integral _
  have hbool : (Ty.plain (.arithmetic cv k)).removeCv = .plain (.arithmetic .none k) := rfl
  rw [Ty.HasSign, hcat, hbool]
  cases k <;> simp [Arithmetic.category, Ty.isEnum]

/-- **A type has no counterparts, or is a standard integer type, or is looked up by its
size.** -/
theorem rank_cases (M : DataModel) (t : Ty) :
    (¬ t.HasSign ∧ M.rank t = .ok none) ∨
      t.HasSign ∧ ((∃ (s : Sign) (r : Rank), t = s.counterpart t r ∧ M.rank t = .ok (some r)) ∨
        M.rank t = (M.rankOfSize (M.sizeOf t.referent)).elim (.error .absentMember)
          fun r => .ok (some r)) := by
  rcases t with o | o | o
  · cases o with
    | arithmetic cv k =>
      rw [hasSign_arithmetic]
      cases k with
      | bool | float | double | longDouble => exact Or.inl ⟨by decide, rfl⟩
      | char | wchar | char8 | char16 | char32 => exact Or.inr ⟨by decide, Or.inr rfl⟩
      | signedChar => exact Or.inr ⟨by decide, Or.inl ⟨.signed, .char, rfl, rfl⟩⟩
      | unsignedChar => exact Or.inr ⟨by decide, Or.inl ⟨.unsigned, .char, rfl, rfl⟩⟩
      | short => exact Or.inr ⟨by decide, Or.inl ⟨.signed, .short, rfl, rfl⟩⟩
      | unsignedShort => exact Or.inr ⟨by decide, Or.inl ⟨.unsigned, .short, rfl, rfl⟩⟩
      | int => exact Or.inr ⟨by decide, Or.inl ⟨.signed, .int, rfl, rfl⟩⟩
      | unsignedInt => exact Or.inr ⟨by decide, Or.inl ⟨.unsigned, .int, rfl, rfl⟩⟩
      | long => exact Or.inr ⟨by decide, Or.inl ⟨.signed, .long, rfl, rfl⟩⟩
      | unsignedLong => exact Or.inr ⟨by decide, Or.inl ⟨.unsigned, .long, rfl, rfl⟩⟩
      | longLong => exact Or.inr ⟨by decide, Or.inl ⟨.signed, .longLong, rfl, rfl⟩⟩
      | unsignedLongLong =>
        exact Or.inr ⟨by decide, Or.inl ⟨.unsigned, .longLong, rfl, rfl⟩⟩
    | enum cv id => exact Or.inr ⟨Or.inr rfl, Or.inr rfl⟩
    | _ =>
      refine Or.inl ⟨?_, rfl⟩
      rintro (⟨h, -⟩ | h) <;> exact nomatch h
  · refine Or.inl ⟨?_, rfl⟩
    rintro (⟨h, -⟩ | h) <;> exact nomatch h
  · refine Or.inl ⟨?_, rfl⟩
    rintro (⟨h, -⟩ | h) <;> exact nomatch h

/-- A standard integer type is one at one rank only. -/
theorem counterpart_injective {s s' : Sign} {r r' : Rank}
    (h : s.counterpart t r = s'.counterpart t r') : r = r' := by
  have hinteger : s.integer r = s'.integer r' := by
    simpa only [Sign.counterpart, Ty.plain.injEq, NonRef.arithmetic.injEq, true_and] using h
  revert hinteger
  cases s <;> cases s' <;> cases r <;> cases r' <;> decide

/-- A standard integer type is at its own rank. -/
theorem rank_counterpart (M : DataModel) (s : Sign) (t : Ty) (r : Rank) :
    M.rank (s.counterpart t r) = .ok (some r) := by
  cases s <;> cases r <;> rfl

/-- All of them are of the size of the rank. -/
theorem sizeOf_counterpart (M : DataModel) (s : Sign) (t : Ty) (r : Rank) :
    M.sizeOf (s.counterpart t r).referent = M.size (Sign.signed.integer r) := by
  cases s with
  | signed => rfl
  | unsigned => exact M.unsigned_size r

theorem make_eq (M : DataModel) (s : Sign) (t : Ty) :
    s.make M t = (M.rank t).map (Option.map (s.counterpart t)) := by
  cases s with
  | signed => exact makeSignSelector_eq M .signed t
  | unsigned => exact makeSignSelector_eq M .unsigned t

/-- The second of two makes the first superfluous. -/
theorem make_make (M : DataModel) (s s' : Sign) (t : Ty) :
    andThen (s.make M t) (s'.make M) = s'.make M t := by
  rw [make_eq, make_eq]
  cases h : M.rank t with
  | error e => rfl
  | ok r =>
    cases r with
    | none => rfl
    | some r =>
      change s'.make M (s.counterpart t r) = _
      rw [make_eq, rank_counterpart]
      rfl

/-- **Only the last one counts**, also where there is no result and where there is an error. -/
theorem makeSigns_concat (M : DataModel) (ss : List Sign) (s : Sign) (t : Ty) :
    makeSigns M (ss ++ [s]) t = s.make M t := by
  induction ss generalizing t with
  | nil =>
    change andThen (s.make M t) (fun u => .ok (some u)) = _
    cases h : s.make M t with
    | error e => rfl
    | ok u => cases u <;> rfl
  | cons s' ss ih =>
    change andThen (s'.make M t) (makeSigns M (ss ++ [s])) = _
    rw [funext ih]
    exact make_make M s' s t

/-- What `make_signed` or `make_unsigned` makes of a type. -/
structure SignMeaning (M : DataModel) (s : Sign) (t : Ty) : Prop where
  absent : s.make M t = .ok none ↔ ¬ t.HasSign
  /-- There is no standard integer type of that size. -/
  error : ∀ e, s.make M t = .error e ↔
    e = .absentMember ∧ t.HasSign ∧ ∀ r, M.size (Sign.signed.integer r) ≠ M.sizeOf t.referent
  /-- The result has the signedness asked for and the qualifiers and the size of the argument.  Its
  rank is that of the argument, if this is a standard integer type, and otherwise the lowest. -/
  result : ∀ u, s.make M t = .ok (some u) → ∃ r, u = s.counterpart t r ∧
    M.sizeOf u.referent = M.sizeOf t.referent ∧
      (∀ (s' : Sign) (r' : Rank), t = s'.counterpart t r' → r = r') ∧
      ((∀ (s' : Sign) (r' : Rank), t ≠ s'.counterpart t r') →
        ∀ r' : Rank, r'.order < r.order → M.size (Sign.signed.integer r') ≠ M.sizeOf t.referent)

theorem signMeaning (M : DataModel) (s : Sign) (t : Ty) : SignMeaning M s t := by
  have hmake := make_eq M s t
  rcases rank_cases M t with ⟨hnot, hrank⟩ | ⟨hsign, ⟨s', r, ht, hrank⟩ | hrank⟩
  · have hnone : s.make M t = .ok none := by rw [hmake, hrank]; rfl
    rw [hnone] at hmake
    exact ⟨by simp [hnone, hnot], by simp [hnone, hnot], by simp [hnone]⟩
  · have hsome : s.make M t = .ok (some (s.counterpart t r)) := by rw [hmake, hrank]; rfl
    have hsize : M.sizeOf t.referent = M.size (Sign.signed.integer r) := by
      rw [ht]
      exact sizeOf_counterpart M s' t r
    refine ⟨by simp [hsome, hsign], fun e => ?_, fun u hu => ?_⟩
    · rw [hsome]
      exact ⟨fun h => (nomatch h), fun h => absurd hsize.symm (h.2.2 r)⟩
    · rw [hsome, Except.ok.injEq, Option.some.injEq] at hu
      subst hu
      refine ⟨r, rfl, (sizeOf_counterpart M s t r).trans hsize.symm, fun s'' r' ht' => ?_,
        fun hnot => absurd ht (hnot s' r)⟩
      exact counterpart_injective (ht.symm.trans ht')
  · cases hfind : M.rankOfSize (M.sizeOf t.referent) with
    | none =>
      have herr : s.make M t = .error .absentMember := by rw [hmake, hrank, hfind]; rfl
      refine ⟨by simp [herr, hsign], fun e => ?_, by simp [herr]⟩
      rw [herr, Except.error.injEq]
      exact ⟨fun h => ⟨h.symm, hsign, rankOfSize_eq_none hfind⟩, fun h => h.1.symm⟩
    | some r =>
      obtain ⟨hsize, hlowest⟩ := rankOfSize_spec hfind
      have hsome : s.make M t = .ok (some (s.counterpart t r)) := by
        rw [hmake, hrank, hfind]; rfl
      refine ⟨by simp [hsome, hsign], fun e => ?_, fun u hu => ?_⟩
      · rw [hsome]
        exact ⟨fun h => (nomatch h), fun h => absurd hsize (h.2.2 r)⟩
      · rw [hsome, Except.ok.injEq, Option.some.injEq] at hu
        subst hu
        refine ⟨r, rfl, (sizeOf_counterpart M s t r).trans hsize, fun s' r' ht => ?_,
          fun _ => hlowest⟩
        -- the search has found a standard integer type where it is
        rw [ht, rank_counterpart, ← ht, hfind] at hrank
        exact (Option.some.inj (Except.ok.inj hrank)).symm

/-- **`make_signed` and `make_unsigned`**, as one statement: what each of them makes of every type
on every implementation, and that in a chain of them only the last one counts. -/
theorem make_signed_unsigned (M : DataModel) (t : Ty) :
    (∀ s, SignMeaning M s t) ∧ ∀ ss s, makeSigns M (ss ++ [s]) t = s.make M t :=
  ⟨fun s => signMeaning M s t, fun ss s => makeSigns_concat M ss s t⟩

end CleoKernel.Types
