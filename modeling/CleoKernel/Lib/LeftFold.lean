/-
# Left folds whose steps may be absent

A binary operation `pair` that can fail in two ways, by having no result (`.ok none`) or by an
error (`.error e`), is folded over a pack of values from the left.

`foldFrom` asks after every step whether there was a result, and is absent as soon as one step
is.  `namingFrom` takes the result of every step but the last for granted, and where it was not
there that is an error of its own, `missing`.  The two agree exactly on those packs of which no
proper prefix is without a result (`namingFrom_eq_foldFrom_iff`).
-/
import Mathlib.Data.List.Basic

namespace CleoKernel.LeftFold

variable {α ε : Type*} {pair : α → α → Except ε (Option α)} {missing : ε} {a b c : α}
  {bs cs ds : List α}

/-! ## 1. The two folds -/

/-- Go on with the result of a step, if there is one. -/
def andThen (step : Except ε (Option α)) (next : α → Except ε (Option α)) :
    Except ε (Option α) :=
  step.bind fun r => r.elim (.ok none) next

/-- Go on with the result of a step, which had better be there. -/
def naming (missing : ε) (step : Except ε (Option α)) (next : α → Except ε (Option α)) :
    Except ε (Option α) :=
  step.bind fun r => r.elim (.error missing) next

/-- The left fold of a pack that begins with `a`. -/
def foldFrom (pair : α → α → Except ε (Option α)) : α → List α → Except ε (Option α)
  | a, [] => .ok (some a)
  | a, b :: bs => andThen (pair a b) fun c => foldFrom pair c bs

/-- The left fold of a pack.  The empty pack has none. -/
def fold (pair : α → α → Except ε (Option α)) : List α → Except ε (Option α)
  | [] => .ok none
  | a :: as => foldFrom pair a as

/-- The same, without asking whether a step that is not the last has a result. -/
def namingFrom (missing : ε) (pair : α → α → Except ε (Option α)) :
    α → List α → Except ε (Option α)
  | a, [] => .ok (some a)
  | a, [b] => pair a b
  | a, b :: c :: cs => naming missing (pair a b) fun d => namingFrom missing pair d (c :: cs)

/-! ## 2. One step -/

@[simp] theorem andThen_error (e : ε) (next : α → Except ε (Option α)) :
    andThen (.error e) next = .error e := rfl

@[simp] theorem andThen_none (next : α → Except ε (Option α)) :
    andThen (.ok none) next = .ok none := rfl

@[simp] theorem andThen_some (a : α) (next : α → Except ε (Option α)) :
    andThen (.ok (some a)) next = next a := rfl

@[simp] theorem naming_error (e : ε) (next : α → Except ε (Option α)) :
    naming missing (.error e) next = .error e := rfl

@[simp] theorem naming_none (next : α → Except ε (Option α)) :
    naming missing (.ok none) next = .error missing := rfl

@[simp] theorem naming_some (a : α) (next : α → Except ε (Option α)) :
    naming missing (.ok (some a)) next = next a := rfl

@[simp] theorem foldFrom_nil (a : α) : foldFrom pair a [] = .ok (some a) := rfl

theorem foldFrom_cons (a b : α) (bs : List α) :
    foldFrom pair a (b :: bs) = andThen (pair a b) fun c => foldFrom pair c bs := rfl

/-- A pack of two. -/
theorem foldFrom_pair (a b : α) : foldFrom pair a [b] = pair a b := by
  rw [foldFrom_cons]
  rcases pair a b with e | _ | c <;> rfl

/-! ## 3. Replacing the values of the pack -/

/-- If `pair` looks at its operands through an idempotent `f`, the fold may be given `f b` for
every `b` after the first. -/
theorem foldFrom_map {f : α → α} (hpair : ∀ a b, pair a b = pair (f a) (f b))
    (hidem : ∀ a, f (f a) = f a) (a : α) (bs : List α) :
    foldFrom pair a (bs.map f) = foldFrom pair a bs := by
  induction bs generalizing a with
  | nil => rfl
  | cons b bs ih =>
    have hb : pair a (f b) = pair a b := by rw [hpair a (f b), hidem, ← hpair]
    rw [List.map_cons, foldFrom_cons, foldFrom_cons, hb]
    congr 1
    funext c
    exact ih c

/-! ## 4. When asking makes no difference -/

/-- No proper prefix of the pack is without a result. -/
def NoGap (pair : α → α → Except ε (Option α)) (as : List α) : Prop :=
  ∀ bs cs, as = bs ++ cs → bs ≠ [] → cs ≠ [] → fold pair bs ≠ .ok none

theorem noGap_nil : NoGap pair ([] : List α) := by
  rintro bs cs h hbs -
  exact absurd (List.append_eq_nil_iff.mp h.symm).1 hbs

/-- Proper prefixes of a pack that has a first element. -/
theorem noGap_cons : NoGap pair (a :: bs) ↔
    ∀ cs ds, bs = cs ++ ds → ds ≠ [] → foldFrom pair a cs ≠ .ok none := by
  constructor
  · intro h cs ds hbs hds
    exact h (a :: cs) ds (by rw [hbs, List.cons_append]) (List.cons_ne_nil _ _) hds
  · intro h ps ds has hps hds
    obtain ⟨p, cs, rfl⟩ := List.exists_cons_of_ne_nil hps
    obtain ⟨rfl, hbs⟩ := List.cons.inj (has.trans (List.cons_append ..))
    exact h cs ds hbs hds

/-- A pack of at most two has no gap. -/
theorem noGap_pair (a b : α) : NoGap pair [a, b] := by
  rw [noGap_cons]
  intro cs ds h hds
  have hnil : cs = [] := by
    cases cs with
    | nil => rfl
    | cons c cs =>
      obtain ⟨-, h⟩ := List.cons.inj h
      exact absurd (List.append_eq_nil_iff.mp h.symm).2 hds
  rw [hnil, foldFrom_nil]
  exact fun h => nomatch h

/-- With a third element to come, the first step must have a result, and the pack that goes on
with it must not have a gap either. -/
theorem noGap_cons_cons_cons : NoGap pair (a :: b :: c :: cs) ↔
    pair a b ≠ .ok none ∧ ∀ d, pair a b = .ok (some d) → NoGap pair (d :: c :: cs) := by
  rw [noGap_cons]
  constructor
  · intro h
    refine ⟨?_, ?_⟩
    · have hstep := h [b] (c :: cs) rfl (List.cons_ne_nil _ _)
      rwa [foldFrom_pair] at hstep
    · intro d hd
      rw [noGap_cons]
      intro ps ds hcs hds
      have hfold := h (b :: ps) ds (by rw [hcs, List.cons_append]) hds
      rwa [foldFrom_cons, hd, andThen_some] at hfold
  · rintro ⟨hne, hgap⟩ ps ds hbs hds
    cases ps with
    | nil => exact fun h => nomatch h
    | cons p ps =>
      obtain ⟨rfl, hcs⟩ := List.cons.inj (hbs.trans (List.cons_append ..))
      rw [foldFrom_cons]
      rcases hstep : pair a b with e | _ | d
      · exact fun h => nomatch h
      · exact absurd hstep hne
      · exact noGap_cons.mp (hgap d hstep) ps ds hcs hds

/-- **Not asking is right exactly on the packs without a gap.** -/
theorem namingFrom_eq_foldFrom_iff (a : α) (bs : List α) :
    namingFrom missing pair a bs = foldFrom pair a bs ↔ NoGap pair (a :: bs) := by
  induction bs generalizing a with
  | nil =>
    refine iff_of_true rfl (noGap_cons.mpr ?_)
    intro cs ds h hds
    exact absurd (List.append_eq_nil_iff.mp h.symm).2 hds
  | cons b bs ih =>
    cases bs with
    | nil => exact iff_of_true (foldFrom_pair a b).symm (noGap_pair a b)
    | cons c cs =>
      rw [namingFrom, foldFrom_cons, noGap_cons_cons_cons]
      rcases hstep : pair a b with e | _ | d
      · simp
      · simp
      · simp [ih d]

end CleoKernel.LeftFold
