/-
# Conjunctions, disjunctions and negations of traits

`conjunction<B...>` derives from its first operand that is false, or from the last one, and
`disjunction<B...>` from the first that is true, or the last.  What matters to their users is
which operands are instantiated at all: one that is ill-formed does no harm behind one that has
decided the matter already.

So a trait is looked at here with both in view, its value, which may not exist, and the operands
that were looked at on the way.  `looks_decided` and `looks_undecided` say what happens to a list
of operands; `logical_traits` is the algebra this leads to: De Morgan's laws, nesting and double
negation hold between traits of any depth, with the same operands looked at in the same order.
-/
import Mathlib.Data.Nat.Notation

namespace CleoKernel.Types

/-! ## 1. Traits -/

/-- A trait, as an operand of another.  `user i` is one that is not made up of others.  All are
classes that can be derived from. -/
inductive Trait
  | user (i : ℕ)
  /-- `bool_constant<b>` -/
  | constant (b : Bool)
  | conjunction (bs : List Trait)
  | disjunction (bs : List Trait)
  | negation (b : Trait)

/-- What comes of `bool(B::value)`: the traits that were looked at, in order, and the value, unless
that is ill-formed. -/
structure Look where
  seen : List ℕ
  value : Option Bool
  deriving DecidableEq, Repr

namespace Look

/-- A look at another trait, if the first does not decide. -/
def otherwise (l : Look) (stop : Bool) (next : Look) : Look :=
  match l.value with
  | none => l
  | some b => if b = stop then l else ⟨l.seen ++ next.seen, next.value⟩

/-- The negated value. -/
def negate (l : Look) : Look := ⟨l.seen, l.value.map (!·)⟩

/-- Does the value, or its absence, decide? -/
def Decides (stop : Bool) (l : Look) : Prop := l.value ≠ some !stop

instance {stop : Bool} {l : Look} : Decidable (l.Decides stop) :=
  inferInstanceAs (Decidable (_ ≠ _))

end Look

mutual

/-- `bool(B::value)`.  `user` gives the values of the traits of the user. -/
def look (user : ℕ → Option Bool) : Trait → Look
  | .user i => ⟨[i], user i⟩
  | .constant b => ⟨[], some b⟩
  | .conjunction bs => looks user false bs
  | .disjunction bs => looks user true bs
  | .negation b => (look user b).negate

/-- The value of the base class: `true_type` or `false_type` for no operands, the operand itself
for one, and `conditional_t<bool(B1::value), ..>` for more. -/
def looks (user : ℕ → Option Bool) (stop : Bool) : List Trait → Look
  | [] => ⟨[], some !stop⟩
  | [b] => look user b
  | b :: c :: bs => (look user b).otherwise stop (looks user stop (c :: bs))

end

mutual

/-- The negation of a trait, pushed down to the traits of the user. -/
def Trait.dual : Trait → Trait
  | .user i => .negation (.user i)
  | .constant b => .constant !b
  | .conjunction bs => .disjunction (duals bs)
  | .disjunction bs => .conjunction (duals bs)
  | .negation b => b

/-- The same for a list. -/
def duals : List Trait → List Trait
  | [] => []
  | b :: bs => b.dual :: duals bs

end

/-! ## 2. Looking at a list -/

variable {user : ℕ → Option Bool} {stop : Bool} {l m n : Look} {b : Trait} {bs cs : List Trait}

namespace Look

theorem otherwise_of_decides (h : l.Decides stop) : l.otherwise stop m = l := by
  cases hvalue : l.value with
  | none => simp [otherwise, hvalue]
  | some v =>
    have hv : v = stop := by
      cases v <;> cases stop <;> first | rfl | exact absurd hvalue h
    simp [otherwise, hvalue, hv]

theorem otherwise_of_not_decides (h : ¬ l.Decides stop) :
    l.otherwise stop m = ⟨l.seen ++ m.seen, m.value⟩ := by
  have hvalue : l.value = some !stop := Decidable.not_not.mp h
  simp [otherwise, hvalue]

theorem decides_otherwise_iff (h : ¬ l.Decides stop) :
    (l.otherwise stop m).Decides stop ↔ m.Decides stop := by
  rw [otherwise_of_not_decides h]
  rfl

theorem otherwise_assoc :
    (l.otherwise stop m).otherwise stop n = l.otherwise stop (m.otherwise stop n) := by
  by_cases hl : l.Decides stop
  · rw [otherwise_of_decides hl, otherwise_of_decides hl, otherwise_of_decides hl]
  · by_cases hm : m.Decides stop
    · rw [otherwise_of_decides hm, otherwise_of_decides ((decides_otherwise_iff hl).mpr hm)]
    · rw [otherwise_of_not_decides fun h => hm ((decides_otherwise_iff hl).mp h),
        otherwise_of_not_decides hl, otherwise_of_not_decides hl, otherwise_of_not_decides hm,
        List.append_assoc]

/-- A last look that never decides changes nothing. -/
theorem otherwise_constant : l.otherwise stop ⟨[], some !stop⟩ = l := by
  by_cases hl : l.Decides stop
  · exact otherwise_of_decides hl
  · have hvalue : l.value = some !stop := Decidable.not_not.mp hl
    rw [otherwise_of_not_decides hl, List.append_nil, ← hvalue]

theorem negate_otherwise : (l.otherwise stop m).negate = l.negate.otherwise (!stop) m.negate := by
  rcases l with ⟨seen, _ | v⟩
  · rfl
  · cases v <;> cases stop <;> rfl

theorem negate_negate : l.negate.negate = l := by
  rcases l with ⟨seen, _ | v⟩
  · rfl
  · cases v <;> rfl

end Look

open Look

/-- The base class for one operand is no exception: it is what asking for the rest would give. -/
@[simp] theorem looks_cons :
    looks user stop (b :: bs) = (look user b).otherwise stop (looks user stop bs) := by
  cases bs with
  | nil => rw [looks, looks, otherwise_constant]
  | cons c bs => rw [looks]

theorem looks_append :
    looks user stop (bs ++ cs) = (looks user stop bs).otherwise stop (looks user stop cs) := by
  induction bs with
  | nil =>
    have hnil : ¬ (looks user stop []).Decides stop := by
      rw [looks]
      exact fun h => h rfl
    rw [otherwise_of_not_decides hnil, List.nil_append, looks, List.nil_append]
  | cons b bs ih => rw [List.cons_append, looks_cons, looks_cons, ih, otherwise_assoc]

/-- **No operand decides**: all are looked at. -/
theorem looks_undecided (h : ∀ b ∈ bs, ¬ (look user b).Decides stop) :
    looks user stop bs = ⟨bs.flatMap fun b => (look user b).seen, some !stop⟩ := by
  induction bs with
  | nil => rw [looks, List.flatMap_nil]
  | cons b bs ih =>
    rw [looks_cons, otherwise_of_not_decides (h b List.mem_cons_self),
      ih fun c hc => h c (List.mem_cons_of_mem _ hc), List.flatMap_cons]

/-- **An operand decides**: the ones behind it are not looked at, and may be ill-formed. -/
theorem looks_decided (h : ∀ c ∈ bs, ¬ (look user c).Decides stop)
    (hb : (look user b).Decides stop) :
    looks user stop (bs ++ b :: cs)
      = ⟨bs.flatMap (fun c => (look user c).seen) ++ (look user b).seen, (look user b).value⟩ := by
  have hbs : ¬ (looks user stop bs).Decides stop := by
    rw [looks_undecided h]
    exact fun h => h rfl
  rw [looks_append, otherwise_of_not_decides hbs, looks_undecided h, looks_cons,
    otherwise_of_decides hb]

/-! ## 3. The algebra -/

mutual

/-- De Morgan's laws, at every depth. -/
theorem look_dual : ∀ b : Trait, look user b.dual = (look user b).negate
  | .user i => by rw [Trait.dual, look, look, look]
  | .constant b => by rw [Trait.dual, look, look]; rfl
  | .conjunction bs => by rw [Trait.dual, look, look]; exact looks_duals false bs
  | .disjunction bs => by rw [Trait.dual, look, look]; exact looks_duals true bs
  | .negation b => by rw [Trait.dual, look, negate_negate]

theorem looks_duals (stop : Bool) :
    ∀ bs : List Trait, looks user (!stop) (duals bs) = (looks user stop bs).negate
  | [] => by rw [duals, looks, looks]; rfl
  | b :: bs => by
    rw [duals, looks_cons, looks_cons, look_dual b, looks_duals stop bs, negate_otherwise]

end

theorem duals_map_negation : ∀ bs : List Trait, duals (bs.map .negation) = bs
  | [] => by rw [List.map_nil, duals]
  | b :: bs => by rw [List.map_cons, duals, Trait.dual, duals_map_negation bs]

/-- `conjunction` or `disjunction`, by the value that decides. -/
def Trait.logical : Bool → List Trait → Trait
  | false => .conjunction
  | true => .disjunction

theorem look_logical : look user (.logical stop bs) = looks user stop bs := by
  cases stop <;> rw [Trait.logical, look]

/-- A list among the operands of its own kind can be written out. -/
theorem looks_nested (user : ℕ → Option Bool) (stop : Bool) (bs cs ds : List Trait) :
    looks user stop (bs ++ .logical stop cs :: ds) = looks user stop (bs ++ cs ++ ds) := by
  rw [looks_append, looks_cons, look_logical, ← looks_append, ← looks_append, List.append_assoc]

/-- The negation of a list is the list of the negations, of the other kind. -/
theorem looks_map_negation (user : ℕ → Option Bool) (stop : Bool) (bs : List Trait) :
    looks user (!stop) (bs.map .negation) = (looks user stop bs).negate := by
  have h := @looks_duals user (!stop) (bs.map .negation)
  rw [duals_map_negation, Bool.not_not] at h
  rw [h, negate_negate]

/-- **The algebra of traits.**  A list of operands is looked at up to the first that decides,
whatever stands behind it; nesting, De Morgan's laws and the negation of a trait of any depth
change neither the value, nor whether there is one, nor what is looked at. -/
theorem logical_traits (user : ℕ → Option Bool) (stop : Bool) (bs cs ds : List Trait) (b : Trait) :
    ((∀ c ∈ bs, (look user c).value = some !stop) →
      look user (.logical stop bs) = ⟨bs.flatMap fun c => (look user c).seen, some !stop⟩ ∧
      ((look user b).value ≠ some !stop →
        look user (.logical stop (bs ++ b :: cs))
          = ⟨bs.flatMap (fun c => (look user c).seen) ++ (look user b).seen,
              (look user b).value⟩)) ∧
    look user (.logical stop (bs ++ .logical stop cs :: ds))
      = look user (.logical stop (bs ++ cs ++ ds)) ∧
    look user (.negation (.logical stop bs))
      = look user (.logical (!stop) (bs.map .negation)) ∧
    look user (.negation b) = look user b.dual := by
  refine ⟨fun h => ?_, ?_, ?_, ?_⟩
  · have hbs : ∀ c ∈ bs, ¬ (look user c).Decides stop := fun c hc hd => hd (h c hc)
    rw [look_logical, look_logical]
    exact ⟨looks_undecided hbs, looks_decided hbs⟩
  · rw [look_logical, look_logical, looks_nested]
  · rw [look, look_logical, look_logical, looks_map_negation]
  · rw [look, look_dual]

/-- Behind a false operand an ill-formed one is not looked at; in front of it it is. -/
theorem logical_traits_user :
    let user : ℕ → Option Bool := fun i => if i = 2 then none else some (i == 0)
    look user (.conjunction [.user 0, .user 1, .user 2]) = ⟨[0, 1], some false⟩ ∧
      look user (.conjunction [.user 0, .user 2, .user 1]) = ⟨[0, 2], none⟩ := by
  intro user
  have h0 : ∀ c ∈ [Trait.user 0], (look user c).value = some !false := by
    simp [look, user]
  have h1 := (logical_traits user false [.user 0] [.user 2] [] (.user 1)).1 h0
  have h2 := (logical_traits user false [.user 0] [.user 1] [] (.user 2)).1 h0
  exact ⟨h1.2 (by simp [look, user]), h2.2 (by simp [look, user])⟩

end CleoKernel.Types
