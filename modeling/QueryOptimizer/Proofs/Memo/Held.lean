import QueryOptimizer.Proofs.Memo.Model
import QueryOptimizer.Proofs.Plan.Meaning

/-!
# Plans that a memo holds

One expression of a memo stands for many plans: each of its inputs can be any plan that can be
read off the group of the input (`Memo.Holds`). In a modelled memo all plans that can be read
off a group mean what the group means.

## Main results

* `Memo.Models.meaning_of_holds`: all plans of a group mean the same.
* `Memo.exists_holds`: there is a plan for each group, if every group was started by an
  expression over earlier groups.
* `Memo.Models.determined`: without limits such a plan has one possible result.
-/

namespace QueryOptimizer

variable {K : Type}

namespace Memo

mutual

/-- Whether a plan can be read off a memo at a logical expression: the inputs of the plan can
be read off logical expressions of the groups that are the inputs of the expression. -/
def HoldsAt (m : Memo K) (place : ExprId) : Plan K → Prop
  | ⟨_, op, inputs, _⟩ => ∃ ids,
    m.key? place = some ⟨op, ids⟩ ∧ op.isLogical = true ∧ m.HoldsBelow ids inputs
termination_by structural p => p

/-- Whether plans can be read off some groups, one off each. -/
def HoldsBelow (m : Memo K) : List GroupId → List (Plan K) → Prop
  | [], [] => True
  | id :: ids, p :: ps => (∃ place : ExprId, place.group = id ∧ m.HoldsAt place p) ∧
    m.HoldsBelow ids ps
  | _, _ => False
termination_by structural _ ps => ps

end

/-- Whether a plan can be read off a group. -/
def Holds (m : Memo K) (id : GroupId) (p : Plan K) : Prop :=
  ∃ place : ExprId, place.group = id ∧ m.HoldsAt place p

/-- Groups hold plans one by one. -/
theorem holdsBelow_iff {m : Memo K} {ids : List GroupId} {ps : List (Plan K)} :
    m.HoldsBelow ids ps ↔ List.Forall₂ m.Holds ids ps := by
  induction ps generalizing ids with
  | nil => cases ids <;> simp [HoldsBelow]
  | cons p ps ih =>
    cases ids with
    | nil => simp [HoldsBelow]
    | cons id ids =>
      simp only [HoldsBelow, List.forall₂_cons, ih]
      rfl

/-! ### Every expression stands for a plan -/

/-- If each group holds a plan, the groups hold some plans. -/
theorem exists_forall₂_holds {m : Memo K} {ids : List GroupId}
    (h : ∀ i ∈ ids, ∃ p, m.Holds i p) : ∃ ps, List.Forall₂ m.Holds ids ps := by
  induction ids with
  | nil => exact ⟨[], .nil⟩
  | cons id ids ih =>
    obtain ⟨p, hp⟩ := h id (by simp)
    obtain ⟨ps, hps⟩ := ih fun i hi => h i (List.mem_cons_of_mem id hi)
    exact ⟨p :: ps, .cons hp hps⟩

/-- An expression holds a plan if each of its inputs does. -/
theorem exists_holdsAt_of_inputs {m : Memo K} {place : ExprId} {op : LogicalOperator}
    {ids : List GroupId} (hk : m.key? place = some ⟨.logical op, ids⟩)
    (h : ∀ i ∈ ids, ∃ p, m.Holds i p) : ∃ p, m.HoldsAt place p := by
  obtain ⟨ps, hps⟩ := exists_forall₂_holds h
  refine ⟨⟨0, .logical op, ps, none⟩, ?_⟩
  simp only [HoldsAt]
  exact ⟨ids, hk, rfl, holdsBelow_iff.2 hps⟩

/-- There is a plan for every group, if each was started by an expression over earlier ones. -/
theorem exists_holds {m : Memo K} (started : ∀ id < m.groups.size, m.Started id) (id : GroupId)
    (inside : id < m.groups.size) : ∃ p, m.Holds id p := by
  induction id using Nat.strong_induction_on with
  | _ id ih =>
    obtain ⟨place, op, ids, hplace, hk, below⟩ := started id inside
    obtain ⟨p, hp⟩ := exists_holdsAt_of_inputs hk fun i hi =>
      ih i (below i hi) (Nat.lt_trans (below i hi) inside)
    exact ⟨p, place, hplace, hp⟩

/-! ### Meanings of plans -/

variable [Quantity K] {env : Environment K} {I : Interpretation} {db : Database}
  {A : Analysis env I db} {m : Memo K} {μ : GroupId → Meaning}

namespace Models

mutual

/-- The plans that an expression holds mean what its group does. -/
theorem meaning_of_holdsAt (h : m.Models A μ) : ∀ {place : ExprId} {p : Plan K},
    m.HoldsAt place p → p.meaning I db = μ place.group
  | place, ⟨id, .logical op, inputs, estimate⟩, held => by
    simp only [HoldsAt] at held
    obtain ⟨ids, hk, -, below⟩ := held
    rw [Plan.meaning, h.meanings_of_holdsBelow below]
    exact h.meaning hk
  | place, ⟨id, .physical op, inputs, estimate⟩, held => by
    simp only [HoldsAt] at held
    obtain ⟨ids, -, physical, -⟩ := held
    cases physical

/-- The plans that groups hold mean what the groups do. -/
theorem meanings_of_holdsBelow (h : m.Models A μ) :
    ∀ {ids : List GroupId} {ps : List (Plan K)},
    m.HoldsBelow ids ps → Plan.meanings I db ps = ids.map μ
  | [], [], _ => by simp only [Plan.meanings, List.map_nil]
  | id :: ids, p :: ps, held => by
    simp only [HoldsBelow] at held
    obtain ⟨⟨place, rfl, first⟩, rest⟩ := held
    rw [Plan.meanings, List.map_cons, h.meaning_of_holdsAt first,
      h.meanings_of_holdsBelow rest]
  | [], _ :: _, held | _ :: _, [], held => by
    simp only [HoldsBelow] at held

end

/-- All plans that can be read off a group mean what the group means. -/
theorem meaning_of_holds (h : m.Models A μ) {id : GroupId} {p : Plan K} (held : m.Holds id p) :
    p.meaning I db = μ id := by
  obtain ⟨place, rfl, held⟩ := held
  exact h.meaning_of_holdsAt held

/-- Without limits there is one possible result. -/
theorem determined (h : m.Models A μ) (started : ∀ id < m.groups.size, m.Started id)
    (noLimit : ∀ op, A.admits op → op.isLimit = false) (id : GroupId)
    (inside : id < m.groups.size) : (μ id).Determined := by
  induction id using Nat.strong_induction_on with
  | _ id ih =>
    obtain ⟨place, op, ids, rfl, hk, below⟩ := started id inside
    rw [← h.meaning hk]
    refine (h.inScope hk).fits.determined (noLimit op (h.admits hk)) fun M hM => ?_
    obtain ⟨i, hi, rfl⟩ := List.mem_map.1 hM
    exact ih i (below i hi) (Nat.lt_trans (below i hi) inside)

end Models

end Memo

end QueryOptimizer
