import Mathlib.Order.Defs.Unbundled
import QueryOptimizer.Proofs.Delivery.Alternative

/-!
# Good enough, and brought about

What is good enough for something that is good enough is good enough itself: on distributions,
on sort orders and on physical properties `satisfies` is a preorder. So a winner may stand in
for another one. Where a delivered property is not good enough, enforcers lead to one that is,
step by step, unless rows cannot be moved to the required distribution
(`Distribution.Unreachable`).

## Main results

* `Distribution.satisfies_iff`, `SortOrder.satisfies_iff`: when distributions and
  orders are good enough.
* `Distribution.motion?_eq_none_iff`: when no motion leads to a distribution.
* `PhysicalProperty.preorder_enforced`: `satisfies` is a preorder, and enforcers
  reach what is required.
-/

namespace QueryOptimizer

/-! ### Distributions -/

namespace Distribution

variable {d e f : Distribution}

/-- Whether a distribution is good enough for another kind, for other columns or
for other flags. -/
inductive Covers : Distribution → Distribution → Prop
  | any (d : Distribution) : Covers d any
  | nonSingleton {d : Distribution} (partitioned : d.isPartitioned = true) :
      Covers d nonSingleton
  | random {sensitive allowed : Bool} (tolerated : sensitive = true → allowed = true) :
      Covers (random sensitive) (random allowed)
  | strictRandom (allowed : Bool) : Covers strictRandom (random allowed)
  | hashed {cols wanted : List Column} {nulls wantedNulls : Bool}
      (duplicates wantedDuplicates : Bool) (within : hashesWithin cols wanted = true)
      (together : wantedNulls = true → nulls = true) :
      Covers (hashed cols nulls duplicates) (hashed wanted wantedNulls wantedDuplicates)
  | strictHashed {cols wanted : List Column} {nulls wantedNulls : Bool}
      (wantedDuplicates : Bool) (within : hashesWithin cols wanted = true)
      (together : wantedNulls = true → nulls = true) :
      Covers (strictHashed cols nulls) (hashed wanted wantedNulls wantedDuplicates)

/-- A test that is waived when another one fails is an implication. -/
theorem or_not_eq_true {a b : Bool} : (a || !b) = true ↔ (b = true → a = true) := by
  cases a <;> cases b <;> decide

/-- A distribution is good enough for itself and for what it covers. -/
theorem satisfies_iff : d.satisfies e = true ↔ d.bare = e.bare ∨ d.Covers e := by
  unfold satisfies
  rw [Bool.or_eq_true, beq_iff_bare]
  refine or_congr_right ⟨fun h => ?_, fun h => ?_⟩
  · cases e with
    | any => exact .any d
    | nonSingleton => exact .nonSingleton (by cases d <;> exact h)
    | random allowed =>
      cases d with
      | random sensitive => exact .random (or_not_eq_true.1 ((Bool.or_comm _ _).trans h))
      | strictRandom => exact .strictRandom allowed
      | _ => cases h
    | hashed wanted wantedNulls wantedDuplicates =>
      cases d with
      | hashed cols nulls duplicates =>
        obtain ⟨within, together⟩ := Bool.and_eq_true_iff.1 h
        exact .hashed duplicates wantedDuplicates within (or_not_eq_true.1 together)
      | strictHashed cols nulls =>
        obtain ⟨within, together⟩ := Bool.and_eq_true_iff.1 h
        exact .strictHashed wantedDuplicates within (or_not_eq_true.1 together)
      | _ => cases h
    | _ => cases d <;> cases h
  · cases h with
    | any => cases d <;> rfl
    | nonSingleton partitioned => cases d <;> exact partitioned
    | random tolerated => exact (Bool.or_comm _ _).trans (or_not_eq_true.2 tolerated)
    | strictRandom => rfl
    | hashed _ _ within together | strictHashed _ within together =>
      exact Bool.and_eq_true_iff.2 ⟨within, or_not_eq_true.2 together⟩

/-- Columns within columns that lie within others. -/
theorem hashesWithin_trans {cols middle wanted : List Column}
    (h : hashesWithin cols middle = true) (h' : hashesWithin middle wanted = true) :
    hashesWithin cols wanted = true := by
  obtain ⟨some, inner⟩ := Bool.and_eq_true_iff.1 h
  obtain ⟨-, outer⟩ := Bool.and_eq_true_iff.1 h'
  refine Bool.and_eq_true_iff.2 ⟨some, List.all_eq_true.2 fun c hc => ?_⟩
  obtain ⟨m, hm, same⟩ := List.contains_iff_exists_mem_beq.1 (List.all_eq_true.1 inner c hc)
  obtain ⟨w, hw, same'⟩ := List.contains_iff_exists_mem_beq.1 (List.all_eq_true.1 outer m hm)
  exact List.contains_iff_exists_mem_beq.2 ⟨w, hw, BEq.trans same same'⟩

/-- What covers a distribution without copies of rows has no copies itself. -/
theorem Covers.isPartitioned (h : d.Covers e) (partitioned : e.isPartitioned = true) :
    d.isPartitioned = true := by
  cases h with
  | any | nonSingleton => cases partitioned
  | random | strictRandom | hashed | strictHashed => rfl

/-- Covering is transitive for distributions. -/
theorem Covers.trans (h : d.Covers e) (h' : e.Covers f) : d.Covers f := by
  cases h' with
  | any => exact .any d
  | nonSingleton partitioned => exact .nonSingleton (h.isPartitioned partitioned)
  | random tolerated =>
    cases h with
    | random tolerated' => exact .random fun sensitive => tolerated (tolerated' sensitive)
    | strictRandom => exact .strictRandom _
  | hashed _ wantedDuplicates within together =>
    cases h with
    | hashed duplicates _ within' together' =>
      exact .hashed duplicates wantedDuplicates
          (hashesWithin_trans within' within) fun nulls =>
        together' (together nulls)
    | strictHashed _ within' together' =>
      exact .strictHashed wantedDuplicates (hashesWithin_trans within' within) fun nulls =>
        together' (together nulls)
  | strictRandom | strictHashed => cases h

/-- A distribution that is good enough for one that is good enough for a third one is
so for the third one. -/
theorem satisfies_trans (h : d.satisfies e = true) (h' : e.satisfies f = true) :
    d.satisfies f = true := by
  rcases satisfies_iff.1 h with same | covers
  · rwa [← satisfies_bare, same, satisfies_bare]
  · rcases satisfies_iff.1 h' with same' | covers'
    · rwa [← satisfies_bare, ← same', satisfies_bare]
    · exact satisfies_iff.2 (.inr (covers.trans covers'))

end Distribution

/-! ### Sort orders -/

/-- Keys are a prefix of others if they are not more and agree with them
position by position. -/
theorem SortKey.isPrefix_bare_iff (ks ls : List SortKey) :
    (decide (ks.length ≤ ls.length) && (ks.zip ls).all fun pair => pair.1 == pair.2) = true ↔
      ks.map SortKey.bare <+: ls.map SortKey.bare := by
  induction ks generalizing ls with
  | nil => simp
  | cons k ks ih =>
    cases ls with
    | nil => simp
    | cons l ls =>
      rw [List.map_cons, List.map_cons, List.cons_prefix_cons, ← ih, ← SortKey.beq_iff_bare]
      simp only [List.length_cons, Nat.add_le_add_iff_right, List.zip_cons_cons, List.all_cons,
        Bool.and_eq_true, and_left_comm]

namespace SortOrder

variable {o p q : SortOrder}

/-- An order is good enough for the orders that it begins with. -/
theorem satisfies_iff : o.satisfies p = true ↔ p.bare.keys <+: o.bare.keys :=
  SortKey.isPrefix_bare_iff p.keys o.keys

/-- A sort order that is good enough for one that is good enough for a third one is
so for the third one. -/
theorem satisfies_trans (h : o.satisfies p = true) (h' : p.satisfies q = true) :
    o.satisfies q = true :=
  satisfies_iff.2 ((satisfies_iff.1 h').trans (satisfies_iff.1 h))

end SortOrder

/-! ### Motions -/

/-- Whether rows cannot be moved to a distribution, be it that motions are switched off, or
that it asks for nothing or hashes by no column. -/
def Distribution.Unreachable (flags : TraceFlags) : Distribution → Prop
  | any => True
  | singleton => flags.disableMotions = true
  | replicated => flags.disableMotions = true ∨ flags.disableMotionBroadcast = true
  | nonSingleton | random _ | strictRandom =>
    flags.disableMotions = true ∨ flags.disableMotionRandom = true
  | hashed cols _ _ | strictHashed cols _ => flags.disableMotions = true ∨ cols = []

/-- There is no motion to a distribution exactly when rows cannot be moved there. -/
theorem Distribution.motion?_eq_none_iff {d : Distribution} {flags : TraceFlags} :
    d.motion? flags = none ↔ d.Unreachable flags := by
  cases off : flags.disableMotions with
  | true => cases d <;> simp [motion?, Unreachable, off]
  | false =>
    cases d with
    | hashed cols | strictHashed cols =>
      cases cols <;> simp [motion?, Motion.toward?, isMovable, Motion.kind, Unreachable, off]
    | _ => simp [motion?, Motion.toward?, isMovable, Motion.kind, Unreachable, off]

/-! ### Enforcers -/

namespace Enforcer

/-- Whether the operator of an enforcer, asked for what the enforcer delivers, delivers that on
top of something as good as a property. -/
def Accepts (e : Enforcer) (below : PhysicalProperty) : Prop :=
  ∀ outs, ∃ required, e.operator.alternatives e.delivers outs =
    .ok [⟨e.delivers, [required]⟩] ∧ below.satisfies required = true

/-- Whether enforcers lead from one property to another, each of them on top of
what it accepts. -/
inductive Leads : PhysicalProperty → List Enforcer → PhysicalProperty → Prop
  | nil (p : PhysicalProperty) : Leads p [] p
  | cons {p q : PhysicalProperty} {e : Enforcer} {es : List Enforcer} (accepts : e.Accepts p)
      (rest : Leads e.delivers es q) : Leads p (e :: es) q

/-- Whether the first of two enforcers moves rows and the second one sorts them. -/
def MotionThenSort (e f : Enforcer) : Prop :=
  (∃ m, e.operator = .motion m) ∧ ∃ o, f.operator = .sort o

/-- A sort accepts any property below it. -/
theorem accepts_sort (o : SortOrder) (below : PhysicalProperty) :
    Accepts ⟨.sort o, { below with order := o }⟩ below :=
  fun _ => ⟨_, rfl, below.satisfies_ofDistribution⟩

/-- A motion accepts any property below it. -/
theorem accepts_motion (m : Motion) (below : PhysicalProperty) :
    Accepts ⟨.motion m, .ofDistribution m.target⟩ below :=
  fun _ => ⟨_, rfl, below.satisfies_any⟩

end Enforcer

namespace PhysicalProperty

open Enforcer

variable {p q required current delivered : PhysicalProperty} {flags : TraceFlags}

/-- A property that is good enough for one that is good enough for a third one is
so for the third one. -/
theorem satisfies_trans {r : PhysicalProperty} (h : p.satisfies q = true)
    (h' : q.satisfies r = true) : p.satisfies r = true := by
  obtain ⟨spread, order⟩ := Bool.and_eq_true_iff.1 h
  obtain ⟨spread', order'⟩ := Bool.and_eq_true_iff.1 h'
  exact Bool.and_eq_true_iff.2
    ⟨Distribution.satisfies_trans spread spread', SortOrder.satisfies_trans order order'⟩

/-- No sort is missing if the order is good enough. -/
theorem sortEnforcers_eq_nil_iff :
    required.sortEnforcers current = [] ↔ current.order.satisfies required.order = true := by
  unfold sortEnforcers
  split <;> simp_all

/-- Where the distribution is good enough, the sort that is missing leads to the
required property. -/
theorem leads_sortEnforcers
    (placed : current.distribution.satisfies required.distribution = true) :
    ∃ last, Leads current (required.sortEnforcers current) last ∧
      last.satisfies required = true := by
  unfold sortEnforcers
  split
  · rename_i sorted
    exact ⟨current, .nil current, by simp [satisfies, placed, sorted]⟩
  · exact ⟨_, .cons (accepts_sort _ current) (.nil _), by simp [satisfies, placed]⟩

/-- Enforcers, if there are any, lead to something as good as required. -/
theorem leads_enforcers (required delivered : PhysicalProperty) (flags : TraceFlags) :
    ∃ last, Leads delivered (required.enforcers delivered flags) last ∧
      (required.enforcers delivered flags ≠ [] → last.satisfies required = true) := by
  unfold enforcers
  split
  · rename_i placed
    obtain ⟨last, leads, good⟩ := leads_sortEnforcers placed
    exact ⟨last, leads, fun _ => good⟩
  · cases found : required.distribution.motion? flags with
    | none => exact ⟨delivered, .nil delivered, fun some => absurd rfl some⟩
    | some m =>
      have moves : Accepts ⟨.motion m, .ofDistribution required.distribution⟩ delivered :=
        target_of_motion? found ▸ accepts_motion m delivered
      have placed : (ofDistribution required.distribution).distribution.satisfies
          required.distribution = true :=
        Distribution.satisfies_refl _
      obtain ⟨last, leads, good⟩ := leads_sortEnforcers placed
      exact ⟨last, .cons moves leads, fun _ => good⟩

/-- Motions come before sorts. -/
theorem pairwise_enforcers (required delivered : PhysicalProperty) (flags : TraceFlags) :
    (required.enforcers delivered flags).Pairwise MotionThenSort := by
  have sorts (current : PhysicalProperty) : ∀ e ∈ required.sortEnforcers current, ∃ o,
      e.operator = .sort o := by
    unfold sortEnforcers
    split <;> simp
  have single (current : PhysicalProperty) :
      (required.sortEnforcers current).Pairwise MotionThenSort := by
    unfold sortEnforcers
    split <;> simp
  unfold enforcers
  split
  · exact single delivered
  · split
    · exact .nil
    · rename_i m _
      exact List.pairwise_cons.2 ⟨fun e he => ⟨⟨m, rfl⟩, sorts _ e he⟩, single _⟩

/-- There are no enforcers exactly when none are needed or rows cannot be moved as required. -/
theorem enforcers_eq_nil_iff : required.enforcers delivered flags = [] ↔
    delivered.satisfies required = true ∨
      delivered.distribution.satisfies required.distribution = false ∧
        required.distribution.Unreachable flags := by
  unfold enforcers
  cases placed : delivered.distribution.satisfies required.distribution with
  | true => simp [sortEnforcers_eq_nil_iff, satisfies, placed]
  | false =>
    rw [← Distribution.motion?_eq_none_iff]
    cases required.distribution.motion? flags <;> simp [satisfies, placed]

/-- What is good enough is a preorder, for distributions, for orders and for both together.
Enforcers lead from what is delivered to something as good as required; each of them works on a
property that its operator accepts, and rows are moved before they are sorted. There are none
exactly when the delivered property is good enough already, or when its distribution is not and
rows cannot be moved as required. -/
theorem preorder_enforced :
    (IsPreorder Distribution fun d e => d.satisfies e = true) ∧
    (IsPreorder SortOrder fun o p => o.satisfies p = true) ∧
    (IsPreorder PhysicalProperty fun p q => p.satisfies q = true) ∧
    ∀ (required delivered : PhysicalProperty) (flags : TraceFlags),
      (∃ last, Leads delivered (required.enforcers delivered flags) last ∧
        (required.enforcers delivered flags ≠ [] → last.satisfies required = true)) ∧
      (required.enforcers delivered flags).Pairwise MotionThenSort ∧
      (required.enforcers delivered flags = [] ↔
        delivered.satisfies required = true ∨
          delivered.distribution.satisfies required.distribution = false ∧
            required.distribution.Unreachable flags) := by
  refine ⟨?_, ?_, ?_, fun required delivered flags =>
    ⟨leads_enforcers required delivered flags, pairwise_enforcers required delivered flags,
      enforcers_eq_nil_iff⟩⟩
  · exact { refl := Distribution.satisfies_refl, trans := fun _ _ _ =>
      Distribution.satisfies_trans }
  · exact { refl := SortOrder.satisfies_refl, trans := fun _ _ _ => SortOrder.satisfies_trans }
  · exact { refl := satisfies_refl, trans := fun _ _ _ => satisfies_trans }

end PhysicalProperty

end QueryOptimizer
