import QueryOptimizer.Proofs.Derivation.Keys
import QueryOptimizer.Proofs.Search.Described

/-!
# Derived keys tell rows apart

No two rows of a group agree on a key that is derived for the group, in every memo that the
search can reach from a plan: declared keys of stored tables tell their rows apart, and rules
make only operators for which keys are derived in the right way.

## Main results

* `Memo.Reached.uniqueOn_keys`: derived keys tell the rows of a group apart.
-/

namespace QueryOptimizer

variable {K : Type} [Quantity K]

/-! ### Operators that rules make -/

/-- Rules make joins that equate the columns of given joins only. -/
theorem RuleClosed.equalsExactly (D : Domains) :
    RuleClosed (LogicalOperator.EqualsExactly D) where
  conjunction hp hq sub made := Scalar.forall_conjuncts_conjoin? hp hq sub made
  always _ := Scalar.forall_conjuncts_ofBool fun l r equated => by cases equated
  select _ := trivial
  apply _ := Scalar.forall_conjuncts_ofBool fun l r equated => by cases equated
  limit _ _ _ := trivial
  unionAll h := h
  distinct _ := trivial
  sameRow _ _ made :=
    Scalar.forall_conjuncts_sameRow? (fun _ _ _ l r equated => by cases equated) made
  rename _ _ := trivial

/-- Rules make no operators that read stored or shared rows. -/
theorem RuleClosed.respectsKeys (db : Database) (producers : Set CteProducer) :
    RuleClosed (LogicalOperator.RespectsKeys db producers) :=
  .of_ofRule fun _ made => by cases made <;> trivial

/-! ### Groups -/

/-- Derived keys tell rows apart. -/
def Analysis.keys (env : Environment K) (I : Interpretation) (db : Database) (D : Domains)
    (producers : Set CteProducer) : Analysis env I db where
  admits op := op.StaysWithin I db D ∧ op.EqualsExactly D ∧ op.RespectsKeys db producers
  describes := Relation.Keyed D
  shares := CteInfo.Keyed db D producers
  closed := (RuleClosed.staysWithin I db D).and
    ((RuleClosed.equalsExactly D).and (RuleClosed.respectsKeys db producers))
  output keyed := keyed.produces
  derive admits scope sound rels shared derived :=
    LogicalOperator.keyed_of_derive scope.fits sound admits.1 admits.2.1 admits.2.2 rels shared
      (LogicalOperator.derived_of_eq_ok derived)

namespace Plan

/-- Whether keys mean for a plan what they should. -/
structure RespectsKeys (I : Interpretation) (db : Database) (D : Domains) (p : Plan K) :
    Prop where
  /-- The values of every column are in its domain. -/
  within : ∀ q ∈ p.nodes, ∀ op, q.operator = .logical op → op.StaysWithin I db D
  /-- Joins equate columns that are equal for one value at most, such as columns
  of one type. -/
  exact : ∀ q ∈ p.nodes, ∀ op, q.operator = .logical op → op.EqualsExactly D
  /-- Declared keys tell stored rows apart, and shared results are read under new columns. -/
  keys : ∀ q ∈ p.nodes, ∀ op, q.operator = .logical op → op.RespectsKeys db p.producers
  shares : p.Shares I db

/-- A plan that respects keys is covered by the analysis of keys. -/
theorem RespectsKeys.covers {I : Interpretation} {db : Database} {D : Domains} {p : Plan K}
    (h : p.RespectsKeys I db D) (wf : p.WellFormed) (env : Environment K) :
    (Analysis.keys env I db D p.producers).Covers p where
  wellFormed := wf
  admits q hq op hop := ⟨h.within q hq op hop, h.exact q hq op hop, h.keys q hq op hop⟩
  registers q hq c hc _ keyed :=
    { producer := ⟨c, ⟨q, hq, hc⟩, rfl, rfl⟩
      keys_subset S hS := output_of_producer hc ▸ keyed.keys_subset S hS
      unique env henv S hS := keyed.unique env henv _ (h.shares q hq c hc env) S hS }

end Plan

namespace Memo

variable {env : Environment K}

/-- Derived keys tell the rows of a group apart in every memo that a search can reach,
whichever rules are enabled: there are plans for the group, and no two rows that one of them
results in agree on all columns of a key. -/
theorem Reached.uniqueOn_keys (I : Interpretation) (db : Database) {D : Domains}
    {plan : Plan K} (wf : plan.WellFormed) (respects : plan.RespectsKeys I db D)
    {m m' : Memo K} (loaded : Memo.ofPlan env plan = .ok m) (reached : Reached env m m') :
    ∀ id r, m'.relation? id = some r → (∃ p, m'.Holds id p) ∧ ∀ p, m'.Holds id p →
      ∀ row : Row, row.Within D → ∀ bag ∈ (p.meaning I db).results row,
        ∀ S ∈ r.property.keys.sets, bag.UniqueOn S.idSet := by
  intro id r hr
  obtain ⟨some, described⟩ := reached.described (respects.covers wf env) loaded hr
  exact ⟨some, fun p held row hrow bag hbag S hS =>
    (described p held).unique row hrow bag hbag S hS⟩

end Memo

/-! ### An example -/

namespace Sample

def deliveries : Table where
  id := 1
  name := "deliveries"
  columns := [⟨"number", .integer .int64, false⟩, ⟨"customer", .integer .int64, false⟩]
  keys := [[0]]

def customers : Table where
  id := 2
  name := "customers"
  columns := [⟨"id", .integer .int64, false⟩]
  keys := [[0]]

def customer : Column := ⟨2, .integer .int64, -1, "customer", .table 1 1 false 8⟩

def known : Column := ⟨3, .integer .int64, -1, "id", .table 2 0 false 8⟩

def delivered : LogicalOperator := .get ⟨deliveries, [number, customer]⟩

def registered : LogicalOperator := .get ⟨customers, [known]⟩

def receives : LogicalOperator :=
  .join ⟨.leftOuter, .binary .eq (.column customer) (.column known)⟩

/-- The deliveries with their customers, which a key of deliveries tells apart. -/
def keyedPlan : Plan Binary64 where
  id := 2
  operator := .logical receives
  inputs := [⟨0, .logical delivered, [], none⟩, ⟨1, .logical registered, [], none⟩]

/-- There are two deliveries to customer 7 and one to somebody who is no customer. -/
def keyedContents : Database where
  table id := if id = 1 then
      {[some (.integer .int64 1), some (.integer .int64 7)],
       [some (.integer .int64 2), some (.integer .int64 7)],
       [some (.integer .int64 3), some (.integer .int64 9)]}
    else {[some (.integer .int64 7)]}
  shared _ _ := 0

/-- The sample has three nodes. -/
theorem mem_nodes_keyedPlan {q : Plan Binary64} : q ∈ keyedPlan.nodes ↔
    q = keyedPlan ∨ q = ⟨0, .logical delivered, [], none⟩ ∨
      q = ⟨1, .logical registered, [], none⟩ := by
  simp [keyedPlan, Plan.nodes, Plan.nodesBelow]

/-- The sample is well formed. -/
theorem wellFormed_keyedPlan : keyedPlan.WellFormed where
  fits := by
    simp only [mem_nodes_keyedPlan, forall_eq_or_imp, forall_eq]
    refine ⟨⟨_, rfl, .join ?_⟩, ⟨_, rfl, .get ?_⟩, _, rfl, .get ?_⟩
    · decide
    · unfold Column.Distinct
      decide
    · exact List.nodup_singleton _
  closed := by decide
  sameNode := by
    simp only [mem_nodes_keyedPlan]
    rintro q (rfl | rfl | rfl) r (rfl | rfl | rfl) same <;> first | rfl | cases same
  oneProducer := by
    simp only [mem_nodes_keyedPlan]
    rintro q (rfl | rfl | rfl) r - a b producer <;> cases producer

/-- The sample respects keys. -/
theorem respectsKeys_keyedPlan :
    keyedPlan.RespectsKeys .strict keyedContents wholeNumbers where
  within := by
    simp only [mem_nodes_keyedPlan]
    rintro q (rfl | rfl | rfl) op hop <;> cases hop
    · trivial
    · intro t ht
      refine within_wholeNumbers fun v hv => ?_
      simp only [keyedContents, deliveries, if_true, Multiset.insert_eq_cons,
        Multiset.mem_cons, Multiset.mem_singleton] at ht
      rcases ht
        with rfl | rfl | rfl <;>
        simp only [List.mem_cons, List.not_mem_nil, or_false] at hv <;>
        rcases hv with rfl | rfl <;> exact ⟨_, rfl⟩
    · intro t ht
      refine within_wholeNumbers fun v hv => ?_
      obtain rfl := Multiset.mem_singleton.1 ht
      exact ⟨7, List.mem_singleton.1 hv⟩
  exact := by
    simp only [mem_nodes_keyedPlan]
    rintro q (rfl | rfl | rfl) op hop <;> cases hop
    · exact fun c hc l r _ => Domains.exact_ofTypes rfl
    · trivial
    · trivial
  keys := by
    simp only [mem_nodes_keyedPlan]
    rintro q (rfl | rfl | rfl) op hop <;> cases hop
    · trivial
    · simp [delivered, LogicalOperator.RespectsKeys, Table.KeysDiffer,
        keyedContents, deliveries]
    · simp [registered, LogicalOperator.RespectsKeys, Table.KeysDiffer,
        keyedContents, customers]
  shares := by
    simp only [Plan.Shares, mem_nodes_keyedPlan]
    rintro q (rfl | rfl | rfl) c producer <;> cases producer

/-- The sample can be loaded. -/
theorem exists_ofPlan_keyedPlan : ∃ m, Memo.ofPlan setting keyedPlan = .ok m :=
  Memo.exists_ofPlan_of_derivation rfl (by simp [delivered]) (by simp [registered])
    (by decide +kernel)

end Sample

namespace Memo

open Sample in
/-- Deliveries joined with the customers that receive them: the rows of every group
are unique on its keys. -/
theorem uniqueOn_keys_sample : ∃ m, Memo.ofPlan setting keyedPlan = .ok m ∧
    ∀ id r, (optimize setting 1000 .any Stage.defaults m).memo.relation? id = some r →
      (∃ p, (optimize setting 1000 .any Stage.defaults m).memo.Holds id p) ∧
      ∀ p, (optimize setting 1000 .any Stage.defaults m).memo.Holds id p →
        ∀ row : Row, row.Within wholeNumbers →
          ∀ bag ∈ (p.meaning .strict keyedContents).results row,
            ∀ S ∈ r.property.keys.sets, bag.UniqueOn S.idSet := by
  obtain ⟨m, loaded⟩ := exists_ofPlan_keyedPlan
  exact ⟨m, loaded, Reached.uniqueOn_keys .strict keyedContents wellFormed_keyedPlan
    respectsKeys_keyedPlan loaded (reached_optimize 1000 .any Stage.defaults m)⟩

end Memo

end QueryOptimizer
