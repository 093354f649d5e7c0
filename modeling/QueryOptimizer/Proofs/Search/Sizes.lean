import QueryOptimizer.Proofs.Derivation.Sizes
import QueryOptimizer.Proofs.Memo.Winners
import QueryOptimizer.Proofs.Search.Exploration
import QueryOptimizer.Proofs.Search.Reached

/-!
# What is derived in a search

What derivations hand on from inputs to results (`Environment.HandsOn`) holds of every group
and of every shared result, in the memo of a plan and in all that searches make of it. The
environments of loading and searching may differ.

So the statistics of all groups are sized, and the costs of their expressions are amounts.

## Main results

* `Memo.Relates.of_ofPlan`, `Memo.Reached.relates`: what is handed on holds of all relations.
* `Memo.Sized.zero_le_operatorCost`: the cost of an expression is an amount,
  unless it is an enforcer.
-/

namespace QueryOptimizer

variable {K : Type} {P : Relation K → Prop} {m m' : Memo K}

namespace Memo

/-- Whether what is derived about groups, and what is shared, is as `P` says. -/
structure Relates (P : Relation K → Prop) (m : Memo K) : Prop where
  groups : ∀ {id r}, m.relation? id = some r → P r
  ctes : ∀ entry ∈ m.ctes, P entry.2.toRelation

/-- Whether the relations of a memo are as `P` says if those of another one are,
which it came from. -/
def HandsOn (P : Relation K → Prop) (m m' : Memo K) : Prop :=
  m.Relates P → m'.Relates P

instance : IsTrans (Memo K) (HandsOn P) where
  trans _ _ _ h h' := h' ∘ h

namespace Relates

/-- The empty memo has no relations. -/
theorem empty : ({} : Memo K).Relates P :=
  ⟨fun hr => by simp [relation?] at hr, fun _ hentry => by cases hentry⟩

/-- Bookkeeping keeps relations as they are. -/
theorem like (h : m.Relates P) (like : m.Like m') : m'.Relates P :=
  ⟨fun hr => h.groups ((like.relation _).symm.trans hr), like.ctes ▸ h.ctes⟩

/-- The relations of groups are as all relations are. -/
theorem relations (h : m.Relates P) {ids : List GroupId} {rels : Inputs K}
    (known : m.relations ids = .ok rels) : ∀ r ∈ rels, P r := by
  intro r hr
  obtain ⟨id, -, hid⟩ := exists_of_mem_right (relations_eq_ok.1 known) hr
  exact h.groups hid

/-- Adding an expression keeps relations as they are. -/
theorem addExpr (h : m.Relates P) {id : GroupId} {key : ExprKey} {place : ExprId}
    (added : m.addExpr id key = .ok (m', place)) : m'.Relates P :=
  ⟨fun hr => h.groups ((relation?_addExpr added _).symm.trans hr), ctes_addExpr added ▸ h.ctes⟩

/-- A new group keeps relations as they are if its own one is so. -/
theorem addGroup (h : m.Relates P) (op : LogicalOperator) {r : Relation K} (hr : P r) :
    (m.addGroup op r).Relates P := by
  refine ⟨fun {id s} hs => ?_, fun entry hentry => ?_⟩
  · rw [relation?_addGroup] at hs
    split at hs
    · exact Option.some.inj hs ▸ hr
    · exact h.groups hs
  · rcases mem_ctes_addGroup m op r hentry with old | ⟨p, -, rfl⟩
    · exact h.ctes entry old
    · exact hr

/-- Truncation keeps relations as they are. -/
theorem truncate (h : m.Relates P) (count : Nat) : (m.truncate count).Relates P := by
  refine ⟨fun {id r} hr => ?_, ctes_truncate m count ▸ h.ctes⟩
  rw [relation?_truncate] at hr
  split at hr
  · exact h.groups hr
  · cases hr

end Relates

end Memo

variable [Quantity K] {env : Environment K}

/-- Whether what is derived from relations as `P` says is so, too. -/
def Environment.HandsOn (env : Environment K) (P : Relation K → Prop) : Prop :=
  ∀ {op : LogicalOperator} {ctes : CteTable K} {rels : Inputs K} {r : Relation K},
    (∀ s ∈ rels, P s) → (∀ entry ∈ ctes, P entry.2.toRelation) →
    op.derive env ctes rels = .ok r → P r

namespace Memo

open MemoM

/-! ### Entering expressions -/

section HandsOn

variable (derives : env.HandsOn P)
include derives

/-- Loading keeps relations as they are if derivation does. -/
theorem loadRelation_handsOn : LoadRelation env (HandsOn P) where
  toIsTrans := inferInstance
  self _ := id
  startKey {m} key _ := by
    unfold Leads
    obtain ⟨_, -, run⟩ | ⟨_, run⟩ | ⟨op, _, rels, r, _, _, -, -, hrels, derived, added, run⟩ :=
      insertKey_none_cases env key m
    · rw [run]
      exact ⟨id, fun _ _ => trivial⟩
    · rw [run]
      exact ⟨id, fun _ _ => trivial⟩
    · rw [run]
      exact ⟨fun h =>
        (h.addGroup op (derives (h.relations hrels) h.ctes derived)).addExpr added,
          fun _ _ => trivial⟩

omit derives in
/-- Entering an expression into a group derives nothing. -/
theorem insertKey_some_leads_handsOn (key : ExprKey) (group : GroupId) :
    (insertKey env key (some group)).Leads (HandsOn P) m fun _ _ => True := by
  unfold Leads
  rw [exec_insertKey_some]
  split
  · exact ⟨id, fun _ _ => trivial⟩
  · split
    · rename_i added
      exact ⟨fun h => h.addExpr added, fun _ _ => trivial⟩
    · exact ⟨id, fun _ _ => trivial⟩

/-- Inserting a tree into a group keeps relations as they are if derivation does. -/
theorem insertNode_leads_handsOn (t : ExprTree) (group : GroupId) :
    (insertNode env (some group) t).Leads (HandsOn P) m fun _ _ => True := by
  cases t with
  | group i => exact .throw id _
  | expr i inputs => exact .pure id trivial
  | operator op inputs =>
    exact ((loadRelation_handsOn derives).insertInputs inputs id).bind fun ids m' _ _ =>
      insertKey_some_leads_handsOn ⟨op, ids⟩ group

/-- Entering a tree hands on what is derived, also when it fails in the middle. -/
theorem insertTree_leads_handsOn (t : ExprTree) (group : GroupId) :
    (insertTree env t (some group)).Leads (HandsOn P) m fun _ _ => True := by
  obtain ⟨entered, -⟩ : (insertNode env (some group) t).Leads (HandsOn P) m fun _ _ => True :=
    insertNode_leads_handsOn derives t group
  unfold Leads
  simp only [insertTree, exec_bind, exec_get, exec_tryCatch]
  rcases run : (insertNode env (some group) t).exec m with ⟨e | r, m'⟩
  · rw [run] at entered
    exact ⟨fun h => (entered h).truncate _, fun _ _ => trivial⟩
  · rw [run] at entered
    exact ⟨entered, fun _ _ => trivial⟩

/-! ### Plans and searches -/

/-- The relations of the memo of a plan. -/
theorem Relates.of_ofPlan {plan : Plan K} (made : Memo.ofPlan env plan = .ok m) :
    m.Relates P := by
  obtain ⟨group, m', handsOn, rfl⟩ := (loadRelation_handsOn derives).of_ofPlan id made
  exact ⟨(handsOn .empty).groups, (handsOn .empty).ctes⟩

end HandsOn

/-- A memo in order with relations as `P` says that another one has grown into. -/
structure StaysRelated (P : Relation K → Prop) (m m' : Memo K) : Prop where
  extended : m.Extends m'
  filed : m'.Filed
  relates : m'.Relates P

/-- Steps of a search keep relations as they are if derivation does. -/
theorem stepRelation_staysRelated (derives : env.HandsOn P) :
    StepRelation env (StaysRelated P) where
  trans _ _ _ h h' := ⟨h.extended.trans h'.extended, h'.filed, h'.relates⟩
  self h := ⟨.refl _, h.filed, h.relates⟩
  extended h := h.extended
  like h like := ⟨.ofLike like, h.filed.like like, h.relates.like like⟩
  tree {m id _ t t'} h _ _ binds made := by
    obtain ⟨fills, -⟩ : (Memo.insertTree env t' (some id.group)).Leads Fills m
        fun r m' => m'.Contains r.1.group t' :=
      h.filed.insertTree (RuleId.isEnforcer_of_apply binds made) id.group
    obtain ⟨handsOn, -⟩ : (Memo.insertTree env t' (some id.group)).Leads (HandsOn P) m
        fun _ _ => True :=
      insertTree_leads_handsOn derives t' id.group
    exact ⟨⟨fills.extended, fills.filed, handsOn h.relates⟩, fun _ _ => trivial⟩
  enforcer {m op group} h _ := by
    let key : ExprKey := ⟨.physical op, [group]⟩
    obtain ⟨fills, -⟩ : (Memo.insertKey env key (some group)).Leads Fills m fun r m' =>
        ∃ k, m'.key? r.1 = some k ∧ (k == key) = true :=
      h.filed.insertKey key group fun _ => rfl
    obtain ⟨handsOn, -⟩ : (Memo.insertKey env key (some group)).Leads (HandsOn P) m
        fun _ _ => True :=
      insertKey_some_leads_handsOn key group
    exact ⟨⟨fills.extended, fills.filed, handsOn h.relates⟩, fun _ _ => trivial⟩

/-- The relations of the memos that a search reaches. -/
theorem Reached.relates (derives : env.HandsOn P) (filed : m.Filed) (relates : m.Relates P)
    (reached : Reached env m m') : m'.Relates P :=
  (reached.of_steps (stepRelation_staysRelated derives) ⟨.refl m, filed, relates⟩).relates

/-! ### Sizes -/

/-- Whether the statistics of all relations are sized. -/
abbrev Sized (m : Memo K) : Prop :=
  m.Relates fun r => r.statistics.Sized

variable [OrderedQuantity K]

/-- Statistics are sized whatever the environment is. -/
theorem handsOn_sized (env : Environment K) : env.HandsOn fun r => r.statistics.Sized :=
  fun sized shared derived => LogicalOperator.sized_of_derive sized shared derived

/-- The cost of an expression that is no enforcer is an amount. -/
theorem Sized.zero_le_operatorCost (h : m.Sized) {id : ExprId} {key : ExprKey}
    (hkey : m.key? id = some key) (plain : key.operator.isEnforcer = false) {cost : K}
    (known : Task.operatorCost env m id = .ok cost) : 0.0 ≤ cost := by
  obtain ⟨op, inputs, rels, r, hkey', hrels, hr, hcost⟩ := operatorCost_eq_ok.1 known
  obtain rfl := Option.some.inj (hkey'.symm.trans hkey)
  refine Cost.zero_le_ofOperator (h.groups hr) (fun s hs => ?_) hcost fun m same _ => ?_
  · obtain ⟨r, hr, rfl⟩ := List.mem_map.1 hs
    exact h.relations hrels r hr
  · rw [same] at plain
    cases plain

end Memo

end QueryOptimizer
