import QueryOptimizer.Delivery.Alternative
import QueryOptimizer.Proofs.Plan.Loading

/-!
# Operators with all their inputs

Every operator takes a number of inputs (`Operator.arity`), and every alternative of a physical
operator has a requirement for each of them. Plans, trees and memos are saturated when their
operators have as many inputs as they take. Nothing checks that when a plan is loaded, but
nothing spoils it either.

## Main results

* `PhysicalOperator.length_requires`: an alternative has a requirement for each input.
* `Memo.insertTree_leads_retains`: a memo stays saturated when a saturated tree is entered.
* `Memo.stores_of_ofPlan`: the memo of a plan stores expressions with the
  operators of the plan.
* `Memo.saturated_of_ofPlan`: the memo of a saturated plan is saturated.
-/

namespace QueryOptimizer

/-! ### Operators -/

/-- The number of inputs that a logical operator takes. -/
def LogicalOperator.arity : LogicalOperator → Nat
  | get _ | dynamicGet _ | values _ | cteConsumer _ => 0
  | select _ | project _ | groupBy _ | limit _ | cteProducer _ => 1
  | join _ | apply _ | cteAnchor _ => 2
  | setOp s => s.inputs.length

/-- The number of inputs that a physical operator takes. -/
def PhysicalOperator.arity : PhysicalOperator → Nat
  | tableScan _ | dynamicTableScan _ | valuesScan _ | cteConsumer _ => 0
  | filter _ | compute _ | hashAggregate _ | limit _ | sort _ | cteProducer _ | motion _ => 1
  | hashJoin _ | nestedLoopJoin _ | indexNestedLoopJoin _ | sequence _ => 2
  | unionAll s | hashSetOp s => s.inputs.length

/-- The number of inputs that an operator takes. -/
def Operator.arity : Operator → Nat
  | logical op => op.arity
  | physical op => op.arity

/-- An enforcer has one input. -/
theorem PhysicalOperator.arity_of_isEnforcer {op : PhysicalOperator}
    (h : op.isEnforcer = true) :
    op.arity = 1 := by
  cases op with
  | sort | motion => rfl
  | _ => cases h

section Requirements

variable {required : PhysicalProperty} {outs : List ColumnSet} {as : List Alternative}
  {a : Alternative}

/-- A uniform alternative requires something of each input. -/
@[simp] theorem Alternative.length_uniform (delivers required : PhysicalProperty) (n : Nat) :
    (uniform delivers required n).requires.length = n :=
  List.length_replicate

/-- An operator that passes its input on requires something of one input. -/
theorem length_requires_of_passThrough (listed : passThrough required outs = .ok as)
    (mem : a ∈ as) : a.requires.length = 1 := by
  obtain ⟨produced, -, listed⟩ := OptResult.bind_eq_ok.1 listed
  split at listed
  all_goals
    obtain rfl := Except.ok.inj listed
    obtain rfl := List.mem_singleton.1 mem
    rfl

/-- A join by broadcasting or gathering requires something of two inputs. -/
theorem length_requires_of_broadcastOrGather
    (listed : broadcastOrGather required outs = .ok as) (mem : a ∈ as) :
    a.requires.length = 2 := by
  obtain ⟨produced, -, listed⟩ := OptResult.bind_eq_ok.1 listed
  obtain rfl := Except.ok.inj listed
  simp only [List.mem_cons, List.not_mem_nil, or_false] at mem
  obtain rfl | rfl := mem
  · rfl
  · rfl

/-- A join of rows that meet requires something of two inputs. -/
theorem length_requires_of_colocated {predicate : Scalar}
    (listed : colocated predicate outs = .ok as) (mem : a ∈ as) : a.requires.length = 2 := by
  obtain ⟨left, -, listed⟩ := OptResult.bind_eq_ok.1 listed
  obtain ⟨right, -, listed⟩ := OptResult.bind_eq_ok.1 listed
  dsimp only at listed
  split at listed
  · obtain rfl := Except.ok.inj listed
    cases mem
  · obtain rfl := Except.ok.inj listed
    obtain rfl := List.mem_singleton.1 mem
    rfl

/-- An alternative has a requirement for each input. -/
theorem PhysicalOperator.length_requires {op : PhysicalOperator}
    (listed : op.alternatives required outs = .ok as) (mem : a ∈ as) :
    a.requires.length = op.arity := by
  cases op with
  | filter | compute => exact length_requires_of_passThrough listed mem
  | nestedLoopJoin | indexNestedLoopJoin =>
    exact length_requires_of_broadcastOrGather listed mem
  | hashJoin j =>
    obtain ⟨first, hfirst, second, hsecond, rfl⟩ := by
      simpa only [alternatives, OptResult.bind_eq_ok, OptResult.pure_eq_ok] using listed
    rcases List.mem_append.1 mem with mem | mem
    · exact length_requires_of_colocated hfirst mem
    · exact length_requires_of_broadcastOrGather hsecond mem
  | hashAggregate g =>
    obtain rfl := Except.ok.inj listed
    rcases List.mem_cons.1 mem with rfl | mem
    · rfl
    · split at mem
      · cases mem
      · obtain rfl := List.mem_singleton.1 mem
        rfl
  | unionAll s | hashSetOp s =>
    obtain rfl := Except.ok.inj listed
    simp only [List.mem_cons, List.not_mem_nil, or_false] at mem
    obtain rfl | rfl := mem <;> simp [Alternative.gathered, arity]
  | _ =>
    obtain rfl := Except.ok.inj listed
    obtain rfl := List.mem_singleton.1 mem
    rfl

end Requirements

/-! ### Saturated plans and trees -/

/-- Whether the operator of an expression has as many inputs as it takes. -/
def ExprKey.Saturated (k : ExprKey) : Prop :=
  k.inputs.length = k.operator.arity

/-- Whether the operators of a plan have as many inputs as they take. -/
def Plan.Saturated {K : Type} (p : Plan K) : Prop :=
  ∀ q ∈ p.nodes, q.inputs.length = q.operator.arity

/-- Whether the new operators of a tree have as many inputs as they take. -/
inductive ExprTree.Saturated : ExprTree → Prop
  | operator {op : Operator} {inputs : List ExprTree} (length : inputs.length = op.arity)
      (below : ∀ t ∈ inputs, Saturated t) : Saturated (.operator op inputs)
  | expr (id : ExprId) (inputs : List ExprTree) : Saturated (.expr id inputs)
  | group (id : GroupId) : Saturated (.group id)

namespace Memo

variable {K : Type} {m m' : Memo K}

/-! ### Stored expressions -/

/-- Whether the expressions of a memo are saturated. -/
def Saturated (m : Memo K) : Prop :=
  ∀ id k, m.key? id = some k → k.Saturated

/-- Whether all expressions that a memo stores are as `Q` says. -/
def Stores (Q : ExprKey → Prop) (m : Memo K) : Prop :=
  ∀ id k, m.key? id = some k → Q k

/-- Whether the expressions of a memo are as `Q` says if those of another one are,
which it came from. -/
def Retains (Q : ExprKey → Prop) (m m' : Memo K) : Prop :=
  m.Stores Q → m'.Stores Q

variable {Q : ExprKey → Prop}

instance : IsTrans (Memo K) (Retains Q) where
  trans _ _ _ h h' := h' ∘ h

/-- Bookkeeping keeps expressions saturated. -/
theorem Saturated.like (h : m.Saturated) (like : m.Like m') : m'.Saturated :=
  fun id k hk => h id k ((like.key id).symm.trans hk)

/-- What all stored expressions are they are with a new one that is so, too. -/
theorem Stores.addExpr (h : m.Stores Q) {key : ExprKey} (hkey : Q key) {group : GroupId}
    {place : ExprId} (added : m.addExpr group key = .ok (m', place)) : m'.Stores Q := by
  intro id k hk
  rw [key?_addExpr added] at hk
  split at hk
  · obtain rfl := Option.some.inj hk
    exact hkey
  · exact h id k hk

/-- What all stored expressions are they are after truncation. -/
theorem Stores.truncate (h : m.Stores Q) (count : Nat) : (m.truncate count).Stores Q := by
  intro id k hk
  rw [key?_truncate] at hk
  split at hk
  · exact h id k hk
  · cases hk

open MemoM

variable [Quantity K] {env : Environment K}

/-- Starting a group stores no expression. -/
theorem startGroup_leads_retains (key : ExprKey) :
    (startGroup env key).Leads (Retains Q) m fun _ _ => True := by
  obtain ⟨op | op, inputs⟩ := key
  · unfold Leads
    rw [exec_startGroup]
    cases m.relations inputs >>= op.derive env m.ctes with
    | error e => exact ⟨id, fun _ _ => trivial⟩
    | ok r =>
      exact ⟨fun h id k hk => h id k ((key?_addGroup m op r id).symm.trans hk),
        fun _ _ => trivial⟩
  · exact .throw id _

/-- Entering an expression stores this one at most. -/
theorem insertKey_leads_retains {key : ExprKey} (hkey : Q key) (target : Option GroupId) :
    (insertKey env key target).Leads (Retains Q) m fun _ _ => True := by
  refine ⟨?_, fun _ _ => trivial⟩
  cases target with
  | some group =>
    rw [exec_insertKey_some]
    split
    · exact id
    · split
      · rename_i added
        exact fun h => h.addExpr hkey added
      · exact id
  | none =>
    rw [exec_insertKey_none]
    split
    · exact id
    · obtain ⟨started, -⟩ : (startGroup env key).Leads (Retains Q) m fun _ _ => True :=
        startGroup_leads_retains key
      rcases run : (startGroup env key).exec m with ⟨e | group, m'⟩
      · rwa [run] at started
      · rw [run] at started
        dsimp only
        split
        · rename_i added
          exact fun h => (started h).addExpr hkey added
        · exact started

/-! ### Entering trees -/

mutual

/-- Inserting a saturated tree stores saturated expressions. -/
theorem insertNode_leads_retains : ∀ {t : ExprTree} {m : Memo K} (target : Option GroupId),
    t.Saturated → (insertNode env target t).Leads (Retains ExprKey.Saturated) m fun _ _ => True
  | .group id, _, _, _ => .throw (fun h => h) _
  | .expr id inputs, _, _, _ => .pure (fun h => h) trivial
  | .operator op inputs, _, target, .operator length below => by
    refine (insertInputs_leads_retains below).bind fun ids m' _ same => ?_
    have key : ExprKey.Saturated ⟨op, ids⟩ := same.trans length
    exact insertKey_leads_retains key target

/-- Inserting saturated trees stores saturated expressions and has a group
for each of them. -/
theorem insertInputs_leads_retains : ∀ {ts : List ExprTree} {m : Memo K},
    (∀ t ∈ ts, t.Saturated) →
      (insertInputs env ts).Leads (Retains ExprKey.Saturated) m fun ids _ =>
        ids.length = ts.length
  | [], _, _ => .pure id rfl
  | .group i :: ts, _, h =>
    (insertInputs_leads_retains (List.forall_mem_cons.1 h).2).bind fun ids m' _ same =>
      .pure id (congrArg Nat.succ same)
  | .expr i inputs :: ts, _, h =>
    (insertNode_leads_retains none (h _ (by simp))).bind fun _ m' _ _ =>
      (insertInputs_leads_retains (List.forall_mem_cons.1 h).2).bind fun ids m'' _ same =>
        .pure id (congrArg Nat.succ same)
  | .operator op inputs :: ts, _, h =>
    (insertNode_leads_retains none (h _ (by simp))).bind fun _ m' _ _ =>
      (insertInputs_leads_retains (List.forall_mem_cons.1 h).2).bind fun ids m'' _ same =>
        .pure id (congrArg Nat.succ same)

end

/-- A memo stays saturated when a saturated tree is entered, and when that fails. -/
theorem insertTree_leads_retains {t : ExprTree} (h : t.Saturated) (target : Option GroupId) :
    (insertTree env t target).Leads (Retains ExprKey.Saturated) m fun _ _ => True := by
  obtain ⟨saturates, -⟩ : (insertNode env target t).Leads (Retains ExprKey.Saturated) m
      fun _ _ => True :=
    insertNode_leads_retains target h
  unfold Leads
  simp only [insertTree, exec_bind, exec_get, exec_tryCatch]
  rcases run : (insertNode env target t).exec m with ⟨e | r, m'⟩
  · rw [run] at saturates
    exact ⟨fun hm => (saturates hm).truncate _, fun _ _ => trivial⟩
  · rw [run] at saturates
    exact ⟨saturates, fun _ _ => trivial⟩

/-! ### Loading plans -/

mutual

/-- Loading a plan stores expressions of its operators. -/
theorem loadNode_leads_retains : ∀ (p : Plan K) {m : Memo K} (known : Std.HashMap Nat GroupId),
    (∀ q ∈ p.nodes, ∀ ids, ids.length = q.inputs.length → Q ⟨q.operator, ids⟩) →
      Leads (Retains Q) m ((loadNode env p).run known) fun _ _ => True
  | ⟨id, op, inputs, estimate⟩, m, known, h => by
    rw [run_loadNode]
    cases known[id]? with
    | some group => exact .pure (fun h => h) trivial
    | none =>
      refine (loadInputs_leads_retains inputs known fun p hp q hq =>
        h q (Plan.mem_nodes_of_input hp hq)).bind fun ids m' _ same => ?_
      have key : Q ⟨op, ids.1⟩ := h _ (Plan.self_mem_nodes _) _ same
      exact (insertKey_leads_retains key none).bind fun _ m'' _ _ => .pure (fun h => h) trivial

/-- Loading plans stores expressions of their operators and has a group for each of them. -/
theorem loadInputs_leads_retains : ∀ (ps : List (Plan K)) {m : Memo K}
    (known : Std.HashMap Nat GroupId),
    (∀ p ∈ ps, ∀ q ∈ p.nodes, ∀ ids, ids.length = q.inputs.length → Q ⟨q.operator, ids⟩) →
      Leads (Retains Q) m ((loadInputs env ps).run known) fun r _ => r.1.length = ps.length
  | [], m, known, _ => .pure id rfl
  | p :: ps, m, known, h => by
    obtain ⟨first, others⟩ := List.forall_mem_cons.1 h
    rw [run_loadInputs_cons]
    refine (loadNode_leads_retains p known first).bind fun r m' _ _ => ?_
    exact (loadInputs_leads_retains ps r.2 others).bind fun rest m'' _ same =>
      .pure id (congrArg Nat.succ same)

end

/-- The memo of a plan stores expressions with the operators of the plan and as many inputs. -/
theorem stores_of_ofPlan {root : Plan K}
    (h : ∀ q ∈ root.nodes, ∀ ids, ids.length = q.inputs.length → Q ⟨q.operator, ids⟩)
    (made : Memo.ofPlan env root = .ok m) : m.Stores Q := by
  obtain ⟨retains, -⟩ :
      Leads (Retains Q) ({} : Memo K) ((loadNode env root).run {}) fun _ _ => True :=
    loadNode_leads_retains root {} h
  obtain ⟨group, known, m', run, rfl⟩ := exists_loadNode_of_ofPlan made
  rw [run] at retains
  exact retains fun id k hk => by simp [key?] at hk

/-- The memo of a saturated plan is saturated. -/
theorem saturated_of_ofPlan {root : Plan K} (h : root.Saturated)
    (made : Memo.ofPlan env root = .ok m) : m.Saturated :=
  stores_of_ofPlan (fun q hq _ same => same.trans (h q hq)) made

end Memo

end QueryOptimizer
