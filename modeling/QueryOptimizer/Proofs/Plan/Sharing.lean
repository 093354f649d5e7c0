import QueryOptimizer.Proofs.Memo.Coherence

/-!
# Sharing in the memo of a plan

While a plan is loaded, each node gets the group of an equal node that was met before, or a
group of its own. So nodes share a group exactly when the trees below them are equal, whether
they are one node that is used in several places or different ones. Nothing is lost: the groups
unfold to the plan again.

## Main results

* `Memo.Consed.equal_of_contains`, `Memo.Consed.group_eq`: groups stand for
  trees up to equality.
* `Memo.Consed.loadNode`: a node is loaded into a group that has its tree.
* `Memo.loadNode_shares`: loading a plan shares equal nodes and nothing else.
-/

namespace QueryOptimizer

variable {K : Type}

mutual

/-- What a plan says: the tree of its operators. -/
def Plan.tree : Plan K → ExprTree
  | ⟨_, op, inputs, _⟩ => .operator op (trees inputs)
termination_by structural p => p

/-- The trees of the plans in a list. -/
def Plan.trees : List (Plan K) → List ExprTree
  | [] => []
  | p :: ps => tree p :: trees ps
termination_by structural ps => ps

end

namespace Memo

/-- The tree of the first expressions of a group and of the groups below it, as far as
`depth` levels down. -/
def unfold (m : Memo K) : (depth : Nat) → GroupId → Option ExprTree
  | 0, _ => none
  | depth + 1, id => do
    let k ← m.key? ⟨id, 0⟩
    return .operator k.operator (← k.inputs.mapM (m.unfold depth))

/-- Whether a memo is coherent, with one expression in each group, over earlier groups. -/
structure Consed (m : Memo K) : Prop extends m.Coherent where
  single : ∀ {place key}, m.key? place = some key → place.index = 0
  below : ∀ {place key}, m.key? place = some key → ∀ i ∈ key.inputs, i < place.group

variable {m m' : Memo K} {root : Plan K}

/-! ### Groups and trees -/

namespace Consed

/-- The empty memo has nothing twice. -/
theorem empty : ({} : Memo K).Consed where
  toCoherent := .empty
  single hk := by simp [key?] at hk
  below hk := by simp [key?] at hk

/-- A group contains a tree if its only expression has the root over groups that
contain the trees below. -/
theorem contains_operator (h : m.Consed) {id : GroupId} {op : Operator} {ts : List ExprTree} :
    m.Contains id (.operator op ts) ↔ ∃ k, m.key? ⟨id, 0⟩ = some k ∧
      (k.operator == op) = true ∧
      m.ContainsAll k.inputs ts := by
  simp only [Contains]
  constructor
  · rintro ⟨⟨group, index⟩, ids, rfl, ⟨k, hk, same⟩, below⟩
    obtain rfl : index = 0 := h.single hk
    obtain ⟨sameOp, rfl⟩ := ExprKey.beq_iff.1 same
    exact ⟨k, hk, sameOp, below⟩
  · rintro ⟨k, hk, same, below⟩
    exact ⟨⟨id, 0⟩, k.inputs, rfl, ⟨k, hk, ExprKey.beq_iff.2 ⟨same, rfl⟩⟩, below⟩

mutual

/-- What a group stands for is equal. -/
theorem equal_of_contains (h : m.Consed) : ∀ {p q : Plan K} {id : GroupId},
    m.Contains id p.tree → m.Contains id q.tree → p.tree.equal q.tree = true
  | ⟨_, op, inputs, _⟩, ⟨_, op', inputs', _⟩, id, hp, hq => by
    simp only [Plan.tree] at hp hq ⊢
    obtain ⟨k, hk, same, below⟩ := h.contains_operator.1 hp
    obtain ⟨k', hk', same', below'⟩ := h.contains_operator.1 hq
    obtain rfl := Option.some.inj (hk.symm.trans hk')
    simp only [ExprTree.equal, Bool.and_eq_true]
    exact ⟨BEq.trans (BEq.symm same) same', h.equalAll_of_containsAll below below'⟩

/-- Plans in the same groups have equal trees. -/
theorem equalAll_of_containsAll (h : m.Consed) :
    ∀ {ps qs : List (Plan K)} {ids : List GroupId},
    m.ContainsAll ids (Plan.trees ps) → m.ContainsAll ids (Plan.trees qs) →
      ExprTree.equalAll (Plan.trees ps) (Plan.trees qs) = true
  | [], [], _, _, _ => by simp only [Plan.trees, ExprTree.equalAll]
  | p :: ps, q :: qs, id :: ids, hps, hqs => by
    simp only [Plan.trees, ContainsAll, ExprTree.equalAll, Bool.and_eq_true] at hps hqs ⊢
    exact ⟨h.equal_of_contains hps.1 hqs.1, h.equalAll_of_containsAll hps.2 hqs.2⟩
  | [], _ :: _, [], _, hqs | _ :: _, _, [], hqs, _ => by
    simp only [Plan.trees, ContainsAll] at hqs
  | [], _ :: _, _ :: _, hps, _ | _ :: _, [], _ :: _, _, hps => by
    simp only [Plan.trees, ContainsAll] at hps

end

mutual

/-- Equal trees are in one group. -/
theorem group_eq (h : m.Consed) : ∀ {p q : Plan K} {i j : GroupId},
    p.tree.equal q.tree = true → m.Contains i p.tree → m.Contains j q.tree → i = j
  | ⟨_, op, inputs, _⟩, ⟨_, op', inputs', _⟩, i, j, equal, hp, hq => by
    simp only [Plan.tree, ExprTree.equal, Bool.and_eq_true] at hp hq equal
    obtain ⟨k, hk, same, below⟩ := h.contains_operator.1 hp
    obtain ⟨k', hk', same', below'⟩ := h.contains_operator.1 hq
    have keys : (k == k') = true := ExprKey.beq_iff.2
      ⟨BEq.trans same (BEq.trans equal.1 (BEq.symm same')), h.groups_eq equal.2 below below'⟩
    exact congrArg ExprId.group (h.unique hk hk' keys)

/-- Plans with equal trees are in the same groups. -/
theorem groups_eq (h : m.Consed) : ∀ {ps qs : List (Plan K)} {is js : List GroupId},
    ExprTree.equalAll (Plan.trees ps) (Plan.trees qs) = true →
      m.ContainsAll is (Plan.trees ps) →
      m.ContainsAll js (Plan.trees qs) → is = js
  | [], [], is, js, _, hps, hqs => by
    cases is with
    | cons => simp only [Plan.trees, ContainsAll] at hps
    | nil =>
      cases js with
      | cons => simp only [Plan.trees, ContainsAll] at hqs
      | nil => rfl
  | p :: ps, q :: qs, i :: is, j :: js, equal, hps, hqs => by
    simp only [Plan.trees, ContainsAll, ExprTree.equalAll, Bool.and_eq_true] at equal hps hqs
    rw [h.group_eq equal.1 hps.1 hqs.1, h.groups_eq equal.2 hps.2 hqs.2]
  | [], _ :: _, _, _, equal, _, _ | _ :: _, [], _, _, equal, _, _ => by
    simp only [Plan.trees, ExprTree.equalAll, Bool.false_eq_true] at equal
  | _ :: _, _ :: _, [], _, _, hps, _ => by
    simp only [Plan.trees, ContainsAll] at hps
  | _ :: _, _ :: _, _ :: _, [], _, _, hqs => by
    simp only [Plan.trees, ContainsAll] at hqs

end

mutual

/-- A group unfolds to the trees that it stands for. -/
theorem exists_unfold (h : m.Consed) : ∀ {p : Plan K} {id : GroupId} {depth : Nat},
    m.Contains id p.tree → id < depth → ∃ t, m.unfold depth id = some t ∧ t.equal p.tree = true
  | ⟨_, op, inputs, _⟩, id, depth + 1, hp, deep => by
    simp only [Plan.tree] at hp ⊢
    obtain ⟨k, hk, same, below⟩ := h.contains_operator.1 hp
    obtain ⟨ts, hts, equal⟩ := h.exists_unfold_all below fun i hi =>
      Nat.lt_of_lt_of_le (h.below hk i hi) (Nat.le_of_lt_succ deep)
    refine ⟨.operator k.operator ts, by simp [unfold, hk, hts], ?_⟩
    simp only [ExprTree.equal, Bool.and_eq_true]
    exact ⟨same, equal⟩

/-- Groups unfold to the trees of the plans that they contain. -/
theorem exists_unfold_all (h : m.Consed) : ∀ {ps : List (Plan K)} {ids : List GroupId}
    {depth : Nat}, m.ContainsAll ids (Plan.trees ps) → (∀ i ∈ ids, i < depth) →
      ∃ ts, ids.mapM (m.unfold depth) = some ts ∧ ExprTree.equalAll ts (Plan.trees ps) = true
  | [], [], _, _, _ => ⟨[], rfl, by simp only [Plan.trees, ExprTree.equalAll]⟩
  | p :: ps, id :: ids, depth, hps, deep => by
    simp only [Plan.trees, ContainsAll] at hps ⊢
    obtain ⟨first, others⟩ := List.forall_mem_cons.1 deep
    obtain ⟨t, ht, equal⟩ := h.exists_unfold hps.1 first
    obtain ⟨ts, hts, equals⟩ := h.exists_unfold_all hps.2 others
    refine ⟨t :: ts, by simp [List.mapM_cons, ht, hts], ?_⟩
    simp only [ExprTree.equalAll, Bool.and_eq_true]
    exact ⟨equal, equals⟩
  | [], _ :: _, _, hps, _ | _ :: _, [], _, hps, _ => by
    simp only [Plan.trees, ContainsAll] at hps

end

end Consed

/-! ### Loading -/

/-- A consed memo that a memo has grown into. -/
structure Conses (m m' : Memo K) : Prop where
  extended : m.Extends m'
  consed : m'.Consed

instance : IsTrans (Memo K) Conses where
  trans _ _ _ h h' := ⟨h.extended.trans h'.extended, h'.consed⟩

/-- A memo with nothing twice has become itself. -/
theorem Consed.self (h : m.Consed) : m.Conses m :=
  ⟨.refl m, h⟩

/-- Whether the nodes that have been entered are in groups that have their trees, along with
all nodes below them. -/
structure Placed (root : Plan K) (m : Memo K) (known : Std.HashMap Nat GroupId) : Prop where
  contains : ∀ q ∈ root.nodes, ∀ id, known[q.id]? = some id → m.Contains id q.tree
  below : ∀ q ∈ root.nodes, q.id ∈ known → ∀ r ∈ q.nodes, r.id ∈ known

/-- What has been placed stays so when the memo grows. -/
theorem Placed.extends {known : Std.HashMap Nat GroupId} (h : Placed root m known)
    (extended : m.Extends m') : Placed root m' known :=
  ⟨fun q hq id found => (h.contains q hq id found).extends extended, h.below⟩

variable [Quantity K] {env : Environment K}

namespace Consed

/-- Entering an expression into the group that has it, or else into a new one. -/
theorem startKey (h : m.Consed) (key : ExprKey) :
    (Memo.insertKey env key none).Leads Conses m fun r m' =>
      ∃ k, m'.key? r.1 = some k ∧ (k == key) = true := by
  obtain ⟨appends, placed⟩ : (Memo.insertKey env key none).Leads Appends m fun r m' =>
      ∃ k, m'.key? r.1 = some k ∧ (k == key) = true := h.toFiled.startKey key
  obtain ⟨⟨-, coherent⟩, -⟩ : (Memo.insertKey env key none).Leads Coheres m fun r m' =>
      r.1.group < m'.groups.size := h.toCoherent.startKey key
  refine ⟨⟨appends.extended, ?_⟩, placed⟩
  obtain ⟨place, -, run⟩ | ⟨e, run⟩ | ⟨op, inputs, rels, relation, m', place, rfl, -,
    hrels, -, added, run⟩ := insertKey_none_cases env key m
  · rwa [run]
  · rwa [run]
  · rw [run] at coherent ⊢
    have start : place = ⟨m.groups.size, 0⟩ := place_of_startGroup m op relation added
    refine
      { toCoherent := coherent
        single := fun {i k} hk => ?_
        below := fun {i k} hk => ?_ }
    all_goals
      rw [key?_addExpr added, key?_addGroup] at hk
      split at hk
    · rename_i new
      rw [new, start]
    · exact h.single hk
    · rename_i new
      obtain rfl := Option.some.inj hk
      rw [new, start]
      exact fun i hi => lt_of_relations hrels hi
    · exact h.below hk

mutual

/-- A node is loaded into a group that has its tree. Afterwards all nodes below
it are placed. -/
theorem loadNode (sameNode : ∀ q ∈ root.nodes, ∀ r ∈ root.nodes, q.id = r.id → q = r) :
    ∀ (p : Plan K) {m : Memo K} {known : Std.HashMap Nat GroupId}, p ∈ root.nodes → m.Consed →
    Placed root m known → MemoM.Leads Conses m ((Memo.loadNode env p).run known) fun r m' =>
      r.2[p.id]? = some r.1 ∧ (∀ i ∈ known, i ∈ r.2) ∧ Placed root m' r.2
  | ⟨id, op, inputs, estimate⟩, m, known, hp, h, placed => by
    rw [run_loadNode]
    cases found : known[id]? with
    | some group => exact .pure h.self ⟨found, fun _ hi => hi, placed⟩
    | none =>
      have parts : ∀ q ∈ inputs, q ∈ root.nodes := fun q hq =>
        Plan.mem_nodes_trans hp (Plan.mem_nodes_of_input hq q.self_mem_nodes)
      refine (loadInputs sameNode inputs parts h placed).bind
        fun below m' conses ⟨contains, each, kept, placed'⟩ => ?_
      refine (conses.consed.startKey ⟨op, below.1⟩).bind
        fun entered m'' conses' ⟨k, hk, same⟩ => .pure conses'.consed.self ?_
      have later : Placed root m'' below.2 := placed'.extends conses'.extended
      have here : m''.Contains entered.1.group (Plan.tree ⟨id, op, inputs, estimate⟩) := by
        simp only [Plan.tree]
        exact Memo.contains_operator ⟨k, hk, same⟩ (contains.extends conses'.extended)
      refine ⟨Std.HashMap.getElem?_insert_self, fun i hi => ?_, ⟨fun q hq i found => ?_,
        fun q hq inside r hr => ?_⟩⟩
      · exact Std.HashMap.mem_insert.2 (.inr (kept i hi))
      · rw [Std.HashMap.getElem?_insert] at found
        split at found
        · rename_i again
          obtain rfl := sameNode q hq _ hp (beq_iff_eq.1 again).symm
          exact Option.some.inj found ▸ here
        · exact later.contains q hq i found
      · rw [Std.HashMap.mem_insert] at inside ⊢
        rcases inside with again | old
        · obtain rfl := sameNode q hq _ hp (beq_iff_eq.1 again).symm
          rcases Plan.mem_nodes.1 hr with rfl | ⟨c, hc, hrc⟩
          · exact .inl again
          · exact .inr (placed'.below c (parts c hc) (each c hc) r hrc)
        · exact .inr (placed'.below q hq old r hr)

/-- Inputs are loaded into groups that have their trees. -/
theorem loadInputs (sameNode : ∀ q ∈ root.nodes, ∀ r ∈ root.nodes, q.id = r.id → q = r) :
    ∀ (ps : List (Plan K)) {m : Memo K} {known : Std.HashMap Nat GroupId},
    (∀ p ∈ ps, p ∈ root.nodes) → m.Consed → Placed root m known →
    MemoM.Leads Conses m ((Memo.loadInputs env ps).run known) fun r m' =>
      m'.ContainsAll r.1 (Plan.trees ps) ∧ (∀ p ∈ ps, p.id ∈ r.2) ∧ (∀ i ∈ known, i ∈ r.2) ∧
        Placed root m' r.2
  | [], m, known, _, h, placed =>
    .pure h.self ⟨by simp only [Plan.trees, ContainsAll], by simp, fun _ hi => hi, placed⟩
  | p :: ps, m, known, hps, h, placed => by
    obtain ⟨hp, hps⟩ := List.forall_mem_cons.1 hps
    rw [run_loadInputs_cons]
    refine (loadNode sameNode p hp h placed).bind
      fun first m' conses ⟨found, kept, placed'⟩ => ?_
    refine (loadInputs sameNode ps hps conses.consed placed').bind
      fun rest m'' conses' ⟨contains, each, kept', placed''⟩ => .pure conses'.consed.self ?_
    refine ⟨?_, List.forall_mem_cons.2 ⟨kept' _ ?_, each⟩, fun i hi =>
      kept' i (kept i hi), placed''⟩
    · simp only [Plan.trees, ContainsAll]
      exact ⟨(placed'.contains p hp _ found).extends conses'.extended, contains⟩
    · exact Std.HashMap.mem_iff_isSome_getElem?.2 (by simp [found])

end

/-- The memo of a plan whose nodes have ids of their own. -/
theorem of_ofPlan {plan : Plan K}
    (sameNode : ∀ q ∈ plan.nodes, ∀ r ∈ plan.nodes, q.id = r.id → q = r)
    (made : Memo.ofPlan env plan = .ok m) : m.Consed := by
  have nothing : Placed plan ({} : Memo K) {} :=
    ⟨fun q _ id found => by simp at found, fun q _ inside => by simp at inside⟩
  obtain ⟨conses, -⟩ : MemoM.Leads Conses ({} : Memo K) ((Memo.loadNode env plan).run {})
      fun r m' => r.2[plan.id]? = some r.1 ∧ (∀ i ∈ (∅ : Std.HashMap Nat GroupId), i ∈ r.2) ∧
        Placed plan m' r.2 := loadNode sameNode plan plan.self_mem_nodes .empty nothing
  have coherent : m.Coherent := .of_ofPlan made
  obtain ⟨group, known, m', run, rfl⟩ := exists_loadNode_of_ofPlan made
  rw [run] at conses
  exact ⟨coherent, conses.consed.single, conses.consed.below⟩

end Consed

/-- Loading a plan whose nodes have ids of their own is exact sharing: two nodes are in one
group exactly if the trees below them are equal, each group has one expression, over groups
with smaller numbers, and the group of the root unfolds to the plan. -/
theorem loadNode_shares {plan : Plan K}
    (sameNode : ∀ q ∈ plan.nodes, ∀ r ∈ plan.nodes, q.id = r.id → q = r)
    {root : GroupId} {known : Std.HashMap Nat GroupId}
    (loaded : ((loadNode env plan).run {}).exec {} = (.ok (root, known), m)) :
    ofPlan env plan = .ok { m with root } ∧ known[plan.id]? = some root ∧
      (∀ q ∈ plan.nodes, ∃ id, known[q.id]? = some id ∧ id < m.groups.size) ∧
      (∀ q ∈ plan.nodes, ∀ r ∈ plan.nodes,
        known[q.id]? = known[r.id]? ↔ (q.tree == r.tree) = true) ∧
      (∀ id g, m.group id = .ok g → g.exprs.size = 1) ∧
      (∃ t, m.unfold m.groups.size root = some t ∧ (t == plan.tree) = true) ∧
      ∀ place k, m.key? place = some k → ∀ i ∈ k.inputs, i < place.group := by
  have nothing : Placed plan ({} : Memo K) {} :=
    ⟨fun q _ id found => by simp at found, fun q _ inside => by simp at inside⟩
  obtain ⟨conses, result⟩ : MemoM.Leads Conses ({} : Memo K) ((Memo.loadNode env plan).run {})
      fun r m' => r.2[plan.id]? = some r.1 ∧ (∀ i ∈ (∅ : Std.HashMap Nat GroupId), i ∈ r.2) ∧
        Placed plan m' r.2 := Consed.loadNode sameNode plan plan.self_mem_nodes .empty nothing
  rw [loaded] at conses result
  obtain ⟨found, -, placed⟩ := result _ rfl
  have consed : m.Consed := conses.consed
  have all (q : Plan K) (hq : q ∈ plan.nodes) : ∃ id, known[q.id]? = some id :=
    Option.isSome_iff_exists.1 (Std.HashMap.mem_iff_isSome_getElem?.1 (placed.below plan
      plan.self_mem_nodes (Std.HashMap.mem_iff_isSome_getElem?.2 (by simp [found])) q hq))
  have inside {q : Plan K} {id : GroupId} (contains : m.Contains id q.tree) :
      id < m.groups.size := by
    obtain ⟨_, op, inputs, _⟩ := q
    simp only [Plan.tree] at contains
    obtain ⟨k, hk, -⟩ := consed.contains_operator.1 contains
    exact lt_of_key? hk
  refine ⟨by rw [ofPlan_eq, loaded], found, fun q hq => ?_, fun q hq r hr =>
    ?_, fun id g hg => ?_, ?_, fun _ _ hk => consed.below hk⟩
  · obtain ⟨id, hid⟩ := all q hq
    exact ⟨id, hid, inside (placed.contains q hq id hid)⟩
  · obtain ⟨i, hi⟩ := all q hq
    obtain ⟨j, hj⟩ := all r hr
    have hq' := placed.contains q hq i hi
    have hr' := placed.contains r hr j hj
    rw [hi, hj, Option.some.injEq]
    refine ⟨fun same => consed.equal_of_contains hq' (same ▸ hr'), fun equal =>
      consed.group_eq equal hq' hr'⟩
  · have hid := group_eq_ok.1 hg
    obtain ⟨op, inputs, hk⟩ := consed.first id (Array.getElem?_eq_some_iff.1 hid).1
    have some : 0 < g.exprs.size := by
      obtain ⟨e, he, -⟩ := exists_expr_of_key? hk
      obtain ⟨g', hg', he⟩ := expr_eq_ok.1 he
      obtain rfl := Option.some.inj (hid.symm.trans hg')
      exact (Array.getElem?_eq_some_iff.1 he).1
    refine Nat.le_antisymm (Nat.le_of_not_lt fun more => ?_) some
    have second : m.key? ⟨id, 1⟩ = _ :=
      key?_of_expr (expr_eq_ok.2 ⟨g, hid, Array.getElem?_eq_getElem more⟩)
    exact absurd (consed.single second) Nat.one_ne_zero
  · have contains := placed.contains plan plan.self_mem_nodes _ found
    exact consed.exists_unfold contains (inside contains)

open Sample in
/-- The two inputs of a join are in different groups. -/
theorem loadNode_shares_sample : ∃ root known m,
    ((loadNode setting plan).run {}).exec {} = (.ok (root, known), m) ∧
    (∀ q ∈ plan.nodes, ∀ r ∈ plan.nodes, q.id = r.id → q = r) ∧ known[2]? = some root ∧
    known[0]? ≠ known[1]? ∧
    ∃ t, m.unfold m.groups.size root = some t ∧ (t == plan.tree) = true := by
  obtain ⟨_, made⟩ := exists_ofPlan
  rw [ofPlan_eq] at made
  rcases run : ((loadNode setting plan).run {}).exec {} with ⟨e | ⟨root, known⟩, m⟩
  · rw [run] at made
    cases made
  · have sameNode := wellFormed.sameNode
    obtain ⟨-, top, -, shares, -, unfolds, -⟩ := loadNode_shares sameNode run
    have apart := shares ⟨0, .logical scan, [], none⟩ (by simp [mem_nodes_plan])
      ⟨1, .logical list, [], none⟩ (by simp [mem_nodes_plan])
    exact ⟨root, known, m, rfl, sameNode, top, fun same =>
      absurd (apart.1 same) (by decide +kernel), unfolds⟩

end Memo

end QueryOptimizer
