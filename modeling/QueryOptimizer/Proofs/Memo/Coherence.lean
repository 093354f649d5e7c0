import QueryOptimizer.Proofs.Rule.Outcome
import QueryOptimizer.Proofs.Search.Reached

/-!
# Coherent memos

The index of a memo and its groups say the same thing twice: which expressions there are. In a
coherent memo they agree, so an expression is found whenever it is stored and no two places
hold equal ones. Every group begins with the logical expression that it was started with, and
the inputs of expressions are groups that are there.

A search changes a memo by few calls (`Memo.Assembled`): a plan is loaded, a rule's tree or an
enforcer is entered, books are kept. A call that fails counts too. `Memo.Interned` is what
survives in the middle of an insertion, when a group has been added and its expression has not.

## Main results

* `Memo.Coherent.insertTree`: entering a tree keeps a memo coherent, also when it fails halfway
  and the groups that were added are dropped.
* `Memo.Coherent.of_ofPlan`: the memo of a plan is coherent.
* `Memo.coherent_of_assembled`: whatever calls have been made, the memo is coherent.
-/

namespace QueryOptimizer

variable {K : Type}

namespace Memo

variable {m m' : Memo K} {place : ExprId} {key : ExprKey}

/-- Whether every group has its position as its number. -/
def Numbered (m : Memo K) : Prop :=
  ∀ (i : GroupId) (g : Group K), m.groups[i]? = some g → g.id = i

/-- Whether the index leads to the expressions that are stored, and to each of them,
whose inputs are groups. -/
structure Interned (m : Memo K) : Prop extends m.Filed where
  numbered : m.Numbered
  indexed : ∀ {place key}, m.key? place = some key → m.index[key]? = some place
  inputs : ∀ {place key}, m.key? place = some key → ∀ i ∈ key.inputs, i < m.groups.size

/-- Whether a memo is interned and each group begins with a logical expression. -/
structure Coherent (m : Memo K) : Prop extends m.Interned where
  first : ∀ id, id < m.groups.size → ∃ op inputs, m.key? ⟨id, 0⟩ = some ⟨.logical op, inputs⟩

/-! ### Numbers of groups -/

/-- The number that a group has. -/
theorem numbered_iff :
    m.Numbered ↔ ∀ i : GroupId, ∀ id ∈ m.groups[i]?.map Group.id, id = i := by
  constructor
  · intro h i id hid
    obtain ⟨g, hg, rfl⟩ := Option.map_eq_some_iff.1 hid
    exact h i g hg
  · exact fun h i g hg => h i g.id (by rw [hg]; rfl)

/-- Bookkeeping leaves the numbers of groups alone. -/
theorem Numbered.like (h : m.Numbered) (like : m.Like m') : m'.Numbered :=
  numbered_iff.2 fun i id hid => numbered_iff.1 h i id (like.number i ▸ hid)

/-- A new group gets the next number. -/
theorem Numbered.addGroup (h : m.Numbered) (op : LogicalOperator) (relation : Relation K) :
    (m.addGroup op relation).Numbered := by
  intro i g hg
  simp only [Memo.addGroup, Array.getElem?_push] at hg
  split at hg
  · obtain rfl := Option.some.inj hg
    exact Eq.symm ‹i = m.groups.size›
  · exact h i _ hg

/-- A new expression does not change the number of its group. -/
theorem Numbered.addExpr (h : m.Numbered) {id : GroupId}
    (added : m.addExpr id key = .ok (m', place)) : m'.Numbered := by
  obtain ⟨g, -, -, rfl⟩ := addExpr_eq_ok added
  intro i g' hg'
  simp only [modifyGroup, Array.getElem?_modify] at hg'
  split at hg'
  · obtain ⟨g, hg, rfl⟩ := Option.map_eq_some_iff.1 hg'
    exact h i g hg
  · exact h i _ hg'

/-- The groups that are kept have the numbers that they had. -/
theorem Numbered.truncate (h : m.Numbered) (count : Nat) : (m.truncate count).Numbered := by
  intro i g hg
  rw [groups_truncate] at hg
  split at hg
  · exact h i g hg
  · cases hg

/-! ### The index -/

/-- Equal expressions are stored in one place. -/
theorem Interned.unique (h : m.Interned) {place' : ExprId} {key' : ExprKey}
    (hk : m.key? place = some key) (hk' : m.key? place' = some key')
    (same : (key == key') = true) : place = place' := by
  have found := h.indexed hk
  rw [Std.HashMap.getElem?_congr same, h.indexed hk'] at found
  exact (Option.some.inj found).symm

/-- The index leads to a place exactly if an equal expression is there. -/
theorem Interned.index_eq_some (h : m.Interned) :
    m.index[key]? = some place ↔ ∃ k, m.key? place = some k ∧ (k == key) = true := by
  refine ⟨h.index, fun ⟨k, hk, same⟩ => ?_⟩
  rw [← Std.HashMap.getElem?_congr same]
  exact h.indexed hk

/-- Bookkeeping keeps expressions interned. -/
theorem Interned.like (h : m.Interned) (like : m.Like m') : m'.Interned where
  toFiled := h.toFiled.like like
  numbered := h.numbered.like like
  indexed hk := like.index ▸ h.indexed ((like.key _).symm.trans hk)
  inputs hk i hi := like.size ▸ h.inputs ((like.key _).symm.trans hk) i hi

/-- Bookkeeping keeps a memo coherent. -/
theorem Coherent.like (h : m.Coherent) (like : m.Like m') : m'.Coherent where
  toInterned := h.toInterned.like like
  first id hid := by
    obtain ⟨op, inputs, hk⟩ := h.first id (like.size ▸ hid)
    exact ⟨op, inputs, (like.key _).trans hk⟩

/-- The memo without groups is coherent. -/
theorem Coherent.empty : ({} : Memo K).Coherent where
  toFiled := .empty
  numbered _ _ hg := by cases hg
  indexed hk := by simp [key?] at hk
  inputs hk := by simp [key?] at hk
  first id hid := absurd hid (Nat.not_lt_zero id)

/-! ### New expressions -/

/-- A group without expressions. -/
theorem Interned.addGroup (h : m.Interned) (op : LogicalOperator) (relation : Relation K) :
    (m.addGroup op relation).Interned where
  toFiled := (h.toFiled.addGroup op relation).1
  numbered := h.numbered.addGroup op relation
  indexed hk := by
    rw [key?_addGroup] at hk
    exact h.indexed hk
  inputs hk i hi := by
    rw [key?_addGroup] at hk
    rw [size_addGroup]
    exact Nat.lt_succ_of_lt (h.inputs hk i hi)

/-- An expression that is not in the memo. -/
theorem Interned.addExpr (h : m.Interned) (new : m.index[key]? = none) {id : GroupId}
    (added : m.addExpr id key = .ok (m', place)) (inside : ∀ i ∈ key.inputs, i < m.groups.size)
    (enforcer : key.operator.isEnforcer = true → key.inputs = [id]) : m'.Interned where
  toFiled := (h.toFiled.addExpr added enforcer).filed
  numbered := h.numbered.addExpr added
  indexed {place' k} hk := by
    rw [key?_addExpr added] at hk
    rw [index_addExpr added]
    split at hk
    · obtain rfl := Option.some.inj hk
      rw [if_pos BEq.rfl]
      exact congrArg some (Eq.symm ‹place' = place›)
    · rw [if_neg, h.indexed hk]
      intro same
      rw [Std.HashMap.getElem?_congr same, h.indexed hk] at new
      cases new
  inputs hk i hi := by
    rw [key?_addExpr added] at hk
    rw [size_addExpr added]
    split at hk
    · obtain rfl := Option.some.inj hk
      exact inside i hi
    · exact h.inputs hk i hi

namespace Coherent

/-- A new expression over groups of the memo keeps it coherent. -/
theorem addExpr (h : m.Coherent) (new : m.index[key]? = none) {id : GroupId}
    (added : m.addExpr id key = .ok (m', place)) (inside : ∀ i ∈ key.inputs, i < m.groups.size)
    (enforcer : key.operator.isEnforcer = true → key.inputs = [id]) : m'.Coherent where
  toInterned := h.toInterned.addExpr new added inside enforcer
  first id hid := by
    obtain ⟨op, inputs, hk⟩ := h.first id (size_addExpr added ▸ hid)
    exact ⟨op, inputs, key?_addExpr_of_some added hk⟩

/-- A group and the expression that it begins with. -/
theorem startGroup (h : m.Coherent) {op : LogicalOperator} {ids : List GroupId}
    {relation : Relation K} (new : m.index[(⟨.logical op, ids⟩ : ExprKey)]? = none)
    (below : ∀ i ∈ ids, i < m.groups.size)
    (added : (m.addGroup op relation).addExpr m.groups.size ⟨.logical op, ids⟩ =
      .ok (m', place)) : m'.Coherent where
  toInterned := (h.toInterned.addGroup op relation).addExpr new added
    (fun i hi => by rw [size_addGroup]; exact Nat.lt_succ_of_lt (below i hi))
    (fun enforces => by cases enforces)
  first id hid := by
    rw [size_addExpr added, size_addGroup] at hid
    rcases Nat.lt_succ_iff_lt_or_eq.1 hid with old | rfl
    · obtain ⟨op', inputs, hk⟩ := h.first id old
      exact ⟨op', inputs,
        key?_addExpr_of_some added ((key?_addGroup m op relation _).trans hk)⟩
    · refine ⟨op, ids, ?_⟩
      rw [← place_of_startGroup m op relation added, key?_addExpr added, if_pos rfl]

/-- Dropping the groups that have been added. -/
theorem truncate (h : m.Coherent) (h' : m'.Coherent) (appends : m.Appends m') :
    (m'.truncate m.groups.size).Coherent := by
  have key (id : ExprId) : (m'.truncate m.groups.size).key? id = m.key? id := by
    rw [key?_truncate]
    split
    · rename_i old
      rw [key?, key?, appends.groups _ old]
    · rename_i new
      exact (Option.eq_none_iff_forall_ne_some.2 fun k hk => new (lt_of_key? hk)).symm
  have size : (m'.truncate m.groups.size).groups.size = m.groups.size := by
    rw [size_truncate, Nat.min_eq_left appends.extended.size_le]
  refine { toFiled := (appends.truncate h.toFiled).filed, numbered := h'.numbered.truncate _,
           indexed := ?_, inputs := ?_, first := ?_ }
  · intro place k hk
    rw [key] at hk
    have found : m'.index[k]? = some place := h'.indexed (appends.extended.key _ _ hk)
    unfold Memo.truncate
    split
    · exact found
    · rw [Std.HashMap.getElem?_filter, found]
      simp [lt_of_key? hk]
  · intro place k hk
    rw [size]
    exact h.inputs ((key place).symm.trans hk)
  · intro id hid
    obtain ⟨op, inputs, hk⟩ := h.first id (size ▸ hid)
    exact ⟨op, inputs, (key _).trans hk⟩

end Coherent

/-! ### Calls that enter expressions -/

/-- A coherent memo that has at least as many groups. -/
def Coheres (m m' : Memo K) : Prop :=
  m.groups.size ≤ m'.groups.size ∧ m'.Coherent

instance : IsTrans (Memo K) Coheres where
  trans _ _ _ h h' := ⟨Nat.le_trans h.1 h'.1, h'.2⟩

namespace Coherent

/-- A coherent memo has become itself. -/
theorem coheres (h : m.Coherent) : m.Coheres m :=
  ⟨Nat.le_refl _, h⟩

variable [Quantity K] {env : Environment K}

/-- Entering an expression into a group of its own. -/
theorem startKey (h : m.Coherent) (key : ExprKey) :
    (Memo.insertKey env key none).Leads Coheres m fun r m' => r.1.group < m'.groups.size := by
  unfold MemoM.Leads
  obtain ⟨place, found, run⟩ | ⟨e, run⟩ | ⟨op, inputs, rels, relation, m', place,
    rfl, new, hrels, -, added, run⟩ := insertKey_none_cases env key m
  · rw [run]
    refine ⟨h.coheres, fun r hr => ?_⟩
    obtain ⟨k, hk, -⟩ := h.index found
    obtain rfl := Except.ok.inj hr
    exact lt_of_key? hk
  · rw [run]
    exact ⟨h.coheres, fun r hr => by cases hr⟩
  · have size : m'.groups.size = m.groups.size + 1 := by rw [size_addExpr added, size_addGroup]
    have coherent : m'.Coherent :=
      h.startGroup new (fun i hi => lt_of_relations hrels hi) added
    rw [run]
    refine ⟨⟨size ▸ Nat.le_succ _, coherent⟩, fun r hr => ?_⟩
    obtain rfl := Except.ok.inj hr
    rw [group_of_addExpr added, size]
    exact Nat.lt_succ_self _

/-- Entering an expression into a group. -/
theorem insertKey (h : m.Coherent) (key : ExprKey) (id : GroupId)
    (inside : ∀ i ∈ key.inputs, i < m.groups.size)
    (enforcer : key.operator.isEnforcer = true → key.inputs = [id]) :
    (Memo.insertKey env key (some id)).Leads Coheres m fun _ _ => True := by
  refine ⟨?_, fun _ _ => trivial⟩
  rw [exec_insertKey_some]
  cases found : m.index[key]? with
  | some place => exact h.coheres
  | none =>
    cases added : m.addExpr id key with
    | error e => exact h.coheres
    | ok r =>
      exact ⟨Nat.le_of_eq (size_addExpr added).symm, h.addExpr found added inside enforcer⟩

/-- An enforcer can only be entered into its own group, if that is there. -/
theorem insertEnforcer (h : m.Coherent) {op : PhysicalOperator} (group : GroupId) :
    (Memo.insertKey env ⟨.physical op, [group]⟩ (some group)).Leads Coheres m
      fun _ _ => True := by
  by_cases inside : group < m.groups.size
  · exact h.insertKey _ group (by simpa using inside) fun _ => rfl
  · refine ⟨?_, fun _ _ => trivial⟩
    rw [exec_insertKey_some]
    cases m.index[(⟨.physical op, [group]⟩ : ExprKey)]? with
    | some place => exact h.coheres
    | none =>
      cases added : m.addExpr group ⟨.physical op, [group]⟩ with
      | error e => exact h.coheres
      | ok r =>
        obtain ⟨g, hg, -⟩ := addExpr_eq_ok added
        exact absurd (Array.getElem?_eq_some_iff.1 hg).1 inside

/-! #### Trees -/

/-- Inserting inputs keeps a memo coherent if it does so for the first one
and for the others. -/
theorem insertInputs_cons {t : ExprTree} {ts : List ExprTree}
    (inside : ∀ u ∈ ts, u.Within m.groups.size)
    (node : (Memo.insertNode env none t).Leads Coheres m fun r m' =>
      r.1.group < m'.groups.size)
    (rest : ∀ {m' : Memo K}, m'.Coherent → (∀ u ∈ ts, u.Within m'.groups.size) →
      (Memo.insertInputs env ts).Leads Coheres m' fun ids m'' =>
        ∀ i ∈ ids, i < m''.groups.size) :
    MemoM.Leads Coheres m (do
        let (place, _) ← Memo.insertNode env none t
        return place.group :: (← Memo.insertInputs env ts))
      fun ids m' => ∀ i ∈ ids, i < m'.groups.size := by
  refine node.bind fun r m' ⟨le, coherent⟩ first =>
    (rest coherent fun u hu => (inside u hu).mono le).bind fun ids m''
        ⟨le', coherent'⟩ others =>
      .pure coherent'.coheres ?_
  exact List.forall_mem_cons.2 ⟨Nat.lt_of_lt_of_le first le', others⟩

mutual

/-- Entering a tree over groups that are there into a group of its own. -/
theorem insertNode : ∀ (t : ExprTree) {m : Memo K}, m.Coherent → t.Within m.groups.size →
    (Memo.insertNode env none t).Leads Coheres m fun r m' => r.1.group < m'.groups.size
  | .group id, _, h, _ => .throw h.coheres (.groupNotInsertable id)
  | .expr _ _, _, h, .expr inside => .pure h.coheres inside
  | .operator op inputs, _, h, .operator below => (insertInputs inputs h below).bind
      fun ids _ ⟨_, coherent⟩ _ => coherent.startKey ⟨op, ids⟩

/-- Inserting trees over groups of the memo keeps it coherent and leads to groups of it. -/
theorem insertInputs : ∀ (ts : List ExprTree) {m : Memo K}, m.Coherent →
    (∀ t ∈ ts, t.Within m.groups.size) →
      (Memo.insertInputs env ts).Leads Coheres m fun ids m' => ∀ i ∈ ids, i < m'.groups.size
  | [], _, h, _ => .pure h.coheres (by simp)
  | .group id :: ts, _, h, inside => by
    obtain ⟨first, others⟩ := List.forall_mem_cons.1 inside
    obtain - | - | first := first
    exact (insertInputs ts h others).bind fun ids m' ⟨le, coherent⟩ below =>
      .pure coherent.coheres (List.forall_mem_cons.2 ⟨Nat.lt_of_lt_of_le first le, below⟩)
  | .expr id inputs :: ts, _, h, inside =>
    insertInputs_cons (List.forall_mem_cons.1 inside).2
      (insertNode (.expr id inputs) h (List.forall_mem_cons.1 inside).1)
      fun h' inside' => insertInputs ts h' inside'
  | .operator op inputs :: ts, _, h, inside =>
    insertInputs_cons (List.forall_mem_cons.1 inside).2
      (insertNode (.operator op inputs) h (List.forall_mem_cons.1 inside).1)
      fun h' inside' => insertInputs ts h' inside'

end

/-- Entering a tree over groups that are there into a group, unless it is a new enforcer. If
that fails the groups that were added are dropped. -/
theorem insertTree (h : m.Coherent) {t : ExprTree} (inside : t.Within m.groups.size)
    (plain : t.isEnforcer = false) (id : GroupId) :
    (Memo.insertTree env t (some id)).Leads Coheres m fun _ _ => True := by
  refine ⟨?_, fun _ _ => trivial⟩
  have undone {m' : Memo K} (appends : m.Appends m') (coherent : m'.Coherent) :
      m.Coheres (m'.truncate m.groups.size) := by
    refine ⟨?_, h.truncate coherent appends⟩
    rw [size_truncate, Nat.min_eq_left appends.extended.size_le]
  simp only [Memo.insertTree, MemoM.exec_bind, MemoM.exec_get, MemoM.exec_tryCatch]
  cases t with
  | group i => exact undone (.refl h.toFiled) h
  | expr i inputs => exact h.coheres
  | operator op inputs =>
    have parts : ∀ u ∈ inputs, u.Within m.groups.size := by
      cases inside with
      | operator below => exact below
    simp only [Memo.insertNode, MemoM.exec_bind]
    obtain ⟨appends, -⟩ : (Memo.insertInputs env inputs).Leads Appends m fun ids m' =>
        m'.ContainsAll ids inputs := h.toFiled.insertInputs inputs
    obtain ⟨⟨le, coherent⟩, below⟩ : (Memo.insertInputs env inputs).Leads
      Coheres m fun ids m' =>
        ∀ i ∈ ids, i < m'.groups.size := insertInputs inputs h parts
    rcases hr : (Memo.insertInputs env inputs).exec m with ⟨e | ids, m'⟩
    · rw [hr] at appends coherent
      exact undone appends coherent
    · rw [hr] at appends le coherent below
      obtain ⟨⟨le', coherent'⟩, -⟩ :
          (Memo.insertKey env ⟨op, ids⟩ (some id)).Leads Coheres m' fun _ _ => True :=
        coherent.insertKey ⟨op, ids⟩ id (below ids rfl) fun enforces =>
          absurd enforces (Bool.not_eq_true _ ▸ plain)
      simp only
      rcases hk : (Memo.insertKey env ⟨op, ids⟩ (some id)).exec m' with ⟨e | r, m''⟩
      · obtain rfl := memo_of_insertKey_error hk
        exact undone appends coherent
      · rw [hk] at le' coherent'
        exact ⟨Nat.le_trans le le', coherent'⟩

/-! #### Plans -/

/-- Loading keeps a memo coherent. -/
theorem loadRelation : LoadRelation env (Coheres (K := K)) where
  trans _ _ _ := trans_of Coheres
  self step := step.2.coheres
  startKey key h := (h.2.startKey key).mono fun _ _ _ _ => trivial

/-- The memo of a plan is coherent. -/
theorem of_ofPlan {plan : Plan K} (made : Memo.ofPlan env plan = .ok m) : m.Coherent := by
  obtain ⟨group, m', ⟨-, coherent⟩, rfl⟩ := loadRelation.of_ofPlan Coherent.empty.coheres made
  exact ⟨⟨⟨coherent.index, coherent.enforcer⟩, coherent.numbered, coherent.indexed,
    coherent.inputs⟩, coherent.first⟩

/-- The root of a plan is in its memo. -/
theorem root_lt_of_ofPlan {plan : Plan K} (made : Memo.ofPlan env plan = .ok m) :
    m.root < m.groups.size := by
  obtain ⟨id, op, inputs, estimate⟩ := plan
  obtain ⟨-, inside⟩ : MemoM.Leads Coheres ({} : Memo K)
      ((Memo.loadNode env ⟨id, op, inputs, estimate⟩).run {}) fun r m' =>
        r.1 < m'.groups.size := by
    rw [run_loadNode, Std.HashMap.getElem?_empty]
    refine (loadRelation.loadInputs inputs {} Coherent.empty.coheres).bind
      fun below m' ⟨_, coherent⟩ _ => ?_
    exact (coherent.startKey ⟨op, below.1⟩).bind fun entered m'' ⟨_, coherent'⟩ inside =>
      .pure coherent'.coheres inside
  obtain ⟨group, known, m', run, rfl⟩ := exists_loadNode_of_ofPlan made
  rw [run] at inside
  exact inside _ rfl

end Coherent

/-! ### Sequences of calls -/

variable [Quantity K] {env : Environment K}

/-- The memos that the calls of a search can make, whether they succeed or fail: loading
a plan, entering what a rule makes of a binding into the group of the binding, entering
an enforcer into its group, offering winners, starting a new search, and any other
change of the books. -/
inductive Assembled (env : Environment K) : Memo K → Prop
  | load {plan : Plan K} {m : Memo K} (made : ofPlan env plan = .ok m) : Assembled env m
  | tree {m : Memo K} {rule : RuleId} {t t' : ExprTree} {id : GroupId}
      (before : Assembled env m) (root : t.rootGroup = .ok id) (binds : m.Binds rule.pattern t)
      (made : rule.apply m t = .ok (some t')) :
      Assembled env ((insertTree env t' (some id)).exec m).2
  | enforcer {m : Memo K} {op : PhysicalOperator} {group : GroupId} (before : Assembled env m)
      (enforces : op.isEnforcer = true) :
      Assembled env ((insertKey env ⟨.physical op, [group]⟩ (some group)).exec m).2
  | offer {m : Memo K} (id : ExprId) (p : PhysicalProperty) (d : Delivery K)
      (before : Assembled env m) : Assembled env (m.offer id p d)
  | reset {m : Memo K} (before : Assembled env m) : Assembled env m.reset
  | mark {m m' : Memo K} (before : Assembled env m) (like : m.Like m') : Assembled env m'

/-- A memo that was assembled is coherent. -/
theorem Assembled.coherent (h : Assembled env m) : m.Coherent := by
  induction h with
  | load made => exact .of_ofPlan made
  | @tree m rule t t' id _ root binds made ih =>
    obtain ⟨place, _, k, -, known, rewrites⟩ := RuleId.rewrites_of_apply binds made
    exact (ih.insertTree (rewrites.within ih.inputs known)
      (RuleId.isEnforcer_of_apply binds made) id).1.2
  | @enforcer m op group _ _ ih => exact (ih.insertEnforcer group).1.2
  | @offer m id p d _ ih => exact ih.like (.offer m id p d)
  | @reset m _ ih => exact ih.like (.reset m)
  | mark _ like ih => exact ih.like like

/-- A memo that a search can make of another one. -/
structure Assembles (env : Environment K) (m m' : Memo K) : Prop where
  extended : m.Extends m'
  assembled : Assembled env m'

/-- The steps of a search assemble a memo. -/
theorem assembles_steps : StepRelation env (Assembles (K := K) env) where
  trans _ _ _ h h' := ⟨h.extended.trans h'.extended, h'.assembled⟩
  self h := ⟨.refl _, h.assembled⟩
  extended h := h.extended
  like h like := ⟨.ofLike like, h.assembled.mark like⟩
  tree {m id rule t t'} h inside root binds made := by
    refine ⟨⟨?_, h.assembled.tree root binds made⟩, fun _ _ => trivial⟩
    exact (h.assembled.coherent.toFiled.insertTree (RuleId.isEnforcer_of_apply binds made)
      id.group).1.extended
  enforcer {m op group} h enforces :=
    ⟨⟨(h.assembled.coherent.toFiled.insertKey _ group fun _ => rfl).1.extended,
      h.assembled.enforcer enforces⟩, fun _ _ => trivial⟩

/-- A search makes no other calls. -/
theorem Reached.assembled {m₀ : Memo K} (start : Assembled env m₀) (h : Reached env m₀ m) :
    Assembled env m :=
  (h.of_steps assembles_steps ⟨.refl _, start⟩).assembled

/-- Whatever calls have been made, the index and the stored expressions are in bijection: a key
leads to a place exactly if an equal key is stored there, and no two places store equal keys.
Every group has its position as its number and begins with a logical expression, inputs are
groups that are there, and the input of an enforcer is its own group. A search on the memo of a
plan makes no other calls. -/
theorem coherent_of_assembled (env : Environment K) :
    (∀ m, Assembled env m →
      (∀ key place, m.index[key]? = some place ↔ ∃ k, m.key? place = some k ∧
        (k == key) = true) ∧
      (∀ place place' k k', m.key? place = some k → m.key? place' = some k' →
        (k == k') = true →
        place = place') ∧
      (∀ (id : GroupId) g, m.groups[id]? = some g → g.id = id) ∧
      (∀ id, id < m.groups.size → ∃ op inputs, m.key? ⟨id, 0⟩ = some ⟨.logical op, inputs⟩) ∧
      (∀ place k, m.key? place = some k → ∀ i ∈ k.inputs, i < m.groups.size) ∧
      (∀ place k, m.key? place = some k → k.operator.isEnforcer = true →
        k.inputs = [place.group])) ∧
    ∀ plan m₀ m, ofPlan env plan = .ok m₀ → Reached env m₀ m → Assembled env m := by
  refine ⟨fun m h => ?_, fun plan m₀ m made reached => reached.assembled (.load made)⟩
  have coherent := h.coherent
  exact ⟨fun _ _ => coherent.index_eq_some, fun _ _ _ _ hk hk' same =>
    coherent.unique hk hk' same, coherent.numbered, coherent.first, fun _ _ hk =>
      coherent.inputs hk, fun _ _ hk => coherent.enforcer hk⟩

open Sample in
/-- After the search of an example there is a sort in the group that it was put into, which
the index leads to. -/
theorem coherent_of_assembled_sample : ∃ m₀ m : Memo ℝ, ofPlan bareSetting rowsPlan = .ok m₀ ∧
    Reached bareSetting m₀ m ∧ m.key? ⟨0, 2⟩ = some sortKey ∧ m.index[sortKey]? = some ⟨0, 2⟩ ∧
    sortKey.inputs = [0] := by
  obtain ⟨r, derived, -⟩ := exists_derived (K := ℝ)
  have made : ofPlan bareSetting rowsPlan = .ok (entered r) := ofPlan_rowsPlan derived
  have reached : Reached bareSetting (entered r)
      (optimize bareSetting 5 inOrder Stage.defaults (entered r)).memo :=
    reached_optimize 5 inOrder Stage.defaults (entered r)
  rw [optimize_entered.2] at reached
  obtain ⟨coherent, calls⟩ := coherent_of_assembled (bareSetting (K := ℝ))
  obtain ⟨index, -, -, -, -, enforcers⟩ := coherent _ (calls rowsPlan _ _ made reached)
  have stored : (optimized r).key? ⟨0, 2⟩ = some sortKey := rfl
  exact ⟨_, _, made, reached, stored, (index _ _).2 ⟨_, stored, BEq.rfl⟩,
    enforcers _ _ stored rfl⟩

end Memo

end QueryOptimizer
