import QueryOptimizer.Proofs.Delivery.Alternative
import QueryOptimizer.Proofs.Memo.Outline

/-!
# What a search has on record

A search writes into a memo how expressions deliver properties and which of them
are the winners of their groups. Nothing else of the bookkeeping matters to the
plans that are read off.

Everything that enters expressions into a memo only fills it (`Memo.Fills`): records stay as
they are, and the new expressions have none.

## Main results

* `Memo.deliveries_offer`, `Memo.winners_offer`: what is on record after an offer.
* `Memo.Filed.insertKey`, `Memo.Filed.insertTree`: entering expressions only fills a memo, and
  they are there afterwards.
-/

namespace QueryOptimizer

/-! ### Values by property -/

instance : EquivBEq PhysicalProperty where
  rfl := PhysicalProperty.beq_iff_bare.2 rfl
  symm h := PhysicalProperty.beq_iff_bare.2 (PhysicalProperty.beq_iff_bare.1 h).symm
  trans h k := PhysicalProperty.beq_iff_bare.2
    ((PhysicalProperty.beq_iff_bare.1 h).trans (PhysicalProperty.beq_iff_bare.1 k))

namespace ByProperty

variable {α : Type} {m : ByProperty α} {p q : PhysicalProperty} {a : α}
  {x : PhysicalProperty × α}

@[simp] theorem get?_empty (p : PhysicalProperty) : ({} : ByProperty α).get? p = none := rfl

/-- Equal properties have one value. -/
theorem get?_congr (m : ByProperty α) (same : (p == q) = true) : m.get? p = m.get? q := by
  obtain ⟨entries⟩ := m
  unfold get?
  simp only
  induction entries with
  | nil => rfl
  | cons e rest ih => rw [List.lookup_cons, List.lookup_cons, BEq.congr_left same, ih]

/-- What is found after an entry has been made. -/
theorem get?_insert (m : ByProperty α) (p q : PhysicalProperty) (a : α) :
    (m.insert p a).get? q = if (p == q) = true then some a else m.get? q := by
  obtain ⟨entries⟩ := m
  unfold insert get?
  simp only
  induction entries with
  | nil =>
    by_cases same : (q == p) =
      true <;> simp [replaceOrAppend, List.lookup_cons, same, BEq.comm (a := p)]
  | cons e rest ih =>
    obtain ⟨k, b⟩ := e
    by_cases here : (p == k) = true
    · have again : (q == k) = (p == q) := by
        rw [BEq.comm, BEq.congr_left (BEq.symm here), BEq.comm]
      simp only [replaceOrAppend, here, if_true, List.lookup_cons, again]
      split <;> simp [*]
    · by_cases there : (q == k) = true
      · have apart : ¬(p == q) = true := fun same => here (BEq.trans same there)
        simp [replaceOrAppend, List.lookup_cons, here, there, apart]
      · simp [replaceOrAppend, List.lookup_cons, here, there, ih]

/-- After an offer there is the value that costs less, of equally cheap ones the one
that was there before. -/
theorem get?_offer {K : Type} [Quantity K] (cost : α → K) (m : ByProperty α)
    (p q : PhysicalProperty) (a : α) :
    (m.offer cost p a).get? q =
      if (p == q) = true then
        match m.get? q with
        | some old => if cost old ≤ cost a then some old else some a
        | none => some a
      else m.get? q := by
  unfold offer
  by_cases same : (p == q) = true
  · rw [if_pos same, get?_congr m same]
    cases known : m.get? q with
    | none => simp only [get?_insert, same, if_true]
    | some old =>
      simp only
      split
      · exact known
      · rw [get?_insert, if_pos same]
  · rw [if_neg same]
    split
    · split
      · rfl
      · rw [get?_insert, if_neg same]
    · rw [get?_insert, if_neg same]

/-- Replacing or appending an entry adds no other one. -/
theorem mem_replaceOrAppend {entries : List (PhysicalProperty × α)}
    (h : x ∈ replaceOrAppend p a entries) : x ∈ entries ∨ x.2 = a ∧ (p == x.1) = true := by
  induction entries with
  | nil =>
    obtain rfl := List.mem_singleton.1 h
    exact .inr ⟨rfl, BEq.rfl⟩
  | cons e rest ih =>
    obtain ⟨q, b⟩ := e
    simp only [replaceOrAppend] at h
    split at h
    · rename_i same
      rcases List.mem_cons.1 h with rfl | h
      · exact .inr ⟨rfl, same⟩
      · exact .inl (List.mem_cons_of_mem _ h)
    · rcases List.mem_cons.1 h with rfl | h
      · exact .inl (by simp)
      · exact (ih h).imp_left (List.mem_cons_of_mem _)

/-- An offer adds no other entry, whether it is taken or not. -/
theorem mem_offer {K : Type} [Quantity K] {cost : α → K} (h : x ∈ (m.offer cost p a).entries) :
    x ∈ m.entries ∨ x.2 = a ∧ (p == x.1) = true := by
  unfold offer at h
  split at h
  · split at h
    · exact .inl h
    · exact mem_replaceOrAppend h
  · exact mem_replaceOrAppend h

/-- What is found is the value of an entry for an equal property. -/
theorem exists_mem_of_get? (h : m.get? p = some a) :
    ∃ q, (q, a) ∈ m.entries ∧ (p == q) = true := by
  obtain ⟨entries⟩ := m
  unfold get? at h
  simp only at h ⊢
  induction entries with
  | nil => simp at h
  | cons e rest ih =>
    obtain ⟨q, b⟩ := e
    rw [List.lookup_cons] at h
    split at h
    · obtain rfl := Option.some.inj h
      exact ⟨q, by simp, ‹_›⟩
    · obtain ⟨q', mem, same⟩ := ih h
      exact ⟨q', List.mem_cons_of_mem _ mem, same⟩

end ByProperty

/-- Whether a tree is a new enforcer. -/
def ExprTree.isEnforcer : ExprTree → Bool
  | .operator op _ => op.isEnforcer
  | _ => false

namespace Memo

variable {K : Type} {m m' m'' : Memo K} {place : ExprId} {key : ExprKey}

/-! ### Records -/

/-- How the expression at a place is known to deliver properties. -/
def deliveries (m : Memo K) (id : ExprId) : ByProperty (Delivery K) :=
  (m.groups[id.group]?.bind fun g => g.exprs[id.index]?).elim {} (·.deliveries)

/-- How the expression at a place is known to deliver a property. -/
def delivery? (m : Memo K) (id : ExprId) (p : PhysicalProperty) : Option (Delivery K) :=
  (m.deliveries id).get? p

/-- The winners of a group. -/
def winners (m : Memo K) (id : GroupId) : ByProperty (Winner K) :=
  m.groups[id]?.elim {} (·.winners)

/-- The winner for a property is looked up in its group. -/
theorem winner?_eq (m : Memo K) (id : GroupId) (p : PhysicalProperty) :
    m.winner? id p = (m.winners id).get? p := by
  unfold winner? winners
  cases m.groups[id]? <;> rfl

/-- The winners of a group that is found. -/
theorem winners_of_group {id : GroupId} {g : Group K} (h : m.group id = .ok g) :
    m.winners id = g.winners := by
  simp [winners, group_eq_ok.1 h]

/-- The deliveries of an expression that is found. -/
theorem deliveries_of_expr {id : ExprId} {e : Expr K} (h : m.expr id = .ok e) :
    m.deliveries id = e.deliveries := by
  obtain ⟨g, hg, he⟩ := expr_eq_ok.1 h
  simp [deliveries, hg, he]

/-- A change to a group that keeps the deliveries of an expression keeps them in the memo. -/
theorem deliveries_modifyGroup (m : Memo K) (id : GroupId) {f : Group K → Group K}
    {place : ExprId} (kept : ∀ g, place.group = id → m.groups[id]? = some g →
      ((f g).exprs[place.index]?.elim {} (·.deliveries) : ByProperty (Delivery K)) =
        g.exprs[place.index]?.elim {} (·.deliveries)) :
    (m.modifyGroup id f).deliveries place = m.deliveries place := by
  simp only [deliveries, modifyGroup, Array.getElem?_modify]
  split
  · rename_i same
    cases hg : m.groups[place.group]? with
    | none => rfl
    | some g => exact kept g same.symm (same ▸ hg)
  · rfl

/-- A change to a group changes its own winners at most. -/
theorem winners_modifyGroup (m : Memo K) (id : GroupId) (f : Group K → Group K) (i : GroupId) :
    (m.modifyGroup id f).winners i =
      if id = i then m.groups[i]?.elim {} fun g => (f g).winners else m.winners i := by
  simp only [winners, modifyGroup, Array.getElem?_modify]
  split
  · cases m.groups[i]? <;> rfl
  · rfl

/-- A change to an expression changes its own deliveries at most. -/
theorem deliveries_modifyExpr (m : Memo K) (id : ExprId) (f : Expr K → Expr K)
    (place : ExprId) :
    (m.modifyExpr id f).deliveries place =
      if id = place then
        (m.groups[id.group]?.bind fun g => g.exprs[id.index]?).elim {} fun e =>
          (f e).deliveries
      else m.deliveries place := by
  obtain ⟨group, index⟩ := id
  obtain ⟨group', index'⟩ := place
  simp only [modifyExpr, deliveries, modifyGroup, Array.getElem?_modify, ExprId.mk.injEq]
  by_cases hg : group = group'
  · subst hg
    cases m.groups[group]? with
    | none => simp
    | some g =>
      by_cases hi : index = index'
      · subst hi
        simp only [Option.map_some, Option.bind_some, Array.getElem?_modify, if_true, and_self]
        cases g.exprs[index]? <;> rfl
      · simp [hi, Array.getElem?_modify]
  · simp [hg]

/-- A change to an expression changes no winner. -/
theorem winners_modifyExpr (m : Memo K) (id : ExprId) (f : Expr K → Expr K) (i : GroupId) :
    (m.modifyExpr id f).winners i = m.winners i := by
  rw [modifyExpr, winners_modifyGroup]
  split
  · rfl
  · rfl

section Offer

variable [Quantity K]

/-- Offering a delivery to an expression. -/
theorem deliveries_offer (hkey : m.key? place = some key) (p : PhysicalProperty)
    (d : Delivery K) (id : ExprId) :
    (m.offer place p d).deliveries id =
      if place = id then (m.deliveries id).offer Delivery.cost p d else m.deliveries id := by
  simp only [offer]
  rw [deliveries_modifyGroup _ _ (by intros; rfl), deliveries_modifyExpr]
  split
  · rename_i same
    subst same
    obtain ⟨e, he, -⟩ := exists_expr_of_key? hkey
    obtain ⟨g, hg, he'⟩ := expr_eq_ok.1 he
    simp [deliveries, hg, he']
  · rfl

/-- Offering a winner to a group. -/
theorem winners_offer (hkey : m.key? place = some key) (p : PhysicalProperty) (d : Delivery K)
    (id : GroupId) :
    (m.offer place p d).winners id =
      if place.group = id then (m.winners id).offer Winner.cost p ⟨d.cost, place⟩
      else m.winners id := by
  simp only [offer]
  rw [winners_modifyGroup]
  split
  · rename_i same
    subst same
    obtain ⟨e, he, -⟩ := exists_expr_of_key? hkey
    obtain ⟨g, hg, -⟩ := expr_eq_ok.1 he
    simp [modifyExpr, modifyGroup, Array.getElem?_modify, winners, hg]
  · exact winners_modifyExpr ..

end Offer

/-- A reset drops all deliveries. -/
@[simp] theorem deliveries_reset (m : Memo K) (id : ExprId) : m.reset.deliveries id = {} := by
  simp only [deliveries, reset, Array.getElem?_map]
  cases m.groups[id.group]? with
  | none => rfl
  | some g => cases he : g.exprs[id.index]? <;> simp [Group.reset, he, Expr.reset]

/-- A reset drops all winners. -/
@[simp] theorem winners_reset (m : Memo K) (id : GroupId) : m.reset.winners id = {} := by
  simp only [winners, reset, Array.getElem?_map]
  cases m.groups[id]? <;> rfl

/-! ### Memos in order -/

/-- Whether the index leads to equal expressions, and every enforcer is in the group that it is
applied to. -/
structure Filed (m : Memo K) : Prop where
  index : ∀ {k place}, m.index[k]? = some place → ∃ k', m.key? place = some k' ∧
    (k' == k) = true
  enforcer : ∀ {place key}, m.key? place = some key → key.operator.isEnforcer = true →
    key.inputs = [place.group]

/-- A memo that another one has grown into without anything being put on record. -/
structure Fills (m m' : Memo K) : Prop where
  extended : m.Extends m'
  filed : m'.Filed
  deliveries : ∀ id, m'.deliveries id = m.deliveries id
  winners : ∀ id, m'.winners id = m.winners id

/-- The memo without groups is in order. -/
theorem Filed.empty : ({} : Memo K).Filed :=
  ⟨fun found => by simp at found, fun hk => by simp [key?] at hk⟩

/-- Bookkeeping keeps a memo in order. -/
theorem Filed.like (h : m.Filed) (like : m.Like m') : m'.Filed where
  index found := by
    rw [like.index] at found
    obtain ⟨k', hk', same⟩ := h.index found
    exact ⟨k', (like.key _).trans hk', same⟩
  enforcer hk := h.enforcer ((like.key _).symm.trans hk)

/-- A memo in order has grown into itself. -/
theorem Fills.refl (h : m.Filed) : m.Fills m :=
  ⟨.refl m, h, fun _ => rfl, fun _ => rfl⟩

instance : IsTrans (Memo K) Fills where
  trans _ _ _ h h' := ⟨h.extended.trans h'.extended, h'.filed,
    fun id => (h'.deliveries id).trans (h.deliveries id),
    fun id => (h'.winners id).trans (h.winners id)⟩

namespace Filed

/-- Marking a group. -/
theorem modifyGroup (h : m.Filed) (id : GroupId) {f : Group K → Group K}
    (number : ∀ g, (f g).id = g.id) (relation : ∀ g, (f g).toRelation = g.toRelation)
    (exprs : ∀ g, (f g).exprs = g.exprs)
    (winners : ∀ g, (f g).winners = g.winners) : m.Fills (m.modifyGroup id f) := by
  have like : m.Like (m.modifyGroup id f) :=
    .modifyGroup m id number relation fun g i => by rw [exprs g]
  refine ⟨.ofLike like, h.like like, fun place => ?_, fun i => ?_⟩
  · exact deliveries_modifyGroup m id fun g _ _ => by rw [exprs g]
  · rw [winners_modifyGroup]
    simp only [winners, Memo.winners]
    split <;> rfl

/-- Marking an expression. -/
theorem modifyExpr (h : m.Filed) (id : ExprId) {f : Expr K → Expr K}
    (key : ∀ e, (f e).toExprKey = e.toExprKey)
    (deliveries : ∀ e, (f e).deliveries = e.deliveries) : m.Fills (m.modifyExpr id f) where
  extended := .ofLike (.modifyExpr m id key)
  filed := h.like (.modifyExpr m id key)
  deliveries place := by
    rw [deliveries_modifyExpr]
    simp only [deliveries]
    split
    · rename_i same
      subst same
      rfl
    · rfl
  winners := winners_modifyExpr m id f

/-! ### New expressions -/

/-- A new expression, which is in its group if it is an enforcer. -/
theorem addExpr (h : m.Filed) {id : GroupId} (added : m.addExpr id key = .ok (m', place))
    (enforcer : key.operator.isEnforcer = true → key.inputs = [id]) : m.Fills m' where
  extended := .addExpr added
  filed := by
    refine ⟨fun {k place'} found => ?_, fun {place' k} hk enforces => ?_⟩
    · rw [index_addExpr added] at found
      split at found
      · obtain rfl := Option.some.inj found
        exact ⟨key, by rw [key?_addExpr added, if_pos rfl], ‹_›⟩
      · obtain ⟨k', hk', same⟩ := h.index found
        exact ⟨k', key?_addExpr_of_some added hk', same⟩
    · rw [key?_addExpr added] at hk
      split at hk
      · rename_i new
        obtain rfl := Option.some.inj hk
        rw [new, group_of_addExpr added]
        exact enforcer enforces
      · exact h.enforcer hk enforces
  deliveries place' := by
    obtain ⟨g, hg, rfl, rfl⟩ := addExpr_eq_ok added
    refine deliveries_modifyGroup m id fun g' _ hg' => ?_
    simp only [Array.getElem?_push]
    split
    · rename_i last
      rw [last, Array.getElem?_eq_none (Nat.le_refl _)]
      rfl
    · rfl
  winners i := by
    obtain ⟨g, -, -, rfl⟩ := addExpr_eq_ok added
    change (m.modifyGroup id _).winners i = _
    rw [winners_modifyGroup]
    split <;> rfl

end Filed

/-! ### Trees in a memo -/

mutual

/-- Whether a group has a tree: at the root there is an expression of the group, over groups
that have the inputs. -/
def Contains (m : Memo K) (id : GroupId) : ExprTree → Prop
  | .operator op inputs => ∃ place ids, place.group = id ∧
    (∃ k, m.key? place = some k ∧ (k == ⟨op, ids⟩) = true) ∧ m.ContainsAll ids inputs
  | .expr place _ => place.group = id
  | .group i => i = id
termination_by structural t => t

/-- Whether groups have trees, one each. -/
def ContainsAll (m : Memo K) : List GroupId → List ExprTree → Prop
  | [], [] => True
  | id :: ids, t :: ts => m.Contains id t ∧ m.ContainsAll ids ts
  | _, _ => False
termination_by structural _ ts => ts

end

mutual

/-- A group keeps the trees that it has. -/
theorem Contains.extends (extended : m.Extends m') : ∀ {t : ExprTree} {id : GroupId},
    m.Contains id t → m'.Contains id t
  | .operator op inputs, id, h => by
    simp only [Contains] at h ⊢
    obtain ⟨place, ids, here, ⟨k, hk, same⟩, below⟩ := h
    exact ⟨place, ids, here, ⟨k, extended.key _ _ hk, same⟩, below.extends extended⟩
  | .expr place inputs, id, h | .group i, id, h => by simpa only [Contains] using h

/-- Groups contain trees for good. -/
theorem ContainsAll.extends (extended : m.Extends m') :
    ∀ {ts : List ExprTree} {ids : List GroupId}, m.ContainsAll ids ts → m'.ContainsAll ids ts
  | [], [], _ => by simp only [ContainsAll]
  | t :: ts, id :: ids, h => by
    simp only [ContainsAll] at h ⊢
    exact ⟨h.1.extends extended, h.2.extends extended⟩
  | [], _ :: _, h | _ :: _, [], h => by simp only [ContainsAll] at h

end

/-- A group contains a tree if it has its root over groups that contain the trees below. -/
theorem contains_operator {op : Operator} {inputs : List ExprTree} {ids : List GroupId}
    (placed : ∃ k, m.key? place = some k ∧ (k == ⟨op, ids⟩) = true)
    (below : m.ContainsAll ids inputs) : m.Contains place.group (.operator op inputs) := by
  simp only [Contains]
  exact ⟨place, ids, rfl, placed, below⟩

/-! ### New groups -/

/-- A memo that another one has grown into by groups being added. -/
structure Appends (m m' : Memo K) : Prop extends m.Fills m' where
  groups : ∀ i, i < m.groups.size → m'.groups[i]? = m.groups[i]?

instance : IsTrans (Memo K) Appends where
  trans _ _ _ h h' := ⟨trans_of Fills h.toFills h'.toFills, fun i hi =>
    (h'.groups i (Nat.lt_of_lt_of_le hi h.extended.size_le)).trans (h.groups i hi)⟩

/-- A memo in order has grown into itself without a change to its groups. -/
theorem Appends.refl (h : m.Filed) : m.Appends m :=
  ⟨.refl h, fun _ _ => rfl⟩

/-- Dropping the groups that were added. -/
theorem Appends.truncate (h : m.Filed) (appends : m.Appends m') :
    m.Fills (m'.truncate m.groups.size) := by
  have groups (i : GroupId) : (m'.truncate m.groups.size).groups[i]? = m.groups[i]? := by
    rw [groups_truncate]
    split
    · exact appends.groups i ‹_›
    · exact (Array.getElem?_eq_none (Nat.le_of_not_lt ‹_›)).symm
  have key (id : ExprId) : (m'.truncate m.groups.size).key? id = m.key? id := by
    simp only [key?, groups]
  have size : (m'.truncate m.groups.size).groups.size = m.groups.size := by
    rw [size_truncate]
    exact Nat.min_eq_left appends.extended.size_le
  refine ⟨.ofSize size (fun id r hr => ?_) (fun id k hk => (key id).trans hk)
    ((root_truncate _ _).trans appends.extended.root), ⟨fun {k place} found => ?_, fun hk =>
      h.enforcer ((key _).symm.trans hk)⟩, fun id => ?_, fun id => ?_⟩
  · simp only [relation?, groups] at hr ⊢
    exact hr
  · obtain ⟨found, inside⟩ := index_truncate found
    obtain ⟨k', hk', same⟩ := appends.filed.index found
    have old : place.group < m.groups.size :=
      inside.elim id fun all => Nat.lt_of_lt_of_le (lt_of_key? hk') all
    refine ⟨k', ?_, same⟩
    rw [key, ← hk', key?, key?, appends.groups _ old]
  · simp only [Memo.deliveries, groups]
  · simp only [Memo.winners, groups]

namespace Filed

variable {env : Environment K}

/-- Adding a group without expressions. -/
theorem addGroup (h : m.Filed) (op : LogicalOperator) (relation : Relation K) :
    (m.addGroup op relation).Filed ∧
    (∀ id, (m.addGroup op relation).deliveries id = m.deliveries id) ∧
      ∀ id, (m.addGroup op relation).winners id = m.winners id := by
  refine ⟨⟨fun {k place} found => ?_, fun hk =>
    h.enforcer ((key?_addGroup m op relation _).symm.trans hk)⟩, fun id => ?_, fun id => ?_⟩
  · obtain ⟨k', hk', same⟩ := h.index ((index_addGroup m op relation) ▸ found)
    exact ⟨k', (key?_addGroup m op relation _).trans hk', same⟩
  · simp only [deliveries, Memo.addGroup, Array.getElem?_push]
    split
    · rename_i new
      simp [new]
    · rfl
  · simp only [winners, Memo.addGroup, Array.getElem?_push]
    split
    · rename_i new
      simp [new]
    · rfl

/-- An expression in a group of its own. -/
theorem startGroup (h : m.Filed) {op : LogicalOperator} {inputs : List GroupId}
    {relation : Relation K} (below : ∀ i ∈ inputs, i < m.groups.size)
    (added : (m.addGroup op relation).addExpr m.groups.size ⟨.logical op, inputs⟩ =
      .ok (m', place)) : m.Appends m' := by
  obtain ⟨filed, deliveries, winners⟩ := h.addGroup op relation
  have fills := filed.addExpr added (fun enforces => by cases enforces)
  refine ⟨⟨.startGroup m op relation below added, fills.filed,
    fun id => (fills.deliveries id).trans (deliveries id),
    fun id => (fills.winners id).trans (winners id)⟩, fun i hi => ?_⟩
  obtain ⟨g, -, -, rfl⟩ := addExpr_eq_ok added
  simp [Memo.modifyGroup, Memo.addGroup, Array.getElem?_modify, Array.getElem?_push,
    Nat.ne_of_gt hi, Nat.ne_of_lt hi]

variable [Quantity K]

/-- An expression can be entered into a group of its own, whichever it is. It is at its place
afterwards. -/
theorem startKey (h : m.Filed) (key : ExprKey) :
    (Memo.insertKey env key none).Leads Appends m fun r m' =>
      ∃ k, m'.key? r.1 = some k ∧ (k == key) = true := by
  unfold MemoM.Leads
  obtain ⟨place, found, run⟩ | ⟨e, run⟩ | ⟨op, inputs, rels, relation, m', place,
    rfl, -, hrels, -, added, run⟩ := insertKey_none_cases env key m
  · rw [run]
    exact ⟨.refl h, fun r hr => Except.ok.inj hr ▸ h.index found⟩
  · rw [run]
    exact ⟨.refl h, fun r hr => by cases hr⟩
  · rw [run]
    refine ⟨h.startGroup (fun i hi => lt_of_relations hrels hi) added, fun r hr => ?_⟩
    obtain rfl := Except.ok.inj hr
    exact ⟨_, by rw [key?_addExpr added, if_pos rfl], BEq.rfl⟩

/-- An expression can be entered into a group, whichever it is. It is at its
place afterwards. -/
theorem insertKey (h : m.Filed) (key : ExprKey) (id : GroupId)
    (enforcer : key.operator.isEnforcer = true → key.inputs = [id]) :
    (Memo.insertKey env key (some id)).Leads Fills m fun r m' =>
      ∃ k, m'.key? r.1 = some k ∧ (k == key) = true := by
  unfold MemoM.Leads
  rw [exec_insertKey_some]
  cases found : m.index[key]? with
  | some place => exact ⟨.refl h, fun r hr => Except.ok.inj hr ▸ h.index found⟩
  | none =>
    cases added : m.addExpr id key with
    | error e => exact ⟨.refl h, fun _ hr => by cases hr⟩
    | ok r =>
      obtain ⟨m', place⟩ := r
      refine ⟨h.addExpr added enforcer, fun r hr => ?_⟩
      obtain rfl := Except.ok.inj hr
      exact ⟨key, by rw [key?_addExpr added, if_pos rfl], BEq.rfl⟩

/-- An enforcer can be entered into a group. An equal one is in the group afterwards. -/
theorem insertEnforcer (h : m.Filed) {op : PhysicalOperator} (enforces : op.isEnforcer = true)
    (group : GroupId) :
    (Memo.insertKey env ⟨.physical op, [group]⟩ (some group)).Leads Fills m fun r m' =>
      r.1.group = group ∧ ∃ op', (op' == op) = true ∧
        m'.key? r.1 = some ⟨.physical op', [group]⟩ := by
  refine (h.insertKey ⟨.physical op, [group]⟩ group fun _ => rfl).mono
    fun r m' fills ⟨⟨k, inputs⟩, hk, same⟩ => ?_
  obtain ⟨hop, rfl⟩ := ExprKey.mk.inj (ExprKey.beq_iff_bare.1 same)
  have hop := Operator.beq_iff_bare.2 hop
  have place := fills.filed.enforcer hk ((Operator.isEnforcer_congr hop).trans enforces)
  cases k with
  | logical k => cases hop
  | physical k => exact ⟨(List.singleton_inj.1 place).symm, k, hop, hk⟩

/-! ### New trees -/

/-- Inserting inputs goes on with the others after the first one. -/
theorem insertInputs_cons {t : ExprTree} {ts : List ExprTree}
    (node : (Memo.insertNode env none t).Leads Appends m fun r m' => m'.Contains r.1.group t)
    (rest : ∀ {m' : Memo K}, m'.Filed →
      (Memo.insertInputs env ts).Leads Appends m' fun ids m'' => m''.ContainsAll ids ts) :
    MemoM.Leads Appends m (do
        let (place, _) ← Memo.insertNode env none t
        return place.group :: (← Memo.insertInputs env ts))
      fun ids m' => m'.ContainsAll ids (t :: ts) := by
  refine node.bind fun r m' appends first => (rest appends.filed).bind
      fun ids m'' appends' others =>
    .pure (.refl appends'.filed) ?_
  simp only [ContainsAll]
  exact ⟨first.extends appends'.extended, others⟩

mutual

/-- A tree can be entered into a group of its own, whichever it is. It is there afterwards. -/
theorem insertNode : ∀ (t : ExprTree) {m : Memo K}, m.Filed →
    (Memo.insertNode env none t).Leads Appends m fun r m' => m'.Contains r.1.group t
  | .group id, _, h => .throw (.refl h) (.groupNotInsertable id)
  | .expr _ _, _, h => .pure (.refl h) (by simp only [Contains])
  | .operator op inputs, _, h => (insertInputs inputs h).bind fun ids _ appends below =>
      (appends.filed.startKey ⟨op, ids⟩).mono fun _ _ later placed =>
        contains_operator placed (below.extends later.extended)

/-- Inserting trees appends groups and leaves each tree in one of them. -/
theorem insertInputs : ∀ (ts : List ExprTree) {m : Memo K}, m.Filed →
    (Memo.insertInputs env ts).Leads Appends m fun ids m' => m'.ContainsAll ids ts
  | [], _, h => .pure (.refl h) (by simp only [ContainsAll])
  | .group _ :: ts, _, h => (insertInputs ts h).bind fun _ _ appends others =>
      .pure (.refl appends.filed) (by simp only [ContainsAll, Contains, true_and, others])
  | .expr id inputs :: ts, _, h =>
    insertInputs_cons (insertNode (.expr id inputs) h) fun h' => insertInputs ts h'
  | .operator op inputs :: ts, _, h =>
    insertInputs_cons (insertNode (.operator op inputs) h) fun h' => insertInputs ts h'

end

/-- A tree can be entered into a group, unless it is a new enforcer. It is in
the memo afterwards. -/
theorem insertTree (h : m.Filed) {t : ExprTree} (plain : t.isEnforcer = false) (id : GroupId) :
    (Memo.insertTree env t (some id)).Leads Fills m fun r m' => m'.Contains r.1.group t := by
  unfold MemoM.Leads
  simp only [Memo.insertTree, MemoM.exec_bind, MemoM.exec_get, MemoM.exec_tryCatch]
  cases t with
  | group i => exact ⟨(Appends.refl h).truncate h, fun r hr => by cases hr⟩
  | expr i inputs =>
    refine ⟨.refl h, fun r hr => ?_⟩
    obtain rfl := Except.ok.inj hr
    simp only [Contains]
  | operator op inputs =>
    simp only [Memo.insertNode, MemoM.exec_bind]
    obtain ⟨appends, below⟩ : (Memo.insertInputs env inputs).Leads Appends m fun ids m' =>
        m'.ContainsAll ids inputs := insertInputs inputs h
    rcases hr : (Memo.insertInputs env inputs).exec m with ⟨e | ids, m'⟩
    · rw [hr] at appends
      exact ⟨appends.truncate h, fun r hr => by cases hr⟩
    · rw [hr] at appends below
      obtain ⟨entered, placed⟩ : (Memo.insertKey env ⟨op, ids⟩ (some id)).Leads
        Fills m' fun r m'' =>
          ∃ k, m''.key? r.1 = some k ∧ (k == ⟨op, ids⟩) = true :=
        appends.filed.insertKey ⟨op, ids⟩ id fun enforces =>
          absurd enforces (Bool.not_eq_true _ ▸ plain)
      simp only
      rcases hk : (Memo.insertKey env ⟨op, ids⟩ (some id)).exec m' with ⟨e | r, m''⟩
      · obtain rfl := memo_of_insertKey_error hk
        exact ⟨appends.truncate h, fun r hr => by cases hr⟩
      · rw [hk] at entered placed
        refine ⟨trans_of Fills appends.toFills entered, fun r' hr' => ?_⟩
        obtain rfl := Except.ok.inj hr'
        exact contains_operator (placed r rfl) ((below ids rfl).extends entered.extended)

end Filed

end Memo

end QueryOptimizer
