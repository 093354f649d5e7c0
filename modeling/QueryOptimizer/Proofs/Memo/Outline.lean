import QueryOptimizer.Memo.Insertion
import QueryOptimizer.Memo.Winner
import QueryOptimizer.Proofs.Bare
import QueryOptimizer.Proofs.Result

/-!
# What a memo stores

The keys of the expressions of a memo and what is derived about its groups, and what the
operations on memos do to them. Everything else in a memo is bookkeeping of the search: memos
are alike when they differ in nothing but that.

`MemoM.exec` runs a computation on a memo.

## Main results

* `MemoM.exec_bind`: the second part of a computation runs on the memo that the
  first one leaves.
* `Memo.key?_addExpr`, `Memo.relation?_addGroup`: what insertions add.
* `Memo.Like.offer`, `Memo.Like.reset`: the bookkeeping of a search.
-/

namespace QueryOptimizer

variable {K : Type}

/-! ### Computations -/

namespace MemoM

variable {α β : Type}

/-- The result of a computation on a memo, and the memo afterwards. -/
def exec (x : MemoM K α) (m : Memo K) : OptResult α × Memo K :=
  x.run.run m

@[simp] theorem exec_pure (a : α) (m : Memo K) :
    (pure a : MemoM K α).exec m = (.ok a, m) := rfl

@[simp] theorem exec_throw (e : OptError) (m : Memo K) :
    (throw e : MemoM K α).exec m = (.error e, m) := rfl

@[simp] theorem exec_get (m : Memo K) : (get : MemoM K (Memo K)).exec m = (.ok m, m) := rfl

@[simp] theorem exec_set (m m' : Memo K) :
    (set m' : MemoM K PUnit).exec m = (.ok ⟨⟩, m') := rfl

@[simp] theorem exec_modify (f : Memo K → Memo K) (m : Memo K) :
    (modify f : MemoM K PUnit).exec m = (.ok ⟨⟩, f m) := rfl

@[simp] theorem exec_lift (r : OptResult α) (m : Memo K) :
    (liftM r : MemoM K α).exec m = (r, m) := rfl

/-- A composition runs the second part on the memo that the first one
leaves, unless that fails. -/
theorem exec_bind (x : MemoM K α) (f : α → MemoM K β) (m : Memo K) :
    (x >>= f).exec m =
      match x.exec m with
      | (.ok a, m) => (f a).exec m
      | (.error e, m) => (.error e, m) := by
  simp only [exec, ExceptT.run_bind, StateT.run_bind]
  rcases StateT.run x.run m with ⟨_ | _, _⟩ <;> rfl

/-- A composition goes on with the second part when the first one has a result. -/
theorem exec_bind_of_ok {x : MemoM K α} {f : α → MemoM K β} {m m' : Memo K} {a : α}
    (h : x.exec m = (.ok a, m')) : (x >>= f).exec m = (f a).exec m' := by
  rw [exec_bind, h]

/-- A failure is handled on the memo that the failed computation leaves. -/
theorem exec_tryCatch (x : MemoM K α) (handle : OptError → MemoM K α) (m : Memo K) :
    (tryCatch x handle).exec m =
      match x.exec m with
      | (.ok a, m) => (.ok a, m)
      | (.error e, m) => (handle e).exec m := by
  simp only [exec, ExceptT.run_tryCatch, StateT.run_bind]
  rcases StateT.run x.run m with ⟨_ | _, _⟩ <;> rfl

/-- A computation leads from a memo to one that is related to it; if it has a result,
that is as `post` says. -/
def Leads (R : Memo K → Memo K → Prop) (m : Memo K) (x : MemoM K α)
    (post : α → Memo K → Prop) : Prop :=
  R m (x.exec m).2 ∧ ∀ a, (x.exec m).1 = .ok a → post a (x.exec m).2

namespace Leads

variable {R : Memo K → Memo K → Prop} {m : Memo K} {x : MemoM K α} {f : α → MemoM K β}
  {post : α → Memo K → Prop} {post' : β → Memo K → Prop}

/-- A returned value leaves the memo alone. -/
theorem pure (self : R m m) {a : α} (ha : post a m) : Leads R m (pure a) post :=
  ⟨self, fun _ e => Except.ok.inj e ▸ ha⟩

/-- An error leaves the memo alone. -/
theorem throw (self : R m m) (e : OptError) : Leads R m (throw e) post :=
  ⟨self, fun _ he => by cases he⟩

/-- The relation between the memos may be weakened. -/
theorem imp {R' : Memo K → Memo K → Prop} (hx : Leads R m x post)
    (h : ∀ m', R m m' → R' m m') :
    Leads R' m x post :=
  ⟨h _ hx.1, hx.2⟩

/-- What is known of the result may be weakened. -/
theorem mono {post' : α → Memo K → Prop} (hx : Leads R m x post)
    (h : ∀ a m', R m m' → post a m' → post' a m') : Leads R m x post' :=
  ⟨hx.1, fun a ha => h a _ hx.1 (hx.2 a ha)⟩

/-- A composition leads where the second part leads from where the first one does. -/
theorem bind [IsTrans (Memo K) R] (hx : Leads R m x post)
    (hf : ∀ a m', R m m' → post a m' → Leads R m' (f a) post') :
    Leads R m (x >>= f) post' := by
  obtain ⟨step, result⟩ := hx
  unfold Leads
  rw [exec_bind]
  rcases h : x.exec m with ⟨e | a, m'⟩
  · rw [h] at step
    exact ⟨step, fun _ he => by cases he⟩
  · rw [h] at step result
    obtain ⟨step', result'⟩ := hf a m' step (result a rfl)
    exact ⟨trans_of R step step', result'⟩

/-- Reading the memo. -/
theorem get_bind {f : Memo K → MemoM K β} (hf : Leads R m (f m) post') :
    Leads R m (get >>= f) post' := by
  unfold Leads at hf ⊢
  rwa [exec_bind]

/-- A step that may fail and leaves the memo alone. -/
theorem lift_bind {r : OptResult α} (self : R m m)
    (hf : ∀ a, r = .ok a → Leads R m (f a) post') : Leads R m (liftM r >>= f) post' := by
  unfold Leads
  rw [exec_bind, exec_lift]
  cases r with
  | error e => exact ⟨self, fun _ he => by cases he⟩
  | ok a => exact hf a rfl

/-- A change of the memo leads to the changed memo. -/
theorem modify {f : Memo K → Memo K} (step : R m (f m)) :
    Leads R m (modify f) fun _ m' => m' = f m :=
  ⟨step, fun _ _ => rfl⟩

/-- What holds of an element and its result goes on holding while later elements
are gone through. -/
theorem mapM [IsTrans (Memo K) R] {as : List α} {Q : α → β → Memo K → Prop} (self : R m m)
    (next : ∀ m', R m m' → R m' m') (keep : ∀ a b m' m'', R m' m'' → Q a b m' → Q a b m'')
    (step : ∀ a ∈ as, ∀ m', R m m' → Leads R m' (f a) (Q a)) :
    Leads R m (as.mapM f) fun bs m' => List.Forall₂ (fun a b => Q a b m') as bs := by
  induction as generalizing m with
  | nil =>
    rw [List.mapM_nil]
    exact .pure self .nil
  | cons a as ih =>
    rw [List.mapM_cons]
    refine (step a (by simp) m self).bind fun b m' first hb => ?_
    refine (ih (next m' first) (fun m'' second => next m'' (trans_of R first second))
      fun c hc m'' second =>
      step c (List.mem_cons_of_mem a hc) m'' (trans_of R first second)).bind
        fun bs m'' second hbs => .pure (next m'' (trans_of R first second)) ?_
    exact .cons (keep a b m' m'' second hb) hbs

end Leads

end MemoM

namespace Memo

/-! ### Keys and relations -/

/-- The key of the expression at a place. -/
def key? (m : Memo K) (id : ExprId) : Option ExprKey :=
  m.groups[id.group]?.bind fun g => g.exprs[id.index]?.map Expr.toExprKey

/-- What is derived about a group. -/
def relation? (m : Memo K) (id : GroupId) : Option (Relation K) :=
  m.groups[id]?.map Group.toRelation

/-- A group is found if the memo has it. -/
theorem group_eq_ok {m : Memo K} {id : GroupId} {g : Group K} :
    m.group id = .ok g ↔ m.groups[id]? = some g := by
  unfold group
  cases m.groups[id]? <;> simp

/-- An expression is found if its group has it. -/
theorem expr_eq_ok {m : Memo K} {id : ExprId} {e : Expr K} :
    m.expr id = .ok e ↔ ∃ g, m.groups[id.group]? = some g ∧ g.exprs[id.index]? = some e := by
  unfold expr group
  cases m.groups[id.group]? with
  | none => simp [bind, Except.bind]
  | some g => cases h : g.exprs[id.index]? <;> simp [bind, Except.bind, pure, Except.pure, h]

/-- The key of an expression that is found. -/
theorem key?_of_expr {m : Memo K} {id : ExprId} {e : Expr K} (h : m.expr id = .ok e) :
    m.key? id = some e.toExprKey := by
  obtain ⟨g, hg, he⟩ := expr_eq_ok.1 h
  simp [key?, hg, he]

/-- A place that has a key has an expression. -/
theorem exists_expr_of_key? {m : Memo K} {id : ExprId} {k : ExprKey} (h : m.key? id = some k) :
    ∃ e, m.expr id = .ok e ∧ e.toExprKey = k := by
  obtain ⟨g, hg, h⟩ := Option.bind_eq_some_iff.1 h
  obtain ⟨e, he, rfl⟩ := Option.map_eq_some_iff.1 h
  exact ⟨e, expr_eq_ok.2 ⟨g, hg, he⟩, rfl⟩

/-- The relation of a group that is found. -/
theorem relation?_of_group {m : Memo K} {id : GroupId} {g : Group K} (h : m.group id = .ok g) :
    m.relation? id = some g.toRelation := by
  simp [relation?, group_eq_ok.1 h]

/-- Groups that the memo does not have yet have no relation. -/
theorem relation?_eq_none_iff {m : Memo K} {id : GroupId} :
    m.relation? id = none ↔ m.groups.size ≤ id := by
  simp [relation?]

/-- A group with a relation is in the memo. -/
theorem lt_of_relation? {m : Memo K} {id : GroupId} {r : Relation K}
    (h : m.relation? id = some r) : id < m.groups.size := by
  refine Nat.lt_of_not_le fun hge => ?_
  rw [relation?_eq_none_iff.2 hge] at h
  cases h

/-- The relations of groups are those of each of them. -/
theorem relations_eq_ok {m : Memo K} {ids : List GroupId} {rels : Inputs K} :
    m.relations ids = .ok rels ↔
      List.Forall₂ (fun i r => m.relation? i = some r) ids rels := by
  have each (i : GroupId) (r : Relation K) :
      (do return (← m.group i).toRelation : OptResult (Relation K)) = .ok r ↔
        m.relation? i = some r := by
    simp only [OptResult.bind_eq_ok, OptResult.pure_eq_ok, relation?, Option.map_eq_some_iff,
      group_eq_ok]
  unfold relations
  simp only [OptResult.mapM_eq_ok, each]

/-- Groups with relations are in the memo. -/
theorem lt_of_relations {m : Memo K} {ids : List GroupId} {rels : Inputs K}
    (h : m.relations ids = .ok rels) {i : GroupId} (hi : i ∈ ids) : i < m.groups.size := by
  have known := relations_eq_ok.1 h
  clear h
  induction known with
  | nil => simp at hi
  | cons first _ ih =>
    rcases List.mem_cons.1 hi with rfl | hi
    · exact lt_of_relation? first
    · exact ih hi

/-- Something is derived about every group. -/
theorem exists_relations {m : Memo K} {ids : List GroupId}
    (inside : ∀ i ∈ ids, i < m.groups.size) : ∃ rels, m.relations ids = .ok rels := by
  suffices h : ∃ rels, List.Forall₂ (fun i r => m.relation? i = some r) ids rels from
    h.imp fun _ => relations_eq_ok.2
  induction ids with
  | nil => exact ⟨[], .nil⟩
  | cons id ids ih =>
    obtain ⟨rels, hrels⟩ := ih fun i hi => inside i (List.mem_cons_of_mem id hi)
    obtain ⟨r, hr⟩ := Option.ne_none_iff_exists'.1
      (mt relation?_eq_none_iff.1 (Nat.not_le_of_lt (inside id (by simp))))
    exact ⟨r :: rels, .cons hr hrels⟩

/-- The group of an expression is in the memo. -/
theorem lt_of_key? {m : Memo K} {id : ExprId} {k : ExprKey} (h : m.key? id = some k) :
    id.group < m.groups.size := by
  obtain ⟨g, hg, -⟩ := Option.bind_eq_some_iff.1 h
  exact (Array.getElem?_eq_some_iff.1 hg).1

/-- The places of a group are those of its expressions that pass the test. -/
theorem mem_placesOf {m : Memo K} {id : GroupId} {g : Group K} (hg : m.group id = .ok g)
    {p : Operator → Bool} {place : ExprId} :
    place ∈ g.placesOf id p ↔
      place.group = id ∧ ∃ k, m.key? place = some k ∧ p k.operator = true := by
  obtain ⟨group, index⟩ := place
  simp only [Group.placesOf, List.mem_filterMap, List.mem_range, Option.ite_none_right_eq_some,
    Option.some.injEq, ExprId.mk.injEq, Option.any_eq_true]
  constructor
  · rintro ⟨i, -, ⟨e, he, passes⟩, rfl, rfl⟩
    exact ⟨rfl, e.toExprKey, key?_of_expr (expr_eq_ok.2 ⟨g, group_eq_ok.1 hg, he⟩), passes⟩
  · rintro ⟨rfl, k, hk, passes⟩
    obtain ⟨e, he, rfl⟩ := exists_expr_of_key? hk
    obtain ⟨g', hg', he⟩ := expr_eq_ok.1 he
    obtain rfl := Option.some.inj (hg'.symm.trans (group_eq_ok.1 hg))
    exact ⟨index, (Array.getElem?_eq_some_iff.1 he).1, ⟨e, he, passes⟩, rfl, rfl⟩

/-! ### Memos that are alike -/

/-- Memos that differ in the bookkeeping of the search only. -/
structure Like (m m' : Memo K) : Prop where
  size : m'.groups.size = m.groups.size
  number : ∀ i : GroupId, m'.groups[i]?.map Group.id = m.groups[i]?.map Group.id
  key : ∀ id, m'.key? id = m.key? id
  relation : ∀ id, m'.relation? id = m.relation? id
  index : m'.index = m.index
  ctes : m'.ctes = m.ctes
  root : m'.root = m.root

namespace Like

variable {m m' m'' : Memo K}

/-- A memo is like itself. -/
theorem refl (m : Memo K) : m.Like m :=
  ⟨rfl, fun _ => rfl, fun _ => rfl, fun _ => rfl, rfl, rfl, rfl⟩

/-- A memo that is like one that is like a third one is like the third one. -/
theorem trans (h : m.Like m') (h' : m'.Like m'') : m.Like m'' where
  size := h'.size.trans h.size
  number i := (h'.number i).trans (h.number i)
  key id := (h'.key id).trans (h.key id)
  relation id := (h'.relation id).trans (h.relation id)
  index := h'.index.trans h.index
  ctes := h'.ctes.trans h.ctes
  root := h'.root.trans h.root

/-- A change to a group that keeps its number, its relation and the keys of its
expressions is bookkeeping. -/
theorem modifyGroup (m : Memo K) (id : GroupId) {f : Group K → Group K}
    (number : ∀ g, (f g).id = g.id) (relation : ∀ g, (f g).toRelation = g.toRelation)
    (keys : ∀ (g : Group K) (i : Nat),
      (f g).exprs[i]?.map Expr.toExprKey = g.exprs[i]?.map Expr.toExprKey) :
    m.Like (m.modifyGroup id f) where
  size := by simp [Memo.modifyGroup]
  number i := by
    simp only [Memo.modifyGroup, Array.getElem?_modify]
    split
    · cases m.groups[i]? <;> simp [number]
    · rfl
  key place := by
    simp only [key?, Memo.modifyGroup, Array.getElem?_modify]
    split
    · cases m.groups[place.group]? <;> simp [keys]
    · rfl
  relation i := by
    simp only [relation?, Memo.modifyGroup, Array.getElem?_modify]
    split
    · cases m.groups[i]? <;> simp [relation]
    · rfl
  index := rfl
  ctes := rfl
  root := rfl

/-- A change to an expression that keeps its key is bookkeeping. -/
theorem modifyExpr (m : Memo K) (id : ExprId) {f : Expr K → Expr K}
    (key : ∀ e, (f e).toExprKey = e.toExprKey) : m.Like (m.modifyExpr id f) := by
  refine modifyGroup m id.group (fun _ => rfl) (fun _ => rfl) fun g i => ?_
  rw [Array.getElem?_modify]
  split
  · cases g.exprs[i]? <;> simp [key]
  · rfl

/-- An offer is bookkeeping. -/
theorem offer [Quantity K] (m : Memo K) (id : ExprId) (p : PhysicalProperty) (d : Delivery K) :
    m.Like (m.offer id p d) := by
  have delivered : m.Like (m.modifyExpr id fun e =>
      { e with deliveries := e.deliveries.offer Delivery.cost p d }) :=
          modifyExpr m id fun _ => rfl
  exact delivered.trans (modifyGroup _ id.group (fun _ => rfl) (fun _ => rfl) fun _ _ => rfl)

/-- A reset is bookkeeping. -/
theorem reset (m : Memo K) : m.Like m.reset where
  size := by simp [Memo.reset]
  number i := by
    simp only [Memo.reset, Array.getElem?_map]
    cases m.groups[i]? <;> rfl
  key id := by
    simp only [key?, Memo.reset, Array.getElem?_map]
    cases m.groups[id.group]? with
    | none => rfl
    | some g => cases h : g.exprs[id.index]? <;> simp [Group.reset, h, Expr.reset]
  relation id := by
    simp only [relation?, Memo.reset, Array.getElem?_map]
    cases m.groups[id]? <;> simp [Group.reset]
  index := rfl
  ctes := rfl
  root := rfl

end Like

/-! ### Insertions -/

/-- Whether a group has a logical expression whose inputs are earlier groups. -/
def Started (m : Memo K) (id : GroupId) : Prop :=
  ∃ place op inputs, place.group = id ∧ m.key? place = some ⟨.logical op, inputs⟩ ∧
    ∀ i ∈ inputs, i < id

/-- Groups of `m` are in `m'` as they were, with the expressions that they had at the same
places. Each group that has been added was started by an expression over earlier ones. -/
structure Extends (m m' : Memo K) : Prop where
  size_le : m.groups.size ≤ m'.groups.size
  relation : ∀ id r, m.relation? id = some r → m'.relation? id = some r
  key : ∀ id k, m.key? id = some k → m'.key? id = some k
  started : ∀ id, m.groups.size ≤ id → id < m'.groups.size → m'.Started id
  root : m'.root = m.root

/-- A group that was started stays so. -/
theorem Started.extends {m m' : Memo K} (h : m.Extends m') {id : GroupId}
    (hid : m.Started id) :
    m'.Started id := by
  obtain ⟨place, op, inputs, hplace, hk, below⟩ := hid
  exact ⟨place, op, inputs, hplace, h.key place _ hk, below⟩

namespace Extends

/-- A memo extends itself. -/
theorem refl (m : Memo K) : m.Extends m :=
  ⟨Nat.le_refl _, fun _ _ h => h, fun _ _ h => h, fun _ h h' =>
    absurd h (Nat.not_le_of_lt h'), rfl⟩

/-- An extension of an extension is one. -/
theorem trans {m m' m'' : Memo K} (h : m.Extends m') (h' : m'.Extends m'') :
    m.Extends m'' where
  size_le := Nat.le_trans h.size_le h'.size_le
  relation id r hr := h'.relation id r (h.relation id r hr)
  key id k hk := h'.key id k (h.key id k hk)
  started id new inside := by
    by_cases old : id < m'.groups.size
    · exact (h.started id new old).extends h'
    · exact h'.started id (Nat.le_of_not_lt old) inside
  root := h'.root.trans h.root

/-- A memo with the same number of groups. -/
theorem ofSize {m m' : Memo K} (size : m'.groups.size = m.groups.size)
    (relation : ∀ id r, m.relation? id = some r → m'.relation? id = some r)
    (key : ∀ id k, m.key? id = some k → m'.key? id = some k) (root : m'.root = m.root) :
    m.Extends m' where
  size_le := Nat.le_of_eq size.symm
  relation := relation
  key := key
  started _ new inside := absurd (size ▸ inside) (Nat.not_lt_of_le new)
  root := root

/-- A memo that is like another one extends it. -/
theorem ofLike {m m' : Memo K} (h : m.Like m') : m.Extends m' :=
  .ofSize h.size (fun id _ hr => (h.relation id).trans hr) (fun id _ hk => (h.key id).trans hk)
    h.root

end Extends

section AddExpr

variable {m m' : Memo K} {id : GroupId} {key : ExprKey} {place : ExprId}

/-- An expression is added at the end of its group and entered into the index. -/
theorem addExpr_eq_ok (h : m.addExpr id key = .ok (m', place)) :
    ∃ g, m.groups[id]? = some g ∧ place = ⟨id, g.exprs.size⟩ ∧
      m' = { m.modifyGroup id fun g => { g with exprs := g.exprs.push { key with } } with
        index := m.index.insert key place } := by
  unfold addExpr at h
  cases hg : m.group id with
  | error e => simp [hg, bind, Except.bind] at h
  | ok g =>
    simp only [hg, bind, Except.bind, pure, Except.pure, Except.ok.injEq, Prod.mk.injEq] at h
    obtain ⟨rfl, rfl⟩ := h
    exact ⟨g, group_eq_ok.1 hg, rfl, rfl⟩

/-- A group that exists takes every expression. -/
theorem exists_addExpr (m : Memo K) (id : GroupId) (key : ExprKey) (h : id < m.groups.size) :
    ∃ m' place, m.addExpr id key = .ok (m', place) := by
  have hg : m.group id = .ok m.groups[id] := group_eq_ok.2 (Array.getElem?_eq_getElem h)
  exact ⟨_, _, by simp only [addExpr, hg, bind, Except.bind, pure, Except.pure]; rfl⟩

/-- Adding an expression adds no group. -/
theorem size_addExpr (h : m.addExpr id key = .ok (m', place)) :
    m'.groups.size = m.groups.size := by
  obtain ⟨g, -, -, rfl⟩ := addExpr_eq_ok h
  simp [modifyGroup]

/-- Adding an expression does not change what is known of groups. -/
theorem relation?_addExpr (h : m.addExpr id key = .ok (m', place)) (i : GroupId) :
    m'.relation? i = m.relation? i := by
  obtain ⟨g, -, -, rfl⟩ := addExpr_eq_ok h
  simp only [relation?, modifyGroup, Array.getElem?_modify]
  split
  · cases m.groups[i]? <;> rfl
  · rfl

/-- The new expression is at the new place, all others are where they were. -/
theorem key?_addExpr (h : m.addExpr id key = .ok (m', place)) (i : ExprId) :
    m'.key? i = if i = place then some key else m.key? i := by
  obtain ⟨g, hg, rfl, rfl⟩ := addExpr_eq_ok h
  obtain ⟨group, index⟩ := i
  simp only [key?, modifyGroup, Array.getElem?_modify]
  by_cases hid : id = group
  · subst hid
    by_cases hi : index = g.exprs.size
    · simp [hg, hi]
    · simp [hg, hi, Array.getElem?_push]
  · have : ¬(⟨group, index⟩ : ExprId) = ⟨id, g.exprs.size⟩ := fun e => hid (by cases e; rfl)
    simp [hid, this]

/-- An expression is added at a place that was free. -/
theorem key?_place_of_addExpr (h : m.addExpr id key = .ok (m', place)) :
    m.key? place = none := by
  obtain ⟨g, hg, rfl, -⟩ := addExpr_eq_ok h
  simp [key?, hg]

/-- An expression is added to the given group. -/
theorem group_of_addExpr (h : m.addExpr id key = .ok (m', place)) : place.group = id := by
  obtain ⟨g, -, rfl, -⟩ := addExpr_eq_ok h
  rfl

/-- Adding an expression keeps the expressions that there are. -/
theorem key?_addExpr_of_some (h : m.addExpr id key = .ok (m', place)) {i : ExprId}
    {k : ExprKey} (hk : m.key? i = some k) : m'.key? i = some k := by
  rw [key?_addExpr h, if_neg, hk]
  rintro rfl
  rw [key?_place_of_addExpr h] at hk
  cases hk

/-- An added expression is found in the index, the others as before. -/
theorem index_addExpr (h : m.addExpr id key = .ok (m', place)) (k : ExprKey) :
    m'.index[k]? = if (key == k) = true then some place else m.index[k]? := by
  obtain ⟨g, -, -, rfl⟩ := addExpr_eq_ok h
  exact Std.HashMap.getElem?_insert

/-- Adding an expression does not change what is known of shared results. -/
theorem ctes_addExpr (h : m.addExpr id key = .ok (m', place)) : m'.ctes = m.ctes := by
  obtain ⟨g, -, -, rfl⟩ := addExpr_eq_ok h
  rfl

/-- Adding an expression does not change the root. -/
theorem root_addExpr (h : m.addExpr id key = .ok (m', place)) : m'.root = m.root := by
  obtain ⟨g, -, -, rfl⟩ := addExpr_eq_ok h
  rfl

/-- Adding an expression extends the memo. -/
theorem Extends.addExpr (h : m.addExpr id key = .ok (m', place)) : m.Extends m' :=
  .ofSize (size_addExpr h) (fun i _ hr => (relation?_addExpr h i).trans hr)
    (fun _ _ hk => key?_addExpr_of_some h hk) (root_addExpr h)

end AddExpr

section AddGroup

variable (m : Memo K) (op : LogicalOperator) (relation : Relation K)

/-- A new group is one more. -/
@[simp] theorem size_addGroup : (m.addGroup op relation).groups.size = m.groups.size + 1 := by
  simp [addGroup]

/-- A new group has no expression, and the others keep theirs. -/
theorem key?_addGroup (i : ExprId) : (m.addGroup op relation).key? i = m.key? i := by
  simp only [key?, addGroup, Array.getElem?_push]
  split
  · rename_i h
    simp [h]
  · rfl

/-- The new group comes after all others. -/
theorem relation?_addGroup (i : GroupId) :
    (m.addGroup op relation).relation? i =
      if i = m.groups.size then some relation else m.relation? i := by
  simp only [relation?, addGroup, Array.getElem?_push]
  split <;> rfl

theorem index_addGroup : (m.addGroup op relation).index = m.index := rfl

/-- A new group of an operator that is no producer does not change what is
known of shared results. -/
theorem ctes_addGroup_of_ne {op : LogicalOperator} (notProducer : ∀ p, op ≠ .cteProducer p)
    (relation : Relation K) : (m.addGroup op relation).ctes = m.ctes := by
  unfold addGroup
  cases op with
  | cteProducer p => exact absurd rfl (notProducer p)
  | _ => rfl

/-- Only a producer makes a shared result known. -/
theorem mem_ctes_addGroup {entry : Nat × CteInfo K}
    (h : entry ∈ (m.addGroup op relation).ctes) :
    entry ∈ m.ctes ∨ ∃ p, op = .cteProducer p ∧
      entry = (p.id, { relation with cols := p.cols }) := by
  unfold addGroup at h
  cases op with
  | cteProducer p =>
    simp only [CteTable.register] at h
    split at h
    · exact .inl h
    · rcases List.mem_append.1 h with h | h
      · exact .inl h
      · exact .inr ⟨p, rfl, List.mem_singleton.1 h⟩
  | _ => exact .inl h

theorem root_addGroup : (m.addGroup op relation).root = m.root := rfl

/-- A group together with the expression that started it. -/
theorem Extends.startGroup {m' : Memo K} {place : ExprId} {inputs : List GroupId}
    (below : ∀ i ∈ inputs, i < m.groups.size)
    (h : (m.addGroup op relation).addExpr m.groups.size ⟨.logical op, inputs⟩ =
      .ok (m', place)) : m.Extends m' where
  size_le := by
    rw [size_addExpr h, size_addGroup]
    exact Nat.le_succ _
  relation i r hr := by
    rw [relation?_addExpr h, relation?_addGroup,
      if_neg (Nat.ne_of_lt (lt_of_relation? hr)), hr]
  key i k hk := key?_addExpr_of_some h ((key?_addGroup m op relation i).trans hk)
  started id new inside := by
    rw [size_addExpr h, size_addGroup] at inside
    obtain rfl : id = m.groups.size := Nat.le_antisymm (Nat.le_of_lt_succ inside) new
    exact ⟨place, op, inputs, group_of_addExpr h, by rw [key?_addExpr h, if_pos rfl], below⟩
  root := (root_addExpr h).trans (root_addGroup m op relation)

/-- The expression that starts a group is its first one. -/
theorem place_of_startGroup {m' : Memo K} {place : ExprId} {key : ExprKey}
    (h : (m.addGroup op relation).addExpr m.groups.size key = .ok (m', place)) :
    place = ⟨m.groups.size, 0⟩ := by
  obtain ⟨g, hg, rfl, -⟩ := addExpr_eq_ok h
  simp only [addGroup, Array.getElem?_push, if_true, Option.some.injEq] at hg
  subst hg
  rfl

end AddGroup

section Insert

variable [Quantity K]

/-- A group is started with the relation that is derived for its operator, or not
at all if that fails. -/
theorem exec_startGroup (env : Environment K) (op : LogicalOperator) (inputs : List GroupId)
    (m : Memo K) :
    (startGroup env ⟨.logical op, inputs⟩).exec m =
      match m.relations inputs >>= op.derive env m.ctes with
      | .ok relation => (.ok m.groups.size, m.addGroup op relation)
      | .error e => (.error e, m) := by
  simp only [startGroup, MemoM.exec_bind, MemoM.exec_get, MemoM.exec_lift]
  cases m.relations inputs with
  | error e => rfl
  | ok rels =>
    simp only [bind, Except.bind]
    cases op.derive env m.ctes rels <;> rfl

/-- An expression that is entered into a group is found in the index or added to the group. -/
theorem exec_insertKey_some (env : Environment K) (key : ExprKey) (id : GroupId) (m : Memo K) :
    (insertKey env key (some id)).exec m =
      match m.index[key]? with
      | some place => (.ok (place, false), m)
      | none =>
        match m.addExpr id key with
        | .ok (m', place) => (.ok (place, true), m')
        | .error e => (.error e, m) := by
  simp only [insertKey, MemoM.exec_bind, MemoM.exec_get]
  cases m.index[key]? with
  | some place => rfl
  | none =>
    simp only [MemoM.exec_bind, MemoM.exec_pure, MemoM.exec_get, MemoM.exec_lift]
    cases m.addExpr id key <;> rfl

/-- An expression that is entered without a group is found in the index or starts a group. -/
theorem exec_insertKey_none (env : Environment K) (key : ExprKey) (m : Memo K) :
    (insertKey env key none).exec m =
      match m.index[key]? with
      | some place => (.ok (place, false), m)
      | none =>
        match (startGroup env key).exec m with
        | (.ok id, m) =>
          match m.addExpr id key with
          | .ok (m', place) => (.ok (place, true), m')
          | .error e => (.error e, m)
        | (.error e, m) => (.error e, m) := by
  simp only [insertKey, MemoM.exec_bind, MemoM.exec_get]
  cases m.index[key]? with
  | some place => rfl
  | none =>
    simp only [MemoM.exec_bind]
    rcases (startGroup env key).exec m with ⟨_ | id, m⟩
    · rfl
    · simp only [MemoM.exec_get, MemoM.exec_lift]
      cases m.addExpr id key <;> rfl

/-- A new expression that something is derived about starts a group. -/
theorem exists_insertKey_new (env : Environment K) {op : LogicalOperator}
    (inputs : List GroupId) {m : Memo K} {rels : Inputs K} {r : Relation K}
    (new : m.index[(⟨.logical op, inputs⟩ : ExprKey)]? = none)
    (hrels : m.relations inputs = .ok rels) (derived : op.derive env m.ctes rels = .ok r) :
    ∃ m' place, (insertKey env ⟨.logical op, inputs⟩ none).exec m = (.ok (place, true), m') ∧
      (m.addGroup op r).addExpr m.groups.size ⟨.logical op, inputs⟩ = .ok (m', place) := by
  obtain ⟨m', place, added⟩ :=
    exists_addExpr (m.addGroup op r) m.groups.size ⟨.logical op, inputs⟩ (by simp)
  refine ⟨m', place, ?_, added⟩
  rw [exec_insertKey_none, new, exec_startGroup, hrels]
  simp only [bind, Except.bind, derived, added]

/-- Entering an expression into a group of its own finds the expression, or fails without
having changed anything, or starts a group. -/
theorem insertKey_none_cases (env : Environment K) (key : ExprKey) (m : Memo K) :
    (∃ place, m.index[key]? = some place ∧
      (insertKey env key none).exec m = (.ok (place, false), m)) ∨
    (∃ e, (insertKey env key none).exec m = (.error e, m)) ∨
    ∃ op inputs rels relation m' place, key = ⟨.logical op, inputs⟩ ∧ m.index[key]? = none ∧
      m.relations inputs = .ok rels ∧ op.derive env m.ctes rels = .ok relation ∧
      (m.addGroup op relation).addExpr m.groups.size key = .ok (m', place) ∧
      (insertKey env key none).exec m = (.ok (place, true), m') := by
  cases found : m.index[key]? with
  | some place => exact .inl ⟨place, rfl, by rw [exec_insertKey_none, found]⟩
  | none =>
    refine .inr ?_
    obtain ⟨op | op, inputs⟩ := key
    · cases derived : m.relations inputs >>= op.derive env m.ctes with
      | error e =>
        exact .inl ⟨e, by simp only [exec_insertKey_none, found, exec_startGroup, derived]⟩
      | ok relation =>
        obtain ⟨rels, hrels, hrelation⟩ := OptResult.bind_eq_ok.1 derived
        obtain ⟨m', place, run, added⟩ := exists_insertKey_new env inputs found hrels hrelation
        exact .inr
          ⟨op, inputs, rels, relation, m', place, rfl, rfl, hrels, hrelation, added, run⟩
    · exact .inl ⟨.physicalStartsGroup op.toText, by rw [exec_insertKey_none, found]; rfl⟩

/-- What cannot be entered changes nothing. -/
theorem memo_of_insertKey_error {env : Environment K} {key : ExprKey} {target : Option GroupId}
    {m m' : Memo K} {e : OptError} (h : (insertKey env key target).exec m = (.error e, m')) :
    m = m' := by
  cases target with
  | some id =>
    rw [exec_insertKey_some] at h
    split at h
    · cases h
    · split at h
      · cases h
      · exact congrArg Prod.snd h
  | none =>
    obtain ⟨place, -, run⟩ | ⟨e', run⟩ | ⟨op, inputs, rels, relation, m'', place, -, -,
        -, -, -, run⟩ :=
      insertKey_none_cases env key m
    · rw [run] at h
      cases h
    · rw [run] at h
      exact congrArg Prod.snd h
    · rw [run] at h
      cases h

end Insert

/-! ### Dropping groups -/

section Truncate

variable (m : Memo K) (count : Nat)

/-- Truncation keeps groups up to the given number. -/
theorem size_truncate : (m.truncate count).groups.size = min count m.groups.size := by
  unfold truncate
  split
  · omega
  · simp

/-- Truncation keeps the groups before the given number and drops the others. -/
theorem groups_truncate (i : Nat) :
    (m.truncate count).groups[i]? = if i < count then m.groups[i]? else none := by
  unfold truncate
  by_cases small : m.groups.size ≤ count
  · by_cases h : i < count
    · simp [small, h]
    · simp [small, h, Nat.le_trans small (Nat.le_of_not_lt h)]
  · by_cases h : i < count
    · simp only [small, if_false, h, if_true, Array.take_eq_extract, Array.getElem?_extract,
        Nat.zero_add]
      exact if_pos (by omega)
    · simp only [small, if_false, h, Array.take_eq_extract, Array.getElem?_extract]
      exact if_neg (by omega)

/-- Truncation keeps the expressions of the groups that it keeps. -/
theorem key?_truncate (i : ExprId) :
    (m.truncate count).key? i = if i.group < count then m.key? i else none := by
  rw [key?, groups_truncate]
  split <;> rfl

/-- Truncation keeps what is known of the groups that it keeps. -/
theorem relation?_truncate (i : GroupId) :
    (m.truncate count).relation? i = if i < count then m.relation? i else none := by
  rw [relation?, groups_truncate]
  split <;> rfl

/-- What the index still finds is in one of the groups that are left. -/
theorem index_truncate {m : Memo K} {count : Nat} {k : ExprKey} {place : ExprId}
    (h : (m.truncate count).index[k]? = some place) :
    m.index[k]? = some place ∧ (place.group < count ∨ m.groups.size ≤ count) := by
  unfold truncate at h
  split at h
  · exact ⟨h, .inr ‹_›⟩
  · rw [Std.HashMap.getElem?_filter] at h
    obtain ⟨found, inside⟩ := Option.pfilter_eq_some_iff.1 h
    exact ⟨found, .inl (of_decide_eq_true inside)⟩

/-- Truncation does not change what is known of shared results. -/
theorem ctes_truncate : (m.truncate count).ctes = m.ctes := by
  unfold truncate
  split <;> rfl

/-- Truncation does not change the root. -/
theorem root_truncate : (m.truncate count).root = m.root := by
  unfold truncate
  split <;> rfl

end Truncate

end Memo

end QueryOptimizer
