import Mathlib.Logic.Relation
import QueryOptimizer.Proofs.Memo.Coherence
import QueryOptimizer.Proofs.Search.Completeness

/-!
# Insertions that fail

A tree is entered inputs first, and each input may be an expression that the memo has or may
start a group. If a later part fails, the groups are cut back to those that were there
before. Nothing else has to be undone: all that entering the inputs does is in new groups,
where the index leads to them (`Memo.Adjoins`). Only producers of shared results leave
something outside the groups.

Memos are compared as far as computations can see them (`Memo.Equiv`). The inner order of the
index, which depends on what has been in it, is no part of that.

## Main results

* `Memo.Adjoins.truncate`: cutting back the groups that were added gives the memo from before.
* `Memo.Filed.equiv_of_insertTree_error`: so a tree that cannot be entered changes nothing.
* `Memo.Equiv.insertTree`: equivalent memos take trees in the same way.
* `Memo.equiv_of_insertTree_reached`: both, for every memo that searches reach.
-/

namespace QueryOptimizer

variable {K : Type}

/-- Whether a tree makes no shared result known. What is below an expression of the memo does
not matter, since it is not entered again. -/
inductive ExprTree.NoProducer : ExprTree → Prop
  | operator {op : Operator} {inputs : List ExprTree}
      (plain : ∀ p, op ≠ .logical (.cteProducer p)) (below : ∀ t ∈ inputs, NoProducer t) :
      NoProducer (.operator op inputs)
  | expr (id : ExprId) (inputs : List ExprTree) : NoProducer (.expr id inputs)
  | group (id : GroupId) : NoProducer (.group id)

namespace Memo

variable {m m' m'' : Memo K} {place : ExprId} {key : ExprKey}

/-! ### Indexes -/

section Index

variable {index : Std.HashMap ExprKey ExprId}

/-- A filter drops a new entry that does not pass it. -/
theorem filter_insert_equiv (new : index[key]? = none) {keep : ExprKey → ExprId → Bool}
    (drops : keep key place = false) :
    ((index.insert key place).filter keep).Equiv (index.filter keep) := by
  have apart : index.toList.filter (fun e => decide ¬(key == e.1) = true) = index.toList := by
    refine List.filter_eq_self.2 fun e he => decide_eq_true fun same => ?_
    have found : index[e.1]? = some e.2 :=
      Std.HashMap.getElem?_eq_some_iff_exists_beq_and_mem_toList.2 ⟨e.1, BEq.rfl, he⟩
    rw [Std.HashMap.getElem?_congr same, found] at new
    cases new
  have entries : (index.insert key place).toList.Perm ((key, place) :: index.toList) :=
    apart ▸ Std.HashMap.toList_insert_perm
  refine Std.HashMap.equiv_iff_toList_perm.2 ?_
  calc ((index.insert key place).filter keep).toList
      |>.Perm ((index.insert key place).toList.filter fun e => keep e.1 e.2) :=
        Std.HashMap.toList_filter
    _ |>.Perm (((key, place) :: index.toList).filter fun e => keep e.1 e.2) := entries.filter _
    _ = index.toList.filter fun e => keep e.1 e.2 := by simp [drops]
    _ |>.Perm (index.filter keep).toList := Std.HashMap.toList_filter.symm

/-- Of two filters the one that keeps less is enough. -/
theorem filter_filter_equiv {keep keep' : ExprKey → ExprId → Bool}
    (less : ∀ k p, keep k p = true → keep' k p = true) :
    ((index.filter keep').filter keep).Equiv (index.filter keep) := by
  refine Std.HashMap.equiv_iff_toList_perm.2 ?_
  calc ((index.filter keep').filter keep).toList
      |>.Perm ((index.filter keep').toList.filter fun e => keep e.1 e.2) :=
        Std.HashMap.toList_filter
    _ |>.Perm ((index.toList.filter fun e => keep' e.1 e.2).filter fun e => keep e.1 e.2) :=
        Std.HashMap.toList_filter.filter _
    _ = index.toList.filter fun e => keep e.1 e.2 := by
        rw [List.filter_filter]
        refine List.filter_congr fun e _ => ?_
        cases kept : keep e.1 e.2 with
        | false => rfl
        | true => simp [less _ _ kept]
    _ |>.Perm (index.filter keep).toList := Std.HashMap.toList_filter.symm

/-- The index leads to groups that are there. -/
theorem Filed.filter_index_equiv (h : m.Filed) {count : Nat} (all : m.groups.size ≤ count) :
    (m.index.filter fun _ place => decide (place.group < count)).Equiv m.index := by
  refine Std.HashMap.filter_equiv_self_iff.2 fun k hk => decide_eq_true ?_
  obtain ⟨k', hk', -⟩ := h.index (Std.HashMap.getElem?_eq_some_getElem hk)
  exact Nat.lt_of_lt_of_le (lt_of_key? hk') all

end Index

/-! ### Memos that cannot be told apart -/

/-- Memos that hold the same groups and whose indexes lead to the same places. -/
structure Equiv (m m' : Memo K) : Prop where
  groups : m'.groups = m.groups
  index : m'.index.Equiv m.index
  root : m'.root = m.root
  ctes : m'.ctes = m.ctes

/-- Outcomes of computations that cannot be told apart. -/
def Agree {α : Type} (x y : OptResult α × Memo K) : Prop :=
  x.1 = y.1 ∧ x.2.Equiv y.2

namespace Equiv

/-- Equivalent memos find the same expressions. -/
theorem getElem? (h : m.Equiv m') (key : ExprKey) : m'.index[key]? = m.index[key]? :=
  h.index.getElem?_eq

/-- Equivalent memos have the same groups. -/
theorem group (h : m.Equiv m') (id : GroupId) : m'.group id = m.group id := by
  unfold Memo.group
  rw [h.groups]

/-- Equivalent memos know the same of groups. -/
theorem relations (h : m.Equiv m') (ids : List GroupId) :
    m'.relations ids = m.relations ids := by
  unfold Memo.relations
  simp only [h.group]

/-- Equivalent memos stay so when a group is changed. -/
theorem modifyGroup (h : m.Equiv m') (id : GroupId) (f : Group K → Group K) :
    (m.modifyGroup id f).Equiv (m'.modifyGroup id f) :=
  ⟨by simp only [Memo.modifyGroup, h.groups], h.index, h.root, h.ctes⟩

/-- Equivalent memos stay so when a group is added. -/
theorem addGroup (h : m.Equiv m') (op : LogicalOperator) (relation : Relation K) :
    (m.addGroup op relation).Equiv (m'.addGroup op relation) where
  groups := by simp only [Memo.addGroup, h.groups]
  index := h.index
  root := h.root
  ctes := by simp only [Memo.addGroup, h.ctes]

/-- Equivalent memos stay so when they are truncated. -/
theorem truncate (h : m.Equiv m') (count : Nat) :
    (m.truncate count).Equiv (m'.truncate count) := by
  unfold Memo.truncate
  rw [h.groups]
  split
  · exact h
  · exact ⟨rfl, h.index.filter _, h.root, h.ctes⟩

end Equiv

/-! #### Computations that cannot tell them apart -/

/-- A composition agrees on two memos if its parts do. -/
theorem Agree.bind {α β : Type} {x : MemoM K α} {f : α → MemoM K β}
    (hx : Agree (x.exec m) (x.exec m'))
    (hf : ∀ a n n', n.Equiv n' → Agree ((f a).exec n) ((f a).exec n')) :
    Agree ((x >>= f).exec m) ((x >>= f).exec m') := by
  obtain ⟨result, memo⟩ := hx
  rw [MemoM.exec_bind, MemoM.exec_bind]
  rcases run : x.exec m with ⟨e | a, n⟩ <;> rcases run' : x.exec m' with ⟨e' | a', n'⟩ <;>
    rw [run, run'] at result memo <;> cases result
  · exact ⟨rfl, memo⟩
  · exact hf a n n' memo

namespace Equiv

/-- The last step of entering an expression. -/
theorem addExpr (h : m.Equiv m') (id : GroupId) (key : ExprKey) :
    Agree (match m.addExpr id key with
      | .ok (n, place) => (.ok (place, true), n)
      | .error e => (.error e, m))
    (match m'.addExpr id key with
      | .ok (n, place) => (.ok (place, true), n)
      | .error e => (.error e, m')) := by
  unfold Memo.addExpr
  rw [h.group]
  cases m.group id with
  | error e => exact ⟨rfl, h⟩
  | ok g =>
    have entered := h.modifyGroup id fun g => { g with exprs := g.exprs.push { key with } }
    exact ⟨rfl, entered.groups, entered.index.insert _ _, entered.root, entered.ctes⟩

variable [Quantity K] {env : Environment K}

/-- Starting a group agrees on equivalent memos. -/
theorem startGroup (h : m.Equiv m') (key : ExprKey) :
    Agree ((Memo.startGroup env key).exec m) ((Memo.startGroup env key).exec m') := by
  obtain ⟨op | op, inputs⟩ := key
  · rw [exec_startGroup, exec_startGroup, h.relations, h.ctes]
    cases m.relations inputs >>= op.derive env m.ctes with
    | error e => exact ⟨rfl, h⟩
    | ok relation => exact ⟨by rw [h.groups], h.addGroup op relation⟩
  · exact ⟨rfl, h⟩

/-- Entering an expression agrees on equivalent memos. -/
theorem insertKey (h : m.Equiv m') (key : ExprKey) (target : Option GroupId) :
    Agree ((Memo.insertKey env key target).exec m)
      ((Memo.insertKey env key target).exec m') := by
  cases target with
  | some id =>
    rw [exec_insertKey_some, exec_insertKey_some, h.getElem?]
    cases m.index[key]? with
    | some place => exact ⟨rfl, h⟩
    | none => exact h.addExpr id key
  | none =>
    rw [exec_insertKey_none, exec_insertKey_none, h.getElem?]
    cases m.index[key]? with
    | some place => exact ⟨rfl, h⟩
    | none =>
      obtain ⟨result, memo⟩ : Agree ((Memo.startGroup env key).exec m)
          ((Memo.startGroup env key).exec m') :=
        h.startGroup key
      rcases run : (Memo.startGroup env key).exec m with ⟨e | id, n⟩ <;>
        rcases run' : (Memo.startGroup env key).exec m' with ⟨e' | id', n'⟩ <;>
        rw [run, run'] at result memo <;> cases result
      · exact ⟨rfl, memo⟩
      · exact memo.addExpr id key

/-- Inserting inputs agrees on equivalent memos if it does so on the first
one and on the others. -/
theorem insertInputs_cons {t : ExprTree} {ts : List ExprTree}
    (node : Agree ((Memo.insertNode env none t).exec m) ((Memo.insertNode env none t).exec m'))
    (rest : ∀ n n', n.Equiv n' →
      Agree ((Memo.insertInputs env ts).exec n) ((Memo.insertInputs env ts).exec n')) :
    Agree
      (MemoM.exec (do
        let (place, _) ← Memo.insertNode env none t
        return place.group :: (← Memo.insertInputs env ts)) m)
      (MemoM.exec (do
        let (place, _) ← Memo.insertNode env none t
        return place.group :: (← Memo.insertInputs env ts)) m') :=
  node.bind fun _ n n' same => (rest n n' same).bind fun _ _ _ same' => ⟨rfl, same'⟩

mutual

/-- Inserting a tree agrees on equivalent memos. -/
theorem insertNode : ∀ (t : ExprTree) (target : Option GroupId) {m m' : Memo K}, m.Equiv m' →
    Agree ((Memo.insertNode env target t).exec m) ((Memo.insertNode env target t).exec m')
  | .group _, _, _, _, h | .expr _ _, _, _, _, h => ⟨rfl, h⟩
  | .operator op inputs, target, _, _, h =>
    (insertInputs inputs h).bind fun ids _ _ same => same.insertKey ⟨op, ids⟩ target

/-- Inserting trees agrees on equivalent memos. -/
theorem insertInputs : ∀ (ts : List ExprTree) {m m' : Memo K}, m.Equiv m' →
    Agree ((Memo.insertInputs env ts).exec m) ((Memo.insertInputs env ts).exec m')
  | [], _, _, h => ⟨rfl, h⟩
  | .group _ :: ts, _, _, h => (insertInputs ts h).bind fun _ _ _ same => ⟨rfl, same⟩
  | .expr id inputs :: ts, _, _, h =>
    insertInputs_cons (insertNode (.expr id inputs) none h) fun _ _ => insertInputs ts
  | .operator op inputs :: ts, _, _, h =>
    insertInputs_cons (insertNode (.operator op inputs) none h) fun _ _ => insertInputs ts

end

/-- Equivalent memos take a tree in the same way, or refuse it with the same error. -/
theorem insertTree (h : m.Equiv m') (t : ExprTree) (target : Option GroupId) :
    Agree ((Memo.insertTree env t target).exec m)
      ((Memo.insertTree env t target).exec m') := by
  simp only [Memo.insertTree, MemoM.exec_bind, MemoM.exec_get, MemoM.exec_tryCatch]
  obtain ⟨result, memo⟩ : Agree ((Memo.insertNode env target t).exec m)
      ((Memo.insertNode env target t).exec m') := insertNode t target h
  rcases run : (Memo.insertNode env target t).exec m with ⟨e | r, n⟩ <;>
    rcases run' : (Memo.insertNode env target t).exec m' with ⟨e' | r', n'⟩ <;>
    rw [run, run'] at result memo <;> cases result
  · exact ⟨rfl, h.groups ▸ memo.truncate m.groups.size⟩
  · exact ⟨rfl, memo⟩

end Equiv

/-! ### Groups that are added -/

/-- A memo that another one has grown into by groups being added, to which all
that is new leads. -/
structure Adjoins (m m' : Memo K) : Prop extends m.Appends m' where
  index : (m'.index.filter fun _ place => decide (place.group < m.groups.size)).Equiv m.index
  ctes : m'.ctes = m.ctes

/-- A memo in order has grown into itself with nothing adjoined. -/
theorem Adjoins.refl (h : m.Filed) : m.Adjoins m :=
  ⟨.refl h, h.filter_index_equiv (Nat.le_refl _), rfl⟩

instance : IsTrans (Memo K) Adjoins where
  trans m m' m'' h h' := by
    have inside : m.groups.size ≤ m'.groups.size := h.extended.size_le
    refine ⟨trans_of Appends h.toAppends h'.toAppends, ?_, h'.ctes.trans h.ctes⟩
    have cut :=
      (h'.index.filter fun _ place => decide (place.group < m.groups.size)).trans h.index
    refine (filter_filter_equiv fun _ p old => ?_).symm.trans cut
    exact decide_eq_true (Nat.lt_of_lt_of_le (of_decide_eq_true old) inside)

/-- Cutting back the groups that were added. -/
theorem Adjoins.truncate (h : m.Adjoins m') : m.Equiv (m'.truncate m.groups.size) where
  groups := by
    refine Array.ext_getElem? fun i => ?_
    rw [groups_truncate]
    split
    · exact h.groups i ‹_›
    · exact (Array.getElem?_eq_none (Nat.le_of_not_lt ‹_›)).symm
  index := by
    unfold Memo.truncate
    split
    · exact (h.filed.filter_index_equiv ‹_›).symm.trans h.index
    · exact h.index
  root := (root_truncate _ _).trans h.extended.root
  ctes := (ctes_truncate _ _).trans h.ctes

namespace Filed

variable [Quantity K] {env : Environment K}

/-- An expression that is entered into a group of its own. -/
theorem startKey_adjoins (h : m.Filed) (key : ExprKey)
    (plain : ∀ p, key.operator ≠ .logical (.cteProducer p)) :
    (Memo.insertKey env key none).Leads Adjoins m fun _ _ => True := by
  refine ⟨?_, fun _ _ => trivial⟩
  obtain ⟨place, -, run⟩ | ⟨e, run⟩ | ⟨op, inputs, rels, relation, m', place,
    rfl, new, hrels, -, added, run⟩ := insertKey_none_cases env key m
  · rw [run]
    exact .refl h
  · rw [run]
    exact .refl h
  · rw [run]
    refine ⟨h.startGroup (fun i hi => lt_of_relations hrels hi) added, ?_, ?_⟩
    · have outside : ¬place.group < m.groups.size :=
        group_of_addExpr added ▸ Nat.lt_irrefl m.groups.size
      obtain ⟨g, -, -, rfl⟩ := addExpr_eq_ok added
      exact (filter_insert_equiv new (decide_eq_false outside)).trans
        (h.filter_index_equiv (Nat.le_refl _))
    · rw [ctes_addExpr added]
      exact ctes_addGroup_of_ne m
        (fun p same => plain p (congrArg Operator.logical same)) relation

/-- Inserting inputs adjoins groups if it does so for the first one and for the others. -/
theorem insertInputs_cons_adjoins {t : ExprTree} {ts : List ExprTree}
    (node : (Memo.insertNode env none t).Leads Adjoins m fun _ _ => True)
    (rest : ∀ {m' : Memo K}, m'.Filed →
      (Memo.insertInputs env ts).Leads Adjoins m' fun _ _ => True) :
    MemoM.Leads Adjoins m (do
        let (place, _) ← Memo.insertNode env none t
        return place.group :: (← Memo.insertInputs env ts))
      fun _ _ => True :=
  node.bind fun _ _ adjoins _ => (rest adjoins.filed).bind fun _ _ adjoins' _ =>
    .pure (.refl adjoins'.filed) trivial

mutual

/-- A tree that is entered into a group of its own. -/
theorem insertNode_adjoins : ∀ (t : ExprTree) {m : Memo K}, m.Filed → t.NoProducer →
    (Memo.insertNode env none t).Leads Adjoins m fun _ _ => True
  | .group id, _, h, _ => .throw (.refl h) (.groupNotInsertable id)
  | .expr _ _, _, h, _ => .pure (.refl h) trivial
  | .operator op inputs, _, h, .operator plain below =>
    (insertInputs_adjoins inputs h below).bind
      fun ids _ adjoins _ => adjoins.filed.startKey_adjoins ⟨op, ids⟩ plain

/-- The inputs of a tree that are entered. -/
theorem insertInputs_adjoins : ∀ (ts : List ExprTree) {m : Memo K}, m.Filed →
    (∀ t ∈ ts, t.NoProducer) → (Memo.insertInputs env ts).Leads Adjoins m fun _ _ => True
  | [], _, h, _ => .pure (.refl h) trivial
  | .group _ :: ts, _, h, plain =>
    (insertInputs_adjoins ts h (List.forall_mem_cons.1 plain).2).bind fun _ _ adjoins _ =>
      .pure (.refl adjoins.filed) trivial
  | .expr id inputs :: ts, _, h, plain =>
    insertInputs_cons_adjoins
      (insertNode_adjoins (.expr id inputs) h (List.forall_mem_cons.1 plain).1) fun h' =>
        insertInputs_adjoins ts h' (List.forall_mem_cons.1 plain).2
  | .operator op inputs :: ts, _, h, plain =>
    insertInputs_cons_adjoins
      (insertNode_adjoins (.operator op inputs) h (List.forall_mem_cons.1 plain).1) fun h' =>
        insertInputs_adjoins ts h' (List.forall_mem_cons.1 plain).2

end

/-- A tree that cannot be entered changes nothing, wherever it fails. -/
theorem equiv_of_insertTree_error (h : m.Filed) {t : ExprTree} (plain : t.NoProducer)
    (target : Option GroupId) {e : OptError}
    (failed : (Memo.insertTree env t target).exec m = (.error e, m')) : m.Equiv m' := by
  simp only [Memo.insertTree, MemoM.exec_bind, MemoM.exec_get, MemoM.exec_tryCatch] at failed
  rcases run : (Memo.insertNode env target t).exec m with ⟨e' | r, m''⟩
  · rw [run] at failed
    obtain rfl : m''.truncate m.groups.size = m' := congrArg Prod.snd failed
    refine Adjoins.truncate ?_
    cases plain with
    | group id =>
      obtain rfl := congrArg Prod.snd run
      exact .refl h
    | expr id inputs => cases run
    | @operator op inputs plain below =>
      simp only [Memo.insertNode, MemoM.exec_bind] at run
      have entered : m.Adjoins ((Memo.insertInputs env inputs).exec m).2 :=
        (h.insertInputs_adjoins inputs below).1
      rcases inner : (Memo.insertInputs env inputs).exec m with ⟨e'' | ids, m₁⟩
      · rw [inner] at run entered
        obtain rfl : m₁ = m'' := congrArg Prod.snd run
        exact entered
      · rw [inner] at run entered
        exact memo_of_insertKey_error run ▸ entered
  · rw [run] at failed
    cases failed

end Filed

end Memo

/-! ### An example -/

namespace Sample

open Memo MemoM

def cutKey : ExprKey := ⟨.logical (.limit ⟨0, some 1, {}⟩), [0]⟩

def strayKey : ExprKey := ⟨.physical (.valuesScan ⟨[], []⟩), []⟩

/-- The first of the numbers. -/
def cut : ExprTree := .operator cutKey.operator [.group 0]

/-- A join of that with a scan, which cannot start a group. -/
def stuck : ExprTree :=
  .operator (.logical (.join ⟨.inner, .ofBool true⟩)) [cut, .operator strayKey.operator []]

/-- The tree that gets stuck has no producer. -/
theorem noProducer_stuck : stuck.NoProducer := by
  refine .operator (fun p same => by cases same) ?_
  simp only [List.mem_cons, List.not_mem_nil, or_false, forall_eq_or_imp, forall_eq]
  refine ⟨.operator (fun p same => by cases same) ?_,
    .operator (fun p same => by cases same) (by simp)⟩
  simp only [List.mem_singleton, forall_eq]
  exact .group 0

variable {K : Type} [ExactQuantity K] (r : Relation K)

/-- The limit starts a group of its own. -/
theorem insert_cut : ∃ m', (insertNode bareSetting none cut).exec (optimized r) =
    (.ok (⟨1, 0⟩, true), m') ∧ m'.index[strayKey]? = none := by
  have apart : (rowsKey == cutKey) = false ∧ (scanKey == cutKey) = false ∧
      (sortKey == cutKey) = false := by decide +kernel
  have stray : (rowsKey == strayKey) = false ∧ (scanKey == strayKey) = false ∧
      (sortKey == strayKey) = false ∧ (cutKey == strayKey) = false := by decide +kernel
  have new : (optimized r).index[cutKey]? = none := by
    simp [optimized, memo, exploredRows, offeredScan, offeredSort, apart]
  obtain ⟨r', derived⟩ : ∃ r',
    (LogicalOperator.limit ⟨0, some 1, {}⟩).derive (bareSetting (K := K))
      (optimized r).ctes [r] = .ok r' :=
    LogicalOperator.succeeds_derive answers_bareSetting rfl rfl rfl (by simp) _
  obtain ⟨m', place, run, added⟩ : ∃ m' place,
      (insertKey (bareSetting (K := K)) cutKey none).exec (optimized r) =
      (.ok (place, true), m') ∧
      ((optimized r).addGroup _ r').addExpr (optimized r).groups.size cutKey =
      .ok (m', place) :=
    exists_insertKey_new bareSetting [0] new rfl derived
  obtain rfl : place = ⟨1, 0⟩ := place_of_startGroup _ _ _ added
  refine ⟨m', (exec_bind_of_ok (a := [0]) rfl).trans run, ?_⟩
  rw [index_addExpr added, index_addGroup]
  simp [optimized, memo, exploredRows, offeredScan, offeredSort, stray]

/-- The scan after it cannot be entered. -/
theorem insert_stuck : ∃ e m',
    (insertTree bareSetting stuck (some 0)).exec (optimized r) = (.error e, m') := by
  obtain ⟨m', run, new⟩ := insert_cut r
  have scan :
    (insertNode (bareSetting (K := K)) none (.operator strayKey.operator [])).exec m' =
      (.error (.physicalStartsGroup (PhysicalOperator.valuesScan ⟨[], []⟩).toText), m') := by
    refine (exec_bind_of_ok (a := []) rfl).trans ?_
    have key : (⟨strayKey.operator, []⟩ : ExprKey) = strayKey := rfl
    rw [key, exec_insertKey_none, new]
    rfl
  have node : (insertNode (bareSetting (K := K)) (some 0) stuck).exec (optimized r) =
      (.error (.physicalStartsGroup (PhysicalOperator.valuesScan ⟨[], []⟩).toText), m') := by
    rw [stuck, insertNode, exec_bind]
    have inputs :
      (insertInputs (bareSetting (K := K)) [cut, .operator strayKey.operator []]).exec
        (optimized r) =
        (.error (.physicalStartsGroup (PhysicalOperator.valuesScan ⟨[], []⟩).toText), m') := by
      refine (exec_bind_of_ok run).trans ?_
      simp only [insertInputs, exec_bind, scan]
    rw [inputs]
  refine ⟨.physicalStartsGroup (PhysicalOperator.valuesScan ⟨[], []⟩).toText,
    m'.truncate (optimized r).groups.size, ?_⟩
  simp only [insertTree, exec_bind, exec_get, exec_tryCatch, node, exec_modify, exec_throw]

end Sample

namespace Memo

/-! ### Searches -/

variable [Quantity K] {m m' : Memo K}

/-- A search leaves a memo in order, also where its tasks fail. -/
theorem Reached.filed {env : Environment K} (reached : Reached env m m') (h : m.Filed) :
    m'.Filed := by
  induction reached with
  | start => exact h
  | reset _ ih => exact ih.like (.reset _)
  | task rules t _ ih => exact (Task.run_leads_remembers env ih rules t).1.filed

/-- Whatever searches have made of the memo of a plan, and whatever the catalog answered to
them, a tree that cannot be entered leaves the groups, their expressions and the index as they
were. So every later tree is taken in the same way as if nothing had happened. -/
theorem equiv_of_insertTree_reached {first : Environment K} {plan : Plan K} {m₀ m m' : Memo K}
    (made : ofPlan first plan = .ok m₀)
    (reached : Relation.ReflTransGen (fun m m' => ∃ env, Reached env m m') m₀ m)
    {env : Environment K} {t : ExprTree} (plain : t.NoProducer) {target : Option GroupId}
    {e : OptError} (failed : (insertTree env t target).exec m = (.error e, m')) :
    m.Equiv m' ∧ ∀ later t' target',
      Agree ((insertTree later t' target').exec m)
        ((insertTree later t' target').exec m') := by
  have filed : m.Filed := by
    clear failed
    induction reached with
    | refl => exact (Coherent.of_ofPlan made).toFiled
    | tail _ step ih => exact step.choose_spec.filed ih
  have same : m.Equiv m' := filed.equiv_of_insertTree_error plain target failed
  exact ⟨same, fun later t' target' => same.insertTree t' target'⟩

open Sample in
/-- After the search of an example a join cannot be entered over a new limit, whose group is
dropped: when the limit is entered again it gets the same number. -/
theorem equiv_of_insertTree_reached_sample : ∃ (m₀ m m' : Memo ℝ) (e : OptError),
    ofPlan bareSetting rowsPlan = .ok m₀ ∧
    Relation.ReflTransGen (fun m m' => ∃ env, Reached env m m') m₀ m ∧ stuck.NoProducer ∧
    (insertTree bareSetting stuck (some 0)).exec m = (.error e, m') ∧ m.Equiv m' ∧
    ((insertTree bareSetting cut none).exec m').1 = .ok (⟨1, 0⟩, true) := by
  obtain ⟨r, derived, -⟩ := exists_derived (K := ℝ)
  have made : ofPlan bareSetting rowsPlan = .ok (entered r) := ofPlan_rowsPlan derived
  have reached : Reached bareSetting (entered r)
      (optimize bareSetting 5 inOrder Stage.defaults (entered r)).memo :=
    reached_optimize 5 inOrder Stage.defaults (entered r)
  rw [optimize_entered.2] at reached
  have searches :
      Relation.ReflTransGen (fun m m' => ∃ env, Reached env m m') (entered r) (optimized r) :=
    .single ⟨bareSetting, reached⟩
  obtain ⟨e, m', failed⟩ := insert_stuck r
  obtain ⟨same, again⟩ := equiv_of_insertTree_reached made searches noProducer_stuck failed
  obtain ⟨m'', run, -⟩ := insert_cut r
  have entered : ((insertTree bareSetting cut none).exec (optimized r)).1 =
      .ok (⟨1, 0⟩, true) := by
    simp only [insertTree, MemoM.exec_bind, MemoM.exec_get, MemoM.exec_tryCatch, run]
  refine ⟨_, _, m', e, made, searches, noProducer_stuck, failed, same, ?_⟩
  rw [← entered]
  exact (again bareSetting cut none).1.symm

end Memo

end QueryOptimizer
