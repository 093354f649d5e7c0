import QueryOptimizer.Proofs.Semantics.Value
import QueryOptimizer.Scalar.Analysis

/-!
# Evaluation of scalar expressions

`Scalar.eval` gives the value of an expression in a row, and `Scalar.test` the truth
value of a predicate. Aggregates range over the rows of a group; outside of a
grouping that group is empty.

## Main results

* `Scalar.eval_congr`: an expression only reads the columns that it uses.
* `Scalar.test_conjuncts`, `Scalar.test_conjoin?`: a predicate is true when all of its
  conjuncts are, and the conjunction of predicates when all of them are.
-/

namespace QueryOptimizer

/-! ### Conjuncts

Rules take predicates apart into conjuncts and join some of them again. A conjunct has no
conjuncts but itself, so nothing is lost and nothing is gained: the conjuncts of a conjunction
are those of its parts, in their order.
-/

namespace Scalar

/-- A conjunct is not a conjunction. -/
theorem conjuncts_of_mem_conjuncts {e c : Scalar} (h : c ∈ e.conjuncts) :
    c.conjuncts = [c] := by
  fun_induction conjuncts e with
  | case1 l r hl hr => exact (List.mem_append.1 h).elim hl hr
  | case2 e single =>
    obtain rfl := List.mem_singleton.1 h
    rw [conjuncts]
    exact single

/-- A conjunction of expressions has the conjuncts of each of them. -/
theorem conjuncts_foldl_and (e : Scalar) (es : List Scalar) :
    (es.foldl (binary .and) e).conjuncts = (e :: es).flatMap conjuncts := by
  induction es generalizing e with
  | nil => simp
  | cons f es ih => simp [ih, conjuncts]

/-- The conjuncts of a conjunction are the conjuncts of its parts. -/
theorem conjuncts_conjoin? {es : List Scalar} {e : Scalar} (made : conjoin? es = some e) :
    e.conjuncts = es.flatMap conjuncts := by
  cases es with
  | nil => cases made
  | cons f fs =>
    obtain rfl : fs.foldl (binary .and) f = e := by simpa [conjoin?, chain] using made
    exact conjuncts_foldl_and f fs

/-- Expressions that are put together by conjunctions have no conjuncts but their own. -/
theorem mem_conjuncts_conjoin? {es : List Scalar} {e c : Scalar} (made : conjoin? es = some e)
    (h : c ∈ e.conjuncts) : ∃ f ∈ es, c ∈ f.conjuncts := by
  rw [conjuncts_conjoin? made] at h
  exact List.mem_flatMap.1 h

/-- What is conjoined again are the conjuncts of the conjunction. -/
theorem conjuncts_conjoin?_self {es : List Scalar} {e : Scalar} (made : conjoin? es = some e)
    (single : ∀ c ∈ es, c.conjuncts = [c]) : e.conjuncts = es := by
  rw [conjuncts_conjoin? made, List.flatMap_def, List.map_congr_left single,
    ← List.flatMap_def, List.flatMap_singleton']

end Scalar

namespace ColumnSet

/-- The ids of a column set. -/
def idSet (s : ColumnSet) : Finset Nat :=
  s.ids.toFinset

/-- A set has an id if one of its columns has it. -/
theorem containsId_iff {s : ColumnSet} {i : Nat} :
    s.containsId i = true ↔ ∃ c ∈ s.toList, c.id = i := by
  simp [containsId]

/-- The ids of a set are those that it says it has. -/
@[simp] theorem mem_idSet {s : ColumnSet} {i : Nat} : i ∈ s.idSet ↔ s.containsId i = true := by
  simp [idSet, ids, containsId_iff]

@[simp] theorem idSet_empty : empty.idSet = ∅ := rfl

/-- The ids of a union. -/
@[simp] theorem idSet_union (s t : ColumnSet) : (s.union t).idSet = s.idSet ∪ t.idSet := by
  ext i; simp

/-- The ids of a set with one more column. -/
@[simp] theorem idSet_insert (s : ColumnSet) (c : Column) :
    (s.insert c).idSet = {c.id} ∪ s.idSet := by
  ext i
  rw [mem_idSet, containsId_insert, Finset.mem_union, Finset.mem_singleton, mem_idSet,
    Bool.or_eq_true, beq_iff_eq, eq_comm]

/-- The ids of the set of the columns of a list. -/
@[simp] theorem idSet_ofList (cols : List Column) :
    (ofList cols).idSet = Column.idsOf cols := by
  ext i; simp

/-- The ids of a set with more columns. -/
theorem idSet_insertMany (s : ColumnSet) (cols : List Column) :
    (s.insertMany cols).idSet = s.idSet ∪ Column.idsOf cols := by
  ext i; simp [containsId_insertMany]

/-- A set has an id if it is not empty. -/
theorem nonempty_idSet_iff {s : ColumnSet} : s.idSet.Nonempty ↔ s.isEmpty = false := by
  rw [idSet, List.toFinset_nonempty_iff]
  simp [isEmpty, ids]

/-- A set is within another one if its ids are. -/
theorem isSubset_iff {s t : ColumnSet} : s.isSubset t = true ↔ s.idSet ⊆ t.idSet := by
  simp only [isSubset, List.all_eq_true, contains, Finset.subset_iff,
    mem_idSet, containsId_iff]
  exact ⟨fun h i ⟨c, hc, e⟩ => e ▸ h c hc, fun h c hc => h ⟨c, hc, rfl⟩⟩

/-- Sets are apart if their ids are. -/
theorem isDisjoint_iff {s t : ColumnSet} :
    s.isDisjoint t = true ↔ Disjoint s.idSet t.idSet := by
  simp only [isDisjoint, List.all_eq_true, contains, Finset.disjoint_left, mem_idSet,
    containsId_iff, Bool.not_eq_true', ← Bool.not_eq_true]
  exact ⟨fun h i ⟨c, hc, e⟩ => e ▸ h c hc, fun h c hc => h ⟨c, hc, rfl⟩⟩

/-- The columns of one set that are in another one have the ids of both. -/
theorem idsOf_filter_contains (s t : ColumnSet) :
    Column.idsOf (s.toList.filter t.contains) = t.idSet ∩ s.idSet := by
  ext i
  simp only [Column.mem_idsOf, List.mem_filter, Finset.mem_inter, mem_idSet,
    containsId_iff (s := s), contains]
  constructor
  · rintro ⟨c, ⟨hc, inside⟩, e⟩
    exact ⟨e ▸ inside, c, hc, e⟩
  · rintro ⟨inside, c, hc, e⟩
    exact ⟨c, ⟨hc, e ▸ inside⟩, e⟩

end ColumnSet

namespace Scalar

/-! ### Used columns -/

mutual

/-- The columns of an expression are added to those that are known. -/
theorem containsId_addColumns (s : ColumnSet) (e : Scalar) (i : Nat) :
    (addColumns s e).containsId i = (s.containsId i || e.usedColumns.containsId i) := by
  cases e with
  | column c => simp [addColumns, usedColumns, Bool.or_comm]
  | literal v => simp [addColumns, usedColumns]
  | binary op l r =>
    simp only [addColumns, usedColumns]
    rw [containsId_addColumns _ r, containsId_addColumns s l,
      containsId_addColumns (addColumns .empty l) r, containsId_addColumns .empty l]
    simp [Bool.or_assoc]
  | not e => simp only [addColumns, usedColumns]; rw [containsId_addColumns s e]; rfl
  | isNull e => simp only [addColumns, usedColumns]; rw [containsId_addColumns s e]; rfl
  | cast e t => simp only [addColumns, usedColumns]; rw [containsId_addColumns s e]; rfl
  | call n as t =>
    simp only [addColumns, usedColumns]
    rw [containsId_addColumnsList s as]
  | aggregate f as d =>
    simp only [addColumns, usedColumns]
    rw [containsId_addColumnsList s as]

/-- The columns of expressions are added to those that are known. -/
theorem containsId_addColumnsList (s : ColumnSet) (es : List Scalar) (i : Nat) :
    (addColumnsList s es).containsId i
      = (s.containsId i || (addColumnsList .empty es).containsId i) := by
  cases es with
  | nil => simp [addColumnsList]
  | cons e es =>
    simp only [addColumnsList]
    rw [containsId_addColumnsList _ es, containsId_addColumns s e,
      containsId_addColumnsList (addColumns .empty e) es, containsId_addColumns .empty e]
    simp [Bool.or_assoc]

end

/-- The ids of the columns that an expression uses. -/
def uses (e : Scalar) : Finset Nat :=
  e.usedColumns.idSet

/-- The ids of the columns that expressions use. -/
def usesOf (es : List Scalar) : Finset Nat :=
  (addColumnsList .empty es).idSet

/-- A column uses itself. -/
@[simp] theorem uses_column (c : Column) : (column c).uses = {c.id} := by
  simp [uses, usedColumns, addColumns]

@[simp] theorem uses_literal (v : Datum) : (literal v).uses = ∅ := rfl

/-- A binary expression uses what its operands use. -/
@[simp] theorem uses_binary (op : BinaryOp) (l r : Scalar) :
    (binary op l r).uses = l.uses ∪ r.uses := by
  ext i
  simp only [uses, ColumnSet.mem_idSet, Finset.mem_union, usedColumns, addColumns]
  rw [containsId_addColumns, Bool.or_eq_true]
  rfl

@[simp] theorem uses_not (e : Scalar) : e.not.uses = e.uses := rfl

@[simp] theorem uses_isNull (e : Scalar) : e.isNull.uses = e.uses := rfl

@[simp] theorem uses_cast (e : Scalar) (t : DataType) : (e.cast t).uses = e.uses := rfl

@[simp] theorem uses_call (n : String) (as : List Scalar) (t : DataType) :
    (call n as t).uses = usesOf as := rfl

@[simp] theorem uses_aggregate (f : AggregateFunction) (as : List Scalar) (d : Bool) :
    (aggregate f as d).uses = usesOf as := rfl

@[simp] theorem usesOf_nil : usesOf [] = ∅ := rfl

/-- Expressions use what each of them uses. -/
@[simp] theorem usesOf_cons (e : Scalar) (es : List Scalar) :
    usesOf (e :: es) = e.uses ∪ usesOf es := by
  ext i
  simp only [usesOf, addColumnsList, ColumnSet.mem_idSet, Finset.mem_union, uses]
  rw [containsId_addColumnsList, Bool.or_eq_true]
  rfl

/-! ### Values -/

mutual

/-- The value of an expression in a row, where aggregates range over the rows of a group. -/
def eval (I : Interpretation) (group : Bag) : Scalar → Row → Value
  | column c, r => r c.id
  | literal d, _ => d.value
  | binary op e f, r => I.apply op (eval I group e r) (eval I group f r)
  | not e, r => .ofTruth (eval I group e r).truth.not
  | isNull e, r => .ofTruth (some (eval I group e r).isNone)
  | cast e t, r => I.cast t (eval I group e r)
  | call n as t, r => I.call n t (evalList I group as r)
  | aggregate f as d, _ => I.aggregate f d (group.map fun w => evalList I group as w)

/-- The values of expressions in a row. -/
def evalList (I : Interpretation) (group : Bag) : List Scalar → Row → List Value
  | [], _ => []
  | e :: es, r => eval I group e r :: evalList I group es r

end

variable (I : Interpretation)

/-- The truth value of a predicate in a row. -/
def test (r : Row) (e : Scalar) : Truth :=
  (e.eval I 0 r).truth

mutual

/-- An expression only reads the columns that it uses. -/
theorem eval_congr {r s : Row} (e : Scalar) (agree : ∀ i ∈ e.uses, r i = s i) :
    e.eval I 0 r = e.eval I 0 s := by
  cases e with
  | column c => exact agree c.id (by simp)
  | literal v => rfl
  | binary op l f =>
    have hl := eval_congr l fun i hi => agree i (by simp [hi])
    have hf := eval_congr f fun i hi => agree i (by simp [hi])
    simp only [eval, hl, hf]
  | not e => simp only [eval, eval_congr e agree]
  | isNull e => simp only [eval, eval_congr e agree]
  | cast e t => simp only [eval, eval_congr e agree]
  | call n as t => simp only [eval, evalList_congr as agree]
  | aggregate f as d => simp only [eval, Multiset.map_zero]

/-- Expressions outside of groups do not look at columns that they do not use. -/
theorem evalList_congr {r s : Row} (es : List Scalar) (agree : ∀ i ∈ usesOf es, r i = s i) :
    evalList I 0 es r = evalList I 0 es s := by
  cases es with
  | nil => rfl
  | cons e es =>
    have he := eval_congr e fun i hi => agree i (by simp [hi])
    have hes := evalList_congr es fun i hi => agree i (by simp [hi])
    simp only [evalList, he, hes]

end

/-- A condition does not look at columns that it does not use. -/
theorem test_congr {r s : Row} (e : Scalar) (agree : ∀ i ∈ e.uses, r i = s i) :
    e.test I r = e.test I s := by
  rw [test, test, eval_congr I e agree]

/-! ### Connectives -/

/-- The truth of a conjunction. -/
@[simp] theorem test_and (r : Row) (e f : Scalar) :
    (binary .and e f).test I r = (e.test I r).and (f.test I r) := by
  simp [test, eval, Interpretation.apply]

/-- The truth of a disjunction. -/
@[simp] theorem test_or (r : Row) (e f : Scalar) :
    (binary .or e f).test I r = (e.test I r).or (f.test I r) := by
  simp [test, eval, Interpretation.apply]

/-- The truth of a negation. -/
@[simp] theorem test_not (r : Row) (e : Scalar) : e.not.test I r = (e.test I r).not := by
  simp [test, eval]

@[simp] theorem test_ofBool (r : Row) (b : Bool) : (ofBool b).test I r = some b := rfl

/-- The literal for truth is true of every row. -/
theorem test_of_isTrue {e : Scalar} (h : e.isTrue = true) (r : Row) :
    e.test I r = some true := by
  unfold isTrue at h
  split at h
  · rfl
  · cases h

/-- The literal for falsehood is false of every row. -/
theorem test_of_isFalse {e : Scalar} (h : e.isFalse = true) (r : Row) :
    e.test I r = some false := by
  unfold isFalse at h
  split at h
  · rfl
  · cases h

/-- The literal for truth uses no column. -/
theorem uses_of_isTrue {e : Scalar} (h : e.isTrue = true) : e.uses = ∅ := by
  unfold isTrue at h
  split at h
  · rfl
  · cases h

/-- A predicate is true when all of its conjuncts are. -/
theorem test_conjuncts (r : Row) (e : Scalar) :
    e.test I r = some true ↔ ∀ c ∈ e.conjuncts, c.test I r = some true := by
  fun_induction conjuncts e with
  | case1 l f hl hf =>
    simp only [test_and, Truth.and_eq_true, hl, hf, List.mem_append]
    exact ⟨fun both c hc => hc.elim (both.1 c) (both.2 c),
      fun h => ⟨fun c hc => h c (.inl hc), fun c hc => h c (.inr hc)⟩⟩
  | case2 e => simp

/-- An equality of columns is recognized as what it is. -/
theorem asColumnEquality?_eq_some {e : Scalar} {l r : Column} :
    e.asColumnEquality? = some (l, r) ↔ e = .binary .eq (.column l) (.column r) := by
  unfold asColumnEquality?
  split <;> simp_all

/-- A conjunction uses what its conjuncts use. -/
theorem mem_uses_conjuncts {e : Scalar} {i : Nat} :
    i ∈ e.uses ↔ ∃ c ∈ e.conjuncts, i ∈ c.uses := by
  fun_induction conjuncts e with
  | case1 l f hl hf =>
    simp only [uses_binary, Finset.mem_union, hl, hf, List.mem_append]
    constructor
    · rintro (⟨c, hc, hi⟩ | ⟨c, hc, hi⟩)
      · exact ⟨c, .inl hc, hi⟩
      · exact ⟨c, .inr hc, hi⟩
    · rintro ⟨c, hc | hc, hi⟩
      · exact .inl ⟨c, hc, hi⟩
      · exact .inr ⟨c, hc, hi⟩
  | case2 e => simp

/-- A chain of binary expressions uses what its members use. -/
theorem uses_foldl_binary (op : BinaryOp) (e : Scalar) (es : List Scalar) :
    (es.foldl (binary op) e).uses = e.uses ∪ usesOf es := by
  induction es generalizing e with
  | nil => simp
  | cons f fs ih => simp [ih]

/-- The conjunction of predicates is true when all of them are. -/
theorem test_conjoin? {es : List Scalar} {p : Scalar} (h : conjoin? es = some p) (r : Row) :
    p.test I r = some true ↔ ∀ c ∈ es, c.test I r = some true := by
  simp only [test_conjuncts I r p, conjuncts_conjoin? h, List.mem_flatMap]
  exact ⟨fun all e he => (test_conjuncts I r e).2 fun c hc => all c ⟨e, he, hc⟩,
    fun all c ⟨e, he, hc⟩ => (test_conjuncts I r e).1 (all e he) c hc⟩

/-- Expressions that are put together by conjunctions use what each of them uses. -/
theorem uses_conjoin? {es : List Scalar} {p : Scalar} (h : conjoin? es = some p) :
    p.uses = usesOf es := by
  cases es with
  | nil => simp [conjoin?, chain] at h
  | cons e es =>
    obtain rfl : es.foldl (binary .and) e = p := by simpa [conjoin?, chain] using h
    simp [uses_foldl_binary]

/-- A conjunction, true if there is nothing to put together, holds when all conjuncts do. -/
theorem test_conjoin?_getD (es : List Scalar) (r : Row) :
    ((conjoin? es).getD (ofBool true)).test I r = some true ↔
      ∀ c ∈ es, c.test I r = some true := by
  cases h : conjoin? es with
  | none =>
    obtain rfl : es = [] := by
      cases es with
      | nil => rfl
      | cons e es => simp [conjoin?, chain] at h
    simp
  | some p => exact test_conjoin? I h r

/-- A conjunction, true if there is nothing to put together, uses what its conjuncts use. -/
theorem uses_conjoin?_getD (es : List Scalar) :
    ((conjoin? es).getD (ofBool true)).uses = usesOf es := by
  cases h : conjoin? es with
  | none =>
    obtain rfl : es = [] := by
      cases es with
      | nil => rfl
      | cons e es => simp [conjoin?, chain] at h
    rfl
  | some p => exact uses_conjoin? h

/-- What expressions use is used by one of them. -/
theorem mem_usesOf {es : List Scalar} {i : Nat} : i ∈ usesOf es ↔ ∃ e ∈ es, i ∈ e.uses := by
  induction es with
  | nil => simp
  | cons e es ih => simp [ih]

end Scalar

namespace Definition

/-- The union of sets has the ids of each of them. -/
theorem containsId_foldl_union (s : ColumnSet) (sets : List ColumnSet) (i : Nat) :
    (sets.foldl ColumnSet.union s).containsId i =
      (s.containsId i || sets.any (·.containsId i)) := by
  induction sets generalizing s with
  | nil => simp
  | cons t ts ih => simp [ih, Bool.or_assoc]

/-- Definitions use what their expressions use. -/
theorem mem_usedColumns {ds : List Definition} {i : Nat} :
    i ∈ (usedColumns ds).idSet ↔ ∃ d ∈ ds, i ∈ d.2.uses := by
  simp [usedColumns, ColumnSet.unionAll, containsId_foldl_union, Scalar.uses]

end Definition

end QueryOptimizer
