import Mathlib.Algebra.BigOperators.Group.Multiset.Basic
import Mathlib.Data.Finset.Union
import Mathlib.Data.Multiset.Bind
import QueryOptimizer.Column.Renaming
import QueryOptimizer.Datum
import QueryOptimizer.Scalar.Basic

/-!
# Values, rows and databases

What plans compute with. A value is a datum or null, and all nulls are one value. A row gives a
value to every column id. A row of a relation is computed under the values of columns from
outside, its parameters, and keeps those values for all columns that the relation does not
produce, so rows of one relation differ only in the columns of the relation.

`Interpretation` collects what a database system decides and the optimizer does not know: the
functions, and what comparisons yield for nulls. `Truth` is three-valued logic.

## Main results

* `Row.assign_of_notMem`, `Row.tuple_assign`: assigning a tuple to columns changes only these,
  and they have the values of the tuple afterwards.
-/

namespace QueryOptimizer

/-- The value of a column in a row; `none` is null. -/
abbrev Value := Option Datum

/-- The value that a literal stands for. -/
def Datum.value (d : Datum) : Value :=
  if d.isNull then none else some d

/-- A truth value; `none` is unknown. -/
abbrev Truth := Option Bool

namespace Truth

/-- The conjunction: false if one side is, true if both are. -/
def and : Truth → Truth → Truth
  | some false, _ | _, some false => some false
  | some true, some true => some true
  | _, _ => none

/-- The disjunction: true if one side is, false if both are. -/
def or : Truth → Truth → Truth
  | some true, _ | _, some true => some true
  | some false, some false => some false
  | _, _ => none

/-- The negation. -/
def not : Truth → Truth :=
  Option.map (!·)

/-- A conjunction is true if both of its sides are. -/
@[simp] theorem and_eq_true {s t : Truth} :
    s.and t = some true ↔ s = some true ∧ t = some true := by
  rcases s with _ | _ | _ <;> rcases t with _ | _ | _ <;> simp [and]

/-- A conjunction is false if one of its sides is. -/
theorem and_eq_false {s t : Truth} :
    s.and t = some false ↔ s = some false ∨ t = some false := by
  rcases s with _ | _ | _ <;> rcases t with _ | _ | _ <;> simp [and]

/-- A disjunction is true if one of its sides is. -/
theorem or_eq_true {s t : Truth} : s.or t = some true ↔ s = some true ∨ t = some true := by
  rcases s with _ | _ | _ <;> rcases t with _ | _ | _ <;> simp [or]

/-- A disjunction is false if both of its sides are. -/
theorem or_eq_false {s t : Truth} :
    s.or t = some false ↔ s = some false ∧ t = some false := by
  rcases s with _ | _ | _ <;> rcases t with _ | _ | _ <;> simp [or]

/-- A negation is known if what is negated is, and it is the opposite then. -/
theorem not_eq_some {t : Truth} {b : Bool} : t.not = some b ↔ t = some (!b) := by
  rcases t with _ | _ | _ <;> cases b <;> simp [not]

end Truth

namespace Value

/-- A truth value as a value. -/
def ofTruth : Truth → Value :=
  Option.map .boolean

/-- The truth value that a value stands for; whatever is no truth value counts as unknown. -/
def truth : Value → Truth
  | some (.boolean b) => some b
  | _ => none

@[simp] theorem truth_ofTruth (t : Truth) : (ofTruth t).truth = t := by
  cases t <;> rfl

/-- Whether two values are the same, where nulls are the same value. -/
def same : Value → Value → Bool
  | none, none => true
  | some a, some b => a.compare b == .eq
  | _, _ => false

end Value

namespace BinaryOp

/-- Whether an order comparison holds of two values in the given order. -/
def holds (o : Ordering) : BinaryOp → Bool
  | eq => o == .eq
  | notEq => o != .eq
  | lt => o == .lt
  | ltEq => o != .gt
  | gt => o == .gt
  | gtEq => o != .lt
  | _ => false

/-- Whether the operator is one of the six order comparisons. -/
def isOrder : BinaryOp → Bool
  | eq | notEq | lt | ltEq | gt | gtEq => true
  | _ => false

end BinaryOp

/-- What a database system decides about expressions. Order comparisons of two values, the
connectives and the comparisons that treat null as a value are the same in every system. -/
structure Interpretation where
  /-- What an order comparison yields when one of the values is null. -/
  nullComparison : BinaryOp → Value → Value → Value
  /-- An equality holds of equal values only. -/
  eq_of_nullComparison : ∀ x y, (nullComparison .eq x y).truth = some true → x = y
  binary : BinaryOp → Value → Value → Value
  cast : DataType → Value → Value
  call : String → DataType → List Value → Value
  /-- The value of an aggregate over the arguments that the rows of a group give it. -/
  aggregate : AggregateFunction → Bool → Multiset (List Value) → Value

namespace Interpretation

/-- A system in which comparisons with null are unknown and all functions are null. -/
def strict : Interpretation where
  nullComparison _ _ _ := none
  eq_of_nullComparison _ _ h := by cases h
  binary _ _ _ := none
  cast _ _ := none
  call _ _ _ := none
  aggregate _ _ _ := none

/-- An order comparison. -/
def compare (I : Interpretation) (op : BinaryOp) : Value → Value → Value
  | some a, some b => .ofTruth (some (op.holds (a.compare b)))
  | x, y => I.nullComparison op x y

/-- A binary operator applied to two values. -/
def apply (I : Interpretation) (op : BinaryOp) (x y : Value) : Value :=
  match op with
  | .and => .ofTruth (x.truth.and y.truth)
  | .or => .ofTruth (x.truth.or y.truth)
  | .isNotDistinctFrom => .ofTruth (some (x.same y))
  | .isDistinctFrom => .ofTruth (some (!x.same y))
  | op => if op.isOrder then I.compare op x y else I.binary op x y

/-- Values are the same where an equality of them is true. -/
theorem same_of_compare_eq (I : Interpretation) {x y : Value}
    (true : (I.compare .eq x y).truth = some true) : x.same y = Bool.true := by
  cases x with
  | none =>
    obtain rfl := I.eq_of_nullComparison none y true
    rfl
  | some a =>
    cases y with
    | none => cases I.eq_of_nullComparison (some a) none true
    | some b => simpa [compare, BinaryOp.holds, Value.same] using true

end Interpretation

/-! ### Rows -/

/-- A value for each column id. -/
abbrev Row := Nat → Value

/-- The values of some columns in a row, in the order of the columns. -/
abbrev Tuple := List Value

/-- Rows, some of them possibly several times, in no order. -/
abbrev Bag := Multiset Row

namespace Column

/-- The ids of some columns. -/
def idsOf (cols : List Column) : Finset Nat :=
  (cols.map (·.id)).toFinset

/-- An id is that of some column of the list. -/
@[simp] theorem mem_idsOf {cols : List Column} {i : Nat} :
    i ∈ idsOf cols ↔ ∃ c ∈ cols, c.id = i := by
  simp [idsOf]

@[simp] theorem idsOf_nil : idsOf [] = ∅ := rfl

/-- The ids of a list with one more column in front. -/
theorem idsOf_cons (c : Column) (cs : List Column) : idsOf (c :: cs) = {c.id} ∪ idsOf cs := by
  simp [idsOf]

/-- The ids of two lists of columns. -/
theorem idsOf_append (cs ds : List Column) : idsOf (cs ++ ds) = idsOf cs ∪ idsOf ds := by
  simp [idsOf]

end Column

namespace Row

/-- The values of columns. -/
def tuple (r : Row) (cols : List Column) : Tuple :=
  cols.map (r ·.id)

/-- The row in which columns have the values of a tuple. Of columns with one id the first
counts, and columns beyond the tuple are null. -/
def assign (r : Row) : List Column → Tuple → Row
  | [], _ => r
  | c :: cs, t => fun i => if i = c.id then t.headD none else assign r cs t.tail i

/-- A row keeps its values in columns that are not assigned to. -/
theorem assign_of_notMem (r : Row) {cols : List Column} {i : Nat} (h : i ∉ Column.idsOf cols)
    (t : Tuple) : r.assign cols t i = r i := by
  induction cols generalizing t with
  | nil => rfl
  | cons c cs ih =>
    have hc : i ≠ c.id := fun e => h (by simp [e])
    have hcs : i ∉ Column.idsOf cs := fun hi => h (by
      obtain ⟨d, hd, rfl⟩ := Column.mem_idsOf.1 hi
      exact Column.mem_idsOf.2 ⟨d, List.mem_cons_of_mem c hd, rfl⟩)
    simp only [assign, if_neg hc, ih hcs]

/-- What columns have after an assignment does not depend on the row before. -/
theorem assign_congr (r s : Row) {cols : List Column} {i : Nat} (h : i ∈ Column.idsOf cols)
    (t : Tuple) : r.assign cols t i = s.assign cols t i := by
  induction cols generalizing t with
  | nil => simp at h
  | cons c cs ih =>
    by_cases hc : i = c.id
    · simp only [assign, if_pos hc]
    · have hcs : i ∈ Column.idsOf cs := by
        obtain ⟨d, hd, rfl⟩ := Column.mem_idsOf.1 h
        rcases List.mem_cons.1 hd with rfl | hd
        · exact absurd rfl hc
        · exact Column.mem_idsOf.2 ⟨d, hd, rfl⟩
      simp only [assign, if_neg hc, ih hcs]

/-- Columns with different ids have the values of the tuple that was assigned to them. -/
theorem tuple_assign (r : Row) {cols : List Column} (distinct : (cols.map (·.id)).Nodup)
    {t : Tuple} (length : t.length = cols.length) : (r.assign cols t).tuple cols = t := by
  induction cols generalizing t with
  | nil => exact (List.length_eq_zero_iff.1 length).symm
  | cons c cs ih =>
    obtain ⟨v, vs, rfl⟩ := List.exists_cons_of_length_eq_add_one length
    obtain ⟨hc, hcs⟩ := List.nodup_cons.1 distinct
    have rest : cs.map (fun d => r.assign (c :: cs) (v :: vs) d.id) =
        (r.assign cs vs).tuple cs := by
      refine List.map_congr_left fun d hd => ?_
      have hd' : d.id ≠ c.id := fun e => hc (List.mem_map.2 ⟨d, hd, e⟩)
      simp [assign, hd']
    have tail := ih hcs (t := vs) (by simpa using length)
    simp only [tuple, List.map_cons] at rest ⊢
    rw [rest]
    simpa [assign, tuple] using tail

/-- Assigning its own values to columns changes nothing. -/
theorem assign_tuple_self (r : Row) (cols : List Column) :
    r.assign cols (r.tuple cols) = r := by
  induction cols with
  | nil => rfl
  | cons c cs ih =>
    funext i
    by_cases hc : i = c.id
    · simp [assign, tuple, hc]
    · have := congrFun ih i
      simpa [assign, tuple, hc] using this

/-- Columns that are assigned the values of another row have its values. -/
theorem assign_tuple (r s : Row) {cols : List Column} {i : Nat} (h : i ∈ Column.idsOf cols) :
    r.assign cols (s.tuple cols) i = s i := by
  rw [assign_congr r s h, assign_tuple_self]

/-- Two rows side by side: the columns `right` have the values of the second one. -/
def beside (right : Finset Nat) (l r : Row) : Row := fun i => if i ∈ right then r i else l i

/-- Rows put together have the values of the right one in its columns. -/
theorem beside_of_mem {right : Finset Nat} {i : Nat} (h : i ∈ right) (l r : Row) :
    l.beside right r i = r i :=
  if_pos h

/-- Rows put together have the values of the left one in all other columns. -/
theorem beside_of_notMem {right : Finset Nat} {i : Nat} (h : i ∉ right) (l r : Row) :
    l.beside right r i = l i :=
  if_neg h

/-- A row with nulls in the columns `right`. -/
def padded (right : Finset Nat) (l : Row) : Row := fun i => if i ∈ right then none else l i

end Row

namespace Tuple

/-- Whether two tuples have the same values position by position. -/
def same (t u : Tuple) : Bool :=
  t.length == u.length && (List.zipWith Value.same t u).all id

end Tuple

/-! ### Databases -/

/-- The contents of the stored tables by table id, and the results that common table
expressions share by id. A shared result may depend on parameters. -/
structure Database where
  table : Nat → Multiset Tuple
  shared : Nat → Row → Bag

/-! ### Rows under other columns

A map of columns says which column stands in for which. `Row.under` reads a row back through
it: the row has the values of the columns that stand in for the ones that are asked for.
-/

namespace ColumnMap

/-- The id that stands in for an id. -/
def idFor (m : ColumnMap) (i : Nat) : Nat :=
  ((m.entries.lookup i).map (·.id)).getD i

/-- A map replaces the id of a column. -/
@[simp] theorem id_substitute (m : ColumnMap) (c : Column) :
    (m.substitute c).id = m.idFor c.id := by
  unfold substitute get? idFor
  cases m.entries.lookup c.id <;> rfl

/-- What a map says about an id when an entry has been made. -/
theorem lookup_insertEntry (i j : Nat) (t : Column) (entries : List (Nat × Column)) :
    (insertEntry j t entries).lookup i = if j = i then some t else entries.lookup i := by
  induction entries with
  | nil =>
    by_cases h : j = i <;> simp [insertEntry, List.lookup_cons, beq_eq_decide, h, Ne.symm]
  | cons e rest ih =>
    obtain ⟨k, c⟩ := e
    simp only [insertEntry, List.lookup_cons, beq_eq_decide]
    by_cases hkj : k = j
    · subst hkj
      by_cases h : k = i <;> simp [List.lookup_cons, beq_eq_decide, h, Ne.symm]
    · by_cases h : i = k <;> simp [List.lookup_cons, beq_eq_decide, hkj, h, ih, Ne.symm]

/-- Of the pairs for one id the last one counts. -/
theorem lookup_ofLists (source target : List Column) (i : Nat) :
    (ofLists source target).entries.lookup i =
      ((source.zip target).reverse.find? fun p => p.1.id == i).map (·.2) := by
  rw [ofLists, List.foldl_eq_foldr_reverse]
  induction (source.zip target).reverse with
  | nil => rfl
  | cons p ps ih =>
    rw [List.foldr_cons, List.find?_cons]
    change (insertEntry p.1.id p.2 _).lookup i = _
    rw [lookup_insertEntry, ih]
    by_cases h : p.1.id = i <;> simp [h, beq_eq_decide]

/-- If there is a target for each source, then one of them stands in for each source. -/
theorem exists_idFor_ofLists {source target : List Column}
    (lengths : source.length = target.length) {c : Column} (mem : c ∈ source) :
    ∃ t ∈ target, (ofLists source target).idFor c.id = t.id := by
  obtain ⟨k, hk, rfl⟩ := List.getElem_of_mem mem
  have hk' : k < target.length := lengths ▸ hk
  have paired : (source[k], target[k]) ∈ (source.zip target).reverse :=
    List.mem_reverse.2 (List.mem_iff_getElem.2 ⟨k, by simpa [lengths] using hk, by simp⟩)
  cases found : (source.zip target).reverse.find? fun p => p.1.id == source[k].id with
  | none =>
    have := List.find?_eq_none.1 found _ paired
    simp at this
  | some p =>
    have inside := List.mem_reverse.1 (List.mem_of_find?_eq_some found)
    exact ⟨p.2, (List.of_mem_zip inside).2, by simp [idFor, lookup_ofLists, found]⟩

end ColumnMap

/-- The row that has, in each column, the value of the column that stands in for it. -/
def Row.under (r : Row) (m : ColumnMap) : Row :=
  fun i => r (m.idFor i)

/-- Reading a row under new names is reading it in the columns that these stand for. -/
theorem Row.tuple_under (r : Row) (m : ColumnMap) (cols : List Column) :
    (r.under m).tuple cols = r.tuple (cols.map m.substitute) := by
  simp [Row.tuple, Row.under]

end QueryOptimizer
