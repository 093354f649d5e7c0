import QueryOptimizer.Operator.Logical
import QueryOptimizer.Proofs.Bare
import QueryOptimizer.Proofs.Semantics.Scalar
import QueryOptimizer.Proofs.Semantics.Value

/-!
# Replacing columns

Expressions and operators with each of their columns replaced by what a function says about
it, and with the list of columns that occur in them. What is left of an operator when columns
are replaced by the same ones under other names is an equal operator. An expression whose
columns are replaced by those that a map puts in for them has the value that it has itself in
the row read through the map.

## Main results

* `Scalar.bare_substitute`, `LogicalOperator.bare_substitute`: replacing columns
  by the same ones.
* `Scalar.substitute_substitute`, `LogicalOperator.substitute_substitute`:
  replacing columns twice.
* `Scalar.eval_substitute`: the value after columns have been replaced.
-/

namespace QueryOptimizer

/-! ### Columns -/

namespace Scalar

mutual

/-- The expression with its columns replaced. -/
def substitute (f : Column → Column) : Scalar → Scalar
  | column c => column (f c)
  | literal v => literal v
  | binary op l r => binary op (substitute f l) (substitute f r)
  | not e => not (substitute f e)
  | isNull e => isNull (substitute f e)
  | cast e t => cast (substitute f e) t
  | call n as t => call n (substituteList f as) t
  | aggregate g as d => aggregate g (substituteList f as) d

/-- The expressions with their columns replaced. -/
def substituteList (f : Column → Column) : List Scalar → List Scalar
  | [] => []
  | e :: es => substitute f e :: substituteList f es

end

mutual

/-- The columns of an expression as often as they occur, from left to right. -/
def occurrences : Scalar → List Column
  | column c => [c]
  | literal _ => []
  | binary _ l r => l.occurrences ++ r.occurrences
  | not e | isNull e | cast e _ => e.occurrences
  | call _ as _ | aggregate _ as _ => occurrencesList as

/-- The columns of expressions as often as they occur, from left to right. -/
def occurrencesList : List Scalar → List Column
  | [] => []
  | e :: es => e.occurrences ++ occurrencesList es

end

end Scalar

namespace Definition

/-- The definition with its columns replaced. -/
def substitute (f : Column → Column) (d : Definition) : Definition :=
  (f d.1, d.2.substitute f)

/-- The columns of a definition as often as they occur, the one that it defines at the end. -/
def occurrences (d : Definition) : List Column :=
  d.2.occurrences ++ [d.1]

end Definition

namespace SortOrder

/-- The order with its columns replaced. -/
def substitute (f : Column → Column) (o : SortOrder) : SortOrder :=
  ⟨o.keys.map fun k => { k with column := f k.column }⟩

end SortOrder

namespace LogicalOperator

/-- The operator with its columns replaced. The columns of a producer stay what they are in its
consumers. -/
def substitute (f : Column → Column) : LogicalOperator → LogicalOperator
  | get s => get { s with cols := s.cols.map f }
  | dynamicGet s =>
    dynamicGet { s with cols := s.cols.map f, partitionKeys := s.partitionKeys.map f }
  | values v => values { v with cols := v.cols.map f }
  | select p => select (p.substitute f)
  | project ds => project (ds.map (Definition.substitute f))
  | groupBy g => groupBy ⟨g.keys.map f, g.aggregates.map (Definition.substitute f)⟩
  | limit l => limit { l with order := l.order.substitute f }
  | join j => join { j with predicate := j.predicate.substitute f }
  | apply a => apply ⟨a.type, a.predicate.substitute f, a.outer.map f⟩
  | setOp s => setOp ⟨s.kind, s.output.map f, s.inputs.map (·.map f)⟩
  | cteAnchor id => cteAnchor id
  | cteProducer p => cteProducer { p with cols := p.cols.map f }
  | cteConsumer c => cteConsumer { c with cols := c.cols.map f }

/-- The columns of an operator as often as they occur, in the order in which
they are renamed. -/
def occurrences : LogicalOperator → List Column
  | get s => s.cols
  | dynamicGet s => s.cols ++ s.partitionKeys
  | values v => v.cols
  | select p => p.occurrences
  | project ds => ds.flatMap Definition.occurrences
  | groupBy g => g.keys ++ g.aggregates.flatMap Definition.occurrences
  | limit l => l.order.keys.map (·.column)
  | join j => j.predicate.occurrences
  | apply a => a.predicate.occurrences ++ a.outer
  | setOp s => s.output ++ s.inputs.flatten
  | cteAnchor _ => []
  | cteProducer p => p.cols
  | cteConsumer c => c.cols

end LogicalOperator

/-! ### Replacing columns by the same ones, and twice -/

section Substitution

variable {f : Column → Column}

/-- Columns that keep their ids are the same to matching. -/
theorem Column.map_bare_of_id {cols : List Column} (same : ∀ c ∈ cols, (f c).id = c.id) :
    (cols.map f).map bare = cols.map bare := by
  rw [List.map_map]
  exact List.map_congr_left fun c hc => by simp [bare, same c hc]

namespace Scalar

mutual

/-- An expression whose columns keep their ids is the same to matching. -/
theorem bare_substitute : ∀ {e : Scalar}, (∀ c ∈ e.occurrences, (f c).id = c.id) →
    (e.substitute f).bare = e.bare
  | column c, same => by
    simp [substitute, bare, Column.bare, same c (List.mem_singleton_self c)]
  | literal v, _ => rfl
  | binary op l r, same => by
    have left := bare_substitute fun c hc => same c (List.mem_append_left r.occurrences hc)
    have right := bare_substitute fun c hc => same c (List.mem_append_right l.occurrences hc)
    simp only [substitute, bare, left, right]
  | not e, same => by simp only [substitute, bare, bare_substitute (e := e) same]
  | isNull e, same => by simp only [substitute, bare, bare_substitute (e := e) same]
  | cast e t, same => by simp only [substitute, bare, bare_substitute (e := e) same]
  | call n as t, same => by
    simp only [substitute, bare, bareList_substituteList (l := as) same]
  | aggregate g as d, same => by
    simp only [substitute, bare, bareList_substituteList (l := as) same]

/-- Expressions whose columns keep their ids are the same to matching. -/
theorem bareList_substituteList :
    ∀ {l : List Scalar}, (∀ c ∈ occurrencesList l, (f c).id = c.id) →
    bareList (substituteList f l) = bareList l
  | [], _ => rfl
  | e :: es, same => by
    have first :=
      bare_substitute fun c hc => same c (List.mem_append_left (occurrencesList es) hc)
    have rest :=
      bareList_substituteList fun c hc => same c (List.mem_append_right e.occurrences hc)
    simp only [substituteList, bareList, first, rest]

end

mutual

/-- Replacing columns twice is replacing them once. -/
theorem substitute_substitute (f g : Column → Column) : ∀ e : Scalar,
    (e.substitute f).substitute g = e.substitute (g ∘ f)
  | column c => rfl
  | literal v => rfl
  | binary op l r => by
    simp only [substitute, substitute_substitute f g l, substitute_substitute f g r]
  | not e => by simp only [substitute, substitute_substitute f g e]
  | isNull e => by simp only [substitute, substitute_substitute f g e]
  | cast e t => by simp only [substitute, substitute_substitute f g e]
  | call n as t => by simp only [substitute, substituteList_substituteList f g as]
  | aggregate h as d => by simp only [substitute, substituteList_substituteList f g as]

/-- Replacing columns of expressions twice is replacing them once. -/
theorem substituteList_substituteList (f g : Column → Column) : ∀ es : List Scalar,
    substituteList g (substituteList f es) = substituteList (g ∘ f) es
  | [] => rfl
  | e :: es => by
    simp only [substituteList, substitute_substitute f g e,
      substituteList_substituteList f g es]

end

end Scalar

/-- Definitions whose columns keep their ids are the same to matching. -/
theorem Definition.map_bare_substitute {ds : List Definition}
    (same : ∀ c ∈ ds.flatMap occurrences, (f c).id = c.id) :
    (ds.map (substitute f)).map bare = ds.map bare := by
  rw [List.map_map]
  refine List.map_congr_left fun d hd => ?_
  have same' (c : Column) (hc : c ∈ d.occurrences) : (f c).id = c.id :=
    same c (List.mem_flatMap.2 ⟨d, hd, hc⟩)
  have column : (f d.1).bare = d.1.bare := by
    simp [Column.bare, same' d.1 (List.mem_append_right _ (List.mem_singleton_self d.1))]
  simp only [Function.comp, substitute, bare, column,
    Scalar.bare_substitute fun c hc => same' c (List.mem_append_left [d.1] hc)]

/-- A sort order whose columns keep their ids is the same to matching. -/
theorem SortOrder.bare_substitute {o : SortOrder}
    (same : ∀ c ∈ o.keys.map (·.column), (f c).id = c.id) :
    (o.substitute f).bare = o.bare := by
  simp only [bare, substitute, List.map_map, mk.injEq]
  refine List.map_congr_left fun k hk => ?_
  simp [SortKey.bare, Column.bare, same k.column (List.mem_map_of_mem hk)]

namespace LogicalOperator

/-- An operator does not change but for names and types if columns are replaced
by the same ones. -/
theorem bare_substitute {op : LogicalOperator} (same : ∀ c ∈ op.occurrences, (f c).id = c.id) :
    (op.substitute f).bare = op.bare := by
  cases op with
  | get s =>
    exact congrArg (fun cols => get ⟨s.table.bare, cols⟩) (Column.map_bare_of_id same)
  | dynamicGet s =>
    simp only [substitute, bare, DynamicScan.bare,
      Column.map_bare_of_id fun c hc => same c (List.mem_append_left s.partitionKeys hc),
      Column.map_bare_of_id fun c hc => same c (List.mem_append_right s.cols hc)]
  | values v =>
    exact congrArg (fun cols => values ⟨cols, v.rows⟩) (Column.map_bare_of_id same)
  | select p => simp only [substitute, bare, Scalar.bare_substitute (e := p) same]
  | project ds => simp only [substitute, bare, @Definition.map_bare_substitute f ds same]
  | groupBy g =>
    simp only [substitute, bare, Grouping.bare,
      Column.map_bare_of_id fun c hc => same c (List.mem_append_left _ hc),
      Definition.map_bare_substitute fun c hc => same c (List.mem_append_right g.keys hc)]
  | limit l => simp only [substitute, bare, Limit.bare, SortOrder.bare_substitute same]
  | join j => simp only [substitute, bare, Join.bare, Scalar.bare_substitute same]
  | apply a =>
    simp only [substitute, bare, Apply.bare,
      Scalar.bare_substitute fun c hc => same c (List.mem_append_left a.outer hc),
      Column.map_bare_of_id fun c hc =>
        same c (List.mem_append_right a.predicate.occurrences hc)]
  | setOp s =>
    have inputs : (s.inputs.map (·.map f)).map (·.map Column.bare) =
        s.inputs.map (·.map Column.bare) := by
      rw [List.map_map]
      exact List.map_congr_left fun cols hcols => Column.map_bare_of_id fun c hc =>
        same c (List.mem_append_right s.output (List.mem_flatten.2 ⟨cols, hcols, hc⟩))
    simp only [substitute, bare, SetOperation.bare, inputs,
      Column.map_bare_of_id fun c hc => same c (List.mem_append_left s.inputs.flatten hc)]
  | cteAnchor id => rfl
  | cteProducer p =>
    exact congrArg (fun cols => cteProducer ⟨p.id, cols⟩) (Column.map_bare_of_id same)
  | cteConsumer c =>
    exact congrArg (fun cols => cteConsumer ⟨c.id, cols, c.producerCols.map Column.bare⟩)
      (Column.map_bare_of_id same)

/-- Replacing the columns of an operator twice is replacing them once. -/
theorem substitute_substitute (f g : Column → Column) (op : LogicalOperator) :
    (op.substitute f).substitute g = op.substitute (g ∘ f) := by
  have definitions (ds : List Definition) :
      (ds.map (Definition.substitute f)).map (Definition.substitute g) =
        ds.map (Definition.substitute (g ∘ f)) := by
    rw [List.map_map]
    exact List.map_congr_left fun d _ => by
      simp only [Function.comp, Definition.substitute, Scalar.substitute_substitute]
  cases op <;> simp only [substitute, List.map_map, Scalar.substitute_substitute, definitions,
    SortOrder.substitute, Function.comp_def]

end LogicalOperator

end Substitution

/-! ### Values -/

namespace Scalar

variable (I : Interpretation) (m : ColumnMap)

mutual

/-- After columns have been replaced, an expression has the value that it has in rows
read through the map. -/
theorem eval_substitute (group : Bag) (r : Row) : ∀ e : Scalar,
    (e.substitute m.substitute).eval I group r = e.eval I (group.map (·.under m)) (r.under m)
  | column c => by simp only [substitute, eval, Row.under, ColumnMap.id_substitute]
  | literal v => rfl
  | binary op e f => by
    simp only [substitute, eval, eval_substitute group r e, eval_substitute group r f]
  | not e => by simp only [substitute, eval, eval_substitute group r e]
  | isNull e => by simp only [substitute, eval, eval_substitute group r e]
  | cast e t => by simp only [substitute, eval, eval_substitute group r e]
  | call n as t => by simp only [substitute, eval, evalList_substituteList group r as]
  | aggregate g as d => by
    simp only [substitute, eval, Multiset.map_map, Function.comp_def]
    exact congrArg _ (Multiset.map_congr rfl fun w _ => evalList_substituteList group w as)

/-- Expressions under new names have the values of the row read under these. -/
theorem evalList_substituteList (group : Bag) (r : Row) : ∀ es : List Scalar,
    evalList I group (substituteList m.substitute es) r =
      evalList I (group.map (·.under m)) es (r.under m)
  | [] => rfl
  | e :: es => by
    simp only [substituteList, evalList, eval_substitute group r e,
      evalList_substituteList group r es]

end

mutual

/-- The columns that occur in an expression are those that it uses. -/
theorem idsOf_occurrences : ∀ e : Scalar, Column.idsOf e.occurrences = e.uses
  | column c => by simp [occurrences, Column.idsOf_cons]
  | literal v => rfl
  | binary op l r => by
    simp only [occurrences, Column.idsOf_append, idsOf_occurrences l,
      idsOf_occurrences r, uses_binary]
  | not e => idsOf_occurrences e
  | isNull e => idsOf_occurrences e
  | cast e t => idsOf_occurrences e
  | call n as t => idsOf_occurrencesList as
  | aggregate g as d => idsOf_occurrencesList as

/-- The columns that occur in expressions are those that they use. -/
theorem idsOf_occurrencesList :
    ∀ es : List Scalar, Column.idsOf (occurrencesList es) = usesOf es
  | [] => rfl
  | e :: es => by
    simp only [occurrencesList, Column.idsOf_append, idsOf_occurrences e,
      idsOf_occurrencesList es, usesOf_cons]

end

end Scalar

end QueryOptimizer
