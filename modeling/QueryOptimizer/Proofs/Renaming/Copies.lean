import QueryOptimizer.Proofs.Renaming.Growth
import QueryOptimizer.Proofs.Renaming.Substitution

/-!
# Copies with renamed columns

Copying an expression or an operator renames its columns one after the other, while the map
grows. The copy is the same as if every column had been replaced by what stands in for it in
the end (`Renaming.Copies`): a column that was renamed early is not renamed differently later.
So the order in which a kind of operator goes through its columns makes no difference to the
copy, only to which fresh column is which.

## Main results

* `Scalar.copies_rename`, `LogicalOperator.copies_rename`: copies replace columns.
* `Copyable.run_renameAll`: so do copies that share a map, and the map only grows.
* `Copyable.copies_are_renamings`: copies without fresh columns are equal, those with fresh
  columns can be copied back, and copies through one map agree.
-/

namespace QueryOptimizer

namespace Renaming

/-- Whether a copy renames the columns `cols`, one after the other, and replaces them by what
stands in for them in the end. -/
structure Copies {α : Type} (fresh : Bool) (copy : StateM Renaming α) (cols : List Column)
    (image : (Column → Column) → α) : Prop where
  run : ∀ r, copy.run r = (image (r.after fresh cols).map.substitute, r.after fresh cols)
  congr : ∀ f g, (∀ c ∈ cols, f c = g c) → image f = image g

namespace Copies

variable {α β : Type} {fresh : Bool} {x : StateM Renaming α} {cols cols' : List Column}
  {image : (Column → Column) → α}

/-- What has no columns is its own copy. -/
theorem pure (fresh : Bool) (a : α) : Copies fresh (pure a) [] fun _ => a :=
  ⟨fun _ => rfl, fun _ _ _ => rfl⟩

/-- A column is copied by being replaced. -/
theorem column (fresh : Bool) (c : Column) :
    Copies fresh (Renaming.column fresh c) [c] fun f => f c :=
  ⟨run_column fresh c, fun _ _ agree => agree c List.mem_cons_self⟩

/-- What was copied first is not affected by what the map learns later. -/
theorem bind (hx : Copies fresh x cols image) {k : α → StateM Renaming β}
    {image' : α → (Column → Column) → β} (hk : ∀ a, Copies fresh (k a) cols' (image' a)) :
    Copies fresh (x >>= k) (cols ++ cols') fun f => image' (image f) f where
  run r := by
    have settled : image (r.after fresh cols).map.substitute =
        image ((r.after fresh cols).after fresh cols').map.substitute :=
      hx.congr _ _ fun c hc => (substitute_after fresh r cols' hc).symm
    rw [StateT.run_bind, hx.run, after_append, ← settled]
    exact (hk _).run _
  congr f g agree := by
    rw [hx.congr f g fun c hc => agree c (List.mem_append_left cols' hc)]
    exact (hk _).congr f g fun c hc => agree c (List.mem_append_right cols hc)

/-- A function of a copy is a copy if it is one of the image. -/
theorem map (hx : Copies fresh x cols image) (g : α → β) :
    Copies fresh (x >>= fun a => Pure.pure (g a)) cols fun f => g (image f) := by
  have := hx.bind fun a => pure fresh (g a)
  rwa [List.append_nil] at this

/-- The parts of a list are copied one after the other. -/
theorem mapM {copy : α → StateM Renaming β} {occurrences : α → List Column}
    {substitute : (Column → Column) → α → β}
    (each : ∀ a, Copies fresh (copy a) (occurrences a) (substitute · a)) (as : List α) :
    Copies fresh (as.mapM copy) (as.flatMap occurrences) fun f => as.map (substitute f) := by
  induction as with
  | nil => exact pure fresh []
  | cons a as ih =>
    rw [List.mapM_cons, List.flatMap_cons]
    exact (each a).bind fun b => ih.map (b :: ·)

/-- Columns are copied one after the other. -/
theorem columns (fresh : Bool) (cols : List Column) :
    Copies fresh (Renaming.columns fresh cols) cols fun f => cols.map f := by
  have each (c : Column) : Copies fresh (Renaming.column fresh c) [c] fun f =>
    f c := column fresh c
  have := mapM each cols
  rwa [List.flatMap_singleton'] at this

end Copies

end Renaming

open Renaming

namespace Scalar

mutual

/-- An expression is copied by replacing its columns. -/
theorem copies_rename (fresh : Bool) : ∀ e : Scalar,
    Copies fresh (e.rename fresh) e.occurrences (e.substitute ·)
  | column c => (Copies.column fresh c).map Scalar.column
  | literal v => .pure fresh (literal v)
  | binary op l r =>
    (copies_rename fresh l).bind fun a => (copies_rename fresh r).map (binary op a)
  | not e => (copies_rename fresh e).map not
  | isNull e => (copies_rename fresh e).map isNull
  | cast e t => (copies_rename fresh e).map (cast · t)
  | call n as t => (copies_renameList fresh as).map (call n · t)
  | aggregate g as d => (copies_renameList fresh as).map (aggregate g · d)

/-- Expressions are copied one after the other. -/
theorem copies_renameList (fresh : Bool) : ∀ es : List Scalar,
    Copies fresh (renameList fresh es) (occurrencesList es) (substituteList · es)
  | [] => .pure fresh []
  | e :: es => (copies_rename fresh e).bind fun a => (copies_renameList fresh es).map (a :: ·)

end

end Scalar

/-- A definition is copied by replacing its columns, the one that it defines among them. -/
theorem Definition.copies_rename (fresh : Bool) (d : Definition) :
    Copies fresh (d.rename fresh) d.occurrences (d.substitute ·) :=
  (d.2.copies_rename fresh).bind fun e => (Copies.column fresh d.1).map (·, e)

/-- A sort order is copied by replacing its columns. -/
theorem SortOrder.copies_rename (fresh : Bool) (o : SortOrder) :
    Copies fresh (o.rename fresh) (o.keys.map (·.column)) (o.substitute ·) := by
  have keys := Copies.mapM (fun k : SortKey =>
    (Copies.column fresh k.column).map fun c => { k with column := c }) o.keys
  rw [List.map_eq_flatMap]
  exact keys.map SortOrder.mk

namespace LogicalOperator

/-- An operator is copied by replacing its columns. -/
theorem copies_rename (fresh : Bool) (op : LogicalOperator) :
    Copies fresh (op.rename fresh) op.occurrences (op.substitute ·) := by
  cases op with
  | get s => exact (Copies.columns fresh s.cols).map fun cols => get { s with cols }
  | dynamicGet s =>
    exact (Copies.columns fresh s.cols).bind fun cols =>
      (Copies.columns fresh s.partitionKeys).map fun partitionKeys =>
        dynamicGet { s with cols, partitionKeys }
  | values v => exact (Copies.columns fresh v.cols).map fun cols => values { v with cols }
  | select p => exact (p.copies_rename fresh).map select
  | project ds => exact (Copies.mapM (Definition.copies_rename fresh) ds).map project
  | groupBy g =>
    exact (Copies.columns fresh g.keys).bind fun keys =>
      (Copies.mapM (Definition.copies_rename fresh) g.aggregates).map fun ds =>
        groupBy ⟨keys, ds⟩
  | limit l => exact (l.order.copies_rename fresh).map fun order => limit { l with order }
  | join j =>
    exact (j.predicate.copies_rename fresh).map fun predicate => join { j with predicate }
  | apply a =>
    exact (a.predicate.copies_rename fresh).bind fun predicate =>
      (Copies.columns fresh a.outer).map fun outer => apply ⟨a.type, predicate, outer⟩
  | setOp s =>
    have inputs := Copies.mapM (Copies.columns fresh) s.inputs
    rw [List.flatMap_id'] at inputs
    exact (Copies.columns fresh s.output).bind fun output =>
      inputs.map fun inputs => setOp ⟨s.kind, output, inputs⟩
  | cteAnchor id => exact .pure fresh (cteAnchor id)
  | cteProducer p =>
    exact (Copies.columns fresh p.cols).map fun cols => cteProducer { p with cols }
  | cteConsumer c =>
    exact (Copies.columns fresh c.cols).map fun cols => cteConsumer { c with cols }

end LogicalOperator

/-! ### Expressions and operators -/

/-- What can be copied with its columns renamed. -/
inductive Copyable where
  | expression (e : Scalar)
  | operator (op : LogicalOperator)
  deriving BEq

namespace Copyable

/-- The expression or operator with its columns renamed. -/
def rename (fresh : Bool) : Copyable → StateM Renaming Copyable
  | expression e => return expression (← e.rename fresh)
  | operator op => return operator (← op.rename fresh)

/-- The expression or operator with its columns replaced. -/
def substitute (f : Column → Column) : Copyable → Copyable
  | expression e => expression (e.substitute f)
  | operator op => operator (op.substitute f)

/-- The columns of an expression or operator, in the order in which they are renamed. -/
def occurrences : Copyable → List Column
  | expression e => e.occurrences
  | operator op => op.occurrences

/-- What can be copied is copied by replacing its columns. -/
theorem copies_rename (fresh : Bool) (x : Copyable) :
    Copies fresh (x.rename fresh) x.occurrences (x.substitute ·) := by
  cases x with
  | expression e => exact (e.copies_rename fresh).map expression
  | operator op => exact (op.copies_rename fresh).map operator

/-- Without fresh columns nothing but the copy is made. -/
theorem run_rename_false (x : Copyable) (r : Renaming) :
    (x.rename false).run r = (x.substitute r.map.substitute, r) := by
  rw [(copies_rename false x).run, after_false]

/-- Replacing columns twice is replacing them once. -/
theorem substitute_substitute (f g : Column → Column) (x : Copyable) :
    (x.substitute f).substitute g = x.substitute (g ∘ f) := by
  cases x with
  | expression e => exact congrArg expression (e.substitute_substitute f g)
  | operator op => exact congrArg operator (op.substitute_substitute f g)

/-- A copy whose columns have the old ids matches what was copied. -/
theorem substitute_beq {f : Column → Column} {x : Copyable}
    (same : ∀ c ∈ x.occurrences, (f c).id = c.id) : (x.substitute f == x) = true := by
  cases x with
  | expression e => exact Scalar.beq_iff_bare.2 (Scalar.bare_substitute same)
  | operator op => exact LogicalOperator.beq_iff_bare.2 (LogicalOperator.bare_substitute same)

variable {x : Copyable}

/-- A copy whose map is undone is the original. -/
theorem substitute_back {m back : ColumnMap} (undoes : back.Undoes m)
    (covered : ∀ c ∈ x.occurrences, (m.get? c).isSome = true) :
    ((x.substitute m.substitute).substitute back.substitute == x) = true := by
  rw [substitute_substitute]
  refine substitute_beq fun c hc => ?_
  obtain ⟨d, hd⟩ := Option.isSome_iff_exists.1 (covered c hc)
  obtain ⟨c', hc', same⟩ := undoes c.id d hd
  have forth : m.substitute c = d := ColumnMap.substitute_of_get? hd
  have back' : back.substitute d = c' := ColumnMap.substitute_of_get? hc'
  rw [Function.comp, forth, back', same]

/-- Copies that are made one after the other through one map, each with or
without fresh columns. -/
def renameAll (jobs : List (Bool × Copyable)) : StateM Renaming (List Copyable) :=
  jobs.mapM fun job => job.2.rename job.1

/-- Whether a copy has its columns replaced as `map` does it, or kept. With fresh
columns none is kept. -/
def CopiedWithin (map : ColumnMap) (job : Bool × Copyable) (copy : Copyable) : Prop :=
  ∃ m : ColumnMap, m.Within map ∧ copy = job.2.substitute m.substitute ∧
    (job.1 = true → ∀ c ∈ job.2.occurrences, (m.get? c).isSome = true)

/-- Copies that are made one after the other replace columns by what the map puts in for them
in the end, or keep them. -/
theorem run_renameAll (jobs : List (Bool × Copyable)) (r : Renaming) :
    ∃ copies made, (renameAll jobs).run r = (copies, made) ∧ r.map.Within made.map ∧
      List.Forall₂ (CopiedWithin made.map) jobs copies := by
  induction jobs generalizing r with
  | nil => exact ⟨[], r, rfl, fun _ _ found => found, .nil⟩
  | cons job jobs ih =>
    obtain ⟨fresh, x⟩ := job
    obtain ⟨copies, made, run, within, each⟩ := ih (r.after fresh x.occurrences)
    refine ⟨x.substitute (r.after fresh x.occurrences).map.substitute :: copies, made, ?_,
      (within_after fresh r x.occurrences).trans within, .cons ⟨_, within, rfl, ?_⟩ each⟩
    · rw [renameAll, List.mapM_cons, StateT.run_bind, (copies_rename fresh x).run]
      exact congrArg (fun p : List Copyable × Renaming => (_ :: p.1, p.2)) run
    · rintro rfl c hc
      exact (isSome_after_iff r x.occurrences c.id).2 (.inr (Column.mem_idsOf.2 ⟨c, hc, rfl⟩))

end Copyable

/-! ### An example -/

namespace Sample

/-- A column of whole numbers. -/
def wholeColumn (id : Nat) : Column :=
  ⟨id, .integer .int64, -1, "n", .computed⟩

/-- The sums of column 1 for each value of column 0, as column 2. -/
def sums : Copyable :=
  .operator
    (.groupBy
      ⟨[wholeColumn 0], [(wholeColumn 2, .aggregate .sum [.column (wholeColumn 1)] false)]⟩)

/-- Whether columns 0 and 1 are equal. -/
def twins : Scalar :=
  .eq (.column (wholeColumn 0)) (.column (wholeColumn 1))

/-- The map that puts column 5 in for the columns 0 and 1. -/
def merged : ColumnMap :=
  ⟨[(0, wholeColumn 5), (1, wholeColumn 5)]⟩

end Sample

namespace Copyable

/-- Copying without fresh columns and without a map gives an equal copy and changes nothing.
Copying with fresh columns gives the original with its columns replaced, each by one of its own
that the factory had not given out before, and copying this back through a map that undoes the
replacement gives the original. A copy of an expression has the value that the expression has
in the row read through the map. Copies that share a map replace a column, where they replace
it, by the same one. -/
theorem copies_are_renamings (I : Interpretation) :
    (∀ (x : Copyable) (f : ColumnFactory), ∃ copy,
      (x.rename false).run ⟨.empty, f⟩ = (copy, ⟨.empty, f⟩) ∧ (copy == x) = true) ∧
    (∀ (x : Copyable) (f : ColumnFactory), ∃ copy made,
      (x.rename true).run ⟨.empty, f⟩ = (copy, made) ∧
      copy = x.substitute made.map.substitute ∧
      made.map.RenamesApart f.next (Column.idsOf x.occurrences) ∧
      (∃ back : ColumnMap, back.Undoes made.map) ∧
      ∀ back : ColumnMap, back.Undoes made.map → ∀ g, ∃ again,
        (copy.rename false).run ⟨back, g⟩ = (again, ⟨back, g⟩) ∧ (again == x) = true) ∧
    (∀ (e : Scalar) (fresh : Bool) (r : Renaming),
      (∀ i ∈ e.uses, (r.map.entries.lookup i).isSome = true) → ∃ copy,
      (e.rename fresh).run r = (copy, r) ∧ ∀ (group : Bag) (row : Row),
        copy.eval I group row = e.eval I (group.map (·.under r.map)) (row.under r.map)) ∧
    (∀ (jobs : List (Bool × Copyable)) (r : Renaming), ∃ copies made,
      (renameAll jobs).run r = (copies, made) ∧
        List.Forall₂ (CopiedWithin made.map) jobs copies) := by
  refine ⟨fun x f => ?_, fun x f => ?_, fun e fresh r covered => ?_, fun jobs r => ?_⟩
  · exact ⟨_, x.run_rename_false ⟨.empty, f⟩, substitute_beq fun c _ => rfl⟩
  · have apart := renamesApart_after f x.occurrences
    refine ⟨_, _, (copies_rename true x).run ⟨.empty, f⟩, rfl, apart, apart.exists_undoes,
      fun back undoes g => ⟨_, run_rename_false _ ⟨back, g⟩, ?_⟩⟩
    exact substitute_back undoes fun c hc =>
      (apart.covers c.id).2 (Column.mem_idsOf.2 ⟨c, hc, rfl⟩)
  · have run := (e.copies_rename fresh).run r
    rw [after_of_covers fun c hc => covered c.id
      (e.idsOf_occurrences ▸ Column.mem_idsOf.2 ⟨c, hc, rfl⟩)] at run
    exact ⟨_, run, fun group row => e.eval_substitute I r.map group row⟩
  · obtain ⟨copies, made, run, -, each⟩ := run_renameAll jobs r
    exact ⟨copies, made, run, each⟩

open Sample in
/-- A grouping is copied to other columns and back, and two columns that become
one are equal. -/
theorem copies_are_renamings_sample :
    (∃ copy made back again, (sums.rename true).run ⟨.empty, ⟨3⟩⟩ = (copy, made) ∧
      (copy == sums) = false ∧ back.Undoes made.map ∧
      (copy.rename false).run ⟨back, ⟨6⟩⟩ = (again, ⟨back, ⟨6⟩⟩) ∧ (again == sums) = true) ∧
    (∀ i ∈ twins.uses, (merged.entries.lookup i).isSome = true) ∧
    ∃ copy, (twins.rename true).run ⟨merged, ⟨6⟩⟩ = (copy, ⟨merged, ⟨6⟩⟩) ∧
      copy.eval .strict 0 (fun _ => none) = twins.eval .strict 0 fun _ => none := by
  obtain ⟨-, round, values, -⟩ := copies_are_renamings .strict
  have covered : ∀ i ∈ twins.uses, (merged.entries.lookup i).isSome = true := by decide
  obtain ⟨copy, made, run, -, -, ⟨back, undoes⟩, home⟩ := round sums ⟨3⟩
  obtain ⟨again, run', same⟩ := home back undoes ⟨6⟩
  have apart : (((sums.rename true).run ⟨.empty, ⟨3⟩⟩).1 == sums) = false := by decide
  rw [run] at apart
  obtain ⟨copied, run'', value⟩ := values twins true ⟨merged, ⟨6⟩⟩ covered
  exact ⟨⟨copy, made, back, again, run, apart, undoes, run', same⟩, covered, copied, run'',
    value 0 fun _ => none⟩

end Copyable

end QueryOptimizer
