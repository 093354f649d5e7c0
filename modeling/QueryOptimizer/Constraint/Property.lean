import QueryOptimizer.Constraint.Predicate

/-!
# Constraint properties

The constraint property of a relation consists of equivalence classes of columns, whose members
are equal in every row, and a constraint on column values. `ConstraintProperty.ofClasses` keeps
two rules: classes are disjoint and have at least two members, and what is known about one
member of a class is known about all.
-/

namespace QueryOptimizer

/-- Columns that are equal in every row, and what is known about the values of columns. -/
structure ConstraintProperty where
  classes : List ColumnSet := []
  constraint : Option Constraint := none
  deriving BEq

namespace ConstraintProperty

instance : Inhabited ConstraintProperty := ⟨{}⟩

/-! ### Equivalence classes -/

/-- The list without the element at an index, whose place the last element takes. -/
def swapRemove {α : Type} (as : List α) (index : Nat) : List α :=
  match as.getLast? with
  | some last => (as.set index last).dropLast
  | none => []

/-- A list gets shorter by one when an element is removed. -/
theorem length_swapRemove {α : Type} (as : List α) (index : Nat) :
    (swapRemove as index).length = as.length - 1 := by
  unfold swapRemove
  cases h : as.getLast? with
  | none => simp_all
  | some last => simp

/-- Unites a class with every class of a list that it shares a column with, directly or through
others. The classes that are left over are returned with the union. -/
def absorb (current : ColumnSet) (merged : List ColumnSet) : ColumnSet × List ColumnSet :=
  match h : merged.findIdx? (!·.isDisjoint current) with
  | none => (current, merged)
  | some i =>
    have hi : i < merged.length := (List.findIdx?_eq_some_iff_findIdx_eq.1 h).1
    absorb (current.union merged[i]) (swapRemove merged i)
termination_by merged.length
decreasing_by
  rw [length_swapRemove]
  exact Nat.sub_lt (Nat.lt_of_le_of_lt (Nat.zero_le _) hi) Nat.one_pos

/-- Adds a class to a list of disjoint classes. -/
def addClass (merged : List ColumnSet) (c : ColumnSet) : List ColumnSet :=
  let (current, rest) := absorb c merged
  rest ++ [current]

/-- Unites classes that share a column until all are disjoint, and drops classes
of one column. -/
def mergeClasses (classes : List ColumnSet) : List ColumnSet :=
  (classes.foldl addClass []).filter fun c => decide (1 < c.size)

/-! ### Construction -/

/-- What a constraint says about one member of a class, said about each other member. -/
def copiesWithin (constraint : Constraint) (cls : ColumnSet) : List Constraint :=
  cls.toList.flatMap fun src =>
    match constraint.onColumn src with
    | none => []
    | some known =>
      (cls.toList.filter (· != src)).filterMap fun dst =>
        (known.rename (ColumnMap.empty.insert src dst) false).toOption

/-- The constraint together with what follows from it for the other members of each class. -/
def propagate (classes : List ColumnSet) : Option Constraint → Option Constraint
  | none => none
  | some constraint =>
    match classes.flatMap (copiesWithin constraint) with
    | [] => some constraint
    | copies => Constraint.conjunction? (constraint :: copies) .index

/-- The property of some classes and a constraint. -/
def ofClasses (classes : List ColumnSet) (constraint : Option Constraint) :
    ConstraintProperty :=
  let classes := mergeClasses classes
  ⟨classes, propagate classes constraint⟩

/-- The classes and the constraints that the conjuncts of a predicate give rise to. -/
def readConjuncts {K : Type} (catalog : Catalog K) :
    List Scalar → OptResult (List ColumnSet × List Constraint)
  | [] => return ([], [])
  | e :: es =>
    match e.asColumnEquality? with
    | some (l, r) => do
      let (classes, constraints) ← readConjuncts catalog es
      return (.ofList [l, r] :: classes, constraints)
    | none => do
      let constraint ← Constraint.ofPredicate catalog e
      let (classes, constraints) ← readConjuncts catalog es
      return (classes, constraint.toList ++ constraints)

/-- The property of the rows that pass a predicate. Conjuncts that equate two columns become
classes, the others are read as constraints. -/
def ofPredicate {K : Type} (catalog : Catalog K) (e : Scalar) :
    OptResult ConstraintProperty := do
  let (classes, constraints) ← readConjuncts catalog e.conjuncts
  return ofClasses classes (Constraint.conjunction? constraints .index)

/-! ### Operations -/

/-- Whether no row can have the property. -/
def isContradiction (p : ConstraintProperty) : Bool :=
  p.constraint.any (·.isContradiction)

/-- Both properties hold, as after a filter or an inner join. -/
def conjoin (p q : ConstraintProperty) : ConstraintProperty :=
  ofClasses (p.classes ++ q.classes)
    (Constraint.conjunction? (p.constraint.toList ++ q.constraint.toList) .index)

/-- One of the properties holds, as for the rows of a union. -/
def disjoin (p q : ConstraintProperty) : ConstraintProperty :=
  let common := p.classes.flatMap fun l => q.classes.map l.inter
  ofClasses (common.filter fun c => decide (1 < c.size)) <|
    match p.constraint, q.constraint with
    | some c, some d => Constraint.disjunction? [c, d] .index
    | _, _ => none

/-- What is known about some of the columns alone. -/
def restrict (p : ConstraintProperty) (cols : ColumnSet) : ConstraintProperty :=
  ofClasses (p.classes.map (·.inter cols)) (p.constraint.bind (·.onColumns cols))

/-- The columns of a class replaced. A column that is not in the map is kept, or is an error if
`strict`. -/
def renameClass (map : ColumnMap) (strict : Bool) (cls : ColumnSet) : OptResult ColumnSet :=
  return .ofList <| ← cls.toList.mapM fun c =>
    match map.get? c with
    | some mapped => .ok mapped
    | none => if strict then .error (.unmappedColumn c.id) else .ok c

/-- The property with its columns replaced. A column that is not in the map is kept, or is an
error if `strict`. -/
def rename (p : ConstraintProperty) (map : ColumnMap) (strict : Bool) :
    OptResult ConstraintProperty := do
  let classes ← p.classes.mapM (renameClass map strict)
  let constraint ← p.constraint.mapM (·.rename map strict)
  return ofClasses classes constraint

end ConstraintProperty

end QueryOptimizer
