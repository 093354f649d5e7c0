import QueryOptimizer.Constraint.Basic

/-!
# Constraints of predicates

`Constraint.ofPredicate` reads off a predicate what it says about the values of columns. A
comparison is used only if the catalog knows it and the operator yields null on null input, so
a row outside the interval can never pass the predicate.

Reading is partial: a predicate may say more than the constraint. A `Reading` therefore records
whether the constraint is exact, meaning that it admits no row for which the predicate is
false. Only an exact reading may be negated.
-/

namespace QueryOptimizer

/-- What was read off a predicate. -/
structure Reading where
  constraint : Constraint
  /-- Whether the constraint admits no row for which the predicate is false. -/
  exact : Bool

namespace Reading

variable {K : Type}

/-- The exact reading of an interval. -/
def ofInterval (i : Interval) : Reading :=
  ⟨.interval i, true⟩

/-- The reading of a comparison of a column with a literal. The catalog is asked first whether
it knows the comparison, then how the operator treats nulls. -/
def ofComparison (catalog : Catalog K) (c : Column) (op : BinaryOp) (v : Datum) :
    OptResult (Option Reading) := do
  if !(← (catalog.comparisonExists op c.type v.type).orFail) then return none
  match ← (catalog.scalarOp? op).orFail with
  | none => return none
  | some props =>
    if !props.nullOnNullInput && op != .isDistinctFrom && op != .isNotDistinctFrom then
      return none
    return (Interval.ofComparison? c op v).map ofInterval

/-- The reading of a conjunction from those of its conjuncts. Conjuncts that say nothing are
left out, which makes the reading inexact. -/
def conjoin (parts : List (Option Reading)) : Option Reading :=
  (Constraint.conjunction? (parts.filterMap (·.map (·.constraint))) .index).map
    (⟨·, parts.all fun part => part.any (·.exact)⟩)

/-- The reading of a disjunction from those of its disjuncts. One that says nothing makes the
whole say nothing. -/
def disjoin (parts : List (Option Reading)) : Option Reading :=
  if parts.any (·.isNone) then none
  else
    (Constraint.disjunction? (parts.filterMap (·.map (·.constraint))) .index).map
      (⟨·, parts.all fun part => part.any (·.exact)⟩)

/-- The reading of a negation: nothing can be negated but an exact reading. -/
def negate : Option Reading → Option Reading
  | some ⟨c, true⟩ => some ⟨c.negate, true⟩
  | _ => none

/-- Reads a predicate as part of a chain of `and` or `or`, or on its own for `none`. If it
is such a chain itself, the result lists the readings of the members of the chain; otherwise
it lists the one reading of the predicate. A chain of `or` is read only up to the first
member that says nothing. -/
def parts (catalog : Catalog K) (chain : Option BinaryOp) :
    Scalar → OptResult (List (Option Reading))
  | .binary .and l r => do
    let members := (← parts catalog (some .and) l) ++ (← parts catalog (some .and) r)
    return if chain == some .and then members else [conjoin members]
  | .binary .or l r => do
    let left ← parts catalog (some .or) l
    let members ←
      if left.any (·.isNone) then pure left
      else pure (left ++ (← parts catalog (some .or) r))
    return if chain == some .or then members else [disjoin members]
  | .not e => return (← parts catalog none e).map negate
  | .isNull e => return [e.asColumn?.map fun c => ofInterval (.nullOnly c)]
  | .binary op l r =>
    match (Scalar.binary op l r).asComparison? with
    | some (c, op, v) => return [← ofComparison catalog c op v]
    | none => return [none]
  | _ => return [none]

/-- The reading of a predicate. -/
def ofPredicate (catalog : Catalog K) (e : Scalar) : OptResult (Option Reading) :=
  return (← parts catalog none e).head?.join

end Reading

namespace Constraint

/-- What a predicate says about the values of columns, `none` when it says nothing. -/
def ofPredicate {K : Type} (catalog : Catalog K) (e : Scalar) :
    OptResult (Option Constraint) :=
  return (← Reading.ofPredicate catalog e).map (·.constraint)

end Constraint

end QueryOptimizer
