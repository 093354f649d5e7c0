import QueryOptimizer.Plan.Basic

/-!
# Building plans

A `PlanBuilder` puts a plan together from the leaves upwards. A leaf starts a new plan, every
other operator is put on top of the current one. The ids of the nodes count on from plan to
plan, so that nodes of all plans made by one builder can be told apart.
-/

namespace QueryOptimizer

/-- The kind of plans that a builder makes. -/
inductive PlanKind where
  | logical
  | physical
  deriving DecidableEq, Repr

/-- The name of a kind of plans. -/
def PlanKind.name : PlanKind → String
  | logical => "Logical"
  | physical => "Physical"

/-- A plan under construction. -/
structure PlanBuilder (K : Type) where
  kind : PlanKind
  nextId : Nat := 0
  root : Option (Plan K) := none

namespace PlanBuilder

variable {K : Type}

/-- Puts a node with the given inputs in place of the current plan. -/
def node (b : PlanBuilder K) (op : Operator) (inputs : List (Plan K)) : PlanBuilder K :=
  { b with nextId := b.nextId + 1, root := some { id := b.nextId, operator := op, inputs } }

/-- The inputs of an operator that is put on top of a plan. Other inputs come after the plan,
but the producer of a common table expression comes before its body. -/
def inputsOf (op : Operator) (root : Option (Plan K)) (others : List (Plan K)) :
    List (Plan K) :=
  match op with
  | .logical (.cteAnchor _) => others ++ root.toList
  | _ => if op.isLeaf then [] else root.toList ++ others

/-- Starts a new plan with a leaf, or puts any other operator on top of the current plan and of
other ones. -/
def add (b : PlanBuilder K) (op : Operator) (others : List (Plan K)) : PlanBuilder K :=
  b.node op (inputsOf op b.root others)

/-- Adds the motion toward a distribution, and nothing when no motion leads there. -/
def motion (b : PlanBuilder K) (d : Distribution) : PlanBuilder K :=
  match Motion.toward? d with
  | some m => b.add (.physical (.motion m)) []
  | none => b

/-- Takes the plan out of the builder, which keeps counting ids. -/
def build (b : PlanBuilder K) : OptResult (Plan K) × PlanBuilder K :=
  match b.root with
  | some plan => (.ok plan, { b with root := none })
  | none => (.error (.noRoot b.kind.name), b)

end PlanBuilder

end QueryOptimizer
