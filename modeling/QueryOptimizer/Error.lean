import QueryOptimizer.Catalog.Basic

/-!
# Errors

Everything that can end an optimization without a plan. The first group of causes comes from
outside or is the honest outcome of a search; the second group is raised where the optimizer
finds its own data inconsistent. `OptError.message` holds the wording of all of them.
-/

namespace QueryOptimizer

/-- Why an optimization, or one step of it, has no result. -/
inductive OptError where
  | catalog (cause : CatalogError)
  | cancelled
  | noPlanFound (group : Nat) (required : String)
  | unmappedColumn (id : Nat)
  | stageAlreadyCompleted
  | unregisteredProducer (cte : Nat)
  | noRoot (builder : String)
  -- inconsistent data
  | patternMismatch
  | operatorOfGroup
  | operatorNotInMemo
  | groupNotInsertable (group : Nat)
  | physicalStartsGroup (operator : String)
  | physicalNotExplored (operator : String)
  | logicalNotCosted (operator : String)
  | inputNotCosted (operator : String) (index : Nat)
  | winnerWithoutInputs (expr : String) (group : Nat) (required : String)
  | circularPlan (group : Nat) (required : String)
  | outOfRange (what : String) (index : Nat)
  deriving DecidableEq, Repr

namespace OptError

/-- The message of an error. -/
def message : OptError → String
  | catalog cause => cause.message
  | cancelled => "optimization cancelled"
  | noPlanFound group required =>
    "no plan found for group " ++ toString group ++ " with required property " ++ required
  | unmappedColumn id => "column " ++ toString id ++ " has no mapping"
  | stageAlreadyCompleted => "best expression of search stage already set"
  | unregisteredProducer cte => "CTE producer " ++ toString cte ++ " is not registered"
  | noRoot builder => builder ++ " plan builder has no root"
  | patternMismatch => "Pattern mismatch"
  | operatorOfGroup => "Can't get operator from group handle!"
  | operatorNotInMemo => "Operator node is not in memo yet!"
  | groupNotInsertable group =>
    "Group handle " ++ toString group ++ " can't be inserted as group expression"
  | physicalStartsGroup operator => "Physical operator " ++ operator ++ " can't start a group"
  | physicalNotExplored operator => "Can't apply rules to physical operator " ++ operator
  | logicalNotCosted operator => "Logical operator " ++ operator ++ " can't be costed"
  | inputNotCosted operator index => operator ++ " has no input " ++ toString index
  | winnerWithoutInputs expr group required =>
    "Winner " ++ expr ++ " of group " ++ toString group ++ " has no inputs recorded for "
      ++ required
  | circularPlan group required =>
    "Best plan of group " ++ toString group ++ " for " ++ required ++ " refers to itself"
  | outOfRange what index => what ++ " " ++ toString index ++ " does not exist"

end OptError

/-- The result of a step of the optimizer. -/
abbrev OptResult := Except OptError

/-- Passes a failed lookup on as an error of the optimizer. -/
def CatalogAnswer.orFail {α : Type} : CatalogAnswer α → OptResult α
  | .ok a => .ok a
  | .error e => .error (.catalog e)

/-- The element of a list at an index, which must exist. -/
def elementAt {α : Type} (what : String) (as : List α) (index : Nat) : OptResult α :=
  match as[index]? with
  | some a => .ok a
  | none => .error (.outOfRange what index)

end QueryOptimizer
