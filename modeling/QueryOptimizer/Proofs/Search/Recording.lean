import Mathlib.Data.Prod.Lex
import QueryOptimizer.Proofs.Delivery.Alternative
import QueryOptimizer.Proofs.Memo.Outline
import QueryOptimizer.Search.Task

/-!
# The optimization of a physical expression

The optimization of a physical expression goes through its alternatives and, for each of them,
through the inputs. Each step leads to the optimization of an input or to one later step, so it
ends (`Progress.height`). The memo changes in two ways only: expressions are offered to their
groups, and enforcers are put on top of them (`RecordRelation`).

## Main results

* `Task.optimizingInputs_leads`: what one step does to the memo and which tasks follow.
-/

namespace QueryOptimizer

variable {K : Type} [Quantity K] {env : Environment K} {m m' : Memo K}

/-- Whether a relation between memos holds for what the optimization of a physical expression
records. A memo that is related to itself is one that the steps may start from. -/
structure RecordRelation (env : Environment K) (R : Memo K → Memo K → Prop) : Prop extends
    IsTrans (Memo K) R where
  self : ∀ {m m'}, R m m' → R m' m'
  offer : ∀ {m} {id : ExprId} {p : PhysicalProperty} {d : Delivery K}, R m m →
    R m (m.offer id p d)
  enforcer : ∀ {m} {op : PhysicalOperator} {group : GroupId}, R m m → op.isEnforcer = true →
    (Memo.insertKey env ⟨.physical op, [group]⟩ (some group)).Leads R m fun _ _ => True

/-! ### Progress -/

/-- How far the optimization of a physical expression with so many inputs is from its end:
first the alternatives that are left, then the steps that are left for the current one. -/
def Progress.height (arity : ℕ) : Progress K → ℕ ×ₗ ℕ ×ₗ ℕ
  | start => toLex (1, toLex (0, 0))
  | before _ rest input _ => toLex (0, toLex (rest.length, 2 * (arity - input) + 2))
  | after _ rest input _ => toLex (0, toLex (rest.length, 2 * (arity - input) + 1))
  | complete _ rest _ => toLex (0, toLex (rest.length, 0))

/-- The number of inputs of an expression. Only enforcers may still be missing;
they have one input. -/
def Memo.arityAt (m : Memo K) (id : ExprId) : ℕ :=
  (m.key? id).elim 1 (·.inputs.length)

/-- Whether a task comes after a step of the optimization of the expression at a place. -/
inductive Memo.Follows (m : Memo K) (id : ExprId) (p : Progress K) : Task K → Prop
  | input {k : ExprKey} {i : GroupId} (known : m.key? id = some k) (mem : i ∈ k.inputs)
      (r : Request K) : Follows m id p (.optimizeGroup i r)
  | later {p' : Progress K} (r : Request K)
      (lt : p'.height (m.arityAt id) < p.height (m.arityAt id)) :
      Follows m id p (.optimizeInputs id r p')

namespace Task

open MemoM

variable {R : Memo K → Memo K → Prop} {id : ExprId} {group : GroupId} {p : Progress K}

omit [Quantity K] in
/-- The goal for an input is its group with what is required of it. -/
theorem inputGoal_eq_ok {e : Expr K} {a : Alternative} {input : Nat} {goal : Memo.Goal} :
    inputGoal e a input = .ok goal ↔
      e.inputs[input]? = some goal.1 ∧ a.requires[input]? = some goal.2 := by
  simp only [inputGoal, OptResult.bind_eq_ok, OptResult.pure_eq_ok, OptResult.elementAt_eq_ok]
  constructor
  · rintro ⟨i, hi, p, hp, rfl⟩
    exact ⟨hi, hp⟩
  · rintro ⟨hi, hp⟩
    exact ⟨_, hi, _, hp, rfl⟩

/-- The next alternative comes later if there are fewer left after it. -/
theorem nextAlternative_leads (h : R m m) (r : Request K) {as : List Alternative}
    (fewer : ∀ rest : List Alternative, rest.length < as.length → ∀ step : ℕ,
      toLex (0, toLex (rest.length, step)) < p.height (m.arityAt id)) :
    (nextAlternative env id r as).Leads R m fun next m' => ∀ t ∈ next, m'.Follows id p t := by
  cases as with
  | nil => exact .pure h (by simp)
  | cons a rest =>
    refine .get_bind (.lift_bind h fun cost _ => .lift_bind h fun e _ => ?_)
    split
    · exact .pure h
        (List.forall_mem_singleton.2 (.later r (fewer rest (Nat.lt_succ_self _) _)))
    · exact .pure h
        (List.forall_mem_singleton.2 (.later r (fewer rest (Nat.lt_succ_self _) _)))

section Records

variable (records : RecordRelation env R)
include records

/-- Putting enforcers on top takes steps that are recorded. -/
theorem enforce_leads (h : R m m) (required delivered : PhysicalProperty) (cost : K)
    {es : List Enforcer} (enforces : ∀ e ∈ es, e.operator.isEnforcer = true) :
    (enforce env group required delivered cost es).Leads R m fun _ _ => True := by
  have := records.toIsTrans
  induction es generalizing m delivered cost with
  | nil => exact .pure h trivial
  | cons e rest ih =>
    obtain ⟨first, others⟩ := List.forall_mem_cons.1 enforces
    refine (records.enforcer h first).bind fun ⟨place, isNew⟩ m' step _ => ?_
    have self : R m' m' := records.self step
    refine .get_bind (.lift_bind self fun g _ => .lift_bind self fun c _ => ?_)
    refine Leads.bind (.modify (records.offer self)) fun _ m'' step' _ => ?_
    cases rest with
    | nil =>
      exact Leads.bind (.modify (records.offer (records.self step')))
        fun _ m₃ step₃ _ => .pure (records.self step₃) trivial
    | cons e' rest => exact ih (records.self step') _ _ others

/-- Recording a winner takes steps that are recorded. -/
theorem recordWinner_leads (h : R m m) (required : PhysicalProperty) (a : Alternative)
    (cost : K) : (recordWinner env id required a cost).Leads R m fun _ _ => True := by
  have := records.toIsTrans
  refine Leads.bind (.modify (records.offer h)) fun _ m' step _ => ?_
  split
  · exact Leads.bind (.modify (records.offer (records.self step)))
      fun _ m'' step' _ => .pure (records.self step') trivial
  · exact enforce_leads records (records.self step) _ _ _
      fun e he => PhysicalProperty.isEnforcer_of_mem_enforcers he

/-- A step of the optimization of a physical expression leads to a related memo. -/
theorem optimizingInputs_leads (h : R m m) (r : Request K) (p : Progress K) :
    (optimizingInputs env id r p).Leads R m fun next m' => ∀ t ∈ next, m'.Follows id p t := by
  have := records.toIsTrans
  have shorter {rest others : List Alternative} (lt : others.length < rest.length)
    (step step' : ℕ) :
      (toLex (0, toLex (others.length, step)) : ℕ ×ₗ ℕ ×ₗ ℕ) <
        toLex (0, toLex (rest.length, step')) :=
    Prod.Lex.lt_iff.2 (.inr ⟨rfl, Prod.Lex.lt_iff.2 (.inl lt)⟩)
  have nearer (rest : List Alternative) {step step' : ℕ} (lt : step < step') :
      (toLex (0, toLex (rest.length, step)) : ℕ ×ₗ ℕ ×ₗ ℕ) <
        toLex (0, toLex (rest.length, step')) :=
    Prod.Lex.lt_iff.2 (.inr ⟨rfl, Prod.Lex.lt_iff.2 (.inr ⟨rfl, lt⟩)⟩)
  cases p with
  | start =>
    refine .get_bind (.lift_bind h fun e _ => ?_)
    split
    · exact .throw h _
    · exact .lift_bind h fun _ _ => .lift_bind h fun as _ => nextAlternative_leads h r
        fun _ _ _ => Prod.Lex.lt_iff.2 (.inl Nat.zero_lt_one)
  | before a rest input cost =>
    refine .get_bind (.lift_bind h fun e he => .lift_bind h fun goal hgoal => .pure h ?_)
    have mem := List.mem_of_getElem? (inputGoal_eq_ok.1 hgoal).1
    exact List.forall_mem_cons.2 ⟨.input (Memo.key?_of_expr he) mem _,
      List.forall_mem_singleton.2 (.later r (nearer rest (Nat.lt_succ_self _)))⟩
  | after a rest input cost =>
    refine .get_bind (.lift_bind h fun e he => .lift_bind h fun goal hgoal => ?_)
    have inside : input < m.arityAt id := by
      rw [Memo.arityAt, Memo.key?_of_expr he]
      exact (List.getElem?_eq_some_iff.1 (inputGoal_eq_ok.1 hgoal).1).1
    dsimp only
    split
    · exact nextAlternative_leads h r fun _ lt _ => shorter lt _ _
    · split
      · exact .pure h (List.forall_mem_singleton.2 (.later r (nearer rest (Nat.succ_pos _))))
      · exact .pure h (List.forall_mem_singleton.2 (.later r (nearer rest (by omega))))
  | complete a rest cost =>
    simp only [optimizingInputs]
    split
    · exact nextAlternative_leads h r fun _ lt _ => shorter lt _ _
    · refine (recordWinner_leads records h r.required a cost).bind fun total m' step _ => ?_
      split
      · exact nextAlternative_leads (records.self step) _ fun _ lt _ => shorter lt _ _
      · exact nextAlternative_leads (records.self step) r fun _ lt _ => shorter lt _ _

end Records

end Task

end QueryOptimizer
