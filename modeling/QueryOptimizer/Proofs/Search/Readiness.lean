import QueryOptimizer.Proofs.Search.Applying
import QueryOptimizer.Proofs.Search.Stepping

/-!
# Tasks that cannot fail

A task is ready when everything that it is about is in the memo: its group, or its expression,
which is logical or physical as the task requires. If it goes through alternatives, these have
a requirement for each input. A ready task fails only as the outside world does, and the tasks
that follow are ready. So it is with a search that begins with a ready task.

## Main results

* `Task.run_yieldsUnless_ready`: a ready task has a result, and only ready tasks follow, unless
  the outside world fails.
-/

namespace QueryOptimizer

variable {K : Type} {m m' : Memo K} {base : List LogicalOperator} {n : Nat}

/-- Whether the alternatives that an optimization goes through have a requirement for each of
so many inputs, one of which is up next. -/
def Progress.Fits (arity : Nat) : Progress K → Prop
  | start => True
  | before a rest input _ | after a rest input _ =>
    input < arity ∧ ∀ b ∈ a :: rest, b.requires.length = arity
  | complete _ rest _ => ∀ b ∈ rest, b.requires.length = arity

namespace Task

/-- Whether everything that a task is about is in the memo. -/
def Ready (m : Memo K) : Task K → Prop
  | optimizeGroup id _ | exploreGroup id => id < m.groups.size
  | optimizeExpr id _ | applyRule _ id _ => m.Logical (fun _ => True) id
  | optimizeInputs id _ p =>
    ∃ op ids, m.key? id = some ⟨.physical op, ids⟩ ∧ p.Fits op.arity

variable {t : Task K}

/-- A task that is ready stays so when the memo grows. -/
theorem Ready.extends (h : t.Ready m) (extended : m.Extends m') : t.Ready m' := by
  cases t with
  | optimizeGroup | exploreGroup => exact Nat.lt_of_lt_of_le h extended.size_le
  | optimizeExpr | applyRule => exact Memo.Logical.extends h extended
  | optimizeInputs =>
    obtain ⟨op, ids, hk, fits⟩ := h
    exact ⟨op, ids, extended.key _ _ hk, fits⟩

/-- A task for a new expression is ready. -/
theorem IsNew.ready {group : GroupId} (h : t.IsNew m m' group) : t.Ready m' := by
  cases h with
  | logical _ _ hk => exact ⟨_, _, hk, trivial⟩
  | physical _ _ hk => exact ⟨_, _, hk, trivial⟩

open Memo MemoM

variable [Quantity K] {env : Environment K} {id : ExprId} {r : Request K}

/-! ### Physical expressions -/

section Inputs

variable {op : PhysicalOperator} {ids : List GroupId}

/-- Going on to the next alternative cannot fail and leaves the memo alone. -/
theorem nextAlternative_yields (h : m.Ranked base n)
    (hk : m.key? id = some ⟨.physical op, ids⟩) {as : List Alternative}
    (fit : ∀ a ∈ as, a.requires.length = op.arity) :
    Yields m (nextAlternative env id r as) fun next m' => m' = m ∧ ∀ t ∈ next, t.Ready m := by
  cases as with
  | nil => exact .pure ⟨rfl, by simp⟩
  | cons a rest =>
    have length : ids.length = op.arity := h.saturated _ _ hk
    obtain ⟨cost, own⟩ := succeeds_operatorCost env hk (h.inputs hk) length
    refine ⟨_, m, exec_nextAlternative hk own a rest, rfl,
      List.forall_mem_singleton.2 ⟨op, ids, hk, ?_⟩⟩
    split
    · exact fun b hb => fit b (List.mem_cons_of_mem a hb)
    · rename_i occupied
      exact ⟨length ▸ List.length_pos_iff.2 (mt List.isEmpty_iff.2 occupied), fit⟩

omit [Quantity K] in
/-- An expression that has all its inputs has alternatives. -/
theorem exists_alternatives (h : m.Ranked base n) (hk : m.key? id = some ⟨.physical op, ids⟩)
    (required : PhysicalProperty) : ∃ outs as, m.columnSets ids = .ok outs ∧
      op.alternatives required outs = .ok as := by
  obtain ⟨rels, hrels⟩ := exists_relations (h.inputs hk)
  have same : (rels.map (·.property.output)).length = op.arity :=
    (List.length_map _).trans
      ((relations_eq_ok.1 hrels).length_eq.symm.trans (h.saturated _ _ hk))
  obtain ⟨as, listed⟩ := op.succeeds_alternatives same required
  exact ⟨_, as, OptResult.bind_eq_ok.2 ⟨rels, hrels, rfl⟩, listed⟩

omit [Quantity K] in
/-- The input that is up next, and what the current alternative requires of it. -/
theorem exists_inputGoal (h : m.Ranked base n) (hk : m.key? id = some ⟨.physical op, ids⟩)
    {a : Alternative} {rest : List Alternative} {input : Nat}
    (fits : input < op.arity ∧ ∀ b ∈ a :: rest, b.requires.length = op.arity) :
    ∃ i p, ids[input]? = some i ∧ a.requires[input]? = some p ∧ i < m.groups.size := by
  have here : input < ids.length := (h.saturated _ _ hk).symm ▸ fits.1
  have there : input < a.requires.length := fits.2 a (by simp) ▸ fits.1
  exact ⟨ids[input], a.requires[input], List.getElem?_eq_getElem here,
    List.getElem?_eq_getElem there, h.inputs hk _ (List.getElem_mem here)⟩

/-- A step of the optimization of a physical expression does not fail. -/
theorem optimizingInputs_yields (h : m.Ranked base n) {p : Progress K}
    (ready : (optimizeInputs id r p).Ready m) :
    Yields m (optimizingInputs env id r p) fun next m' => ∀ t ∈ next, t.Ready m' := by
  obtain ⟨op, ids, hk, fits⟩ := ready
  have length : ids.length = op.arity := h.saturated _ _ hk
  have along {as : List Alternative} (fit : ∀ a ∈ as, a.requires.length = op.arity)
    {r : Request K} :
      Yields m (nextAlternative env id r as) fun next m' => ∀ t ∈ next, t.Ready m' :=
    (nextAlternative_yields h hk fit).mono fun next m' done => done.1 ▸ done.2
  cases p with
  | start =>
    obtain ⟨outs, as, houts, listed⟩ := exists_alternatives h hk r.required
    obtain ⟨next, m', run, ready⟩ :=
      along fun a ha => PhysicalOperator.length_requires listed ha
    exact ⟨next, m', (exec_start hk houts listed).trans run, ready⟩
  | before a rest input cost =>
    obtain ⟨i, p, hi, hp, there⟩ := exists_inputGoal h hk fits
    exact ⟨_, m, exec_before hk hi hp, List.forall_mem_cons.2 ⟨there,
      List.forall_mem_singleton.2 ⟨op, ids, hk, fits⟩⟩⟩
  | after a rest input cost =>
    obtain ⟨i, p, hi, hp, there⟩ := exists_inputGoal h hk fits
    have others : ∀ b ∈ rest, b.requires.length = op.arity :=
      fun b hb => fits.2 b (List.mem_cons_of_mem a hb)
    cases won : m.winner? i p with
    | none =>
      obtain ⟨next, m', run, ready⟩ := along others (r := r)
      exact ⟨next, m', (exec_after_none hk hi hp won).trans run, ready⟩
    | some w =>
      refine ⟨_, m, exec_after_some hk hi hp won,
        List.forall_mem_singleton.2 ⟨op, ids, hk, ?_⟩⟩
      split
      · exact others
      · rename_i notLast
        exact ⟨by have := fits.1; omega, fits.2⟩
  | complete a rest cost =>
    simp only [optimizingInputs]
    split
    · exact along fits
    · refine ((recordWinner_yields h.toFiled hk r.required a cost).of_leads
        (recordWinner_leads (stepRelation_staysRanked base n).records
          ⟨.refl m, h⟩ r.required a cost)).bind fun total m' done => ?_
      obtain ⟨-, stays, -⟩ := done
      have later {r : Request K} :
          Yields m' (nextAlternative env id r rest) fun next m'' => ∀ t ∈ next, t.Ready m'' :=
        (nextAlternative_yields stays.ranked (stays.extended.key _ _ hk) fits).mono
          fun next m'' done => done.1 ▸ done.2
      split
      · exact later
      · exact later

end Inputs

/-! ### All tasks -/

/-- A ready task fails only as the outside world does, and only ready tasks follow. -/
theorem run_yieldsUnless_ready {excused : OptError → Prop}
    (answers : env.AnswersUnless excused)
    (operations : ∀ s ∈ base.flatMap LogicalOperator.operations, s.inputs ≠ [])
    (h : m.Ranked base n) (rules : RuleSet) (ready : t.Ready m) :
    YieldsUnless excused m (t.run env rules) fun next m' => ∀ t ∈ next, t.Ready m' := by
  -- The logical expressions of a group.
  have logical {group : GroupId} {g : Group K} (hg : m.group group = .ok g) :
      ∀ place ∈ (g.logicalPlaces group).reverse, m.Logical (fun _ => True) place := by
    intro place hplace
    obtain ⟨-, ⟨op, ids⟩, hk, logical⟩ := (mem_placesOf hg).1 (List.mem_reverse.1 hplace)
    cases op with
    | logical op => exact ⟨op, ids, hk, trivial⟩
    | physical op => cases logical
  cases t with
  | optimizeGroup group r =>
    refine .get_bind
      (.lift_bind (OptResult.Succeeds.unless (exists_group ready)) fun g hg => ?_)
    split
    · exact .pure (by simp)
    · refine .pure fun t mem => ?_
      rcases List.mem_append.1 mem with mem | mem
      · obtain ⟨place, hplace, rfl⟩ := List.mem_map.1 mem
        obtain ⟨-, ⟨op, ids⟩, hk, physical⟩ := (mem_placesOf hg).1 (List.mem_reverse.1 hplace)
        cases op with
        | logical op => cases physical
        | physical op => exact ⟨op, ids, hk, trivial⟩
      · obtain ⟨place, hplace, rfl⟩ := List.mem_map.1 mem
        exact logical hg place hplace
  | exploreGroup group =>
    refine .get_bind
      (.lift_bind (OptResult.Succeeds.unless (exists_group ready)) fun g hg => ?_)
    split
    · exact .pure (by simp)
    · refine .modify_bind (.pure fun t mem => ?_)
      obtain ⟨place, hplace, rfl⟩ := List.mem_map.1 mem
      have like : m.Like (m.modifyGroup group ({ · with explored := true })) :=
        .modifyGroup m group (fun _ => rfl) (fun _ => rfl) fun _ _ => rfl
      exact (logical hg place hplace).extends (.ofLike like)
  | optimizeExpr id r? =>
    obtain ⟨op, ids, hk, -⟩ := ready
    obtain ⟨e, he, same⟩ := exists_expr_of_key? hk
    have kind : e.operator = .logical op := congrArg ExprKey.operator same
    refine .get_bind (.lift_bind (OptResult.Succeeds.unless ⟨e, he⟩) fun e' he' => ?_)
    obtain rfl := Except.ok.inj (he.symm.trans he')
    rw [kind]
    refine .pure fun t mem => ?_
    rcases List.mem_append.1 mem with mem | mem
    · obtain ⟨i, hi, rfl⟩ := List.mem_map.1 mem
      exact h.inputs (key?_of_expr he) i (List.mem_reverse.1 hi)
    · obtain ⟨rule, -, rfl⟩ := List.mem_map.1 mem
      exact ⟨op, ids, hk, trivial⟩
  | applyRule rule id r? =>
    obtain ⟨op, ids, hk, -⟩ := ready
    refine (applyingRule_yieldsUnless answers operations h hk rule r?).mono
      fun next m' done => ?_
    rcases done with ⟨-, -, rfl⟩ | ⟨-, -, new⟩
    · simp
    · exact fun t ht => (new t ht).ready
  | optimizeInputs id r p => exact .inl (optimizingInputs_yields h ready)

/-- If the outside world does not fail, a ready task does not fail. -/
theorem run_yields_ready (answers : env.catalog.Answers) (going : env.isCancelled = false)
    (operations : ∀ s ∈ base.flatMap LogicalOperator.operations, s.inputs ≠ [])
    (h : m.Ranked base n) (rules : RuleSet) (ready : t.Ready m) :
    Yields m (t.run env rules) fun next m' => ∀ t ∈ next, t.Ready m' :=
  (run_yieldsUnless_ready (Environment.answersUnless answers going) operations h
    rules ready).yields

end Task

end QueryOptimizer
