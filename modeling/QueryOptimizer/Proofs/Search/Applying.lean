import QueryOptimizer.Proofs.Memo.Entering
import QueryOptimizer.Proofs.Search.Height

/-!
# Applying a rule

A rule is applied to all bindings at an expression that it has not been applied to, and the
expression is marked. This cannot fail unless the outside world does. Only logical
expressions are added to the memo, apart from one: an implementation rule puts its operator
in place of the logical one, in the same group and over the same inputs. What is new in the
group is optimized in turn.

## Main results

* `Task.applyingRule_yieldsUnless`: what applying a rule does to the memo, and
  which tasks follow.
-/

namespace QueryOptimizer

variable {K : Type} {m m' m'' : Memo K} {base : List LogicalOperator} {n : Nat}

/-- A physical operator that a rule makes has the inputs of the expression. -/
theorem RuleId.Rewrites.eq_groups {r : RuleId} {k : ExprKey} {op : PhysicalOperator}
    {ts : List ExprTree} (rewrites : r.Rewrites m k (.operator (.physical op) ts)) :
    r.implementation? k.operator = some op ∧ ts = k.inputs.map .group := by
  generalize made : ExprTree.operator (.physical op) ts = t at rewrites
  cases rewrites with
  | implement implements =>
    cases made
    exact ⟨implements, rfl⟩
  | _ => cases made

/-! ### What is added -/

namespace Memo

/-- A memo that a rule has added to for an expression with the key `source` in a group. -/
structure Enters (base : List LogicalOperator) (n : Nat) (rule : RuleId) (group : GroupId)
    (source : ExprKey) (m m' : Memo K) : Prop where
  extended : m.Extends m'
  ranked : m'.Ranked base n
  marks : ∀ place, m'.marks place = m.marks place
  fresh : ∀ {place k}, m'.key? place = some k → m.key? place = none →
    k.operator.isLogical = true ∨ place.group = group ∧
      ∃ op, rule.implementation? source.operator = some op ∧ k = ⟨.physical op, source.inputs⟩

variable {rule : RuleId} {group : GroupId} {source : ExprKey}

/-- A ranked memo has been entered into with nothing. -/
theorem Enters.refl (h : m.Ranked base n) : Enters base n rule group source m m :=
  ⟨.refl m, h, fun _ => rfl, fun hk new => by rw [hk] at new; cases new⟩

instance : IsTrans (Memo K) (Enters base n rule group source) where
  trans m m' m'' h h' := by
    refine ⟨h.extended.trans h'.extended, h'.ranked, fun place =>
      (h'.marks place).trans (h.marks place), fun {place k} hk new => ?_⟩
    cases known : m'.key? place with
    | none => exact h'.fresh hk known
    | some k' =>
      obtain rfl := Option.some.inj ((h'.extended.key _ _ known).symm.trans hk)
      exact h.fresh known new

/-- When the expression is marked as well, these are all marks. -/
theorem Enters.mem_marks (h : Enters base n rule group source m m') {id place : ExprId}
    {k : ExprKey} (hk : m.key? id = some k) {rule' : RuleId} :
    rule' ∈ (m'.modifyExpr id fun e => { e with applied := ⟨rule :: e.applied.ids⟩ }).marks
      place ↔
      rule' ∈ m.marks place ∨ place = id ∧ rule' = rule := by
  obtain ⟨e, he, -⟩ := exists_expr_of_key? (h.extended.key _ _ hk)
  rw [marks_mark he rule, h.marks, h.marks]
  by_cases here : place = id
  · subst here
    simp [or_comm]
  · simp [here]

end Memo

namespace Task

/-- Whether a task optimizes an expression that is new in a group, from the beginning. -/
inductive IsNew (m m' : Memo K) (group : GroupId) : Task K → Prop
  | logical {place : ExprId} {op : LogicalOperator} {ids : List GroupId}
      (here : place.group = group) (new : m.key? place = none)
      (hk : m'.key? place = some ⟨.logical op, ids⟩) (r? : Option (Request K)) :
      IsNew m m' group (.optimizeExpr place r?)
  | physical {place : ExprId} {op : PhysicalOperator} {ids : List GroupId}
      (here : place.group = group) (new : m.key? place = none)
      (hk : m'.key? place = some ⟨.physical op, ids⟩) (plain : op.isEnforcer = false)
      (r : Request K) :
      IsNew m m' group (.optimizeInputs place r .start)

variable {group : GroupId} {t : Task K}

/-- A task for a new expression is one when the memo has grown. -/
theorem IsNew.later (h : t.IsNew m m' group) (extended : m'.Extends m'') :
    t.IsNew m m'' group := by
  cases h with
  | logical here new hk r? => exact .logical here new (extended.key _ _ hk) r?
  | physical here new hk plain r => exact .physical here new (extended.key _ _ hk) plain r

/-- A task for an expression that is new to a memo is for one that is new
to an earlier memo. -/
theorem IsNew.earlier (h : t.IsNew m' m'' group) (extended : m.Extends m') :
    t.IsNew m m'' group := by
  have before {place : ExprId} (new : m'.key? place = none) : m.key? place = none := by
    cases known : m.key? place with
    | none => rfl
    | some k =>
      rw [extended.key _ _ known] at new
      cases new
  cases h with
  | logical here new hk r? => exact .logical here (before new) hk r?
  | physical here new hk plain r => exact .physical here (before new) hk plain r

open Memo MemoM

/-- An expression that is new in a group is optimized. -/
theorem followUp_yields {place : ExprId} {op : Operator} {ids : List GroupId}
    (here : place.group = group) (new : m.key? place = none)
    (hk : m'.key? place = some ⟨op, ids⟩) (plain : op.isEnforcer = false)
    (r? : Option (Request K)) :
    Yields m' (followUp place r?) fun ts m'' => m'' = m' ∧ ∀ t ∈ ts, t.IsNew m m' group := by
  obtain ⟨e, he, same⟩ := exists_expr_of_key? hk
  have kind : e.operator = op := congrArg ExprKey.operator same
  refine .get_bind (.lift_bind ⟨e, he⟩ fun e' he' => ?_)
  obtain rfl := Except.ok.inj (he.symm.trans he')
  rw [kind]
  cases op with
  | logical op => exact .pure ⟨rfl, List.forall_mem_singleton.2 (.logical here new hk r?)⟩
  | physical op =>
    cases r? with
    | none => exact .pure ⟨rfl, by simp⟩
    | some r => exact .pure ⟨rfl, List.forall_mem_singleton.2 (.physical here new hk plain r)⟩

section Rules

variable [Quantity K] {env : Environment K}

section Excused

variable {excused : OptError → Prop} (answers : env.AnswersUnless excused)
  (operations : ∀ s ∈ base.flatMap LogicalOperator.operations, s.inputs ≠ [])
include answers operations

/-- A rule is applied to a binding at an expression. -/
theorem applyTo_yieldsUnless (h : m.Ranked base n) {rule : RuleId} {id : ExprId}
    {source : ExprKey} (hk : m.key? id = some source) {t : ExprTree}
    (root : t = .group id.group ∨ ∃ ts, t = .expr id ts) (binds : m.Binds rule.pattern t)
    (r? : Option (Request K)) :
    YieldsUnless excused m (applyTo env rule id r? t) fun next m' =>
      Enters base n rule id.group source m m' ∧ ∀ t ∈ next, t.IsNew m m' id.group := by
  refine .get_bind (.lift_bind (RuleId.succeeds_apply h binds).unless fun made hmade => ?_)
  cases made with
  | none => exact .pure ⟨.refl h, by simp⟩
  | some made =>
    obtain ⟨place, ts, k, rfl, known, rewrites⟩ := RuleId.rewrites_of_apply binds hmade
    obtain rfl : place = id := by
      rcases root with same | ⟨_, same⟩ <;> cases same
      rfl
    obtain rfl := Option.some.inj (hk.symm.trans known)
    obtain ⟨op, parts, rfl, derivable⟩ := rewrites.derivable h operations known
    have leads : (Memo.insertTree env (.operator op parts) (some place.group)).Leads
        (Grafts base n (m.ceiling rule source)) m fun _ _ => True :=
          h.insertRewriting known rewrites
    refine ((h.toCoherent.insertTree_yieldsUnless answers op derivable
      (lt_of_key? hk)).of_leads leads).bind fun r m₂
        ⟨⟨ids, m₁, inputs, widens, entered⟩, grafts, _⟩ => ?_
    obtain ⟨new, isNew⟩ := r
    -- The root is the only expression that may be physical.
    have added : (m₂ = m₁ ∧ isNew = false) ∨
        (isNew = true ∧ new.group = place.group ∧ m₁.key? new = none ∧
          ∀ i, m₂.key? i = if i = new then some ⟨op, ids⟩ else m₁.key? i) := by
      rw [exec_insertKey_some] at entered
      split at entered
      · cases entered
        exact .inl ⟨rfl, rfl⟩
      · split at entered
        · rename_i added
          cases entered
          exact .inr
            ⟨rfl, group_of_addExpr added, key?_place_of_addExpr added, key?_addExpr added⟩
        · cases entered
    have enters : Enters base n rule place.group source m m₂ := by
      refine ⟨grafts.extended, grafts.ranked, grafts.marks, fun {i k} hk notThere => ?_⟩
      by_cases old : m₁.key? i = some k
      · exact .inl (widens.logical old notThere)
      · rcases added with ⟨rfl, -⟩ | ⟨-, here, -, keys⟩
        · exact absurd hk old
        · rw [keys] at hk
          split at hk
          · rename_i same
            obtain rfl := Option.some.inj hk
            cases op with
            | logical op => exact .inl rfl
            | physical op =>
              obtain ⟨implements, rfl⟩ := rewrites.eq_groups
              rw [Ranked.exec_insertInputs_groups] at inputs
              cases inputs
              exact .inr ⟨same ▸ here, op, implements, rfl⟩
          · exact absurd hk old
    have plain : op.isEnforcer = false := RuleId.isEnforcer_of_apply binds hmade
    dsimp only
    rcases added with ⟨-, rfl⟩ | ⟨rfl, here, notThere, keys⟩
    · exact .pure ⟨enters, by simp⟩
    · have stored : m₂.key? new = some ⟨op, ids⟩ := by rw [keys, if_pos rfl]
      refine .inl
        ((followUp_yields here notThere stored plain r?).mono fun next _ ⟨same, follow⟩ => ?_)
      subst same
      exact ⟨enters, fun t ht => (follow t ht).earlier widens.extended⟩

/-- Applying a rule for the first time adds what the rule makes and marks the expression. After
that nothing happens. -/
theorem applyingRule_yieldsUnless (h : m.Ranked base n) {id : ExprId} {source : ExprKey}
    (hk : m.key? id = some source) (rule : RuleId) (r? : Option (Request K)) :
    YieldsUnless excused m (applyingRule env rule id r?) fun next m' =>
      (rule ∈ m.marks id ∧ m' = m ∧ next = []) ∨
      (rule ∉ m.marks id ∧ (∃ m₁, Enters base n rule id.group source m m₁ ∧
        m' = m₁.modifyExpr id fun e => { e with applied := ⟨rule :: e.applied.ids⟩ }) ∧
        ∀ t ∈ next, t.IsNew m m' id.group) := by
  obtain ⟨e, he, rfl⟩ := exists_expr_of_key? hk
  refine .get_bind (.lift_bind (OptResult.Succeeds.unless ⟨e, he⟩) fun e' he' => ?_)
  obtain rfl := Except.ok.inj (he.symm.trans he')
  rw [marks_of_expr he]
  split
  · rename_i applied
    exact .pure (.inl ⟨applied, rfl, rfl⟩)
  · rename_i unmarked
    have each : YieldsUnless excused m
      ((m.bindings rule.pattern id).mapM (applyTo env rule id r?)) fun tasks m₁ =>
        Enters base n rule id.group e.toExprKey m m₁ ∧
          List.Forall₂ (fun _ next => ∀ t ∈ next, t.IsNew m m₁ id.group)
            (m.bindings rule.pattern id) tasks := by
      refine .mapM (.refl h) (fun _ _ _ _ enters old t ht => (old t ht).later enters.extended)
        (fun _ enters => .refl enters.ranked) fun t ht m₁ enters => ?_
      obtain ⟨-, binds⟩ := binds_of_mem_bindings he ht
      refine (applyTo_yieldsUnless answers operations enters.ranked
        (enters.extended.key _ _ hk) (eq_expr_of_mem_bindings ht)
        (binds.extends enters.extended) r?).mono
          fun next m₂ ⟨enters', follow⟩ =>
            ⟨enters', fun t ht => (follow t ht).earlier enters.extended⟩
    refine each.bind fun tasks m₁ ⟨enters, follow⟩ => .modify_bind (.pure (.inr ⟨unmarked,
      ⟨m₁, enters, rfl⟩, fun t ht => ?_⟩))
    obtain ⟨next, hnext, ht⟩ := List.mem_flatten.1 (List.mem_reverse.1 ht)
    obtain ⟨_, -, new⟩ := exists_of_mem_right follow hnext
    exact (new t ht).later (.ofLike (.modifyExpr m₁ id fun _ => rfl))

end Excused

/-- If the outside world does not fail, applying a rule cannot fail. -/
theorem applyingRule_yields (answers : env.catalog.Answers) (going : env.isCancelled = false)
    (operations : ∀ s ∈ base.flatMap LogicalOperator.operations, s.inputs ≠ [])
    (h : m.Ranked base n) {id : ExprId} {source : ExprKey} (hk : m.key? id = some source)
    (rule : RuleId) (r? : Option (Request K)) :
    Yields m (applyingRule env rule id r?) fun next m' =>
      (rule ∈ m.marks id ∧ m' = m ∧ next = []) ∨
      (rule ∉ m.marks id ∧ (∃ m₁, Enters base n rule id.group source m m₁ ∧
        m' = m₁.modifyExpr id fun e => { e with applied := ⟨rule :: e.applied.ids⟩ }) ∧
        ∀ t ∈ next, t.IsNew m m' id.group) :=
  (applyingRule_yieldsUnless (Environment.answersUnless answers going) operations h
    hk rule r?).yields

end Rules

end Task

end QueryOptimizer
