import QueryOptimizer.Proofs.Search.Measure
import QueryOptimizer.Proofs.Search.Recording

/-!
# Tasks lead to smaller tasks

A task that is done either leaves less work on the memo, because a rule has been applied,
or it settles for what rules have made: it records winners and enforcers only
(`Memo.Settled`). In the second case the tasks that follow are smaller than the task
itself. They are about groups that rank lower, or they come later in the sequence of tasks
about the same group (`Task.height`).

Optimizing an enforcer optimizes its own group, so this is the first task in the
sequence. It is followed by none that optimizes an enforcer, since groups go through
their other expressions only.

## Main results

* `Task.declines_or_settled`: what a task does to the memo, and how it compares
  to those that follow.
-/

namespace QueryOptimizer

variable {K : Type} {m m' m'' : Memo K} {base : List LogicalOperator} {n : Nat}

/-! ### Settled memos -/

namespace Memo

/-- A memo with the same expressions apart from enforcers, and with the same
rules left to apply. -/
structure Settled (m m' : Memo K) : Prop where
  extended : m.Extends m'
  size : m'.groups.size = m.groups.size
  enforcers : ∀ {place k}, m'.key? place = some k → m.key? place = none →
    k.operator.isEnforcer = true ∧ k.inputs = [place.group]
  pending : ∀ p, m'.Pending p ↔ m.Pending p

namespace Settled

/-- A memo has settled as itself. -/
theorem refl (m : Memo K) : m.Settled m :=
  ⟨.refl m, rfl, fun hk new => (by rw [hk] at new; cases new), fun _ => .rfl⟩

instance : IsTrans (Memo K) Settled where
  trans m m' m'' h h' := by
    refine ⟨h.extended.trans h'.extended, h'.size.trans h.size, fun {place k} hk new => ?_,
      fun p => (h'.pending p).trans (h.pending p)⟩
    cases known : m'.key? place with
    | none => exact h'.enforcers hk known
    | some k' =>
      obtain rfl := Option.some.inj ((h'.extended.key _ _ known).symm.trans hk)
      exact h.enforcers known new

/-- A memo that has settled has the logical expressions that it had. -/
theorem logical_iff (h : m.Settled m') {P : LogicalOperator → Prop} {place : ExprId} :
    m'.Logical P place ↔ m.Logical P place := by
  refine ⟨fun logical => (logical.cases h.extended).resolve_right fun new => ?_,
    fun logical => logical.extends h.extended⟩
  obtain ⟨op, ids, hk, -⟩ := logical
  cases (h.enforcers hk new).1

/-- The marks of logical expressions are all that matters about marks. -/
theorem ofMarks (extended : m.Extends m') (size : m'.groups.size = m.groups.size)
    (enforcers : ∀ {place k}, m'.key? place = some k → m.key? place = none →
      k.operator.isEnforcer = true ∧ k.inputs = [place.group])
    (marks : ∀ place, m.Logical (fun _ => True) place → m'.marks place = m.marks place) :
    m.Settled m' := by
  refine ⟨extended, size, enforcers, fun p =>
    ⟨fun ⟨logical, left⟩ => ?_, fun ⟨logical, left⟩ => ?_⟩⟩
  · have logical : m.Logical (fun _ => True) p.1 := by
      refine (logical.cases extended).resolve_right fun new => ?_
      obtain ⟨op, ids, hk, -⟩ := logical
      cases (enforcers hk new).1
    exact ⟨logical, marks _ logical ▸ left⟩
  · exact ⟨logical.extends extended, (marks _ logical).symm ▸ left⟩

/-- Bookkeeping that marks no logical expression settles. -/
theorem ofLike (like : m.Like m')
    (marks : ∀ place, m.Logical (fun _ => True) place → m'.marks place = m.marks place) :
    m.Settled m' :=
  .ofMarks (.ofLike like) like.size (fun hk new => by rw [like.key, new] at hk; cases hk) marks

/-- The work on a settled memo is the same. -/
theorem work_eq (h : m.Settled m') (ranked : m.Ranked base n) :
    m'.work base n = m.work base n := by
  have limits : m'.limits = m.limits := by
    ext place
    rw [mem_limits, mem_limits, h.logical_iff]
  have plain : m'.plain = m.plain := by
    ext place
    rw [mem_plain, mem_plain, h.logical_iff]
  have pending : m'.pending = m.pending := by
    ext p
    rw [mem_pending, mem_pending, h.pending]
  have limitWork : m'.limitWork = m.limitWork := by
    rw [Memo.limitWork, Memo.limitWork, pending, limits]
  have burden : m'.burden = m.burden := by
    rw [Memo.burden, Memo.burden, limitWork]
    refine Multiset.map_congr rfl fun p mem => ?_
    obtain ⟨⟨⟨op, ids, hk, -⟩, -⟩, -⟩ := mem_limitWork.1 (Finset.mem_def.2 mem)
    rw [ceilingAt, ceilingAt, hk, h.extended.key _ _ hk]
    exact ranked.ceiling_extends h.extended hk p.2
  rw [work, work, burden, room, room, limits, plain, pending]

/-- Groups of a settled memo have the same rank. -/
theorem rank_eq (h : m.Settled m') (ranked : m.Ranked base n) (id : GroupId) :
    m'.rank id = m.rank id := by
  by_cases inside : id < m.groups.size
  · exact ranked.rank_extends h.extended inside
  · have outside := Nat.le_of_not_lt inside
    rw [rank_of_size_le outside, rank_of_size_le (h.size.symm ▸ outside)]

/-- Expressions of a memo that has settled have as many inputs as before. -/
theorem arityAt_eq (h : m.Settled m') (id : ExprId) : m'.arityAt id = m.arityAt id := by
  unfold arityAt
  cases known : m.key? id with
  | some k => rw [h.extended.key _ _ known]
  | none =>
    cases known' : m'.key? id with
    | none => rfl
    | some k => exact congrArg List.length (h.enforcers known' known).2

end Settled

/-- Winners and enforcers leave a memo settled. -/
theorem recordRelation_settled [Quantity K] {env : Environment K} :
    RecordRelation env (Settled (K := K)) where
  trans _ _ _ := trans_of Settled
  self _ := .refl _
  offer {m id p d} _ := .ofLike (.offer m id p d) fun place _ => marks_offer m id p d place
  enforcer {m op group} _ enforces := by
    refine ⟨?_, fun _ _ => trivial⟩
    rw [exec_insertKey_some]
    cases m.index[(⟨.physical op, [group]⟩ : ExprKey)]? with
    | some place => exact .refl m
    | none =>
      cases added : m.addExpr group ⟨.physical op, [group]⟩ with
      | error e => exact .refl m
      | ok r =>
        obtain ⟨m', place⟩ := r
        refine .ofMarks (.addExpr added) (size_addExpr added) (fun {i k} hk new => ?_)
          fun i _ => marks_addExpr added i
        rw [key?_addExpr added, new] at hk
        split at hk
        · rename_i here
          obtain rfl := Option.some.inj hk
          rw [here, group_of_addExpr added]
          exact ⟨enforces, rfl⟩
        · cases hk

end Memo

/-! ### Heights -/

/-- Whether the expression at a place is known to be no enforcer. -/
def Memo.isPlain (m : Memo K) (id : ExprId) : Bool :=
  (m.key? id).any (!·.operator.isEnforcer)

namespace Task

/-- The group that a task is about. -/
def group : Task K → GroupId
  | optimizeGroup id _ | exploreGroup id => id
  | optimizeExpr id _ | applyRule _ id _ | optimizeInputs id _ _ => id.group

/-- The place of a task in the sequence of the tasks about a group, counted from the end. -/
def order (m : Memo K) : Task K → ℕ
  | applyRule .. => 0
  | optimizeExpr .. => 1
  | optimizeInputs id .. => if m.isPlain id then 1 else 3
  | optimizeGroup .. | exploreGroup .. => 2

/-- How far the task to optimize a physical expression has come. -/
def remaining (m : Memo K) : Task K → ℕ ×ₗ ℕ ×ₗ ℕ
  | optimizeInputs id _ p => p.height (m.arityAt id)
  | _ => toLex (0, toLex (0, 0))

/-- Each task that follows on a settled memo is lower than the task itself. -/
def height (m : Memo K) (t : Task K) : (ℕ ×ₗ ℕ) ×ₗ ℕ ×ₗ ℕ ×ₗ ℕ ×ₗ ℕ :=
  toLex (m.rank t.group, toLex (t.order m, t.remaining m))

variable {t t' : Task K}

/-- A task for a group of a lower rank is lower. -/
theorem height_lt_of_rank (lt : m.rank t.group < m.rank t'.group) : t.height m < t'.height m :=
  Prod.Lex.lt_iff.2 (.inl lt)

/-- Of two tasks for one group the one that comes later in the order is lower. -/
theorem height_lt_of_order (same : t.group = t'.group) (lt : t.order m < t'.order m) :
    t.height m < t'.height m :=
  Prod.Lex.lt_iff.2 (.inr ⟨congrArg m.rank same, Prod.Lex.lt_iff.2 (.inl lt)⟩)

/-- A settled memo gives the same heights. -/
theorem height_settled (settled : m.Settled m') (ranked : m.Ranked base n) (t : Task K) :
    t.height m' = t.height m := by
  have plain (id : ExprId) : m'.isPlain id = m.isPlain id := by
    unfold Memo.isPlain
    cases known : m.key? id with
    | some k => rw [settled.extended.key _ _ known]
    | none =>
      cases known' : m'.key? id with
      | none => rfl
      | some k => simp [(settled.enforcers known' known).1]
  unfold height
  rw [settled.rank_eq ranked]
  cases t with
  | optimizeInputs id r p =>
    simp only [order, remaining, plain, settled.arityAt_eq]
  | _ => rfl

/-- What follows a step of the optimization of a physical expression is lower. -/
theorem height_lt_of_follows (ranked : m.Ranked base n) {id : ExprId} {p : Progress K}
    (follows : m.Follows id p t) (r : Request K) :
    t.height m < (optimizeInputs id r p).height m := by
  cases follows with
  | @input k i known mem r' =>
    cases enforces : k.operator.isEnforcer with
    | false => exact height_lt_of_rank (ranked.descends known enforces i mem)
    | true =>
      rw [ranked.enforcer known enforces, List.mem_singleton] at mem
      have notPlain : m.isPlain id = false := by simp [Memo.isPlain, known, enforces]
      refine height_lt_of_order mem ?_
      simp [order, notPlain]
  | later r' lt => exact Prod.Lex.lt_iff.2 (.inr ⟨rfl, Prod.Lex.lt_iff.2 (.inr ⟨rfl, lt⟩)⟩)

/-! ### Rules -/

section Search

variable [Quantity K] {env : Environment K} {id : ExprId} {rule : RuleId}
  {r? : Option (Request K)}
  {e : Expr K}

/-- What a rule makes of the bindings at an expression fits into the memo. -/
theorem applyTo_bindings_leads (env : Environment K) (h : m.Ranked base n)
    (he : m.expr id = .ok e) (rule : RuleId) (r? : Option (Request K)) :
    ((m.bindings rule.pattern id).mapM (applyTo env rule id r?)).Leads
      (Memo.Grafts base n (m.ceilingAt (id, rule))) m
      fun tasks _ => List.Forall₂ (fun _ _ => True) (m.bindings rule.pattern id) tasks := by
  refine .mapM (.refl h) (fun _ grafts => .refl grafts.ranked) (fun _ _ _ _ _ _ => trivial)
    fun t ht m' grafts => ?_
  have self : Memo.Grafts base n (m.ceilingAt (id, rule)) m' m' := .refl grafts.ranked
  refine .get_bind (.lift_bind self fun made hmade => ?_)
  cases made with
  | none => exact .pure self trivial
  | some made =>
    obtain ⟨root, binds⟩ := Memo.binds_of_mem_bindings he ht
    obtain ⟨place, ts, k, rfl, known, rewrites⟩ :=
      RuleId.rewrites_of_apply (binds.extends grafts.extended) hmade
    obtain rfl : place = id := by
      rcases Memo.eq_expr_of_mem_bindings ht with same | ⟨_, same⟩ <;> cases same
      rfl
    have ceiling : m'.ceiling rule k = m.ceilingAt (place, rule) := by
      have before := Memo.key?_of_expr he
      obtain rfl := Option.some.inj ((grafts.extended.key _ _ before).symm.trans known)
      rw [h.ceiling_extends grafts.extended before, Memo.ceilingAt, before]
      rfl
    refine (ceiling ▸ grafts.ranked.insertRewriting known rewrites).bind
      fun entered m'' step _ => ?_
    obtain ⟨place', isNew⟩ := entered
    dsimp only
    split
    · exact followUp_leads_steps (.refl step.ranked) r?
    · exact .pure (.refl step.ranked) trivial

/-- Rules make nothing of physical expressions. -/
theorem applyTo_physical {op : PhysicalOperator} (he : m.expr id = .ok e)
    (physical : e.operator = .physical op) {t : ExprTree}
    (ht : t ∈ m.bindings rule.pattern id) :
    (applyTo env rule id r? t).Leads (· = ·) m fun tasks _ => tasks = [] := by
  refine .get_bind (.lift_bind rfl fun made hmade => ?_)
  cases made with
  | none => exact .pure rfl rfl
  | some made =>
    obtain ⟨root, binds⟩ := Memo.binds_of_mem_bindings he ht
    obtain ⟨place, ts, ⟨op', ids⟩, rfl, known, rewrites⟩ :=
      RuleId.rewrites_of_apply binds hmade
    obtain rfl : place = id := by
      rcases Memo.eq_expr_of_mem_bindings ht with same | ⟨_, same⟩ <;> cases same
      rfl
    have same : e.toExprKey = ⟨op', ids⟩ :=
      Option.some.inj ((Memo.key?_of_expr he).symm.trans known)
    obtain rfl : op' = .physical op := (congrArg ExprKey.operator same).symm.trans physical
    cases rewrites

/-- Applying a rule leaves less work, or else nothing follows. -/
theorem declines_or_settled_of_applyRule (h : m.Ranked base n) {rules : RuleSet}
    {next : List (Task K)}
    (run : ((applyRule rule id r?).run env rules).exec m = (.ok next, m')) :
    Memo.Declines base n m m' ∨ m.Settled m' ∧ next = [] := by
  simp only [Task.run, applyingRule, MemoM.exec_bind, MemoM.exec_get, MemoM.exec_lift] at run
  rcases he : m.expr id with err | e
  · rw [he] at run
    cases run
  rw [he] at run
  dsimp only at run
  split at run
  · cases run
    exact .inr ⟨.refl m, rfl⟩
  rename_i unmarked
  rcases mapped : ((m.bindings rule.pattern id).mapM (applyTo env rule id r?)).exec m with
    ⟨err | tasks, m₁⟩
  · simp only [MemoM.exec_bind, mapped] at run
    cases run
  simp only [MemoM.exec_bind, mapped, MemoM.exec_modify, MemoM.exec_pure] at run
  cases run
  cases kind : e.operator with
  | logical op =>
    obtain ⟨grafts, -⟩ := applyTo_bindings_leads env h he rule r?
    rw [mapped] at grafts
    obtain ⟨e₁, he₁, -⟩ :=
      Memo.exists_expr_of_key? (grafts.extended.key _ _ (Memo.key?_of_expr he))
    refine .inl ((grafts.applies he₁).declines h ⟨⟨op, e.inputs, ?_, trivial⟩, ?_⟩)
    · rw [Memo.key?_of_expr he, ← kind]
    · rw [Memo.marks_of_expr he]
      exact unmarked
  | physical op =>
    have nothing : ((m.bindings rule.pattern id).mapM (applyTo env rule id r?)).Leads (· = ·) m
        fun tasks _ =>
          List.Forall₂ (fun _ new => new = []) (m.bindings rule.pattern id) tasks := by
      refine .mapM rfl (fun _ _ => rfl) (fun _ _ _ _ _ empty => empty) fun t ht m' same => ?_
      exact same ▸ applyTo_physical he kind ht
    rw [MemoM.Leads, mapped] at nothing
    obtain ⟨rfl, empty⟩ := nothing
    refine .inr ⟨.ofLike (.modifyExpr m id fun _ => rfl) fun place logical => ?_, ?_⟩
    · rw [Memo.marks_mark he rule, if_neg]
      rintro rfl
      obtain ⟨op', ids, hk, -⟩ := logical
      rw [Memo.key?_of_expr he] at hk
      obtain ⟨⟩ := kind.symm.trans (congrArg ExprKey.operator (Option.some.inj hk))
    · have all : ∀ new ∈ tasks, new = [] := fun new mem =>
        (exists_of_mem_right (empty tasks rfl) mem).elim fun _ h => h.2
      simp [List.flatten_eq_nil_iff.2 all]

/-! ### Tasks -/

/-- A task that applies no rule settles for what rules have made and is higher than
the tasks that follow. -/
theorem settled_of_run (h : m.Ranked base n) {rules : RuleSet} {next : List (Task K)}
    (run : (t.run env rules).exec m = (.ok next, m'))
    (other : ∀ rule id r?, t ≠ applyRule rule id r?) :
    m.Settled m' ∧ ∀ t' ∈ next, t'.height m' < t.height m' := by
  suffices leads : (t.run env rules).Leads Memo.Settled m
      fun next m' => m'.Ranked base n → ∀ t' ∈ next, t'.height m' < t.height m' by
    obtain ⟨settled, lower⟩ := leads
    have reached : Memo.Reached env m ((t.run env rules).exec m).2 := .task rules t .start
    rw [run] at settled lower reached
    exact ⟨settled, lower next rfl (reached.ranked h)⟩
  have self : m.Settled m := .refl m
  cases t with
  | applyRule rule id r? => exact absurd rfl (other rule id r?)
  | optimizeInputs id r p =>
    exact (optimizingInputs_leads Memo.recordRelation_settled self r p).mono
      fun next m' _ follow ranked t' mem => height_lt_of_follows ranked (follow t' mem) r
  | optimizeGroup id r =>
    refine .get_bind (.lift_bind self fun g hg => ?_)
    split
    · exact .pure self (by simp)
    · refine .pure self fun _ t' mem => ?_
      rcases List.mem_append.1 mem with mem | mem
      · obtain ⟨place, hplace, rfl⟩ := List.mem_map.1 mem
        obtain ⟨same, k, hk, plain⟩ := (Memo.mem_placesOf hg).1 (List.mem_reverse.1 hplace)
        have isPlain : m.isPlain place = true := by
          rw [Memo.isPlain, hk]
          exact (Bool.and_eq_true_iff.1 plain).2
        exact height_lt_of_order same (by simp [order, isPlain])
      · obtain ⟨place, hplace, rfl⟩ := List.mem_map.1 mem
        exact height_lt_of_order ((Memo.mem_placesOf hg).1 (List.mem_reverse.1 hplace)).1
          Nat.one_lt_two
  | exploreGroup id =>
    refine .get_bind (.lift_bind self fun g hg => ?_)
    split
    · exact .pure self (by simp)
    · have marked : m.Settled (m.modifyGroup id ({ · with explored := true })) :=
        .ofLike (.modifyGroup m id (fun _ => rfl) (fun _ => rfl) fun _ _ => rfl)
            fun place _ => by
          refine Memo.marks_modifyGroup m id (fun g i => ?_) place
          rfl
      refine MemoM.Leads.bind (.modify marked) fun _ m' _ _ =>
        .pure (.refl m') fun _ t' mem => ?_
      obtain ⟨place, hplace, rfl⟩ := List.mem_map.1 mem
      exact height_lt_of_order ((Memo.mem_placesOf hg).1 (List.mem_reverse.1 hplace)).1
        Nat.one_lt_two
  | optimizeExpr id r? =>
    refine .get_bind (.lift_bind self fun e he => ?_)
    split
    · exact .throw self _
    · rename_i op kind
      refine .pure self fun _ t' mem => ?_
      rcases List.mem_append.1 mem with mem | mem
      · obtain ⟨i, hi, rfl⟩ := List.mem_map.1 mem
        have logical : e.toExprKey.operator.isEnforcer = false := by rw [kind]; rfl
        exact height_lt_of_rank
          (h.descends (Memo.key?_of_expr he) logical i (List.mem_reverse.1 hi))
      · obtain ⟨rule, -, rfl⟩ := List.mem_map.1 mem
        exact height_lt_of_order rfl Nat.zero_lt_one

/-- A task leaves less work, or it settles for what rules have made and is higher than
the tasks that follow. -/
theorem declines_or_settled (h : m.Ranked base n) {rules : RuleSet} {next : List (Task K)}
    (run : (t.run env rules).exec m = (.ok next, m')) :
    Memo.Declines base n m m' ∨ m.Settled m' ∧ ∀ t' ∈ next, t'.height m' < t.height m' := by
  by_cases applies : ∃ rule id r?, t = applyRule rule id r?
  · obtain ⟨rule, id, r?, rfl⟩ := applies
    refine (declines_or_settled_of_applyRule h run).imp_right fun ⟨settled, nothing⟩ =>
      ⟨settled, ?_⟩
    simp [nothing]
  · exact .inr (settled_of_run h run fun rule id r? same => applies ⟨rule, id, r?, same⟩)

end Search

end Task

end QueryOptimizer
