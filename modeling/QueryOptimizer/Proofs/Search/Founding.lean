import QueryOptimizer.Proofs.Search.Copies
import QueryOptimizer.Proofs.Search.Delivery
import QueryOptimizer.Proofs.Search.Readiness

/-!
# Winners of a search are founded

The tasks of a search keep the winners of a memo founded. The winners that a delivery needs are
there before it is offered, and what has been paid for them is not below zero
(`Task.Supplied`). Enforcers are offered on top of what an expression delivers, each of them
for more than the one below it costs, or on a higher level.

So a plan can be read off in every state of a search, whatever the catalog says about the sizes
of tables, and however sums are rounded.

## Main results

* `Task.enforce_leads_proceeds`, `Task.recordWinner_leads_proceeds`: recording an alternative
  keeps winners founded.
* `Task.run_leads_proceeds`: so does every task.
* `Memo.Underway.run`: a task only fails as the catalog does, and the search goes on.
-/

namespace QueryOptimizer

variable {K : Type} [Quantity K] {env : Environment K} {m m' : Memo K}
  {base : List LogicalOperator} {n : Nat}

/-- A bound only admits numbers. -/
theorem CostBound.beq_self_of_admits [OrderedQuantity K] {b : CostBound K} {cost : K}
    (admitted : b.admits cost = true) : (cost == cost) = true := by
  unfold admits at admitted
  split at admitted
  · exact OrderedQuantity.beq_self_of_le (of_decide_eq_true admitted)
  · exact admitted

/-! ### Offers -/

namespace Memo

/-- A memo in order with founded winners that another one has become. -/
structure Proceeds (base : List LogicalOperator) (n : Nat) (m m' : Memo K) : Prop where
  extended : m.Extends m'
  orderly : m'.Orderly base n
  founded : m'.Founded
  sharpens : m.Sharpens m'

variable [OrderedQuantity K] {id : ExprId} {key : ExprKey} {p : PhysicalProperty}
  {d : Delivery K}
  {i : GroupId}

instance : IsTrans (Memo K) (Proceeds base n) where
  trans m m' m'' h h' := by
    refine ⟨h.extended.trans h'.extended, h'.orderly, h'.founded, fun goal w hw => ?_⟩
    obtain ⟨w', hw', le⟩ := h.sharpens goal w hw
    obtain ⟨w'', hw'', le'⟩ := h'.sharpens goal w' hw'
    have level : m''.level goal = m'.level goal :=
      level_extends h.orderly.toCoherent h'.extended (lt_of_winner? hw')
    exact ⟨w'', hw'', fun plain =>
      OrderedQuantity.le_trans (le' plain) (le (level.symm.trans plain))⟩

/-- A founded memo has proceeded to itself. -/
theorem Proceeds.refl (orderly : m.Orderly base n) (h : m.Founded) : m.Proceeds base n m :=
  ⟨.refl m, orderly, h, fun _ w hw =>
    ⟨w, hw, fun plain => Quantity.le_refl_of_nonneg (h.winner_amount hw plain)⟩⟩

omit [OrderedQuantity K] in
/-- A goal that had a winner has one. -/
theorem Proceeds.exists_winner (h : m.Proceeds base n m') {goal : Goal}
    (won : ∃ w, m.winner? goal.1 goal.2 = some w) :
    ∃ w, m'.winner? goal.1 goal.2 = some w := by
  obtain ⟨w, hw⟩ := won
  obtain ⟨w', hw', -⟩ := h.sharpens goal w hw
  exact ⟨w', hw'⟩

/-- Whether a goal has a winner, which costs at most so much if no copies have to be made for
it. The cost is not below zero then, either. -/
structure WonFor (m : Memo K) (i : GroupId) (p : PhysicalProperty) (cost : K) : Prop where
  winner : ∃ w, m.winner? i p = some w ∧ (m.level (i, p) = 0 → w.cost ≤ cost)
  amount : m.level (i, p) = 0 → 0.0 ≤ cost
  counted : Quantity.NotNegative cost

omit [OrderedQuantity K] in
/-- A group that a winner was found for is in the memo. -/
theorem WonFor.inside {cost : K} (h : m.WonFor i p cost) : i < m.groups.size := by
  obtain ⟨w, hw, -⟩ := h.winner
  exact lt_of_winner? hw

/-- What has been won stays won. -/
theorem WonFor.later {cost : K} (h : m.WonFor i p cost) (orderly : m.Orderly base n)
    (proceeds : m.Proceeds base n m') : m'.WonFor i p cost := by
  have level : m'.level (i, p) = m.level (i, p) :=
    level_extends orderly.toCoherent proceeds.extended h.inside
  obtain ⟨w, hw, le⟩ := h.winner
  obtain ⟨w', hw', le'⟩ := proceeds.sharpens (i, p) w hw
  refine ⟨⟨w', hw', fun plain => ?_⟩, fun plain =>
    h.amount (level.symm.trans plain), h.counted⟩
  exact OrderedQuantity.le_trans (le' plain) (le (level.symm.trans plain))

namespace Founded

section Offers

variable (h : m.Founded) (orderly : m.Orderly base n)
include h orderly

/-- An offer of an expression that is no enforcer, whose inputs have winners. -/
theorem proceeds_offer (hkey : m.key? id = some key) (plain : key.operator.isEnforcer = false)
    (supplied : ∀ g ∈ key.inputs.zip d.requires, ∃ w, m.winner? g.1 g.2 = some w)
    (amount : 0.0 ≤ d.cost) (p : PhysicalProperty) :
    m.Proceeds base n (m.offer id p d) ∧ (m.offer id p d).WonFor id.group p d.cost := by
  have like : m.Like (m.offer id p d) := .offer m id p d
  refine ⟨⟨.ofLike like, orderly.like like, ?_, h.sharpens_offer hkey fun _ => amount⟩, ?_,
    fun _ => amount, .of_nonneg amount⟩
  · exact h.offer orderly.toRanked hkey supplied
      (fun enforces => absurd enforces (Bool.eq_false_iff.1 plain)) (fun _ => amount)
      (.of_nonneg amount)
  · rw [level_like like]
    exact exists_winner_offer hkey (fun _ => amount) BEq.rfl

/-- An offer of an enforcer, which leads to a higher level or costs no more than
what it stands on. -/
theorem proceeds_offer_enforcer {op : PhysicalOperator}
    (hkey : m.key? id = some ⟨.physical op, [i]⟩) (here : id.group = i)
    {below : PhysicalProperty} {cost own : K} (won : m.WonFor i below cost)
    (counted : Quantity.NotNegative own) (upwards : m.level (i, below) < m.level (i, p) ∨
      m.level (i, below) = 0 ∧ m.level (i, p) = 0 ∧ 0.0 ≤ own) :
    m.Proceeds base n (m.offer id p ⟨cost + own, [below]⟩) ∧
      (m.offer id p ⟨cost + own, [below]⟩).WonFor i p (cost + own) := by
  subst here
  have like : m.Like (m.offer id p ⟨cost + own, [below]⟩) := .offer m id p _
  obtain ⟨w, hw, le⟩ := won.winner
  have amount : m.level (id.group, p) = 0 → 0.0 ≤ cost + own := by
    intro plain
    rcases upwards with less | ⟨zero, -, nonneg⟩
    · exact absurd less (by rw [plain]; exact Nat.not_lt_zero _)
    · exact Quantity.add_nonneg (won.amount zero) nonneg
  have stands : m.StandsOn (id.group, below) (id.group, p) (cost + own) := by
    refine upwards.imp_right fun ⟨zero, zero', nonneg⟩ => ⟨zero, zero', w, hw, ?_⟩
    exact OrderedQuantity.le_trans (le zero) (OrderedQuantity.le_add (won.amount zero) nonneg)
  refine ⟨⟨.ofLike like, orderly.like like, ?_, h.sharpens_offer hkey amount⟩, ?_, ?_,
    won.counted.add counted⟩
  · exact h.offer orderly.toRanked hkey (List.forall_mem_singleton.2 ⟨w, hw⟩)
      (fun _ => List.forall_mem_singleton.2 stands) amount (won.counted.add counted)
  · rw [level_like like]
    exact exists_winner_offer hkey amount BEq.rfl
  · rw [level_like like]
    exact amount

/-- Putting an enforcer into a group. -/
theorem insertEnforcer {op : PhysicalOperator} (enforces : op.isEnforcer = true)
    (group : GroupId) :
    (Memo.insertKey env ⟨.physical op, [group]⟩ (some group)).Leads
      (Proceeds base n) m fun r m' => r.1.group = group ∧ ∃ op', (op' == op) = true ∧
        m'.key? r.1 = some ⟨.physical op', [group]⟩ := by
  obtain ⟨fills, there⟩ :
    (Memo.insertKey env ⟨.physical op, [group]⟩ (some group)).Leads Fills m
      fun r m' => r.1.group = group ∧
        ∃ op', (op' == op) = true ∧ m'.key? r.1 = some ⟨.physical op', [group]⟩ :=
    orderly.toFiled.insertEnforcer enforces group
  obtain ⟨stays, -⟩ : (Memo.insertKey env ⟨.physical op, [group]⟩ (some group)).Leads
    (StaysOrderly base n) m
      fun _ _ => True :=
    (stepRelation_staysOrderly base n).enforcer ⟨.refl m, orderly⟩ enforces
  obtain ⟨founded, sharpens⟩ := h.fills orderly.toCoherent fills
  exact ⟨⟨fills.extended, stays.orderly, founded, sharpens⟩, there⟩

end Offers

end Founded

end Memo

/-! ### Tasks -/

/-- Whether the inputs that have been optimized have winners, and their cost is
not below zero. -/
def Progress.Supplied (m : Memo K) (ids : List GroupId) : Progress K → Prop
  | start => True
  | before a _ input cost | after a _ input cost => Quantity.NotNegative cost ∧
    ∀ g ∈ (ids.zip a.requires).take input, ∃ w, m.winner? g.1 g.2 = some w
  | complete a _ cost => Quantity.NotNegative cost ∧
    ∀ g ∈ ids.zip a.requires, ∃ w, m.winner? g.1 g.2 = some w

namespace Task

/-- Whether a task that optimizes a physical expression is not about an enforcer, and the
inputs that have been optimized have winners. -/
def Supplied (m : Memo K) : Task K → Prop
  | optimizeInputs id _ p =>
    ∃ key, m.key? id = some key ∧ key.operator.isEnforcer = false ∧ p.Supplied m key.inputs
  | _ => True

open Memo MemoM

/-- A task for a new expression is supplied. -/
theorem IsNew.supplied {t : Task K} {group : GroupId} (h : t.IsNew m m' group) :
    t.Supplied m' := by
  cases h with
  | logical => trivial
  | physical _ _ hk plain => exact ⟨_, hk, plain, trivial⟩

/-- A task that is supplied stays so. -/
theorem Supplied.later {t : Task K} (h : t.Supplied m) (proceeds : m.Proceeds base n m') :
    t.Supplied m' := by
  cases t with
  | optimizeInputs id r p =>
    obtain ⟨key, hkey, plain, supplied⟩ := h
    refine ⟨key, proceeds.extended.key _ _ hkey, plain, ?_⟩
    cases p with
    | start => trivial
    | before | after | complete =>
      exact ⟨supplied.1, fun g hg => proceeds.exists_winner (supplied.2 g hg)⟩
  | _ => trivial

variable [OrderedQuantity K] {id : ExprId} {key : ExprKey} {group : GroupId} {r : Request K}

/-! #### Recording winners -/

/-- The cost of an enforcer is not below zero, and if it is no broadcast it is an amount. -/
theorem enforcer_amount (orderly : m.Orderly base n) {g : Group K} (hg : m.group group = .ok g)
    {e : Enforcer} {own : K}
    (known : Cost.ofOperator env.config e.operator g.statistics [g.statistics] = .ok own) :
    Quantity.NotNegative own ∧ (¬e.Broadcasts → 0.0 ≤ own) := by
  have sized : g.statistics.Sized := orderly.sized.groups (relation?_of_group hg)
  have inputs : ∀ s ∈ [g.statistics], s.Sized := List.forall_mem_singleton.2 sized
  exact ⟨fun number => Cost.zero_le_ofOperator sized inputs known fun _ _ _ => number,
    fun calm => Cost.zero_le_ofOperator sized inputs known fun m same kind =>
    absurd ⟨m, same, kind⟩ calm⟩

/-- Enforcers on top of one another keep winners founded, if they lead upwards. -/
theorem enforce_leads_proceeds (h : m.Founded) (orderly : m.Orderly base n)
    {required delivered : PhysicalProperty} {cost : K} (won : m.WonFor group delivered cost)
    {es : List Enforcer} (rises : Enforcer.Rises (m.readsCopies group) required delivered es)
    (enforces : ∀ e ∈ es, e.operator.isEnforcer = true) :
    (enforce env group required delivered cost es).Leads
      (Proceeds base n) m fun _ _ => True := by
  induction es generalizing m delivered cost with
  | nil => exact .pure (.refl orderly h) trivial
  | cons e rest ih =>
    obtain ⟨first, others⟩ := List.forall_mem_cons.1 enforces
    obtain ⟨upwards, last, rises⟩ := rises
    -- The group reads copies or does not, whatever is added to the memo.
    have reads {m₁ : Memo K} (proceeds : m.Proceeds base n m₁) :
        m₁.readsCopies group = m.readsCopies group :=
      readsCopies_extends orderly.toCoherent proceeds.extended won.inside
    refine (h.insertEnforcer orderly first group).bind ?_
    rintro ⟨place, isNew⟩ m' proceeds ⟨here, op, same, hkey⟩
    dsimp only at here hkey ⊢
    have self : m'.Proceeds base n m' := .refl proceeds.orderly proceeds.founded
    refine .get_bind (.lift_bind self fun g hg => .lift_bind self fun own known => ?_)
    obtain ⟨counted, amount⟩ := enforcer_amount proceeds.orderly hg known
    -- The enforcer is offered for what it delivers, and for anything on the same level.
    have offered {m₁ : Memo K} (proceeds₁ : m'.Proceeds base n m₁) {p : PhysicalProperty}
        (level : p.level (m.readsCopies group) = e.delivers.level (m.readsCopies group)) :
        m₁.Proceeds base n (m₁.offer place p ⟨cost + own, [delivered]⟩) ∧
          (m₁.offer place p ⟨cost + own, [delivered]⟩).WonFor group p (cost + own) := by
      have all : m.Proceeds base n m₁ := trans_of (Proceeds base n) proceeds proceeds₁
      refine proceeds₁.founded.proceeds_offer_enforcer proceeds₁.orderly
        (proceeds₁.extended.key _ _ hkey) here (won.later orderly all) counted ?_
      simp only [Memo.level, reads all, level]
      exact upwards.imp_right fun h => ⟨h.1, h.2.1, amount h.2.2⟩
    obtain ⟨step, taken⟩ := offered self rfl
    refine Leads.bind (.modify step) fun _ m'' proceeds' changed => ?_
    cases rest with
    | nil =>
      obtain ⟨step', -⟩ := offered proceeds' (last rfl).symm
      exact Leads.bind (.modify step') fun _ m₃ proceeds₃ _ =>
        .pure (.refl proceeds₃.orderly proceeds₃.founded) trivial
    | cons e' rest =>
      refine ih proceeds'.founded proceeds'.orderly (changed ▸ taken) ?_ others
      rwa [reads (trans_of (Proceeds base n) proceeds proceeds')]

/-- Recording an alternative keeps winners founded. -/
theorem recordWinner_leads_proceeds (h : m.Founded) (orderly : m.Orderly base n)
    (hkey : m.key? id = some key) (plain : key.operator.isEnforcer = false)
    {required : PhysicalProperty} {a : Alternative} {rest : List Alternative}
    (lists : m.Lists id required (a :: rest)) {cost : K}
    (supplied : ∀ g ∈ key.inputs.zip a.requires, ∃ w, m.winner? g.1 g.2 = some w)
    (amount : 0.0 ≤ cost) :
    (recordWinner env id required a cost).Leads (Proceeds base n) m fun _ _ => True := by
  obtain ⟨key', op, outs, all, hkey', hop, -, listed, mem⟩ := lists
  obtain rfl := Option.some.inj (hkey'.symm.trans hkey)
  obtain ⟨step, taken⟩ :=
    h.proceeds_offer orderly hkey plain (d := ⟨cost, a.requires⟩) supplied amount a.delivers
  refine Leads.bind (.modify step) fun _ m' proceeds changed => ?_
  have hkey' := proceeds.extended.key _ _ hkey
  split
  · obtain ⟨step', -⟩ := proceeds.founded.proceeds_offer proceeds.orderly hkey' plain
      (d := ⟨cost, a.requires⟩)
      (fun g hg => proceeds.exists_winner (supplied g hg)) amount required
    exact Leads.bind (.modify step') fun _ m'' proceeds' _ =>
      .pure (.refl proceeds'.orderly proceeds'.founded) trivial
  · have reads : m'.readsCopies id.group = (Operator.physical op).readsCopies := by
      rw [← proceeds.orderly.alike _ _ hkey' plain, hop]
    refine enforce_leads_proceeds proceeds.founded proceeds.orderly (changed ▸ taken) ?_
      fun e he => PhysicalProperty.isEnforcer_of_mem_enforcers he
    rw [reads]
    refine PhysicalProperty.rises_enforcers
      (PhysicalOperator.respects_of_mem_alternatives ?_ listed (mem a List.mem_cons_self))
      env.flags
    rw [hop] at plain
    exact plain

/-! #### Going through alternatives -/

/-- At first the cost is that of the operator. -/
theorem nextAlternative_leads_proceeds (h : m.Founded) (orderly : m.Orderly base n)
    (hkey : m.key? id = some key) (plain : key.operator.isEnforcer = false)
    (as : List Alternative) :
    (nextAlternative env id r as).Leads (Proceeds base n) m fun ts m' =>
      ∀ t ∈ ts, t.Supplied m' := by
  have self : m.Proceeds base n m := .refl orderly h
  cases as with
  | nil => exact .pure self (by simp)
  | cons a rest =>
    refine .get_bind (.lift_bind self fun own known => .lift_bind self fun e he => ?_)
    have counted : Quantity.NotNegative own :=
      .of_nonneg (orderly.sized.zero_le_operatorCost hkey plain known)
    obtain rfl := Option.some.inj ((key?_of_expr he).symm.trans hkey)
    split
    · rename_i leaf
      refine .pure self (List.forall_mem_singleton.2 ⟨_, hkey, plain, counted, ?_⟩)
      simp [List.isEmpty_iff.1 leaf]
    · exact .pure self (List.forall_mem_singleton.2 ⟨_, hkey, plain, counted, by simp⟩)

/-- A step of the optimization of a physical expression keeps winners founded. -/
theorem optimizingInputs_leads_proceeds (h : m.Founded) (orderly : m.Orderly base n)
    {p : Progress K} (sound : p.Sound m id r.required) (hkey : m.key? id = some key)
    (plain : key.operator.isEnforcer = false) (supplied : p.Supplied m key.inputs) :
    (optimizingInputs env id r p).Leads (Proceeds base n) m fun ts m' =>
      ∀ t ∈ ts, t.Supplied m' := by
  have self : m.Proceeds base n m := .refl orderly h
  cases p with
  | start =>
    refine .get_bind (.lift_bind self fun e _ => ?_)
    split
    · exact .throw self _
    · exact .lift_bind self fun _ _ => .lift_bind self fun _ _ =>
        nextAlternative_leads_proceeds h orderly hkey plain _
  | before a rest input cost =>
    refine .get_bind (.lift_bind self fun e _ => .lift_bind self fun goal _ => .pure self ?_)
    exact List.forall_mem_cons.2
      ⟨trivial, List.forall_mem_singleton.2 ⟨key, hkey, plain, supplied⟩⟩
  | after a rest input cost =>
    refine .get_bind (.lift_bind self fun e he => .lift_bind self fun goal hgoal => ?_)
    dsimp only
    split
    · exact nextAlternative_leads_proceeds h orderly hkey plain rest
    · rename_i w hw
      obtain ⟨counted, before⟩ := supplied
      obtain rfl := Option.some.inj ((key?_of_expr he).symm.trans hkey)
      have total : Quantity.NotNegative (cost + w.cost) := counted.add (h.counted hw)
      have next : (e.inputs.zip a.requires)[input]? = some goal :=
        List.getElem?_zip_eq_some.2 (inputGoal_eq_ok.1 hgoal)
      have won : ∀ g ∈ (e.inputs.zip a.requires).take (input + 1), ∃ w,
          m.winner? g.1 g.2 = some w := by
        rw [List.take_add_one, next]
        exact List.forall_mem_append.2 ⟨before, List.forall_mem_singleton.2 ⟨w, hw⟩⟩
      split
      · rename_i last
        refine .pure self (List.forall_mem_singleton.2 ⟨_, hkey, plain, total, ?_⟩)
        rwa [List.take_of_length_le] at won
        rw [List.length_zip, beq_iff_eq.1 last]
        exact Nat.min_le_left _ _
      · exact .pure self (List.forall_mem_singleton.2 ⟨_, hkey, plain, total, won⟩)
  | complete a rest cost =>
    obtain ⟨lists, -⟩ := sound
    obtain ⟨counted, won⟩ := supplied
    simp only [optimizingInputs]
    split
    · exact nextAlternative_leads_proceeds h orderly hkey plain rest
    · rename_i admitted
      have amount : 0.0 ≤ cost :=
        counted (CostBound.beq_self_of_admits (by simpa using admitted))
      refine (recordWinner_leads_proceeds h orderly hkey plain lists won amount).bind
        fun total m' proceeds _ => ?_
      have hkey' := proceeds.extended.key _ _ hkey
      split
      · exact nextAlternative_leads_proceeds proceeds.founded proceeds.orderly hkey' plain rest
      · exact nextAlternative_leads_proceeds proceeds.founded proceeds.orderly hkey' plain rest

/-! #### All tasks -/

omit [OrderedQuantity K] in
/-- Physical expressions are optimized from the beginning, and they are no enforcers. -/
theorem supplied_of_run {excused : OptError → Prop} (answers : env.AnswersUnless excused)
    (operations : ∀ s ∈ base.flatMap LogicalOperator.operations, s.inputs ≠ [])
    (h : m.Ranked base n) {rules : RuleSet} {t : Task K} (explores : t.Explores)
    (ready : t.Ready m) {next : List (Task K)}
    (run : (t.run env rules).exec m = (.ok next, m')) : ∀ t ∈ next, t.Supplied m' := by
  suffices leads : YieldsUnless excused m (t.run env rules) fun next m' => ∀ t ∈ next,
      t.Supplied m' from
    leads.of_exec run
  cases t with
  | optimizeGroup group r =>
    refine .get_bind
      (.lift_bind (OptResult.Succeeds.unless (exists_group ready)) fun g hg => ?_)
    split
    · exact .pure (by simp)
    · refine .pure fun t mem => ?_
      rcases List.mem_append.1 mem with mem | mem
      · obtain ⟨place, hplace, rfl⟩ := List.mem_map.1 mem
        obtain ⟨-, k, hk, physical⟩ := (mem_placesOf hg).1 (List.mem_reverse.1 hplace)
        obtain ⟨-, plain⟩ := (Bool.and_eq_true _ _).mp physical
        exact ⟨k, hk, by simpa using plain, trivial⟩
      · obtain ⟨place, -, rfl⟩ := List.mem_map.1 mem
        trivial
  | exploreGroup group =>
    refine .get_bind
      (.lift_bind (OptResult.Succeeds.unless (exists_group ready)) fun g _ => ?_)
    split
    · exact .pure (by simp)
    · refine .modify_bind (.pure fun t mem => ?_)
      obtain ⟨place, -, rfl⟩ := List.mem_map.1 mem
      trivial
  | optimizeExpr id r? =>
    obtain ⟨op, ids, hk, -⟩ := ready
    obtain ⟨e, he, same⟩ := exists_expr_of_key? hk
    have kind : e.operator = .logical op := congrArg ExprKey.operator same
    refine .get_bind (.lift_bind (OptResult.Succeeds.unless ⟨e, he⟩) fun e' he' => ?_)
    obtain rfl := Except.ok.inj (he.symm.trans he')
    rw [kind]
    refine .pure fun t mem => ?_
    rcases List.mem_append.1 mem with mem | mem
    · obtain ⟨i, -, rfl⟩ := List.mem_map.1 mem
      trivial
    · obtain ⟨rule, -, rfl⟩ := List.mem_map.1 mem
      trivial
  | applyRule rule id r? =>
    obtain ⟨op, ids, hk, -⟩ := ready
    refine (applyingRule_yieldsUnless answers operations h hk rule r?).mono
      fun next m' done => ?_
    rcases done with ⟨-, -, rfl⟩ | ⟨-, -, new⟩
    · simp
    · exact fun t ht => (new t ht).supplied
  | optimizeInputs => exact explores.elim

/-- A task keeps winners founded, and the tasks that follow are about inputs
with winners again. -/
theorem run_leads_proceeds (h : m.Founded) (orderly : m.Orderly base n)
    (operations : ∀ s ∈ base.flatMap LogicalOperator.operations, s.inputs ≠ [])
    (rules : RuleSet) {t : Task K} (ready : t.Ready m) (sound : t.Sound m)
    (supplied : t.Supplied m) :
    (t.run env rules).Leads (Proceeds base n) m fun ts m' => ∀ t ∈ ts, t.Supplied m' := by
  have explored (explores : t.Explores) :
      (t.run env rules).Leads (Proceeds base n) m fun ts m' => ∀ t ∈ ts, t.Supplied m' := by
    obtain ⟨fills, -⟩ : (t.run env rules).Leads Fills m fun ts _ => ∀ t ∈ ts, t.Starts :=
      run_leads_fills orderly.toFiled rules explores
    obtain ⟨stays, -⟩ : (t.run env rules).Leads (StaysOrderly base n) m fun _ _ => True :=
      run_leads_steps (stepRelation_staysOrderly base n) ⟨.refl m, orderly⟩ rules t
    obtain ⟨founded, sharpens⟩ := h.fills orderly.toCoherent fills
    refine ⟨⟨fills.extended, stays.orderly, founded, sharpens⟩, fun next hnext => ?_⟩
    have anything : env.AnswersUnless fun _ => True :=
      ⟨⟨fun _ _ _ _ _ => trivial, fun _ _ _ => trivial⟩, fun _ => trivial⟩
    exact supplied_of_run anything operations orderly.toRanked explores ready
      (Prod.ext hnext rfl)
  cases t with
  | optimizeInputs id r p =>
    obtain ⟨key, hkey, plain, supplied⟩ := supplied
    exact optimizingInputs_leads_proceeds h orderly sound hkey plain supplied
  | _ => exact explored trivial

end Task

/-! ### States in the middle of a search -/

namespace Memo

open MemoM

/-- A memo in the middle of a search, with tasks that are waiting. -/
structure Underway (base : List LogicalOperator) (n : Nat) (m : Memo K)
    (tasks : List (Task K)) : Prop where
  orderly : m.Orderly base n
  delivering : m.Delivering
  founded : m.Founded
  waiting : ∀ t ∈ tasks, t.Ready m ∧ t.Sound m ∧ t.Supplied m

/-- A stage begins without winners, with the task to optimize the root. -/
theorem Orderly.underway_reset (h : m.Orderly base n) (inside : m.root < m.groups.size)
    (required : PhysicalProperty) :
    m.reset.Underway base n [.optimizeGroup m.root ⟨required, .unlimited⟩] :=
  have like : m.Like m.reset := .reset m
  ⟨h.like like, .of_empty (h.toFiled.like like) (deliveries_reset m),
    .of_empty (deliveries_reset m) (winners_reset m),
    List.forall_mem_singleton.2 ⟨lt_of_lt_of_eq inside like.size.symm, trivial, trivial⟩⟩

/-- A task only fails with an error that is excused, and the search goes on. -/
theorem Underway.run [OrderedQuantity K] {excused : OptError → Prop}
    (answers : env.AnswersUnless excused)
    (operations : ∀ s ∈ base.flatMap LogicalOperator.operations, s.inputs ≠ []) {t : Task K}
    {waiting : List (Task K)} (h : m.Underway base n (t :: waiting)) (rules : RuleSet) :
    YieldsUnless excused m (t.run env rules) fun next m' =>
      m'.Underway base n (next ++ waiting) ∧ m.Extends m' := by
  obtain ⟨⟨ready, sound, supplied⟩, others⟩ := List.forall_mem_cons.1 h.waiting
  have follows :
      YieldsUnless excused m (t.run env rules) fun next m' => ∀ t ∈ next, t.Ready m' :=
    Task.run_yieldsUnless_ready answers operations h.orderly.toRanked rules ready
  refine ((follows.of_leads (Task.run_leads_grows h.delivering rules sound)).of_leads
    (Task.run_leads_proceeds h.founded h.orderly operations rules ready sound
      supplied)).mono ?_
  rintro next m' ⟨⟨ready', grows, sound'⟩, proceeds, supplied'⟩
  refine ⟨⟨proceeds.orderly, grows.delivering, proceeds.founded, List.forall_mem_append.2
    ⟨fun t ht => ⟨ready' t ht, sound' t ht, supplied' t ht⟩, fun t ht => ?_⟩⟩,
      proceeds.extended⟩
  obtain ⟨ready, sound, supplied⟩ := others t ht
  exact ⟨ready.extends proceeds.extended, sound.extends proceeds.extended,
    supplied.later proceeds⟩

end Memo

end QueryOptimizer
