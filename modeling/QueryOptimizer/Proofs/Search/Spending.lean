import QueryOptimizer.Proofs.Search.Bookkeeping
import QueryOptimizer.Proofs.Search.Founding

/-!
# What a search spends

A search adds costs up. It begins with the cost of the operator of a physical expression, and
goes on with one input after the other, each at the cost of the winner that its group has at
that time. With rounding such a sum may be infinite though each of its parts is finite, and
then the search drops the alternative.

Which sums there can be is said without the search: an input costs what some plan of its group
costs, with enforcers on top of it (`Memo.Spends`). Every winner of a search costs as much as
such a plan (`Memo.Accounted`), and every task has spent such a sum (`Task.Accounted`). So if
all sums over a memo are finite (`Memo.FiniteCosts`), no sum that was formed on the way to it
was infinite. In exact arithmetic it is enough that no operator has a negative cost.

## Main results

* `Task.run_leads_accounts`: a task keeps the winners of a memo and the tasks accounted for.
* `Memo.FiniteCosts.of_extends`: sums that are formed on the way to a memo are sums over it.
* `Memo.NonnegCosts.finite`: exact sums are finite.
-/

namespace QueryOptimizer

variable {K : Type} [Quantity K] {env : Environment K} {m m' : Memo K}

/-! ### Sums -/

/-- Whether a search may put enforcers on top of one another. They lead from one property to
another one, or part of the way. -/
def Enforcer.MayStack (flags : TraceFlags) (es : List Enforcer) : Prop :=
  ∃ required delivered : PhysicalProperty, es <+: required.enforcers delivered flags

namespace Memo

/-- The cost of enforcers on top of one another in a group, and of what is below them. -/
inductive Tops (env : Environment K) (m : Memo K) (group : GroupId) (below : K) :
    List Enforcer → K → Prop
  | nil : Tops env m group below [] below
  | snoc {es : List Enforcer} {e : Enforcer} {cost own : K} {r : Relation K}
      (h : Tops env m group below es cost) (hr : m.relation? group = some r)
      (known : Cost.ofOperator env.config e.operator r.statistics [r.statistics] = .ok own) :
      Tops env m group below (es ++ [e]) (cost + own)

/-- The cost of an expression that is no enforcer and of its inputs, except for those that are
left. An input costs what an expression of its group does together with all of its own inputs,
and with enforcers on top. -/
inductive Spends (env : Environment K) (m : Memo K) : ExprId → List GroupId → K → Prop
  | operator {id : ExprId} {key : ExprKey} {own : K} (hkey : m.key? id = some key)
      (plain : key.operator.isEnforcer = false)
      (known : Task.operatorCost env m id = .ok own) :
      Spends env m id key.inputs own
  | input {id place : ExprId} {left : List GroupId} {es : List Enforcer} {spent below cost : K}
      (h : Spends env m id (place.group :: left) spent) (paid : Spends env m place [] below)
      (may : Enforcer.MayStack env.flags es) (tops : m.Tops env place.group below es cost) :
      Spends env m id left (spent + cost)

/-- Whether a cost is that of a plan for a group: of an expression with all of its inputs, and
of enforcers on top. -/
def Totals (env : Environment K) (m : Memo K) (group : GroupId) (cost : K) : Prop :=
  ∃ place below es, place.group = group ∧ m.Spends env place [] below ∧
    Enforcer.MayStack env.flags es ∧ m.Tops env group below es cost

/-- Whether all sums of costs over a memo are finite and not negative. -/
def FiniteCosts (env : Environment K) (m : Memo K) : Prop :=
  ∀ id left cost, m.Spends env id left cost → 0.0 ≤ cost ∧ Quantity.isFinite cost = true

variable {id : ExprId} {group : GroupId} {left : List GroupId} {es : List Enforcer}
  {below cost : K}

/-- Enforcers cost the same when the memo grows. -/
theorem Tops.extends (h : m.Tops env group below es cost) (extended : m.Extends m') :
    m'.Tops env group below es cost := by
  induction h with
  | nil => exact .nil
  | snoc _ hr known ih => exact .snoc ih (extended.relation _ _ hr) known

/-- Sums over a memo are sums over every memo that it grows into. -/
theorem Spends.extends (h : m.Spends env id left cost) (extended : m.Extends m') :
    m'.Spends env id left cost := by
  induction h with
  | operator hkey plain known =>
    exact .operator (extended.key _ _ hkey) plain (operatorCost_extends extended known)
  | input _ _ may tops ih ih' => exact .input ih ih' may (tops.extends extended)

/-- The cost of a plan is the cost of one when the memo grows. -/
theorem Totals.extends (h : m.Totals env group cost) (extended : m.Extends m') :
    m'.Totals env group cost := by
  obtain ⟨place, below, es, here, spent, may, tops⟩ := h
  exact ⟨place, below, es, here, spent.extends extended, may, tops.extends extended⟩

/-- The sums over a memo are among those over every memo that it grows into. -/
theorem FiniteCosts.of_extends (h : m'.FiniteCosts env) (extended : m.Extends m') :
    m.FiniteCosts env :=
  fun _ _ _ spent => h _ _ _ (spent.extends extended)

/-- An expression with all of its inputs is a plan for its group. -/
theorem Spends.totals (h : m.Spends env id [] cost) : m.Totals env id.group cost :=
  ⟨id, cost, [], rfl, h, ⟨.any, .any, List.nil_prefix⟩, .nil⟩

/-- The next input is added at the cost of a plan for its group. -/
theorem Spends.snoc {spent : K} (h : m.Spends env id (group :: left) spent)
    (total : m.Totals env group cost) : m.Spends env id left (spent + cost) := by
  obtain ⟨place, below, es, rfl, paid, may, tops⟩ := total
  exact .input h paid may tops

/-! #### Exact sums -/

section Exact

variable {K : Type} [ExactQuantity K] {env : Environment K} {m : Memo K}

/-- Enforcers do not make a cost negative. -/
theorem NonnegCosts.tops (costs : m.NonnegCosts env) {below cost : K} (nonneg : 0 ≤ below)
    (may : Enforcer.MayStack env.flags es) (h : m.Tops env group below es cost) :
    0 ≤ cost := by
  obtain ⟨required, delivered, initial⟩ := may
  induction h with
  | nil => exact nonneg
  | @snoc es e cost own r _ hr known ih =>
    have listed : e ∈ required.enforcers delivered env.flags := initial.subset (by simp)
    have enforces := PhysicalProperty.isEnforcer_of_mem_enforcers listed
    exact add_nonneg (ih ((List.prefix_append es [e]).trans initial))
      (costs.enforcer enforces hr known)

/-- If no operator has a negative cost, no exact sum is negative, and none is infinite. -/
theorem NonnegCosts.finite (costs : m.NonnegCosts env) : m.FiniteCosts env := by
  suffices nonneg : ∀ {id left cost}, m.Spends env id left cost → 0 ≤ cost from
      fun _ _ cost h =>
    ⟨by rw [Quantity.zero_eq]; exact nonneg h, Quantity.isFinite_eq_true cost⟩
  intro id left cost h
  induction h with
  | operator _ _ known => exact costs.expr known
  | input _ _ may tops ih ih' => exact add_nonneg ih (costs.tops ih' may tops)

end Exact

/-! ### Winners -/

/-- Whether all winners cost as much as plans for their groups. -/
structure Accounted (env : Environment K) (m : Memo K) : Prop extends m.Filed where
  total : ∀ {i p w}, m.winner? i p = some w → m.Totals env i w.cost

/-- A memo whose winners are accounted for that another one has become. -/
structure Accounts (env : Environment K) (m m' : Memo K) : Prop where
  extended : m.Extends m'
  accounted : m'.Accounted env

instance : IsTrans (Memo K) (Accounts env) where
  trans _ _ _ h h' := ⟨h.extended.trans h'.extended, h'.accounted⟩

namespace Accounted

/-- A memo that is accounted for has become itself. -/
theorem accounts (h : m.Accounted env) : m.Accounts env m :=
  ⟨.refl m, h⟩

/-- Nothing is to be accounted for without winners. -/
theorem of_empty (filed : m.Filed) (winners : ∀ i, m.winners i = {}) : m.Accounted env where
  toFiled := filed
  total won := by
    rw [winner?_eq, winners] at won
    cases won

/-- Expressions are entered. -/
theorem fills (h : m.Accounted env) (fills : m.Fills m') : m.Accounts env m' := by
  refine ⟨fills.extended, fills.filed, fun {i p w} won => ?_⟩
  rw [winner?_eq, fills.winners, ← winner?_eq] at won
  exact (h.total won).extends fills.extended

/-- An expression is offered at the cost of a plan. -/
theorem offer (h : m.Accounted env) {key : ExprKey} (hkey : m.key? id = some key)
    {d : Delivery K} (total : m.Totals env id.group d.cost) (p : PhysicalProperty) :
    m.Accounts env (m.offer id p d) := by
  have like : m.Like (m.offer id p d) := .offer m id p d
  refine ⟨.ofLike like, h.toFiled.like like, fun {i q w} won => ?_⟩
  rcases (winner?_offer_eq_some hkey).1 won with ⟨old, -⟩ | ⟨rfl, -, rfl, -⟩
  · exact (h.total old).extends (.ofLike like)
  · exact total.extends (.ofLike like)

end Accounted

end Memo

/-! ### Tasks -/

/-- Whether the cost that an optimization has come to is a sum over the memo. -/
def Progress.Accounted (env : Environment K) (m : Memo K) (id : ExprId) : Progress K → Prop
  | start => True
  | before _ _ input cost | after _ _ input cost =>
    ∃ key, m.key? id = some key ∧ m.Spends env id (key.inputs.drop input) cost
  | complete _ _ cost => m.Spends env id [] cost

namespace Task

/-- Whether the cost that a task has come to is a sum over the memo. -/
def Accounted (env : Environment K) (m : Memo K) : Task K → Prop
  | optimizeInputs id _ p => p.Accounted env m id
  | _ => True

/-- A task that is accounted for stays so when the memo grows. -/
theorem Accounted.extends {t : Task K} (h : t.Accounted env m) (extended : m.Extends m') :
    t.Accounted env m' := by
  cases t with
  | optimizeInputs id r p =>
    cases p with
    | start => trivial
    | before | after =>
      obtain ⟨key, hkey, spent⟩ := h
      exact ⟨key, extended.key _ _ hkey, spent.extends extended⟩
    | complete => exact Memo.Spends.extends h extended
  | _ => trivial

/-- A task that starts has spent nothing. -/
theorem Starts.accounted {t : Task K} (h : t.Starts) : t.Accounted env m := by
  cases t with
  | optimizeInputs id r p =>
    cases h
    trivial
  | _ => trivial

open Memo MemoM

variable {id : ExprId} {key : ExprKey} {group : GroupId} {r : Request K}

/-- Enforcers are offered at what they cost on top of one another. -/
theorem enforce_leads_accounts (h : m.Accounted env) {place : ExprId}
    (here : place.group = group) {below : K} (spent : m.Spends env place [] below)
    {required delivered : PhysicalProperty} {cost : K} {done es : List Enforcer}
    (may : Enforcer.MayStack env.flags (done ++ es)) (tops : m.Tops env group below done cost)
    (enforces : ∀ e ∈ es, e.operator.isEnforcer = true) :
    (enforce env group required delivered cost es).Leads (Accounts env) m fun _ _ => True := by
  induction es generalizing m delivered cost done with
  | nil => exact .pure h.accounts trivial
  | cons e rest ih =>
    obtain ⟨first, others⟩ := List.forall_mem_cons.1 enforces
    refine ((h.toFiled.insertEnforcer first group).imp fun _ => h.fills).bind ?_
    rintro ⟨added, isNew⟩ m' entered ⟨same, op, -, hkey⟩
    dsimp only at same hkey ⊢
    refine .get_bind (.lift_bind entered.accounted.accounts fun g hg =>
      .lift_bind entered.accounted.accounts fun own known => ?_)
    have tops' : m'.Tops env group below (done ++ [e]) (cost + own) :=
      .snoc (tops.extends entered.extended) (relation?_of_group hg) known
    have may' : Enforcer.MayStack env.flags (done ++ [e] ++ rest) := by
      rwa [List.append_assoc, List.singleton_append]
    have total : m'.Totals env added.group (cost + own) := by
      obtain ⟨required, delivered, initial⟩ := may'
      rw [same]
      exact ⟨place, below, done ++ [e], here, spent.extends entered.extended,
        ⟨required, delivered, (List.prefix_append _ rest).trans initial⟩, tops'⟩
    refine Leads.bind (.modify (entered.accounted.offer hkey total _))
      fun _ m'' offered _ => ?_
    cases rest with
    | nil =>
      have again : m''.Accounts env (m''.offer added required ⟨cost + own, [delivered]⟩) :=
        offered.accounted.offer (offered.extended.key _ _ hkey)
          (total.extends offered.extended) _
      exact Leads.bind (.modify again) fun _ m₃ offered' _ =>
        .pure offered'.accounted.accounts trivial
    | cons e' rest =>
      exact ih offered.accounted
        ((spent.extends entered.extended).extends offered.extended) may'
        (tops'.extends offered.extended) others

/-- An alternative is offered at what its expression costs with all inputs. -/
theorem recordWinner_leads_accounts (h : m.Accounted env) (hkey : m.key? id = some key)
    {cost : K} (spent : m.Spends env id [] cost) (required : PhysicalProperty)
    (a : Alternative) :
    (recordWinner env id required a cost).Leads (Accounts env) m fun _ _ => True := by
  have total : m.Totals env id.group cost := spent.totals
  have offered : m.Accounts env (m.offer id a.delivers ⟨cost, a.requires⟩) :=
    h.offer hkey total a.delivers
  refine Leads.bind (.modify offered) fun _ m' entered _ => ?_
  split
  · have again : m'.Accounts env (m'.offer id required ⟨cost, a.requires⟩) :=
      entered.accounted.offer (entered.extended.key _ _ hkey)
        (total.extends entered.extended) _
    exact Leads.bind (.modify again) fun _ m'' entered' _ =>
      .pure entered'.accounted.accounts trivial
  · have may : Enforcer.MayStack env.flags ([] ++ required.enforcers a.delivers env.flags) :=
      ⟨required, a.delivers, List.prefix_rfl⟩
    exact enforce_leads_accounts entered.accounted rfl
      (spent.extends entered.extended) may .nil fun e he =>
        PhysicalProperty.isEnforcer_of_mem_enforcers he

/-- At first the cost of the operator has been spent. -/
theorem nextAlternative_leads_accounts (h : m.Accounted env) (hkey : m.key? id = some key)
    (plain : key.operator.isEnforcer = false) (as : List Alternative) :
    (nextAlternative env id r as).Leads (Accounts env) m fun ts m' =>
      ∀ t ∈ ts, t.Accounted env m' := by
  cases as with
  | nil => exact .pure h.accounts (by simp)
  | cons a rest =>
    refine .get_bind
      (.lift_bind h.accounts fun own known => .lift_bind h.accounts fun e he => ?_)
    have spent : m.Spends env id key.inputs own := .operator hkey plain known
    obtain rfl := Option.some.inj ((key?_of_expr he).symm.trans hkey)
    split
    · rename_i leaf
      rw [List.isEmpty_iff.1 leaf] at spent
      exact .pure h.accounts (List.forall_mem_singleton.2 spent)
    · exact .pure h.accounts (List.forall_mem_singleton.2 ⟨_, hkey, spent⟩)

/-- A step of the optimization of a physical expression adds the winner of an input. -/
theorem optimizingInputs_leads_accounts (h : m.Accounted env) (hkey : m.key? id = some key)
    (plain : key.operator.isEnforcer = false) {p : Progress K} (spent : p.Accounted env m id) :
    (optimizingInputs env id r p).Leads (Accounts env) m fun ts m' =>
      ∀ t ∈ ts, t.Accounted env m' := by
  cases p with
  | start =>
    refine .get_bind (.lift_bind h.accounts fun e _ => ?_)
    split
    · exact .throw h.accounts _
    · exact .lift_bind h.accounts fun _ _ => .lift_bind h.accounts fun _ _ =>
        nextAlternative_leads_accounts h hkey plain _
  | before a rest input cost =>
    refine .get_bind (.lift_bind h.accounts fun e _ => .lift_bind h.accounts fun goal _ => ?_)
    exact .pure h.accounts
      (List.forall_mem_cons.2 ⟨trivial, List.forall_mem_singleton.2 spent⟩)
  | after a rest input cost =>
    refine .get_bind
      (.lift_bind h.accounts fun e he => .lift_bind h.accounts fun goal hgoal => ?_)
    dsimp only
    split
    · exact nextAlternative_leads_accounts h hkey plain rest
    · rename_i w hw
      obtain ⟨key', hkey', spent⟩ := spent
      obtain rfl := Option.some.inj (hkey'.symm.trans hkey)
      obtain rfl := Option.some.inj ((key?_of_expr he).symm.trans hkey)
      obtain ⟨inside, goal_eq⟩ := List.getElem?_eq_some_iff.1 (inputGoal_eq_ok.1 hgoal).1
      rw [List.drop_eq_getElem_cons inside, goal_eq] at spent
      have spent' := spent.snoc (h.total hw)
      split
      · rename_i last
        rw [beq_iff_eq.1 last, List.drop_length] at spent'
        exact .pure h.accounts (List.forall_mem_singleton.2 spent')
      · exact .pure h.accounts (List.forall_mem_singleton.2 ⟨_, hkey, spent'⟩)
  | complete a rest cost =>
    simp only [optimizingInputs]
    split
    · exact nextAlternative_leads_accounts h hkey plain rest
    · refine (recordWinner_leads_accounts h hkey spent r.required a).bind
        fun total m' later _ => ?_
      have hkey' := later.extended.key _ _ hkey
      split
      · exact nextAlternative_leads_accounts later.accounted hkey' plain rest
      · exact nextAlternative_leads_accounts later.accounted hkey' plain rest

/-- A task keeps winners accounted for, and the tasks after it have spent sums
over the memo. -/
theorem run_leads_accounts (h : m.Accounted env) (rules : RuleSet) {t : Task K}
    (supplied : t.Supplied m) (spent : t.Accounted env m) :
    (t.run env rules).Leads (Accounts env) m fun ts m' => ∀ t ∈ ts, t.Accounted env m' := by
  have explored (explores : t.Explores) :
      (t.run env rules).Leads (Accounts env) m fun ts m' => ∀ t ∈ ts, t.Accounted env m' :=
    ((run_leads_fills h.toFiled rules explores).imp fun _ => h.fills).mono
      fun ts m' _ starts t ht => (starts t ht).accounted
  cases t with
  | optimizeInputs id r p =>
    obtain ⟨key, hkey, plain, -⟩ := supplied
    exact optimizingInputs_leads_accounts h hkey plain spent
  | _ => exact explored trivial

end Task

end QueryOptimizer
