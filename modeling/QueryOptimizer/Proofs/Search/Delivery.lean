import QueryOptimizer.Proofs.Memo.Records
import QueryOptimizer.Proofs.Plan.Meaning
import QueryOptimizer.Proofs.Search.Exploration
import QueryOptimizer.Proofs.Search.Recording
import QueryOptimizer.Proofs.Search.States

/-!
# Plans deliver what they were chosen for

The tasks of a search only record deliveries that operators can make, as long as the
alternatives that they go through are those of the operator. So every node of the plan
that a search returns delivers the property that it was chosen for, provided its
inputs deliver theirs.

Nothing is assumed about the memo but that it is in order.

## Main results

* `Task.run_leads_grows`: a task keeps the records justified.
* `Memo.Searched.delivering`: so they are in every state of a search.
* `Memo.Delivering.delivers_of_bestPlan`: the nodes of a plan that is read off then
  deliver their properties.
-/

namespace QueryOptimizer

/-! ### Deliveries that are justified

Expressions of a memo record how they deliver properties. Such a record is justified if the
operator meets the property in this way (`Memo.Meets`). Whatever is inserted has no records
yet, so it is enough to look at what is offered.
-/

namespace Memo

variable {K : Type} {m m' m'' : Memo K} {place : ExprId} {key : ExprKey} {p : PhysicalProperty}
  {requires : List PhysicalProperty}

/-- Whether an expression records that it delivers a property if its inputs
deliver those in the list. -/
def Offers (m : Memo K) (place : ExprId) (p : PhysicalProperty)
    (requires : List PhysicalProperty) : Prop :=
  ∃ d, (p, d) ∈ (m.deliveries place).entries ∧ d.requires = requires

/-- Whether an operator over groups meets a property if the groups meet those in the list,
which has one for each group. -/
def Meets (m : Memo K) (key : ExprKey) (p : PhysicalProperty)
    (requires : List PhysicalProperty) : Prop :=
  ∃ op outs, key.operator = .physical op ∧ m.columnSets key.inputs = .ok outs ∧
    op.Meets outs p requires ∧ key.inputs.length ≤ requires.length

/-- Whether a memo is in order, and all records are justified. -/
structure Delivering (m : Memo K) : Prop extends m.Filed where
  meets : ∀ {place p requires}, m.Offers place p requires →
    ∃ key, m.key? place = some key ∧ m.Meets key p requires

/-- The columns of groups stay as they are when the memo grows. -/
theorem columnSets_extends (h : m.Extends m') {ids : List GroupId} {outs : List ColumnSet}
    (hm : m.columnSets ids = .ok outs) : m'.columnSets ids = .ok outs := by
  obtain ⟨rels, hrels, rfl⟩ := by
    simpa only [columnSets, OptResult.bind_eq_ok, OptResult.pure_eq_ok] using hm
  have hrels' : m'.relations ids = .ok rels :=
    relations_eq_ok.2 ((relations_eq_ok.1 hrels).imp fun i r => h.relation i r)
  rw [columnSets, hrels']
  rfl

/-- What an operator meets it goes on meeting when the memo grows. -/
theorem Meets.extends (hm : m.Meets key p requires) (h : m.Extends m') :
    m'.Meets key p requires := by
  obtain ⟨op, outs, hop, houts, meets, covers⟩ := hm
  exact ⟨op, outs, hop, columnSets_extends h houts, meets, covers⟩

/-- An operator over groups meets matching properties alike. -/
theorem Meets.congr {q : PhysicalProperty} (hm : m.Meets key p requires)
    (same : (p == q) = true) : m.Meets key q requires := by
  obtain ⟨op, outs, hop, houts, meets, covers⟩ := hm
  exact ⟨op, outs, hop, houts, meets.congr same, covers⟩

/-- A memo that another one has grown into, justified again. -/
structure Grows (m m' : Memo K) : Prop where
  extended : m.Extends m'
  delivering : m'.Delivering

instance : IsTrans (Memo K) Grows where
  trans _ _ _ h h' := ⟨h.extended.trans h'.extended, h'.delivering⟩

/-- A memo of expressions that deliver has grown into itself. -/
theorem Grows.refl (h : m.Delivering) : m.Grows m :=
  ⟨.refl m, h⟩

namespace Delivering

/-- What is new on record has to be justified. -/
theorem grows (h : m.Delivering) (extended : m.Extends m') (filed : m'.Filed)
    (offers : ∀ {place p requires}, m'.Offers place p requires → m.Offers place p requires ∨
      ∃ key, m.key? place = some key ∧ m.Meets key p requires) : m.Grows m' where
  extended := extended
  delivering := by
    refine ⟨filed, fun offered => ?_⟩
    obtain ⟨key, hkey, meets⟩ := (offers offered).elim h.meets id
    exact ⟨key, extended.key _ _ hkey, meets.extends extended⟩

/-- Nothing that is entered is on record. -/
theorem fills (h : m.Delivering) (fills : m.Fills m') : m.Grows m' :=
  h.grows fills.extended fills.filed fun {place _ _} ⟨d, hd, same⟩ =>
    .inl ⟨d, fills.deliveries place ▸ hd, same⟩

/-- Offering what an expression delivers. -/
theorem offer [Quantity K] (h : m.Delivering) {id : ExprId} {d : Delivery K}
    (hkey : m.key? id = some key) (meets : m.Meets key p d.requires) :
    m.Grows (m.offer id p d) := by
  refine h.grows (.ofLike (.offer m id p d)) (h.like (.offer m id p d))
    fun {place q _} offered => ?_
  obtain ⟨d', hd, rfl⟩ := offered
  rw [deliveries_offer hkey] at hd
  split at hd
  · rename_i same
    subst same
    rcases ByProperty.mem_offer hd with old | ⟨rfl, same⟩
    · exact .inl ⟨d', old, rfl⟩
    · exact .inr ⟨key, hkey, meets.congr same⟩
  · exact .inl ⟨d', hd, rfl⟩

/-- A memo without records is justified. -/
theorem of_empty (filed : m.Filed) (deliveries : ∀ id, m.deliveries id = {}) :
    m.Delivering where
  toFiled := filed
  meets {place _ _} := fun ⟨d, hd, _⟩ => by simp [deliveries place] at hd

/-- Nothing is on record at the start of a search. -/
theorem reset (h : m.Delivering) : m.Grows m.reset :=
  ⟨.ofLike (.reset m), .of_empty (h.like (.reset m)) (deliveries_reset m)⟩

end Delivering

end Memo

variable {K : Type} {env : Environment K} {m m' : Memo K}

/-! ### Alternatives of an expression -/

namespace Memo

/-- Whether alternatives are among those that an expression has for a property. -/
def Lists (m : Memo K) (id : ExprId) (required : PhysicalProperty) (as : List Alternative) :
    Prop :=
  ∃ key op outs all, m.key? id = some key ∧ key.operator = .physical op ∧
    m.columnSets key.inputs = .ok outs ∧ op.alternatives required outs = .ok all ∧
    ∀ a ∈ as, a ∈ all

variable {id : ExprId} {required p : PhysicalProperty} {a : Alternative}
  {as : List Alternative}

/-- Alternatives stay listed when the memo grows. -/
theorem Lists.extends (h : m.Lists id required as) (extended : m.Extends m') :
    m'.Lists id required as := by
  obtain ⟨key, op, outs, all, hkey, hop, houts, listed, mem⟩ := h
  exact ⟨key, op, outs, all, extended.key _ _ hkey, hop,
    columnSets_extends extended houts, listed, mem⟩

/-- The alternatives behind the first one are listed. -/
theorem Lists.tail (h : m.Lists id required (a :: as)) : m.Lists id required as := by
  obtain ⟨key, op, outs, all, hkey, hop, houts, listed, mem⟩ := h
  exact ⟨key, op, outs, all, hkey, hop, houts, listed, fun b hb =>
    mem b (List.mem_cons_of_mem a hb)⟩

/-- Whether a list has a requirement for each input of an expression. -/
def Covers (m : Memo K) (id : ExprId) (requires : List PhysicalProperty) : Prop :=
  ∃ key, m.key? id = some key ∧ key.inputs.length ≤ requires.length

/-- Requirements stay covered when the memo grows. -/
theorem Covers.extends {requires : List PhysicalProperty} (h : m.Covers id requires)
    (extended : m.Extends m') : m'.Covers id requires := by
  obtain ⟨key, hkey, length⟩ := h
  exact ⟨key, extended.key _ _ hkey, length⟩

/-- An expression meets what one of its alternatives delivers. -/
theorem Lists.meets (h : m.Lists id required (a :: as)) (covers : m.Covers id a.requires)
    (good : a.delivers.satisfies p = true) :
    ∃ key, m.key? id = some key ∧ m.Meets key p a.requires := by
  obtain ⟨key, op, outs, all, hkey, hop, houts, listed, mem⟩ := h
  obtain ⟨key', hkey', length⟩ := covers
  obtain rfl := Option.some.inj (hkey'.symm.trans hkey)
  exact ⟨key', hkey, op, outs, hop, houts,
    ⟨a.delivers, .alternative listed (mem a (by simp)), good⟩, length⟩

end Memo

/-- Whether the alternatives that an optimization has come to are those of the expression. When
all inputs have been optimized, each of them was required to deliver something. -/
def Progress.Sound (m : Memo K) (id : ExprId) (required : PhysicalProperty) : Progress K → Prop
  | start => True
  | before a rest _ _ | after a rest _ _ => m.Lists id required (a :: rest)
  | complete a rest _ => m.Lists id required (a :: rest) ∧ m.Covers id a.requires

namespace Task

/-- Whether the alternatives that a task is about are those of its expression. -/
def Sound (m : Memo K) : Task K → Prop
  | optimizeInputs id r p => p.Sound m id r.required
  | _ => True

/-- A sound task stays so when the memo grows. -/
theorem Sound.extends {t : Task K} (h : t.Sound m) (extended : m.Extends m') : t.Sound m' := by
  cases t with
  | optimizeInputs id r p =>
    cases p with
    | start => trivial
    | complete a rest cost =>
      obtain ⟨lists, covers⟩ := h
      exact ⟨lists.extends extended, covers.extends extended⟩
    | _ => exact Memo.Lists.extends h extended
  | _ => trivial

/-- A task that starts is sound. -/
theorem Starts.sound {t : Task K} (h : t.Starts) (m : Memo K) : t.Sound m := by
  cases t with
  | optimizeInputs id r p =>
    cases h
    trivial
  | _ => trivial

open Memo MemoM

variable [Quantity K] {id : ExprId} {group : GroupId} {r : Request K}

/-! ### Physical expressions -/

omit [Quantity K] in
/-- An enforcer meets on top of its group what it delivers there. -/
theorem meets_enforcer {e : Enforcer} {key : ExprKey} {delivered p : PhysicalProperty}
    {g : Group K} (hg : m.group group = .ok g)
    (same : (key == ⟨.physical e.operator, [group]⟩) = true) (stands : e.StandsOn delivered)
    (good : e.delivers.satisfies p = true) : m.Meets key p [delivered] := by
  obtain ⟨op, inputs⟩ := key
  have bare := congrArg ExprKey.operator (ExprKey.beq_iff_bare.1 same)
  obtain rfl : inputs = [group] := congrArg ExprKey.inputs (ExprKey.beq_iff_bare.1 same)
  cases op with
  | logical op => cases bare
  | physical op =>
    have columns : m.columnSets [group] = .ok [g.property.output] := by
      simp only [columnSets, relations_eq_ok.2 (.cons (relation?_of_group hg) .nil)]
      rfl
    exact ⟨op, _, rfl, columns,
      stands op (PhysicalOperator.beq_iff_bare.2 (Operator.physical.inj bare))
      _ p good, le_rfl⟩

/-- Enforcers are offered for what they deliver on top of one another. -/
theorem enforce_leads_grows (h : m.Delivering) {required delivered : PhysicalProperty}
    (cost : K) {es : List Enforcer} (chain : Enforcer.Chain required delivered es) :
    (enforce env group required delivered cost es).Leads Grows m fun _ _ => True := by
  induction es generalizing m delivered cost with
  | nil => exact .pure (.refl h) trivial
  | cons e rest ih =>
    obtain ⟨stands, last, others⟩ := chain
    let enforcer : ExprKey := ⟨.physical e.operator, [group]⟩
    have entered : (insertKey env enforcer (some group)).Leads Grows m fun r m' =>
        ∃ k, m'.key? r.1 = some k ∧ (k == enforcer) = true :=
      (h.insertKey enforcer group fun _ => rfl).imp fun _ => h.fills
    refine entered.bind fun ⟨place, isNew⟩ m' grown ⟨key, hkey, same⟩ => ?_
    refine .get_bind (.lift_bind (.refl grown.delivering) fun g hg =>
      .lift_bind (.refl grown.delivering) fun c _ => ?_)
    have meets {p : PhysicalProperty} (good : e.delivers.satisfies p = true) :
        m'.Meets key p [delivered] := meets_enforcer hg same stands good
    have offered := grown.delivering.offer (d := ⟨cost + c, [delivered]⟩) hkey
      (meets (PhysicalProperty.satisfies_refl _))
    refine Leads.bind (.modify offered) fun _ m'' grown' _ => ?_
    cases rest with
    | nil =>
      have again := grown'.delivering.offer (d := ⟨cost + c, [delivered]⟩)
        (grown'.extended.key _ _ hkey) ((meets (last rfl)).extends grown'.extended)
      exact Leads.bind (.modify again) fun _ m₃ grown₃ _ =>
        .pure (.refl grown₃.delivering) trivial
    | cons e' rest => exact ih grown'.delivering _ others

/-- Recording an alternative that is covered keeps what is recorded deliverable. -/
theorem recordWinner_leads_grows (h : m.Delivering) {required : PhysicalProperty}
    {a : Alternative} {rest : List Alternative} (lists : m.Lists id required (a :: rest))
    (covers : m.Covers id a.requires) (cost : K) :
    (recordWinner env id required a cost).Leads Grows m fun _ _ => True := by
  obtain ⟨key, hkey, meets⟩ := lists.meets covers (PhysicalProperty.satisfies_refl _)
  have offered := h.offer (d := ⟨cost, a.requires⟩) hkey meets
  refine Leads.bind (.modify offered) fun _ m' grown _ => ?_
  split
  · rename_i good
    obtain ⟨key, hkey, meets⟩ :=
      (lists.extends grown.extended).meets (covers.extends grown.extended) good
    exact Leads.bind (.modify (grown.delivering.offer (d := ⟨cost, a.requires⟩) hkey meets))
      fun _ m'' grown' _ => .pure (.refl grown'.delivering) trivial
  · exact enforce_leads_grows grown.delivering cost
      (PhysicalProperty.chain_enforcers required a.delivers env.flags)

/-- Going on to the next alternative keeps what is recorded deliverable. -/
theorem nextAlternative_leads_grows (h : m.Delivering) {as : List Alternative}
    (lists : m.Lists id r.required as) :
    (nextAlternative env id r as).Leads Grows m fun ts m' => ∀ t ∈ ts, t.Sound m' := by
  cases as with
  | nil => exact .pure (.refl h) (by simp)
  | cons a rest =>
    refine .get_bind (.lift_bind (.refl h) fun cost _ => .lift_bind (.refl h) fun e he => ?_)
    split
    · rename_i leaf
      refine .pure (.refl h)
        (List.forall_mem_singleton.2 ⟨lists, e.toExprKey, key?_of_expr he, ?_⟩)
      simp [List.isEmpty_iff.1 leaf]
    · exact .pure (.refl h) (List.forall_mem_singleton.2 lists)

/-- A step of an optimization keeps what is recorded deliverable, and its tasks are sound. -/
theorem optimizingInputs_leads_grows (h : m.Delivering) {p : Progress K}
    (sound : p.Sound m id r.required) :
    (optimizingInputs env id r p).Leads Grows m fun ts m' => ∀ t ∈ ts, t.Sound m' := by
  cases p with
  | start =>
    refine .get_bind (.lift_bind (.refl h) fun e he => ?_)
    split
    · exact .throw (.refl h) _
    · rename_i op hop
      exact .lift_bind (.refl h) fun outs houts => .lift_bind (.refl h) fun as has =>
        nextAlternative_leads_grows h
          ⟨e.toExprKey, op, outs, as, key?_of_expr he, hop, houts, has, fun _ ha => ha⟩
  | before a rest input cost =>
    refine .get_bind (.lift_bind (.refl h) fun e _ => .lift_bind (.refl h) fun goal _ => ?_)
    exact .pure (.refl h) (by simpa using ⟨trivial, sound⟩)
  | after a rest input cost =>
    refine .get_bind
      (.lift_bind (.refl h) fun e he => .lift_bind (.refl h) fun goal hgoal => ?_)
    dsimp only
    split
    · exact nextAlternative_leads_grows h sound.tail
    · split
      · rename_i last
        refine .pure (.refl h) (List.forall_mem_singleton.2
          ⟨sound, e.toExprKey, key?_of_expr he, ?_⟩)
        have required : a.requires[input]? = some goal.2 := (inputGoal_eq_ok.1 hgoal).2
        have inside : input < a.requires.length := (List.getElem?_eq_some_iff.1 required).1
        exact Nat.le_trans (Nat.le_of_eq (beq_iff_eq.1 last).symm) inside
      · exact .pure (.refl h) (List.forall_mem_singleton.2 sound)
  | complete a rest cost =>
    obtain ⟨lists, covers⟩ := sound
    simp only [optimizingInputs]
    split
    · exact nextAlternative_leads_grows h lists.tail
    · refine (recordWinner_leads_grows h lists covers cost).bind fun total m' grown _ => ?_
      have lists : m'.Lists id r.required rest := lists.tail.extends grown.extended
      split
      · exact nextAlternative_leads_grows grown.delivering lists
      · exact nextAlternative_leads_grows grown.delivering lists

/-- A task keeps the records justified, and the tasks after it are about alternatives again. -/
theorem run_leads_grows (h : m.Delivering) (rules : RuleSet) {t : Task K} (sound : t.Sound m) :
    (t.run env rules).Leads Grows m fun ts m' => ∀ t ∈ ts, t.Sound m' := by
  have explored (explores : t.Explores) :
      (t.run env rules).Leads Grows m fun ts m' => ∀ t ∈ ts, t.Sound m' :=
    ((run_leads_fills h.toFiled rules explores).imp fun _ => h.fills).mono
      fun ts m' _ starts t ht => (starts t ht).sound m'
  cases t with
  | optimizeInputs id r p => exact optimizingInputs_leads_grows h sound
  | _ => exact explored trivial

end Task

/-! ### Searches -/

namespace Memo

/-- The memo of a plan has no records that are not justified. -/
theorem delivering_of_ofPlan [Quantity K] {p : Plan K} (made : Memo.ofPlan env p = .ok m) :
    m.Delivering := by
  obtain ⟨filed, deliveries, -⟩ := filed_of_ofPlan made
  exact .of_empty filed deliveries

/-- In every state of a search the records are justified, and the tasks are about alternatives
of their expressions. -/
theorem Searched.delivering [Quantity K] {m₀ : Memo K} {tasks : List (Task K)}
    (start : m₀.Delivering) (h : Searched env m₀ m tasks) :
    m.Delivering ∧ ∀ t ∈ tasks, t.Sound m := by
  induction h with
  | start => exact ⟨start, by simp⟩
  | stage _ required ih =>
    exact ⟨ih.1.reset.delivering, List.forall_mem_singleton.2 trivial⟩
  | @task m m' before after next t _ rules run ih =>
    obtain ⟨delivering, sound⟩ := ih
    simp only [List.forall_mem_append, List.forall_mem_cons] at sound ⊢
    obtain ⟨earlier, current, later⟩ := sound
    obtain ⟨grows, named⟩ : (t.run env rules).Leads Grows m fun ts m' => ∀ t ∈
        ts, t.Sound m' :=
      Task.run_leads_grows delivering rules current
    rw [run] at grows named
    exact ⟨grows.delivering,
      ⟨fun t ht => (earlier t ht).extends grows.extended, named next rfl⟩, fun t ht =>
      (later t ht).extends grows.extended⟩
  | @failed m m' before after t e _ rules run ih =>
    obtain ⟨delivering, sound⟩ := ih
    have grows : m.Grows ((t.run env rules).exec m).2 :=
      (Task.run_leads_grows delivering rules (sound t (by simp))).1
    rw [run] at grows
    exact ⟨grows.delivering, by simp⟩

end Memo

/-! ### Plans -/

namespace Plan

/-- The property that a node was chosen for. -/
def delivers? (q : Plan K) : Option PhysicalProperty :=
  q.estimate.map (·.delivers)

/-- The columns of the group that a node was chosen from. -/
def columns (q : Plan K) : ColumnSet :=
  q.estimate.elim .empty (·.relation.property.output)

/-- Whether a node meets the property that it was chosen for if its inputs meet theirs. -/
def Delivers (q : Plan K) : Prop :=
  ∃ op p requires, q.operator = .physical op ∧ q.delivers? = some p ∧
    op.Meets (q.inputs.map columns) p requires ∧
    ∀ (k : Nat) (input : Plan K), q.inputs[k]? = some input → requires[k]? = input.delivers?

end Plan

namespace Memo

/-- Numbering the members of a list numbers each of them, from some number to another. -/
theorem run_mapM_eq_ok {α β : Type} {f : α → StateT Nat OptResult β} {as : List α}
    {bs : List β} {s s' : Nat} (h : (as.mapM f).run s = .ok (bs, s')) :
    List.Forall₂ (fun a b => ∃ s s', (f a).run s = .ok (b, s')) as bs := by
  induction as generalizing bs s with
  | nil =>
    obtain ⟨rfl, -⟩ : bs = [] ∧ s = s' := by simpa using h
    exact .nil
  | cons a as ih =>
    obtain ⟨b, s₁, hb, bs, hbs, rfl⟩ : ∃ b s₁, (f a).run s = .ok (b, s₁) ∧
      ∃ rest, (as.mapM f).run s₁ = .ok (rest, s') ∧ b :: rest = bs := by
        simpa [List.mapM_cons] using h
    exact .cons ⟨s, s₁, hb⟩ (ih hbs)

/-- A plan consists of the winner for its goal and of plans for what that requires. -/
theorem bestPlanBelow_eq_ok {depth : Nat} {above : List Goal} {goal : Goal} {last last' : Nat}
    {plan : Plan K} (read : (m.bestPlanBelow depth above goal).run last = .ok (plan, last')) :
    ∃ depth' w e d g inputs, depth = depth' + 1 ∧ m.bestChoice goal = .ok (w, e, d) ∧
      m.group goal.1 = .ok g ∧
      List.Forall₂ (fun below input => ∃ s s',
        (m.bestPlanBelow depth' (goal :: above) below).run s = .ok (input, s'))
        (e.inputs.zip d.requires) inputs ∧
      plan.operator = e.operator ∧ plan.inputs = inputs ∧
      plan.estimate = some ⟨g.toRelation, goal.2, w.cost⟩ := by
  cases depth with
  | zero =>
    by_cases repeated : above.contains goal = true
    · simp [bestPlanBelow, repeated] at read
    · simp [bestPlanBelow, repeated] at read
  | succ depth =>
    by_cases repeated : above.contains goal = true
    · simp [bestPlanBelow, repeated] at read
    · obtain ⟨w, e, d, choice, inputs, hinputs, g, hg, rfl⟩ := by
        simpa [bestPlanBelow, repeated] using read
      exact ⟨depth, w, e, d, g, inputs, rfl, choice, hg, run_mapM_eq_ok hinputs, rfl, rfl, rfl⟩

/-- The best choice for a goal is the winner with its expression and its delivery. -/
theorem bestChoice_eq_ok {goal : Goal} {w : Winner K} {e : Expr K} {d : Delivery K} :
    m.bestChoice goal = .ok (w, e, d) ↔ m.winner? goal.1 goal.2 = some w ∧
    m.expr w.expr = .ok e ∧
      m.delivery? w.expr goal.2 = some d := by
  obtain ⟨i, p⟩ := goal
  simp only [bestChoice, OptResult.bind_eq_ok]
  constructor
  · rintro ⟨g, hg, found⟩
    split at found
    · cases found
    · rename_i w' hw'
      obtain ⟨e', he', found⟩ := OptResult.bind_eq_ok.1 found
      split at found
      · cases found
      · rename_i d' hd'
        cases OptResult.pure_eq_ok.1 found
        exact ⟨by rw [winner?_eq, winners_of_group hg, hw'], he',
          by rw [delivery?, deliveries_of_expr he', hd']⟩
  · rintro ⟨won, he, delivers⟩
    obtain ⟨g, hg, hw⟩ := Option.bind_eq_some_iff.1 won
    refine ⟨g, group_eq_ok.2 hg, ?_⟩
    rw [delivery?, deliveries_of_expr he] at delivers
    simp [hw, he, delivers]

/-- What an expression was chosen for is on its record. -/
theorem Delivering.meets_of_bestChoice (h : m.Delivering) {goal : Goal} {w : Winner K}
    {e : Expr K} {d : Delivery K} (choice : m.bestChoice goal = .ok (w, e, d)) :
    m.Meets e.toExprKey goal.2 d.requires := by
  obtain ⟨-, he, delivers⟩ := bestChoice_eq_ok.1 choice
  obtain ⟨q, mem, same⟩ := ByProperty.exists_mem_of_get? delivers
  obtain ⟨key, hkey, meets⟩ := h.meets ⟨d, mem, rfl⟩
  obtain rfl := Option.some.inj (hkey.symm.trans (key?_of_expr he))
  exact meets.congr
    (PhysicalProperty.beq_iff_bare.2 (PhysicalProperty.beq_iff_bare.1 same).symm)

/-- The columns and properties of plans that were read off for some goals. -/
theorem inputs_of_goals {ids : List GroupId} {rels : Inputs K}
    (known : List.Forall₂ (fun i r => m.relation? i = some r) ids rels)
    {requires : List PhysicalProperty} (covers : ids.length ≤ requires.length)
    {inputs : List (Plan K)}
    (parts : List.Forall₂ (fun (below : Goal) input => input.delivers? = some below.2 ∧
      ∃ r, m.relation? below.1 = some r ∧ input.columns = r.property.output)
      (ids.zip requires) inputs) :
    inputs.map Plan.columns = rels.map (·.property.output) ∧
      ∀ (k : Nat) (input : Plan K), inputs[k]? = some input →
        requires[k]? = input.delivers? := by
  induction known generalizing requires inputs with
  | nil =>
    cases parts
    simp
  | @cons id r ids rels first _ ih =>
    cases requires with
    | nil => cases covers
    | cons p requires =>
      obtain - | ⟨⟨hp, r', hr', hcolumns⟩, parts⟩ := parts
      obtain rfl := Option.some.inj (hr'.symm.trans first)
      obtain ⟨columns, delivers⟩ := ih (Nat.le_of_succ_le_succ covers) parts
      refine ⟨by rw [List.map_cons, List.map_cons, hcolumns, columns],
        fun k input hinput => ?_⟩
      cases k with
      | zero =>
        obtain rfl := Option.some.inj hinput
        exact hp.symm
      | succ k => exact delivers k input hinput

/-- The nodes of a plan that is read off a justified memo deliver what they were chosen for. -/
theorem bestPlanBelow_delivers (h : m.Delivering) {depth : Nat} {above : List Goal}
    {goal : Goal} {last last' : Nat} {plan : Plan K}
    (read : (m.bestPlanBelow depth above goal).run last = .ok (plan, last')) :
    (∀ q ∈ plan.nodes, q.Delivers) ∧ plan.delivers? = some goal.2 ∧
      ∃ r, m.relation? goal.1 = some r ∧ plan.columns = r.property.output := by
  induction depth generalizing above goal last last' plan with
  | zero =>
    obtain ⟨_, _, _, _, _, _, impossible, -⟩ := bestPlanBelow_eq_ok read
    cases impossible
  | succ depth ih =>
    obtain ⟨_, w, e, d, g, inputs, same, choice, hg, below, hop, hinputs, hestimate⟩ :=
      bestPlanBelow_eq_ok read
    obtain rfl := Nat.succ.inj same
    have parts := below.imp fun _ _ ⟨s, s', read'⟩ => ih read'
    refine ⟨fun q hq => ?_, by simp [Plan.delivers?, hestimate],
      g.toRelation, relation?_of_group hg, by simp [Plan.columns, hestimate]⟩
    rcases Plan.mem_nodes.1 hq with rfl | ⟨c, hc, hqc⟩
    · obtain ⟨op, outs, hop', houts, meets, covers⟩ := h.meets_of_bestChoice choice
      obtain ⟨rels, hrels, rfl⟩ := by
        simpa only [columnSets, OptResult.bind_eq_ok, OptResult.pure_eq_ok] using houts
      obtain ⟨columns, delivers⟩ :=
        inputs_of_goals (relations_eq_ok.1 hrels) covers (parts.imp fun _ _ => And.right)
      rw [← columns, ← hinputs] at meets
      exact ⟨op, goal.2, d.requires,
        hop.trans hop', by simp [Plan.delivers?, hestimate], meets, hinputs ▸ delivers⟩
    · rw [hinputs] at hc
      obtain ⟨good, -⟩ := (List.forall₂_and_left _ _).1 (List.Forall₂.flip parts)
      exact good c hc q hqc

/-- The best plan is read off from the root down. -/
theorem bestPlan_eq_ok {required : PhysicalProperty} {plan : Plan K}
    (read : m.bestPlan required = .ok plan) :
    ∃ last, (m.bestPlanBelow m.winnerCount [] (m.root, required)).run 0 =
      .ok (plan, last) := by
  simpa [bestPlan, StateT.run', StateT.run] using read

/-- A plan that is read off a justified memo was chosen for the required property, and its
nodes deliver what they were chosen for. -/
theorem Delivering.delivers_of_bestPlan (h : m.Delivering) {required : PhysicalProperty}
    {plan : Plan K} (read : m.bestPlan required = .ok plan) :
    plan.delivers? = some required ∧ ∀ q ∈ plan.nodes, q.Delivers := by
  obtain ⟨last, read⟩ := bestPlan_eq_ok read
  obtain ⟨nodes, root, -⟩ := bestPlanBelow_delivers h read
  exact ⟨root, nodes⟩

/-- The nodes of a plan that an optimization with fresh stages returns deliver what
they were chosen for. -/
theorem delivers_of_optimize [Quantity K] (h : m.Delivering) {budget : Nat}
    {required : PhysicalProperty} {stages : List (Stage K)} (new : ∀ s ∈ stages, s.best = none)
    {plan : Plan K} (returned : (optimize env budget required stages m).result = .ok plan) :
    ∀ q ∈ plan.nodes, q.Delivers :=
  of_optimize
    (fun _ ⟨_, _, searched, read⟩ => ((searched.delivering h).1.delivers_of_bestPlan read).2)
    (fun s hs best hbest => by simp [new s hs] at hbest) returned

end Memo

end QueryOptimizer
