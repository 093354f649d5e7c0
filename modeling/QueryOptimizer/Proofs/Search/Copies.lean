import QueryOptimizer.Proofs.Memo.Founding
import QueryOptimizer.Proofs.Search.Ranked
import QueryOptimizer.Proofs.Search.Sizes

/-!
# Copied rows

Rows are copied to all segments by broadcasts, unless every segment has a copy of the
table that they are read from. In a search these cases do not mix: either all
expressions of a group read copies, or none does, because rules keep the kind of the
operator at the root (`Memo.Alike`).

So enforcers in a group lead upwards (`Enforcer.Rises`). Where copies are read, none is ever
made. Elsewhere an expression only delivers copies when copies are required of it. What is
copied has not been copied before, and copies are sorted at most once.

## Main results

* `PhysicalOperator.respects_of_mem_alternatives`: when operators deliver copied rows.
* `PhysicalProperty.rises_enforcers`: enforcers lead upwards.
* `Memo.Reached.staysOrderly`: a search keeps a memo in order. Above all, either all
  expressions of a group read copies or none does.
-/

namespace QueryOptimizer

variable {K : Type} {m m' : Memo K} {base : List LogicalOperator} {n : Nat}

/-! ### Delivering copies -/

/-- A distribution that matches the one of copies is that one. -/
theorem Distribution.eq_replicated_of_beq {d : Distribution} (h : (d == replicated) = true) :
    d = replicated := by
  cases d <;> first | rfl | cases h

/-- Whether copied rows are only delivered if copies are read or if just these copies are
required, in an order that is no other than the required one. -/
def PhysicalProperty.Respects (read : Bool) (required delivered : PhysicalProperty) : Prop :=
  if read then delivered.distribution = .replicated
  else delivered.distribution = .replicated →
    required.distribution = .replicated ∧
    (delivered.order.isEmpty = true ∨ delivered = required)

section Alternatives

variable {required : PhysicalProperty} {outs : List ColumnSet} {as : List Alternative}
  {a : Alternative}

/-- A join by broadcasting or gathering delivers no copies unless they are required. -/
theorem respects_of_mem_broadcastOrGather (listed : broadcastOrGather required outs = .ok as)
    (mem : a ∈ as) : required.Respects false a.delivers := by
  obtain ⟨produced, -, listed⟩ := OptResult.bind_eq_ok.1 listed
  obtain rfl := Except.ok.inj listed
  intro copies
  rcases List.mem_cons.1 mem with rfl | mem
  · refine ⟨?_, .inl rfl⟩
    cases produced with
    | true => exact copies
    | false => cases copies
  · obtain rfl := List.mem_singleton.1 mem
    cases copies

/-- An operator that passes its input on delivers no copies unless they are required. -/
theorem respects_of_mem_passThrough (listed : passThrough required outs = .ok as)
    (mem : a ∈ as) : required.Respects false a.delivers := by
  obtain ⟨produced, -, listed⟩ := OptResult.bind_eq_ok.1 listed
  split at listed
  · obtain rfl := Except.ok.inj listed
    obtain rfl := List.mem_singleton.1 mem
    exact fun copies => ⟨copies, .inr rfl⟩
  · obtain rfl := Except.ok.inj listed
    obtain rfl := List.mem_singleton.1 mem
    intro copies
    cases copies

/-- A leaf delivers copies only if it reads them or they are required. -/
theorem respects_leaf (d : Distribution) :
    required.Respects (d == .replicated) (Alternative.leaf d).delivers := by
  unfold PhysicalProperty.Respects
  split
  · rename_i copies
    exact Distribution.eq_replicated_of_beq copies
  · rename_i none
    intro copies
    exact absurd (by rw [show d = .replicated from copies]; rfl) none

/-- What an operator delivers respects what is required, unless it is an enforcer. -/
theorem PhysicalOperator.respects_of_mem_alternatives {op : PhysicalOperator}
    (plain : op.isEnforcer = false) (listed : op.alternatives required outs = .ok as)
    (mem : a ∈ as) : required.Respects (Operator.physical op).readsCopies a.delivers := by
  cases op with
  | sort | motion => cases plain
  | filter | compute => exact respects_of_mem_passThrough listed mem
  | nestedLoopJoin | indexNestedLoopJoin => exact respects_of_mem_broadcastOrGather listed mem
  | hashJoin j =>
    obtain ⟨first, hfirst, second, hsecond, rfl⟩ := by
      simpa only [alternatives, OptResult.bind_eq_ok, OptResult.pure_eq_ok] using listed
    rcases List.mem_append.1 mem with mem | mem
    · obtain ⟨left, -, hfirst⟩ := OptResult.bind_eq_ok.1 hfirst
      obtain ⟨right, -, hfirst⟩ := OptResult.bind_eq_ok.1 hfirst
      dsimp only at hfirst
      split at hfirst
      · obtain rfl := Except.ok.inj hfirst
        cases mem
      · obtain rfl := Except.ok.inj hfirst
        obtain rfl := List.mem_singleton.1 mem
        intro copies
        cases copies
    · exact respects_of_mem_broadcastOrGather hsecond mem
  | tableScan | dynamicTableScan =>
    obtain rfl := Except.ok.inj listed
    obtain rfl := List.mem_singleton.1 mem
    exact respects_leaf _
  | hashAggregate g =>
    obtain rfl := Except.ok.inj listed
    intro copies
    rcases List.mem_cons.1 mem with rfl | mem
    · cases copies
    · split at mem
      · cases mem
      · obtain rfl := List.mem_singleton.1 mem
        cases copies
  | unionAll s | hashSetOp s =>
    obtain rfl := Except.ok.inj listed
    intro copies
    rcases List.mem_cons.1 mem with rfl | mem
    · cases copies
    · obtain rfl := List.mem_singleton.1 mem
      cases copies
  | limit | valuesScan | sequence | cteProducer | cteConsumer =>
    obtain rfl := Except.ok.inj listed
    obtain rfl := List.mem_singleton.1 mem
    intro copies
    cases copies

end Alternatives

/-! ### Enforcers -/

namespace Enforcer

/-- Whether an enforcer sends all rows to every segment. -/
def Broadcasts (e : Enforcer) : Prop :=
  ∃ m, e.operator = .motion m ∧ m.kind = .broadcast

/-- Whether each enforcer delivers something of a higher level than what it stands
on, or both are of level zero and it does not broadcast. The last one is on the level
of what is required. -/
def Rises (read : Bool) (required : PhysicalProperty) : PhysicalProperty → List Enforcer → Prop
  | _, [] => True
  | below, e :: es =>
    (below.level read < e.delivers.level read ∨
      below.level read = 0 ∧ e.delivers.level read = 0 ∧ ¬e.Broadcasts) ∧
    (es = [] → e.delivers.level read = required.level read) ∧ Rises read required e.delivers es

end Enforcer

namespace PhysicalProperty

variable {read : Bool} {required delivered : PhysicalProperty}

/-- What delivers no copies is on the lowest level. -/
theorem level_eq_zero (elsewhere : delivered.distribution ≠ .replicated) :
    delivered.level read = 0 := by
  have other : (delivered.distribution == .replicated) = false :=
    Bool.eq_false_iff.2 (mt Distribution.eq_replicated_of_beq elsewhere)
  simp [level, other]

/-- The level of copies is a matter of whether they are sorted. -/
theorem level_of_copies (copies : delivered.distribution = .replicated) :
    delivered.level false = if delivered.order.isEmpty then 1 else 2 := by
  have same : (Distribution.replicated == Distribution.replicated) = true := rfl
  simp [level, copies, same]

/-- Only copied rows are good enough where copies are required. -/
theorem eq_replicated_of_satisfies {d : Distribution} (good : d.satisfies .replicated = true) :
    d = .replicated := by
  cases d <;> first | rfl | cases good

/-- A sort of copied rows is on the second level. -/
theorem rises_sortEnforcers
    (good : delivered.distribution.satisfies required.distribution = true)
    (respects : read = false → required.Respects false delivered) :
    Enforcer.Rises read required delivered (required.sortEnforcers delivered) := by
  unfold sortEnforcers
  split
  · trivial
  rename_i unsorted
  have calm : ¬Enforcer.Broadcasts
      ⟨.sort required.order, { delivered with order := required.order }⟩ := by
    rintro ⟨m, same, -⟩
    cases same
  cases read with
  | true => exact ⟨.inr ⟨rfl, rfl, calm⟩, fun _ => rfl, trivial⟩
  | false =>
    by_cases copies : delivered.distribution = .replicated
    · obtain ⟨required', order⟩ := respects rfl copies
      have empty : delivered.order.isEmpty = true := by
        refine order.resolve_right fun same => unsorted ?_
        rw [same]
        exact SortOrder.satisfies_refl _
      have occupied : required.order.isEmpty = false := by
        refine Bool.eq_false_iff.2 fun none => unsorted ?_
        rw [SortOrder.isEmpty, List.isEmpty_iff] at none
        simp [SortOrder.satisfies, none]
      refine ⟨.inl ?_, fun _ => ?_, trivial⟩
      · rw [level_of_copies copies, level_of_copies (by exact copies), empty, occupied]
        exact Nat.one_lt_two
      · rw [level_of_copies (by exact copies), level_of_copies required']
    · have other : required.distribution ≠ .replicated := fun same =>
        copies (eq_replicated_of_satisfies (same ▸ good))
      refine ⟨.inr ⟨level_eq_zero copies, level_eq_zero copies, calm⟩, fun _ => ?_, trivial⟩
      rw [level_eq_zero other]
      exact level_eq_zero copies

/-- Enforcers lead upwards from what respects a requirement. -/
theorem rises_enforcers (respects : required.Respects read delivered) (flags : TraceFlags) :
    Enforcer.Rises read required delivered (required.enforcers delivered flags) := by
  unfold enforcers
  split
  · rename_i good
    exact rises_sortEnforcers good fun unread => by subst unread; exact respects
  rename_i bad
  cases found : required.distribution.motion? flags with
  | none => trivial
  | some motion =>
    have moved : Enforcer.Rises read required (ofDistribution required.distribution)
        (required.sortEnforcers (ofDistribution required.distribution)) :=
      rises_sortEnforcers (Distribution.satisfies_refl _) fun _ copies => ⟨copies, .inl rfl⟩
    refine ⟨?_, fun last => ?_, moved⟩
    · have broadcasts
        (copied : Enforcer.Broadcasts ⟨.motion motion, ofDistribution required.distribution⟩) :
          required.distribution = .replicated := by
        obtain ⟨motion', same, kind⟩ := copied
        cases same
        rw [← target_of_motion? found]
        unfold Motion.kind at kind
        split at kind <;> first | assumption | cases kind
      cases read with
      | true =>
        refine .inr ⟨rfl, rfl, fun copied => bad ?_⟩
        have copies : delivered.distribution = .replicated := respects
        rw [copies, broadcasts copied]
        rfl
      | false =>
        have elsewhere : delivered.distribution ≠ .replicated := fun copies =>
          bad (by rw [copies, (respects copies).1]; rfl)
        rw [level_eq_zero elsewhere]
        by_cases copied : required.distribution = .replicated
        · refine .inl ?_
          rw [level_of_copies (by exact copied)]
          exact Nat.one_pos
        · exact .inr ⟨rfl, level_eq_zero copied, fun h => copied (broadcasts h)⟩
    · unfold sortEnforcers at last
      split at last
      · rename_i sorted
        have empty : required.order.isEmpty = true := by
          rw [SortOrder.isEmpty, List.isEmpty_iff_length_eq_zero]
          simpa [ofDistribution, SortOrder.satisfies] using sorted
        have same : (ofDistribution required.distribution).order.isEmpty =
            required.order.isEmpty :=
          empty.symm
        simp only [level, same]
        rfl
      · cases last

end PhysicalProperty

/-! ### Groups that read copies -/

/-- A rule does not make an operator read copies, nor keep it from that. -/
theorem RuleId.Rewrites.readsCopies {r : RuleId} {k : ExprKey} {t : ExprTree}
    (rewrites : r.Rewrites m k t) :
    k.operator.isEnforcer = false ∧
      ∃ op ts, t = .operator op ts ∧ op.readsCopies = k.operator.readsCopies := by
  cases rewrites with
  | implement implements =>
    refine ⟨rfl, _, _, rfl, ?_⟩
    unfold RuleId.physical? at implements
    split at implements
    all_goals (try split at implements) <;> first | (cases implements; rfl) | cases implements
  | _ => exact ⟨rfl, _, _, rfl, rfl⟩

namespace Memo

/-- Whether all expressions of a group read copies, or none does, apart from enforcers. -/
def Alike (m : Memo K) : Prop :=
  ∀ place key, m.key? place = some key → key.operator.isEnforcer = false →
    key.operator.readsCopies = m.readsCopies place.group

namespace Alike

/-- In the empty memo all expressions of a group read copies alike. -/
theorem empty : ({} : Memo K).Alike :=
  fun _ _ hk => by simp [key?] at hk

/-- Memos with the same expressions read copies alike or not together. -/
theorem of_keys (h : m.Alike) (keys : ∀ i, m'.key? i = m.key? i) : m'.Alike := by
  intro place key hk plain
  rw [keys] at hk
  rw [h _ _ hk plain, readsCopies, readsCopies, keys]

/-- Truncation leaves expressions of a group that read copies alike. -/
theorem truncate (h : m.Alike) (count : Nat) : (m.truncate count).Alike := by
  intro place key hk plain
  rw [key?_truncate] at hk
  split at hk
  · rename_i inside
    rw [h _ _ hk plain, readsCopies, readsCopies, key?_truncate, if_pos inside]
  · cases hk

variable {place : ExprId} {key : ExprKey}

/-- A new expression that reads copies as its group does keeps the expressions alike. -/
theorem addExpr (h : m.Alike) (coherent : m.Coherent) {id : GroupId}
    (added : m.addExpr id key = .ok (m', place))
    (same : key.operator.isEnforcer = false → key.operator.readsCopies = m.readsCopies id) :
    m'.Alike := by
  have group {i : GroupId} (inside : i < m.groups.size) : m'.readsCopies i = m.readsCopies i :=
    readsCopies_extends coherent (.addExpr added) inside
  intro i k hk plain
  rw [key?_addExpr added] at hk
  split at hk
  · rename_i new
    obtain rfl := Option.some.inj hk
    obtain ⟨g, hg, -⟩ := addExpr_eq_ok added
    rw [same plain, new, group_of_addExpr added, group (Array.getElem?_eq_some_iff.1 hg).1]
  · rw [h _ _ hk plain, group (lt_of_key? hk)]

/-- The first expression of a new group is alike to itself. -/
theorem startGroup (h : m.Alike) (coherent : m.Coherent) {op : LogicalOperator}
    {ids : List GroupId} {relation : Relation K} (below : ∀ i ∈ ids, i < m.groups.size)
    (added : (m.addGroup op relation).addExpr m.groups.size ⟨.logical op, ids⟩ =
      .ok (m', place)) : m'.Alike := by
  have extended : m.Extends m' := .startGroup m op relation below added
  have start : place = ⟨m.groups.size, 0⟩ := place_of_startGroup m op relation added
  intro i k hk plain
  rw [key?_addExpr added, key?_addGroup] at hk
  split at hk
  · rename_i new
    obtain rfl := Option.some.inj hk
    have first : m'.key? ⟨m.groups.size, 0⟩ = some ⟨.logical op, ids⟩ := by
      rw [key?_addExpr added, if_pos start.symm]
    rw [new, start, readsCopies, first]
    rfl
  · rw [h _ _ hk plain, readsCopies_extends coherent extended (lt_of_key? hk)]

end Alike

/-! ### Entering trees -/

/-- A coherent memo that another one has grown into, in which the expressions of
a group are alike. -/
structure StaysAlike (m m' : Memo K) : Prop where
  extended : m.Extends m'
  coherent : m'.Coherent
  alike : m'.Alike

variable [Quantity K] {env : Environment K}

/-- Loading a plan leaves expressions of a group that read copies alike. -/
theorem loadRelation_staysAlike : LoadRelation env (StaysAlike (K := K)) where
  trans _ _ _ h h' := ⟨h.extended.trans h'.extended, h'.coherent, h'.alike⟩
  self h := ⟨.refl _, h.coherent, h.alike⟩
  startKey {m} key h := by
    unfold MemoM.Leads
    obtain ⟨_, -, run⟩ | ⟨_, run⟩ | ⟨op, ids, rels, r, _, _, rfl, new, hrels, -, added, run⟩ :=
      insertKey_none_cases env key m
    · rw [run]
      exact ⟨h, fun _ _ => trivial⟩
    · rw [run]
      exact ⟨h, fun _ _ => trivial⟩
    · have below : ∀ i ∈ ids, i < m.groups.size := fun i hi => lt_of_relations hrels hi
      rw [run]
      exact ⟨⟨.startGroup m op r below added, h.coherent.startGroup new below added,
        h.alike.startGroup h.coherent below added⟩, fun _ _ => trivial⟩

namespace Alike

/-- Entering an expression into a group. -/
theorem insertKey (h : m.Alike) (coherent : m.Coherent) {key : ExprKey} {id : GroupId}
    (same : key.operator.isEnforcer = false → key.operator.readsCopies = m.readsCopies id) :
    (Memo.insertKey env key (some id)).Leads (fun _ m' => m'.Alike) m fun _ _ => True := by
  refine ⟨?_, fun _ _ => trivial⟩
  rw [exec_insertKey_some]
  split
  · exact h
  · split
    · rename_i added
      exact h.addExpr coherent added same
    · exact h

/-- Entering a tree into a group, if the root reads copies when the group does. -/
theorem insertTree (h : m.Alike) (coherent : m.Coherent) {op : Operator} {ts : List ExprTree}
    {id : GroupId} (there : id < m.groups.size) (same : op.readsCopies = m.readsCopies id) :
    (Memo.insertTree env (.operator op ts) (some id)).Leads
      (fun _ m' => m'.Alike) m fun _ _ => True := by
  refine ⟨?_, fun _ _ => trivial⟩
  obtain ⟨stays, -⟩ : (Memo.insertInputs env ts).Leads StaysAlike m fun _ _ => True :=
    loadRelation_staysAlike.insertInputs ts ⟨.refl m, coherent, h⟩
  simp only [Memo.insertTree, Memo.insertNode, MemoM.exec_bind, MemoM.exec_get,
    MemoM.exec_tryCatch]
  rcases run : (Memo.insertInputs env ts).exec m with ⟨e | ids, m'⟩
  · rw [run] at stays
    exact stays.alike.truncate _
  · rw [run] at stays
    have same' : op.readsCopies = m'.readsCopies id :=
      same.trans (readsCopies_extends coherent stays.extended there).symm
    obtain ⟨alike, -⟩ :
        (Memo.insertKey env ⟨op, ids⟩ (some id)).Leads (fun _ m' => m'.Alike) m'
        fun _ _ => True :=
      stays.alike.insertKey stays.coherent fun _ => same'
    simp only
    rcases run' : (Memo.insertKey env ⟨op, ids⟩ (some id)).exec m' with ⟨e | r, m''⟩
    · rw [run'] at alike
      exact alike.truncate _
    · rw [run'] at alike
      exact alike

end Alike

/-! ### Plans and searches -/

/-- A ranked memo with sized statistics in which the expressions of a group are alike. -/
structure Orderly (base : List LogicalOperator) (n : Nat) (m : Memo K) :
    Prop extends m.Ranked base n where
  sized : m.Sized
  alike : m.Alike

/-- A memo in order that another one has grown into. -/
structure StaysOrderly (base : List LogicalOperator) (n : Nat) (m m' : Memo K) : Prop where
  extended : m.Extends m'
  orderly : m'.Orderly base n

/-- Bookkeeping keeps a memo orderly. -/
theorem Orderly.like (h : m.Orderly base n) (like : m.Like m') : m'.Orderly base n :=
  ⟨h.toRanked.like like, h.sized.like like, h.alike.of_keys like.key⟩

/-- Entering what a rule makes of a binding. -/
theorem Orderly.insertRewriting (h : m.Orderly base n) {id : ExprId} {rule : RuleId}
    {t t' : ExprTree} (root : t.rootGroup = .ok id.group) (binds : m.Binds rule.pattern t)
    (made : rule.apply m t = .ok (some t')) :
    (Memo.insertTree env t' (some id.group)).Leads
      (fun _ m' => m'.Alike) m fun _ _ => True := by
  obtain ⟨place, ts, k, rfl, known, rewrites⟩ := RuleId.rewrites_of_apply binds made
  have same : place.group = id.group := Except.ok.inj root
  obtain ⟨plain, op, parts, rfl, reads⟩ := rewrites.readsCopies
  rw [← same]
  exact h.alike.insertTree h.toCoherent (lt_of_key? known)
    (reads.trans (h.alike _ _ known plain))

/-- Steps of a search keep a memo orderly. -/
theorem stepRelation_staysOrderly [OrderedQuantity K] (base : List LogicalOperator) (n : Nat) :
    StepRelation env (StaysOrderly (K := K) base n) where
  trans _ _ _ h h' := ⟨h.extended.trans h'.extended, h'.orderly⟩
  self h := ⟨.refl _, h.orderly⟩
  extended h := h.extended
  like h like := ⟨.ofLike like, h.orderly.like like⟩
  tree {m id rule t t'} h inside root binds made := by
    have orderly : m.Orderly base n := h.orderly
    obtain ⟨ranked, -⟩ : (Memo.insertTree env t' (some id.group)).Leads (StaysRanked base n) m
        fun _ _ => True :=
      (stepRelation_staysRanked base n).tree ⟨.refl m, orderly.toRanked⟩ inside root binds made
    obtain ⟨related, -⟩ := (stepRelation_staysRelated (handsOn_sized env)).tree
      ⟨.refl m, orderly.toFiled, orderly.sized⟩ inside root binds made
    obtain ⟨alike, -⟩ : (Memo.insertTree env t' (some id.group)).Leads (fun _ m' => m'.Alike) m
        fun _ _ => True := orderly.insertRewriting root binds made
    exact ⟨⟨ranked.extended, ranked.ranked, related.relates, alike⟩, fun _ _ => trivial⟩
  enforcer {m op group} h enforces := by
    have orderly : m.Orderly base n := h.orderly
    let key : ExprKey := ⟨.physical op, [group]⟩
    obtain ⟨ranked, -⟩ : (Memo.insertKey env key (some group)).Leads (StaysRanked base n) m
        fun _ _ => True :=
      (stepRelation_staysRanked base n).enforcer ⟨.refl m, orderly.toRanked⟩ enforces
    obtain ⟨related, -⟩ : (Memo.insertKey env key (some group)).Leads (StaysRelated _) m
        fun _ _ => True :=
      (stepRelation_staysRelated (handsOn_sized env)).enforcer
        ⟨.refl m, orderly.toFiled, orderly.sized⟩ enforces
    obtain ⟨alike, -⟩ : (Memo.insertKey env key (some group)).Leads (fun _ m' => m'.Alike) m
        fun _ _ => True :=
      orderly.alike.insertKey orderly.toCoherent fun plain =>
        absurd enforces (Bool.eq_false_iff.1 plain)
    exact ⟨⟨ranked.extended, ranked.ranked, related.relates, alike⟩, fun _ _ => trivial⟩

/-- A search keeps a memo in order. -/
theorem Reached.staysOrderly [OrderedQuantity K] (h : m.Orderly base n)
    (reached : Reached env m m') : StaysOrderly base n m m' :=
  reached.of_steps (stepRelation_staysOrderly base n) ⟨.refl m, h⟩

/-- The memo of a well-formed plan is in order. -/
theorem exists_orderly_of_ofPlan [OrderedQuantity K] {plan : Plan K} (wf : plan.WellFormed)
    (made : Memo.ofPlan env plan = .ok m) : ∃ n, m.Orderly plan.operators n := by
  obtain ⟨n, ranked⟩ := exists_ranked_of_ofPlan wf made
  obtain ⟨group, m', stays, rfl⟩ :=
    loadRelation_staysAlike.of_ofPlan ⟨.refl _, .empty, .empty⟩ made
  exact ⟨n, ranked, .of_ofPlan (handsOn_sized env) made, stays.alike⟩

end Memo

end QueryOptimizer
