import QueryOptimizer.Proofs.Memo.Marks
import QueryOptimizer.Proofs.Memo.Rank

/-!
# What rules add to a ranked memo

A rule makes a tree that weighs as much as the group that it is entered into, and the
operators in it are in the vocabulary of the search. So ranked memos stay ranked. Only the
rules about limits make limits, and these stand on groups that rank below the input of the
limit that the rule was applied to.

## Main results

* `RuleId.Rewrites.fits`: what a rule makes can be entered into a ranked memo.
* `Memo.Ranked.insertRewriting`: entering it keeps the memo ranked, also when it fails halfway.
-/

namespace QueryOptimizer

variable {K : Type} {m m' : Memo K} {base : List LogicalOperator} {n : Nat} {c : ℕ ×ₗ ℕ}

/-! ### Trees that fit -/

/-- Whether a tree can be entered into a ranked memo so that inputs of limits
rank below `c`. -/
inductive ExprTree.Fits (base : List LogicalOperator) (n : Nat) (m : Memo K) (c : ℕ ×ₗ ℕ) :
    ExprTree → Prop
  | group {id : GroupId} (inside : id < m.groups.size) : Fits base n m c (.group id)
  | operator {op : LogicalOperator} {ts : List ExprTree} (coined : op.Coined base n)
      (plain : op.isLimit = false) (saturated : ts.length = op.arity)
      (below : ∀ t ∈ ts, Fits base n m c t) : Fits base n m c (.operator (.logical op) ts)
  | limit {l : Limit} {id : GroupId} (inside : id < m.groups.size) (low : m.rank id < c) :
      Fits base n m c (.operator (.logical (.limit l)) [.group id])

namespace Memo

/-- A ranked memo that expressions have been added to. The new limits stand on groups
that rank below `c`. -/
structure Grafts (base : List LogicalOperator) (n : Nat) (c : ℕ ×ₗ ℕ) (m m' : Memo K) :
    Prop where
  extended : m.Extends m'
  ranked : m'.Ranked base n
  marks : ∀ place, m'.marks place = m.marks place
  limits : ∀ {place l ids}, m'.key? place = some ⟨.logical (.limit l), ids⟩ →
    m.key? place = none → ∀ i ∈ ids, m'.rank i < c

/-- A ranked memo has been grafted onto with nothing. -/
theorem Grafts.refl (h : m.Ranked base n) : Grafts base n c m m :=
  ⟨.refl m, h, fun _ => rfl, fun hk new => by rw [hk] at new; cases new⟩

instance : IsTrans (Memo K) (Grafts base n c) where
  trans m m' m'' h h' := by
    refine ⟨h.extended.trans h'.extended, h'.ranked, fun place =>
      (h'.marks place).trans (h.marks place), fun {place l ids} hk new i hi => ?_⟩
    cases known : m'.key? place with
    | none => exact h'.limits hk known i hi
    | some k =>
      obtain rfl := Option.some.inj ((h'.extended.key _ _ known).symm.trans hk)
      rw [h.ranked.rank_extends h'.extended (h.ranked.inputs known i hi)]
      exact h.limits known new i hi

end Memo

/-- A tree that fits goes on fitting when others are grafted. -/
theorem ExprTree.Fits.grafts (h : m.Ranked base n) (grafts : m.Grafts base n c m')
    {t : ExprTree} (fits : t.Fits base n m c) : t.Fits base n m' c := by
  induction fits with
  | group inside => exact .group (Nat.lt_of_lt_of_le inside grafts.extended.size_le)
  | operator coined plain saturated _ ih => exact .operator coined plain saturated ih
  | limit inside low =>
    refine .limit (Nat.lt_of_lt_of_le inside grafts.extended.size_le) ?_
    rwa [h.rank_extends grafts.extended inside]

/-- Groups keep their weights. -/
theorem ExprTree.Fits.weight_grafts (h : m.Ranked base n) (grafts : m.Grafts base n c m')
    {t : ExprTree} (fits : t.Fits base n m c) : t.weight m'.weight = t.weight m.weight := by
  induction fits with
  | group inside => exact h.weight_extends grafts.extended inside
  | operator _ _ _ _ ih => rw [weight, weight, weights_congr ih]
  | limit inside =>
    simp only [weight, weights]
    rw [h.weight_extends grafts.extended inside]

namespace Memo

variable [Quantity K] {env : Environment K}

namespace Ranked

/-- Entering a logical expression into a group of its own. -/
theorem startKey (h : m.Ranked base n) {op : LogicalOperator} {ids : List GroupId}
    (below : ∀ i ∈ ids, i < m.groups.size) (saturated : ids.length = op.arity)
    (coined : op.Coined base n) (light : op.weight + (ids.map m.weight).sum ≤ n)
    (low : op.isLimit = true → ∀ i ∈ ids, m.rank i < c) :
    (Memo.insertKey env ⟨.logical op, ids⟩ none).Leads (Grafts base n c) m fun r m' =>
      r.1.group < m'.groups.size ∧
        m'.weight r.1.group = op.weight + (ids.map m.weight).sum := by
  unfold MemoM.Leads
  obtain ⟨place, found, run⟩ | ⟨e, run⟩ | ⟨op', ids', rels, relation, m', place, same,
    new, -, -, added, run⟩ := insertKey_none_cases env ⟨.logical op, ids⟩ m
  · rw [run]
    refine ⟨.refl h, fun r hr => ?_⟩
    obtain rfl := Except.ok.inj hr
    obtain ⟨⟨op' | op', ids'⟩, hk, same⟩ := h.index found
    · obtain ⟨equal, rfl⟩ := ExprKey.beq_iff.1 same
      exact ⟨lt_of_key? hk,
        (h.weighs hk).trans (congrArg (· + _) (LogicalOperator.weight_eq_of_beq equal))⟩
    · cases (ExprKey.beq_iff.1 same).1
  · rw [run]
    exact ⟨.refl h, fun r hr => by cases hr⟩
  · cases same
    have extended : m.Extends m' := .startGroup m op relation below added
    obtain ⟨ranked, rank⟩ := h.startGroup new below saturated coined light added
    have start : place = ⟨m.groups.size, 0⟩ := place_of_startGroup m op relation added
    rw [run]
    refine ⟨⟨extended, ranked, fun i => ?_,
      fun {i l js} hk notThere j hj => ?_⟩, fun r hr => ?_⟩
    · rw [marks_addExpr added, marks_addGroup]
    · rw [key?_addExpr added, key?_addGroup, notThere] at hk
      split at hk
      · cases hk
        rw [h.rank_extends extended (below j hj)]
        exact low rfl j hj
      · cases hk
    · obtain rfl := Except.ok.inj hr
      rw [start, Memo.weight, rank, Operator.fst_rankOver, List.map_map]
      refine ⟨?_, rfl⟩
      rw [size_addExpr added, size_addGroup]
      exact Nat.lt_succ_self _

/-- Entering an expression that ranks as high as a group into the group. -/
theorem insertKey (h : m.Ranked base n) {key : ExprKey} {id : GroupId}
    (inside : ∀ i ∈ key.inputs, i < m.groups.size)
    (enforcer : key.operator.isEnforcer = true → key.inputs = [id]) (saturated : key.Saturated)
    (descends : key.operator.isEnforcer = false → ∀ i ∈ key.inputs, m.rank i < m.rank id)
    (logical : ∀ op, key.operator = .logical op → op.Coined base n ∧
      m.weight id = op.weight + (key.inputs.map m.weight).sum)
    (low : ∀ l, key.operator = .logical (.limit l) → ∀ i ∈ key.inputs, m.rank i < c) :
    (Memo.insertKey env key (some id)).Leads (Grafts base n c) m fun _ _ => True := by
  refine ⟨?_, fun _ _ => trivial⟩
  rw [exec_insertKey_some]
  cases found : m.index[key]? with
  | some place => exact .refl h
  | none =>
    cases added : m.addExpr id key with
    | error e => exact .refl h
    | ok r =>
      obtain ⟨m', place⟩ := r
      have ranked : m'.Ranked base n :=
        h.addExpr found added inside enforcer saturated descends logical
      refine ⟨.addExpr added, ranked, marks_addExpr added, fun {i l js} hk notThere j hj => ?_⟩
      rw [key?_addExpr added, notThere] at hk
      split at hk
      · obtain rfl := Option.some.inj hk
        rw [h.rank_extends (.addExpr added) (inside j hj)]
        exact low l rfl j hj
      · cases hk

/-! ### Trees -/

/-- A tree is entered below another one: the inputs first, then the root into a
group of its own. -/
theorem insertInputs_cons (h : m.Ranked base n) {t : ExprTree} {ts : List ExprTree}
    (fits : ∀ u ∈ ts, u.Fits base n m c) (light : ExprTree.weights m.weight ts ≤ n)
    (node : (Memo.insertNode env none t).Leads (Grafts base n c) m fun r m' =>
      r.1.group < m'.groups.size ∧ m'.weight r.1.group = t.weight m.weight)
    (rest : ∀ {m' : Memo K}, m'.Ranked base n → (∀ u ∈ ts, u.Fits base n m' c) →
      ExprTree.weights m'.weight ts ≤ n →
      (Memo.insertInputs env ts).Leads (Grafts base n c) m' fun ids m'' =>
        (∀ i ∈ ids, i < m''.groups.size) ∧ ids.length = ts.length ∧
          (ids.map m''.weight).sum = ExprTree.weights m'.weight ts) :
    MemoM.Leads (Grafts base n c) m (do
        let (place, _) ← Memo.insertNode env none t
        return place.group :: (← Memo.insertInputs env ts))
      fun ids m' => (∀ i ∈ ids, i < m'.groups.size) ∧ ids.length = (t :: ts).length ∧
        (ids.map m'.weight).sum = ExprTree.weights m.weight (t :: ts) := by
  refine node.bind fun r m' grafts ⟨inside, weight⟩ => ?_
  have same : ExprTree.weights m'.weight ts = ExprTree.weights m.weight ts :=
    ExprTree.weights_congr fun u hu => (fits u hu).weight_grafts h grafts
  refine (rest grafts.ranked (fun u hu => (fits u hu).grafts h grafts) (same ▸ light)).bind
    fun ids m'' grafts' ⟨others, length, weights⟩ => .pure (.refl grafts'.ranked) ?_
  refine ⟨List.forall_mem_cons.2 ⟨Nat.lt_of_lt_of_le inside grafts'.extended.size_le, others⟩,
    congrArg Nat.succ length, ?_⟩
  rw [List.map_cons, List.sum_cons, weights, same, ExprTree.weights,
    grafts.ranked.weight_extends grafts'.extended inside, weight]

mutual

/-- Entering a tree that fits into a group of its own. -/
theorem insertNode : ∀ (t : ExprTree) {m : Memo K}, m.Ranked base n → t.Fits base n m c →
    t.weight m.weight ≤ n → (Memo.insertNode env none t).Leads (Grafts base n c) m fun r m' =>
      r.1.group < m'.groups.size ∧ m'.weight r.1.group = t.weight m.weight
  | .group id, _, h, _, _ => .throw (.refl h) (.groupNotInsertable id)
  | .operator op ts, m, h, fits, light => by
    cases fits with
    | @operator op _ coined plain saturated below =>
      have lighter : ExprTree.weights m.weight ts ≤ n :=
        Nat.le_trans (Nat.le_add_left _ _) light
      refine (insertInputs ts h below lighter).bind fun ids m' grafts
        ⟨inside, length, weights⟩ => ?_
      refine (grafts.ranked.startKey inside (length.trans saturated) coined
        (weights ▸ light) fun limited => ?_).mono fun r m'' _ ⟨there, weight⟩ => ⟨there, ?_⟩
      · rw [plain] at limited
        cases limited
      · rw [weight, weights]
        rfl
    | @limit l id inside low =>
      have single : Memo.insertInputs env [.group id] = (pure [id] : MemoM K (List GroupId)) :=
        rfl
      rw [Memo.insertNode, single, pure_bind]
      refine (h.startKey (List.forall_mem_singleton.2 inside) rfl (.limit l) light fun _ =>
        List.forall_mem_singleton.2 low).mono fun r m' _ ⟨there, weight⟩ => ⟨there, weight⟩

/-- Entering trees that fit, each into a group of its own. -/
theorem insertInputs : ∀ (ts : List ExprTree) {m : Memo K}, m.Ranked base n →
    (∀ t ∈ ts, t.Fits base n m c) → ExprTree.weights m.weight ts ≤ n →
    (Memo.insertInputs env ts).Leads (Grafts base n c) m fun ids m' =>
      (∀ i ∈ ids, i < m'.groups.size) ∧ ids.length = ts.length ∧
        (ids.map m'.weight).sum = ExprTree.weights m.weight ts
  | [], _, h, _, _ => .pure (.refl h) ⟨by simp, rfl, rfl⟩
  | .group id :: ts, m, h, fits, light => by
    obtain ⟨first, others⟩ := List.forall_mem_cons.1 fits
    have lighter : ExprTree.weights m.weight ts ≤ n := Nat.le_trans (Nat.le_add_left _ _) light
    cases first with
    | group inside =>
      refine (insertInputs ts h others lighter).bind fun ids m' grafts
          ⟨below, length, weights⟩ =>
        .pure (.refl grafts.ranked) ⟨List.forall_mem_cons.2
          ⟨Nat.lt_of_lt_of_le inside grafts.extended.size_le, below⟩,
          congrArg Nat.succ length, ?_⟩
      rw [List.map_cons, List.sum_cons, weights, h.weight_extends grafts.extended inside]
      rfl
  | .operator op inputs :: ts, m, h, fits, light => by
    obtain ⟨first, others⟩ := List.forall_mem_cons.1 fits
    have lighter : ExprTree.weights m.weight ts ≤ n := Nat.le_trans (Nat.le_add_left _ _) light
    have light' : (ExprTree.operator op inputs).weight m.weight ≤ n :=
      Nat.le_trans (Nat.le_add_right _ _) light
    exact insertInputs_cons h others lighter (insertNode _ h first light')
      fun h' fits' light' => insertInputs ts h' fits' light'
  | .expr id inputs :: ts, _, _, fits, _ => by
    cases (List.forall_mem_cons.1 fits).1

end

/-- Entering a tree whose root ranks as high as a group into the group. If that fails the
groups that were added are dropped. -/
theorem insertTree {post : List GroupId → Memo K → Prop} (h : m.Ranked base n) {op : Operator}
    {ts : List ExprTree} {id : GroupId}
    (inputs : (Memo.insertInputs env ts).Leads (Grafts base n c) m post)
    (root : ∀ ids m', Grafts base n c m m' → post ids m' →
      (Memo.insertKey env ⟨op, ids⟩ (some id)).Leads (Grafts base n c) m' fun _ _ => True) :
    (Memo.insertTree env (.operator op ts) (some id)).Leads
      (Grafts base n c) m fun _ _ => True := by
  refine ⟨?_, fun _ _ => trivial⟩
  have undone {m' : Memo K} (appends : m.Appends m') (grafts : Grafts base n c m m') :
      Grafts base n c m (m'.truncate m.groups.size) := by
    have groups (i : GroupId) : (m'.truncate m.groups.size).groups[i]? = m.groups[i]? := by
      rw [groups_truncate]
      split
      · exact appends.groups i ‹_›
      · exact (Array.getElem?_eq_none (Nat.le_of_not_lt ‹_›)).symm
    have keys (i : ExprId) : (m'.truncate m.groups.size).key? i = m.key? i := by
      simp only [key?, groups]
    refine ⟨(appends.truncate h.toFiled).extended, h.of_keys (h.toCoherent.truncate
      grafts.ranked.toCoherent appends) keys, fun i => ?_, fun {i l js} hk new => ?_⟩
    · simp only [marks, groups]
    · rw [keys, new] at hk
      cases hk
  obtain ⟨appends, -⟩ : (Memo.insertInputs env ts).Leads Appends m fun ids m' =>
      m'.ContainsAll ids ts := h.toFiled.insertInputs ts
  obtain ⟨grafts, result⟩ := inputs
  simp only [Memo.insertTree, Memo.insertNode, MemoM.exec_bind, MemoM.exec_get,
    MemoM.exec_tryCatch]
  rcases hr : (Memo.insertInputs env ts).exec m with ⟨e | ids, m'⟩
  · rw [hr] at appends grafts
    exact undone appends grafts
  · rw [hr] at appends grafts result
    obtain ⟨grafts', -⟩ := root ids m' grafts (result ids rfl)
    simp only
    rcases hk : (Memo.insertKey env ⟨op, ids⟩ (some id)).exec m' with ⟨e | r, m''⟩
    · obtain rfl := memo_of_insertKey_error hk
      exact undone appends grafts
    · rw [hk] at grafts'
      exact trans_of (Grafts base n c) grafts grafts'

/-- Entering a tree that fits and weighs as much as a group into the group. -/
theorem insertExplored (h : m.Ranked base n) {op : LogicalOperator} {ts : List ExprTree}
    {id : GroupId} (there : id < m.groups.size)
    (fits : (ExprTree.operator (.logical op) ts).Fits base n m c)
    (weight : (ExprTree.operator (.logical op) ts).weight m.weight = m.weight id)
    (low : c ≤ m.rank id) :
    (Memo.insertTree env (.operator (.logical op) ts) (some id)).Leads (Grafts base n c) m
      fun _ _ => True := by
  have light : ExprTree.weights m.weight ts ≤ n :=
    (Nat.le_add_left _ _).trans (weight.trans_le (h.bounded id))
  cases fits with
  | @operator op _ coined plain saturated below =>
    refine h.insertTree (h.insertInputs ts below light) fun ids m' grafts
      ⟨inside, length, weights⟩ => ?_
    have weighs : m'.weight id = op.weight + (ids.map m'.weight).sum := by
      rw [weights, h.weight_extends grafts.extended there, ← weight]
      rfl
    refine grafts.ranked.insertKey inside (fun enforces => by cases enforces)
      (length.trans saturated) (fun _ i hi => Prod.Lex.lt_iff.2 (.inl ?_)) (fun op' same => ?_)
      fun l same => ?_
    · calc m'.weight i
        _ ≤ (ids.map m'.weight).sum :=
          List.single_le_sum (fun _ _ => Nat.zero_le _) _ (List.mem_map_of_mem hi)
        _ < op.weight + (ids.map m'.weight).sum :=
          Nat.lt_add_of_pos_left (LogicalOperator.weight_pos plain)
        _ = m'.weight id := weighs.symm
    · obtain rfl := Operator.logical.inj same
      exact ⟨coined, weighs⟩
    · obtain rfl := Operator.logical.inj same
      cases plain
  | @limit l x inside lower =>
    have inputs : (Memo.insertInputs env [.group x]).Leads (Grafts base n c) m
        fun ids m' => ids = [x] ∧ m' = m := .pure (.refl h) ⟨rfl, rfl⟩
    refine h.insertTree inputs ?_
    rintro _ m' - ⟨rfl, rfl⟩
    refine h.insertKey (List.forall_mem_singleton.2 inside)
      (fun enforces => by cases enforces) rfl
      (fun _ => List.forall_mem_singleton.2 (lower.trans_le low))
      (fun op' same => ?_) fun _ _ =>
        List.forall_mem_singleton.2 lower
    obtain rfl := Operator.logical.inj same
    exact ⟨.limit l, weight.symm⟩

omit [Quantity K] in
/-- Groups as inputs insert nothing. -/
theorem exec_insertInputs_groups [Quantity K] (env : Environment K) (ids : List GroupId)
    (m : Memo K) : (Memo.insertInputs env (ids.map .group)).exec m = (.ok ids, m) := by
  induction ids with
  | nil => rfl
  | cons i ids ih =>
    rw [List.map_cons, Memo.insertInputs, MemoM.exec_bind, ih]
    rfl

/-- Entering a physical operator over the inputs of a logical expression into its group. -/
theorem insertImplementation (h : m.Ranked base n) {op : LogicalOperator}
    {op' : PhysicalOperator} {ids : List GroupId} {place : ExprId}
    (known : m.key? place = some ⟨.logical op, ids⟩) (plain : op'.isEnforcer = false)
    (arity : op'.arity = op.arity) :
    (Memo.insertTree env (.operator (.physical op') (ids.map .group)) (some place.group)).Leads
      (Grafts base n c) m fun _ _ => True := by
  have inputs : (Memo.insertInputs env (ids.map .group)).Leads (Grafts base n c) m
      fun ids' m' => ids' = ids ∧ m' = m := by
    rw [MemoM.Leads, exec_insertInputs_groups]
    exact ⟨.refl h, fun ids' hids => ⟨(Except.ok.inj hids).symm, rfl⟩⟩
  refine h.insertTree inputs ?_
  rintro ids' m' - ⟨rfl, rfl⟩
  have inside : ∀ i ∈ ids', i < m'.groups.size := h.inputs known
  have below : ∀ i ∈ ids', m'.rank i < m'.rank place.group := h.descends known rfl
  refine h.insertKey inside (fun enforces => ?_) ((h.saturated _ _ known).trans arity.symm)
    (fun _ => below) (fun _ same => by cases same) fun _ same => by cases same
  exact absurd enforces (Bool.not_eq_true _ ▸ plain)

end Ranked

end Memo

/-! ### Rules -/

namespace ExprTree.Fits

/-- Groups of the memo fit. -/
theorem groups {ids : List GroupId} (inside : ∀ i ∈ ids, i < m.groups.size) :
    ∀ t ∈ ids.map ExprTree.group, t.Fits base n m c := by
  intro t ht
  obtain ⟨i, hi, rfl⟩ := List.mem_map.1 ht
  exact .group (inside i hi)

/-- A join of trees that fit fits, if its predicate is composed. -/
theorem joined {type : JoinType} {p : Scalar} {t u : ExprTree} (composed : p.Composed base n)
    (ht : t.Fits base n m c) (hu : u.Fits base n m c) :
    (ExprTree.joined ⟨type, p⟩ t u).Fits base n m c :=
  .operator (.join composed) rfl rfl (by simp [ht, hu])

/-- An operator of the search with one input fits on a tree that fits. -/
theorem single {op : LogicalOperator} {t : ExprTree} (coined : op.Coined base n)
    (plain : op.isLimit = false) (one : op.arity = 1) (ht : t.Fits base n m c) :
    (ExprTree.operator (.logical op) [t]).Fits base n m c :=
  .operator coined plain one.symm (List.forall_mem_singleton.2 ht)

/-- A tree that fits goes on fitting when its columns are renamed for a set
operation of the search. -/
theorem renamed {s : SetOperation} {left : List Column} {t : ExprTree}
    (known : s ∈ base.flatMap LogicalOperator.operations) (side : left ∈ s.inputs)
    (ht : t.Fits base n m c) :
    (SetOperationRule.renamed s.output left t).Fits base n m c := by
  unfold SetOperationRule.renamed
  split
  · exact ht
  · exact .single (.rename known side) rfl rfl ht

end ExprTree.Fits

/-- Whether a rule makes limits. -/
def RuleId.makesLimits : RuleId → Bool
  | pushLimitBelowProject | mergeLimits => true
  | _ => false

/-- What the inputs of limits that a rule makes of an expression rank below. -/
def Memo.ceiling (m : Memo K) (r : RuleId) : ExprKey → ℕ ×ₗ ℕ
  | ⟨.logical (.limit _), i :: _⟩ => if r.makesLimits then m.rank i else toLex (0, 0)
  | _ => toLex (0, 0)

namespace Memo.Ranked

/-- What a rule makes of an expression ranks no higher than its group. -/
theorem ceiling_le (h : m.Ranked base n) {place : ExprId} {k : ExprKey}
    (known : m.key? place = some k) (r : RuleId) : m.ceiling r k ≤ m.rank place.group := by
  have least (a : ℕ ×ₗ ℕ) : toLex (0, 0) ≤ a :=
    Prod.Lex.le_iff.2
      ((Nat.eq_zero_or_pos _).symm.imp id fun zero => ⟨zero.symm, Nat.zero_le _⟩)
  unfold Memo.ceiling
  split
  · split
    · exact (h.descends known rfl _ List.mem_cons_self).le
    · exact least _
  · exact least _

/-- Groups keep their ranks, and so does what depends on them. -/
theorem ceiling_extends (h : m.Ranked base n) (extended : m.Extends m') {place : ExprId}
    {k : ExprKey} (known : m.key? place = some k) (r : RuleId) :
    m'.ceiling r k = m.ceiling r k := by
  unfold Memo.ceiling
  split
  · rw [h.rank_extends extended (h.inputs known _ List.mem_cons_self)]
  · rfl

end Memo.Ranked

/-- What an exploration rule makes can be entered into a ranked memo. -/
theorem RuleId.Rewrites.fits (h : m.Ranked base n) {r : RuleId} {place : ExprId} {k : ExprKey}
    {t : ExprTree} (known : m.key? place = some k) (explores : r ∈ explorations)
    (rewrites : r.Rewrites m k t) : t.Fits base n m (m.ceiling r k) := by
  have inside := h.inputs known
  have one {place : ExprId} {op : LogicalOperator} {ids : List GroupId}
      (hk : m.key? place = some ⟨.logical op, ids⟩) (arity : op.arity = 1) : ∃ i, ids = [i] :=
    List.length_eq_one_iff.1 ((h.saturated _ _ hk).trans arity)
  cases rewrites with
  | commute =>
    exact .joined (h.coined known).predicate (.group (inside _ (by simp)))
      (.group (inside _ (by simp)))
  | @associate p q r lower a b c' rest lowers below lowered =>
    have hp : p.Composed base n := (h.coined below).predicate
    have hq : q.Composed base n := (h.coined known).predicate
    have lower := h.inputs below
    have short : p.conditions + q.conditions ≤ n := by
      have upper := h.weighs known
      have light := h.bounded place.group
      have inner := h.weighs below
      simp only [LogicalOperator.weight, List.map_cons, List.map_nil, List.sum_cons]
        at upper inner
      omega
    exact .joined (hp.conjoin?_getD hq short _) (.group (lower _ (by simp)))
      (.joined (hp.conjoin? hq short _ lowered) (.group (lower _ (by simp)))
        (.group (inside _ (by simp))))
  | exchange _ below =>
    have lower := h.inputs below
    exact .joined (h.coined below).predicate
      (.joined (h.coined known).predicate (.group (lower _ (by simp)))
        (.group (inside _ (by simp))))
      (.group (lower _ (by simp)))
  | @lookup p table key a relation left below access =>
    have composed : p.Composed base n := (h.coined known).predicate
    refine .operator (.apply composed relation.property.output) rfl rfl ?_
    simpa using ⟨.group (inside _ (by simp)),
      .single (.select composed) rfl rfl (.group (inside _ (by simp)))⟩
  | push below =>
    obtain ⟨i, rfl⟩ := one below rfl
    rw [Memo.ceiling, if_pos (by rfl)]
    exact .single (h.coined below) rfl rfl
      (.limit (h.inputs below i (by simp)) (h.descends below rfl i (by simp)))
  | merge below =>
    obtain ⟨i, rfl⟩ := one below rfl
    rw [Memo.ceiling, if_pos (by rfl)]
    exact .limit (h.inputs below i (by simp)) (h.descends below rfl i (by simp))
  | @unionAll s ids kind =>
    have known' := (h.coined known).operation (by rw [kind]; decide)
    refine .single (.distinct known') rfl rfl
      (.operator (.unionAll known') rfl ?_ (.groups inside))
    exact (List.length_map _).trans (h.saturated _ _ known)
  | @rejoin _ s type left right p a b joins first second compared =>
    obtain ⟨notAll, weight⟩ := weight_of_joinFor? joins first second
    have known' := (h.coined known).operation notAll
    have hl := List.mem_of_getElem? first
    have hr := List.mem_of_getElem? second
    have short : min left.length right.length ≤ n := by
      have light := h.bounded place.group
      rw [h.weighs known, LogicalOperator.weight, weight] at light
      omega
    exact .single (.distinct known') rfl rfl (.renamed known' hl (.joined
      (LogicalOperator.Coined.composed_sameRow? known' hl hr short compared)
      (.group (inside _ (by simp))) (.group (inside _ (by simp)))))
  | implement implements => exact absurd explores (notMem_explorations_of_physical? implements)

namespace Memo

variable [Quantity K] {env : Environment K}

/-- Entering what a rule makes of an expression into the group of the expression. -/
theorem Ranked.insertRewriting (h : m.Ranked base n) {r : RuleId}
    {place : ExprId} {k : ExprKey} {t : ExprTree} (known : m.key? place = some k)
    (rewrites : r.Rewrites m k t) :
    (Memo.insertTree env t (some place.group)).Leads (Grafts base n (m.ceiling r k)) m
      fun _ _ => True := by
  by_cases explores : r ∈ RuleId.explorations
  · obtain ⟨op, ts, rfl⟩ : t.MakesLogical := by simpa [explores] using rewrites.makes
    exact h.insertExplored (lt_of_key? known) (rewrites.fits h known explores)
      (rewrites.weight_eq h.weighs h.saturated known explores) (h.ceiling_le known r)
  · cases rewrites with
    | implement implements =>
      exact h.insertImplementation known (RuleId.isEnforcer_of_physical? implements)
        (RuleId.arity_of_physical? implements)
    | exchange exchanges =>
      exact absurd (RuleId.mem_explorations_of_exchanges exchanges) explores
    | rejoin joins => exact absurd (RuleId.mem_explorations_of_joinFor? joins) explores
    | _ => exact absurd (by decide) explores

end Memo

end QueryOptimizer
