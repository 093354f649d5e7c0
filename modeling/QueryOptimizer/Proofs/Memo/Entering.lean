import QueryOptimizer.Proofs.Rule.Totality

/-!
# Entering trees cannot fail

What a rule makes can always be entered into the group of the expression that the rule was
applied to, unless the outside world fails. The inputs of the tree are entered as logical
expressions; whether something else is added depends on the root alone.

`MemoM.Yields` says that a computation on a memo has a result, and what that is like.
`MemoM.YieldsUnless` leaves room for excused errors.

## Main results

* `Memo.Coherent.insertInputs_yieldsUnless`: the inputs of what a rule makes are entered.
* `Memo.Coherent.insertTree_yieldsUnless`: so is the whole tree.
-/

namespace QueryOptimizer

variable {K : Type} {m m' : Memo K}

/-! ### Computations that cannot fail -/

namespace MemoM

variable {α β : Type}

/-- A computation on a memo has a result, which is as `post` says. -/
def Yields (m : Memo K) (x : MemoM K α) (post : α → Memo K → Prop) : Prop :=
  ∃ a m', x.exec m = (.ok a, m') ∧ post a m'

namespace Yields

variable {x : MemoM K α} {f : α → MemoM K β} {post : α → Memo K → Prop}
  {post' : β → Memo K → Prop}

/-- A returned value is a result. -/
theorem pure {a : α} (ha : post a m) : Yields m (pure a) post :=
  ⟨a, m, rfl, ha⟩

/-- What is known of the result may be weakened. -/
theorem mono {post' : α → Memo K → Prop} (hx : Yields m x post)
    (h : ∀ a m', post a m' → post' a m') : Yields m x post' := by
  obtain ⟨a, m', run, ha⟩ := hx
  exact ⟨a, m', run, h a m' ha⟩

/-- A result is as promised. -/
theorem of_exec (hx : Yields m x post) {a : α} (run : x.exec m = (.ok a, m')) : post a m' := by
  obtain ⟨a', m₁, run', ha⟩ := hx
  rw [run] at run'
  cases run'
  exact ha

/-- A composition has a result if both of its parts have one. -/
theorem bind (hx : Yields m x post) (hf : ∀ a m', post a m' → Yields m' (f a) post') :
    Yields m (x >>= f) post' := by
  obtain ⟨a, m', run, ha⟩ := hx
  obtain ⟨b, m'', run', hb⟩ := hf a m' ha
  exact ⟨b, m'', (exec_bind_of_ok run).trans run', hb⟩

/-- Reading the memo. -/
theorem get_bind {f : Memo K → MemoM K β} (hf : Yields m (f m) post') :
    Yields m (get >>= f) post' :=
  hf

/-- A step that goes through and leaves the memo alone. -/
theorem lift_bind {r : OptResult α} (hr : r.Succeeds)
    (hf : ∀ a, r = .ok a → Yields m (f a) post') : Yields m (liftM r >>= f) post' := by
  obtain ⟨a, rfl⟩ := hr
  exact hf a rfl

/-- A change of the memo does not keep the rest from having a result. -/
theorem modify_bind {g : Memo K → Memo K} {f : PUnit → MemoM K β}
    (hf : Yields (g m) (f ⟨⟩) post') : Yields m (modify g >>= f) post' :=
  hf

/-- What is known about the memo and the result of a computation anyway. -/
theorem of_leads {R : Memo K → Memo K → Prop} {known : α → Memo K → Prop}
    (hx : Yields m x post) (h : Leads R m x known) :
    Yields m x fun a m' => post a m' ∧ R m m' ∧ known a m' := by
  obtain ⟨a, m', run, ha⟩ := hx
  obtain ⟨step, result⟩ := h
  rw [run] at step result
  exact ⟨a, m', run, ha, step, result a rfl⟩

end Yields

/-! ### Computations that can fail in some ways only -/

/-- A computation on a memo has a result, which is as `post` says, or fails with
an excused error. -/
def YieldsUnless (excused : OptError → Prop) (m : Memo K) (x : MemoM K α)
    (post : α → Memo K → Prop) : Prop :=
  Yields m x post ∨ ∃ e m', x.exec m = (.error e, m') ∧ excused e

namespace YieldsUnless

variable {excused : OptError → Prop} {x : MemoM K α} {f : α → MemoM K β}
  {post : α → Memo K → Prop}
  {post' : β → Memo K → Prop}

/-- A returned value is a result, whatever is excused. -/
theorem pure {a : α} (ha : post a m) : YieldsUnless excused m (pure a) post :=
  .inl (.pure ha)

/-- There is a result for certain if no error is excused. -/
theorem yields (hx : YieldsUnless (fun _ => False) m x post) : Yields m x post :=
  hx.resolve_right fun ⟨_, _, _, never⟩ => never

/-- What is known of the result may be weakened. -/
theorem mono {post' : α → Memo K → Prop} (hx : YieldsUnless excused m x post)
    (h : ∀ a m', post a m' → post' a m') : YieldsUnless excused m x post' :=
  hx.imp_left fun hx => hx.mono h

/-- A result is as promised. -/
theorem of_exec (hx : YieldsUnless excused m x post) {a : α} (run : x.exec m = (.ok a, m')) :
    post a m' := by
  rcases hx with hx | ⟨e, m₁, failed, -⟩
  · exact hx.of_exec run
  · rw [run] at failed
    cases failed

/-- A failure is excused. -/
theorem of_error (hx : YieldsUnless excused m x post) {e : OptError}
    (run : x.exec m = (.error e, m')) : excused e := by
  rcases hx with ⟨a, m₁, done, -⟩ | ⟨e', m₁, failed, he⟩
  · rw [run] at done
    cases done
  · rw [run] at failed
    cases failed
    exact he

/-- A composition has a result, or an excuse, if both of its parts have. -/
theorem bind (hx : YieldsUnless excused m x post)
    (hf : ∀ a m', post a m' → YieldsUnless excused m' (f a) post') :
    YieldsUnless excused m (x >>= f) post' := by
  rcases hx with ⟨a, m', run, ha⟩ | ⟨e, m', failed, he⟩
  · rcases hf a m' ha with ⟨b, m'', run', hb⟩ | ⟨e, m'', failed, he⟩
    · exact .inl ⟨b, m'', (exec_bind_of_ok run).trans run', hb⟩
    · exact .inr ⟨e, m'', (exec_bind_of_ok run).trans failed, he⟩
  · exact .inr ⟨e, m', by rw [exec_bind, failed], he⟩

/-- Reading the memo. -/
theorem get_bind {f : Memo K → MemoM K β} (hf : YieldsUnless excused m (f m) post') :
    YieldsUnless excused m (get >>= f) post' :=
  hf

/-- A step that leaves the memo alone. -/
theorem lift_bind {r : OptResult α} (hr : r.SucceedsUnless excused)
    (hf : ∀ a, r = .ok a → YieldsUnless excused m (f a) post') :
    YieldsUnless excused m (liftM r >>= f) post' := by
  cases r with
  | error e => exact .inr ⟨e, m, rfl, hr e rfl⟩
  | ok a => exact hf a rfl

/-- A change of the memo does not keep the rest from having a result, or an excuse. -/
theorem modify_bind {g : Memo K → Memo K} {f : PUnit → MemoM K β}
    (hf : YieldsUnless excused (g m) (f ⟨⟩) post') :
    YieldsUnless excused m (modify g >>= f) post' :=
  hf

/-- What is known about the memo and the result of a computation anyway. -/
theorem of_leads {R : Memo K → Memo K → Prop} {known : α → Memo K → Prop}
    (hx : YieldsUnless excused m x post) (h : Leads R m x known) :
    YieldsUnless excused m x fun a m' => post a m' ∧ R m m' ∧ known a m' :=
  hx.imp_left fun hx => hx.of_leads h

/-- What holds of an element and its result goes on holding while later elements
are gone through. -/
theorem mapM {as : List α} {R : Memo K → Memo K → Prop} [IsTrans (Memo K) R]
    {Q : α → β → Memo K → Prop} (self : R m m)
    (keep : ∀ a b m' m'', R m' m'' → Q a b m' → Q a b m'') (next : ∀ m', R m m' → R m' m')
    (step : ∀ a ∈ as, ∀ m', R m m' →
      YieldsUnless excused m' (f a) fun b m'' => R m' m'' ∧ Q a b m'') :
    YieldsUnless excused m (as.mapM f) fun bs m' =>
      R m m' ∧ List.Forall₂ (fun a b => Q a b m') as bs := by
  induction as generalizing m with
  | nil =>
    rw [List.mapM_nil]
    exact .pure ⟨self, .nil⟩
  | cons a as ih =>
    rw [List.mapM_cons]
    refine (step a (by simp) m self).bind fun b m' ⟨first, hb⟩ => ?_
    refine (ih (next m' first) (fun m'' second => next m'' (trans_of R first second))
      fun c hc m'' second =>
      step c (List.mem_cons_of_mem a hc) m'' (trans_of R first second)).bind
        fun bs m'' ⟨second, hbs⟩ => .pure ⟨trans_of R first second, ?_⟩
    exact .cons (keep a b m' m'' second hb) hbs

end YieldsUnless

end MemoM

namespace Memo

/-! ### Logical expressions -/

/-- No rule has been applied where there is no expression. -/
theorem marks_of_key?_none {place : ExprId} (new : m.key? place = none) :
    m.marks place = [] := by
  unfold key? at new
  unfold marks
  cases hg : m.groups[place.group]? with
  | none => rfl
  | some g =>
    rw [hg] at new
    have none : g.exprs[place.index]? = none := Option.map_eq_none_iff.1 new
    simp [none]

/-- A group that is there takes every expression. -/
theorem exists_insertKey_some [Quantity K] (env : Environment K) (key : ExprKey) {id : GroupId}
    (there : id < m.groups.size) :
    ∃ r m', (insertKey env key (some id)).exec m = (.ok r, m') := by
  rw [exec_insertKey_some]
  cases m.index[key]? with
  | some place => exact ⟨_, _, rfl⟩
  | none =>
    obtain ⟨m', place, added⟩ := exists_addExpr m id key there
    exact ⟨(place, true), m', by rw [added]⟩

/-- A memo that only logical expressions have been added to. -/
structure Widens (m m' : Memo K) : Prop where
  extended : m.Extends m'
  coherent : m'.Coherent
  marks : ∀ place, m'.marks place = m.marks place
  logical : ∀ {place k}, m'.key? place = some k → m.key? place = none →
    k.operator.isLogical = true

/-- A coherent memo has been widened into itself. -/
theorem Widens.refl (h : m.Coherent) : m.Widens m :=
  ⟨.refl m, h, fun _ => rfl, fun hk new => by rw [hk] at new; cases new⟩

instance : IsTrans (Memo K) Widens where
  trans m m' m'' h h' := by
    refine ⟨h.extended.trans h'.extended, h'.coherent, fun place =>
      (h'.marks place).trans (h.marks place), fun {place k} hk new => ?_⟩
    cases known : m'.key? place with
    | none => exact h'.logical hk known
    | some k' =>
      obtain rfl := Option.some.inj ((h'.extended.key _ _ known).symm.trans hk)
      exact h.logical known new

namespace Coherent

variable [Quantity K] {env : Environment K} {excused : OptError → Prop}

/-- An operator that rules make starts a group, unless it is there. -/
theorem startKey_yieldsUnless (answers : env.AnswersUnless excused) (h : m.Coherent)
    {op : LogicalOperator} {ids : List GroupId} (made : op.isMade = true)
    (length : ids.length = op.arity) (occupied : 0 < ids.length)
    (inside : ∀ i ∈ ids, i < m.groups.size) :
    MemoM.YieldsUnless excused m (Memo.insertKey env ⟨.logical op, ids⟩ none) fun r m' =>
      m.Widens m' ∧ r.1.group < m'.groups.size := by
  cases found : m.index[(⟨.logical op, ids⟩ : ExprKey)]? with
  | some place =>
    obtain ⟨k, hk, -⟩ := h.index found
    refine .inl ⟨(place, false), m, ?_, .refl h, lt_of_key? hk⟩
    rw [exec_insertKey_none, found]
  | none =>
    obtain ⟨rels, hrels⟩ := exists_relations inside
    have same : rels.length = ids.length := (relations_eq_ok.1 hrels).length_eq.symm
    have settled :=
      op.derive_succeedsUnless answers made (same.trans length) (same ▸ occupied) m.ctes
    cases derived : op.derive env m.ctes rels with
    | error e =>
      refine .inr ⟨e, m, ?_, settled e derived⟩
      simp only [exec_insertKey_none, found, exec_startGroup, hrels, bind,
        Except.bind, derived]
    | ok r =>
      obtain ⟨m', place, run, added⟩ := exists_insertKey_new env ids found hrels derived
      refine .inl ⟨(place, true), m', run, ⟨.startGroup m op r inside added,
        h.startGroup found inside added, fun i => ?_, fun {i k} hk new => ?_⟩, ?_⟩
      · rw [marks_addExpr added, marks_addGroup]
      · rw [key?_addExpr added, key?_addGroup, new] at hk
        split at hk
        · cases hk
          rfl
        · cases hk
      · rw [group_of_addExpr added, size_addExpr added, size_addGroup]
        exact Nat.lt_succ_self _

/-! ### Trees -/

mutual

/-- Entering a new operator over groups that are there into a group of its own. -/
theorem insertNode_yieldsUnless (answers : env.AnswersUnless excused) :
    ∀ (op : Operator) (ts : List ExprTree) {m : Memo K}, m.Coherent →
    (ExprTree.operator op ts).Derivable m.groups.size →
      MemoM.YieldsUnless excused m (Memo.insertNode env none (.operator op ts)) fun r m' =>
        m.Widens m' ∧ r.1.group < m'.groups.size
  | _, ts, m, h, .operator made saturated occupied below => by
    refine (insertInputs_yieldsUnless answers ts h below).bind fun ids m'
      ⟨widens, inside, length⟩ => ?_
    refine (startKey_yieldsUnless answers widens.coherent made (length.trans saturated)
      (length ▸ occupied) inside).mono fun r m'' ⟨widens', there⟩ =>
        ⟨trans_of Widens widens widens', there⟩

/-- Entering trees over groups that are there, each new operator into a group of its own. -/
theorem insertInputs_yieldsUnless (answers : env.AnswersUnless excused) :
    ∀ (ts : List ExprTree) {m : Memo K}, m.Coherent → (∀ t ∈ ts, t.Derivable m.groups.size) →
      MemoM.YieldsUnless excused m (Memo.insertInputs env ts) fun ids m' =>
        m.Widens m' ∧ (∀ i ∈ ids, i < m'.groups.size) ∧ ids.length = ts.length
  | [], m, h, _ => .pure ⟨.refl h, by simp, rfl⟩
  | .group id :: ts, m, h, derivable => by
    obtain ⟨first, others⟩ := List.forall_mem_cons.1 derivable
    obtain ⟨first⟩ := first
    refine (insertInputs_yieldsUnless answers ts h others).bind fun ids m'
        ⟨widens, inside, length⟩ =>
      .pure ⟨widens, List.forall_mem_cons.2 ⟨?_, inside⟩, congrArg Nat.succ length⟩
    exact Nat.lt_of_lt_of_le first widens.extended.size_le
  | .operator op inputs :: ts, m, h, derivable => by
    obtain ⟨first, others⟩ := List.forall_mem_cons.1 derivable
    refine (insertNode_yieldsUnless answers op inputs h first).bind fun r m'
      ⟨widens, there⟩ => ?_
    refine (insertInputs_yieldsUnless answers ts widens.coherent fun t ht =>
      (others t ht).mono widens.extended.size_le).bind fun ids m'' ⟨widens', inside, length⟩ =>
        .pure ⟨trans_of Widens widens widens', List.forall_mem_cons.2 ⟨?_, inside⟩,
          congrArg Nat.succ length⟩
    exact Nat.lt_of_lt_of_le there widens'.extended.size_le
  | .expr _ _ :: _, _, _, derivable => nomatch (List.forall_mem_cons.1 derivable).1

end

/-- A tree with an operator at the root can be entered into a group that is there: first the
inputs, then the root. -/
theorem insertTree_yieldsUnless (answers : env.AnswersUnless excused) (h : m.Coherent)
    (op : Operator) {ts : List ExprTree} (derivable : ∀ t ∈ ts, t.Derivable m.groups.size)
    {id : GroupId} (there : id < m.groups.size) :
    MemoM.YieldsUnless excused m (Memo.insertTree env (.operator op ts) (some id)) fun r m' =>
      ∃ ids m₁, (Memo.insertInputs env ts).exec m = (.ok ids, m₁) ∧ m.Widens m₁ ∧
        (Memo.insertKey env ⟨op, ids⟩ (some id)).exec m₁ = (.ok r, m') := by
  rcases insertInputs_yieldsUnless answers ts h derivable with
    ⟨ids, m₁, run, widens, -⟩ | ⟨e, m₁, failed, he⟩
  · obtain ⟨r, m', entered⟩ := exists_insertKey_some env ⟨op, ids⟩
      (Nat.lt_of_lt_of_le there widens.extended.size_le)
    refine .inl ⟨r, m', ?_, ids, m₁, run, widens, entered⟩
    simp only [Memo.insertTree, Memo.insertNode, MemoM.exec_bind, MemoM.exec_get,
      MemoM.exec_tryCatch, run, entered]
  · refine .inr ⟨e, m₁.truncate m.groups.size, ?_, he⟩
    simp only [Memo.insertTree, Memo.insertNode, MemoM.exec_bind, MemoM.exec_get,
      MemoM.exec_tryCatch, failed, MemoM.exec_modify, MemoM.exec_throw]

end Coherent

end Memo

end QueryOptimizer
