import QueryOptimizer.Proofs.Memo.Outline
import QueryOptimizer.Proofs.Result
import QueryOptimizer.Proofs.Semantics.Bare
import QueryOptimizer.Proofs.Semantics.Scoping
import QueryOptimizer.Rule.SetOperation

/-!
# Memos with a meaning

A memo is modelled by meanings of its groups when every logical expression of a group means
what the group means. An `Analysis` is whatever else is known of the groups: what the derived
relation of a group says about its meaning, and which operators occur. The derivation has to be
right for one operator at a time, and the operators that occur have to be closed under the
rules; then what is known holds of every memo that is modelled.

## Main results

* `Memo.Models.insertKey`, `Memo.Models.startKey`: an expression can be entered into a group
  with its meaning, or into a new one.
* `Memo.Models.insertTree`: so can a tree that means what the group means, and when this fails
  in the middle, the memo is modelled still.
-/

namespace QueryOptimizer

variable {K : Type} [Quantity K]

/-! ### Analyses -/

/-- Operators that rules make from operators of a class are in the class. -/
structure RuleClosed (admits : LogicalOperator → Prop) : Prop where
  conjunction : ∀ {p q r es}, admits (.join ⟨.inner, p⟩) → admits (.join ⟨.inner, q⟩) →
    (∀ e ∈ es, e ∈ p.conjuncts ∨ e ∈ q.conjuncts) → Scalar.conjoin? es = some r →
    admits (.join ⟨.inner, r⟩)
  always : ∀ {j}, admits (.join j) → admits (.join ⟨.inner, .ofBool true⟩)
  select : ∀ {j}, admits (.join j) → admits (.select j.predicate)
  apply : ∀ {j outer}, admits (.join j) → admits (.apply ⟨.inner, .ofBool true, outer⟩)
  limit : ∀ {outer inner l}, admits (.limit outer) → admits (.limit inner) →
    outer.mergeOver inner = some l → admits (.limit l)
  unionAll : ∀ {s}, admits (.setOp s) → admits (.setOp { s with kind := .unionAll })
  distinct : ∀ {s}, admits (.setOp s) → admits (.groupBy (.distinctOn s.output))
  sameRow : ∀ {s left right p type}, admits (.setOp s) → s.inputs = [left, right] →
    SetOperationRule.sameRow? left right = some p → admits (.join ⟨type, p⟩)
  rename : ∀ {s left right}, admits (.setOp s) → s.inputs = [left, right] →
    admits (.project (List.zipWith (fun c s => (c, .column s)) s.output left))

/-- Two conditions that rules keep are kept together. -/
theorem RuleClosed.and {p q : LogicalOperator → Prop} (hp : RuleClosed p) (hq : RuleClosed q) :
    RuleClosed fun op => p op ∧ q op where
  conjunction h h' sub made :=
    ⟨hp.conjunction h.1 h'.1 sub made, hq.conjunction h.2 h'.2 sub made⟩
  always h := ⟨hp.always h.1, hq.always h.2⟩
  select h := ⟨hp.select h.1, hq.select h.2⟩
  apply h := ⟨hp.apply h.1, hq.apply h.2⟩
  limit h h' made := ⟨hp.limit h.1 h'.1 made, hq.limit h.2 h'.2 made⟩
  unionAll h := ⟨hp.unionAll h.1, hq.unionAll h.2⟩
  distinct h := ⟨hp.distinct h.1, hq.distinct h.2⟩
  sameRow h sides made := ⟨hp.sameRow h.1 sides made, hq.sameRow h.2 sides made⟩
  rename h sides := ⟨hp.rename h.1 sides, hq.rename h.2 sides⟩

/-- The operators that rules make. They read no stored and no shared rows, and the only set
operations among them keep the tuples of all inputs. -/
inductive LogicalOperator.OfRule : LogicalOperator → Prop
  | select (p : Scalar) : OfRule (.select p)
  | project (ds : List Definition) : OfRule (.project ds)
  | groupBy (g : Grouping) : OfRule (.groupBy g)
  | limit (l : Limit) : OfRule (.limit l)
  | join (j : Join) : OfRule (.join j)
  | apply (a : Apply) : OfRule (.apply a)
  | unionAll (s : SetOperation) : OfRule (.setOp { s with kind := .unionAll })

/-- A class that has all operators that rules make is closed. -/
theorem RuleClosed.of_ofRule {admits : LogicalOperator → Prop}
    (h : ∀ op, op.OfRule → admits op) : RuleClosed admits where
  conjunction _ _ _ _ := h _ (.join _)
  always _ := h _ (.join _)
  select _ := h _ (.select _)
  apply _ := h _ (.apply _)
  limit _ _ _ := h _ (.limit _)
  unionAll _ := h _ (.unionAll _)
  distinct _ := h _ (.groupBy _)
  sameRow _ _ _ := h _ (.join _)
  rename _ _ := h _ (.project _)

/-- Which operators occur, and what derived relations and shared results say about meanings. -/
structure Analysis (env : Environment K) (I : Interpretation) (db : Database) where
  admits : LogicalOperator → Prop
  describes : Relation K → Meaning → Prop
  shares : Nat → CteInfo K → Prop
  closed : RuleClosed admits
  output : ∀ {r m}, describes r m → r.property.output.idSet = m.output
  derive : ∀ {op ctes rels ms r}, admits op → op.InScope ms → (∀ m ∈ ms, m.Sound) →
    List.Forall₂ describes rels ms → (∀ entry ∈ ctes, shares entry.1 entry.2) →
    op.derive env ctes rels = .ok r → describes r (op.meaning I db ms)

variable {env : Environment K} {I : Interpretation} {db : Database} {A : Analysis env I db}

namespace Memo

/-- Whether the groups of a memo have the given meanings. -/
structure Models (A : Analysis env I db) (m : Memo K) (μ : GroupId → Meaning) : Prop where
  describes : ∀ {id r}, m.relation? id = some r → A.describes r (μ id)
  sound : ∀ {id}, id < m.groups.size → (μ id).Sound
  inputs : ∀ {id k}, m.key? id = some k → ∀ i ∈ k.inputs, i < m.groups.size
  admits : ∀ {id op inputs}, m.key? id = some ⟨.logical op, inputs⟩ → A.admits op
  inScope : ∀ {id op inputs}, m.key? id = some ⟨.logical op, inputs⟩ →
    op.InScope (inputs.map μ)
  meaning : ∀ {id op inputs}, m.key? id = some ⟨.logical op, inputs⟩ →
    op.meaning I db (inputs.map μ) = μ id.group
  index : ∀ {k place}, m.index[k]? = some place → ∃ k', m.key? place = some k' ∧
    (k' == k) = true
  ctes : ∀ entry ∈ m.ctes, A.shares entry.1 entry.2

/-- From memo `m` a computation has gone on to `m'`. -/
structure Later (A : Analysis env I db) (m : Memo K) (μ : GroupId → Meaning) (m' : Memo K)
    (μ' : GroupId → Meaning) : Prop where
  models : m'.Models A μ'
  extended : m.Extends m'
  agree : ∀ id < m.groups.size, μ' id = μ id

namespace Models

variable {m m' : Memo K} {μ : GroupId → Meaning}

/-- Bookkeeping keeps a model. -/
theorem like (h : m.Models A μ) (like : m.Like m') : m'.Models A μ where
  describes hr := h.describes ((like.relation _).symm.trans hr)
  sound hid := h.sound (like.size ▸ hid)
  inputs hk i hi := like.size ▸ h.inputs ((like.key _).symm.trans hk) i hi
  admits hk := h.admits ((like.key _).symm.trans hk)
  inScope hk := h.inScope ((like.key _).symm.trans hk)
  meaning hk := h.meaning ((like.key _).symm.trans hk)
  index hk := by
    rw [like.index] at hk
    obtain ⟨k', hk', equal⟩ := h.index hk
    exact ⟨k', (like.key _).trans hk', equal⟩
  ctes := like.ctes ▸ h.ctes

/-- The memo without groups is modelled. -/
theorem empty (A : Analysis env I db) (μ : GroupId → Meaning) : ({} : Memo K).Models A μ where
  describes hr := by simp [relation?] at hr
  sound hid := by simp at hid
  inputs hk := by simp [key?] at hk
  admits hk := by simp [key?] at hk
  inScope hk := by simp [key?] at hk
  meaning hk := by simp [key?] at hk
  index hk := by simp at hk
  ctes := by simp

/-- What the relations of existing groups say. -/
theorem relations (h : m.Models A μ) {ids : List GroupId} {rels : Inputs K}
    (hr : m.relations ids = .ok rels) : List.Forall₂ A.describes rels (ids.map μ) := by
  exact List.forall₂_map_right_iff.2
    ((relations_eq_ok.1 hr).flip.imp fun _ _ known => h.describes known)

/-! ### Entering expressions -/

/-- A new expression keeps a model if it means what its group does. -/
theorem addExpr (h : m.Models A μ) {id : GroupId} {key : ExprKey} {place : ExprId}
    (added : m.addExpr id key = .ok (m', place)) (inputs : ∀ i ∈ key.inputs, i < m.groups.size)
    (logical : ∀ op, key.operator = .logical op → A.admits op ∧ op.InScope (key.inputs.map μ) ∧
      op.meaning I db (key.inputs.map μ) = μ id) : m'.Models A μ := by
  have new {i : ExprId} {k : ExprKey} (hk : m'.key? i = some k) :
      i.group = id ∧ k = key ∨ m.key? i = some k := by
    rw [key?_addExpr added] at hk
    split at hk
    · rename_i hi
      exact .inl ⟨hi ▸ group_of_addExpr added, (Option.some.inj hk).symm⟩
    · exact .inr hk
  refine ⟨fun hr => ?_, fun hid => ?_, fun hk i hi => ?_, fun hk => ?_, fun hk =>
    ?_, fun hk => ?_, fun {k found} hk => ?_, ?_⟩
  · exact h.describes ((relation?_addExpr added _).symm.trans hr)
  · exact h.sound (size_addExpr added ▸ hid)
  · rw [size_addExpr added]
    obtain ⟨-, rfl⟩ | hk := new hk
    · exact inputs i hi
    · exact h.inputs hk i hi
  · obtain ⟨-, rfl⟩ | hk := new hk
    · exact (logical _ rfl).1
    · exact h.admits hk
  · obtain ⟨-, rfl⟩ | hk := new hk
    · exact (logical _ rfl).2.1
    · exact h.inScope hk
  · obtain ⟨hid, rfl⟩ | hk := new hk
    · rw [hid]
      exact (logical _ rfl).2.2
    · exact h.meaning hk
  · rw [index_addExpr added] at hk
    split at hk
    · rename_i equal
      obtain rfl := Option.some.inj hk
      exact ⟨key, by rw [key?_addExpr added, if_pos rfl], equal⟩
    · obtain ⟨k', hk', equal⟩ := h.index hk
      exact ⟨k', key?_addExpr_of_some added hk', equal⟩
  · rw [ctes_addExpr added]
    exact h.ctes

end Models

/-! ### Computations that enter expressions -/

namespace Models

variable {m : Memo K} {μ : GroupId → Meaning}

/-- An expression can be entered into a group with its meaning. -/
theorem insertKey (h : m.Models A μ) {id : GroupId} {key : ExprKey}
    (inputs : ∀ i ∈ key.inputs, i < m.groups.size)
    (logical : ∀ op, key.operator = .logical op → A.admits op ∧ op.InScope (key.inputs.map μ) ∧
      op.meaning I db (key.inputs.map μ) = μ id) :
    ((Memo.insertKey env key (some id)).exec m).2.Models A μ ∧
      m.Extends ((Memo.insertKey env key (some id)).exec m).2 ∧
      ∀ e, ((Memo.insertKey env key (some id)).exec m).1 = .error e →
        ((Memo.insertKey env key (some id)).exec m).2 = m := by
  rw [exec_insertKey_some]
  split
  · exact ⟨h, .refl m, fun _ _ => rfl⟩
  · split
    · rename_i m' place added
      exact ⟨h.addExpr added inputs logical, .addExpr added, fun _ he => by cases he⟩
    · exact ⟨h, .refl m, fun _ _ => rfl⟩

/-- An expression that is found again means what its group means. -/
theorem meaning_of_index (h : m.Models A μ) {op : LogicalOperator} {inputs : List GroupId}
    {place : ExprId} (found : m.index[(⟨.logical op, inputs⟩ : ExprKey)]? = some place) :
    place.group < m.groups.size ∧ op.meaning I db (inputs.map μ) = μ place.group := by
  obtain ⟨⟨op', inputs'⟩, hk, equal⟩ := h.index found
  refine ⟨lt_of_key? hk, ?_⟩
  have bare := ExprKey.beq_iff_bare.1 equal
  simp only [ExprKey.bare, ExprKey.mk.injEq] at bare
  obtain ⟨hop, rfl⟩ := bare
  cases op' with
  | physical op' => cases hop
  | logical op' =>
    rw [← h.meaning hk]
    exact LogicalOperator.meaning_eq_of_beq I db
      (LogicalOperator.beq_iff_bare.2 (Operator.logical.inj hop).symm) _

/-! ### New groups -/

/-- The meaning of a new group does not count for earlier groups. -/
theorem map_update {ids : List GroupId} {n : Nat} (below : ∀ i ∈ ids, i < n) (M : Meaning) :
    ids.map (Function.update μ n M) = ids.map μ :=
  List.map_congr_left fun i hi => Function.update_of_ne (Nat.ne_of_lt (below i hi)) M μ

/-- A group can be added with the meaning of an operator over other groups. -/
theorem addGroup (h : m.Models A μ) {op : LogicalOperator} {inputs : List GroupId}
    (admits : A.admits op) (scope : op.InScope (inputs.map μ))
    (registers : ∀ p r, op = .cteProducer p → A.describes r (op.meaning I db (inputs.map μ)) →
      A.shares p.id { r with cols := p.cols })
    (below : ∀ i ∈ inputs, i < m.groups.size) {r : Relation K}
    (derived : m.relations inputs >>= op.derive env m.ctes = .ok r) :
    (m.addGroup op r).Models A
      (Function.update μ m.groups.size (op.meaning I db (inputs.map μ))) := by
  obtain ⟨rels, hrels, derived⟩ := OptResult.bind_eq_ok.1 derived
  have inputsSound : ∀ M ∈ inputs.map μ, M.Sound := by
    intro M hM
    obtain ⟨i, hi, rfl⟩ := List.mem_map.1 hM
    exact h.sound (below i hi)
  have described : A.describes r (op.meaning I db (inputs.map μ)) :=
    A.derive admits scope inputsSound (h.relations hrels) h.ctes derived
  have old {id : GroupId} (hid : id < m.groups.size) (M : Meaning) :
      Function.update μ m.groups.size M id = μ id :=
    Function.update_of_ne (Nat.ne_of_lt hid) M μ
  refine ⟨fun {id r'} hr => ?_, fun {id} hid => ?_, fun hk i hi => ?_, fun hk =>
    ?_, fun hk => ?_, fun hk => ?_, fun hk => ?_, fun entry he => ?_⟩
  · rw [relation?_addGroup] at hr
    split at hr
    · rename_i hid
      obtain rfl := Option.some.inj hr
      rw [hid, Function.update_self]
      exact described
    · rw [old (lt_of_relation? hr)]
      exact h.describes hr
  · rw [size_addGroup] at hid
    by_cases hnew : id = m.groups.size
    · rw [hnew, Function.update_self]
      exact scope.fits.sound inputsSound
    · rw [Function.update_of_ne hnew]
      exact h.sound (by omega)
  · rw [key?_addGroup] at hk
    rw [size_addGroup]
    exact Nat.lt_succ_of_lt (h.inputs hk i hi)
  · exact h.admits ((key?_addGroup m op r _).symm.trans hk)
  · rw [key?_addGroup] at hk
    rw [map_update (h.inputs hk)]
    exact h.inScope hk
  · rw [key?_addGroup] at hk
    rw [map_update (h.inputs hk), old (lt_of_key? hk)]
    exact h.meaning hk
  · obtain ⟨k', hk', equal⟩ := h.index hk
    exact ⟨k', (key?_addGroup m op r _).trans hk', equal⟩
  · rcases mem_ctes_addGroup m op r he with he | ⟨p, hp, rfl⟩
    · exact h.ctes entry he
    · exact registers p r hp described

end Models

namespace Later

variable {m m' m'' : Memo K} {μ μ' μ'' : GroupId → Meaning}

/-- A memo with a model is later than itself. -/
theorem refl (h : m.Models A μ) : Later A m μ m μ :=
  ⟨h, .refl m, fun _ _ => rfl⟩

/-- What is later than something later is later. -/
theorem trans (h : Later A m μ m' μ') (h' : Later A m' μ' m'' μ'') : Later A m μ m'' μ'' where
  models := h'.models
  extended := h.extended.trans h'.extended
  agree id hid :=
    (h'.agree id (Nat.lt_of_lt_of_le hid h.extended.size_le)).trans (h.agree id hid)

end Later

/-! ### Computations that add groups -/

/-- The groups of `m` have the same expressions in `m'`. -/
def Spares (m m' : Memo K) : Prop :=
  ∀ id, id.group < m.groups.size → m'.key? id = m.key? id

/-- A computation adds groups to a modelled memo and leaves all others alone; if it has a
result, that is as `post` says. -/
def Adds {α : Type} (A : Analysis env I db) (m : Memo K) (μ : GroupId → Meaning)
    (x : MemoM K α) (post : α → Memo K → (GroupId → Meaning) → Prop) : Prop :=
  ∃ μ', Later A m μ (x.exec m).2 μ' ∧ m.Spares (x.exec m).2 ∧
    ∀ a, (x.exec m).1 = .ok a → post a (x.exec m).2 μ'

namespace Adds

variable {α β : Type} {m : Memo K} {μ : GroupId → Meaning}
  {post : α → Memo K → (GroupId → Meaning) → Prop}

/-- A returned value adds nothing. -/
theorem pure (h : m.Models A μ) {a : α} (ha : post a m μ) : Adds A m μ (pure a) post :=
  ⟨μ, .refl h, fun _ _ => rfl, fun _ e => Except.ok.inj e ▸ ha⟩

/-- An error adds nothing. -/
theorem throw (h : m.Models A μ) (e : OptError) : Adds A m μ (throw e) post :=
  ⟨μ, .refl h, fun _ _ => rfl, fun _ he => by cases he⟩

/-- A composition adds what its parts add. -/
theorem bind {x : MemoM K α} {f : α → MemoM K β}
    {post' : β → Memo K → (GroupId → Meaning) → Prop} (hx : Adds A m μ x post)
    (hf : ∀ a m' μ', Later A m μ m' μ' → post a m' μ' → Adds A m' μ' (f a) post') :
    Adds A m μ (x >>= f) post' := by
  obtain ⟨μ', later, spares, result⟩ := hx
  unfold Adds
  rw [MemoM.exec_bind]
  rcases h : x.exec m with ⟨e | a, m'⟩
  · rw [h] at later spares
    exact ⟨μ', later, spares, fun _ he => by cases he⟩
  · rw [h] at later spares result
    obtain ⟨μ'', later', spares', result'⟩ := hf a m' μ' later (result a rfl)
    refine ⟨μ'', later.trans later', fun id hid => ?_, result'⟩
    rw [spares' id (Nat.lt_of_lt_of_le hid later.extended.size_le), spares id hid]

/-- What is known of the result may be weakened. -/
theorem imp {x : MemoM K α} {post' : α → Memo K → (GroupId → Meaning) → Prop}
    (hx : Adds A m μ x post)
    (h : ∀ a m' μ', Later A m μ m' μ' → post a m' μ' → post' a m' μ') :
    Adds A m μ x post' := by
  obtain ⟨μ', later, spares, result⟩ := hx
  exact ⟨μ', later, spares, fun a ha => h a _ μ' later (result a ha)⟩

end Adds

namespace Models

variable {m : Memo K} {μ : GroupId → Meaning}

/-- An expression can be entered into a new group, unless it is known. Its group means what the
expression means. -/
theorem startKey (h : m.Models A μ) {op : LogicalOperator} {inputs : List GroupId}
    (admits : A.admits op) (scope : op.InScope (inputs.map μ))
    (registers : ∀ p r, op = .cteProducer p → A.describes r (op.meaning I db (inputs.map μ)) →
      A.shares p.id { r with cols := p.cols })
    (below : ∀ i ∈ inputs, i < m.groups.size) :
    Adds A m μ (Memo.insertKey env ⟨.logical op, inputs⟩ none) fun r m' μ' =>
      r.1.group < m'.groups.size ∧ μ' r.1.group = op.meaning I db (inputs.map μ) := by
  unfold Adds
  rw [exec_insertKey_none]
  cases found : m.index[(⟨.logical op, inputs⟩ : ExprKey)]? with
  | some place =>
    obtain ⟨inside, meaning⟩ := h.meaning_of_index found
    refine ⟨μ, .refl h, fun _ _ => rfl, fun r hr => ?_⟩
    obtain rfl := Except.ok.inj hr
    exact ⟨inside, meaning.symm⟩
  | none =>
    simp only [exec_startGroup]
    cases derived : m.relations inputs >>= op.derive env m.ctes with
    | error e => exact ⟨μ, .refl h, fun _ _ => rfl, fun _ hr => by cases hr⟩
    | ok r =>
      have models := h.addGroup admits scope registers below derived
      obtain ⟨m', place, added⟩ :=
        exists_addExpr (m.addGroup op r) m.groups.size ⟨.logical op, inputs⟩ (by simp)
      have group := group_of_addExpr added
      have map := map_update (μ := μ) below (op.meaning I db (inputs.map μ))
      simp only [added]
      refine ⟨Function.update μ m.groups.size (op.meaning I db (inputs.map μ)),
        ⟨models.addExpr added (fun i hi => ?_) fun op' hop => ?_,
          .startGroup m op r below added, fun id hid => ?_⟩,
        fun id hid => ?_, fun r' hr => ?_⟩
      · rw [size_addGroup]
        exact Nat.lt_succ_of_lt (below i hi)
      · obtain rfl := Operator.logical.inj hop
        simp only [map, Function.update_self]
        exact ⟨admits, scope, trivial⟩
      · exact Function.update_of_ne (Nat.ne_of_lt hid) _ μ
      · rw [key?_addExpr added, if_neg, key?_addGroup]
        rintro rfl
        exact Nat.ne_of_lt hid group
      · obtain rfl := Except.ok.inj hr
        rw [size_addExpr added, size_addGroup, group, Function.update_self]
        exact ⟨Nat.lt_succ_self _, rfl⟩

end Models

end Memo

end QueryOptimizer
