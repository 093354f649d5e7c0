import QueryOptimizer.Proofs.Memo.Model

/-!
# Entering trees

A tree that a rule has made consists of new operators on top of groups and expressions of a
memo. It has a meaning once the groups have one (`ExprTree.meaning`), and it can be entered
into a group with that meaning when its operators are in scope (`ExprTree.Insertable`).

## Main results

* `Memo.Models.insertInputs`: the inputs of a tree are entered into groups with their meanings.
* `Memo.Models.insertTree`: a memo stays modelled when a tree is entered, and also when
  that fails in the middle.
-/

namespace QueryOptimizer

variable {K : Type} [Quantity K] {env : Environment K} {I : Interpretation} {db : Database}
  {A : Analysis env I db}

namespace ExprTree

mutual

/-- What a tree means over groups with known meanings. A physical operator carries out a
logical one and has no meaning of its own. -/
def meaning (I : Interpretation) (db : Database) (μ : GroupId → Meaning) : ExprTree → Meaning
  | operator (.logical op) inputs => op.meaning I db (meanings I db μ inputs)
  | operator (.physical _) _ => .void
  | expr id _ => μ id.group
  | group id => μ id
termination_by structural t => t

/-- What the trees of a list mean. -/
def meanings (I : Interpretation) (db : Database) (μ : GroupId → Meaning) :
    List ExprTree → List Meaning
  | [] => []
  | t :: ts => meaning I db μ t :: meanings I db μ ts
termination_by structural ts => ts

end

/-- Whether a tree of logical operators over the first `count` groups can be entered. -/
inductive Insertable (A : Analysis env I db) (count : Nat) (μ : GroupId → Meaning) :
    ExprTree → Prop
  | group {id : GroupId} (inside : id < count) : Insertable A count μ (.group id)
  | expr {id : ExprId} {inputs : List ExprTree} (inside : id.group < count) :
      Insertable A count μ (.expr id inputs)
  | operator {op : LogicalOperator} {inputs : List ExprTree} (admits : A.admits op)
      (scope : op.InScope (meanings I db μ inputs)) (notProducer : ∀ p, op ≠ .cteProducer p)
      (below : ∀ t ∈ inputs, Insertable A count μ t) :
      Insertable A count μ (.operator (.logical op) inputs)

variable {μ μ' : GroupId → Meaning} {count : Nat}

mutual

/-- The meaning of a tree only depends on the groups in it. -/
theorem Insertable.meaning_congr (agree : ∀ id < count, μ' id = μ id) :
    ∀ {t : ExprTree}, Insertable A count μ t → t.meaning I db μ' = t.meaning I db μ
  | .group _, .group inside => by simp only [meaning, agree _ inside]
  | .expr _ _, .expr inside => by simp only [meaning, agree _ inside]
  | .operator _ inputs, .operator _ _ _ below => by
    simp only [meaning, Insertable.meanings_congr agree below]

/-- Trees mean the same if the groups below them do. -/
theorem Insertable.meanings_congr (agree : ∀ id < count, μ' id = μ id) :
    ∀ {ts : List ExprTree}, (∀ t ∈ ts, Insertable A count μ t) →
      meanings I db μ' ts = meanings I db μ ts
  | [], _ => by simp only [meanings]
  | t :: ts, h => by
    simp only [meanings, Insertable.meaning_congr agree (h t (by simp)),
      Insertable.meanings_congr agree fun u hu => h u (List.mem_cons_of_mem t hu)]

end

/-- A tree stays insertable while groups are added. -/
theorem Insertable.later {count' : Nat} (le : count ≤ count')
    (agree : ∀ id < count, μ' id = μ id) {t : ExprTree} (h : Insertable A count μ t) :
    Insertable A count' μ' t := by
  induction h with
  | group inside => exact .group (Nat.lt_of_lt_of_le inside le)
  | expr inside => exact .expr (Nat.lt_of_lt_of_le inside le)
  | operator admits scope notProducer below ih =>
    refine .operator admits ?_ notProducer ih
    rwa [Insertable.meanings_congr agree below]

end ExprTree

namespace Memo

namespace Models

variable {m : Memo K} {μ : GroupId → Meaning}

open ExprTree

/-- The groups of inputs go on meaning what they mean when others are added. -/
theorem cons_later {id : GroupId} {ids : List GroupId} {M : Meaning} {Ms : List Meaning}
    {m m' : Memo K} {μ μ' : GroupId → Meaning} (later : Later A m μ m' μ')
    (first : id < m.groups.size ∧ μ id = M)
    (rest : (∀ i ∈ ids, i < m'.groups.size) ∧ ids.map μ' = Ms) :
    (∀ i ∈ id :: ids, i < m'.groups.size) ∧ (id :: ids).map μ' = M :: Ms := by
  refine ⟨fun i hi => ?_, ?_⟩
  · rcases List.mem_cons.1 hi with rfl | hi
    · exact Nat.lt_of_lt_of_le first.1 later.extended.size_le
    · exact rest.1 i hi
  · rw [List.map_cons, later.agree id first.1, first.2, rest.2]

/-- Inserting inputs adds what they mean if it does so for the first one
and for the others. -/
theorem insertInputs_cons {t : ExprTree} {ts : List ExprTree}
    (ht : ∀ u ∈ ts, u.Insertable A m.groups.size μ)
    (node : Adds A m μ (Memo.insertNode env none t) fun r m' μ' =>
      r.1.group < m'.groups.size ∧ μ' r.1.group = t.meaning I db μ)
    (rest : ∀ {m' μ'}, m'.Models A μ' → (∀ u ∈ ts, u.Insertable A m'.groups.size μ') →
      Adds A m' μ' (Memo.insertInputs env ts) fun ids m'' μ'' =>
        (∀ i ∈ ids, i < m''.groups.size) ∧ ids.map μ'' = meanings I db μ' ts) :
    Adds A m μ (do
        let (place, _) ← Memo.insertNode env none t
        return place.group :: (← Memo.insertInputs env ts))
      fun ids m' μ' => (∀ i ∈ ids, i < m'.groups.size) ∧
        ids.map μ' = meanings I db μ (t :: ts) := by
  refine node.bind fun r m' μ' later first => ?_
  have below : ∀ u ∈ ts, u.Insertable A m'.groups.size μ' :=
    fun u hu => (ht u hu).later later.extended.size_le later.agree
  refine (rest later.models below).bind fun ids m'' μ'' later' others => .pure later'.models ?_
  rw [Insertable.meanings_congr later.agree ht] at others
  simpa only [meanings] using cons_later later' first others

mutual

/-- A tree can be entered into a group of its own, whichever that is. -/
theorem insertNode : ∀ {t : ExprTree} {m : Memo K} {μ : GroupId → Meaning}, m.Models A μ →
    t.Insertable A m.groups.size μ →
    Adds A m μ (Memo.insertNode env none t) fun r m' μ' =>
      r.1.group < m'.groups.size ∧ μ' r.1.group = t.meaning I db μ
  | .group id, _, _, h, _ => .throw h (.groupNotInsertable id)
  | .expr id inputs, _, _, h, .expr inside => .pure h ⟨inside, by simp only [ExprTree.meaning]⟩
  | .operator (.logical op) inputs, _, _, h, .operator admits scope notProducer below =>
    (h.insertInputs below).bind fun ids m' μ' later ⟨inside, means⟩ =>
      (later.models.startKey admits (means ▸ scope) (fun p _ hp => absurd hp (notProducer p))
        inside).imp fun r m'' μ'' _ ⟨inside', means'⟩ =>
          ⟨inside', by rw [means', means]; simp only [ExprTree.meaning]⟩

/-- The inputs of a tree can be entered into groups with their meanings. -/
theorem insertInputs : ∀ {ts : List ExprTree} {m : Memo K} {μ : GroupId → Meaning},
    m.Models A μ → (∀ t ∈ ts, t.Insertable A m.groups.size μ) →
    Adds A m μ (Memo.insertInputs env ts) fun ids m' μ' =>
      (∀ i ∈ ids, i < m'.groups.size) ∧ ids.map μ' = meanings I db μ ts
  | [], _, _, h, _ =>
    .pure h ⟨fun _ hi => by simp at hi, by simp only [meanings, List.map_nil]⟩
  | .group id :: ts, _, _, h, ht =>
    (h.insertInputs fun u hu => ht u (List.mem_cons_of_mem _ hu)).bind
      fun ids m' μ' later others => .pure later.models (by
        obtain ⟨inside⟩ := ht (.group id) (by simp)
        simpa only [meanings, ExprTree.meaning] using
          cons_later later ⟨inside, rfl⟩ others)
  | .expr id inputs :: ts, _, _, h, ht =>
    insertInputs_cons (fun u hu => ht u (List.mem_cons_of_mem _ hu))
      (h.insertNode (ht (.expr id inputs) (by simp))) fun h' => h'.insertInputs
  | .operator op inputs :: ts, _, _, h, ht =>
    insertInputs_cons (fun u hu => ht u (List.mem_cons_of_mem _ hu))
      (h.insertNode (ht (.operator op inputs) (by simp))) fun h' => h'.insertInputs

end

/-! ### Failing in the middle -/

omit [Quantity K] in
/-- Truncation gives back the expressions of a memo that was spared. -/
theorem key?_truncate_of_spares {m' : Memo K} (spares : m.Spares m') (id : ExprId) :
    (m'.truncate m.groups.size).key? id = m.key? id := by
  rw [key?_truncate]
  split
  · rename_i inside
    exact spares id inside
  · rename_i outside
    refine (Option.eq_none_iff_forall_ne_some.2 fun k hk => outside (lt_of_key? hk)).symm

omit [Quantity K] in
/-- Truncation gives back what was known of the groups of a memo. -/
theorem relation?_truncate_of_extends {m' : Memo K} (extended : m.Extends m') (id : GroupId) :
    (m'.truncate m.groups.size).relation? id = m.relation? id := by
  rw [relation?_truncate]
  split
  · rename_i inside
    cases hr : m.relation? id with
    | none => exact absurd inside (Nat.not_lt_of_le (relation?_eq_none_iff.1 hr))
    | some r => exact extended.relation id r hr
  · rename_i outside
    exact (relation?_eq_none_iff.2 (Nat.le_of_not_lt outside)).symm

/-- Dropping the groups that were added leaves a modelled memo. -/
theorem truncate {m' : Memo K} {μ' : GroupId → Meaning} (h : m.Models A μ)
    (later : Later A m μ m' μ') (spares : m.Spares m') :
    Later A m μ (m'.truncate m.groups.size) μ := by
  have key := key?_truncate_of_spares spares
  have relation := relation?_truncate_of_extends later.extended
  have size : (m'.truncate m.groups.size).groups.size = m.groups.size := by
    rw [size_truncate]
    exact Nat.min_eq_left later.extended.size_le
  refine ⟨⟨fun hr => h.describes ((relation _).symm.trans hr), fun hid => h.sound (size ▸ hid),
    fun hk i hi => Nat.lt_of_lt_of_eq (h.inputs ((key _).symm.trans hk) i hi) size.symm,
    fun hk => h.admits ((key _).symm.trans hk), fun hk => h.inScope ((key _).symm.trans hk),
    fun hk => h.meaning ((key _).symm.trans hk), fun {k place} hk => ?_, ?_⟩,
    .ofSize size (fun id r hr => (relation id).trans hr) (fun id k hk => (key id).trans hk)
      ((root_truncate _ _).trans later.extended.root), fun _ _ => rfl⟩
  · obtain ⟨found, inside⟩ := index_truncate hk
    obtain ⟨k', hk', equal⟩ := later.models.index found
    refine ⟨k', ?_, equal⟩
    rw [key, ← spares place, hk']
    exact inside.elim id fun all => Nat.lt_of_lt_of_le (lt_of_key? hk') all
  · rw [ctes_truncate]
    exact later.models.ctes

/-- A tree can be entered into a group that means the same. -/
theorem insertTree (h : m.Models A μ) {id : GroupId} {op : Operator} {inputs : List ExprTree}
    (inside : id < m.groups.size) (below : ∀ t ∈ inputs, t.Insertable A m.groups.size μ)
    (logical : ∀ lop, op = .logical lop → A.admits lop ∧ lop.InScope (meanings I db μ inputs) ∧
      lop.meaning I db (meanings I db μ inputs) = μ id) :
    ∃ μ', Later A m μ
      ((Memo.insertTree env (.operator op inputs) (some id)).exec m).2 μ' := by
  obtain ⟨μ', later, spares, entered⟩ := h.insertInputs below
  simp only [Memo.insertTree, MemoM.exec_bind, MemoM.exec_get, MemoM.exec_tryCatch,
    Memo.insertNode]
  rcases hr : (Memo.insertInputs env inputs).exec m with ⟨e | ids, m'⟩
  · rw [hr] at later spares
    exact ⟨μ, h.truncate later spares⟩
  · rw [hr] at later spares entered
    obtain ⟨known, means⟩ := entered ids rfl
    obtain ⟨models, extended, failed⟩ :
        ((Memo.insertKey env ⟨op, ids⟩ (some id)).exec m').2.Models A μ' ∧
          m'.Extends ((Memo.insertKey env ⟨op, ids⟩ (some id)).exec m').2 ∧
          ∀ e, ((Memo.insertKey env ⟨op, ids⟩ (some id)).exec m').1 = .error e →
            ((Memo.insertKey env ⟨op, ids⟩ (some id)).exec m').2 = m' :=
      later.models.insertKey known fun lop hop => by
        obtain ⟨admits, scope, same⟩ := logical lop hop
        rw [means, later.agree id inside]
        exact ⟨admits, scope, same⟩
    simp only
    rcases hk : (Memo.insertKey env ⟨op, ids⟩ (some id)).exec m' with ⟨e | r, m''⟩
    · rw [hk] at failed
      obtain rfl := failed e rfl
      exact ⟨μ, h.truncate later spares⟩
    · rw [hk] at models extended
      exact ⟨μ', later.trans ⟨models, extended, fun _ _ => rfl⟩⟩

end Models

end Memo

end QueryOptimizer
