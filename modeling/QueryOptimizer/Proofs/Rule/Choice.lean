import QueryOptimizer.Proofs.Memo.Coherence
import Mathlib.Data.List.Lex

/-!
# Bindings are choices

To bind a pattern below an expression means to choose: for each node of the pattern a
logical expression of the group that is the input there. `Memo.Chosen` says which trees are
made by such choices, without saying how they are found. The expressions that a tree has
chosen, by their positions in their groups and from the root down, tell it apart from all
other trees for the same pattern.

A group as a whole is bound by way of its first logical expression. So nothing is missed only
if every input has one, as in all memos of a search.

## Main results

* `Memo.mem_bindAt`: the trees found are the trees that can be chosen.
* `Memo.pairwise_bindAt`: they are found in the lexicographic order of the positions.
* `Memo.bindings_are_choices`: both for the bindings at an expression, in every
  memo of a search.
-/

namespace QueryOptimizer

namespace ExprTree

mutual

/-- The positions in their groups of the expressions in a tree, each before those below it. -/
def positions : ExprTree → List Nat
  | operator _ inputs => positionsBelow inputs
  | expr id inputs => id.index :: positionsBelow inputs
  | group _ => []
termination_by structural t => t

/-- The positions of the expressions in trees, from left to right. -/
def positionsBelow : List ExprTree → List Nat
  | [] => []
  | t :: ts => t.positions ++ positionsBelow ts
termination_by structural ts => ts

end

/-- Groups take no choice. -/
@[simp] theorem positionsBelow_groups (ids : List GroupId) :
    positionsBelow (ids.map group) = [] := by
  induction ids with
  | nil => rfl
  | cons id ids ih =>
    simpa only [List.map_cons, positionsBelow, positions, List.nil_append] using ih

end ExprTree

namespace Pattern

mutual

/-- The number of expressions that a pattern looks at. -/
def choices : Pattern → Nat
  | group => 0
  | leaf _ => 1
  | node _ patterns => choicesBelow patterns + 1
termination_by structural p => p

/-- The number of expressions that patterns look at. -/
def choicesBelow : List Pattern → Nat
  | [] => 0
  | p :: ps => p.choices + choicesBelow ps
termination_by structural ps => ps

end

end Pattern

namespace Memo

variable {K : Type} {m : Memo K}

mutual

/-- The trees that can be chosen for a pattern with the expression at a place as their root.
The expression is logical and accepted. The inputs of a leaf are groups, and for a group only
the group of the place matters. -/
inductive Chosen (m : Memo K) : Pattern → ExprId → ExprTree → Prop
  | group {id : ExprId} : Chosen m .group id (.group id.group)
  | leaf {accepts : Operator → Bool} {id : ExprId} {op : LogicalOperator}
      {inputs : List GroupId} (stored : m.key? id = some ⟨.logical op, inputs⟩)
      (accepted : accepts (.logical op) = true) :
      Chosen m (.leaf accepts) id (.expr id (inputs.map .group))
  | node {accepts : Operator → Bool} {patterns : List Pattern} {id : ExprId}
      {op : LogicalOperator} {inputs : List GroupId} {ts : List ExprTree}
      (stored : m.key? id = some ⟨.logical op, inputs⟩)
      (accepted : accepts (.logical op) = true) (below : ChosenBelow m patterns inputs ts) :
      Chosen m (.node accepts patterns) id (.expr id ts)

/-- The lists of trees that can be chosen for as many patterns, with roots in as
many groups. -/
inductive ChosenBelow (m : Memo K) : List Pattern → List GroupId → List ExprTree → Prop
  | nil : ChosenBelow m [] [] []
  | cons {p : Pattern} {ps : List Pattern} {id : ExprId} {ids : List GroupId} {t : ExprTree}
      {ts : List ExprTree} (first : Chosen m p id t) (others : ChosenBelow m ps ids ts) :
      ChosenBelow m (p :: ps) (id.group :: ids) (t :: ts)

end

/-- Whether each input of an expression is a group with a logical expression. -/
def Filled (m : Memo K) : Prop :=
  ∀ place key, m.key? place = some key → ∀ id ∈ key.inputs,
    ∃ i op inputs, m.key? ⟨id, i⟩ = some ⟨.logical op, inputs⟩

/-- Each group of a coherent memo has a logical expression. -/
theorem Coherent.filled (h : m.Coherent) : m.Filled :=
  fun _ _ hk id hid => ⟨0, h.first id (h.inputs hk id hid)⟩

/-! ### The expressions of a group -/

/-- The logical places of a group are those of its logical expressions. -/
theorem mem_logicalPlaces {g : GroupId} {id : ExprId} :
    id ∈ m.logicalPlaces g ↔ id.group = g ∧
      ∃ op inputs, m.key? id = some ⟨.logical op, inputs⟩ := by
  unfold logicalPlaces
  cases hg : m.groups[g]? with
  | none =>
    simp only [Option.elim_none, List.not_mem_nil, false_iff]
    rintro ⟨rfl, op, inputs, hk⟩
    simp [key?, hg] at hk
  | some group =>
    simp only [Option.elim_some]
    rw [Group.logicalPlaces, mem_placesOf (group_eq_ok.2 hg)]
    refine and_congr_right fun _ => ⟨?_, ?_⟩
    · rintro ⟨⟨op | op, inputs⟩, hk, logical⟩
      · exact ⟨op, inputs, hk⟩
      · cases logical
    · rintro ⟨op, inputs, hk⟩
      exact ⟨_, hk, rfl⟩

/-- The expressions that pass a test are those at the given places that do. -/
theorem mem_exprsWhere_iff {ids : List ExprId} {p : Expr K → Bool} {id : ExprId} {e : Expr K} :
    (id, e) ∈ m.exprsWhere ids p ↔ id ∈ ids ∧ m.expr id = .ok e ∧ p e = true := by
  refine ⟨mem_exprsWhere, fun ⟨hid, he, passes⟩ => List.mem_filterMap.2 ⟨id, hid, ?_⟩⟩
  simp only [he, passes, if_true]

/-- The logical expressions of a group are listed by rising position. -/
theorem pairwise_logicalPlaces (g : GroupId) :
    (m.logicalPlaces g).Pairwise fun id id' => id.index < id'.index := by
  unfold logicalPlaces
  cases m.groups[g]? with
  | none => exact .nil
  | some group =>
    refine List.pairwise_lt_range.filterMap _ fun i j lt id hid id' hid' => ?_
    simp only [Option.ite_none_right_eq_some, Option.some.injEq] at hid hid'
    obtain ⟨-, rfl⟩ := hid
    obtain ⟨-, rfl⟩ := hid'
    exact lt

/-- The expressions that pass a test are listed in the order of the places. -/
theorem map_fst_exprsWhere_sublist (ids : List ExprId) (p : Expr K → Bool) :
    ((m.exprsWhere ids p).map Prod.fst).Sublist ids := by
  induction ids with
  | nil => exact .slnil
  | cons id ids ih =>
    cases he : m.expr id with
    | error _ => simpa [exprsWhere, he] using ih.cons id
    | ok e =>
      cases passes : p e with
      | false => simpa [exprsWhere, he, passes] using ih.cons id
      | true => simpa [exprsWhere, he, passes] using ih

/-- The expressions that pass a test rise if the places do. -/
theorem pairwise_exprsWhere {ids : List ExprId} {p : Expr K → Bool}
    (rising : ids.Pairwise fun id id' => id.index < id'.index) :
    (m.exprsWhere ids p).Pairwise fun x y => x.1.index < y.1.index := by
  have places :
      ((m.exprsWhere ids p).map Prod.fst).Pairwise fun id id' => id.index < id'.index :=
    rising.sublist (map_fst_exprsWhere_sublist ids p)
  rwa [List.pairwise_map] at places

/-- Among logical expressions of a group, a test finds those that pass it. -/
theorem exists_mem_exprsWhere {ids : List ExprId} {g : GroupId}
    (logical : ∀ id ∈ ids, id ∈ m.logicalPlaces g) (passes : ExprKey → Bool)
    (Q : ExprId → ExprKey → Prop) :
    (∃ x ∈ m.exprsWhere ids (passes ·.toExprKey), Q x.1 x.2.toExprKey) ↔
      ∃ id ∈ ids, ∃ op inputs, m.key? id = some ⟨.logical op, inputs⟩ ∧
        passes ⟨.logical op, inputs⟩ = true ∧ Q id ⟨.logical op, inputs⟩ := by
  constructor
  · rintro ⟨⟨id, e⟩, hx, hQ⟩
    obtain ⟨hid, he, hp⟩ := mem_exprsWhere hx
    obtain ⟨-, op, inputs, hk⟩ := mem_logicalPlaces.1 (logical id hid)
    have same : e.toExprKey = ⟨.logical op, inputs⟩ :=
      Option.some.inj ((key?_of_expr he).symm.trans hk)
    exact ⟨id, hid, op, inputs, hk, same ▸ hp, same ▸ hQ⟩
  · rintro ⟨id, hid, op, inputs, hk, hp, hQ⟩
    obtain ⟨e, he, same⟩ := exists_expr_of_key? hk
    exact ⟨(id, e), mem_exprsWhere_iff.2 ⟨hid, he, same ▸ hp⟩, same ▸ hQ⟩

/-! ### What is found -/

/-- Below an expression the choice among all places of a group is one among its
logical expressions. -/
theorem exists_chosen_iff {g : GroupId} (nonempty : m.logicalPlaces g ≠ []) {p : Pattern}
    {t : ExprTree} :
    (∃ id ∈ m.logicalPlaces g, m.Chosen p id t) ↔ ∃ id, id.group = g ∧ m.Chosen p id t := by
  constructor
  · rintro ⟨id, hid, chosen⟩
    exact ⟨id, (mem_logicalPlaces.1 hid).1, chosen⟩
  · rintro ⟨id, here, chosen⟩
    cases chosen with
    | group =>
      obtain ⟨first, hfirst⟩ := List.exists_mem_of_ne_nil _ nonempty
      have same : first.group = id.group := (mem_logicalPlaces.1 hfirst).1.trans here.symm
      exact ⟨first, hfirst, same ▸ .group⟩
    | leaf stored accepted =>
      exact ⟨id, mem_logicalPlaces.2 ⟨here, _, _, stored⟩, .leaf stored accepted⟩
    | node stored accepted below =>
      exact ⟨id, mem_logicalPlaces.2 ⟨here, _, _, stored⟩, .node stored accepted below⟩

/-- Trees are chosen for as many inputs as there are patterns. -/
theorem length_of_chosenBelow {ps : List Pattern} {ids : List GroupId} {ts : List ExprTree}
    (h : m.ChosenBelow ps ids ts) : ps.length = ids.length := by
  induction ps generalizing ids ts with
  | nil =>
    cases h
    rfl
  | cons p ps ih =>
    obtain - | ⟨-, others⟩ := h
    exact congrArg (· + 1) (ih others)

/-- The inputs of an expression of a filled memo have logical expressions. -/
theorem Filled.logicalPlaces_ne_nil (filled : m.Filled) {place : ExprId} {key : ExprKey}
    (hk : m.key? place = some key) {g : GroupId} (hg : g ∈ key.inputs) :
    m.logicalPlaces g ≠ [] := by
  obtain ⟨i, op, inputs, stored⟩ := filled place key hk g hg
  exact List.ne_nil_of_mem (mem_logicalPlaces.2 ⟨rfl, op, inputs, stored⟩)

mutual

/-- At logical expressions of one group, the trees that can be chosen are found. -/
theorem mem_bindAt (filled : m.Filled) : ∀ (p : Pattern) {ids : List ExprId} {g : GroupId}
    {t : ExprTree}, (∀ id ∈ ids, id ∈ m.logicalPlaces g) →
    (t ∈ m.bindAt p ids ↔ ∃ id ∈ ids, m.Chosen p id t)
  | .group, ids, g, t, logical => by
    simp only [bindAt, Option.mem_toList, Option.map_eq_some_iff]
    have same {id : ExprId} (hid : id ∈ ids) : id.group = g :=
      (mem_logicalPlaces.1 (logical id hid)).1
    constructor
    · rintro ⟨id, hid, rfl⟩
      exact ⟨id, List.mem_of_head? hid, .group⟩
    · rintro ⟨id, hid, ⟨⟩⟩
      obtain ⟨first, others, rfl⟩ := List.exists_cons_of_ne_nil (List.ne_nil_of_mem hid)
      exact ⟨first, rfl, by rw [same (by simp), same hid]⟩
  | .leaf accepts, ids, g, t, logical => by
    simp only [bindAt, List.mem_map]
    refine (exists_mem_exprsWhere logical (fun k => accepts k.operator)
      fun id k => .expr id (k.inputs.map .group) = t).trans ?_
    refine exists_congr fun id => and_congr_right fun _ => ⟨?_, ?_⟩
    · rintro ⟨op, inputs, stored, accepted, rfl⟩
      exact .leaf stored accepted
    · rintro (_ | ⟨stored, accepted⟩)
      exact ⟨_, _, stored, accepted, rfl⟩
  | .node accepts patterns, ids, g, t, logical => by
    simp only [bindAt, List.mem_flatMap, List.mem_map]
    refine (exists_mem_exprsWhere logical
      (fun k => accepts k.operator && patterns.length == k.inputs.length)
      fun id k => ∃ ts ∈ m.bindInputs patterns k.inputs, .expr id ts = t).trans ?_
    refine exists_congr fun id => and_congr_right fun _ => ?_
    have below {inputs : List GroupId} {op : LogicalOperator}
        (stored : m.key? id = some ⟨.logical op, inputs⟩)
        (length : patterns.length = inputs.length)
        {ts : List ExprTree} : ts ∈ m.bindInputs patterns inputs ↔
        m.ChosenBelow patterns inputs ts :=
      mem_bindInputs filled patterns length fun g hg => filled.logicalPlaces_ne_nil stored hg
    simp only [Bool.and_eq_true, beq_iff_eq]
    constructor
    · rintro ⟨op, inputs, stored, ⟨accepted, length⟩, ts, hts, rfl⟩
      exact .node stored accepted ((below stored length).1 hts)
    · rintro (_ | _ | ⟨stored, accepted, chosen⟩)
      have length := length_of_chosenBelow chosen
      exact ⟨_, _, stored, ⟨accepted, length⟩, _, (below stored length).2 chosen, rfl⟩

/-- In groups with logical expressions, the lists of trees that can be chosen are found. -/
theorem mem_bindInputs (filled : m.Filled) : ∀ (ps : List Pattern) {ids : List GroupId}
    {ts : List ExprTree}, ps.length = ids.length → (∀ g ∈ ids, m.logicalPlaces g ≠ []) →
    (ts ∈ m.bindInputs ps ids ↔ m.ChosenBelow ps ids ts)
  | [], ids, ts, length, nonempty => by
    obtain rfl := List.length_eq_zero_iff.1 length.symm
    rw [bindInputs, List.mem_singleton]
    constructor
    · rintro rfl
      exact .nil
    · rintro ⟨⟩
      rfl
  | p :: ps, ids, ts, length, nonempty => by
    obtain ⟨g, rest, rfl⟩ := List.exists_cons_of_length_eq_add_one length.symm
    obtain ⟨first, others⟩ := List.forall_mem_cons.1 nonempty
    have here (t : ExprTree) :
        t ∈ m.bindAt p (m.logicalPlaces g) ↔ ∃ id, id.group = g ∧ m.Chosen p id t :=
      (mem_bindAt filled p fun _ hid => hid).trans (exists_chosen_iff first)
    have below (us : List ExprTree) : us ∈ m.bindInputs ps rest ↔ m.ChosenBelow ps rest us :=
      mem_bindInputs filled ps (Nat.succ.inj length) others
    simp only [bindInputs, List.head?_cons, Option.elim_some, List.tail_cons, List.mem_flatMap,
      List.mem_map, here, below]
    constructor
    · rintro ⟨t, ⟨id, rfl, chosen⟩, us, hus, rfl⟩
      exact .cons chosen hus
    · rintro (_ | ⟨chosen, hus⟩)
      exact ⟨_, ⟨_, rfl, chosen⟩, _, hus, rfl⟩

end

/-! ### In which order -/

/-- Lists of equal length compare as they do before their continuations. -/
theorem append_lt_append {l l' : List Nat} (lt : l < l') (length : l.length = l'.length)
    (r r' : List Nat) : l ++ r < l' ++ r' := by
  induction lt with
  | nil => cases length
  | rel h => exact .rel h
  | cons _ ih => exact .cons (ih (Nat.succ.inj length))

mutual

/-- A binding has a position for each choice of its pattern. -/
theorem length_positions_of_mem : ∀ {p : Pattern} {ids : List ExprId} {t : ExprTree},
    t ∈ m.bindAt p ids → t.positions.length = p.choices
  | .group, ids, t, ht => by
    simp only [bindAt, Option.mem_toList, Option.map_eq_some_iff] at ht
    obtain ⟨id, -, rfl⟩ := ht
    rfl
  | .leaf accepts, ids, t, ht => by
    simp only [bindAt, List.mem_map] at ht
    obtain ⟨⟨id, e⟩, -, rfl⟩ := ht
    simp [ExprTree.positions, Pattern.choices]
  | .node accepts patterns, ids, t, ht => by
    simp only [bindAt, List.mem_flatMap, List.mem_map] at ht
    obtain ⟨⟨id, e⟩, -, ts, hts, rfl⟩ := ht
    simp only [ExprTree.positions, Pattern.choices, List.length_cons,
      length_positionsBelow_of_mem hts]

/-- Bindings of inputs have a position for each choice of their patterns. -/
theorem length_positionsBelow_of_mem : ∀ {ps : List Pattern} {ids : List GroupId}
    {ts : List ExprTree}, ts ∈ m.bindInputs ps ids →
    (ExprTree.positionsBelow ts).length = Pattern.choicesBelow ps
  | [], ids, ts, hts => by
    rw [bindInputs, List.mem_singleton] at hts
    subst hts
    rfl
  | p :: ps, ids, ts, hts => by
    simp only [bindInputs, List.mem_flatMap, List.mem_map] at hts
    obtain ⟨t, ht, us, hus, rfl⟩ := hts
    simp only [ExprTree.positionsBelow, Pattern.choicesBelow, List.length_append,
      length_positions_of_mem ht, length_positionsBelow_of_mem hus]

end

mutual

/-- At expressions by rising position, trees are found in the order of their positions. -/
theorem pairwise_bindAt : ∀ (p : Pattern) {ids : List ExprId},
    (ids.Pairwise fun id id' => id.index < id'.index) →
    (m.bindAt p ids).Pairwise fun t t' => t.positions < t'.positions
  | .group, ids, rising => by
    rw [bindAt]
    cases ids.head? with
    | none => exact .nil
    | some id => exact List.pairwise_singleton _ _
  | .leaf accepts, ids, rising => by
    rw [bindAt, List.pairwise_map]
    refine (pairwise_exprsWhere rising).imp fun lt => ?_
    simp only [ExprTree.positions]
    exact .rel lt
  | .node accepts patterns, ids, rising => by
    rw [bindAt, List.pairwise_flatMap]
    constructor
    · rintro ⟨id, e⟩ -
      rw [List.pairwise_map]
      refine (pairwise_bindInputs patterns e.inputs).imp fun lt => ?_
      simp only [ExprTree.positions]
      exact .cons lt
    · refine (pairwise_exprsWhere rising).imp fun lt t ht t' ht' => ?_
      obtain ⟨ts, -, rfl⟩ := List.mem_map.1 ht
      obtain ⟨ts', -, rfl⟩ := List.mem_map.1 ht'
      simp only [ExprTree.positions]
      exact .rel lt

/-- Bindings of inputs are listed in lexicographic order of their positions. -/
theorem pairwise_bindInputs : ∀ (ps : List Pattern) (ids : List GroupId),
    (m.bindInputs ps ids).Pairwise fun ts ts' =>
      ExprTree.positionsBelow ts < ExprTree.positionsBelow ts'
  | [], ids => by
    rw [bindInputs]
    exact List.pairwise_singleton _ _
  | p :: ps, ids => by
    have rising :
        (ids.head?.elim [] m.logicalPlaces).Pairwise fun id id' => id.index < id'.index := by
      cases ids with
      | nil => exact .nil
      | cons id _ => exact pairwise_logicalPlaces id
    rw [bindInputs, List.pairwise_flatMap]
    constructor
    · intro t ht
      rw [List.pairwise_map]
      refine (pairwise_bindInputs ps ids.tail).imp fun lt => ?_
      simp only [ExprTree.positionsBelow]
      exact List.Lex.append_left _ lt _
    · refine (pairwise_bindAt p rising).imp_of_mem fun ht ht' lt us hus us' hus' => ?_
      obtain ⟨ts, -, rfl⟩ := List.mem_map.1 hus
      obtain ⟨ts', -, rfl⟩ := List.mem_map.1 hus'
      simp only [ExprTree.positionsBelow]
      exact append_lt_append lt
        ((length_positions_of_mem ht).trans (length_positions_of_mem ht').symm) _ _

end

end Memo

/-! ### An example -/

namespace Sample

open Memo

/-- The expressions of four groups: a limit over a join of two tables, which is
entered in both orders. -/
def crossedKeys : List (List ExprKey) :=
  [[⟨.logical scan, []⟩], [⟨.logical list, []⟩],
    [⟨.logical lookup, [0, 1]⟩, ⟨.logical lookup, [1, 0]⟩],
    [⟨.logical (.limit ⟨0, some 1, {}⟩), [2]⟩]]

def crossed {K : Type} (r : Relation K) : Memo K where
  groups := (crossedKeys.zipIdx.map fun (keys, id) => { r with
    id, exprs := (keys.map fun key => ({ key with } : Expr K)).toArray }).toArray
  root := 3

/-- A limit over a join that starts with any expression. -/
def limitedJoin : Pattern :=
  .node (·.limit?.isSome) [.node Operator.isInnerJoin [.leaf Pattern.any, .group]]

/-- Each group of the sample has a logical expression. -/
theorem filled_crossed {K : Type} (r : Relation K) : (crossed r).Filled := by
  have first : ∀ id < 4, ∃ i op inputs, (crossed r).key? ⟨id, i⟩ = some ⟨.logical op, inputs⟩
    | 0, _ | 1, _ | 2, _ | 3, _ => ⟨0, _, _, rfl⟩
  have inside : ∀ keys ∈ crossedKeys, ∀ key ∈ keys, ∀ id ∈ key.inputs, id < 4 := by decide
  intro place key hk id hid
  obtain ⟨g, hg, found⟩ := Option.bind_eq_some_iff.1 hk
  obtain ⟨e, he, rfl⟩ := Option.map_eq_some_iff.1 found
  obtain ⟨⟨keys, i⟩, hkeys, rfl⟩ :=
    List.mem_map.1 (List.mem_toArray.1 (Array.mem_of_getElem? hg))
  obtain ⟨key, hkey, rfl⟩ := List.mem_map.1 (List.mem_toArray.1 (Array.mem_of_getElem? he))
  exact first id (inside keys (List.fst_mem_of_mem_zipIdx hkeys) key hkey id hid)

/-- The tree that chooses one of the two joins and the expression that it starts with. -/
def choice (join first second : Nat) : ExprTree :=
  .expr ⟨3, 0⟩ [.expr ⟨2, join⟩ [.expr ⟨first, 0⟩ [], .group second]]

/-- A join in the sample is chosen with the start of its first input. -/
theorem chosen_crossed {K : Type} (r : Relation K) {join first second : Nat}
    {op : LogicalOperator}
    (joins : (crossed r).key? ⟨2, join⟩ = some ⟨.logical lookup, [first, second]⟩)
    (starts : (crossed r).key? ⟨first, 0⟩ = some ⟨.logical op, []⟩) :
    (crossed r).Chosen limitedJoin ⟨3, 0⟩ (choice join first second) := by
  have left : (crossed r).Chosen (.leaf Pattern.any) ⟨first, 0⟩ (.expr ⟨first, 0⟩ []) :=
    .leaf starts rfl
  have right : (crossed r).Chosen .group ⟨second, 0⟩ (.group second) := .group
  exact .node rfl rfl (.cons (.node joins rfl (.cons left (.cons right .nil))) .nil)

end Sample

namespace Memo

/-- In every memo in which inputs have logical expressions, the bindings of a pattern at a
logical expression are the trees that can be chosen with this expression as root, each of them
once and in the lexicographic order of the positions that are chosen. All memos that the calls
of a search make are such. -/
theorem bindings_are_choices [Quantity K] (env : Environment K) :
    (∀ m : Memo K, m.Filled → ∀ p id op inputs, m.key? id = some ⟨.logical op, inputs⟩ →
      (∀ t, t ∈ m.bindings p id ↔ m.Chosen p id t) ∧ (m.bindings p id).Nodup ∧
      (m.bindings p id).Pairwise fun t t' => t.positions < t'.positions) ∧
    (∀ m : Memo K, Assembled env m → m.Filled) ∧
    ∀ plan m₀ m, ofPlan env plan = .ok m₀ → Reached env m₀ m → m.Filled := by
  refine ⟨fun m filled p id op inputs hk => ?_, fun m h => h.coherent.filled,
    fun plan m₀ m made reached => (reached.assembled (.load made)).coherent.filled⟩
  have root : ∀ i ∈ [id], i ∈ m.logicalPlaces id.group := by
    simpa using mem_logicalPlaces.2 ⟨rfl, op, inputs, hk⟩
  have rising : (m.bindings p id).Pairwise fun t t' => t.positions < t'.positions :=
    pairwise_bindAt p (List.pairwise_singleton _ id)
  refine ⟨fun t => ?_, rising.imp fun {t t'} lt same => ?_, rising⟩
  · rw [bindings, mem_bindAt filled p root]
    simp only [List.mem_singleton, exists_eq_left]
  · exact lt_irrefl _ (same ▸ lt)

open Sample in
/-- Either order of the join can be chosen below the limit. -/
theorem bindings_are_choices_sample : (∃ m : Memo ℝ, m.Filled ∧
    m.key? ⟨3, 0⟩ = some ⟨.logical (.limit ⟨0, some 1, {}⟩), [2]⟩ ∧
    choice 0 0 1 ∈ m.bindings limitedJoin ⟨3, 0⟩ ∧
      choice 1 1 0 ∈ m.bindings limitedJoin ⟨3, 0⟩) ∧
    ∃ m₀ m : Memo ℝ, ofPlan bareSetting rowsPlan = .ok m₀ ∧
      Reached bareSetting m₀ m ∧ m.Filled := by
  obtain ⟨r, derived, -⟩ := exists_derived (K := ℝ)
  obtain ⟨choices, -, search⟩ := bindings_are_choices (bareSetting (K := ℝ))
  have filled := filled_crossed r
  have stored : (crossed r).key? ⟨3, 0⟩ = some ⟨.logical (.limit ⟨0, some 1, {}⟩), [2]⟩ := rfl
  obtain ⟨exact, -, -⟩ := choices _ filled limitedJoin _ _ _ stored
  have made : ofPlan bareSetting rowsPlan = .ok (entered r) := ofPlan_rowsPlan derived
  have reached : Reached bareSetting (entered r)
      (optimize bareSetting 5 inOrder Stage.defaults (entered r)).memo :=
    reached_optimize 5 inOrder Stage.defaults (entered r)
  exact ⟨⟨_, filled, stored, (exact _).2 (chosen_crossed r rfl rfl),
    (exact _).2 (chosen_crossed r rfl rfl)⟩, _, _, made, reached, search _ _ _ made reached⟩

end Memo

end QueryOptimizer
