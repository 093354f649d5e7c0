import QueryOptimizer.Number.Binary64
import QueryOptimizer.Proofs.Memo.Marks
import QueryOptimizer.Proofs.Memo.Model
import QueryOptimizer.Proofs.Memo.Records
import QueryOptimizer.Proofs.Plan.Meaning

/-!
# Loading plans

The memo of a well-formed plan is modelled, and the group of its root means what
the plan means. Nodes are entered once; a node that is met again has the group that
it got the first time.

## Main results

* `Memo.Models.loadNode`: a node of a plan is entered into a group that means
  what the node means.
* `Memo.models_ofPlan`: the memo of a plan is modelled.
* `Memo.filed_of_ofPlan`: the memo of any plan is in order and has nothing on record.
-/

namespace QueryOptimizer

variable {K : Type} [Quantity K] {env : Environment K} {I : Interpretation} {db : Database}

/-- Whether an analysis covers a plan: the operators of the plan occur, and what is derived
about its producers may be known of their shared results. -/
structure Analysis.Covers (A : Analysis env I db) (root : Plan K) : Prop where
  wellFormed : root.WellFormed
  admits : ∀ q ∈ root.nodes, ∀ op, q.operator = .logical op → A.admits op
  registers : ∀ q ∈ root.nodes, ∀ p, q.operator = .logical (.cteProducer p) →
    ∀ r, A.describes r (q.meaning I db) → A.shares p.id { r with cols := p.cols }

namespace Memo

variable {A : Analysis env I db} {root : Plan K}

/-- Whether the groups of the nodes that have been entered mean what the nodes mean. -/
def Loaded (I : Interpretation) (db : Database) (root : Plan K) (m : Memo K)
    (μ : GroupId → Meaning) (known : Std.HashMap Nat GroupId) : Prop :=
  ∀ id group, known[id]? = some group →
    group < m.groups.size ∧ ∀ q ∈ root.nodes, q.id = id → μ group = q.meaning I db

/-- What has been loaded stays loaded when the memo grows. -/
theorem Loaded.later {m m' : Memo K} {μ μ' : GroupId → Meaning}
    {known : Std.HashMap Nat GroupId} (h : Loaded I db root m μ known)
    (later : Later A m μ m' μ') : Loaded I db root m' μ' known := by
  intro id group found
  obtain ⟨inside, means⟩ := h id group found
  exact ⟨Nat.lt_of_lt_of_le inside later.extended.size_le, fun q hq hid =>
    (later.agree group inside).trans (means q hq hid)⟩

/-! ### Entering nodes -/

/-- A node is loaded once; what was loaded before is looked up. -/
theorem run_loadNode (id : Nat) (op : Operator) (inputs : List (Plan K))
    (estimate : Option (PlanEstimate K)) (known : Std.HashMap Nat GroupId) :
    (loadNode env ⟨id, op, inputs, estimate⟩).run known =
      match known[id]? with
      | some group => pure (group, known)
      | none => (do
        let below ← (loadInputs env inputs).run known
        let entered ← insertKey env ⟨op, below.1⟩ none
        return (entered.1.group, below.2.insert id entered.1.group)) := by
  simp only [loadNode, StateT.run_bind, StateT.run_get, pure_bind]
  cases known[id]? with
  | some group => rfl
  | none => simp [StateT.run_bind, StateT.run_modify]

/-- Inputs are loaded one after the other. -/
theorem run_loadInputs_cons (p : Plan K) (ps : List (Plan K))
    (known : Std.HashMap Nat GroupId) :
    (loadInputs env (p :: ps)).run known = (do
      let first ← (loadNode env p).run known
      let rest ← (loadInputs env ps).run first.2
      return (first.1 :: rest.1, rest.2)) := by
  simp [loadInputs, StateT.run_bind]

namespace Models

mutual

/-- A node of a plan is entered into a group that means what the node means. -/
theorem loadNode (covers : A.Covers root) : ∀ {p : Plan K} {m : Memo K} {μ : GroupId → Meaning}
    {known : Std.HashMap Nat GroupId}, p ∈ root.nodes → m.Models A μ →
    Loaded I db root m μ known →
    Adds A m μ ((Memo.loadNode env p).run known) fun r m' μ' =>
      (r.1 < m'.groups.size ∧ μ' r.1 = p.meaning I db) ∧ Loaded I db root m' μ' r.2
  | ⟨id, op, inputs, estimate⟩, m, μ, known, hp, h, loaded => by
    rw [run_loadNode]
    cases found : known[id]? with
    | some group =>
      obtain ⟨inside, means⟩ := loaded id group found
      exact .pure h ⟨⟨inside, means _ hp rfl⟩, loaded⟩
    | none =>
      obtain ⟨lop, rfl, -⟩ := covers.wellFormed.fits _ hp
      have scope : lop.InScope (inputs.map (Plan.meaning I db)) :=
        covers.wellFormed.inScope hp rfl
      have parts : ∀ q ∈ inputs, q ∈ root.nodes := fun q hq =>
        Plan.mem_nodes_trans hp (Plan.mem_nodes_of_input hq q.self_mem_nodes)
      refine (h.loadInputs covers parts loaded).bind
        fun below m' μ' later ⟨⟨inside, means⟩, loaded'⟩ => ?_
      have meaning : Plan.meaning I db ⟨id, .logical lop, inputs, estimate⟩ =
          lop.meaning I db (below.1.map μ') := by
        rw [means]
        exact Plan.meaning_of_logical rfl
      refine (later.models.startKey (covers.admits _ hp lop rfl) (means ▸ scope)
        (fun p r hop hr => ?_) inside).bind
          fun entered m'' μ'' later' ⟨inside', means'⟩ => .pure later'.models
            ⟨⟨inside', means'.trans meaning.symm⟩, ?_⟩
      · obtain rfl := hop
        exact covers.registers _ hp p rfl r (meaning ▸ hr)
      · intro id' group found'
        rw [Std.HashMap.getElem?_insert] at found'
        split at found'
        · rename_i same
          obtain rfl := Option.some.inj found'
          obtain rfl : id = id' := beq_iff_eq.1 same
          refine ⟨inside', fun q hq hid => ?_⟩
          obtain rfl := covers.wellFormed.sameNode q hq _ hp hid
          exact means'.trans meaning.symm
        · exact loaded'.later later' id' group found'

/-- The inputs of a node are entered into groups with their meanings. -/
theorem loadInputs (covers : A.Covers root) : ∀ {ps : List (Plan K)} {m : Memo K}
    {μ : GroupId → Meaning} {known : Std.HashMap Nat GroupId}, (∀ p ∈ ps, p ∈ root.nodes) →
    m.Models A μ → Loaded I db root m μ known →
    Adds A m μ ((Memo.loadInputs env ps).run known) fun r m' μ' =>
      ((∀ i ∈ r.1, i < m'.groups.size) ∧ r.1.map μ' = ps.map (Plan.meaning I db)) ∧
        Loaded I db root m' μ' r.2
  | [], m, μ, known, hps, h, loaded => by
    simp only [Memo.loadInputs, StateT.run_pure]
    exact .pure h ⟨⟨by simp, by simp⟩, loaded⟩
  | p :: ps, m, μ, known, hps, h, loaded => by
    rw [run_loadInputs_cons]
    refine (h.loadNode covers (hps p (by simp)) loaded).bind
      fun first m' μ' later ⟨⟨inside, means⟩, loaded'⟩ => ?_
    refine (later.models.loadInputs covers (fun q hq => hps q (List.mem_cons_of_mem p hq))
      loaded').bind fun rest m'' μ'' later' ⟨⟨insides, meanings⟩, loaded''⟩ =>
        .pure later'.models ⟨⟨?_, ?_⟩, loaded''⟩
    · intro i hi
      rcases List.mem_cons.1 hi with rfl | hi
      · exact Nat.lt_of_lt_of_le inside later'.extended.size_le
      · exact insides i hi
    · rw [List.map_cons, List.map_cons, later'.agree _ inside, means, meanings]

end

end Models

theorem ofPlan_eq (env : Environment K) (root : Plan K) :
    Memo.ofPlan env root =
      match ((loadNode env root).run {}).exec {} with
      | (.ok (root, _), m) => .ok { m with root }
      | (.error e, _) => .error e :=
  rfl

/-- A plan is loaded node by node, and then its root is known. -/
theorem exists_loadNode_of_ofPlan {m : Memo K} (made : Memo.ofPlan env root = .ok m) :
    ∃ group known m', ((Memo.loadNode env root).run {}).exec {} = (.ok (group, known), m') ∧
      m = { m' with root := group } := by
  rw [ofPlan_eq] at made
  rcases run : ((Memo.loadNode env root).run {}).exec {} with ⟨e | ⟨group, known⟩, m'⟩
  · rw [run] at made
    cases made
  · rw [run] at made
    exact ⟨group, known, m', rfl, (Except.ok.inj made).symm⟩

/-- The memo of a plan is modelled. -/
theorem models_ofPlan (covers : A.Covers root) {m : Memo K}
    (made : Memo.ofPlan env root = .ok m) :
    ∃ μ, m.Models A μ ∧ (∀ id < m.groups.size, m.Started id) ∧ m.root < m.groups.size ∧
      μ m.root = root.meaning I db := by
  have none : Loaded I db root {} (fun _ => .void) {} := by
    intro id group found
    simp at found
  obtain ⟨μ, later, -, result⟩ :=
    (Models.empty A fun _ => .void).loadNode covers root.self_mem_nodes none
  obtain ⟨group, known, m', run, rfl⟩ := exists_loadNode_of_ofPlan made
  rw [run] at later result
  obtain ⟨⟨inside, means⟩, -⟩ := result _ rfl
  have models := later.models
  exact ⟨μ, ⟨models.describes, models.sound, models.inputs, models.admits, models.inScope,
    models.meaning, models.index, models.ctes⟩, fun id hid =>
      later.extended.started id (Nat.zero_le id) hid, inside, means⟩

/-! ### Nothing on record -/

/-- Whether a relation between memos holds whenever an expression starts a group, as the nodes
of a plan do. A memo that is related to itself is one that loading may start from. -/
structure LoadRelation (env : Environment K) (R : Memo K → Memo K → Prop) : Prop extends
    IsTrans (Memo K) R where
  self : ∀ {m m'}, R m m' → R m' m'
  startKey : ∀ {m} (key : ExprKey), R m m →
    (Memo.insertKey env key none).Leads R m fun _ _ => True

namespace LoadRelation

variable {R : Memo K → Memo K → Prop}

mutual

/-- Loading a node keeps a relation that starting a group keeps. -/
theorem loadNode (loads : LoadRelation env R) : ∀ (p : Plan K) {m : Memo K}
    (known : Std.HashMap Nat GroupId), R m m →
      MemoM.Leads R m ((Memo.loadNode env p).run known) fun _ _ => True
  | ⟨id, op, inputs, estimate⟩, m, known, h => by
    have := loads.toIsTrans
    rw [run_loadNode]
    cases known[id]? with
    | some group => exact .pure h trivial
    | none =>
      refine (loadInputs loads inputs known h).bind fun below m' step _ => ?_
      exact (loads.startKey ⟨op, below.1⟩ (loads.self step)).bind fun place m'' step' _ =>
        .pure (loads.self step') trivial

/-- Loading inputs keeps a relation that starting a group keeps. -/
theorem loadInputs (loads : LoadRelation env R) : ∀ (ps : List (Plan K)) {m : Memo K}
    (known : Std.HashMap Nat GroupId), R m m →
      MemoM.Leads R m ((Memo.loadInputs env ps).run known) fun _ _ => True
  | [], m, known, h => .pure h trivial
  | p :: ps, m, known, h => by
    have := loads.toIsTrans
    rw [run_loadInputs_cons]
    refine (loadNode loads p known h).bind fun first m' step _ => ?_
    exact (loadInputs loads ps first.2 (loads.self step)).bind fun rest m'' step' _ =>
      .pure (loads.self step') trivial

end

mutual

/-- The relation holds as well when the trees below a new expression are entered, each into
a group of its own. -/
theorem insertNode (loads : LoadRelation env R) : ∀ (t : ExprTree) {m : Memo K}, R m m →
    (Memo.insertNode env none t).Leads R m fun _ _ => True
  | .group id, _, h => .throw h (.groupNotInsertable id)
  | .expr _ _, _, h => .pure h trivial
  | .operator op inputs, _, h => by
    have := loads.toIsTrans
    exact (insertInputs loads inputs h).bind fun ids m' step _ =>
      loads.startKey ⟨op, ids⟩ (loads.self step)

/-- Inserting trees keeps a relation that starting a group keeps. -/
theorem insertInputs (loads : LoadRelation env R) :
    ∀ (ts : List ExprTree) {m : Memo K}, R m m →
    (Memo.insertInputs env ts).Leads R m fun _ _ => True
  | [], _, h => .pure h trivial
  | .group _ :: ts, _, h => by
    have := loads.toIsTrans
    exact (insertInputs loads ts h).bind fun ids m' step _ => .pure (loads.self step) trivial
  | .expr id inputs :: ts, _, h => by
    have := loads.toIsTrans
    exact (insertNode loads (.expr id inputs) h).bind fun r m' step _ =>
      (insertInputs loads ts (loads.self step)).bind fun ids m'' step' _ =>
        .pure (loads.self step') trivial
  | .operator op inputs :: ts, _, h => by
    have := loads.toIsTrans
    exact (insertNode loads (.operator op inputs) h).bind fun r m' step _ =>
      (insertInputs loads ts (loads.self step)).bind fun ids m'' step' _ =>
        .pure (loads.self step') trivial

end

/-- The relation holds for the memo of a plan, before its root is known. -/
theorem of_ofPlan (loads : LoadRelation env R) (empty : R {} {}) {m : Memo K}
    (made : Memo.ofPlan env root = .ok m) :
    ∃ group m', R {} m' ∧ m = { m' with root := group } := by
  obtain ⟨group, known, m', run, rfl⟩ := exists_loadNode_of_ofPlan made
  have step : R {} (((Memo.loadNode env root).run {}).exec {}).2 :=
    (loads.loadNode root {} empty).1
  rw [run] at step
  exact ⟨group, m', step, rfl⟩

end LoadRelation

/-- Loading only adds groups. -/
theorem loadRelation_appends : LoadRelation env (Appends (K := K)) where
  trans _ _ _ := trans_of Appends
  self step := .refl step.filed
  startKey key h := (h.filed.startKey key).mono fun _ _ _ _ => trivial

/-- The memo of a plan is in order and has nothing on record. -/
theorem filed_of_ofPlan {m : Memo K} (made : Memo.ofPlan env root = .ok m) :
    m.Filed ∧ (∀ id, m.deliveries id = {}) ∧ ∀ id, m.winners id = {} := by
  obtain ⟨group, m', appends, rfl⟩ := loadRelation_appends.of_ofPlan (.refl .empty) made
  exact ⟨⟨appends.filed.index, appends.filed.enforcer⟩, appends.deliveries, appends.winners⟩

/-- Loading marks nothing as applied. -/
theorem loadRelation_marks :
    LoadRelation env fun m m' : Memo K => ∀ place, m'.marks place = m.marks place where
  trans _ _ _ h h' place := (h' place).trans (h place)
  self _ _ := rfl
  startKey {m} key _ := by
    unfold MemoM.Leads
    obtain ⟨_, -, run⟩ | ⟨_, run⟩ | ⟨_, _, _, _, _, _, -, -, -, -, added, run⟩ :=
      insertKey_none_cases env key m
    · rw [run]
      exact ⟨fun _ => rfl, fun _ _ => trivial⟩
    · rw [run]
      exact ⟨fun _ => rfl, fun _ _ => trivial⟩
    · rw [run]
      exact ⟨fun i => by rw [marks_addExpr added, marks_addGroup], fun _ _ => trivial⟩

/-- No rule has been applied in the memo of a plan. -/
theorem marks_of_ofPlan {m : Memo K} (made : Memo.ofPlan env root = .ok m) (place : ExprId) :
    m.marks place = [] := by
  obtain ⟨group, m', marks, rfl⟩ := loadRelation_marks.of_ofPlan (fun _ => rfl) made
  exact marks place

/-! ### Plans of three nodes -/

/-- What is derived about an operator and its two inputs. -/
def derivation (env : Environment K) (first second both : LogicalOperator) :
    OptResult (Relation K × Relation K × Relation K) := do
  let a ← first.derive env [] []
  let b ← second.derive env [] []
  return (a, b, ← both.derive env [] [a, b])

/-- An operator over two others that have no inputs can be loaded, if all three
can be derived. -/
theorem exists_ofPlan_of_derivation {first second both : LogicalOperator}
    (other : ((⟨.logical first, []⟩ : ExprKey) == ⟨.logical second, []⟩) = false)
    (notFirst : ∀ p, first ≠ .cteProducer p) (notSecond : ∀ p, second ≠ .cteProducer p)
    (derived : (derivation env first second both).toBool = true) :
    ∃ m, Memo.ofPlan env ⟨2, .logical both,
      [⟨0, .logical first, [], none⟩, ⟨1, .logical second, [], none⟩], none⟩ = .ok m := by
  obtain ⟨a, ha, b, hb, c, hc⟩ : ∃ a, first.derive env [] [] = .ok a ∧ ∃ b,
      second.derive env [] [] = .ok b ∧ ∃ c, both.derive env [] [a, b] = .ok c := by
    cases h : derivation env first second both with
    | error e =>
      rw [h] at derived
      cases derived
    | ok r =>
      obtain ⟨a, ha, b, hb, c, hc, -⟩ := by simpa [derivation] using h
      exact ⟨a, ha, b, hb, c, hc⟩
  have apart (op : LogicalOperator) :
      ((⟨.logical op, []⟩ : ExprKey) == ⟨.logical both, [0, 1]⟩) = false := by
    simp [BEq.beq, instBEqExprKey.beq]
  obtain ⟨m₀, p₀, run₀, added₀⟩ := exists_insertKey_new env [] (m := {}) (by simp) rfl ha
  have size₀ : m₀.groups.size = 1 := size_addExpr added₀
  have ctes₀ : m₀.ctes = [] := (ctes_addExpr added₀).trans (ctes_addGroup_of_ne _ notFirst _)
  obtain ⟨m₁, p₁, run₁, added₁⟩ := exists_insertKey_new env [] (m := m₀)
    (by simp [index_addExpr added₀, index_addGroup, other]) rfl (ctes₀ ▸ hb)
  have relation₀ : m₁.relation? 0 = some a := by
    rw [relation?_addExpr added₁, relation?_addGroup, size₀, relation?_addExpr added₀]
    rfl
  have relation₁ : m₁.relation? 1 = some b := by
    rw [relation?_addExpr added₁, relation?_addGroup, size₀]
    rfl
  have ctes₁ : m₁.ctes = [] :=
    (ctes_addExpr added₁).trans ((ctes_addGroup_of_ne _ notSecond _).trans ctes₀)
  obtain ⟨m₂, p₂, run₂, -⟩ := exists_insertKey_new env [0, 1] (m := m₁)
    (by simp [index_addExpr added₁, index_addExpr added₀, index_addGroup, apart])
    (relations_eq_ok.2 (.cons relation₀ (.cons relation₁ .nil))) (ctes₁ ▸ hc)
  have group₀ : p₀.group = 0 := group_of_addExpr added₀
  have group₁ : p₁.group = 1 := (group_of_addExpr added₁).trans size₀
  refine ⟨{ m₂ with root := p₂.group }, ?_⟩
  simp [-bind_pure_comp, ofPlan_eq, run_loadNode, loadInputs, MemoM.exec_bind,
    run₀, run₁, run₂, group₀, group₁]

end Memo

/-! ### An example -/

namespace Sample

def orders : Table where
  id := 1
  name := "orders"
  columns := [⟨"number", .integer .int64, false⟩]

def number : Column := ⟨0, .integer .int64, -1, "number", .table 1 0 false 8⟩

def wanted : Column := ⟨1, .integer .int64, -1, "wanted", .computed⟩

def scan : LogicalOperator := .get ⟨orders, [number]⟩

def list : LogicalOperator := .values ⟨[wanted], [[.integer .int64 1], [.integer .int64 3]]⟩

def lookup : LogicalOperator := .join ⟨.inner, .binary .eq (.column number) (.column wanted)⟩

/-- The orders with the numbers 1 and 3. -/
def plan : Plan Binary64 where
  id := 2
  operator := .logical lookup
  inputs := [⟨0, .logical scan, [], none⟩, ⟨1, .logical list, [], none⟩]

def setting : Environment Binary64 where
  catalog := { (Catalog.failing (.notFound .table "lines") : Catalog Binary64) with
    tableStats := fun _ => .ok { rows := 2.0 }
    scalarOp := fun _ => .ok ⟨true, true⟩ }
  config := .default

/-- There are orders with the numbers 1 and 2. -/
def contents : Database where
  table _ := {[some (.integer .int64 1)], [some (.integer .int64 2)]}
  shared _ _ := 0

/-- The sample can be loaded. -/
theorem exists_ofPlan : ∃ m, Memo.ofPlan setting plan = .ok m :=
  Memo.exists_ofPlan_of_derivation rfl (by simp [scan]) (by simp [list]) (by decide +kernel)

/-- The sample has three nodes. -/
theorem mem_nodes_plan {q : Plan Binary64} :
    q ∈ plan.nodes ↔ q = plan ∨ q = ⟨0, .logical scan, [], none⟩ ∨
      q = ⟨1, .logical list, [], none⟩ := by
  simp [plan, Plan.nodes, Plan.nodesBelow]

/-- The sample is well formed. -/
theorem wellFormed : plan.WellFormed where
  fits := by
    simp only [mem_nodes_plan, forall_eq_or_imp, forall_eq]
    refine ⟨⟨_, rfl, .join ?_⟩, ⟨_, rfl, .get ?_⟩, _, rfl, .values ?_ ?_⟩
    · decide
    · exact List.nodup_singleton _
    · exact List.nodup_singleton _
    · decide
  closed := by decide
  sameNode := by
    simp only [mem_nodes_plan]
    rintro q (rfl | rfl | rfl) r (rfl | rfl | rfl) same <;> first | rfl | cases same
  oneProducer := by
    simp only [mem_nodes_plan]
    rintro q (rfl | rfl | rfl) r - a b producer <;> cases producer

end Sample

end QueryOptimizer
