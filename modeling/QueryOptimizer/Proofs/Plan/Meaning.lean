import QueryOptimizer.Plan.Basic
import QueryOptimizer.Proofs.Semantics.Scoping

/-!
# Meaning of plans

A plan of logical operators means what its root operator means, applied to the meanings of its
inputs. In a well-formed plan the parameters of every operator fit its inputs, and nothing is
read from outside of the plan (`Plan.WellFormed`). Then every operator in it is in scope: what
a part of the plan reads from outside is bound by an apply above, and not defined below.

## Main results

* `Plan.WellFormed.inScope`: every operator of a well-formed plan is in scope.
-/

namespace QueryOptimizer

variable {K : Type}

namespace Plan

mutual

/-- The columns of a plan. -/
def scope : Plan K → Scope
  | ⟨_, .logical op, inputs, _⟩ => op.scope (scopes inputs)
  | ⟨_, .physical _, _, _⟩ => ⟨∅, ∅, ∅⟩
termination_by structural p => p

/-- The columns of each plan in a list. -/
def scopes : List (Plan K) → List Scope
  | [] => []
  | p :: ps => scope p :: scopes ps
termination_by structural ps => ps

end

mutual

/-- What a plan means. -/
def meaning (I : Interpretation) (db : Database) : Plan K → Meaning
  | ⟨_, .logical op, inputs, _⟩ => op.meaning I db (meanings I db inputs)
  | ⟨_, .physical _, _, _⟩ => .void
termination_by structural p => p

/-- What each plan in a list means. -/
def meanings (I : Interpretation) (db : Database) : List (Plan K) → List Meaning
  | [] => []
  | p :: ps => meaning I db p :: meanings I db ps
termination_by structural ps => ps

end

mutual

/-- A plan and everything below it. -/
def nodes : Plan K → List (Plan K)
  | ⟨id, op, inputs, estimate⟩ => ⟨id, op, inputs, estimate⟩ :: nodesBelow inputs
termination_by structural p => p

/-- The plans in a list and everything below them. -/
def nodesBelow : List (Plan K) → List (Plan K)
  | [] => []
  | p :: ps => nodes p ++ nodesBelow ps
termination_by structural ps => ps

end

variable {I : Interpretation} {db : Database}

/-- The scopes of plans are those of each of them. -/
@[simp] theorem scopes_eq_map (ps : List (Plan K)) : scopes ps = ps.map scope := by
  induction ps with
  | nil => simp only [scopes, List.map_nil]
  | cons p ps ih => simp only [scopes, List.map_cons, ih]

/-- The meanings of plans are those of each of them. -/
@[simp] theorem meanings_eq_map (ps : List (Plan K)) :
    meanings I db ps = ps.map (meaning I db) := by
  induction ps with
  | nil => simp only [meanings, List.map_nil]
  | cons p ps ih => simp only [meanings, List.map_cons, ih]

/-- The nodes of plans are those of each of them. -/
theorem mem_nodesBelow {ps : List (Plan K)} {q : Plan K} :
    q ∈ nodesBelow ps ↔ ∃ p ∈ ps, q ∈ p.nodes := by
  induction ps with
  | nil => simp [nodesBelow]
  | cons p ps ih => simp [nodesBelow, ih]

/-- The scope of a plan is that of its root over the scopes of the inputs. -/
theorem scope_of_logical {p : Plan K} {op : LogicalOperator} (h : p.operator = .logical op) :
    p.scope = op.scope (p.inputs.map scope) := by
  obtain ⟨id, _, inputs, estimate⟩ := p
  obtain rfl := h
  rw [scope, scopes_eq_map]

/-- A plan means what its root means over the meanings of the inputs. -/
theorem meaning_of_logical {p : Plan K} {op : LogicalOperator} (h : p.operator = .logical op) :
    p.meaning I db = op.meaning I db (p.inputs.map (meaning I db)) := by
  obtain ⟨id, _, inputs, estimate⟩ := p
  obtain rfl := h
  rw [meaning, meanings_eq_map]

/-- The nodes of a plan are its root and those of the inputs. -/
theorem mem_nodes {p q : Plan K} : q ∈ p.nodes ↔ q = p ∨ ∃ c ∈ p.inputs, q ∈ c.nodes := by
  obtain ⟨id, op, inputs, estimate⟩ := p
  rw [nodes, List.mem_cons, mem_nodesBelow]

/-- The root is a node. -/
theorem self_mem_nodes (p : Plan K) : p ∈ p.nodes :=
  mem_nodes.2 (.inl rfl)

/-- The nodes of an input are nodes of the plan. -/
theorem mem_nodes_of_input {p c q : Plan K} (hc : c ∈ p.inputs) (hq : q ∈ c.nodes) :
    q ∈ p.nodes :=
  mem_nodes.2 (.inr ⟨c, hc, hq⟩)

/-- What is below a part of a plan is a part of the plan. -/
theorem mem_nodes_trans : ∀ {root p q : Plan K}, p ∈ root.nodes → q ∈ p.nodes → q ∈ root.nodes
  | ⟨id, op, inputs, estimate⟩, p, q, hp, hq => by
    rcases mem_nodes.1 hp with rfl | ⟨c, hc, hpc⟩
    · exact hq
    · exact mem_nodes_of_input hc (mem_nodes_trans hpc hq)

mutual

/-- The columns of what a plan means are the columns of the plan. -/
theorem toScope_meaning : ∀ p : Plan K, (p.meaning I db).toScope = p.scope
  | ⟨_, .logical op, inputs, _⟩ => by
    rw [meaning, scope]
    exact congrArg op.scope (map_toScope_meanings inputs)
  | ⟨_, .physical _, _, _⟩ => by
    rw [meaning, scope]
    rfl

/-- The meanings of plans have the scopes of the plans. -/
theorem map_toScope_meanings : ∀ ps : List (Plan K),
    (meanings I db ps).map Meaning.toScope = scopes ps
  | [] => by simp only [meanings, scopes, List.map_nil]
  | p :: ps => by
    simp only [meanings, scopes, List.map_cons, toScope_meaning p]
    exact congrArg _ (map_toScope_meanings ps)

end

/-! ### Well-formed plans -/

/-- Whether a plan can be run. Nodes with the same id are the same node, which is
used in several places. -/
structure WellFormed (p : Plan K) : Prop where
  fits : ∀ q ∈ p.nodes, ∃ op, q.operator = .logical op ∧ op.Fits scope q.inputs
  /-- Nothing is read from outside. -/
  closed : p.scope.free = ∅
  sameNode : ∀ q ∈ p.nodes, ∀ r ∈ p.nodes, q.id = r.id → q = r
  oneProducer : ∀ q ∈ p.nodes, ∀ r ∈ p.nodes, ∀ a b, q.operator = .logical (.cteProducer a) →
    r.operator = .logical (.cteProducer b) → a.id = b.id → q = r

end Plan

/-! ### Scoping -/

namespace LogicalOperator

/-- What an input reads from outside is read from outside of the operator, too,
or bound by it. -/
theorem Fits.disjoint_input {M : Type*} {columns : M → Scope} {op : LogicalOperator}
    {inputs : List M} (fits : op.Fits columns inputs)
    (apart : Disjoint (op.scope (inputs.map columns)).free
      (op.scope (inputs.map columns)).defined) {c : M} (hc : c ∈ inputs) :
    Disjoint (columns c).free (columns c).defined := by
  have mem : columns c ∈ inputs.map columns := List.mem_map_of_mem hc
  have defined : (columns c).defined ⊆ (op.scope (inputs.map columns)).defined :=
    (Scope.defined_subset_definitions mem).trans Finset.subset_union_right
  have passed (h : (columns c).free ⊆ op.inherited (inputs.map columns)) :
      Disjoint (columns c).free (columns c).defined :=
    apart.mono (h.trans Finset.subset_union_right) defined
  cases fits with
  | @apply a l r sides outer =>
    rcases List.mem_pair.1 hc with rfl | rfl
    · exact passed Finset.subset_union_left
    · have open' : Disjoint ((columns c).free \ Column.idsOf a.outer) (columns c).defined :=
        apart.mono (Finset.subset_union_right.trans Finset.subset_union_right) defined
      rw [← Finset.sdiff_union_inter (columns c).free (Column.idsOf a.outer)]
      exact Finset.disjoint_union_left.2
        ⟨open', outer.mono_left Finset.inter_subset_right⟩
  | _ => exact passed (Scope.free_subset_reads mem)

end LogicalOperator

namespace Plan

variable {I : Interpretation} {db : Database}

/-- No column that a part of a plan reads from outside is defined in it. -/
theorem disjoint_of_mem_nodes : ∀ {p : Plan K},
    (∀ q ∈ p.nodes, ∃ op, q.operator = .logical op ∧ op.Fits scope q.inputs) →
    Disjoint p.scope.free p.scope.defined →
    ∀ q ∈ p.nodes, Disjoint q.scope.free q.scope.defined
  | ⟨id, op, inputs, estimate⟩, fits, apart, q, hq => by
    rcases mem_nodes.1 hq with rfl | ⟨c, hc, hqc⟩
    · exact apart
    · obtain ⟨lop, hop, fitsRoot⟩ := fits _ (self_mem_nodes _)
      rw [scope_of_logical hop] at apart
      exact disjoint_of_mem_nodes (fun r hr => fits r (mem_nodes_of_input hc hr))
        (fitsRoot.disjoint_input apart hc) q hqc

/-- Every operator of a well-formed plan is in scope. -/
theorem WellFormed.inScope {p q : Plan K} (wf : p.WellFormed) (hq : q ∈ p.nodes)
    {op : LogicalOperator} (hop : q.operator = .logical op) :
    op.InScope (q.inputs.map (meaning I db)) := by
  have columns : (q.inputs.map (meaning I db)).map Meaning.toScope = q.inputs.map scope := by
    rw [List.map_map]
    exact List.map_congr_left fun c _ => toScope_meaning c
  obtain ⟨op', hop', fits⟩ := wf.fits q hq
  obtain rfl := Operator.logical.inj (hop.symm.trans hop')
  refine ⟨fits.map toScope_meaning, ?_⟩
  rw [columns, ← scope_of_logical hop]
  refine disjoint_of_mem_nodes wf.fits ?_ q hq
  rw [wf.closed]
  exact Finset.disjoint_empty_left _

end Plan

end QueryOptimizer
