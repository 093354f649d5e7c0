import QueryOptimizer.Derivation.Statistics
import QueryOptimizer.Proofs.Derivation.Output

/-!
# Invariants of derived statistics

The statistics of an operator are made by a few derivations: those of tables and of literal
rows, of filters, joins, groupings and so on. What each of them keeps
(`Statistics.Invariant`), with one field for each derivation, holds of everything that is
derived from inputs of which it holds.

## Main results

* `Statistics.Invariant.of_derive`: what is derived about an operator has what its inputs have.
-/

namespace QueryOptimizer

variable {K : Type} [Quantity K]

/-- A property of statistics that every derivation keeps. -/
structure Statistics.Invariant (P : Statistics K → Prop) : Prop where
  empty : ∀ cols, P (.empty cols)
  ofTable : ∀ {catalog config t cols s}, Statistics.ofTable catalog config t cols = .ok s → P s
  ofRows : ∀ cols rows, P (.ofRows cols rows)
  filter : ∀ {s t : Statistics K} {catalog config e}, P s →
    s.filter catalog config e = .ok t → P t
  project : ∀ {s}, P s → ∀ definitions, P (s.project definitions)
  groupBy : ∀ {s}, P s → ∀ config keys aggregates, P (s.groupBy config keys aggregates)
  limit : ∀ {s}, P s → ∀ count, P (s.limit count)
  restrict : ∀ {s}, P s → ∀ cols, P (s.restrict cols)
  rename : ∀ {s}, P s → ∀ source target, P (s.rename source target)
  innerJoin : ∀ {s t}, P s → P t → ∀ config p, P (.innerJoin config s t p)
  leftOuterJoin : ∀ {s t}, P s → P t → ∀ config p, P (.leftOuterJoin config s t p)
  semiJoin : ∀ {s}, P s → ∀ config t p, P (.semiJoin config s t p)
  antiJoin : ∀ {s}, P s → ∀ config t p notIn keepHistograms,
    P (.antiJoin config s t p notIn keepHistograms)
  unionAll : ∀ {first second : Statistics.SetInput K}, P first.stats → P second.stats →
    ∀ output, P (.unionAll first second output)

namespace Statistics.Invariant

variable {P : Statistics K → Prop} (inv : Invariant P) {config : Config K} {inputs : Inputs K}
  {s t : Statistics K}

include inv

/-- What holds of statistics holds of the joins of them. -/
theorem join (hs : P s) (ht : P t) (config : Config K) (type : JoinType) (p : JoinPredicate) :
    P (join config type s t p) := by
  cases type with
  | inner => exact inv.innerJoin hs ht config p
  | leftOuter => exact inv.leftOuterJoin hs ht config p
  | leftSemi => exact inv.semiJoin hs config t p
  | leftAntiSemi | leftAntiSemiNotIn => exact inv.antiJoin hs config t p _ _

/-- What holds of statistics holds of the concatenations of them. -/
theorem unionAllOf {inputs : List (SetInput K)} (h : ∀ i ∈ inputs, P i.stats)
    (output : List Column) : P (unionAllOf inputs output) := by
  cases inputs with
  | nil => exact inv.empty output
  | cons first others =>
    obtain ⟨hfirst, hothers⟩ := List.forall_mem_cons.1 h
    suffices joined : ∀ acc : Statistics K, P acc →
        P (others.foldl (fun acc i => Statistics.unionAll ⟨acc, output⟩ i output) acc) from
      joined _ (inv.rename hfirst _ _)
    clear h
    induction others with
    | nil => exact fun _ hacc => hacc
    | cons second others ih =>
      obtain ⟨hsecond, hothers⟩ := List.forall_mem_cons.1 hothers
      exact fun acc hacc => ih hothers _ (inv.unionAll hacc hsecond output)

/-! ### Operators -/

omit inv [Quantity K] in
/-- What holds of the inputs holds of one that is found. -/
theorem of_inputs (h : ∀ r ∈ inputs, P r.statistics) {index : Nat} {r : Relation K}
    (found : inputs.get index = .ok r) : P r.statistics :=
  h r (List.mem_of_getElem? (OptResult.elementAt_eq_ok.1 found))

omit inv [Quantity K] in
/-- An operation on two inputs that keeps what holds of the first one, applied from the
left to all inputs. -/
theorem of_foldStatistics {o : SetOperation}
    {f : SetInput K → SetInput K → List Column → Statistics K}
    (keeps : ∀ first second output, P first.stats → P (f first second output))
    (h : ∀ r ∈ inputs, P r.statistics) (known : o.foldStatistics inputs f = .ok s) : P s := by
  obtain ⟨first, read, known⟩ := OptResult.bind_eq_ok.1 known
  obtain ⟨second, -, known⟩ := OptResult.bind_eq_ok.1 known
  obtain ⟨r, found, read⟩ := OptResult.bind_eq_ok.1 read
  obtain ⟨cols, -, read⟩ := OptResult.bind_eq_ok.1 read
  have start : P (f first second o.output) :=
    keeps first second _ (Except.ok.inj read ▸ of_inputs h found)
  generalize f first second o.output = acc at start known
  dsimp only at known
  generalize (List.range inputs.length).drop 2 = others at known
  induction others generalizing acc with
  | nil => exact Except.ok.inj known ▸ start
  | cons i others ih =>
    rw [List.foldlM_cons] at known
    obtain ⟨next, joined, rest⟩ := OptResult.bind_eq_ok.1 known
    obtain ⟨second, -, joined⟩ := OptResult.bind_eq_ok.1 joined
    exact ih next (Except.ok.inj joined ▸ keeps ⟨acc, o.output⟩ second o.output start) rest

/-- What holds of the inputs holds of a set operation on them. -/
theorem of_setOperation {o : SetOperation} (h : ∀ r ∈ inputs, P r.statistics)
    (known : o.statistics config inputs = .ok s) : P s := by
  have all : P (Statistics.unionAllOf (o.statisticsInputs inputs) o.output) := by
    refine inv.unionAllOf (fun i hi => ?_) o.output
    obtain ⟨⟨r, cols⟩, hr, rfl⟩ := List.mem_map.1 hi
    exact h r (List.of_mem_zip hr).1
  unfold SetOperation.statistics at known
  split at known
  · exact Except.ok.inj known ▸ all
  · exact Except.ok.inj known ▸ inv.groupBy all config _ _
  · exact of_foldStatistics
      (fun _ _ _ hfirst => inv.rename (inv.antiJoin hfirst config _ _ _ _) _ _) h known
  · exact of_foldStatistics
      (fun _ _ _ hfirst =>
        inv.rename (inv.antiJoin (inv.groupBy hfirst config _ _) config _ _ _ _) _ _) h known
  · exact of_foldStatistics
      (fun _ _ _ hfirst => inv.rename (inv.semiJoin hfirst config _ _) _ _) h known
  · exact of_foldStatistics
      (fun _ _ _ hfirst =>
        inv.rename (inv.semiJoin (inv.groupBy hfirst config _ _) config _ _) _ _) h known

/-- What holds of the inputs holds of a join of them. -/
theorem of_joinType {type : JoinType} {predicate : Scalar} (h : ∀ r ∈ inputs, P r.statistics)
    (known : type.statistics predicate config inputs = .ok s) : P s := by
  obtain ⟨left, hleft, known⟩ := OptResult.bind_eq_ok.1 known
  obtain ⟨right, hright, known⟩ := OptResult.bind_eq_ok.1 known
  exact Except.ok.inj known ▸ inv.join (of_inputs h hleft) (of_inputs h hright) config type _

variable {op : LogicalOperator} {env : Environment K} {ctes : CteTable K}

/-- What holds of the inputs and of shared results holds of an estimate. -/
theorem of_estimate (h : ∀ r ∈ inputs, P r.statistics)
    (shared : ∀ entry ∈ ctes, P entry.2.statistics)
    (known : op.estimate env ctes inputs = .ok s) : P s := by
  cases op with
  | get | dynamicGet => exact inv.ofTable known
  | values v => exact Except.ok.inj known ▸ inv.ofRows _ _
  | join | apply => exact inv.of_joinType h known
  | setOp => exact inv.of_setOperation h known
  | cteConsumer c =>
    simp only [LogicalOperator.estimate] at known
    split at known
    · rename_i info found
      exact Except.ok.inj known ▸ inv.rename (shared _ (CteTable.mem_of_find? found)) _ _
    · cases known
  | select p =>
    obtain ⟨r, hr, known⟩ := OptResult.bind_eq_ok.1 known
    exact inv.filter (of_inputs h hr) known
  | project ds =>
    obtain ⟨r, hr, known⟩ := OptResult.bind_eq_ok.1 known
    exact Except.ok.inj known ▸ inv.project (of_inputs h hr) ds
  | groupBy g =>
    obtain ⟨r, hr, known⟩ := OptResult.bind_eq_ok.1 known
    exact Except.ok.inj known ▸ inv.groupBy (of_inputs h hr) _ _ _
  | limit l =>
    obtain ⟨r, hr, known⟩ := OptResult.bind_eq_ok.1 known
    exact Except.ok.inj known ▸ inv.limit (of_inputs h hr) _
  | cteAnchor =>
    obtain ⟨r, hr, known⟩ := OptResult.bind_eq_ok.1 known
    exact Except.ok.inj known ▸ of_inputs h hr
  | cteProducer p =>
    obtain ⟨r, hr, known⟩ := OptResult.bind_eq_ok.1 known
    exact Except.ok.inj known ▸ inv.restrict (of_inputs h hr) _

/-- What holds of the inputs and of shared results holds of the statistics
that are derived. -/
theorem of_statistics (h : ∀ r ∈ inputs, P r.statistics)
    (shared : ∀ entry ∈ ctes, P entry.2.statistics) {property : LogicalProperty}
    (known : op.statistics env ctes inputs property = .ok s) : P s := by
  unfold LogicalOperator.statistics at known
  split at known
  · cases known
  · split at known
    · exact Except.ok.inj known ▸ inv.empty _
    · exact inv.of_estimate h shared known

/-- What is derived about an operator has what its inputs have. -/
theorem of_derive (h : ∀ r ∈ inputs, P r.statistics)
    (shared : ∀ entry ∈ ctes, P entry.2.statistics) {r : Relation K}
    (derived : op.derive env ctes inputs = .ok r) : P r.statistics := by
  obtain ⟨property, -, derived⟩ := OptResult.bind_eq_ok.1 derived
  obtain ⟨s, known, derived⟩ := OptResult.bind_eq_ok.1 derived
  obtain rfl := Except.ok.inj derived
  exact inv.of_statistics h shared known

end Statistics.Invariant

end QueryOptimizer
