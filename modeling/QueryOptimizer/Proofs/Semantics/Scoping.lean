import QueryOptimizer.Proofs.Semantics.Operator

/-!
# Scoping

The parameters of an operator fit its inputs (`LogicalOperator.Fits`) when it has the right
number of inputs, when the columns that it defines are new, and when inputs that are put side
by side define different columns. An operator is in scope when besides no column that it reads
from outside is hidden by one that is defined below it.

## Main results

* `LogicalOperator.Fits.sound`: rows keep the parameters in all columns that are not
  produced.
* `LogicalOperator.Fits.determined`: without a limit there is one possible result.
-/

namespace QueryOptimizer

/-- Columns with different ids. -/
def Column.Distinct (cols : List Column) : Prop :=
  (cols.map (·.id)).Nodup

/-- A column that is assigned to has the value at its place. -/
theorem Row.assign_of_getElem? {cols : List Column} (distinct : Column.Distinct cols) {i : Nat}
    {c : Column} (h : cols[i]? = some c) (r : Row) (t : Tuple) :
    r.assign cols t c.id = (t[i]?).getD none := by
  induction cols generalizing i t with
  | nil => simp at h
  | cons d ds ih =>
    obtain ⟨new, distinct⟩ := List.nodup_cons.1 distinct
    cases i with
    | zero =>
      obtain rfl := Option.some.inj (List.getElem?_cons_zero.symm.trans h)
      cases t <;> simp [assign]
    | succ i =>
      rw [List.getElem?_cons_succ] at h
      have other : c.id ≠ d.id := fun same =>
        new (List.mem_map.2 ⟨c, List.mem_of_getElem? h, same⟩)
      have rest := ih distinct h t.tail
      cases t <;> simpa [assign, other] using rest

/-- Columns get the values of the columns that they are paired with. -/
theorem Row.assign_of_mem_zip {source target : List Column} (distinct : Column.Distinct target)
    {p : Column × Column} (h : p ∈ source.zip target) (r s : Row) :
    r.assign target (s.tuple source) p.2.id = s p.1.id := by
  obtain ⟨i, hi⟩ := List.mem_iff_getElem?.1 h
  obtain ⟨first, second⟩ := List.getElem?_zip_eq_some.1 hi
  rw [assign_of_getElem? distinct second, Row.tuple, List.getElem?_map, first]
  rfl

namespace LogicalOperator

section Fits

variable {M : Type*} (columns : M → Scope)

/-- Whether the parameters of an operator fit inputs with the given columns. -/
inductive Fits : LogicalOperator → List M → Prop
  | get {s : Scan} (distinct : Column.Distinct s.cols) : Fits (.get s) []
  | dynamicGet {s : DynamicScan} (distinct : Column.Distinct s.cols) : Fits (.dynamicGet s) []
  | values {v : Values} (distinct : Column.Distinct v.cols)
      (lengths : ∀ r ∈ v.rows, r.length = v.cols.length) : Fits (.values v) []
  | select {p : Scalar} {m : M} : Fits (.select p) [m]
  | project {ds : List Definition} {m : M}
      (distinct : Column.Distinct (Definition.columns ds))
      (fresh : Disjoint (Column.idsOf (Definition.columns ds)) (columns m).defined) :
      Fits (.project ds) [m]
  | groupBy {g : Grouping} {m : M} (keys : Column.idsOf g.keys ⊆ (columns m).output)
      (distinct : Column.Distinct (Definition.columns g.aggregates))
      (fresh : Disjoint (Column.idsOf (Definition.columns g.aggregates)) (columns m).defined) :
      Fits (.groupBy g) [m]
  | limit {l : Limit} {m : M} (offset : l.offset ≤ Limit.maximum)
      (count : ∀ n ∈ l.count, n ≤ Limit.maximum) : Fits (.limit l) [m]
  | join {j : Join} {l r : M} (apart : Disjoint (columns l).defined (columns r).defined) :
      Fits (.join j) [l, r]
  | apply {a : Apply} {l r : M} (apart : Disjoint (columns l).defined (columns r).defined)
      (outer : Disjoint (Column.idsOf a.outer) (columns r).defined) : Fits (.apply a) [l, r]
  | setOp {s : SetOperation} {inputs : List M} (someColumn : s.output ≠ [])
      (distinct : Column.Distinct s.output) (someInput : inputs ≠ [])
      (apart : inputs.Pairwise fun l r => Disjoint (columns l).defined (columns r).defined)
      (aligned : List.Forall₂ (fun cols m => Column.Distinct cols ∧
        cols.length = s.output.length ∧ Column.idsOf cols ⊆ (columns m).output)
          s.inputs inputs)
      (fresh : Disjoint (Column.idsOf s.output) (Scope.definitions (inputs.map columns)) ∨
        s.inputs.head? == some s.output) : Fits (.setOp s) inputs
  | cteAnchor {id : Nat} {producer body : M} : Fits (.cteAnchor id) [producer, body]
  | cteProducer {p : CteProducer} {m : M} (cols : Column.idsOf p.cols ⊆ (columns m).output) :
      Fits (.cteProducer p) [m]
  | cteConsumer {c : CteConsumer} (distinct : Column.Distinct c.cols)
      (length : c.producerCols.length = c.cols.length) : Fits (.cteConsumer c) []

variable {columns}

/-- The inputs of a join that fits define different columns. -/
theorem Fits.join_apart {j : Join} {l r : M} (fits : Fits columns (.join j) [l, r]) :
    Disjoint (columns l).defined (columns r).defined := by
  cases fits with
  | join apart => exact apart

/-- Only the scopes of inputs count for whether an operator fits. -/
theorem Fits.map {N : Type*} {columns' : N → Scope} {f : M → N}
    (same : ∀ m, columns' (f m) = columns m) {op : LogicalOperator} {inputs : List M}
    (fits : op.Fits columns inputs) : op.Fits columns' (inputs.map f) := by
  cases fits with
  | get distinct => exact .get distinct
  | dynamicGet distinct => exact .dynamicGet distinct
  | values distinct lengths => exact .values distinct lengths
  | select => exact .select
  | project distinct fresh => exact .project distinct (by rwa [same])
  | groupBy keys distinct fresh => exact .groupBy (by rwa [same]) distinct (by rwa [same])
  | limit offset count => exact .limit offset count
  | join apart => exact .join (by rwa [same, same])
  | apply apart outer => exact .apply (by rwa [same, same]) (by rwa [same])
  | setOp someColumn distinct someInput apart aligned fresh =>
    refine .setOp someColumn distinct (fun e => someInput (List.map_eq_nil_iff.1 e)) ?_ ?_ ?_
    · exact List.pairwise_map.2 (apart.imp fun h => by rwa [same, same])
    · exact List.forall₂_map_right_iff.2 (aligned.imp fun _ _ h => by rwa [same])
    · rwa [List.map_map, show columns' ∘ f = columns from funext same]
  | cteAnchor => exact .cteAnchor
  | cteProducer cols => exact .cteProducer (by rwa [same])
  | cteConsumer distinct length => exact .cteConsumer distinct length

end Fits

/-- Whether an operator is applied in scope. -/
structure InScope (op : LogicalOperator) (inputs : List Meaning) : Prop where
  fits : op.Fits Meaning.toScope inputs
  free_disjoint : Disjoint (op.scope (inputs.map Meaning.toScope)).free
    (op.scope (inputs.map Meaning.toScope)).defined

/-- The inputs of a join have no column in common. -/
theorem sides_apart {l r : Meaning} (apart : Disjoint l.defined r.defined)
    (sound : ∀ m ∈ [l, r], m.Sound) : Disjoint l.output r.output :=
  apart.mono (sound l (by simp)).output_subset (sound r (by simp)).output_subset

end LogicalOperator

/-! ### Parameters are kept -/

namespace JoinType

variable {type : JoinType} {right : Finset Nat} {p : Row → Truth} {l : Row} {rs : Bag}

/-- Every row of a join is a left row, alone, padded or beside a right row. -/
theorem mem_rows {x : Row} (h : x ∈ type.rows right p l rs) :
    (type.isLeftOnly = true ∧ x = l) ∨
      type.isLeftOnly = false ∧ (x = l.padded right ∨ ∃ r ∈ rs, x = l.beside right r) := by
  cases type <;> simp only [rows] at h
  case inner =>
    obtain ⟨r, hr, rfl⟩ := Multiset.mem_map.1 (Multiset.mem_filter.1 h).1
    exact .inr ⟨rfl, .inr ⟨r, hr, rfl⟩⟩
  case leftOuter =>
    split at h
    · exact .inr ⟨rfl, .inl (Multiset.mem_singleton.1 h)⟩
    · obtain ⟨r, hr, rfl⟩ := Multiset.mem_map.1 (Multiset.mem_filter.1 h).1
      exact .inr ⟨rfl, .inr ⟨r, hr, rfl⟩⟩
  case leftSemi =>
    split at h
    · exact absurd h (Multiset.notMem_zero x)
    · exact .inl ⟨rfl, Multiset.mem_singleton.1 h⟩
  case leftAntiSemi =>
    split at h
    · exact .inl ⟨rfl, Multiset.mem_singleton.1 h⟩
    · exact absurd h (Multiset.notMem_zero x)
  case leftAntiSemiNotIn =>
    split at h
    · exact .inl ⟨rfl, Multiset.mem_singleton.1 h⟩
    · exact absurd h (Multiset.notMem_zero x)

/-- A row of a join has the values of the left row in all columns but those of
the right input. -/
theorem rows_apply_of_notMem {x : Row} (h : x ∈ type.rows right p l rs) {i : Nat}
    (hi : i ∉ right) : x i = l i := by
  rcases mem_rows h with ⟨-, rfl⟩ | ⟨-, rfl | ⟨r, -, rfl⟩⟩
  · rfl
  · simp [Row.padded, hi]
  · simp [Row.beside, hi]

/-- The rows of a join keep what they have in other columns than its own. -/
theorem rows_keeps {left : Finset Nat} {env x : Row} (h : x ∈ type.rows right p l rs)
    (hl : ∀ ⦃i⦄, i ∉ left → l i = env i) {i : Nat} (hi : i ∉ type.columns left right) :
    x i = env i := by
  rcases mem_rows h with ⟨ht, rfl⟩ | ⟨ht, hx⟩
  · exact hl (by simpa [columns, ht] using hi)
  · have hi' : i ∉ left ∧ i ∉ right := by simpa [columns, ht] using hi
    rw [rows_apply_of_notMem h hi'.2, hl hi'.1]

end JoinType

namespace LogicalOperator

variable {I : Interpretation} {db : Database} {op : LogicalOperator} {inputs : List Meaning}

/-- The rows of an operator that fits keep what they have in other columns than its own. -/
theorem results_keeps (fits : op.Fits Meaning.toScope inputs) (sound : ∀ m ∈ inputs, m.Sound)
    {env : Row} {bag : Bag} (h : bag ∈ op.results I db inputs env) {r : Row} (hr : r ∈ bag)
    {i : Nat} (hi : i ∉ (op.meaning I db inputs).output) : r i = env i := by
  cases fits with
  | get | dynamicGet =>
    obtain rfl := h
    obtain ⟨t, -, rfl⟩ := Multiset.mem_map.1 hr
    exact Row.assign_of_notMem env hi t
  | values =>
    obtain rfl := h
    obtain ⟨t, -, rfl⟩ := List.mem_map.1 (Multiset.mem_coe.1 hr)
    exact Row.assign_of_notMem env hi _
  | select =>
    obtain ⟨b, hb, rfl⟩ := h
    exact (sound _ (by simp)).keeps hb (Multiset.mem_filter.1 hr).1 hi
  | project =>
    obtain ⟨b, hb, rfl⟩ := h
    obtain ⟨s, hs, rfl⟩ := Multiset.mem_map.1 hr
    obtain ⟨him, hid⟩ := not_or.1 (fun h => hi (Finset.mem_union.2 h))
    rw [Row.assign_of_notMem s hid, (sound _ (by simp)).keeps hb hs him]
  | @groupBy g m =>
    obtain ⟨b, hb, rfl⟩ := h
    obtain ⟨t, -, rfl⟩ := Multiset.mem_map.1 hr
    have hi : i ∉ Column.idsOf (g.keys ++ Definition.columns g.aggregates) := hi
    rw [Column.idsOf_append, Finset.mem_union, not_or] at hi
    simp only [Grouping.row, Row.assign_of_notMem _ hi.2, Row.assign_of_notMem _ hi.1]
  | limit =>
    obtain ⟨b, hb, kept⟩ := h
    exact (sound _ (by simp)).keeps hb (Multiset.mem_of_le kept.kept_le hr) hi
  | @join j l r =>
    obtain ⟨ls, hls, rs, -, rfl⟩ := h
    obtain ⟨x, hx, hrx⟩ := Multiset.mem_bind.1 hr
    exact JoinType.rows_keeps hrx ((sound l (by simp)).keeps hls hx) hi
  | @apply a l r =>
    obtain ⟨matched, hls, -, rfl⟩ := h
    obtain ⟨x, hx, hrx⟩ := Multiset.mem_bind.1 hr
    exact JoinType.rows_keeps hrx
      ((sound l (by simp)).keeps hls (Multiset.mem_map_of_mem Prod.fst hx)) hi
  | setOp =>
    obtain ⟨bags, -, rfl⟩ := h
    obtain ⟨t, -, rfl⟩ := Multiset.mem_map.1 hr
    exact Row.assign_of_notMem env hi t
  | cteAnchor => exact (sound _ (by simp)).keeps h hr hi
  | cteProducer =>
    obtain ⟨b, -, rfl⟩ := h
    obtain ⟨s, -, rfl⟩ := Multiset.mem_map.1 hr
    exact Row.assign_of_notMem env hi _
  | cteConsumer =>
    obtain rfl := h
    obtain ⟨s, -, rfl⟩ := Multiset.mem_map.1 hr
    exact Row.assign_of_notMem env hi _

/-- An operator that fits on sound inputs has a sound meaning. -/
theorem Fits.sound (fits : op.Fits Meaning.toScope inputs) (sound : ∀ m ∈ inputs, m.Sound) :
    (op.meaning I db inputs).Sound where
  output_subset := Finset.subset_union_left
  keeps _ _ h _ hr _ hi := results_keeps fits sound h hr hi

/-! ### One result -/

/-- Whether the operator is a limit. -/
def isLimit : LogicalOperator → Bool
  | limit _ => true
  | _ => false

/-- Determined inputs have one list of results. -/
theorem forall₂_results_singleton (env : Row) :
    ∀ {ms : List Meaning}, (∀ m ∈ ms, m.Determined) →
      ∃ bags, ∀ bs : List Bag, List.Forall₂ (fun m b => b ∈ m.results env) ms bs ↔ bs = bags
  | [], _ => ⟨[], fun bs => by simp⟩
  | m :: ms, h => by
    obtain ⟨b, hb⟩ := h m (by simp) env
    obtain ⟨bs, hbs⟩ := forall₂_results_singleton env fun m' hm' =>
      h m' (List.mem_cons_of_mem m hm')
    refine ⟨b :: bs, fun cs => ?_⟩
    cases cs with
    | nil => simp
    | cons c cs => simp [hb, hbs]

/-- Without a limit there is one possible result. -/
theorem Fits.determined (fits : op.Fits Meaning.toScope inputs) (notLimit : op.isLimit = false)
    (determined : ∀ m ∈ inputs, m.Determined) : (op.meaning I db inputs).Determined := by
  intro env
  cases fits with
  | get | dynamicGet | values | cteConsumer => exact ⟨_, rfl⟩
  | @select _ m | @project _ m | @groupBy _ m | @cteProducer _ m =>
    obtain ⟨b, hb⟩ := determined m (by simp) env
    simp only [meaning, results, hb, Set.mem_singleton_iff, exists_eq_left]
    exact ⟨_, rfl⟩
  | limit => cases notLimit
  | @join j l r =>
    obtain ⟨ls, hls⟩ := determined l (by simp) env
    obtain ⟨rs, hrs⟩ := determined r (by simp) env
    simp only [meaning, results, hls, hrs, Set.mem_singleton_iff, exists_eq_left]
    exact ⟨_, rfl⟩
  | @apply a l r =>
    obtain ⟨ls, hls⟩ := determined l (by simp) env
    choose right hright using determined r (by simp)
    let bag (x : Row) := right (env.assign a.outer (x.tuple a.outer))
    refine ⟨(ls.map fun x => (x, bag x)).bind fun x =>
      a.type.rows r.output (a.predicate.test I ·) x.1 x.2, ?_⟩
    simp only [meaning, results, hls, hright, Set.mem_singleton_iff]
    refine Set.eq_singleton_iff_unique_mem.2 ⟨⟨_, ?_, ?_, rfl⟩, ?_⟩
    · simp [Multiset.map_map]
    · intro x hx
      obtain ⟨y, -, rfl⟩ := Multiset.mem_map.1 hx
      rfl
    · rintro out ⟨matched, rfl, hm, rfl⟩
      have : matched = (matched.map Prod.fst).map fun x => (x, bag x) := by
        rw [Multiset.map_map]
        exact (Multiset.map_id' matched).symm.trans
          (Multiset.map_congr rfl fun x hx => Prod.ext rfl (hm x hx))
      rw [← this]
  | setOp =>
    obtain ⟨bags, hbags⟩ := forall₂_results_singleton env determined
    simp only [meaning, results, hbags, exists_eq_left]
    exact ⟨_, rfl⟩
  | @cteAnchor id producer body => exact determined body (by simp) env

end LogicalOperator

end QueryOptimizer
