import QueryOptimizer.Proofs.Constraint.ReadBack
import QueryOptimizer.Proofs.Constraint.Strategy

/-!
# Constraints as predicates and back

A constraint that is printed as a predicate is read back as it was, if it was made by the
constructors and no part of it is a contradiction. An interval is printed as a disjunction of
its ranges, a range as a conjunction of its ends, and all of this is mixed up with the
connectives around it when it is read; but the pieces of one interval stand next to one
another, so they are put together where the interval stood.

## Main results

* `Reading.readsBack_interval`: an interval is read back.
* `Reading.readsBack_of_flat`: every constraint that is written as the constructors
  write it is read back.
* `Constraint.ofPredicate_toScalar`: the constraint of the predicate of a
  constraint is the constraint.
-/

namespace QueryOptimizer

/-- Whether a catalog knows a comparison and says that it yields null on null input. -/
def Catalog.Knows {K : Type} (catalog : Catalog K) (op : BinaryOp) (left right : DataType) :
    Prop :=
  (∃ result, catalog.comparison op left right = .ok result) ∧
    ∃ props, catalog.scalarOp op = .ok props ∧ props.nullOnNullInput = true

/-- Whether a catalog knows the comparisons of columns with values, in a predicate made of
connectives and comparisons. -/
def Scalar.KnownTo {K : Type} (catalog : Catalog K) : Scalar → Prop
  | binary .and l r | binary .or l r => KnownTo catalog l ∧ KnownTo catalog r
  | not e => KnownTo catalog e
  | e => ∀ c op v, e.asComparison? = some (c, op, v) → catalog.Knows op c.type v.type

/-- The datums at the ends of ranges. -/
def Interval.endpoints (i : Interval) : List Datum :=
  i.ranges.flatMap fun r => r.start.value?.toList ++ r.stop.value?.toList

namespace Constraint

mutual

/-- The constraints that a constraint is made of, itself included. -/
def subterms : Constraint → List Constraint
  | interval i => [interval i]
  | conjunction parts strategy => conjunction parts strategy :: subtermsOf parts
  | disjunction parts strategy => disjunction parts strategy :: subtermsOf parts
  | negation c => negation c :: c.subterms

/-- The constraints that a list of constraints is made of. -/
def subtermsOf : List Constraint → List Constraint
  | [] => []
  | c :: cs => c.subterms ++ subtermsOf cs

end

/-! ### Parts -/

variable {Γ : Nat → DataType} {c d : Constraint} {cs parts : List Constraint}
  {strategy : LookupStrategy}

/-- The subterms of a list are those of its members. -/
@[simp] theorem subtermsOf_eq_flatMap (cs : List Constraint) :
    subtermsOf cs = cs.flatMap subterms := by
  induction cs with
  | nil => simp [subtermsOf]
  | cons c cs ih => simp [subtermsOf, ih]

/-- A constraint is one of its subterms. -/
theorem mem_subterms_self (c : Constraint) : c ∈ c.subterms := by
  cases c <;> simp [subterms]

/-- The subterms of a part are subterms of the whole. -/
theorem subterms_subset_build {k : Connective} (hd : d ∈ parts) :
    d.subterms ⊆ (k.build parts strategy).subterms := by
  intro e he
  cases k <;>
    simp only [Connective.build, subterms, subtermsOf_eq_flatMap, List.mem_cons,
      List.mem_flatMap] <;>
    exact .inr ⟨d, hd, he⟩

/-- Constraints are printed one by one. -/
theorem toScalars_eq_map (cs : List Constraint) : toScalars cs = cs.map toScalar := by
  induction cs with
  | nil => simp [toScalars]
  | cons c cs ih => simp [toScalars, ih]

/-- A conjunction or disjunction is printed as the chain of its parts. -/
theorem Connective.toScalar_build {k : Connective} {e : Scalar}
    (made : Scalar.chain k.op (parts.map toScalar) = some e) :
    (k.build parts strategy).toScalar = e := by
  cases k with
  | and =>
    rw [build, toScalar, toScalars_eq_map, Scalar.conjoin?, ← op, made, Option.getD_some]
  | or => rw [build, toScalar, toScalars_eq_map, Scalar.disjoin?, ← op, made, Option.getD_some]

/-- A conjunction or disjunction is put on the index with its parts. -/
theorem Connective.indexed_build (k : Connective) :
    (k.build parts strategy).indexed = k.build (parts.map indexed) .index := by
  cases k <;> rw [build, indexed, indexedAll_eq_map]

/-- Whether no range in a constraint ends in null and no part of it is a contradiction. -/
structure Proper (c : Constraint) : Prop where
  values : ∀ i, .interval i ∈ c.subterms → ∀ v ∈ i.endpoints, v.isNull = false
  satisfiable : ∀ d ∈ c.subterms, d.isContradiction = false

/-- A subterm of a proper constraint is proper. -/
theorem Proper.mono (h : c.Proper) (within : d.subterms ⊆ c.subterms) : d.Proper :=
  ⟨fun i hi => h.values i (within hi), fun e he => h.satisfiable e (within he)⟩

/-! ### How parts are looked up does not matter -/

/-- Constraints on different columns stay so on the index. -/
theorem Separate.indexed (h : c.Separate d) : c.indexed.Separate d.indexed :=
  fun i j hi hj => h i j (indexed_eq_interval hi) (indexed_eq_interval hj)

/-- A conjunction or disjunction is not a part of itself. -/
theorem Connective.flatten_build_ne (k : Connective) :
    k.flatten (k.build cs strategy) ≠ [k.build cs strategy] := by
  rw [flatten_build]
  intro loop
  have size := congrArg sizeOf loop
  cases k <;> simp [build] at size <;> omega

/-- A part that cannot be flattened cannot be on the index. -/
theorem Connective.flatten_indexed {k : Connective} (alone : k.flatten c = [c]) :
    k.flatten c.indexed = [c.indexed] := by
  cases c with
  | interval i => cases k <;> rfl
  | conjunction parts strategy =>
    cases k with
    | and => exact absurd alone (Connective.and.flatten_build_ne)
    | or => rw [indexed]; rfl
  | disjunction parts strategy =>
    cases k with
    | and => rw [indexed]; rfl
    | or => exact absurd alone (Connective.or.flatten_build_ne)
  | negation c => cases k <;> rw [indexed] <;> rfl

/-- Parts looked up through indexes can still be the parts of a conjunction or disjunction. -/
theorem AreParts.indexed {k : Connective} (h : AreParts k.flatten parts) :
    AreParts k.flatten (parts.map Constraint.indexed) where
  alone := List.forall_mem_map.2 fun p hp => Connective.flatten_indexed (h.alone p hp)
  bounded := List.forall_mem_map.2 fun p hp => (extremes_indexed p).2.trans (h.bounded p hp)
  separate := List.pairwise_map.2 (h.separate.imp Separate.indexed)
  two := by simpa using h.two

end Constraint

/-! ### Intervals -/

namespace Interval

variable {i j : Interval}

/-- The intervals that an interval is the union of: one for each range, and one for null. -/
def members (i : Interval) : List Interval :=
  i.ranges.map (⟨i.column, [·], false⟩) ++ if i.includeNull then [⟨i.column, [], true⟩] else []

/-- An interval of one range is printed as the range, or as what excludes
null if that is open. -/
theorem toScalar_range (c : Column) (r : Range) :
    toScalar ⟨c, [r], false⟩ = (rangeToScalar? c r).getD (.not (.isNull (.column c))) := by
  simp [toScalar, isUnbounded, Scalar.disjoin?, Scalar.chain]

/-- The interval of null alone is printed as a test for null. -/
theorem toScalar_null (c : Column) : toScalar ⟨c, [], true⟩ = .isNull (.column c) := by
  simp [toScalar, isUnbounded, Scalar.disjoin?, Scalar.chain]

/-- An interval is printed as the disjunction of its members. -/
theorem toScalar_eq_disjoin? (bounded : i.isUnbounded = false) :
    i.toScalar = (Scalar.disjoin? (i.members.map toScalar)).getD (.ofBool false) := by
  have each : i.members.map toScalar =
      (i.ranges.map fun r =>
        (rangeToScalar? i.column r).getD (.not (.isNull (.column i.column)))) ++
        if i.includeNull then [.isNull (.column i.column)] else [] := by
    cases null : i.includeNull <;>
      simp [members, null, toScalar_range, toScalar_null, Function.comp_def]
  rw [each, toScalar, if_neg (Bool.eq_false_iff.1 bounded)]

/-- The only member of an interval is the interval. -/
theorem eq_of_members (h : i.members = [j]) : j = i := by
  obtain ⟨c, rs, null⟩ := i
  cases null <;> rcases rs with _ | ⟨r, _ | _⟩ <;> simp_all [members]

/-- Uniting arranged ranges one after the other gives an interval of just these. The induction
adds the last range, since the leading ones are arranged as well. -/
theorem gathers_ranges (c : Column) {rs : List Range} (some : rs ≠ [])
    (arranged : Range.Arranged rs) :
    Constraint.Gathers union (rs.map fun r => .interval ⟨c, [r], false⟩)
      (.interval ⟨c, rs, false⟩) := by
  induction rs using List.reverseRecOn with
  | nil => exact (some rfl).elim
  | append_singleton rs r ih =>
    by_cases none : rs = []
    · subst none
      exact Constraint.gathers_singleton _ _
    · have more := (ih none arranged.of_append).append_interval (j := ⟨c, [r], false⟩) rfl rfl
      rw [union, ofRanges_of_arranged _ _ arranged] at more
      simpa using more

/-- Uniting the members of an interval one after the other gives the interval. -/
theorem gathers_members (arranged : Range.Arranged i.ranges)
    (satisfiable : i.isContradiction = false) :
    Constraint.Gathers union (i.members.map .interval) (.interval i) := by
  obtain ⟨c, rs, null⟩ := i
  by_cases none : rs = []
  · subst none
    cases null with
    | false => cases satisfiable
    | true => exact Constraint.gathers_singleton _ _
  · have ranges := gathers_ranges c none arranged
    cases null with
    | false => simpa [members, Function.comp_def] using ranges
    | true =>
      have more := ranges.append_interval (j := ⟨c, [], true⟩) rfl rfl
      rw [union, List.append_nil, ofRanges_of_arranged _ _ arranged] at more
      simpa [members, Function.comp_def] using more

/-- The members of an interval are its ranges and null. -/
theorem mem_members {m : Interval} : m ∈ i.members ↔
    (∃ r ∈ i.ranges, m = ⟨i.column, [r], false⟩) ∨ i.includeNull = true ∧
      m = ⟨i.column, [], true⟩ := by
  rw [members, List.mem_append, List.mem_map]
  refine or_congr (exists_congr fun r => and_congr_right fun _ => eq_comm) ?_
  split <;> simp_all

/-- An interval that admits something has a member. -/
theorem members_ne_nil (satisfiable : i.isContradiction = false) : i.members ≠ [] := by
  obtain ⟨c, rs, null⟩ := i
  cases null <;> cases rs <;> simp_all [members, isContradiction]

/-- A member is neither unbounded nor a contradiction. -/
theorem extremes_of_mem_members {m : Interval} (hm : m ∈ i.members) :
    m.isUnbounded = false ∧ m.isContradiction = false := by
  obtain ⟨r, -, rfl⟩ | ⟨-, rfl⟩ := mem_members.1 hm <;> exact ⟨rfl, rfl⟩

end Interval

/-! ### What the catalog knows -/

namespace Scalar

variable {K : Type} {catalog : Catalog K} {k : Constraint.Connective} {es : List Scalar}
  {e l r : Scalar}

/-- The comparisons of a binary expression are known if those of its operands are. -/
theorem knownTo_binary :
    (binary k.op l r).KnownTo catalog ↔ l.KnownTo catalog ∧ r.KnownTo catalog := by
  cases k <;> exact Iff.rfl

/-- All predicates are known to a catalog that knows all comparisons. -/
theorem knownTo_of_knows (knows : ∀ op left right, catalog.Knows op left right) (e : Scalar) :
    e.KnownTo catalog := by
  fun_induction KnownTo catalog e with
  | case1 l r hl hr => exact ⟨hl, hr⟩
  | case2 l r hl hr => exact ⟨hl, hr⟩
  | case3 e ih => exact ih
  | case4 e => exact fun c op v _ => knows op c.type v.type

/-- The comparisons of the members of a chain are known if those of the chain are. -/
theorem knownTo_of_chain (made : chain k.op es = some e) (known : e.KnownTo catalog) :
    ∀ x ∈ es, x.KnownTo catalog := by
  cases es with
  | nil => simp
  | cons e es =>
    obtain rfl := Option.some.inj made
    clear made
    revert known
    induction es generalizing e with
    | nil => exact fun known => List.forall_mem_singleton.2 known
    | cons x es ih =>
      intro known
      obtain ⟨both, rest⟩ := List.forall_mem_cons.1 (ih _ known)
      obtain ⟨first, second⟩ := knownTo_binary.1 both
      exact List.forall_mem_cons.2 ⟨first, List.forall_mem_cons.2 ⟨second, rest⟩⟩

end Scalar

/-! ### Reading back -/

namespace Reading

open Constraint

variable {K : Type} {catalog : Catalog K} {Γ : Nat → DataType} {τ : DataType} {col : Column}
  {i : Interval} {r : Range}
  {start stop : Bound} {c : Constraint}

/-- A comparison that is known and yields null on null input reads as its interval. -/
theorem ofComparison_of_knows {op : BinaryOp} {v : Datum}
    (knows : catalog.Knows op col.type v.type) :
    ofComparison catalog col op v =
      .ok ((Interval.ofComparison? col op v).map ofInterval) := by
  obtain ⟨⟨result, compares⟩, props, answers, nulls⟩ := knows
  have exist : (catalog.comparisonExists op col.type v.type).orFail = .ok true := by
    rw [Catalog.comparisonExists, compares]
    rfl
  have asked : (catalog.scalarOp? op).orFail = .ok (some props) := by
    rw [Catalog.scalarOp?, answers]
    rfl
  refine OptResult.bind_eq_ok.2 ⟨true, exist, OptResult.bind_eq_ok.2 ⟨some props, asked, ?_⟩⟩
  simp only [nulls]
  rfl

/-- The comparison with a value reads as the range of the values for which it is true. -/
theorem reads_comparison {op : BinaryOp} {v : Datum}
    (known : (Interval.comparison col op v).KnownTo catalog) (value : v.isNull = false)
    (made : Interval.comparisonRanges? v op = some [r]) (nonempty : r.isEmpty = false)
    (chain : Option BinaryOp) :
    Reads catalog chain (Interval.comparison col op v) [.interval ⟨col, [r], false⟩] := by
  have knows : catalog.Knows op col.type v.type := by
    cases op <;> cases made <;> exact known _ _ _ rfl
  have interval : Interval.ofComparison? col op v = some ⟨col, [r], false⟩ := by
    have plain : (op == .isDistinctFrom) = false := by cases op <;> cases made <;> rfl
    rw [Interval.ofComparison?, value, made,
      ← Interval.ofRanges_of_arranged _ _ (Range.arranged_singleton nonempty), plain]
    rfl
  have read := ofComparison_of_knows knows
  rw [interval] at read
  unfold Reads Interval.comparison
  cases op <;> cases made <;> exact OptResult.bind_eq_ok.2 ⟨_, read, rfl⟩

/-- The ends of a range, each as a range of its own, are the pieces of the range. -/
theorem pieces_of_ends (nonempty : Range.isEmpty ⟨start, stop⟩ = false) :
    Pieces .and
      [.interval ⟨col, [⟨start, .unbounded⟩], false⟩,
        .interval ⟨col, [⟨.unbounded, stop⟩], false⟩]
          (.interval ⟨col, [⟨start, stop⟩], false⟩) where
  alone := by simp [Connective.flatten, conjuncts]
  bounded := by simp [isUnbounded, Interval.isUnbounded]
  satisfiable := by simp [isContradiction, Interval.isContradiction]
  gathers := by
    have both : Range.intersect? ⟨start, .unbounded⟩ ⟨.unbounded, stop⟩ =
        some ⟨start, stop⟩ := by
      cases start <;> cases stop <;>
        simp [Range.intersect?, Bound.compareStart, Bound.compareEnd, nonempty]
    have first := gathers_singleton Interval.intersect
      (.interval ⟨col, [⟨start, .unbounded⟩], false⟩)
    have combined := first.append_interval (j := ⟨col, [⟨.unbounded, stop⟩], false⟩) rfl rfl
    have arranged :=
      Interval.ofRanges_of_arranged col false (Range.arranged_singleton nonempty)
    simp only [Interval.intersect, List.flatMap_cons, List.filterMap_cons, both] at combined
    exact arranged ▸ combined

/-- The comparisons with both ends of a range read as its pieces. -/
theorem reads_ends {lower upper : BinaryOp} {a b : Datum}
    (known : (Scalar.binary .and (Interval.comparison col lower a)
      (Interval.comparison col upper b)).KnownTo catalog) (ha : a.isNull = false)
    (hb : b.isNull = false)
    (above : Interval.comparisonRanges? a lower = some [⟨start, .unbounded⟩])
    (below : Interval.comparisonRanges? b upper = some [⟨.unbounded, stop⟩]) :
    Reads catalog (some .and)
      (.binary .and (Interval.comparison col lower a) (Interval.comparison col upper b))
    [.interval ⟨col, [⟨start, .unbounded⟩], false⟩,
      .interval ⟨col, [⟨.unbounded, stop⟩], false⟩] := by
  obtain ⟨first, second⟩ := (Scalar.knownTo_binary (k := .and)).1 known
  exact Reads.binary (k := .and)
    (reads_comparison first ha above (Range.isEmpty_above start) _)
    (reads_comparison second hb below (Range.isEmpty_below stop) _)

/-- A range reads as one interval everywhere, or it is printed as the
conjunction of its ends. -/
theorem reads_range (nonempty : r.isEmpty = false) (typed : r.HasType τ)
    (values : ∀ v ∈ (⟨col, [r], false⟩ : Interval).endpoints, v.isNull = false)
    (known : (Interval.toScalar ⟨col, [r], false⟩).KnownTo catalog) :
    (∀ chain,
      Reads catalog chain (Interval.toScalar ⟨col, [r], false⟩)
        [.interval ⟨col, [r], false⟩]) ∨
      ∃ lower upper cs, Interval.toScalar ⟨col, [r], false⟩ = .binary .and lower upper ∧
        Reads catalog (some .and) (.binary .and lower upper) cs ∧
          Pieces .and cs (.interval ⟨col, [r], false⟩) := by
  rw [Interval.toScalar_range] at known ⊢
  simp only [Interval.endpoints, List.flatMap_cons, List.flatMap_nil, List.append_nil]
    at values
  obtain ⟨start, stop⟩ := r
  cases point : Range.asPoint? ⟨start, stop⟩ with
  | some v =>
    left
    obtain ⟨b, rfl, rfl, equal⟩ : ∃ b, start = .included v ∧ stop = .included b ∧
        v.compare b = .eq := by
      cases start <;> cases stop <;> simp_all [Range.asPoint?]
      grind
    obtain ⟨hv, hb⟩ : v.isNull = false ∧ b.isNull = false := by
      simpa [Bound.value?] using values
    obtain rfl := Datum.eq_of_compare_eq ⟨typed.start v rfl, hv⟩ ⟨typed.stop b rfl, hb⟩ equal
    rw [Interval.rangeToScalar?, point] at known ⊢
    exact reads_comparison known hv rfl nonempty
  | none =>
    rw [Interval.rangeToScalar?, point] at known ⊢
    -- an end that is not open is printed as a comparison, two of them as a conjunction
    rcases start with a | a | _ <;> rcases stop with b | b | _ <;>
      simp only [Bound.value?, Option.toList_some, Option.toList_none, List.append_nil,
        List.nil_append, List.cons_append, List.mem_cons, List.not_mem_nil, or_false,
        forall_eq_or_imp, forall_eq] at values
    case unbounded.unbounded => exact .inl (Reads.not (c := .interval (.nullOnly col)) rfl)
    all_goals first
      | exact .inl (reads_comparison known values rfl nonempty)
      | exact .inr ⟨_, _, _, rfl, reads_ends known values.1 values.2 rfl rfl,
          pieces_of_ends nonempty⟩

/-- A member of an interval reads as one interval outside of conjunctions, and it is read
back inside of them. -/
theorem readsBack_member {m : Interval} (regular : i.Regular τ)
    (arranged : Range.Arranged i.ranges) (values : ∀ v ∈ i.endpoints, v.isNull = false)
    (hm : m ∈ i.members) (known : m.toScalar.KnownTo catalog) :
    (∀ chain, chain ≠ some .and → Reads catalog chain m.toScalar [.interval m]) ∧
      ReadsBack catalog m.toScalar (.interval m) := by
  obtain ⟨bounded, satisfiable⟩ := Interval.extremes_of_mem_members hm
  obtain ⟨r, hr, rfl⟩ | ⟨-, rfl⟩ := Interval.mem_members.1 hm
  · have ends : ∀ v ∈ (⟨i.column, [r], false⟩ : Interval).endpoints,
        v.isNull = false := fun v hv => by
      refine values v (List.mem_flatMap.2 ⟨r, hr, ?_⟩)
      simpa [Interval.endpoints] using hv
    rcases reads_range (arranged.nonempty r hr) (regular.typed r hr) ends known with
      everywhere | ⟨lower, upper, cs, printed, reads, pieces⟩
    · exact ⟨fun chain _ => everywhere chain, .of_reads everywhere bounded satisfiable⟩
    · rw [printed]
      have joined : Connective.and.join cs .index = some (.interval ⟨i.column, [r], false⟩) :=
        Connective.and.join_of_gathers pieces bounded
      exact ⟨fun chain outside => Reads.joined (k := .and) reads outside joined,
        ReadsBack.of_pieces (k := .and) reads pieces bounded satisfiable⟩
  · have everywhere (chain : Option BinaryOp) :
        Reads catalog chain (Interval.toScalar ⟨i.column, [], true⟩)
        [.interval ⟨i.column, [], true⟩] := by
      rw [Interval.toScalar_null]
      exact rfl
    exact ⟨fun chain _ => everywhere chain, .of_reads everywhere bounded satisfiable⟩

/-- An interval is read back. -/
theorem readsBack_interval (regular : i.Regular τ) (arranged : Range.Arranged i.ranges)
    (values : ∀ v ∈ i.endpoints, v.isNull = false) (satisfiable : i.isContradiction = false)
    (bounded : i.isUnbounded = false) (known : i.toScalar.KnownTo catalog) :
    ReadsBack catalog i.toScalar (.interval i) := by
  obtain ⟨first, rest, hmembers⟩ :=
    List.exists_cons_of_ne_nil (Interval.members_ne_nil satisfiable)
  obtain ⟨e, made⟩ : ∃ e, Scalar.chain .or (i.members.map Interval.toScalar) = some e := by
    rw [hmembers]
    exact ⟨_, rfl⟩
  rw [Interval.toScalar_eq_disjoin? bounded, Scalar.disjoin?, made, Option.getD_some]
    at known ⊢
  have members (m : Interval) (hm : m ∈ i.members) := readsBack_member regular
    arranged values hm
    (Scalar.knownTo_of_chain (k := .or) made known _ (List.mem_map_of_mem hm))
  cases rest with
  | nil =>
    obtain rfl := Interval.eq_of_members hmembers
    rw [hmembers] at made
    obtain rfl := Option.some.inj made
    exact (members first (by simp [hmembers])).2
  | cons second rest =>
    have pieces : Pieces .or (i.members.map .interval) (.interval i) := {
      alone := List.forall_mem_map.2 fun m _ => rfl
      bounded := List.forall_mem_map.2 fun m hm => (Interval.extremes_of_mem_members hm).1
      satisfiable := List.forall_mem_map.2 fun m hm => (Interval.extremes_of_mem_members hm).2
      gathers := Interval.gathers_members arranged satisfiable }
    have reads : Reads catalog (some .or) e (i.members.map .interval) := by
      rw [List.map_eq_flatMap]
      exact .of_chain (k := .or) (fun m hm => (members m hm).1 _ nofun) made
    obtain ⟨l, r, rfl⟩ := Scalar.exists_eq_binary_of_chain made (by simp [hmembers])
    exact .of_pieces (k := .or) reads pieces bounded satisfiable

/-! ### Constraints -/

/-- A conjunction or disjunction is read back if its parts are. -/
theorem readsBack_of_parts {k : Connective} {parts : List Constraint}
    {strategy : LookupStrategy} (are : AreParts k.flatten parts)
    (proper : (k.build parts strategy).Proper)
    (bounded : (k.build parts strategy).isUnbounded = false)
    (known : (k.build parts strategy).toScalar.KnownTo catalog)
    (back : ∀ p ∈ parts, p.Proper → p.isUnbounded = false → p.toScalar.KnownTo catalog →
      ReadsBack catalog p.toScalar p.indexed) :
    ReadsBack catalog (k.build parts strategy).toScalar (k.build parts strategy).indexed := by
  obtain ⟨first, rest, rfl⟩ :=
    List.exists_cons_of_length_pos (Nat.lt_of_lt_of_le Nat.two_pos are.two)
  have satisfiable := proper.satisfiable _ (mem_subterms_self _)
  rw [← (extremes_indexed _).1, Connective.indexed_build] at satisfiable
  rw [← (extremes_indexed _).2, Connective.indexed_build] at bounded
  rw [Connective.toScalar_build rfl] at known ⊢
  rw [Connective.indexed_build]
  have each (p : Constraint) (hp : p ∈ first :: rest) :
      ReadsBack catalog p.toScalar p.indexed :=
    back p hp (proper.mono (subterms_subset_build hp)) (are.bounded p hp)
      (Scalar.knownTo_of_chain (k := k) rfl known _ (List.mem_map_of_mem hp))
  exact .of_parts each are.indexed rfl bounded satisfiable

/-- Every constraint that is written as the constructors write it is read back. -/
theorem readsBack_of_flat (flat : c.Flat Γ) (proper : c.Proper)
    (bounded : c.isUnbounded = false) (known : c.toScalar.KnownTo catalog) :
    ReadsBack catalog c.toScalar c.indexed := by
  induction flat with
  | @interval i regular arranged =>
    have values := proper.values i (mem_subterms_self _)
    have satisfiable := proper.satisfiable _ (mem_subterms_self _)
    rw [indexed]
    exact readsBack_interval regular arranged values satisfiable bounded known
  | conjunction _ are ih => exact readsBack_of_parts (k := .and) are proper bounded known ih
  | disjunction _ are ih => exact readsBack_of_parts (k := .or) are proper bounded known ih
  | @negation c _ compound ih =>
    have satisfiable := proper.satisfiable _ (mem_subterms_self _)
    have inner : c.isUnbounded = false := by simpa only [isContradiction] using satisfiable
    have within : c.subterms ⊆ (negation c).subterms := by simp [subterms]
    rw [toScalar] at known ⊢
    have whole := (ih (proper.mono within) inner known).whole
    have negated : c.indexed.negate = (negation c).indexed := by
      cases c <;> cases compound <;> simp only [indexed, Constraint.negate]
    refine .of_reads (fun chain => negated ▸ whole.not chain) ?_ ?_
    · exact (extremes_indexed _).2.trans bounded
    · exact (extremes_indexed _).1.trans satisfiable

end Reading

namespace Constraint

variable {K : Type} {catalog : Catalog K} {Γ : Nat → DataType} {c : Constraint}

/-- What is written as the constructors write it is bounded, unless it is an interval. -/
theorem Flat.isUnbounded_eq_false (flat : c.Flat Γ) (proper : c.Proper)
    (intervals : ∀ i, c = .interval i → i.isUnbounded = false) : c.isUnbounded = false := by
  cases flat with
  | @interval i => exact intervals i rfl
  | @conjunction parts strategy _ are =>
    obtain ⟨p, hp⟩ := List.exists_mem_of_length_pos (Nat.lt_of_lt_of_le Nat.two_pos are.two)
    simp only [isUnbounded, allUnbounded_eq_all, List.all_eq_false, Bool.not_eq_true]
    exact ⟨p, hp, are.bounded p hp⟩
  | @disjunction parts strategy _ are =>
    simpa only [isUnbounded, anyUnbounded_eq_any, List.any_eq_false, Bool.not_eq_true]
      using are.bounded
  | @negation c =>
    have inner := proper.satisfiable c (by simp [subterms, mem_subterms_self])
    simpa only [isUnbounded] using inner

/-- Printing a constraint as a predicate and reading the predicate gives the constraint back,
except that its parts are looked up through indexes. This holds of the constraints that the
constructors make, if their ranges end in values of one type for each column, no part of them
is a contradiction, and they say something; the catalog has to know the comparisons in the
predicate and how they treat null. -/
theorem ofPredicate_toScalar (built : c.Built Γ)
    (values : ∀ i, .interval i ∈ c.subterms → ∀ v ∈ i.endpoints, v.isNull = false)
    (satisfiable : ∀ d ∈ c.subterms, d.isContradiction = false)
    (bounded : ∀ i, c = interval i → i.isUnbounded = false)
    (known : c.toScalar.KnownTo catalog) :
    ofPredicate catalog c.toScalar = .ok (some c.indexed) ∧ (c.indexed == c) = true := by
  have flat := built.flat
  have proper : c.Proper := ⟨values, satisfiable⟩
  have back :=
    Reading.readsBack_of_flat flat proper (flat.isUnbounded_eq_false proper bounded) known
  refine ⟨ofPredicate_eq_ok.2 ⟨some ⟨c.indexed, true⟩, ?_, rfl⟩, equal_indexed c⟩
  exact OptResult.bind_eq_ok.2 ⟨_, back.whole, rfl⟩

end Constraint

/-! ### An example -/

namespace Sample

def total : Column := ⟨1, .integer .int64, -1, "total", .computed⟩

/-- The amount is one to five, five excluded, or the total is missing. -/
def either : Constraint :=
  .disjunction
    [.interval
      ⟨amount, [⟨.included (.integer .int64 1), .excluded (.integer .int64 5)⟩], false⟩,
      .interval (.nullOnly total)] .scan

/-- The amount is other than seven, if there is one, and not the like of `either`. -/
def restricted : Constraint :=
  .conjunction
    [.interval
      ⟨amount, [.below (.integer .int64 7) false, .above (.integer .int64 7) false], true⟩,
      .negation either] .scan

end Sample

open Sample in
/-- A conjunction with a negated disjunction reads back as itself. -/
theorem ofPredicate_toScalar_restricted : (restricted.Built fun _ => .integer .int64) ∧
    Constraint.ofPredicate comparing restricted.toScalar = .ok (some restricted.indexed) ∧
    (restricted.indexed == restricted) = true := by
  let Γ : Nat → DataType := fun _ => .integer .int64
  have interval (c : Column) (ranges : List Range) (includeNull : Bool)
      (typed : ∀ r ∈ ranges, ∀ v ∈ r.start.value?.toList ++ r.stop.value?.toList,
        v.type = .integer .int64) :
      Constraint.Built Γ (.interval (.ofRanges c ranges includeNull)) :=
    .interval c includeNull fun r hr =>
      ⟨fun v hv => typed r hr v (by simp_all), fun v hv => typed r hr v (by simp_all)⟩
  have amounts :=
    interval amount [⟨.included (.integer .int64 1), .excluded (.integer .int64 5)⟩]
      false (by decide)
  have others :=
    interval amount [.below (.integer .int64 7) false, .above (.integer .int64 7) false]
      true (by decide)
  have missing : Constraint.Built Γ (.interval (.nullOnly total)) :=
    interval total [] true (by decide)
  have built : restricted.Built Γ := by
    have some : either.Built Γ :=
      .disjunction (List.forall_mem_cons.2 ⟨amounts, List.forall_mem_singleton.2 missing⟩) rfl
    exact .conjunction
      (List.forall_mem_cons.2 ⟨others, List.forall_mem_singleton.2 some.negation⟩) rfl
  refine ⟨built, Constraint.ofPredicate_toScalar built ?_ ?_ ?_ ?_⟩
  · have each : ∀ i ∈
      [Interval.mk amount
        [.below (.integer .int64 7) false, .above (.integer .int64 7) false] true,
        ⟨amount, [⟨.included (.integer .int64 1), .excluded (.integer .int64 5)⟩], false⟩,
        .nullOnly total],
        ∀ v ∈ i.endpoints, v.isNull = false := by decide
    intro i hi
    refine each i ?_
    simpa [restricted, either, Constraint.subterms] using hi
  · decide +kernel
  · nofun
  · exact Scalar.knownTo_of_knows (fun _ _ _ => ⟨⟨_, rfl⟩, _, rfl, rfl⟩) _

end QueryOptimizer
