import QueryOptimizer.Constraint.Predicate
import QueryOptimizer.Proofs.Constraint.Algebra
import QueryOptimizer.Proofs.Result

/-!
# Constraints of predicates

A row that passes a predicate satisfies the constraint that is read off the predicate.
An exact reading says more: no row that satisfies the constraint makes the predicate
false. These are the two halves that a negation exchanges, which is why an exact reading
can be negated and no other.

## Main results

* `Reading.describes_of_ofPredicate`: what is read off a predicate is about the predicate.
* `Constraint.ofPredicate_sound`: every predicate can be read if the catalog answers, and its
  constraint admits the rows that pass, an exact one no row that fails.
-/

namespace QueryOptimizer

/-- Whether a catalog says of an order comparison that it yields null on null
input only if it does. -/
def Catalog.Truthful {K : Type} (catalog : Catalog K) (I : Interpretation) : Prop :=
  ∀ op props, catalog.scalarOp op = .ok props → op.isOrder = true →
    props.nullOnNullInput = true → ∀ x y : Value, x = none ∨ y = none →
    I.nullComparison op x y = none

/-- Whether each question about operators has an answer, be it that nothing is known. -/
structure Catalog.Answers {K : Type} (c : Catalog K) : Prop where
  comparison : ∀ op s t, ∃ known, c.comparisonExists op s t = .ok known
  scalarOp : ∀ op, ∃ props, c.scalarOp? op = .ok props

/-- Whether each question about operators has an answer unless the catalog fails
with an excused error. -/
structure Catalog.AnswersUnless {K : Type} (excused : OptError → Prop) (c : Catalog K) :
    Prop where
  comparison : ∀ op s t, (c.comparisonExists op s t).orFail.SucceedsUnless excused
  scalarOp : ∀ op, (c.scalarOp? op).orFail.SucceedsUnless excused

/-- Whether comparisons with null can be turned around. -/
def Interpretation.Mirrored (I : Interpretation) : Prop :=
  ∀ op turned, op.swap? = some turned → ∀ x y : Value, x = none ∨ y = none →
    I.nullComparison op x y = I.nullComparison turned y x

/-- Whether each column that is compared with a value has the type of the value, in a predicate
made of connectives and comparisons. -/
def Scalar.Comparable (Γ : Nat → DataType) : Scalar → Prop
  | binary .and l r | binary .or l r => Comparable Γ l ∧ Comparable Γ r
  | not e => Comparable Γ e
  | e => ∀ c op v, e.asComparison? = some (c, op, v) → v.isNull = false → v.HasType (Γ c.id)

variable {K : Type} {catalog : Catalog K} {I : Interpretation} {Γ : Nat → DataType} {r : Row}

/-- An answer that was found is the answer that was given. -/
theorem CatalogAnswer.eq_ok_of_exists? {α : Type} {x : CatalogAnswer α} {a : α}
    (asked : x.exists?.orFail = .ok (some a)) : x = .ok a := by
  unfold exists? orFail at asked
  rcases x with (_ | _) | _ <;> cases asked
  rfl

/-! ### Comparisons -/

/-- An operator of an order is applied as a comparison. -/
theorem Interpretation.apply_of_isOrder {op : BinaryOp} (h : op.isOrder = true) (x y : Value) :
    I.apply op x y = I.compare op x y := by
  cases op <;> cases h <;> rfl

/-- A comparison with a null is not true if the operator yields null on null input, unless it
treats null as a value. -/
theorem Interpretation.compare_null {op : BinaryOp} {x y : Value}
    (strict : ∀ x y : Value, x = none ∨ y = none → I.nullComparison op x y = none)
    (null : x = none ∨ y = none) : I.compare op x y = none := by
  rw [← strict x y null]
  rcases null with rfl | rfl
  · rfl
  · cases x <;> rfl

/-- A comparison can be turned around. -/
theorem Interpretation.apply_swap (mirrored : I.Mirrored) {op turned : BinaryOp}
    (h : op.swap? = some turned) {τ : DataType} {x y : Value} (hx : x.HasType τ)
    (hy : y.HasType τ) : I.apply op x y = I.apply turned y x := by
  have order : op.isOrder = true := by cases op <;> cases h <;> rfl
  have order' : turned.isOrder = true := by cases op <;> cases h <;> rfl
  have nulls := mirrored op turned h x y
  rw [apply_of_isOrder order, apply_of_isOrder order']
  cases x with
  | none => cases y <;> exact nulls (.inl rfl)
  | some a =>
    cases y with
    | none => exact nulls (.inr rfl)
    | some b =>
      have forth := τ.scale.compares (hx a rfl) (hy b rfl)
      have back := τ.scale.compares (hy b rfl) (hx a rfl)
      have swapped : b.compare a = (a.compare b).swap := by
        cases h : a.compare b <;> rw [h] at forth
        · exact back.eq_gt.2 forth
        · exact back.eq_eq.2 forth.symm
        · exact back.eq_lt.2 forth
      simp only [compare, swapped]
      cases a.compare b <;> cases op <;> cases h <;> rfl

/-- Whether an operator yields null on null input or treats null as a value. -/
def BinaryOp.Decides (I : Interpretation) (op : BinaryOp) : Prop :=
  op.isOrder = true → ∀ x y : Value, x = none ∨ y = none → I.nullComparison op x y = none

namespace Interval

/-- The interval of a comparison with null admits the values for which the
comparison is true. -/
theorem ofNullComparison?_spec {c : Column} {op : BinaryOp} {i : Interval}
    (made : ofNullComparison? c op = some i) (decides : op.Decides I) {x : Value}
    {τ : DataType} (hx : x.HasType τ) :
    i.Regular τ ∧ i.column = c ∧
      (i.admits x = true ↔ (I.apply op x none).truth = some true) := by
  have all : ∀ r ∈ [Range.full], r.HasType τ := by
    simpa using ⟨Bound.hasType_unbounded, Bound.hasType_unbounded⟩
  have empty : ∀ r ∈ ([] : List Range), r.HasType τ := by simp
  have order (h : op.isOrder = true) : (I.apply op x none).truth ≠ some true := by
    rw [Interpretation.apply_of_isOrder h, Interpretation.compare_null (decides h) (.inr rfl)]
    simp [Value.truth]
  cases op with
  | eq | notEq | lt | ltEq | gt | gtEq =>
    obtain rfl := Option.some.inj made
    obtain ⟨regular, null, value⟩ := ofRanges_spec c false empty
    refine ⟨regular, rfl, iff_of_false ?_ (order rfl)⟩
    cases x with
    | none => simp [null]
    | some d => simp [value d (hx d rfl), Range.admitted]
  | isNotDistinctFrom =>
    obtain rfl := Option.some.inj made
    obtain ⟨regular, null, value⟩ := ofRanges_spec c true empty
    refine ⟨regular, rfl, ?_⟩
    cases x with
    | none => simp [nullOnly, null, Interpretation.apply, Value.same]
    | some d =>
      simp [nullOnly, value d (hx d rfl), Range.admitted, Interpretation.apply, Value.same]
  | isDistinctFrom =>
    obtain rfl := Option.some.inj made
    obtain ⟨regular, null, value⟩ := ofRanges_spec c false all
    refine ⟨regular, rfl, ?_⟩
    cases x with
    | none => simp [notNull, null, Interpretation.apply, Value.same]
    | some d =>
      rw [notNull, value d (hx d rfl)]
      simp [Range.admitted, Range.contains, Range.full, Interpretation.apply, Value.same]
  | _ => cases made

/-- The ranges of a comparison with a value contain the values for which the
comparison is true. -/
theorem comparisonRanges?_spec {op : BinaryOp} {v : Datum} {ranges : List Range}
    (made : comparisonRanges? v op = some ranges) {τ : DataType} (hv : v.HasType τ) :
    (∀ r ∈ ranges, r.HasType τ) ∧
      ∀ d : Datum, Range.admitted ranges d = true ↔
        (I.apply op (some d) (some v)).truth = some true := by
  have bounds : (Bound.unbounded).HasType τ ∧ (Bound.included v).HasType τ ∧
      (Bound.excluded v).HasType τ :=
    ⟨Bound.hasType_unbounded, fun w hw => Option.some.inj hw ▸ hv, fun w hw =>
      Option.some.inj hw ▸ hv⟩
  have range (s t : Bound) : Range.HasType τ ⟨s, t⟩ ↔ s.HasType τ ∧ t.HasType τ :=
    ⟨fun h => ⟨h.1, h.2⟩, fun h => ⟨h.1, h.2⟩⟩
  constructor
  · cases op <;> cases made <;> simp [Range.point, Range.below, Range.above, range, bounds]
  · intro d
    cases op <;> cases made <;>
      simp [Range.admitted, Range.contains, Range.point, Range.below, Range.above,
        Interpretation.apply, Interpretation.compare, BinaryOp.isOrder,
        BinaryOp.holds, Value.same] <;>
      cases d.compare v <;> decide

/-- The interval of a comparison admits the values for which the comparison is true. -/
theorem ofComparison?_spec {c : Column} {op : BinaryOp} {v : Datum} {i : Interval}
    (made : ofComparison? c op v = some i) (decides : op.Decides I) {x : Value} {τ : DataType}
    (hx : x.HasType τ) (hv : v.isNull = false → v.HasType τ) :
    i.Regular τ ∧ i.column = c ∧
      (i.admits x = true ↔ (I.apply op x v.value).truth = some true) := by
  unfold ofComparison? at made
  cases null : v.isNull with
  | true =>
    rw [null] at made
    rw [show v.value = none by simp [Datum.value, null]]
    exact ofNullComparison?_spec made decides hx
  | false =>
    rw [null] at made
    obtain ⟨ranges, hranges, rfl⟩ := by simpa using made
    rw [show v.value = some v by simp [Datum.value, null]]
    obtain ⟨typed, inside⟩ := comparisonRanges?_spec (I := I) hranges (hv null)
    obtain ⟨regular, notValue, value⟩ := ofRanges_spec c (op == .isDistinctFrom) typed
    refine ⟨regular, rfl, ?_⟩
    cases x with
    | some d => rw [value d (hx d rfl), inside]
    | none =>
      rw [notValue]
      cases order : op.isOrder with
      | true =>
        rw [Interpretation.apply_of_isOrder order,
          Interpretation.compare_null (decides order) (.inl rfl)]
        cases op <;> cases order <;> simp [Value.truth]
      | false =>
        cases op <;> cases hranges <;> cases order <;> simp [Interpretation.apply, Value.same]

end Interval

namespace Reading

/-- Whether a reading, if there is one, is about a predicate: its constraint admits the rows in
which the predicate is true, and if it is exact no row in which the predicate is false. -/
structure Describes (I : Interpretation) (Γ : Nat → DataType) (e : Scalar)
    (reading? : Option Reading) : Prop where
  normal : ∀ reading ∈ reading?, reading.constraint.Normal Γ
  of_true : ∀ r : Row, r.HasTypes Γ → e.test I r = some true →
    ∀ reading ∈ reading?, reading.constraint.admits r = true
  not_false : ∀ r : Row, r.HasTypes Γ → ∀ reading ∈ reading?, reading.exact = true →
    reading.constraint.admits r = true → e.test I r ≠ some false

/-- A predicate of which nothing is read. -/
theorem Describes.nothing (e : Scalar) : Describes I Γ e none :=
  ⟨by simp, by simp, by simp⟩

/-- A predicate that is true for the values in an interval only and not false for them. -/
theorem Describes.ofInterval {e : Scalar} {i : Interval} (regular : i.Regular (Γ i.column.id))
    (same : ∀ r : Row, r.HasTypes Γ →
      (i.admits (r i.column.id) = true ↔ e.test I r = some true)) :
    Describes I Γ e (some (ofInterval i)) where
  normal := by
    rintro _ ⟨⟩
    exact .interval regular
  of_true r hr true := by
    rintro _ ⟨⟩
    exact Constraint.admits_interval i ▸ (same r hr).2 true
  not_false r hr := by
    rintro _ ⟨⟩ - admits
    rw [(same r hr).1 (Constraint.admits_interval i ▸ admits)]
    simp

/-! ### Members of chains -/

/-- Whether readings are about the conjuncts of a predicate. -/
structure DescribeConjuncts (I : Interpretation) (Γ : Nat → DataType) (e : Scalar)
    (members : List (Option Reading)) : Prop where
  normal : ∀ m ∈ members, ∀ reading ∈ m, reading.constraint.Normal Γ
  of_true : ∀ r : Row, r.HasTypes Γ → e.test I r = some true →
    ∀ m ∈ members, ∀ reading ∈ m, reading.constraint.admits r = true
  not_false : ∀ r : Row, r.HasTypes Γ →
    (∀ m ∈ members, ∃ reading ∈ m, reading.exact = true ∧ reading.constraint.admits r = true) →
    e.test I r ≠ some false

/-- Whether readings are about the disjuncts of a predicate, as far as they were read: if one
says nothing, the others may be missing. -/
structure DescribeDisjuncts (I : Interpretation) (Γ : Nat → DataType) (e : Scalar)
    (members : List (Option Reading)) : Prop where
  normal : ∀ m ∈ members, ∀ reading ∈ m, reading.constraint.Normal Γ
  nonempty : members ≠ []
  of_true : ∀ r : Row, r.HasTypes Γ → e.test I r = some true → none ∉ members →
    ∃ m ∈ members, ∃ reading ∈ m, reading.constraint.admits r = true
  not_false : ∀ r : Row, r.HasTypes Γ → (∀ m ∈ members, ∃ reading ∈ m, reading.exact = true) →
    (∃ m ∈ members, ∃ reading ∈ m, reading.constraint.admits r = true) →
    e.test I r ≠ some false

section Chains

variable {e f : Scalar} {m : Option Reading} {ms ns : List (Option Reading)}

/-- A reading of a predicate describes it as its only conjunct. -/
theorem Describes.conjunct (h : Describes I Γ e m) : DescribeConjuncts I Γ e [m] where
  normal := by simpa using h.normal
  of_true r hr true := by simpa using h.of_true r hr true
  not_false r hr all := by
    obtain ⟨reading, known, exact, admits⟩ := all m (by simp)
    exact h.not_false r hr reading known exact admits

/-- A reading of a predicate describes it as its only disjunct. -/
theorem Describes.disjunct (h : Describes I Γ e m) : DescribeDisjuncts I Γ e [m] where
  normal := by simpa using h.normal
  nonempty := by simp
  of_true r hr true known := by
    obtain ⟨reading, rfl⟩ :=
      Option.ne_none_iff_exists'.1 fun h : m = none => known (by simp [h])
    exact ⟨_, List.mem_singleton.2 rfl, reading, rfl, h.of_true r hr true reading rfl⟩
  not_false r hr all := by
    obtain ⟨reading, known, exact⟩ := all m (by simp)
    rintro ⟨_, hm, other, hother, admits⟩
    obtain rfl := List.mem_singleton.1 hm
    obtain rfl := Option.mem_unique known hother
    exact h.not_false r hr reading known exact admits

/-- The conjuncts of both sides are the conjuncts of a conjunction. -/
theorem DescribeConjuncts.append (he : DescribeConjuncts I Γ e ms)
    (hf : DescribeConjuncts I Γ f ns) :
    DescribeConjuncts I Γ (.binary .and e f) (ms ++ ns) where
  normal := List.forall_mem_append.2 ⟨he.normal, hf.normal⟩
  of_true r hr true := by
    obtain ⟨first, second⟩ := Truth.and_eq_true.1 (Scalar.test_and I r e f ▸ true)
    exact List.forall_mem_append.2 ⟨he.of_true r hr first, hf.of_true r hr second⟩
  not_false r hr all := by
    obtain ⟨first, second⟩ := List.forall_mem_append.1 all
    rw [Scalar.test_and, Ne, Truth.and_eq_false, not_or]
    exact ⟨he.not_false r hr first, hf.not_false r hr second⟩

/-- The disjuncts of both sides are the disjuncts of a disjunction. -/
theorem DescribeDisjuncts.append (he : DescribeDisjuncts I Γ e ms)
    (hf : DescribeDisjuncts I Γ f ns) :
    DescribeDisjuncts I Γ (.binary .or e f) (ms ++ ns) where
  normal := List.forall_mem_append.2 ⟨he.normal, hf.normal⟩
  nonempty := List.append_ne_nil_of_left_ne_nil he.nonempty ns
  of_true r hr true known := by
    obtain ⟨first, second⟩ := not_or.1 (mt List.mem_append.2 known)
    rcases Truth.or_eq_true.1 (Scalar.test_or I r e f ▸ true) with true | true
    · obtain ⟨m, hm, admits⟩ := he.of_true r hr true first
      exact ⟨m, List.mem_append_left ns hm, admits⟩
    · obtain ⟨m, hm, admits⟩ := hf.of_true r hr true second
      exact ⟨m, List.mem_append_right ms hm, admits⟩
  not_false r hr exact := by
    obtain ⟨first, second⟩ := List.forall_mem_append.1 exact
    rintro ⟨m, hm, admits⟩
    rw [Scalar.test_or, Ne, Truth.or_eq_false, not_and_or]
    exact (List.mem_append.1 hm).imp (fun hm => he.not_false r hr first ⟨m, hm, admits⟩)
      fun hm => hf.not_false r hr second ⟨m, hm, admits⟩

/-- After a disjunct that says nothing the others need not be read. -/
theorem DescribeDisjuncts.cut (he : DescribeDisjuncts I Γ e ms) (unknown : none ∈ ms) :
    DescribeDisjuncts I Γ (.binary .or e f) ms where
  normal := he.normal
  nonempty := he.nonempty
  of_true _ _ _ known := (known unknown).elim
  not_false _ _ exact := by
    obtain ⟨_, known, -⟩ := exact none unknown
    cases known

/-- A constraint that was read belongs to a member that says something. -/
theorem mem_known {c : Constraint} :
    c ∈ ms.filterMap (·.map (·.constraint)) ↔
      ∃ m ∈ ms, ∃ reading ∈ m, reading.constraint = c := by
  simp

/-- All readings are exact if there is an exact reading of each member. -/
theorem all_exact_iff :
    (ms.all fun part => part.any (·.exact)) = true ↔
      ∀ m ∈ ms, ∃ reading ∈ m, reading.exact = true :=
  List.all_eq_true.trans (forall₂_congr fun m _ => by cases m <;> simp)

/-- The readings of conjuncts make up one of the conjunction. -/
theorem DescribeConjuncts.conjoin (h : DescribeConjuncts I Γ e ms) :
    Describes I Γ e (conjoin ms) := by
  have normal : ∀ c ∈ ms.filterMap (·.map (·.constraint)), c.Normal Γ := fun c hc => by
    obtain ⟨m, hm, reading, known, rfl⟩ := mem_known.1 hc
    exact h.normal m hm reading known
  have made {reading : Reading} (hreading : reading ∈ Reading.conjoin ms) :
      Constraint.conjunction? (ms.filterMap (·.map (·.constraint))) .index =
      some reading.constraint ∧
        reading.exact = ms.all fun part => part.any (·.exact) := by
    obtain ⟨c, hc, rfl⟩ := Option.map_eq_some_iff.1 hreading
    exact ⟨hc, rfl⟩
  have admits (r : Row) (hr : r.HasTypes Γ) {reading : Reading}
    (hreading : reading ∈ Reading.conjoin ms) :
      reading.constraint.admits r = true ↔
        ∀ m ∈ ms, ∀ part ∈ m, part.constraint.admits r = true := by
    have all :
        (Constraint.conjunction? (ms.filterMap (·.map (·.constraint))) .index).all _ = _ :=
      Constraint.admits_conjunction? hr fun c hc => (normal c hc).regular
    rw [(made hreading).1, Option.all_some] at all
    rw [all, List.all_eq_true]
    exact ⟨fun h m hm part known => h _ (mem_known.2 ⟨m, hm, part, known, rfl⟩),
        fun h c hc => by
      obtain ⟨m, hm, part, known, rfl⟩ := mem_known.1 hc
      exact h m hm part known⟩
  refine ⟨fun reading hreading => .conjunction? normal (made hreading).1,
    fun r hr true reading hreading => (admits r hr hreading).2 (h.of_true r hr true),
    fun r hr reading hreading exact all => h.not_false r hr fun m hm => ?_⟩
  obtain ⟨part, known, exact⟩ := all_exact_iff.1 ((made hreading).2 ▸ exact) m hm
  exact ⟨part, known, exact, (admits r hr hreading).1 all m hm part known⟩

/-- The readings of disjuncts make up one of the disjunction. -/
theorem DescribeDisjuncts.disjoin (h : DescribeDisjuncts I Γ e ms) :
    Describes I Γ e (disjoin ms) := by
  have normal : ∀ c ∈ ms.filterMap (·.map (·.constraint)), c.Normal Γ := fun c hc => by
    obtain ⟨m, hm, reading, known, rfl⟩ := mem_known.1 hc
    exact h.normal m hm reading known
  have made {reading : Reading} (hreading : reading ∈ Reading.disjoin ms) :
      none ∉ ms ∧
      Constraint.disjunction? (ms.filterMap (·.map (·.constraint))) .index =
        some reading.constraint ∧ reading.exact = ms.all fun part => part.any (·.exact) := by
    unfold Reading.disjoin at hreading
    split at hreading
    · cases hreading
    · rename_i known
      obtain ⟨c, hc, rfl⟩ := Option.map_eq_some_iff.1 hreading
      exact ⟨fun unknown => known (List.any_eq_true.2 ⟨none, unknown, rfl⟩), hc, rfl⟩
  have admits (r : Row) (hr : r.HasTypes Γ) {reading : Reading}
    (hreading : reading ∈ Reading.disjoin ms) :
      reading.constraint.admits r = true ↔
        ∃ m ∈ ms, ∃ part ∈ m, part.constraint.admits r = true := by
    obtain ⟨known, made, -⟩ := made hreading
    have nonempty : ms.filterMap (·.map (·.constraint)) ≠ [] := by
      obtain ⟨m, rest, rfl⟩ := List.exists_cons_of_ne_nil h.nonempty
      obtain ⟨part, rfl⟩ :=
        Option.ne_none_iff_exists'.1 fun h : m = none => known (by simp [h])
      simp
    have any :
        (Constraint.disjunction? (ms.filterMap (·.map (·.constraint))) .index).all _ = _ :=
      Constraint.admits_disjunction? hr (fun c hc => (normal c hc).regular) nonempty
    rw [made, Option.all_some] at any
    rw [any, List.any_eq_true]
    exact ⟨fun ⟨c, hc, admits⟩ => by
      obtain ⟨m, hm, part, known, rfl⟩ := mem_known.1 hc
      exact ⟨m, hm, part, known, admits⟩,
      fun ⟨m, hm, part, known, admits⟩ => ⟨_, mem_known.2 ⟨m, hm, part, known, rfl⟩, admits⟩⟩
  refine ⟨fun reading hreading => .disjunction? normal (made hreading).2.1,
    fun r hr true reading hreading =>
      (admits r hr hreading).2 (h.of_true r hr true (made hreading).1),
    fun r hr reading hreading exact any => ?_⟩
  exact h.not_false r hr (all_exact_iff.1 ((made hreading).2.2 ▸ exact))
    ((admits r hr hreading).1 any)

/-- An exact reading can be negated: negation exchanges its two halves. -/
theorem Describes.negate (h : Describes I Γ e m) : Describes I Γ e.not (negate m) := by
  unfold Reading.negate
  split
  · rename_i c
    have normal : c.Normal Γ := h.normal _ rfl
    have other (r : Row) (hr : r.HasTypes Γ) : c.negate.admits r = !c.admits r :=
      Constraint.admits_negate hr normal.regular
    refine ⟨?_, fun r hr => ?_, fun r hr => ?_⟩
    · rintro _ ⟨⟩
      exact normal.negate
    · rw [Scalar.test_not, Truth.not_eq_some]
      rintro false _ ⟨⟩
      rw [other r hr, Bool.not_eq_true']
      exact Bool.eq_false_iff.2 fun admits => h.not_false r hr _ rfl rfl admits false
    · rintro _ ⟨⟩ - admits
      rw [other r hr, Bool.not_eq_true'] at admits
      rw [Scalar.test_not, Ne, Truth.not_eq_some]
      exact fun true => Bool.eq_false_iff.1 admits (h.of_true r hr true _ rfl)
  · exact .nothing _

end Chains

/-! ### Predicates -/

/-- What a comparison of a column with a literal tells. -/
theorem describes_of_ofComparison (truthful : catalog.Truthful I) {c : Column} {op : BinaryOp}
    {v : Datum} {e : Scalar} (hv : v.isNull = false → v.HasType (Γ c.id))
    (means : ∀ r : Row, r.HasTypes Γ → e.test I r = (I.apply op (r c.id) v.value).truth)
    {m : Option Reading} (read : ofComparison catalog c op v = .ok m) : Describes I Γ e m := by
  unfold ofComparison at read
  obtain ⟨known, -, read⟩ := OptResult.bind_eq_ok.1 read
  cases known with
  | false =>
    obtain rfl := OptResult.pure_eq_ok.1 read
    exact .nothing e
  | true =>
    obtain ⟨props?, asked, read⟩ := OptResult.bind_eq_ok.1 read
    cases props? with
    | none =>
      obtain rfl := OptResult.pure_eq_ok.1 read
      exact .nothing e
    | some props =>
      simp only at read
      split at read
      · obtain rfl := OptResult.pure_eq_ok.1 read
        exact .nothing e
      · rename_i strict
        obtain rfl := OptResult.pure_eq_ok.1 read
        have decides : op.Decides I := fun order x y null => by
          refine truthful op props ?_ order ?_ x y null
          · exact CatalogAnswer.eq_ok_of_exists? asked
          · cases op <;> cases order <;> simpa using strict
        cases made : Interval.ofComparison? c op v with
        | none => exact .nothing e
        | some i =>
          have spec (r : Row) (hr : r.HasTypes Γ) :=
            Interval.ofComparison?_spec made decides (hr c.id) hv
          obtain ⟨regular, rfl, -⟩ := spec (fun _ => none) fun _ d hd => by cases hd
          exact .ofInterval regular fun r hr => means r hr ▸ (spec r hr).2.2

/-- Whether readings are about a predicate as a member of a chain. -/
def DescribeMembers (I : Interpretation) (Γ : Nat → DataType) (e : Scalar)
    (members : List (Option Reading)) : Option BinaryOp → Prop
  | some .and => DescribeConjuncts I Γ e members
  | some .or => DescribeDisjuncts I Γ e members
  | _ => ∃ m, members = [m] ∧ Describes I Γ e m

/-- A reading of a predicate describes it as the only member of any chain. -/
theorem Describes.members {e : Scalar} {m : Option Reading} (h : Describes I Γ e m)
    (chain : Option BinaryOp) : DescribeMembers I Γ e [m] chain := by
  unfold DescribeMembers
  split
  · exact h.conjunct
  · exact h.disjunct
  · exact ⟨m, rfl, h⟩

/-- A comparison of a column with a literal as it is read, with the column on the left. -/
theorem test_of_asComparison? (mirrored : I.Mirrored) {e : Scalar} {c : Column} {op : BinaryOp}
    {v : Datum} (shape : e.asComparison? = some (c, op, v))
    (hv : v.isNull = false → v.HasType (Γ c.id)) (r : Row) (hr : r.HasTypes Γ) :
    e.test I r = (I.apply op (r c.id) v.value).truth := by
  have literal : v.value.HasType (Γ c.id) := by
    unfold Datum.value
    split
    · simp [Value.HasType]
    · rename_i value
      simpa [Value.HasType] using hv (Bool.eq_false_iff.2 value)
  unfold Scalar.asComparison? at shape
  split at shape
  · obtain ⟨rfl, rfl, rfl⟩ := by simpa using shape
    rfl
  · obtain ⟨turned, swapped, same⟩ := Option.map_eq_some_iff.1 shape
    obtain ⟨rfl, rfl, rfl⟩ := by simpa using same
    exact congrArg Value.truth (Interpretation.apply_swap mirrored swapped literal (hr _))
  · cases shape

/-- What is read off a predicate as a member of a chain is about the predicate. The induction
follows the chains: conjuncts of a conjunction are collected in a chain of conjunctions and
combined outside of it, and likewise for disjunctions. -/
theorem describeMembers_of_parts (truthful : catalog.Truthful I) (mirrored : I.Mirrored)
    {e : Scalar} (comparable : e.Comparable Γ) {chain : Option BinaryOp}
    {members : List (Option Reading)} (read : parts catalog chain e = .ok members) :
    DescribeMembers I Γ e members chain := by
  fun_induction parts catalog chain e generalizing members with
  | case1 chain l r hl hr =>
    obtain ⟨left, readLeft, read⟩ := OptResult.bind_eq_ok.1 read
    obtain ⟨right, readRight, read⟩ := OptResult.bind_eq_ok.1 read
    obtain rfl := OptResult.pure_eq_ok.1 read
    obtain ⟨comparableLeft, comparableRight⟩ := by simpa [Scalar.Comparable] using comparable
    have both := (hl comparableLeft readLeft).append (hr comparableRight readRight)
    split
    · rename_i inside
      obtain rfl := eq_of_beq inside
      exact both
    · exact both.conjoin.members chain
  | case2 chain l r hl hr =>
    obtain ⟨first, readLeft, read⟩ := OptResult.bind_eq_ok.1 read
    obtain ⟨comparableLeft, comparableRight⟩ := by simpa [Scalar.Comparable] using comparable
    have left := hl comparableLeft readLeft
    obtain ⟨members, both, rfl⟩ : ∃ ms, DescribeDisjuncts I Γ (.binary .or l r) ms ∧
        (if chain == some .or then ms else [disjoin ms]) = members := by
      by_cases unknown : first.any (·.isNone) = true
      · rw [if_pos unknown] at read
        obtain ⟨_, hm, empty⟩ := List.any_eq_true.1 unknown
        obtain rfl := Option.isNone_iff_eq_none.1 empty
        exact ⟨_, left.cut hm, OptResult.pure_eq_ok.1 read⟩
      · rw [if_neg unknown] at read
        obtain ⟨right, readRight, read⟩ := OptResult.bind_eq_ok.1 read
        exact ⟨_, left.append (hr comparableRight readRight), OptResult.pure_eq_ok.1 read⟩
    split
    · rename_i inside
      obtain rfl := eq_of_beq inside
      exact both
    · exact both.disjoin.members chain
  | case3 chain e ih =>
    obtain ⟨parts, readPart, read⟩ := OptResult.bind_eq_ok.1 read
    obtain rfl := OptResult.pure_eq_ok.1 read
    obtain ⟨m, rfl, h⟩ := ih (by simpa [Scalar.Comparable] using comparable) readPart
    exact h.negate.members chain
  | case4 chain e =>
    obtain rfl := OptResult.pure_eq_ok.1 read
    refine Describes.members ?_ chain
    cases e with
    | column c =>
      obtain ⟨regular, null, value⟩ :=
        Interval.ofRanges_spec c true
          (show ∀ r ∈ ([] : List Range), r.HasType (Γ c.id) by simp)
      refine .ofInterval regular fun r hr => ?_
      have hr := hr c.id
      show (Interval.nullOnly c).admits (r c.id) = true ↔ _
      rw [show (Scalar.isNull (.column c)).test I r = some (r c.id).isNone from
        Value.truth_ofTruth _]
      cases hx : r c.id with
      | none => simp [Interval.nullOnly, null]
      | some d => simp [Interval.nullOnly, value d (hr d hx), Range.admitted]
    | _ => exact .nothing _
  | case5 chain op' l r notAnd notOr c op v shape =>
    obtain ⟨m, readPart, read⟩ := OptResult.bind_eq_ok.1 read
    obtain rfl := OptResult.pure_eq_ok.1 read
    have hv : v.isNull = false → v.HasType (Γ c.id) := by
      unfold Scalar.Comparable at comparable
      split at comparable
      · exact (notAnd (by simp_all)).elim
      · exact (notOr (by simp_all)).elim
      · simp_all
      · exact comparable c op v shape
    exact (describes_of_ofComparison truthful hv (test_of_asComparison? mirrored shape hv)
      readPart).members chain
  | case6 chain op l r notAnd notOr shape =>
    obtain rfl := OptResult.pure_eq_ok.1 read
    exact (Describes.nothing _).members chain
  | case7 e chain =>
    obtain rfl := OptResult.pure_eq_ok.1 read
    exact (Describes.nothing _).members chain

/-- The reading of a predicate is about the predicate. -/
theorem describes_of_ofPredicate (truthful : catalog.Truthful I) (mirrored : I.Mirrored)
    {e : Scalar} (comparable : e.Comparable Γ) {m : Option Reading}
    (read : ofPredicate catalog e = .ok m) : Describes I Γ e m := by
  obtain ⟨members, readParts, read⟩ := OptResult.bind_eq_ok.1 read
  obtain rfl := OptResult.pure_eq_ok.1 read
  obtain ⟨m, rfl, h⟩ := describeMembers_of_parts truthful mirrored comparable readParts
  simpa using h

end Reading

/-! ### Readings that cannot fail -/

section Answers

variable {excused : OptError → Prop}

/-- A catalog that answers does so unless it is excused. -/
theorem Catalog.Answers.unless (answers : catalog.Answers) :
    catalog.AnswersUnless excused where
  comparison op s t := by
    obtain ⟨known, hknown⟩ := answers.comparison op s t
    exact hknown ▸ .pure known
  scalarOp op := by
    obtain ⟨props, hprops⟩ := answers.scalarOp op
    exact hprops ▸ .pure props

variable (answers : catalog.AnswersUnless excused)
include answers

/-- Reading a comparison does not fail unless the catalog does. -/
theorem Reading.ofComparison_succeedsUnless (c : Column) (op : BinaryOp) (v : Datum) :
    (ofComparison catalog c op v).SucceedsUnless excused := by
  refine (answers.comparison op c.type v.type).bind fun known _ => ?_
  split
  · exact .pure none
  · refine (answers.scalarOp op).bind fun props _ => ?_
    split
    · exact .pure none
    · split <;> exact .pure _

/-- Reading the members of a chain does not fail unless the catalog does. -/
theorem Reading.parts_succeedsUnless (chain : Option BinaryOp) (e : Scalar) :
    (parts catalog chain e).SucceedsUnless excused := by
  fun_induction parts catalog chain e with
  | case1 chain l r hl hr => exact hl.bind fun _ _ => hr.bind fun _ _ => .pure _
  | case2 chain l r hl hr =>
    refine hl.bind fun left _ => ?_
    dsimp only
    split
    · exact .pure _
    · exact hr.bind fun _ _ => .pure _
  | case3 chain e he => exact he.bind fun _ _ => .pure _
  | case4 | case6 | case7 => exact .pure _
  | case5 chain op l r x y c op' v =>
    exact (ofComparison_succeedsUnless answers c _ v).bind fun _ _ => .pure _

/-- Reading a predicate does not fail unless the catalog does. -/
theorem Reading.ofPredicate_succeedsUnless (e : Scalar) :
    (ofPredicate catalog e).SucceedsUnless excused :=
  .bind (parts_succeedsUnless answers none e) fun _ _ => .pure _

/-- Reading a constraint off a predicate does not fail unless the catalog does. -/
theorem Constraint.ofPredicate_succeedsUnless (e : Scalar) :
    (ofPredicate catalog e).SucceedsUnless excused :=
  .bind (Reading.ofPredicate_succeedsUnless answers e) fun _ _ => .pure _

end Answers

namespace Constraint

/-- The constraint of a predicate is that of its reading. -/
theorem ofPredicate_eq_ok {e : Scalar} {c : Option Constraint} :
    ofPredicate catalog e = .ok c ↔
      ∃ m, Reading.ofPredicate catalog e = .ok m ∧ m.map (·.constraint) = c := by
  simp [ofPredicate]

/-- A predicate can be read if the catalog answers. A row satisfies the constraint of each
predicate that is true in it, and an exact constraint is satisfied by no row in which the
predicate is false. -/
theorem ofPredicate_sound (truthful : catalog.Truthful I) (mirrored : I.Mirrored) {e : Scalar}
    (comparable : e.Comparable Γ) :
    (catalog.Answers → ∃ m, Reading.ofPredicate catalog e = .ok m) ∧
    ∀ m, Reading.ofPredicate catalog e = .ok m →
      ofPredicate catalog e = .ok (m.map (·.constraint)) ∧
      ∀ r : Row, r.HasTypes Γ →
        (e.test I r = some true → (m.map (·.constraint)).all (admits r) = true) ∧
        ∀ reading ∈ m, reading.exact = true → reading.constraint.admits r = true →
          e.test I r ≠ some false := by
  refine ⟨fun answers => (Reading.ofPredicate_succeedsUnless answers.unless e).succeeds,
    fun m read => ?_⟩
  have describes := Reading.describes_of_ofPredicate truthful mirrored comparable read
  refine ⟨ofPredicate_eq_ok.2 ⟨m, read, rfl⟩, fun r hr =>
    ⟨fun true => ?_, describes.not_false r hr⟩⟩
  cases m with
  | none => rfl
  | some reading => exact describes.of_true r hr true reading rfl

end Constraint

/-! ### An example -/

namespace Sample

def amount : Column := ⟨0, .integer .int64, -1, "amount", .computed⟩

/-- All comparisons are known and yield null on null input. -/
def comparing : Catalog Nat :=
  { (Catalog.failing (.notFound .table "orders") : Catalog Nat) with
    comparison := fun _ _ _ => .ok .boolean
    scalarOp := fun _ => .ok ⟨true, true⟩ }

/-- The amount is not both below five and other than three. -/
def predicate : Scalar :=
  .not (.binary .and (.binary .gt (.literal (.integer .int64 5)) (.column amount))
    (.binary .notEq (.column amount) (.literal (.integer .int64 3))))

/-- Three, five and more, or null. -/
def accepted : Interval :=
  ⟨amount, [.point (.integer .int64 3), .above (.integer .int64 5) true], true⟩

end Sample

open Sample in
/-- A predicate that is unknown for nulls reads as one interval, which admits
the rows that pass it. -/
theorem ofPredicate_sound_sample : (predicate.test .strict fun _ => none) = none ∧
    (∃ m, Reading.ofPredicate comparing predicate = .ok m) ∧
    Reading.ofPredicate comparing predicate = .ok (some ⟨.interval accepted, true⟩) ∧
    ∀ r : Row, (r.HasTypes fun _ => .integer .int64) → predicate.test .strict r = some true →
      (Constraint.interval accepted).admits r = true := by
  have answers : comparing.Answers := ⟨fun _ _ _ => ⟨_, rfl⟩, fun _ => ⟨_, rfl⟩⟩
  have read :
    Reading.ofPredicate comparing predicate = .ok (some ⟨.interval accepted, true⟩) := rfl
  have comparable : predicate.Comparable fun _ => .integer .int64 := by
    simp only [predicate, Scalar.Comparable]
    constructor <;> rintro c op v ⟨⟩ - <;> rfl
  obtain ⟨succeeds, sound⟩ := Constraint.ofPredicate_sound (I := .strict)
    (fun _ _ _ _ _ _ _ _ => rfl) (fun _ _ _ _ _ _ => rfl) comparable
  exact ⟨rfl, succeeds answers, read, fun r hr => ((sound _ read).2 r hr).1⟩

end QueryOptimizer
