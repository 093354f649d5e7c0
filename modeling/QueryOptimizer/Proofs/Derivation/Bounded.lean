import QueryOptimizer.Proofs.Derivation.Constrained
import QueryOptimizer.Proofs.Derivation.Emptiness

/-!
# Row counts of operators

An operator has at most as many rows as its derived bound says, and none if its statistics
are marked empty, when the same is true of its inputs. A stored table has at most as many
rows as its statistics say.

## Main results

* `LogicalOperator.bounded_of_derive`: the bound and the emptiness of every operator.
-/

namespace QueryOptimizer

variable {K : Type} [Quantity K] {Γ : Nat → DataType} {D : Domains}
  {I : Interpretation} {db : Database}

/-! ### Tuples that are the same -/

/-- Tuples over columns of the same types are equal when they are the same. -/
theorem Tuple.eq_of_same (le : D ≤ .ofTypes Γ) {cols : List Column} {t u : Tuple}
    (ht : Tuple.Within D cols t) (hu : Tuple.Within D cols u) (length : t.length = cols.length)
    (same : t.same u = true) : t = u := by
  induction cols generalizing t u with
  | nil =>
    obtain rfl := List.length_eq_zero_iff.1 length
    obtain ⟨lengths, -⟩ := Bool.and_eq_true_iff.1 same
    exact (List.length_eq_zero_iff.1 (beq_iff_eq.1 lengths).symm).symm
  | cons c cs ih =>
    obtain ⟨v, vs, rfl⟩ := List.exists_cons_of_length_eq_add_one length
    obtain ⟨lengths, values⟩ := Bool.and_eq_true_iff.1 same
    obtain ⟨w, ws, rfl⟩ :=
      List.exists_cons_of_length_eq_add_one ((beq_iff_eq.1 lengths).symm.trans length)
    simp only [List.zipWith_cons_cons, List.all_cons, id_eq, Bool.and_eq_true] at values
    obtain ⟨firstT, restT⟩ := List.forall_mem_cons.1 ht
    obtain ⟨firstU, restU⟩ := List.forall_mem_cons.1 hu
    have tails : Tuple.same vs ws = true := by simpa [Tuple.same, values.2] using lengths
    have heads : v = w := by
      cases v with
      | none => cases w <;> first | rfl | cases values.1
      | some a =>
        cases w with
        | none => cases values.1
        | some b =>
          have ha : a.IsValue (Γ c.id) := le c.id (firstT a rfl)
          have hb : b.IsValue (Γ c.id) := le c.id (firstU b rfl)
          exact congrArg some (Datum.eq_of_compare_eq ha hb (beq_iff_eq.1 values.1))
    rw [heads, ih restT restU (by simpa using length) tails]

/-! ### What is derived -/

/-- Whether a relation has at most as many rows as its bound says, and none if its
statistics are empty. -/
structure Relation.Bounded (D : Domains) (r : Relation K) (m : Meaning) : Prop where
  rows : ∀ env : Row, env.Within D → ∀ bag ∈ m.results env, r.property.rowBound.Bounds bag.card
  empty : r.statistics.isEmpty = true → ∀ env : Row, env.Within D →
    ∀ bag ∈ m.results env, bag = 0
  /-- Without rows by its bound, a relation has empty statistics. -/
  zero : r.property.rowBound.isZero = true → r.statistics.isEmpty = true

/-- Whether what is known of the rows of a shared result is right. -/
structure CteInfo.Bounded (db : Database) (D : Domains) (id : Nat) (info : CteInfo K) :
    Prop where
  rows : ∀ env : Row, env.Within D → info.property.rowBound.Bounds (db.shared id env).card
  empty : info.statistics.isEmpty = true → ∀ env : Row, env.Within D → db.shared id env = 0

namespace LogicalOperator

/-- Whether stored tables have at most as many rows as their statistics say. -/
def RespectsCounts (db : Database) (catalog : Catalog K) : LogicalOperator → Prop
  | get s => ∀ stats, catalog.tableStats s.table.id = .ok stats →
      (db.table s.table.id).card ≤ Quantity.ceilCount stats.rows
  | dynamicGet s => ∀ stats, catalog.tableStats s.table.id = .ok stats →
      (db.table s.table.id).card ≤ Quantity.ceilCount stats.rows
  | _ => True

variable {op : LogicalOperator} {rels : Inputs K} {ms : List Meaning} {l r m : Meaning}
  {env : Environment K} {ctes : CteTable K}

/-! ### Bounds -/

/-- The bound of a stored table holds if its statistics do not count too few rows. -/
theorem rowBound_of_table {t : Table} {rows : Multiset Tuple} {catalog : Catalog K}
    {c : RowBound} (counted : ∀ stats, catalog.tableStats t.id = .ok stats →
      rows.card ≤ Quantity.ceilCount stats.rows) (made : t.rowBound catalog = .ok c) :
    c.Bounds rows.card := by
  obtain ⟨answer, asked, made⟩ := OptResult.bind_eq_ok.1 made
  cases answer with
  | none =>
    obtain rfl := Except.ok.inj made
    exact .unbounded _
  | some stats =>
    obtain rfl := Except.ok.inj made
    exact .atMost (counted stats (CatalogAnswer.eq_ok_of_exists? asked))

/-- There are at most as many groups as rows, and one group if there are no keys. -/
theorem card_keyTuples_le (g : Grouping) (rows : Bag) :
    (g.keyTuples rows).card ≤ if g.keys.isEmpty then 1 else rows.card := by
  unfold Grouping.keyTuples
  split
  · exact le_rfl
  · exact (Multiset.card_le_card (Multiset.dedup_le _)).trans_eq (Multiset.card_map _ _)

/-- Tuples of the inputs of a set operation that are the same are equal. -/
theorem eq_of_same_of_mem_tuples (le : D ≤ .ofTypes Γ) {s : SetOperation}
    (fits : (setOp s).Fits Meaning.toScope ms) (stays : (setOp s).StaysWithin I db D)
    (inputs : ∀ m ∈ ms, m.Within D) {row : Row} (hrow : row.Within D) {bags : List Bag}
    (results : List.Forall₂ (fun m b => b ∈ m.results row) ms bags) :
    ∀ a ∈ List.zipWith Bag.tuples bags s.inputs, ∀ b ∈ List.zipWith Bag.tuples bags s.inputs,
      ∀ t ∈ a, ∀ u ∈ b, t.same u = true → t = u := by
  have known {a : Multiset Tuple} (ha : a ∈ List.zipWith Bag.tuples bags s.inputs) {t : Tuple}
      (ht : t ∈ a) : Tuple.Within D s.output t ∧ t.length = s.output.length := by
    rw [← List.map_uncurry_zip_eq_zipWith] at ha
    obtain ⟨⟨b, cols⟩, pair, rfl⟩ := List.mem_map.1 ha
    obtain ⟨hb, hcols⟩ := List.of_mem_zip pair
    obtain ⟨r, hr, rfl⟩ := Multiset.mem_map.1 ht
    obtain ⟨m, hm, result⟩ := exists_of_mem_right results hb
    exact ⟨(inputs m hm row hrow b result r hr).tuple_renamed (stays cols hcols),
      fits.length_tuple hcols r⟩
  intro a ha b hb t ht u hu same
  obtain ⟨withinT, length⟩ := known ha ht
  exact Tuple.eq_of_same le withinT (known hb hu).1 length same

omit [Quantity K] in
/-- The tuples of a set operation are within its bound, when the rows of its
inputs are within theirs. -/
theorem setOp_rowBound_spec (le : D ≤ .ofTypes Γ) {s : SetOperation}
    (fits : (setOp s).Fits Meaning.toScope ms) (stays : (setOp s).StaysWithin I db D)
    (inputs : ∀ m ∈ ms, m.Within D) (h : List.Forall₂ (Relation.Bounded D) rels ms)
    {c : RowBound} (made : s.rowBound rels = .ok c) {row : Row} (hrow : row.Within D)
    {bags : List Bag} (results : List.Forall₂ (fun m b => b ∈ m.results row) ms bags) :
    c.Bounds (s.kind.tuples (List.zipWith Bag.tuples bags s.inputs)).card := by
  have lengths : rels.length = (List.zipWith Bag.tuples bags s.inputs).length :=
    h.length_eq.trans (fits.length_tuples results).symm
  have counts : List.Forall₂ (fun r t => r.property.rowBound.Bounds t.card) rels
      (List.zipWith Bag.tuples bags s.inputs) := by
    refine List.forall₂_iff_get.2 ⟨lengths, fun i hi hi' => ?_⟩
    have inside : i < ms.length := h.length_eq ▸ hi
    have inside' : i < bags.length := results.length_eq ▸ inside
    rw [List.get_eq_getElem, List.get_eq_getElem, List.getElem_zipWith, Bag.tuples,
      Multiset.card_map]
    exact (h.get hi inside).rows row hrow _ (results.get inside inside')
  have someRel : rels ≠ [] := by
    cases fits with
    | setOp someColumn distinct someInput apart aligned fresh =>
      exact List.length_pos_iff.1 (h.length_eq ▸ List.length_pos_iff.2 someInput)
  exact SetOperation.rowBound_spec made someRel counts fun _ =>
    eq_of_same_of_mem_tuples le fits stays inputs hrow results

/-- The rows of an operator are within its bound, when those of its inputs are
within theirs. -/
theorem rowBound_spec (le : D ≤ .ofTypes Γ) (fits : op.Fits Meaning.toScope ms)
    (stays : op.StaysWithin I db D) (counted : op.RespectsCounts db env.catalog)
    (inputs : ∀ m ∈ ms, m.Within D) (h : List.Forall₂ (Relation.Bounded D) rels ms)
    (shared : ∀ entry ∈ ctes, CteInfo.Bounded db D entry.1 entry.2) {c : RowBound}
    (made : op.rowBound env ctes rels = .ok c) :
    ∀ row : Row, row.Within D → ∀ bag ∈ (op.meaning I db ms).results row,
      c.Bounds bag.card := by
  intro row hrow bag hbag
  cases fits with
  | get | dynamicGet =>
    obtain rfl := hbag
    rw [Multiset.card_map]
    exact rowBound_of_table counted made
  | @values v =>
    obtain rfl := Except.ok.inj made
    obtain rfl := hbag
    exact .atMost (by simp)
  | @select p m =>
    obtain ⟨a, rfl, ha⟩ := Inputs.of_single h
    obtain ⟨b, hb, rfl⟩ := hbag
    simp only [LogicalOperator.rowBound] at made
    split at made
    · rename_i false
      obtain rfl := Except.ok.inj made
      refine .atMost
        (Nat.le_zero.2 (Multiset.card_eq_zero.2 (Multiset.filter_eq_nil.2 fun x _ => ?_)))
      rw [Scalar.test_of_isFalse I false]
      simp
    · obtain rfl := Except.ok.inj made
      exact (ha.rows row hrow b hb).mono (Multiset.card_le_card (Multiset.filter_le _ _))
  | @project ds m =>
    obtain ⟨a, rfl, ha⟩ := Inputs.of_single h
    obtain rfl := Except.ok.inj made
    obtain ⟨b, hb, rfl⟩ := hbag
    rw [Multiset.card_map]
    exact ha.rows row hrow b hb
  | @groupBy g m =>
    obtain ⟨a, rfl, ha⟩ := Inputs.of_single h
    obtain ⟨b, hb, rfl⟩ := hbag
    rw [Grouping.rows, Multiset.card_map]
    have le := card_keyTuples_le g b
    simp only [LogicalOperator.rowBound] at made
    split at made
    · rename_i none
      obtain rfl := Except.ok.inj made
      rw [if_pos none] at le
      exact .atMost le
    · rename_i some
      obtain rfl := Except.ok.inj made
      rw [if_neg some] at le
      exact (ha.rows row hrow b hb).mono le
  | @limit l m =>
    obtain ⟨a, rfl, ha⟩ := Inputs.of_single h
    obtain rfl := Except.ok.inj made
    obtain ⟨b, hb, kept⟩ := hbag
    refine .min ((ha.rows row hrow b hb).mono (Multiset.card_le_card kept.kept_le)) ?_
    cases count : l.count with
    | none => exact .unbounded _
    | some n => exact .atMost (kept.card_le n count)
  | @join j l r =>
    obtain ⟨a, b, rfl, ha, hb⟩ := Inputs.of_pair h
    obtain ⟨matched, hls, hrs, rfl⟩ := exists_matched_of_mem_results hbag
    simp only [LogicalOperator.rowBound] at made
    split at made
    · rename_i never
      obtain ⟨inner, false⟩ := Bool.and_eq_true_iff.1 never
      obtain rfl := Except.ok.inj made
      refine .atMost
        (Nat.le_zero.2
          (Multiset.card_eq_zero.2 (Multiset.eq_zero_of_forall_notMem fun z hz => ?_)))
      obtain ⟨x, -, hz⟩ := Multiset.mem_bind.1 hz
      rw [eq_of_beq inner] at hz
      have true : j.predicate.test I z = some true := (Multiset.mem_filter.1 hz).2
      rw [Scalar.test_of_isFalse I false] at true
      cases true
    · refine JoinType.rowBound_spec made ?_ fun x hx => hb.rows row hrow x.2 (hrs x hx)
      rw [← Multiset.card_map Prod.fst]
      exact ha.rows row hrow _ hls
  | @apply a l r =>
    obtain ⟨left, right, rfl, hl, hr⟩ := Inputs.of_pair h
    obtain ⟨matched, hls, hrs, rfl⟩ := hbag
    refine JoinType.rowBound_spec made ?_ fun x hx => hr.rows _ ?_ x.2 (hrs x hx)
    · rw [← Multiset.card_map Prod.fst]
      exact hl.rows row hrow _ hls
    · have leftRow : x.1.Within D :=
        inputs l (by simp) row hrow _ hls x.1 (Multiset.mem_map_of_mem Prod.fst hx)
      exact hrow.assign (leftRow.tuple a.outer)
  | @setOp s ms someColumn distinct someInput apart aligned fresh =>
    have fits : (setOp s).Fits Meaning.toScope ms :=
      .setOp someColumn distinct someInput apart aligned fresh
    obtain ⟨bags, hbags, rfl⟩ := hbag
    rw [Multiset.card_map]
    exact setOp_rowBound_spec le fits stays inputs h made hrow hbags
  | @cteAnchor id producer body =>
    obtain ⟨a, b, rfl, -, hb⟩ := Inputs.of_pair h
    obtain rfl := Except.ok.inj made
    exact hb.rows row hrow bag hbag
  | @cteProducer c m =>
    obtain ⟨a, rfl, ha⟩ := Inputs.of_single h
    obtain rfl := Except.ok.inj made
    obtain ⟨b, hb, rfl⟩ := hbag
    rw [Multiset.card_map]
    exact ha.rows row hrow b hb
  | @cteConsumer c =>
    obtain rfl := Except.ok.inj made
    obtain rfl := hbag
    rw [Multiset.card_map]
    cases found : ctes.find? c.id with
    | none => exact .unbounded _
    | some info => exact (shared _ (CteTable.mem_of_find? found)).rows row hrow

/-! ### Emptiness -/

/-- A set operation whose statistics are marked empty has no rows. -/
theorem setOp_estimate_spec {s : SetOperation} (fits : (setOp s).Fits Meaning.toScope ms)
    (h : List.Forall₂ (Relation.Bounded D) rels ms) {t : Statistics K}
    (made : s.statistics env.config rels = .ok t) (empty : t.isEmpty = true) {row : Row}
    (hrow : row.Within D) {bags : List Bag}
    (results : List.Forall₂ (fun m b => b ∈ m.results row) ms bags) :
    s.kind.tuples (List.zipWith Bag.tuples bags s.inputs) = 0 := by
  obtain ⟨lengths, nonempty⟩ : rels.length = s.inputs.length ∧ 0 < ms.length := by
    cases fits with
    | setOp someColumn distinct someInput apart aligned fresh =>
      exact ⟨h.length_eq.trans aligned.length_eq.symm, List.length_pos_iff.2 someInput⟩
  refine Multiset.eq_zero_of_forall_notMem fun u hu => ?_
  refine SetOperation.statistics_spec lengths made empty
    (h.length_eq ▸ (fits.among_of_mem_tuples results hu).imp nonempty
      fun i hi comes r found => ?_)
  -- An input with a tuple has a row, so its estimates are not empty.
  obtain ⟨m, hm, -, -, bag, hbag, x, hx, -⟩ := comes
  obtain ⟨_, rfl⟩ := List.getElem?_eq_some_iff.1 hm
  obtain ⟨inside, rfl⟩ := List.getElem?_eq_some_iff.1 found
  refine Bool.eq_false_iff.2 fun none => ?_
  rw [(h.get inside hi).empty none row hrow bag hbag] at hx
  cases Multiset.notMem_zero x hx

/-- There are no rows where the estimates are empty, when this is true of the inputs. -/
theorem estimate_spec (truthful : env.catalog.Truthful I) (mirrored : I.Mirrored)
    (le : D ≤ .ofTypes Γ) (fits : op.Fits Meaning.toScope ms) (typed : op.WellTyped Γ)
    (inputs : ∀ m ∈ ms, m.Within D) (h : List.Forall₂ (Relation.Bounded D) rels ms)
    (shared : ∀ entry ∈ ctes, CteInfo.Bounded db D entry.1 entry.2) {t : Statistics K}
    (made : op.estimate env ctes rels = .ok t) (empty : t.isEmpty = true) :
    ∀ row : Row, row.Within D → ∀ bag ∈ (op.meaning I db ms).results row, bag = 0 := by
  intro row hrow bag hbag
  cases fits with
  | get | dynamicGet =>
    rw [Statistics.isEmpty_ofTable made] at empty
    cases empty
  | @values v =>
    obtain rfl := Except.ok.inj made
    rw [Statistics.isEmpty_ofRows, List.isEmpty_iff] at empty
    obtain rfl := hbag
    rw [empty]
    rfl
  | @select p m =>
    obtain ⟨a, rfl, ha⟩ := Inputs.of_single h
    obtain ⟨b, hb, rfl⟩ := hbag
    rcases Statistics.filter_spec made empty with none | false | ⟨known, read, contradiction⟩
    · rw [ha.empty none row hrow b hb]
      exact Multiset.filter_zero _
    · refine Multiset.filter_eq_nil.2 fun x _ => ?_
      rw [Scalar.test_of_isFalse I false]
      simp
    · obtain ⟨-, holds⟩ := ConstraintProperty.ofPredicate_spec truthful mirrored typed read
      refine Multiset.filter_eq_nil.2 fun x hx true => ?_
      have known := holds x ((inputs m (by simp) row hrow b hb x hx).hasTypes le) true
      rw [known.not_isContradiction] at contradiction
      cases contradiction
  | @project ds m =>
    obtain ⟨a, rfl, ha⟩ := Inputs.of_single h
    obtain rfl := Except.ok.inj made
    rw [Statistics.isEmpty_project] at empty
    obtain ⟨b, hb, rfl⟩ := hbag
    rw [ha.empty empty row hrow b hb]
    exact Multiset.map_zero _
  | @groupBy g m =>
    obtain ⟨a, rfl, ha⟩ := Inputs.of_single h
    obtain rfl := Except.ok.inj made
    rw [Statistics.isEmpty_groupBy, Bool.and_eq_true, Bool.not_eq_true'] at empty
    obtain ⟨b, hb, rfl⟩ := hbag
    rw [ha.empty empty.1 row hrow b hb, Grouping.rows, Grouping.keyTuples, empty.2]
    rfl
  | @limit l m =>
    obtain ⟨a, rfl, ha⟩ := Inputs.of_single h
    obtain rfl := Except.ok.inj made
    obtain ⟨b, hb, kept⟩ := hbag
    exact Multiset.le_zero.1 (ha.empty empty row hrow b hb ▸ kept.kept_le)
  | @join j l r =>
    obtain ⟨a, b, rfl, ha, hb⟩ := Inputs.of_pair h
    obtain ⟨matched, hls, hrs, rfl⟩ := exists_matched_of_mem_results hbag
    refine JoinType.statistics_spec made empty (fun none => ?_)
      (fun none x hx => ?_) r.output _
    · exact Multiset.map_eq_zero.1 (ha.empty none row hrow _ hls)
    · exact hb.empty none row hrow x.2 (hrs x hx)
  | @apply a l r =>
    obtain ⟨left, right, rfl, hl, hr⟩ := Inputs.of_pair h
    obtain ⟨matched, hls, hrs, rfl⟩ := hbag
    refine JoinType.statistics_spec made empty (fun none => ?_)
      (fun none x hx => ?_) r.output _
    · exact Multiset.map_eq_zero.1 (hl.empty none row hrow _ hls)
    · have leftRow : x.1.Within D :=
        inputs l (by simp) row hrow _ hls x.1 (Multiset.mem_map_of_mem Prod.fst hx)
      exact hr.empty none _ (hrow.assign (leftRow.tuple a.outer)) x.2 (hrs x hx)
  | @setOp s ms someColumn distinct someInput apart aligned fresh =>
    have fits : (setOp s).Fits Meaning.toScope ms :=
      .setOp someColumn distinct someInput apart aligned fresh
    obtain ⟨bags, hbags, rfl⟩ := hbag
    exact Multiset.map_eq_zero.2 (setOp_estimate_spec fits h made empty hrow hbags)
  | @cteAnchor id producer body =>
    obtain ⟨a, b, rfl, -, hb⟩ := Inputs.of_pair h
    obtain rfl := Except.ok.inj made
    exact hb.empty empty row hrow bag hbag
  | @cteProducer c m =>
    obtain ⟨a, rfl, ha⟩ := Inputs.of_single h
    obtain rfl := Except.ok.inj made
    obtain ⟨b, hb, rfl⟩ := hbag
    rw [ha.empty empty row hrow b hb]
    exact Multiset.map_zero _
  | @cteConsumer c =>
    simp only [LogicalOperator.estimate] at made
    split at made
    · rename_i info found
      obtain rfl := Except.ok.inj made
      obtain rfl := hbag
      have known : CteInfo.Bounded db D c.id info := shared _ (CteTable.mem_of_find? found)
      rw [known.empty empty row hrow]
      exact Multiset.map_zero _
    · cases made

/-! ### Operators -/

/-- What is derived about the number of rows of an operator is right, when what is derived
about its inputs is. -/
theorem bounded_of_derive (truthful : env.catalog.Truthful I) (mirrored : I.Mirrored)
    (le : D ≤ .ofTypes Γ) (fits : op.Fits Meaning.toScope ms) (stays : op.StaysWithin I db D)
    (typed : op.WellTyped Γ) (counted : op.RespectsCounts db env.catalog)
    (inputs : ∀ m ∈ ms, m.Within D) (h : List.Forall₂ (Relation.Bounded D) rels ms)
    (shared : ∀ entry ∈ ctes, CteInfo.Bounded db D entry.1 entry.2) {r : Relation K}
    (derived : op.Derived env ctes rels r)
    (constrained : r.Constrained Γ D (op.meaning I db ms)) :
    r.Bounded D (op.meaning I db ms) := by
  have rows : ∀ row : Row, row.Within D → ∀ bag ∈ (op.meaning I db ms).results row,
      r.property.rowBound.Bounds bag.card := by
    have made := derived.rowBound
    split at made
    · rename_i contradiction
      intro row hrow bag hbag
      rw [made]
      refine .atMost
        (Nat.le_zero.2
          (Multiset.card_eq_zero.2 (Multiset.eq_zero_of_forall_notMem fun x hx => ?_)))
      have known := constrained.constraint.holds row hrow bag hbag x hx
      rw [known.not_isContradiction] at contradiction
      cases contradiction
    · exact rowBound_spec le fits stays counted inputs h shared made
  have made := derived.statistics
  split at made
  · rename_i zero
    refine ⟨rows, fun _ row hrow bag hbag => ?_, fun _ => made ▸ rfl⟩
    exact Multiset.card_eq_zero.1 ((rows row hrow bag hbag).eq_zero zero)
  · rename_i positive
    exact ⟨rows, fun empty =>
      estimate_spec truthful mirrored le fits typed inputs h shared made empty, fun zero =>
        absurd zero positive⟩

end LogicalOperator

end QueryOptimizer
