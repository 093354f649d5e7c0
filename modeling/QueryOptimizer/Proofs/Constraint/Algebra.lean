import QueryOptimizer.Proofs.Constraint.Projection

/-!
# The algebra of constraints

The constraints that the optimizer builds (`Constraint.Built`) are made of intervals by
conjunction, disjunction and negation. They have a normal form: the parts of a conjunction or a
disjunction are at least two, no two of them are intervals on one column, and no interval is
negated. A constraint in normal form that speaks of a single column is therefore an interval,
which is why projections of negations are harmless.

## Main results

* `Constraint.Built.normal`: what is built is in normal form.
* `Constraint.algebra`: the constructors and the projections of constraints mean what they say.
-/

namespace QueryOptimizer

namespace Constraint

variable {Γ : Nat → DataType} {c d : Constraint} {cs : List Constraint}
  {strategy : LookupStrategy}

/-- Whether a constraint is made of intervals by the constructors, with ranges of the
type of each column. -/
inductive Built (Γ : Nat → DataType) : Constraint → Prop
  | interval (col : Column) {ranges : List Range} (includeNull : Bool)
      (typed : ∀ r ∈ ranges, r.HasType (Γ col.id)) :
      Built Γ (interval (.ofRanges col ranges includeNull))
  | conjunction {cs : List Constraint} {strategy : LookupStrategy} {c : Constraint}
      (parts : ∀ p ∈ cs, Built Γ p) (made : conjunction? cs strategy = some c) : Built Γ c
  | disjunction {cs : List Constraint} {strategy : LookupStrategy} {c : Constraint}
      (parts : ∀ p ∈ cs, Built Γ p) (made : disjunction? cs strategy = some c) : Built Γ c
  | negation {c : Constraint} (part : Built Γ c) : Built Γ c.negate

/-! ### The normal form -/

/-- Whether two constraints are not intervals on one column. -/
def Separate (c d : Constraint) : Prop :=
  ∀ i j, c = interval i → d = interval j → i.column.id ≠ j.column.id

/-- Whether a constraint is neither an interval nor a negation. -/
def isCompound : Constraint → Bool
  | conjunction .. | disjunction .. => true
  | interval _ | negation _ => false

/-- The form of the constraints that are built. -/
inductive Normal (Γ : Nat → DataType) : Constraint → Prop
  | interval {i : Interval} (regular : i.Regular (Γ i.column.id)) : Normal Γ (interval i)
  | conjunction {parts : List Constraint} {strategy : LookupStrategy}
      (normal : ∀ p ∈ parts, Normal Γ p) (separate : parts.Pairwise Separate)
      (two : 2 ≤ parts.length) :
      Normal Γ (conjunction parts strategy)
  | disjunction {parts : List Constraint} {strategy : LookupStrategy}
      (normal : ∀ p ∈ parts, Normal Γ p) (separate : parts.Pairwise Separate)
      (two : 2 ≤ parts.length) :
      Normal Γ (disjunction parts strategy)
  | negation {c : Constraint} (normal : Normal Γ c) (compound : c.isCompound = true) :
      Normal Γ (negation c)

/-- A constraint in normal form is regular. -/
theorem Normal.regular (h : c.Normal Γ) : c.Regular Γ := by
  induction h with
  | interval regular => exact .interval regular
  | conjunction _ _ _ ih => exact .conjunction ih
  | disjunction _ _ two ih => exact .disjunction ih (List.ne_nil_of_length_pos (by omega))
  | negation _ _ ih => exact .negation ih

/-- Among separate constraints there are no two that are intervals on one column. -/
theorem not_all_intervals (separate : cs.Pairwise Separate) (two : 2 ≤ cs.length) {id : Nat}
    (intervals : ∀ c ∈ cs, ∃ i, c = interval i ∧ i.column.id = id) : False := by
  match cs with
  | [] | [_] => simp at two
  | c :: d :: _ =>
    obtain ⟨i, rfl, hi⟩ := intervals c (by simp)
    obtain ⟨j, rfl, hj⟩ := intervals d (by simp)
    exact (List.pairwise_cons.1 separate).1 _ (by simp) i j rfl rfl (hi.trans hj.symm)

/-- In normal form, what speaks of a single column is an interval. -/
theorem Normal.eq_interval (h : c.Normal Γ) {id : Nat} (single : c.uses ⊆ {id}) :
    ∃ i, c = .interval i ∧ i.column.id = id := by
  induction h with
  | @interval i _ => exact ⟨i, rfl, by simpa using single⟩
  | conjunction _ separate two ih =>
    refine (not_all_intervals separate two fun p hp => ih p hp fun i hi => ?_).elim
    exact single (mem_uses_conjunction.2 ⟨p, hp, hi⟩)
  | disjunction _ separate two ih =>
    refine (not_all_intervals separate two fun p hp => ih p hp fun i hi => ?_).elim
    exact single (mem_uses_disjunction.2 ⟨p, hp, hi⟩)
  | negation _ compound ih =>
    obtain ⟨i, rfl, -⟩ := ih (by simpa using single)
    cases compound

/-- A constraint in normal form that speaks of one column is an interval. -/
theorem Normal.spread (h : c.Normal Γ) : c.Spread := by
  induction h with
  | @interval i _ => exact .interval i
  | conjunction _ _ _ ih => exact .conjunction ih
  | disjunction _ _ _ ih => exact .disjunction ih
  | negation normal compound _ =>
    refine .negation fun one => ?_
    obtain ⟨id, hid⟩ := Finset.card_eq_one.1 one
    obtain ⟨i, rfl, -⟩ := normal.eq_interval hid.subset
    cases compound

/-! ### The constructors keep the normal form -/

section Merging

variable {combine : Interval → Interval → Interval}

/-- What is in a list after a merge was there, is the new constraint, or is
put together of both. -/
theorem mem_mergeInto (h : d ∈ mergeInto combine c cs) :
    d = c ∨ d ∈ cs ∨ ∃ i j, interval i ∈ cs ∧ c = interval j ∧ d = interval (combine i j) := by
  fun_induction mergeInto combine c cs with
  | case1 => exact .inl (List.mem_singleton.1 h)
  | case2 ds i j eq _ =>
    rcases List.mem_cons.1 h with rfl | h
    · exact .inr (.inr ⟨i, j, by simp, eq, rfl⟩)
    · exact .inr (.inl (List.mem_cons_of_mem _ h))
  | case3 ds i j eq _ ih =>
    subst eq
    rcases List.mem_cons.1 h with rfl | h
    · exact .inr (.inl (by simp))
    · rcases ih h with rfl | h | ⟨i, j, hi, made⟩
      · exact .inl rfl
      · exact .inr (.inl (List.mem_cons_of_mem _ h))
      · exact .inr (.inr ⟨i, j, List.mem_cons_of_mem _ hi, made⟩)
  | case4 e ds _ ih =>
    rcases List.mem_cons.1 h with rfl | h
    · exact .inr (.inl (by simp))
    · rcases ih h with rfl | h | ⟨i, j, hi, made⟩
      · exact .inl rfl
      · exact .inr (.inl (List.mem_cons_of_mem _ h))
      · exact .inr (.inr ⟨i, j, List.mem_cons_of_mem _ hi, made⟩)

/-- Intervals on different columns stay apart when another constraint is merged into them. -/
theorem separate_mergeInto (kept : ∀ i j, (combine i j).column = i.column)
    (separate : cs.Pairwise Separate) : (mergeInto combine c cs).Pairwise Separate := by
  have apart {d : Constraint} {ds : List Constraint} (new : d.Separate c)
      (old : ∀ e ∈ ds, d.Separate e) : ∀ e ∈ mergeInto combine c ds, d.Separate e := by
    intro e he
    rcases mem_mergeInto he with rfl | he | ⟨i, j, hi, -, rfl⟩
    · exact new
    · exact old e he
    · intro k l hk hl
      obtain rfl := interval.inj hl
      rw [kept]
      exact old _ hi k i hk rfl
  fun_induction mergeInto combine c cs with
  | case1 => exact List.pairwise_singleton _ _
  | case2 ds i j eq same =>
    obtain ⟨first, rest⟩ := List.pairwise_cons.1 separate
    refine List.pairwise_cons.2 ⟨fun e he k l hk hl => ?_, rest⟩
    obtain rfl := interval.inj hk
    rw [kept]
    exact first e he i l rfl hl
  | case3 ds i j eq different ih =>
    subst eq
    obtain ⟨first, rest⟩ := List.pairwise_cons.1 separate
    refine List.pairwise_cons.2 ⟨apart (fun k l hk hl same => ?_) first, ih rest⟩
    obtain rfl := interval.inj hk
    obtain rfl := interval.inj hl
    exact different (Column.beq_iff.2 same)
  | case4 d ds notBoth ih =>
    obtain ⟨first, rest⟩ := List.pairwise_cons.1 separate
    exact List.pairwise_cons.2
      ⟨apart (fun k l hk hl => (notBoth k l hk hl).elim) first, ih rest⟩

/-- Merged constraints have no two intervals on one column. -/
theorem separate_mergeIntervals (kept : ∀ i j, (combine i j).column = i.column)
    (cs : List Constraint) : (mergeIntervals combine cs).Pairwise Separate := by
  suffices all : ∀ merged : List Constraint, merged.Pairwise Separate →
      (cs.foldl (fun acc c => mergeInto combine c acc) merged).Pairwise Separate from
      all [] .nil
  induction cs with
  | nil => exact fun _ h => h
  | cons c cs ih => exact fun merged h => ih _ (separate_mergeInto kept h)

end Merging

/-- The conjuncts of a constraint in normal form are in normal form. -/
theorem Normal.conjuncts (h : c.Normal Γ) : ∀ p ∈ c.conjuncts, p.Normal Γ := by
  cases h with
  | conjunction normal => exact normal
  | interval regular => exact List.forall_mem_singleton.2 (.interval regular)
  | disjunction normal separate two =>
    exact List.forall_mem_singleton.2 (.disjunction normal separate two)
  | negation normal compound => exact List.forall_mem_singleton.2 (.negation normal compound)

/-- The disjuncts of a constraint in normal form are in normal form. -/
theorem Normal.disjuncts (h : c.Normal Γ) : ∀ p ∈ c.disjuncts, p.Normal Γ := by
  cases h with
  | disjunction normal => exact normal
  | interval regular => exact List.forall_mem_singleton.2 (.interval regular)
  | conjunction normal separate two =>
    exact List.forall_mem_singleton.2 (.conjunction normal separate two)
  | negation normal compound => exact List.forall_mem_singleton.2 (.negation normal compound)

theorem column_intersect (i j : Interval) : (i.intersect j).column = i.column := rfl

theorem column_union (i j : Interval) : (i.union j).column = i.column := rfl

/-- A regular interval that two others are put together to is in normal form. -/
theorem Normal.of_regular {combine : Interval → Interval → Interval} {i j : Interval}
    (kept : (Constraint.interval (combine i j)).Regular Γ) :
    (Constraint.interval (combine i j)).Normal Γ := by
  cases kept with | interval regular => exact .interval regular

/-- A conjunction of constraints in normal form is in normal form. -/
theorem Normal.conjunction? (hcs : ∀ c ∈ cs, c.Normal Γ)
    (made : Constraint.conjunction? cs strategy = some c) : c.Normal Γ := by
  refine conjunction?_induction made (fun p hp => (hcs p hp).conjuncts)
    (fun i j hi hj same => ?_) fun parts normal two within => .conjunction normal ?_ two
  · exact .of_regular (regular_combine_intersect i j hi.regular hj.regular same)
  · exact (separate_mergeIntervals column_intersect _).sublist within

/-- A disjunction of constraints in normal form is in normal form. -/
theorem Normal.disjunction? (hcs : ∀ c ∈ cs, c.Normal Γ)
    (made : Constraint.disjunction? cs strategy = some c) : c.Normal Γ := by
  refine disjunction?_induction made (fun p hp => (hcs p hp).disjuncts)
    (fun i j hi hj same => ?_) fun parts normal two => .disjunction normal ?_ two
  · exact .of_regular (regular_combine_union i j hi.regular hj.regular same)
  · exact separate_mergeIntervals column_union _

/-- The negation of a constraint in normal form is in normal form. -/
theorem Normal.negate (h : c.Normal Γ) : c.negate.Normal Γ := by
  cases h with
  | interval regular => exact .interval (Interval.complement_spec regular).1
  | conjunction normal separate two => exact .negation (.conjunction normal separate two) rfl
  | disjunction normal separate two => exact .negation (.disjunction normal separate two) rfl
  | negation normal compound => exact normal

/-- What is built is in normal form. -/
theorem Built.normal (h : c.Built Γ) : c.Normal Γ := by
  induction h with
  | interval col includeNull typed =>
    exact .interval (Interval.ofRanges_spec col includeNull typed).1
  | conjunction _ made ih => exact .conjunction? ih made
  | disjunction _ made ih => exact .disjunction? ih made
  | negation _ ih => exact ih.negate

/-! ### Projections keep the normal form -/

/-- A conjunction of projections in normal form is in normal form. -/
theorem Projection.normal_of_conjoin {ps : List Projection}
    (parts : ∀ p ∈ ps, ∀ b ∈ p.bound, b.Normal Γ) (h : Projection.conjoin ps = some d) :
    d.Normal Γ := by
  refine Normal.conjunction? (fun b hb => ?_) h
  obtain ⟨p, hp, effective⟩ := List.mem_filterMap.1 hb
  exact parts p hp b (Projection.bound_of_effective? effective)

/-- A disjunction of projections in normal form is in normal form. -/
theorem Projection.normal_of_disjoin {ps : List Projection}
    (parts : ∀ p ∈ ps, ∀ b ∈ p.bound, b.Normal Γ) (h : Projection.disjoin ps = some d) :
    d.Normal Γ := by
  unfold Projection.disjoin at h
  simp only at h
  split at h
  · cases h
  · refine Normal.disjunction? (fun b hb => ?_) h
    obtain ⟨bound, mem, same⟩ := List.mem_filterMap.1 hb
    obtain ⟨p, hp, effective⟩ := List.mem_map.1 mem
    exact parts p (List.mem_filter.1 hp).1 b
      (Projection.bound_of_effective? (effective.trans same))

/-- What a constraint in normal form says about a column is in normal form. -/
theorem Normal.of_onColumn {col : Column} {c d : Constraint} (normal : c.Normal Γ)
    (h : onColumn col c = some d) : d.Normal Γ := by
  induction normal generalizing d with
  | interval regular =>
    unfold onColumn at h
    split at h
    · exact Option.some.inj h ▸ .interval regular
    · cases h
  | @conjunction parts strategy _ _ _ ih =>
    have each : ∀ p ∈ projections col parts, ∀ b ∈ p.bound, b.Normal Γ := by
      rw [projections_eq_map]
      intro p hp b hb
      obtain ⟨c, hc, rfl⟩ := List.mem_map.1 hp
      exact ih c hc hb
    unfold onColumn at h
    split at h
    · cases h
    · refine Projection.normal_of_conjoin (fun p hp => each p ?_) h
      rcases List.mem_append.1 hp with hp | hp
      · exact LookupStrategy.mem_of_mem_select hp
      · exact (List.mem_filter.1 hp).1
  | @disjunction parts strategy _ _ _ ih =>
    have each : ∀ p ∈ projections col parts, ∀ b ∈ p.bound, b.Normal Γ := by
      rw [projections_eq_map]
      intro p hp b hb
      obtain ⟨c, hc, rfl⟩ := List.mem_map.1 hp
      exact ih c hc hb
    unfold onColumn at h
    split at h
    · cases h
    · exact Projection.normal_of_disjoin each h
  | @negation c normal compound _ =>
    unfold onColumn at h
    split at h
    · rename_i single
      obtain ⟨one, -⟩ := Bool.and_eq_true_iff.1 single
      cases (Normal.negation normal compound).spread with
      | negation columns =>
        exact absurd (c.usedColumns.size_eq_card.symm.trans (beq_iff_eq.1 one)) columns
    · cases h

/-- What a constraint in normal form says about some columns is in normal form. -/
theorem Normal.of_onColumns {cols : ColumnSet} {c d : Constraint} (normal : c.Normal Γ)
    (h : onColumns cols c = some d) : d.Normal Γ := by
  induction normal generalizing d with
  | interval regular =>
    unfold onColumns at h
    split at h
    · exact Option.some.inj h ▸ .interval regular
    · cases h
  | conjunction _ _ _ ih =>
    unfold onColumns at h
    rw [projectionsOn_eq_map] at h
    refine Projection.normal_of_conjoin (fun p hp b hb => ?_) h
    obtain ⟨c, hc, rfl⟩ := List.mem_map.1 (List.mem_filter.1 hp).1
    exact ih c hc hb
  | disjunction _ _ _ ih =>
    unfold onColumns at h
    rw [projectionsOn_eq_map] at h
    refine Projection.normal_of_disjoin (fun p hp b hb => ?_) h
    obtain ⟨c, hc, rfl⟩ := List.mem_map.1 hp
    exact ih c hc hb
  | negation normal compound _ =>
    unfold onColumns at h
    split at h
    · exact Option.some.inj h ▸ .negation normal compound
    · cases h

/-- A constraint in normal form speaks of some column. -/
theorem Normal.uses_nonempty (h : c.Normal Γ) : c.uses.Nonempty := by
  induction h with
  | @interval i _ => simp
  | conjunction _ _ two ih =>
    obtain ⟨p, hp⟩ := List.exists_mem_of_length_pos (Nat.lt_of_lt_of_le Nat.two_pos two)
    exact (ih p hp).mono fun i hi => mem_uses_conjunction.2 ⟨p, hp, hi⟩
  | disjunction _ _ two ih =>
    obtain ⟨p, hp⟩ := List.exists_mem_of_length_pos (Nat.lt_of_lt_of_le Nat.two_pos two)
    exact (ih p hp).mono fun i hi => mem_uses_disjunction.2 ⟨p, hp, hi⟩
  | negation _ _ ih => simpa using ih

/-! ### What constraints mean -/

/-- The constraints that are built mean what they say. A conjunction admits what all of its
parts admit, a disjunction of some parts what one of them admits, a negation what its part does
not; the result that nothing is known admits every row. The disjunction of no parts is of that
kind. A contradiction admits no row, and what is unbounded admits all. Projections follow from
the constraint and speak of the given columns only. -/
theorem algebra (Γ : Nat → DataType) :
    (∀ cs strategy, (∀ c ∈ cs, Built Γ c) → ∀ r : Row, r.HasTypes Γ →
      ((conjunction? cs strategy).all (admits r) = true ↔ ∀ c ∈ cs, c.admits r = true) ∧
      (cs ≠ [] →
        ((disjunction? cs strategy).all (admits r) = true ↔ ∃ c ∈ cs, c.admits r = true))) ∧
    (∀ strategy, disjunction? [] strategy = none) ∧
    ∀ c, Built Γ c →
      (∀ r : Row, r.HasTypes Γ → (c.negate.admits r = true ↔ c.admits r ≠ true)) ∧
      (c.isContradiction = true → ∀ r, c.admits r ≠ true) ∧
      (c.isUnbounded = true → ∀ r, c.admits r = true) ∧
      (∀ col, (∀ r : Row, r.HasTypes Γ → c.admits r = true →
        (onColumn col c).all (admits r) = true) ∧
        ∀ d ∈ onColumn col c, d.uses ⊆ {col.id}) ∧
      ∀ cols, (∀ r : Row, r.HasTypes Γ → c.admits r = true →
          (onColumns cols c).all (admits r) = true) ∧
        ∀ d ∈ onColumns cols c, d.uses ⊆ cols.idSet := by
  refine ⟨fun cs strategy built r hr => ⟨?_, fun some => ?_⟩, fun _ => rfl, fun c built =>
    ⟨fun r hr => ?_, fun none r => ?_, fun full r => admits_of_isUnbounded full r, fun col =>
      ⟨fun r hr h => ?_, ?_⟩,
    fun cols => ⟨fun r hr h => ?_, ?_⟩⟩⟩
  · rw [admits_conjunction? hr fun c hc => (built c hc).normal.regular, List.all_eq_true]
  · rw [admits_disjunction? hr (fun c hc => (built c hc).normal.regular) some,
      List.any_eq_true]
  · rw [admits_negate hr built.normal.regular]
    simp
  · rw [admits_of_isContradiction none]
    exact Bool.false_ne_true
  · rw [Option.all_eq_true]
    exact fun d hd => (onColumn_spec built.normal.regular built.normal.spread hd).admits r hr h
  · exact fun d hd => (onColumn_spec built.normal.regular built.normal.spread hd).uses
  · rw [Option.all_eq_true]
    exact fun d hd => (onColumns_spec built.normal.regular hd).admits r hr h
  · exact fun d hd => (onColumns_spec built.normal.regular hd).uses

/-- The disjunction of no constraints says nothing, so it admits rows that none
of them admits. -/
theorem not_admits_disjunction?_nil : ¬∀ (cs : List Constraint) (strategy : LookupStrategy),
    (∀ c ∈ cs, Built (fun _ => .boolean) c) → ∀ r : Row, r.HasTypes (fun _ => .boolean) →
      ((disjunction? cs strategy).all (admits r) = true ↔ ∃ c ∈ cs, c.admits r = true) := by
  intro claim
  have none := (claim [] .index (by simp) (fun _ => none) (fun _ d hd => by cases hd)).1 rfl
  simp at none

end Constraint

end QueryOptimizer
