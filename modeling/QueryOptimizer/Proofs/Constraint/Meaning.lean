import QueryOptimizer.Constraint.Basic
import QueryOptimizer.Proofs.Constraint.Interval
import QueryOptimizer.Proofs.Semantics.Scalar

/-!
# What constraints admit

`Constraint.admits` says which rows satisfy a constraint. The constructors mean what their
names say: a conjunction admits the rows that all of its parts admit, a disjunction those that
one of them does, and a negation all others. They merge the intervals on one column, so this
needs the datums of each column to be of one type (`Constraint.Regular`).

## Main results

* `Constraint.admits_conjunction?`, `Constraint.admits_disjunction?`,
  `Constraint.admits_negate`: what the constructors admit.
* `Constraint.admits_of_isContradiction`, `Constraint.admits_of_isUnbounded`: a contradiction
  admits nothing, what is unbounded admits everything.
-/

namespace QueryOptimizer

namespace Constraint

variable {Γ : Nat → DataType} {c : Constraint} {cs : List Constraint} {r : Row}
  {strategy : LookupStrategy}

mutual

/-- Whether a row satisfies a constraint. -/
def admits (r : Row) : Constraint → Bool
  | interval i => i.admits (r i.column.id)
  | conjunction parts _ => allAdmit r parts
  | disjunction parts _ => someAdmits r parts
  | negation c => !admits r c

/-- Whether a row satisfies all constraints of a list. -/
def allAdmit (r : Row) : List Constraint → Bool
  | [] => true
  | c :: cs => admits r c && allAdmit r cs

/-- Whether a row satisfies one of the constraints of a list. -/
def someAdmits (r : Row) : List Constraint → Bool
  | [] => false
  | c :: cs => admits r c || someAdmits r cs

end

/-- A row is admitted by a list of constraints when each of them admits it. -/
@[simp] theorem allAdmit_eq_all (r : Row) (cs : List Constraint) :
    allAdmit r cs = cs.all (admits r) := by
  induction cs with
  | nil => simp [allAdmit]
  | cons c cs ih => simp [allAdmit, ih]

/-- A row is admitted by one of a list of constraints. -/
@[simp] theorem someAdmits_eq_any (r : Row) (cs : List Constraint) :
    someAdmits r cs = cs.any (admits r) := by
  induction cs with
  | nil => simp [someAdmits]
  | cons c cs ih => simp [someAdmits, ih]

/-- An interval looks at the value of its column. -/
@[simp] theorem admits_interval (i : Interval) :
    (interval i).admits r = i.admits (r i.column.id) := by
  simp only [admits]

/-- A conjunction admits the rows that all of its parts admit. -/
@[simp] theorem admits_conjunction :
    (conjunction cs strategy).admits r = cs.all (admits r) := by
  simp only [admits, allAdmit_eq_all]

/-- A disjunction admits the rows that one of its parts admits. -/
@[simp] theorem admits_disjunction :
    (disjunction cs strategy).admits r = cs.any (admits r) := by
  simp only [admits, someAdmits_eq_any]

/-- A negation admits the rows that its part does not. -/
@[simp] theorem admits_negation : (negation c).admits r = !c.admits r := by
  simp only [admits]

/-! ### Contradictions -/

/-- The search for a contradiction goes through all constraints. -/
@[simp] theorem anyContradiction_eq_any (cs : List Constraint) :
    anyContradiction cs = cs.any isContradiction := by
  induction cs with
  | nil => simp [anyContradiction]
  | cons c cs ih => simp [anyContradiction, ih]

/-- The test for contradictions goes through all constraints. -/
@[simp] theorem allContradictions_eq_all (cs : List Constraint) :
    allContradictions cs = cs.all isContradiction := by
  induction cs with
  | nil => simp [allContradictions]
  | cons c cs ih => simp [allContradictions, ih]

/-- The search for an unbounded constraint goes through all constraints. -/
@[simp] theorem anyUnbounded_eq_any (cs : List Constraint) :
    anyUnbounded cs = cs.any isUnbounded := by
  induction cs with
  | nil => simp [anyUnbounded]
  | cons c cs ih => simp [anyUnbounded, ih]

/-- The test for unbounded constraints goes through all constraints. -/
@[simp] theorem allUnbounded_eq_all (cs : List Constraint) :
    allUnbounded cs = cs.all isUnbounded := by
  induction cs with
  | nil => simp [allUnbounded]
  | cons c cs ih => simp [allUnbounded, ih]

/-- A contradiction admits nothing, and what is unbounded admits everything. Under a negation
the one becomes the other. -/
theorem admits_of_extreme (r : Row) : ∀ c : Constraint,
    (c.isContradiction = true → c.admits r = false) ∧
      (c.isUnbounded = true → c.admits r = true)
  | interval i => by
    rw [admits_interval]
    simp only [isContradiction, isUnbounded]
    exact ⟨fun h => Interval.admits_of_isContradiction h _, fun h =>
      Interval.admits_of_isUnbounded h _⟩
  | conjunction parts _ => by
    have ih (p : Constraint) (hp : p ∈ parts) := admits_of_extreme r p
    simp only [isContradiction, isUnbounded, anyContradiction_eq_any, allUnbounded_eq_all,
      admits_conjunction, List.any_eq_true, List.all_eq_true, List.all_eq_false,
      Bool.not_eq_true]
    exact ⟨fun ⟨p, hp, empty⟩ => ⟨p, hp, (ih p hp).1 empty⟩, fun h p hp =>
      (ih p hp).2 (h p hp)⟩
  | disjunction parts _ => by
    have ih (p : Constraint) (hp : p ∈ parts) := admits_of_extreme r p
    simp only [isContradiction, isUnbounded, allContradictions_eq_all, anyUnbounded_eq_any,
      admits_disjunction, List.any_eq_true, List.all_eq_true, List.any_eq_false,
      Bool.not_eq_true]
    exact ⟨fun h p hp => (ih p hp).1 (h p hp), fun ⟨p, hp, full⟩ => ⟨p, hp, (ih p hp).2 full⟩⟩
  | negation c => by
    have ih := admits_of_extreme r c
    simp only [isContradiction, isUnbounded, admits_negation, Bool.not_eq_false',
      Bool.not_eq_true']
    exact ⟨ih.2, ih.1⟩

/-- A contradiction admits no row. -/
theorem admits_of_isContradiction (h : c.isContradiction = true) (r : Row) :
    c.admits r = false :=
  (admits_of_extreme r c).1 h

/-- What is unbounded admits every row. -/
theorem admits_of_isUnbounded (h : c.isUnbounded = true) (r : Row) : c.admits r = true :=
  (admits_of_extreme r c).2 h

/-! ### Regular constraints -/

/-- Whether the intervals in a constraint are regular, given the types of columns, and no
disjunction is empty. -/
inductive Regular (Γ : Nat → DataType) : Constraint → Prop
  | interval {i : Interval} (regular : i.Regular (Γ i.column.id)) : Regular Γ (interval i)
  | conjunction {parts : List Constraint} {strategy : LookupStrategy}
      (regular : ∀ p ∈ parts, Regular Γ p) : Regular Γ (conjunction parts strategy)
  | disjunction {parts : List Constraint} {strategy : LookupStrategy}
      (regular : ∀ p ∈ parts, Regular Γ p) (some : parts ≠ []) :
      Regular Γ (disjunction parts strategy)
  | negation {c : Constraint} (regular : Regular Γ c) : Regular Γ (negation c)

/-- The conjuncts of a regular constraint are regular. -/
theorem Regular.conjuncts (h : c.Regular Γ) : ∀ p ∈ c.conjuncts, p.Regular Γ := by
  cases h with
  | conjunction regular => exact regular
  | interval regular => exact List.forall_mem_singleton.2 (.interval regular)
  | disjunction regular some => exact List.forall_mem_singleton.2 (.disjunction regular some)
  | negation regular => exact List.forall_mem_singleton.2 (.negation regular)

/-- The disjuncts of a regular constraint are regular. -/
theorem Regular.disjuncts (h : c.Regular Γ) : ∀ p ∈ c.disjuncts, p.Regular Γ := by
  cases h with
  | disjunction regular => exact regular
  | interval regular => exact List.forall_mem_singleton.2 (.interval regular)
  | conjunction regular => exact List.forall_mem_singleton.2 (.conjunction regular)
  | negation regular => exact List.forall_mem_singleton.2 (.negation regular)

/-- A regular constraint has disjuncts. -/
theorem Regular.disjuncts_ne_nil (h : c.Regular Γ) : c.disjuncts ≠ [] := by
  cases h with
  | disjunction _ some => exact some
  | _ => exact List.cons_ne_nil _ _

/-- A constraint admits what all of its conjuncts admit. -/
theorem all_conjuncts (c : Constraint) (r : Row) :
    c.conjuncts.all (admits r) = c.admits r := by
  cases c <;> simp [conjuncts]

/-- A constraint admits what one of its disjuncts admits. -/
theorem any_disjuncts (c : Constraint) (r : Row) :
    c.disjuncts.any (admits r) = c.admits r := by
  cases c <;> simp [disjuncts]

/-- Constraints may be replaced by their conjuncts where all have to admit a row. -/
theorem all_flatMap_conjuncts (cs : List Constraint) (r : Row) :
    (cs.flatMap conjuncts).all (admits r) = cs.all (admits r) := by
  simp [List.all_flatMap, all_conjuncts]

/-- Constraints may be replaced by their disjuncts where one has to admit a row. -/
theorem any_flatMap_disjuncts (cs : List Constraint) (r : Row) :
    (cs.flatMap disjuncts).any (admits r) = cs.any (admits r) := by
  simp [List.any_flatMap, any_disjuncts]

/-! ### Merging intervals -/

section Merging

variable {combine : Interval → Interval → Interval} {P : Constraint → Prop}

/-- What holds of constraints holds of what comes out of a merge, if combining
intervals keeps it. -/
theorem forall_mem_mergeInto (hc : P c) (hcs : ∀ d ∈ cs, P d)
    (kept : ∀ i j, P (.interval i) → P (.interval j) → i.column.id = j.column.id →
      P (.interval (combine i j))) : ∀ d ∈ mergeInto combine c cs, P d := by
  fun_induction mergeInto combine c cs with
  | case1 => exact List.forall_mem_singleton.2 hc
  | case2 ds i j eq same =>
    subst eq
    obtain ⟨hd, hds⟩ := List.forall_mem_cons.1 hcs
    exact List.forall_mem_cons.2 ⟨kept i j hd hc (Column.beq_iff.1 same), hds⟩
  | case3 ds i j eq _ ih =>
    subst eq
    obtain ⟨hd, hds⟩ := List.forall_mem_cons.1 hcs
    exact List.forall_mem_cons.2 ⟨hd, ih hds⟩
  | case4 d ds _ ih =>
    obtain ⟨hd, hds⟩ := List.forall_mem_cons.1 hcs
    exact List.forall_mem_cons.2 ⟨hd, ih hds⟩

/-- What holds of constraints holds when their intervals are merged, if it
is kept by each merge. -/
theorem forall_mem_mergeIntervals (hcs : ∀ c ∈ cs, P c)
    (kept : ∀ i j, P (.interval i) → P (.interval j) → i.column.id = j.column.id →
      P (.interval (combine i j))) : ∀ d ∈ mergeIntervals combine cs, P d := by
  suffices all : ∀ merged : List Constraint, (∀ d ∈ merged, P d) →
      ∀ d ∈ cs.foldl (fun acc c => mergeInto combine c acc) merged, P d from all [] (by simp)
  induction cs with
  | nil => exact fun _ h => h
  | cons c cs ih =>
    obtain ⟨hc, hcs⟩ := List.forall_mem_cons.1 hcs
    exact fun merged h => ih hcs _ (forall_mem_mergeInto hc h kept)

/-- Merging a constraint into a list leaves something. -/
theorem mergeInto_ne_nil (combine : Interval → Interval → Interval) (c : Constraint)
    (cs : List Constraint) : mergeInto combine c cs ≠ [] := by
  fun_cases mergeInto combine c cs <;> exact List.cons_ne_nil _ _

/-- Merging loses no column altogether. -/
theorem mergeIntervals_ne_nil (combine : Interval → Interval → Interval) (h : cs ≠ []) :
    mergeIntervals combine cs ≠ [] := by
  have kept (cs merged : List Constraint) (some : merged ≠ []) :
      cs.foldl (fun acc c => mergeInto combine c acc) merged ≠ [] := by
    induction cs generalizing merged with
    | nil => exact some
    | cons c cs ih => exact ih _ (mergeInto_ne_nil combine c merged)
  obtain ⟨c, cs, rfl⟩ := List.exists_cons_of_ne_nil h
  exact kept cs _ (mergeInto_ne_nil combine c [])

/-- All constraints pass a test after a merge if they do before, when a combined interval
passes it if both of its parts do. -/
theorem all_mergeInto {f : Constraint → Bool} (hc : P c) (hcs : ∀ d ∈ cs, P d)
    (both : ∀ i j, P (.interval i) → P (.interval j) → i.column.id = j.column.id →
      f (.interval (combine i j)) = (f (.interval i) && f (.interval j))) :
    (mergeInto combine c cs).all f = (f c && cs.all f) := by
  fun_induction mergeInto combine c cs with
  | case1 => simp
  | case2 ds i j eq same =>
    subst eq
    rw [List.all_cons, List.all_cons,
      both i j (List.forall_mem_cons.1 hcs).1 hc (Column.beq_iff.1 same)]
    ac_rfl
  | case3 ds i j eq _ ih =>
    subst eq
    rw [List.all_cons, ih (List.forall_mem_cons.1 hcs).2, List.all_cons]
    ac_rfl
  | case4 d ds _ ih =>
    rw [List.all_cons, ih (List.forall_mem_cons.1 hcs).2, List.all_cons]
    ac_rfl

/-- A test that all constraints have to pass is passed when intervals are merged, if merging
two of them is like asking both. -/
theorem all_mergeIntervals {f : Constraint → Bool} (hcs : ∀ c ∈ cs, P c)
    (kept : ∀ i j, P (.interval i) → P (.interval j) → i.column.id = j.column.id →
      P (.interval (combine i j)))
    (both : ∀ i j, P (.interval i) → P (.interval j) → i.column.id = j.column.id →
      f (.interval (combine i j)) = (f (.interval i) && f (.interval j))) :
    (mergeIntervals combine cs).all f = cs.all f := by
  suffices all : ∀ merged : List Constraint, (∀ d ∈ merged, P d) →
      (cs.foldl (fun acc c => mergeInto combine c acc) merged).all f =
      (cs.all f && merged.all f) by
    simpa [mergeIntervals] using all [] (by simp)
  induction cs with
  | nil => simp
  | cons c cs ih =>
    obtain ⟨hc, hcs⟩ := List.forall_mem_cons.1 hcs
    intro merged h
    rw [List.foldl_cons, ih hcs _ (forall_mem_mergeInto hc h kept),
      all_mergeInto hc h both, List.all_cons]
    ac_rfl

/-- Merging by union admits what one of the constraints admits. -/
theorem any_mergeInto_union (hr : r.HasTypes Γ) (hc : c.Regular Γ)
    (hcs : ∀ d ∈ cs, d.Regular Γ) :
    (mergeInto Interval.union c cs).any (admits r) = (c.admits r || cs.any (admits r)) := by
  fun_induction mergeInto Interval.union c cs with
  | case1 => simp
  | case2 ds i j eq same =>
    subst eq
    have same := Column.beq_iff.1 same
    cases (List.forall_mem_cons.1 hcs).1 with | interval hi => ?_
    cases hc with | interval hj => ?_
    have both := (Interval.union_spec hi (same ▸ hj)).2 _ (hr i.column.id)
    simp only [List.any_cons, admits_interval]
    rw [show (i.union j).column = i.column from rfl, both, ← same]
    ac_rfl
  | case3 ds i j eq _ ih =>
    subst eq
    rw [List.any_cons, ih (List.forall_mem_cons.1 hcs).2, List.any_cons]
    ac_rfl
  | case4 d ds _ ih =>
    rw [List.any_cons, ih (List.forall_mem_cons.1 hcs).2, List.any_cons]
    ac_rfl

/-- The intersection of regular intervals on one column is regular. -/
theorem regular_combine_intersect (i j : Interval) (hi : (interval i).Regular Γ)
    (hj : (interval j).Regular Γ) (same : i.column.id = j.column.id) :
    (interval (i.intersect j)).Regular Γ := by
  cases hi with | interval hi => ?_
  cases hj with | interval hj => ?_
  exact .interval (Interval.intersect_spec hi (same ▸ hj)).1

/-- The union of regular intervals on one column is regular. -/
theorem regular_combine_union (i j : Interval) (hi : (interval i).Regular Γ)
    (hj : (interval j).Regular Γ) (same : i.column.id = j.column.id) :
    (interval (i.union j)).Regular Γ := by
  cases hi with | interval hi => ?_
  cases hj with | interval hj => ?_
  exact .interval (Interval.union_spec hi (same ▸ hj)).1

/-- The intersection of intervals on one column admits what both of them do. -/
theorem admits_combine_intersect (hr : r.HasTypes Γ) (i j : Interval)
    (hi : (interval i).Regular Γ) (hj : (interval j).Regular Γ)
    (same : i.column.id = j.column.id) :
    (interval (i.intersect j)).admits r =
      ((interval i).admits r && (interval j).admits r) := by
  cases hi with | interval hi => ?_
  cases hj with | interval hj => ?_
  simp only [admits_interval]
  rw [show (i.intersect j).column = i.column from
    rfl, (Interval.intersect_spec hi (same ▸ hj)).2 _ (hr _), same]

/-- Intervals on one column may be united where one constraint has to admit a row. -/
theorem any_mergeIntervals (hr : r.HasTypes Γ) (hcs : ∀ c ∈ cs, c.Regular Γ) :
    (mergeIntervals Interval.union cs).any (admits r) = cs.any (admits r) := by
  suffices any : ∀ merged : List Constraint, (∀ d ∈ merged, d.Regular Γ) →
      (cs.foldl (fun acc c => mergeInto Interval.union c acc) merged).any (admits r) =
        (cs.any (admits r) || merged.any (admits r)) by
    simpa [mergeIntervals] using any [] (by simp)
  induction cs with
  | nil => simp
  | cons c cs ih =>
    obtain ⟨hc, hcs⟩ := List.forall_mem_cons.1 hcs
    intro merged h
    rw [List.foldl_cons, ih hcs _ (forall_mem_mergeInto hc h regular_combine_union),
      any_mergeInto_union hr hc h, List.any_cons]
    ac_rfl

end Merging

/-! ### Constructors -/

/-- What comes out of a conjunction consists of constraints of the merged list. -/
theorem conjunction?_eq (cs : List Constraint) (strategy : LookupStrategy) :
    ∃ merged, merged = mergeIntervals Interval.intersect (cs.flatMap conjuncts) ∧
      conjunction? cs strategy =
        match merged.filter (!·.isUnbounded) with
        | [] => none
        | [c] => some c
        | parts => some (conjunction parts strategy) :=
  ⟨_, rfl, rfl⟩

/-- Unbounded constraints may be left out where all have to admit a row. -/
theorem all_filter_bounded (cs : List Constraint) (r : Row) :
    (cs.filter (!·.isUnbounded)).all (admits r) = cs.all (admits r) := by
  induction cs with
  | nil => rfl
  | cons c cs ih =>
    cases h : c.isUnbounded with
    | true => simp [h, ih, admits_of_isUnbounded h]
    | false => simp [h, ih]

/-- Contradictions may be left out where one constraint has to admit a row. -/
theorem any_filter_satisfiable (cs : List Constraint) (r : Row) :
    (cs.filter (!·.isContradiction)).any (admits r) = cs.any (admits r) := by
  induction cs with
  | nil => rfl
  | cons c cs ih =>
    cases h : c.isContradiction with
    | true => simp [h, ih, admits_of_isContradiction h]
    | false => simp [h, ih]

/-- A conjunction admits the rows that all of its parts admit. -/
theorem admits_conjunction? (hr : r.HasTypes Γ) (hcs : ∀ c ∈ cs, c.Regular Γ) :
    (conjunction? cs strategy).all (admits r) = cs.all (admits r) := by
  have flat : ∀ c ∈ cs.flatMap conjuncts, c.Regular Γ := fun c hc => by
    obtain ⟨d, hd, hc⟩ := List.mem_flatMap.1 hc
    exact (hcs d hd).conjuncts c hc
  obtain ⟨merged, hmerged, eq⟩ := conjunction?_eq cs strategy
  have same : (merged.filter (!·.isUnbounded)).all (admits r) = cs.all (admits r) := by
    rw [all_filter_bounded, hmerged,
      all_mergeIntervals flat regular_combine_intersect (admits_combine_intersect hr),
      all_flatMap_conjuncts]
  rw [eq, ← same]
  split
  · rename_i h
    simp [h]
  · rename_i c h
    simp [h]
  · simp

/-- A conjunction consists of what is left of the merged list, or it is the only thing left. -/
theorem conjunction?_cases (h : conjunction? cs strategy = some c) :
    ∃ parts, parts = (mergeIntervals Interval.intersect (cs.flatMap conjuncts)).filter
      (!·.isUnbounded) ∧
      (parts = [c] ∨ 2 ≤ parts.length ∧ c = conjunction parts strategy) := by
  obtain ⟨merged, hmerged, eq⟩ := conjunction?_eq cs strategy
  refine ⟨_, rfl, ?_⟩
  rw [← hmerged]
  rw [eq] at h
  generalize merged.filter (!·.isUnbounded) = parts at h ⊢
  rcases parts with _ | ⟨d, _ | ⟨e, ds⟩⟩
  · cases h
  · exact .inl (Option.some.inj h ▸ rfl)
  · exact .inr ⟨by simp, (Option.some.inj h).symm⟩

/-- What holds of the parts holds of the conjunction if it does of every
conjunction of them. -/
theorem conjunction?_induction {P : Constraint → Prop} (h : conjunction? cs strategy = some c)
    (hcs : ∀ c ∈ cs, ∀ p ∈ c.conjuncts, P p)
    (kept : ∀ i j, P (.interval i) → P (.interval j) → i.column.id = j.column.id →
      P (.interval (i.intersect j)))
    (closed : ∀ parts, (∀ p ∈ parts, P p) → 2 ≤ parts.length →
      parts.Sublist (mergeIntervals Interval.intersect (cs.flatMap conjuncts)) →
      P (conjunction parts strategy)) : P c := by
  obtain ⟨parts, hparts, cases⟩ := conjunction?_cases h
  have all : ∀ d ∈ parts, P d := by
    rw [hparts]
    refine fun d hd =>
      forall_mem_mergeIntervals (fun d hd => ?_) kept d (List.mem_filter.1 hd).1
    obtain ⟨e, he, hd⟩ := List.mem_flatMap.1 hd
    exact hcs e he d hd
  rcases cases with single | ⟨two, rfl⟩
  · exact all c (by simp [single])
  · exact closed parts all two (hparts ▸ List.filter_sublist)

/-- What comes out of a disjunction consists of constraints of the merged list, or it is a
contradiction that was put in. -/
theorem disjunction?_eq (cs : List Constraint) (strategy : LookupStrategy) :
    ∃ flat merged, flat = cs.flatMap disjuncts ∧
      merged = mergeIntervals Interval.union (flat.filter (!·.isContradiction)) ∧
      disjunction? cs strategy =
        if flat.any isUnbounded then none
        else if merged.any isUnbounded then none
        else
          match merged with
          | [] => flat.find? isContradiction
          | [c] => some c
          | parts => some (disjunction parts strategy) :=
  ⟨_, _, rfl, rfl, rfl⟩

/-- A disjunction admits the rows that one of its parts admits. -/
theorem admits_disjunction? (hr : r.HasTypes Γ) (hcs : ∀ c ∈ cs, c.Regular Γ)
    (some : cs ≠ []) :
    (disjunction? cs strategy).all (admits r) = cs.any (admits r) := by
  obtain ⟨flat, merged, hflat, hmerged, eq⟩ := disjunction?_eq cs strategy
  have regular : ∀ c ∈ flat, c.Regular Γ := fun c hc => by
    obtain ⟨d, hd, hc⟩ := List.mem_flatMap.1 (hflat ▸ hc)
    exact (hcs d hd).disjuncts c hc
  have someFlat : flat ≠ [] := by
    obtain ⟨d, ds, rfl⟩ := List.exists_cons_of_ne_nil some
    rw [hflat, List.flatMap_cons]
    exact List.append_ne_nil_of_left_ne_nil (hcs d (by simp)).disjuncts_ne_nil _
  have same : flat.any (admits r) = cs.any (admits r) := by rw [hflat, any_flatMap_disjuncts]
  have sameMerged : merged.any (admits r) = flat.any (admits r) := by
    rw [hmerged, any_mergeIntervals hr fun c hc => regular c (List.mem_filter.1 hc).1,
      any_filter_satisfiable]
  have unbounded {ds : List Constraint} (h : ds.any isUnbounded = true) :
      ds.any (admits r) = true := by
    obtain ⟨d, hd, full⟩ := List.any_eq_true.1 h
    exact List.any_eq_true.2 ⟨d, hd, admits_of_isUnbounded full r⟩
  rw [eq, ← same]
  split
  · rename_i h
    rw [unbounded h]
    rfl
  · split
    · rename_i h
      rw [← sameMerged, unbounded h]
      rfl
    · rw [← sameMerged]
      rcases merged with _ | ⟨c, _ | ⟨d, ds⟩⟩
      · have empty := hmerged.symm
        -- nothing but contradictions was put in
        have contradictions : ∀ c ∈ flat, c.isContradiction = true := by
          have none : flat.filter (!·.isContradiction) = [] :=
            not_not.1 fun some => mergeIntervals_ne_nil Interval.union some empty
          simpa using none
        obtain ⟨d, hd⟩ := List.exists_mem_of_ne_nil flat someFlat
        cases found : flat.find? isContradiction with
        | none => exact absurd (contradictions d hd) (List.find?_eq_none.1 found d hd)
        | some c => simpa using admits_of_isContradiction (List.find?_some found) r
      · simp
      · simp

/-- A disjunction consists of the merged list, in which nothing is unbounded, or it is the only
thing in there, or a contradiction that was put in. -/
theorem disjunction?_cases (h : disjunction? cs strategy = some c) :
    ∃ merged, merged =
        mergeIntervals Interval.union ((cs.flatMap disjuncts).filter (!·.isContradiction)) ∧
      (∀ d ∈ merged, d.isUnbounded = false) ∧
      (c ∈ cs.flatMap disjuncts ∨ merged = [c] ∨ 2 ≤ merged.length ∧
        c = disjunction merged strategy) := by
  obtain ⟨flat, merged, hflat, hmerged, eq⟩ := disjunction?_eq cs strategy
  refine ⟨_, rfl, ?_⟩
  rw [← hflat, ← hmerged]
  rw [eq] at h
  split at h
  · cases h
  · split at h
    · cases h
    · rename_i bounded
      refine ⟨fun d hd => Bool.eq_false_iff.2 fun full =>
        bounded (List.any_eq_true.2 ⟨d, hd, full⟩), ?_⟩
      rcases merged with _ | ⟨d, _ | ⟨e, es⟩⟩
      · exact .inl (List.mem_of_find?_eq_some h)
      · exact .inr (.inl (Option.some.inj h ▸ rfl))
      · exact .inr (.inr ⟨by simp, (Option.some.inj h).symm⟩)

/-- What holds of the parts holds of the disjunction if it does of every
disjunction of them. -/
theorem disjunction?_induction {P : Constraint → Prop} (h : disjunction? cs strategy = some c)
    (hcs : ∀ c ∈ cs, ∀ p ∈ c.disjuncts, P p)
    (kept : ∀ i j, P (.interval i) → P (.interval j) → i.column.id = j.column.id →
      P (.interval (i.union j)))
    (closed : ∀ flat, (∀ p ∈ mergeIntervals Interval.union flat, P p) →
      2 ≤ (mergeIntervals Interval.union flat).length →
      P (disjunction (mergeIntervals Interval.union flat) strategy)) : P c := by
  obtain ⟨merged, hmerged, -, cases⟩ := disjunction?_cases h
  have allFlat : ∀ d ∈ cs.flatMap disjuncts, P d := fun d hd => by
    obtain ⟨e, he, hd⟩ := List.mem_flatMap.1 hd
    exact hcs e he d hd
  have all : ∀ d ∈ merged, P d :=
    hmerged ▸ forall_mem_mergeIntervals (fun d hd => allFlat d (List.mem_filter.1 hd).1) kept
  rcases cases with mem | single | ⟨two, rfl⟩
  · exact allFlat c mem
  · exact all c (by simp [single])
  · rw [hmerged] at all two ⊢
    exact closed _ all two

/-- A negation admits all other rows. -/
theorem admits_negate (hr : r.HasTypes Γ) (hc : c.Regular Γ) :
    c.negate.admits r = !c.admits r := by
  cases hc with
  | interval regular =>
    simp only [negate, admits_interval]
    exact (Interval.complement_spec regular).2 _ (hr _)
  | conjunction | disjunction => simp [negate]
  | negation => rw [negate, admits_negation, Bool.not_not]

/-- A conjunction of regular constraints is regular. -/
theorem Regular.conjunction? (hcs : ∀ c ∈ cs, c.Regular Γ)
    (h : Constraint.conjunction? cs strategy = some c) : c.Regular Γ :=
  conjunction?_induction h (fun c hc => (hcs c hc).conjuncts) regular_combine_intersect
    fun _ parts _ _ => .conjunction parts

/-- A disjunction of regular constraints is regular. -/
theorem Regular.disjunction? (hcs : ∀ c ∈ cs, c.Regular Γ)
    (h : Constraint.disjunction? cs strategy = some c) : c.Regular Γ :=
  disjunction?_induction h (fun c hc => (hcs c hc).disjuncts) regular_combine_union
    fun _ parts two => .disjunction parts (List.ne_nil_of_length_pos (by omega))

/-- The negation of a regular constraint is regular. -/
theorem Regular.negate (hc : c.Regular Γ) : c.negate.Regular Γ := by
  cases hc with
  | interval regular => exact .interval (Interval.complement_spec regular).1
  | conjunction regular => exact .negation (.conjunction regular)
  | disjunction regular some => exact .negation (.disjunction regular some)
  | negation regular => exact regular

end Constraint

end QueryOptimizer
