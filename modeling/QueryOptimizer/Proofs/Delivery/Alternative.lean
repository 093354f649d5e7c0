import QueryOptimizer.Delivery.Alternative
import QueryOptimizer.Delivery.Enforcement
import QueryOptimizer.Proofs.Bare

/-!
# Ways to meet a requirement

An operator meets a required property if one of its alternatives delivers something as good, or
if it is an enforcer that was put there for it (`PhysicalOperator.Meets`). Only the ids of
columns matter, so an enforcer may be an equal one that was there before.

## Main results

* `PhysicalProperty.chain_enforcers`: enforcers deliver what they are put in place for.
-/

namespace QueryOptimizer

/-! ### Equal requirements -/

/-- What matching ignores does not count for membership. -/
theorem Column.contains_map_bare (cols : List Column) (c : Column) :
    (cols.map bare).contains c.bare = cols.contains c := by
  induction cols with
  | nil => rfl
  | cons d ds ih =>
    rw [List.map_cons, List.contains_cons, List.contains_cons, ih]
    rfl

namespace Distribution

/-- What matching ignores does not count for hashing within columns. -/
theorem hashesWithin_bare (cols required : List Column) :
    hashesWithin (cols.map Column.bare) (required.map Column.bare) =
      hashesWithin cols required := by
  simp only [hashesWithin, List.isEmpty_map, List.all_map, Function.comp_def,
    Column.contains_map_bare]

/-- What matching ignores does not count for the equality of distributions. -/
theorem beq_bare (d e : Distribution) : (d.bare == e.bare) = (d == e) := by
  have idem (d : Distribution) : d.bare.bare = d.bare := by
    cases d <;> simp [bare, Column.bare, Function.comp_def]
  rw [Bool.eq_iff_iff, beq_iff_bare, beq_iff_bare, idem, idem]

/-- Whether a distribution is good enough only depends on the ids of columns. -/
theorem satisfies_bare (d required : Distribution) :
    d.bare.satisfies required.bare = d.satisfies required := by
  unfold satisfies
  rw [beq_bare]
  congr 1
  cases d <;> cases required <;> simp [bare, hashesWithin_bare, isPartitioned]

/-- A distribution is good enough for itself. -/
@[simp] theorem satisfies_refl (d : Distribution) : d.satisfies d = true := by
  have : (d == d) = true := beq_iff_bare.2 rfl
  simp [satisfies, this]

end Distribution

namespace SortOrder

/-- What matching ignores does not count for whether a sort order is good enough. -/
theorem satisfies_bare (o required : SortOrder) :
    o.bare.satisfies required.bare = o.satisfies required := by
  have same (k l : SortKey) : (k.bare == l.bare) = (k == l) := by
    rw [Bool.eq_iff_iff, SortKey.beq_iff_bare, SortKey.beq_iff_bare]
    exact Iff.rfl
  simp [satisfies, bare, List.zip_map, List.all_map, Function.comp_def, same]

/-- A sort order is good enough for itself. -/
@[simp] theorem satisfies_refl (o : SortOrder) : o.satisfies o = true := by
  have self (k : SortKey) : (k == k) = true := SortKey.beq_iff_bare.2 rfl
  have all (ks : List SortKey) : ((ks.zip ks).all fun pair => pair.1 == pair.2) = true := by
    induction ks with
    | nil => rfl
    | cons k ks ih => simp only [List.zip_cons_cons, List.all_cons, self, ih, Bool.and_self]
  simp only [satisfies, Nat.le_refl, decide_true, Bool.true_and, all]

end SortOrder

namespace PhysicalProperty

/-- The property with nothing but the ids of its columns. -/
def bare (p : PhysicalProperty) : PhysicalProperty :=
  ⟨p.distribution.bare, p.order.bare⟩

/-- Properties match when they are equal without what matching ignores. -/
theorem beq_iff_bare {p q : PhysicalProperty} : (p == q) = true ↔ p.bare = q.bare := by
  cases p; cases q
  change (_ && _) = true ↔ _
  simp only [Bool.and_eq_true, Distribution.beq_iff_bare,
    SortOrder.beq_iff_bare, bare, mk.injEq]

/-- What matching ignores does not count for whether a property is good enough. -/
theorem satisfies_bare (p required : PhysicalProperty) :
    p.bare.satisfies required.bare = p.satisfies required := by
  simp only [satisfies, bare, Distribution.satisfies_bare, SortOrder.satisfies_bare]

/-- Properties that match are good enough for one another's requirements alike. -/
theorem satisfies_congr {p p' q q' : PhysicalProperty} (hp : p.bare = p'.bare)
    (hq : q.bare = q'.bare) : p.satisfies q = p'.satisfies q' := by
  rw [← satisfies_bare p, ← satisfies_bare p', hp, hq]

/-- A property is good enough for itself. -/
@[simp] theorem satisfies_refl (p : PhysicalProperty) : p.satisfies p = true := by
  simp [satisfies]

/-- A property is good enough for its distribution in any order. -/
theorem satisfies_ofDistribution (p : PhysicalProperty) :
    p.satisfies (.ofDistribution p.distribution) = true := by
  simp [satisfies, ofDistribution, SortOrder.satisfies]

/-- Every property is good enough when nothing is required. -/
theorem satisfies_any (p : PhysicalProperty) : p.satisfies .any = true := by
  simp [satisfies, any, SortOrder.satisfies, Distribution.satisfies]

end PhysicalProperty

/-! ### Operators -/

namespace PhysicalOperator

/-- What an operator over inputs with the columns `outs` delivers, and what it
requires for that. -/
inductive Delivers (op : PhysicalOperator) (outs : List ColumnSet) :
    PhysicalProperty → List PhysicalProperty → Prop
  | alternative {required : PhysicalProperty} {as : List Alternative} {a : Alternative}
      (listed : op.alternatives required outs = .ok as) (mem : a ∈ as) :
      Delivers op outs a.delivers a.requires
  | motion {m : Motion} (h : op = .motion m) (below : PhysicalProperty) :
      Delivers op outs (.ofDistribution m.target) [below]
  | sort {o : SortOrder} (h : op = .sort o) (below : PhysicalProperty) :
      Delivers op outs { below with order := o } [below]

/-- Whether an operator meets a requirement if its inputs meet those in the list. -/
def Meets (op : PhysicalOperator) (outs : List ColumnSet) (p : PhysicalProperty)
    (requires : List PhysicalProperty) : Prop :=
  ∃ d, op.Delivers outs d requires ∧ d.satisfies p = true

/-- An operator meets matching properties alike. -/
theorem Meets.congr {op : PhysicalOperator} {outs : List ColumnSet} {p q : PhysicalProperty}
    {requires : List PhysicalProperty} (h : op.Meets outs p requires)
    (same : (p == q) = true) :
    op.Meets outs q requires := by
  obtain ⟨d, delivers, good⟩ := h
  exact ⟨d, delivers, by
    rwa [← PhysicalProperty.satisfies_congr rfl (PhysicalProperty.beq_iff_bare.1 same)]⟩

end PhysicalOperator

/-! ### Enforcers -/

namespace Enforcer

/-- Whether an enforcer, or any operator that equals it, delivers its property on
top of another one. -/
def StandsOn (e : Enforcer) (below : PhysicalProperty) : Prop :=
  ∀ op : PhysicalOperator, (op == e.operator) = true →
    ∀ outs p, e.delivers.satisfies p = true → op.Meets outs p [below]

/-- Whether enforcers stand on one another, and the last one meets a requirement. -/
def Chain (required : PhysicalProperty) : PhysicalProperty → List Enforcer → Prop
  | _, [] => True
  | below, e :: es =>
    e.StandsOn below ∧ (es = [] → e.delivers.satisfies required = true) ∧
      Chain required e.delivers es

/-- A sort delivers its order on top of any property. -/
theorem standsOn_sort (o : SortOrder) (below : PhysicalProperty) :
    StandsOn ⟨.sort o, { below with order := o }⟩ below := by
  intro op same outs p good
  cases op with
  | sort o' =>
    have order : o'.bare = o.bare := SortOrder.beq_iff_bare.1 same
    refine ⟨_, .sort rfl below, ?_⟩
    rw [← good]
    exact PhysicalProperty.satisfies_congr (by simp [PhysicalProperty.bare, order]) rfl
  | _ => cases same

/-- A motion delivers its distribution on top of any property. -/
theorem standsOn_motion (m : Motion) (below : PhysicalProperty) :
    StandsOn ⟨.motion m, .ofDistribution m.target⟩ below := by
  intro op same outs p good
  cases op with
  | motion m' =>
    have target : m'.target.bare = m.target.bare := Distribution.beq_iff_bare.1 same
    refine ⟨_, .motion rfl below, ?_⟩
    rw [← good]
    exact PhysicalProperty.satisfies_congr
      (by simp [PhysicalProperty.bare, PhysicalProperty.ofDistribution, target]) rfl
  | _ => cases same

end Enforcer

namespace PhysicalProperty

open Enforcer

/-- The sort that is missing leads to the requirement if the distribution is good enough. -/
theorem chain_sortEnforcers {required current : PhysicalProperty}
    (good : current.distribution.satisfies required.distribution = true) :
    Chain required current (required.sortEnforcers current) := by
  unfold sortEnforcers
  split
  · trivial
  · exact ⟨standsOn_sort _ current, fun _ => by simp [satisfies, good], trivial⟩

/-- The motion for a distribution leads to it. -/
theorem target_of_motion? {d : Distribution} {flags : TraceFlags} {m : Motion}
    (h : d.motion? flags = some m) : m.target = d := by
  have toward : Motion.toward? d = some m := by
    simp only [Distribution.motion?] at h
    split at h
    · cases h
    · obtain ⟨m', hm', kept⟩ := Option.bind_eq_some_iff.1 h
      rw [hm']
      split at kept <;> (try split at kept) <;> first | exact kept | cases kept
  unfold Motion.toward? at toward
  split at toward
  · cases toward
    rfl
  · cases toward

/-- Each enforcer delivers its property on top of what is below it, and the last one meets the
requirement. -/
theorem chain_enforcers (required delivered : PhysicalProperty) (flags : TraceFlags) :
    Chain required delivered (required.enforcers delivered flags) := by
  unfold enforcers
  split
  · rename_i good
    exact chain_sortEnforcers good
  · cases found : required.distribution.motion? flags with
    | none => trivial
    | some m =>
      have target : StandsOn ⟨.motion m, .ofDistribution required.distribution⟩ delivered :=
        target_of_motion? found ▸ standsOn_motion m delivered
      refine ⟨target, fun last => ?_, chain_sortEnforcers (Distribution.satisfies_refl _)⟩
      unfold sortEnforcers at last
      split at last
      · rename_i sorted
        simpa [satisfies, ofDistribution] using sorted
      · cases last

/-- What is listed to lead to a requirement is an enforcer. -/
theorem isEnforcer_of_mem_enforcers {required delivered : PhysicalProperty}
    {flags : TraceFlags} {e : Enforcer} (h : e ∈ required.enforcers delivered flags) :
    e.operator.isEnforcer = true := by
  have sorts {current : PhysicalProperty} (he : e ∈ required.sortEnforcers current) :
      e.operator.isEnforcer = true := by
    unfold sortEnforcers at he
    split at he
    · cases he
    · obtain rfl := List.mem_singleton.1 he
      rfl
  unfold enforcers at h
  split at h
  · exact sorts h
  · split at h
    · cases h
    · rcases List.mem_cons.1 h with rfl | h
      · rfl
      · exact sorts h

end PhysicalProperty

end QueryOptimizer
