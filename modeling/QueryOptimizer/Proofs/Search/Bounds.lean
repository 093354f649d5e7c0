import QueryOptimizer.Proofs.Derivation.Bounded
import QueryOptimizer.Proofs.Search.Constraints

/-!
# Derived bounds are right about row counts

A group has at most as many rows as its derived bound says, and none if its bound is zero or
its statistics are marked empty, in every memo that the search can reach from a plan. Stored
tables have at most as many rows as their statistics say.

## Main results

* `Memo.Reached.card_le_rowBound`: bounds and emptiness of groups.
-/

namespace QueryOptimizer

variable {K : Type} [Quantity K]

/-! ### Operators that rules make -/

/-- Rules make no operators that read stored rows. -/
theorem RuleClosed.respectsCounts (db : Database) (catalog : Catalog K) :
    RuleClosed (LogicalOperator.RespectsCounts db catalog) :=
  .of_ofRule fun _ made => by cases made <;> trivial

/-! ### Groups -/

/-- Derived bounds and constraints are right about rows. A contradiction is a bound, too. -/
def Analysis.bounds {env : Environment K} {I : Interpretation}
    (truthful : env.catalog.Truthful I) (mirrored : I.Mirrored) (db : Database)
    (Γ : Nat → DataType) {D : Domains} (le : D ≤ .ofTypes Γ) (producers : Nat → Set Scope) :
    Analysis env I db where
  admits op := (op.StaysWithin I db D ∧ op.WellTyped Γ ∧ op.RespectsColumns db producers) ∧
    op.RespectsCounts db env.catalog
  describes r m := r.Constrained Γ D m ∧ r.Bounded D m
  shares id info := CteInfo.Constrained db Γ D producers id info ∧ CteInfo.Bounded db D id info
  closed := (Analysis.constraints truthful mirrored db Γ le producers).closed.and
    (RuleClosed.respectsCounts db env.catalog)
  output known := known.1.produces
  derive {op ctes rels ms r} admits scope sound rels' shared derived := by
    have constrained := (Analysis.constraints truthful mirrored db Γ le producers).derive
      admits.1 scope sound (rels'.imp fun _ _ => And.left)
      (fun entry hentry => (shared entry hentry).1) derived
    refine ⟨constrained, ?_⟩
    refine LogicalOperator.bounded_of_derive truthful mirrored le scope.fits admits.1.1
      admits.1.2.1 admits.2 (fun m hm => ?_) (rels'.imp fun _ _ => And.right)
      (fun entry hentry => (shared entry hentry).2)
      (LogicalOperator.derived_of_eq_ok derived) constrained
    obtain ⟨r, -, known⟩ := exists_of_mem_right rels' hm
    exact known.1.within

namespace Plan

variable {catalog : Catalog K} {I : Interpretation} {db : Database}
  {Γ : Nat → DataType} {D : Domains}
  {p : Plan K}

/-- Whether besides stored tables have at most as many rows as their statistics say. -/
structure RespectsCounts (catalog : Catalog K) (I : Interpretation) (db : Database)
    (Γ : Nat → DataType) (D : Domains) (p : Plan K) :
    Prop extends p.RespectsTypes I db Γ D where
  counts : ∀ q ∈ p.nodes, ∀ op, q.operator = .logical op → op.RespectsCounts db catalog

/-- A plan that respects counts is covered by the analysis of bounds. -/
theorem RespectsCounts.covers {env : Environment K} (h : p.RespectsCounts env.catalog I db Γ D)
    (wf : p.WellFormed) (truthful : env.catalog.Truthful I) (mirrored : I.Mirrored)
    (le : D ≤ .ofTypes Γ) :
    (Analysis.bounds truthful mirrored db Γ le p.producersOf).Covers p where
  wellFormed := wf
  admits q hq op hop := ⟨⟨h.within q hq op hop, h.typed q hq op hop, h.columns q hq op hop⟩,
    h.counts q hq op hop⟩
  registers q hq c hc _ known :=
    ⟨h.toRespectsTypes.constrained hq hc known.1,
      { rows := fun row hrow => known.2.rows row hrow _ (h.shares q hq c hc row)
        empty := fun none row hrow => known.2.empty none row hrow _ (h.shares q hq c hc row) }⟩

end Plan

namespace Memo

variable {env : Environment K} {I : Interpretation}

/-- In every memo that a search can reach, whichever rules are enabled, there are plans for
every group, and none of them results in more rows than the bound that is derived for the
group, as long as the rows can be counted in 64 bits. Where the bound is zero the statistics
are empty, and where the bound is zero or the statistics are empty there are no rows. -/
theorem Reached.card_le_rowBound (truthful : env.catalog.Truthful I) (mirrored : I.Mirrored)
    (db : Database) {Γ : Nat → DataType} {D : Domains} (le : D ≤ .ofTypes Γ) {plan : Plan K}
    (wf : plan.WellFormed) (respects : plan.RespectsCounts env.catalog I db Γ D)
    {m m' : Memo K} (loaded : Memo.ofPlan env plan = .ok m) (reached : Reached env m m') :
    ∀ id r, m'.relation? id = some r → (∃ p, m'.Holds id p) ∧
      (r.property.rowBound.isZero = true → r.statistics.isEmpty = true) ∧
      ∀ p, m'.Holds id p → ∀ row : Row, row.Within D → ∀ bag ∈ (p.meaning I db).results row,
        (bag.card ≤ RowBound.maximum →
          ∀ n, r.property.rowBound.limit? = some n → bag.card ≤ n) ∧
        (r.statistics.isEmpty = true → bag = 0) ∧
          (r.property.rowBound.isZero = true → bag = 0) := by
  intro id r hr
  obtain ⟨⟨p, held⟩, described⟩ :=
    reached.described (respects.covers wf truthful mirrored le) loaded hr
  refine ⟨⟨p, held⟩, (described p held).2.zero, fun p held row hrow bag hbag => ?_⟩
  obtain ⟨-, bounded⟩ := described p held
  have rows : r.property.rowBound.Bounds bag.card := bounded.rows row hrow bag hbag
  exact ⟨fun counted n bound => rows.le counted bound, fun empty =>
    bounded.empty empty row hrow bag hbag, fun zero =>
      Multiset.card_eq_zero.1 (rows.eq_zero zero)⟩

end Memo

/-! ### An example -/

namespace Sample

/-- The sample respects counts. -/
theorem respectsCounts_plan :
    plan.RespectsCounts setting.catalog .strict contents (fun _ => .integer .int64)
      wholeNumbers where
  toRespectsTypes := respectsTypes_plan
  counts := by
    simp only [mem_nodes_plan]
    rintro q (rfl | rfl | rfl) op hop <;> cases hop
    · trivial
    · intro stats recorded
      obtain rfl := Except.ok.inj recorded
      decide +kernel
    · trivial

end Sample

namespace Memo

open Sample in
/-- The search for a join with a list of numbers: no group has more rows
than its bound says. -/
theorem card_le_rowBound_sample : ∃ m, Memo.ofPlan setting plan = .ok m ∧
    ∀ id r, (optimize setting 1000 .any Stage.defaults m).memo.relation? id = some r →
      (∃ p, (optimize setting 1000 .any Stage.defaults m).memo.Holds id p) ∧
      (r.property.rowBound.isZero = true → r.statistics.isEmpty = true) ∧
      ∀ p, (optimize setting 1000 .any Stage.defaults m).memo.Holds id p →
        ∀ row : Row, row.Within wholeNumbers →
          ∀ bag ∈ (p.meaning .strict contents).results row,
          (bag.card ≤ RowBound.maximum →
            ∀ n, r.property.rowBound.limit? = some n → bag.card ≤ n) ∧
          (r.statistics.isEmpty = true → bag = 0) ∧
            (r.property.rowBound.isZero = true → bag = 0) := by
  obtain ⟨m, loaded⟩ := exists_ofPlan
  exact ⟨m, loaded,
    Reached.card_le_rowBound (fun _ _ _ _ _ _ _ _ => rfl) (fun _ _ _ _ _ _ => rfl) contents
    le_rfl wellFormed respectsCounts_plan loaded (reached_optimize 1000 .any Stage.defaults m)⟩

end Memo

end QueryOptimizer
