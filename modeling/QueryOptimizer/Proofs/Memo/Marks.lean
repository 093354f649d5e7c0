import QueryOptimizer.Proofs.Memo.Outline

/-!
# Marks of applied rules

An expression is marked with the rules that have been applied to it. Only the application of a
rule sets a mark, and nothing takes one away: entering expressions, offering winners and
starting a new search leave all marks as they are.

## Main results

* `Memo.marks_mark`: applying a rule marks one expression.
-/

namespace QueryOptimizer

variable {K : Type}

namespace Memo

variable {m m' : Memo K} {place : ExprId} {key : ExprKey}

/-- The rules that have been applied to the expression at a place. -/
def marks (m : Memo K) (id : ExprId) : List RuleId :=
  (m.groups[id.group]?.bind fun g => g.exprs[id.index]?).elim [] (·.applied.ids)

/-- The marks of an expression that is found. -/
theorem marks_of_expr {id : ExprId} {e : Expr K} (h : m.expr id = .ok e) :
    m.marks id = e.applied.ids := by
  obtain ⟨g, hg, he⟩ := expr_eq_ok.1 h
  simp [marks, hg, he]

/-- A change to a group that keeps the marks of its expressions keeps those of the memo. -/
theorem marks_modifyGroup (m : Memo K) (id : GroupId) {f : Group K → Group K}
    (kept : ∀ (g : Group K) (i : Nat), (f g).exprs[i]?.elim [] (·.applied.ids) =
      (g.exprs[i]?.elim [] (·.applied.ids) : List RuleId)) (place : ExprId) :
    (m.modifyGroup id f).marks place = m.marks place := by
  simp only [marks, modifyGroup, Array.getElem?_modify]
  split
  · cases m.groups[place.group]? with
    | none => rfl
    | some g => exact kept g place.index
  · rfl

/-- Marking the expression at a place. -/
theorem marks_mark {id : ExprId} {e : Expr K} (h : m.expr id = .ok e) (rule : RuleId)
    (place : ExprId) :
    (m.modifyExpr id fun e => { e with applied := ⟨rule :: e.applied.ids⟩ }).marks place =
      if place = id then rule :: m.marks id else m.marks place := by
  obtain ⟨g, hg, he⟩ := expr_eq_ok.1 h
  obtain ⟨group, index⟩ := id
  obtain ⟨group', index'⟩ := place
  simp only [modifyExpr, marks, modifyGroup, Array.getElem?_modify, ExprId.mk.injEq]
  by_cases hgroup : group' = group
  · subst hgroup
    by_cases hindex : index' = index
    · subst hindex
      simp [hg, he, Array.getElem?_modify]
    · simp [hg, Array.getElem?_modify, hindex, Ne.symm hindex]
  · simp [hgroup, Ne.symm hgroup]

/-- A new expression has no marks, and the others keep theirs. -/
theorem marks_addExpr {id : GroupId}
    (added : m.addExpr id key = .ok (m', place)) (i : ExprId) :
    m'.marks i = m.marks i := by
  obtain ⟨g, hg, rfl, rfl⟩ := addExpr_eq_ok added
  obtain ⟨group, index⟩ := i
  simp only [marks, modifyGroup, Array.getElem?_modify]
  split
  · rename_i same
    subst same
    rw [hg]
    by_cases last : index = g.exprs.size
    · simp [last]
    · simp [last, Array.getElem?_push]
  · rfl

/-- A new group has no marks. -/
theorem marks_addGroup (m : Memo K) (op : LogicalOperator)
    (relation : Relation K) (i : ExprId) :
    (m.addGroup op relation).marks i = m.marks i := by
  simp only [marks, addGroup, Array.getElem?_push]
  split
  · rename_i new
    simp [new]
  · rfl

/-- An offer marks nothing. -/
theorem marks_offer [Quantity K] (m : Memo K) (id : ExprId) (p : PhysicalProperty)
    (d : Delivery K) (i : ExprId) : (m.offer id p d).marks i = m.marks i := by
  have delivered : (m.modifyExpr id fun e =>
      { e with deliveries := e.deliveries.offer Delivery.cost p d }).marks i = m.marks i := by
    refine marks_modifyGroup m id.group (fun g j => ?_) i
    simp only [Array.getElem?_modify]
    split
    · cases g.exprs[j]? <;> rfl
    · rfl
  have won (m : Memo K) : (m.modifyGroup id.group fun g =>
      { g with winners := g.winners.offer Winner.cost p ⟨d.cost, id⟩ }).marks
          i = m.marks i := by
    refine marks_modifyGroup m id.group (fun g j => ?_) i
    rfl
  exact (won _).trans delivered

/-- A reset keeps all marks. -/
@[simp] theorem marks_reset (m : Memo K) (i : ExprId) : m.reset.marks i = m.marks i := by
  simp only [marks, reset, Array.getElem?_map]
  cases m.groups[i.group]? with
  | none => rfl
  | some g => cases he : g.exprs[i.index]? <;> simp [Group.reset, he, Expr.reset]

end Memo

end QueryOptimizer
