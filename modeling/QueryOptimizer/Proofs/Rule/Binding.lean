import QueryOptimizer.Proofs.Memo.Outline
import QueryOptimizer.Proofs.Result
import QueryOptimizer.Rule.Binding

/-!
# Bindings are read from the memo

What the trees that bind a pattern look like: expressions of the memo with accepted operators,
over groups. A binding stays one while the memo grows.

## Main results

* `Memo.binds_of_mem_bindings`: a binding has the shape of its pattern.
* `Memo.Binds.extends`: it keeps that shape in every larger memo.
-/

namespace QueryOptimizer

variable {K : Type}

namespace Memo

mutual

/-- Whether a tree of expressions of a memo has the shape of a pattern. -/
def Binds (m : Memo K) : Pattern → ExprTree → Prop
  | .group, t => ∃ id, t = .group id ∧ id < m.groups.size
  | .leaf accepts, t => ∃ id k,
      t = .expr id (k.inputs.map .group) ∧ m.key? id = some k ∧ accepts k.operator = true
  | .node accepts patterns, t => ∃ id k ts, t = .expr id ts ∧ m.key? id = some k ∧
      accepts k.operator = true ∧ m.BindsAll patterns k.inputs ts
termination_by structural p => p

/-- Whether trees from some groups have the shapes of patterns. -/
def BindsAll (m : Memo K) : List Pattern → List GroupId → List ExprTree → Prop
  | [], ids, ts => ids = [] ∧ ts = []
  | p :: ps, ids, ts => ∃ id rest t others, ids = id :: rest ∧ ts = t :: others ∧
      t.rootGroup = .ok id ∧ m.Binds p t ∧ m.BindsAll ps rest others
termination_by structural ps => ps

end

/-- An expression that passes a test is at one of the given places. -/
theorem mem_exprsWhere {m : Memo K} {ids : List ExprId} {p : Expr K → Bool} {id : ExprId}
    {e : Expr K} (h : (id, e) ∈ m.exprsWhere ids p) :
    id ∈ ids ∧ m.expr id = .ok e ∧ p e = true := by
  obtain ⟨id', hid, h⟩ := List.mem_filterMap.1 h
  cases he : m.expr id' with
  | error _ => simp [he] at h
  | ok e' =>
    simp only [he] at h
    split at h
    · obtain ⟨rfl, rfl⟩ := Prod.mk.inj (Option.some.inj h)
      exact ⟨hid, he, ‹_›⟩
    · cases h

/-- The logical places of a group are in it, and it is in the memo. -/
theorem group_of_mem_logicalPlaces {m : Memo K} {g : GroupId} {id : ExprId}
    (h : id ∈ m.logicalPlaces g) : id.group = g ∧ g < m.groups.size := by
  unfold logicalPlaces at h
  cases hg : m.groups[g]? with
  | none => simp [hg] at h
  | some group =>
    rw [hg] at h
    exact ⟨((mem_placesOf (group_eq_ok.2 hg)).1 h).1, (Array.getElem?_eq_some_iff.1 hg).1⟩

mutual

/-- What is bound at places of a group is a binding of the pattern with
that group as its root. -/
theorem binds_of_mem_bindAt {m : Memo K} : ∀ {p : Pattern} {ids : List ExprId} {t : ExprTree}
    {g : GroupId}, t ∈ m.bindAt p ids → (∀ id ∈ ids, id.group = g ∧ g < m.groups.size) →
    t.rootGroup = .ok g ∧ m.Binds p t
  | .group, ids, t, g, h, places => by
    simp only [bindAt, Option.mem_toList, Option.map_eq_some_iff] at h
    obtain ⟨id, hid, rfl⟩ := h
    obtain ⟨rfl, inside⟩ := places id (List.mem_of_head? hid)
    exact ⟨rfl, by simp only [Binds]; exact ⟨_, rfl, inside⟩⟩
  | .leaf accepts, ids, t, g, h, places => by
    simp only [bindAt, List.mem_map] at h
    obtain ⟨⟨id, e⟩, he, rfl⟩ := h
    obtain ⟨hid, he, accepted⟩ := mem_exprsWhere he
    obtain ⟨rfl, -⟩ := places id hid
    refine ⟨rfl, ?_⟩
    simp only [Binds]
    exact ⟨id, e.toExprKey, rfl, key?_of_expr he, accepted⟩
  | .node accepts patterns, ids, t, g, h, places => by
    simp only [bindAt, List.mem_flatMap, List.mem_map] at h
    obtain ⟨⟨id, e⟩, he, ts, hts, rfl⟩ := h
    obtain ⟨hid, he, accepted⟩ := mem_exprsWhere he
    obtain ⟨accepted, length⟩ := Bool.and_eq_true_iff.1 accepted
    obtain ⟨rfl, -⟩ := places id hid
    refine ⟨rfl, ?_⟩
    simp only [Binds]
    exact ⟨id, e.toExprKey, ts, rfl, key?_of_expr he, accepted,
      bindsAll_of_mem_bindInputs hts (beq_iff_eq.1 length)⟩

/-- What is bound below is a binding of each pattern. -/
theorem bindsAll_of_mem_bindInputs {m : Memo K} : ∀ {ps : List Pattern} {ids : List GroupId}
    {ts : List ExprTree}, ts ∈ m.bindInputs ps ids → ps.length = ids.length →
    m.BindsAll ps ids ts
  | [], ids, ts, h, length => by
    simp only [bindInputs, List.mem_singleton] at h
    simp only [BindsAll]
    exact ⟨List.length_eq_zero_iff.1 length.symm, h⟩
  | p :: ps, ids, ts, h, length => by
    obtain ⟨id, rest, rfl⟩ := List.exists_cons_of_length_eq_add_one length.symm
    simp only [bindInputs, List.mem_flatMap, List.mem_map] at h
    obtain ⟨t, ht, others, hothers, rfl⟩ := h
    obtain ⟨root, binds⟩ := binds_of_mem_bindAt (g := id) ht fun place hp =>
      group_of_mem_logicalPlaces hp
    simp only [BindsAll]
    exact ⟨id, rest, t, others, rfl, rfl, root, binds,
      bindsAll_of_mem_bindInputs hothers (by simpa using length)⟩

end

/-- A binding at an expression has the shape of the pattern and belongs to the group of the
expression. -/
theorem binds_of_mem_bindings {m : Memo K} {p : Pattern} {id : ExprId} {e : Expr K}
    (he : m.expr id = .ok e) {t : ExprTree} (h : t ∈ m.bindings p id) :
    t.rootGroup = .ok id.group ∧ m.Binds p t := by
  refine binds_of_mem_bindAt h fun place hp => ?_
  obtain rfl := List.mem_singleton.1 hp
  exact ⟨rfl, lt_of_key? (key?_of_expr he)⟩

/-- A binding at an expression is a tree of this expression, unless the pattern
looks at no expression. -/
theorem eq_expr_of_mem_bindings {m : Memo K} {p : Pattern} {id : ExprId} {t : ExprTree}
    (h : t ∈ m.bindings p id) : t = .group id.group ∨ ∃ ts, t = .expr id ts := by
  cases p with
  | group => exact .inl (List.mem_singleton.1 h)
  | leaf accepts =>
    simp only [bindings, bindAt, List.mem_map] at h
    obtain ⟨⟨id', e⟩, he, rfl⟩ := h
    obtain rfl := List.mem_singleton.1 (mem_exprsWhere he).1
    exact .inr ⟨_, rfl⟩
  | node accepts patterns =>
    simp only [bindings, bindAt, List.mem_flatMap, List.mem_map] at h
    obtain ⟨⟨id', e⟩, he, ts, -, rfl⟩ := h
    obtain rfl := List.mem_singleton.1 (mem_exprsWhere he).1
    exact .inr ⟨_, rfl⟩

mutual

/-- A tree keeps its shape while the memo grows. -/
theorem Binds.extends {m m' : Memo K} (extended : m.Extends m') :
    ∀ {p : Pattern} {t : ExprTree}, m.Binds p t → m'.Binds p t
  | .group, t, h => by
    simp only [Binds] at h ⊢
    obtain ⟨id, rfl, inside⟩ := h
    exact ⟨id, rfl, Nat.lt_of_lt_of_le inside extended.size_le⟩
  | .leaf accepts, t, h => by
    simp only [Binds] at h ⊢
    obtain ⟨id, k, rfl, hk, accepted⟩ := h
    exact ⟨id, k, rfl, extended.key id k hk, accepted⟩
  | .node accepts patterns, t, h => by
    simp only [Binds] at h ⊢
    obtain ⟨id, k, ts, rfl, hk, accepted, below⟩ := h
    exact ⟨id, k, ts, rfl, extended.key id k hk, accepted, BindsAll.extends extended below⟩

/-- Bindings stay so when the memo grows. -/
theorem BindsAll.extends {m m' : Memo K} (extended : m.Extends m') :
    ∀ {ps : List Pattern} {ids : List GroupId} {ts : List ExprTree},
      m.BindsAll ps ids ts → m'.BindsAll ps ids ts
  | [], ids, ts, h => by simpa only [BindsAll] using h
  | p :: ps, ids, ts, h => by
    simp only [BindsAll] at h ⊢
    obtain ⟨id, rest, t, others, rfl, rfl, root, binds, below⟩ := h
    exact ⟨id, rest, t, others, rfl, rfl, root, Binds.extends extended binds,
      BindsAll.extends extended below⟩

end

end Memo

end QueryOptimizer
