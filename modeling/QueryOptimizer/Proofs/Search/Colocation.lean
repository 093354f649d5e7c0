import QueryOptimizer.Proofs.Delivery.Hashed
import QueryOptimizer.Proofs.Plan.Loading
import QueryOptimizer.Proofs.Search.Delivery

/-!
# Colocation

A hash join and a hash set operation have to bring together the rows of their inputs that agree
on their keys. What they require of each input is that its rows are hashed on the keys. An
input may meet that by being hashed on some of the keys only, and each input is looked at by
itself. So rows that agree meet exactly if both inputs happen to be hashed on linked columns.

## Main results

* `Plan.placed_of_delivers`: what decides about the place of the rows of a plan are columns
  that it was required to be hashed on.
* `Memo.meet_iff_of_optimize`: rows that agree on the keys of a hash join or a hash set
  operation are on one segment exactly if its inputs are hashed on linked columns.
-/

namespace QueryOptimizer

variable {K : Type}

/-- Rows that agree on keys agree on columns among them. -/
theorem Row.tuple_eq_of_contains {x y : Row} {cs keys : List Column}
    (same : x.tuple keys = y.tuple keys) (within : ∀ c ∈ cs, keys.contains c = true) :
    x.tuple cs = y.tuple cs := by
  refine List.map_congr_left fun c hc => ?_
  obtain ⟨k, hk, equal⟩ := List.contains_iff_exists_mem_beq.1 (within c hc)
  rw [Column.beq_iff.1 equal]
  exact List.map_inj_left.1 same k hk

namespace SetOperation

/-- Whichever inputs contribute, a map of the inputs does not count for it. -/
theorem contributing_map {α β : Type} (s : SetOperation) (g : α → β) (inputs : List α) :
    s.contributing (inputs.map g) = (s.contributing inputs).map fun x => (g x.1, x.2) := by
  have zip :
      (inputs.map g).zip s.inputs = (inputs.zip s.inputs).map fun x => (g x.1, x.2) := by
    rw [List.zip_map_left]
    rfl
  unfold contributing
  rw [zip]
  cases s.kind <;> simp [List.filter_map, Function.comp_def, ← List.map_take]

/-- An input that contributes has a column for each column of the result. -/
theorem of_mem_contributing {α : Type} {s : SetOperation} {inputs : List α}
    {x : α × List Column} (h : x ∈ s.contributing inputs) :
    x.2.length = s.output.length ∧ ∃ k : Nat, inputs[k]? = some x.1 ∧
      s.inputs[k]? = some x.2 := by
  obtain ⟨mem, lengths⟩ := List.mem_filter.1 h
  have mem : x ∈ inputs.zip s.inputs := by
    split at mem
    · exact mem
    · exact mem
    all_goals exact List.mem_of_mem_take mem
  obtain ⟨k, hk⟩ := List.mem_iff_getElem?.1 mem
  exact ⟨beq_iff_eq.1 lengths, k, List.getElem?_zip_eq_some.1 hk⟩

end SetOperation

namespace Plan

/-- Whether the place of each row of a plan is decided by some of the given columns. -/
structure HashedWithin (q : Plan K) (cols : List Column) : Prop where
  hashedBy : Placement.HashedBy q.place q.hashings
  within : ∀ cs ∈ q.hashings, ∀ c ∈ cs, cols.contains c = true

/-- Whether the rows of a plan are placed as a distribution says, if that is a hashed one. -/
def Placed (q : Plan K) (d : Distribution) : Prop :=
  ∀ cols, d.hashing? = some cols → q.HashedWithin cols

/-- A plan that is placed as a distribution says is placed as a weaker one says. -/
theorem Placed.of_satisfies {q : Plan K} {d required : Distribution} (h : q.Placed d)
    (good : d.satisfies required = true) : q.Placed required := by
  intro cols hcols
  obtain ⟨cs, hcs, some⟩ := Distribution.hashing?_of_satisfies good hcols
  obtain ⟨hashedBy, within⟩ := h cs hcs
  refine ⟨hashedBy, fun ds hds d hd => ?_⟩
  obtain ⟨c, hc, equal⟩ := List.contains_iff_exists_mem_beq.1 (within ds hds d hd)
  rw [List.contains_congr equal]
  exact some c hc

section

variable {q : Plan K} {op : PhysicalOperator} {cols : List Column}

/-- An operator that places rows by a hash is hashed on its columns. -/
theorem hashedWithin_of_source (hop : q.operator = .physical op) {d : Distribution}
    (place : ∀ f ps, op.place f ps = d.placement f)
    (hashings : ∀ hs, op.hashings hs = d.hashing?.toList) (hashed : d.hashing? = some cols) :
    q.HashedWithin cols where
  hashedBy f r s := by
    rw [place_of_physical hop, place, Distribution.placement_of_hashing? hashed,
      hashings_of_physical hop, hashings, hashed]
    simp
  within cs hcs c hc := by
    rw [hashings_of_physical hop, hashings, hashed, Option.toList_some,
      List.mem_singleton] at hcs
    subst hcs
    exact List.contains_iff_exists_mem_beq.2 ⟨c, hc, BEq.rfl⟩

/-- An operator that leaves rows where they are is hashed as its input is. -/
theorem hashedWithin_of_forwards (hop : q.operator = .physical op)
    (place : ∀ f ps, op.place f ps = ps.headD fun _ _ => False)
    (hashings : ∀ hs, op.hashings hs = hs.headD [])
    (below : ∀ p, q.inputs[0]? = some p → p.HashedWithin cols) : q.HashedWithin cols := by
  have hashings := (hashings_of_physical hop).trans (hashings _)
  have place (f : HashFunction) := (place_of_physical hop f).trans (place f _)
  cases h : q.inputs with
  | nil =>
    rw [h] at hashings place
    exact ⟨fun f r s => by rw [place, hashings]; simp, by simp [hashings]⟩
  | cons p ps =>
    obtain ⟨hashedBy, within⟩ := below p (by rw [h]; rfl)
    rw [h] at hashings place
    exact ⟨fun f r s => by rw [place, hashings]; exact hashedBy f r s, by rwa [hashings]⟩

/-- The rows of a group were hashed on some of the keys, which are the same in all of them. -/
theorem hashedWithin_of_groups {g : Grouping} (hop : q.operator = .physical (.hashAggregate g))
    (below : ∀ p, q.inputs[0]? = some p → p.HashedWithin g.keys) : q.HashedWithin g.keys := by
  have hashings := hashings_of_physical hop
  have place := place_of_physical hop
  cases h : q.inputs with
  | nil =>
    rw [h] at hashings place
    refine ⟨fun f r s => ?_, by simp [hashings, PhysicalOperator.hashings]⟩
    rw [place, hashings]
    simp [PhysicalOperator.place, PhysicalOperator.hashings]
  | cons p ps =>
    obtain ⟨hashedBy, within⟩ := below p (by rw [h]; rfl)
    rw [h] at hashings place
    refine ⟨fun f r s => ?_, by rw [hashings]; exact within⟩
    rw [place, hashings]
    constructor
    · rintro ⟨x, same, hx⟩
      obtain ⟨cs, hcs, rfl⟩ := (hashedBy f x s).1 hx
      exact ⟨cs, hcs, congrArg f (Row.tuple_eq_of_contains same (within cs hcs))⟩
    · exact fun placed => ⟨r, rfl, (hashedBy f r s).2 placed⟩

/-- The rows of each input were hashed on some of its columns, for which columns of
the result stand in. -/
theorem hashedWithin_of_combines {o : SetOperation}
    (hop : q.operator = .physical (.hashSetOp o))
    (below : ∀ (k : Nat) (p : Plan K) cs, q.inputs[k]? = some p → o.inputs[k]? = some cs →
      p.HashedWithin cs) : q.HashedWithin o.output where
  hashedBy f r s := by
    have each (x : Plan K × List Column) (hx : x ∈ o.contributing q.inputs) :
        x.1.place f (r.under (o.renaming x.2)) s ↔
          ∃ cs ∈ x.1.hashings.map (·.map (o.renaming x.2).substitute), s = f (r.tuple cs) := by
      obtain ⟨-, k, hp, hcs⟩ := SetOperation.of_mem_contributing hx
      rw [(below k _ _ hp hcs).hashedBy]
      simp only [List.mem_map, exists_exists_and_eq_and, Row.tuple_under]
    rw [place_of_physical hop, hashings_of_physical hop]
    simp only [PhysicalOperator.place, PhysicalOperator.hashings,
      SetOperation.contributing_map, List.mem_flatMap]
    constructor
    · rintro ⟨_, mem, placed⟩
      obtain ⟨x, hx, rfl⟩ := List.mem_map.1 mem
      obtain ⟨cs, hcs, hs⟩ := (each x hx).1 placed
      exact ⟨cs, ⟨_, List.mem_map.2 ⟨x, hx, rfl⟩, hcs⟩, hs⟩
    · rintro ⟨cs, ⟨_, mem, hcs⟩, hs⟩
      obtain ⟨x, hx, rfl⟩ := List.mem_map.1 mem
      exact ⟨_, List.mem_map.2 ⟨x, hx, rfl⟩, (each x hx).2 ⟨cs, hcs, hs⟩⟩
  within cs hcs c hc := by
    rw [hashings_of_physical hop] at hcs
    simp only [PhysicalOperator.hashings, SetOperation.contributing_map] at hcs
    obtain ⟨_, mem, hcs⟩ := List.mem_flatMap.1 hcs
    obtain ⟨x, hx, rfl⟩ := List.mem_map.1 mem
    obtain ⟨ds, hds, rfl⟩ := List.mem_map.1 hcs
    obtain ⟨d, hd, rfl⟩ := List.mem_map.1 hc
    obtain ⟨lengths, k, hp, hk⟩ := SetOperation.of_mem_contributing hx
    obtain ⟨source, hsource, same⟩ :=
      List.contains_iff_exists_mem_beq.1 ((below k _ _ hp hk).within ds hds d hd)
    obtain ⟨target, htarget, equal⟩ := ColumnMap.exists_idFor_ofLists lengths hsource
    refine List.contains_iff_exists_mem_beq.2 ⟨target, htarget, Column.beq_iff.2 ?_⟩
    rw [ColumnMap.id_substitute, Column.beq_iff.1 same]
    exact equal

/-- An operator that delivers a distribution places its rows so if its inputs are placed as it
requires. -/
theorem placed_of_hashes (hop : q.operator = .physical op) {d : Distribution}
    (requires : List PhysicalProperty) (hashes : d.hashing?.isSome → op.Hashes d requires)
    (below : ∀ (k : Nat) (p : Plan K) r, q.inputs[k]? = some p → requires[k]? = some r →
      p.Placed r.distribution) : q.Placed d := by
  intro cols hashed
  cases hashes (by rw [hashed]; rfl) with
  | source place hashings => exact hashedWithin_of_source hop place hashings hashed
  | forwards place hashings required =>
    obtain ⟨r, rs, rfl, rfl⟩ := required
    exact hashedWithin_of_forwards hop place hashings fun p hp =>
      below 0 p r hp rfl cols hashed
  | groups h hd required =>
    subst h hd required
    obtain rfl := Option.some.inj hashed
    exact hashedWithin_of_groups hop fun p hp => below 0 p _ hp rfl _ rfl
  | combines h hd required =>
    subst h hd required
    obtain rfl := Option.some.inj hashed
    exact hashedWithin_of_combines hop fun k p cs hp hcs =>
      below k p (.hashedOn cs) hp (by simp [hcs]) cs rfl

end

/-- Each part of a plan places its rows as it was required to, if all of them deliver what
they were chosen for. -/
theorem placed_of_delivers : ∀ {p : Plan K}, (∀ q ∈ p.nodes, q.Delivers) →
    ∀ d, p.delivers? = some d → p.Placed d.distribution
  | ⟨id, op, inputs, estimate⟩, delivers, d, hd => by
    obtain ⟨pop, d', requires, hop, hd', ⟨a, ha, good⟩, parts⟩ := delivers _ (self_mem_nodes _)
    obtain rfl := Option.some.inj (hd'.symm.trans hd)
    have placed : Placed ⟨id, op, inputs, estimate⟩ a.distribution := by
      refine placed_of_hashes hop requires (fun hashed => ?_) fun k p r hp hr => ?_
      · obtain ⟨cols, hcols⟩ := Option.isSome_iff_exists.1 hashed
        exact ha.hashes hcols
      · have mem : p ∈ inputs := List.mem_of_getElem? hp
        exact placed_of_delivers (fun q hq => delivers q (mem_nodes_of_input mem hq)) r
          ((parts k p hp).symm.trans hr)
    exact placed.of_satisfies (Bool.and_eq_true_iff.1 good).1

/-! ### Rows that agree on keys -/

/-- Whether a node brings together the rows of two inputs that agree on pairs of keys: it is a
hash join or a hash set operation, and it was chosen with each input hashed on its keys. -/
inductive Colocates (q l r : Plan K) (pairs : List (Column × Column)) : Prop
  | join {j : Join} (hop : q.operator = .physical (.hashJoin j)) (inputs : q.inputs = [l, r])
      (keys : (JoinPredicate.ofPredicate j.predicate l.columns r.columns).equalities = pairs)
      (left : l.delivers? = some (.hashedOn (pairs.map (·.1))))
      (right : r.delivers? = some (.hashedOn (pairs.map (·.2))))
  | setOperation {o : SetOperation} {i k : Nat} {ls rs : List Column}
      (hop : q.operator = .physical (.hashSetOp o)) (apart : i ≠ k)
      (hl : q.inputs[i]? = some l) (hr : q.inputs[k]? = some r)
      (hls : o.inputs[i]? = some ls) (hrs : o.inputs[k]? = some rs) (keys : ls.zip rs = pairs)
      (left : l.delivers? = some (.hashedOn ls)) (right : r.delivers? = some (.hashedOn rs))

/-- Plans whose rows meet are inputs. -/
theorem Colocates.inputs {q l r : Plan K} {pairs : List (Column × Column)}
    (h : q.Colocates l r pairs) : l ∈ q.inputs ∧ r ∈ q.inputs := by
  cases h with
  | join hop inputs => simp [inputs]
  | setOperation hop apart hl hr => exact ⟨List.mem_of_getElem? hl, List.mem_of_getElem? hr⟩

/-- Plans whose rows meet deliver hashed rows. -/
theorem Colocates.hashed {q l r : Plan K} {pairs : List (Column × Column)}
    (h : q.Colocates l r pairs) : ∃ ls rs, l.delivers? = some (.hashedOn ls) ∧
      r.delivers? = some (.hashedOn rs) := by
  cases h with
  | join _ _ _ left right | setOperation _ _ _ _ _ _ _ left right => exact ⟨_, _, left, right⟩

/-- Rows that agree on the keys of a node are on one segment exactly if the inputs are
hashed on linked columns. -/
theorem meet_iff_of_delivers {p q l r : Plan K} {pairs : List (Column × Column)}
    (delivers : ∀ q ∈ p.nodes, q.Delivers) (hq : q ∈ p.nodes) (h : q.Colocates l r pairs) :
    Placement.Meet pairs l.place r.place ↔
      ∀ cs ∈ l.hashings, ∀ ds ∈ r.hashings, LinkedAll pairs cs ds := by
  have placed {c : Plan K} (hc : c ∈ q.inputs) {cols : List Column}
      (hd : c.delivers? = some (.hashedOn cols)) : c.HashedWithin cols :=
    placed_of_delivers
      (fun n hn => delivers n (mem_nodes_trans hq (mem_nodes_of_input hc hn))) _ hd cols rfl
  obtain ⟨ls, rs, hls, hrs⟩ := h.hashed
  exact Placement.meet_iff (placed h.inputs.1 hls).hashedBy (placed h.inputs.2 hrs).hashedBy

end Plan

namespace Memo

variable [Quantity K] {env : Environment K}

/-- In each plan that an optimization returns, rows that agree on the keys of a hash join or a
hash set operation are on one segment exactly if its inputs are hashed on columns that the
keys link one by one. -/
theorem meet_iff_of_optimize {m : Memo K} (h : m.Delivering) {budget : Nat}
    {required : PhysicalProperty} {stages : List (Stage K)} (new : ∀ s ∈ stages, s.best = none)
    {plan : Plan K} (returned : (optimize env budget required stages m).result = .ok plan)
    {q l r : Plan K} {pairs : List (Column × Column)} (hq : q ∈ plan.nodes)
    (colocates : q.Colocates l r pairs) :
    Placement.Meet pairs l.place r.place ↔
      ∀ cs ∈ l.hashings, ∀ ds ∈ r.hashings, LinkedAll pairs cs ds :=
  Plan.meet_iff_of_delivers (delivers_of_optimize h new returned) hq colocates

end Memo

/-- So it is in the plan that an optimization of a logical plan returns. -/
theorem Plan.meet_iff_linkedAll [Quantity K] {env : Environment K} {logical plan : Plan K}
    {budget : Nat} {required : PhysicalProperty}
    (returned : logical.optimize env budget required = .ok plan) {q l r : Plan K}
    {pairs : List (Column × Column)} (hq : q ∈ plan.nodes)
    (colocates : q.Colocates l r pairs) :
    Placement.Meet pairs l.place r.place ↔
      ∀ cs ∈ l.hashings, ∀ ds ∈ r.hashings, LinkedAll pairs cs ds := by
  obtain ⟨m, made, returned⟩ := OptResult.bind_eq_ok.1 returned
  have new : ∀ s ∈ Stage.defaults (K := K), s.best = none :=
    fun _ => Stage.best_of_mem_defaults
  exact meet_iff_of_delivers
    (Memo.delivers_of_optimize (Memo.delivering_of_ofPlan made) new returned) hq colocates

end QueryOptimizer
