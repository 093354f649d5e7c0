import Mathlib.Data.List.Forall2
import QueryOptimizer.Delivery.Alternative
import QueryOptimizer.Plan.Basic
import QueryOptimizer.Proofs.Semantics.Value

/-!
# Where rows are

A plan runs on several segments. Stored tables and motions that are hashed put a row on the
segment that a function of its hash columns decides, the same function everywhere; gathered
rows are on segment 0, and nothing is known about the others. All other operators leave rows
where they are: `Plan.place` says on which segments the rows of a plan may be.

`Plan.hashings` finds the columns that the place of a row was decided by. Rows of two inputs
that agree on pairs of columns meet on one segment, whatever the function is, exactly if the
columns that decided about their places are linked by these pairs, one by one.

## Main results

* `Placement.meet_iff`: rows that agree on pairs of columns meet exactly if the columns that
  they are hashed by are linked.
-/

namespace QueryOptimizer

/-- Segments are numbered. -/
abbrev Segment := Nat

/-- On which segments a row may be. -/
abbrev Placement := Row → Segment → Prop

/-- What rows on segments depend on: the segment that a tuple of hash columns is sent to. -/
abbrev HashFunction := Tuple → Segment

/-- The columns that decide about the place of a row, if nothing else does. -/
def Distribution.hashing? : Distribution → Option (List Column)
  | hashed cols _ _ | strictHashed cols _ => some cols
  | _ => none

/-- Where the rows are that a distribution was brought about for. -/
def Distribution.placement (f : HashFunction) : Distribution → Placement
  | singleton => fun _ s => s = 0
  | hashed cols _ _ | strictHashed cols _ => fun r s => s = f (r.tuple cols)
  | any | replicated | nonSingleton | random _ | strictRandom => fun _ _ => True

/-- Of something for each input, that for the inputs which rows of the result may come from.
They have as many columns as the result. -/
def SetOperation.contributing {α : Type} (s : SetOperation) (inputs : List α) :
    List (α × List Column) :=
  let all := inputs.zip s.inputs
  let contributing :=
    match s.kind with
    | .unionAll | .union => all
    | .intersect | .intersectAll | .difference | .differenceAll => all.take 1
  contributing.filter fun x => x.2.length == s.output.length

/-- The columns of the result in place of the columns of an input. -/
def SetOperation.renaming (s : SetOperation) (cols : List Column) : ColumnMap :=
  .ofLists cols s.output

namespace PhysicalOperator

/-- Where the rows of an operator are. A row of a join is where its left row is, a group
where its rows are. -/
def place (f : HashFunction) : PhysicalOperator → List Placement → Placement
  | tableScan s, _ => (s.table.distributionOver s.cols).placement f
  | dynamicTableScan s, _ => (s.table.distributionOver s.cols).placement f
  | valuesScan _, _ | cteConsumer _, _ => Distribution.singleton.placement f
  | motion m, _ => m.target.placement f
  | hashAggregate g, p :: _ => fun r s => ∃ x : Row, x.tuple g.keys = r.tuple g.keys ∧ p x s
  | unionAll o, ps | hashSetOp o, ps => fun r s =>
    ∃ p ∈ o.contributing ps, p.1 (r.under (o.renaming p.2)) s
  | sequence _, [_, body] => body
  | filter _, p :: _ | compute _, p :: _ | limit _, p :: _ | sort _,
    p :: _ | cteProducer _, p :: _
  | hashJoin _, p :: _ | nestedLoopJoin _, p :: _ | indexNestedLoopJoin _, p :: _ => p
  | _, _ => fun _ _ => False

/-- The lists of columns by which rows of an operator were hashed. -/
def hashings : PhysicalOperator → List (List (List Column)) → List (List Column)
  | tableScan s, _ => (s.table.distributionOver s.cols).hashing?.toList
  | dynamicTableScan s, _ => (s.table.distributionOver s.cols).hashing?.toList
  | motion m, _ => m.target.hashing?.toList
  | unionAll o, hs | hashSetOp o, hs =>
    (o.contributing hs).flatMap fun h => h.1.map (·.map (o.renaming h.2).substitute)
  | sequence _, [_, body] => body
  | filter _, h :: _ | compute _, h :: _ | limit _, h :: _ | sort _,
    h :: _ | cteProducer _, h :: _
  | hashAggregate _, h :: _ | hashJoin _, h :: _ | nestedLoopJoin _, h :: _
  | indexNestedLoopJoin _, h :: _ => h
  | _, _ => []

end PhysicalOperator

namespace Plan

variable {K : Type}

mutual

/-- Where the rows of a plan are. -/
def place : Plan K → HashFunction → Placement
  | ⟨_, .physical op, inputs, _⟩, f => op.place f (placeAll inputs f)
  | ⟨_, .logical _, _, _⟩, _ => fun _ _ => False
termination_by structural p => p

/-- Where the rows of each plan in a list are. -/
def placeAll : List (Plan K) → HashFunction → List Placement
  | [], _ => []
  | p :: ps, f => place p f :: placeAll ps f
termination_by structural ps => ps

end

mutual

/-- The lists of columns by which rows of a plan were hashed. -/
def hashings : Plan K → List (List Column)
  | ⟨_, .physical op, inputs, _⟩ => op.hashings (hashingsAll inputs)
  | ⟨_, .logical _, _, _⟩ => []
termination_by structural p => p

/-- The lists of columns by which rows of each plan in a list were hashed. -/
def hashingsAll : List (Plan K) → List (List (List Column))
  | [] => []
  | p :: ps => hashings p :: hashingsAll ps
termination_by structural ps => ps

end

/-- Plans place their rows one by one. -/
theorem placeAll_eq_map (ps : List (Plan K)) (f : HashFunction) :
    placeAll ps f = ps.map (·.place f) := by
  induction ps with
  | nil => simp only [placeAll, List.map_nil]
  | cons p ps ih => simp only [placeAll, List.map_cons, ih]

/-- The hashings of plans are those of each of them. -/
theorem hashingsAll_eq_map (ps : List (Plan K)) : hashingsAll ps = ps.map hashings := by
  induction ps with
  | nil => simp only [hashingsAll, List.map_nil]
  | cons p ps ih => simp only [hashingsAll, List.map_cons, ih]

/-- A plan places its rows as its root does on its inputs. -/
theorem place_of_physical {p : Plan K} {op : PhysicalOperator} (h : p.operator = .physical op)
    (f : HashFunction) : p.place f = op.place f (p.inputs.map (·.place f)) := by
  obtain ⟨id, _, inputs, estimate⟩ := p
  obtain rfl := h
  rw [place, placeAll_eq_map]

/-- The hashings of a plan are those of its root on its inputs. -/
theorem hashings_of_physical {p : Plan K} {op : PhysicalOperator}
    (h : p.operator = .physical op) : p.hashings = op.hashings (p.inputs.map hashings) := by
  obtain ⟨id, _, inputs, estimate⟩ := p
  obtain rfl := h
  rw [hashings, hashingsAll_eq_map]

end Plan

/-! ### Meeting on a segment -/

/-- Whether a chain of pairs leads from a column on the left to one on the right. -/
inductive Linked (pairs : List (Column × Column)) : Nat → Nat → Prop
  | pair {p : Column × Column} (h : p ∈ pairs) : Linked pairs p.1.id p.2.id
  | step {p q : Column × Column} {i : Nat} (h : Linked pairs i p.2.id) (hp : p ∈ pairs)
    (hq : q ∈ pairs) (same : p.1.id = q.1.id) : Linked pairs i q.2.id

/-- Whether rows agree on pairs of columns. -/
def AgreeOn (pairs : List (Column × Column)) (x y : Row) : Prop :=
  ∀ p ∈ pairs, x p.1.id = y p.2.id

/-- Whether columns are linked one by one. -/
def LinkedAll (pairs : List (Column × Column)) (cs ds : List Column) : Prop :=
  List.Forall₂ (fun c d => Linked pairs c.id d.id) cs ds

/-- Rows that agree have the same values in linked columns. -/
theorem Linked.eq {pairs : List (Column × Column)} {x y : Row} (agree : AgreeOn pairs x y)
    {i j : Nat} (h : Linked pairs i j) : x i = y j := by
  induction h with
  | pair hp => exact agree _ hp
  | @step p q i _ hp hq same ih => rw [ih, ← agree p hp, same, agree q hq]

/-- Linked columns have the same values in rows that agree, and no others do in all of them. -/
theorem linkedAll_iff {pairs : List (Column × Column)} {cs ds : List Column} :
    LinkedAll pairs cs ds ↔ ∀ x y, AgreeOn pairs x y → x.tuple cs = y.tuple ds := by
  classical
  refine ⟨fun h x y agree => ?_, fun h => ?_⟩
  · induction h with
    | nil => rfl
    | cons first _ ih => exact congrArg₂ List.cons (first.eq agree) ih
  · -- rows that agree and differ in all columns that are not linked to the given one
    have apart (i j : Nat) (unlinked : ¬Linked pairs i j) :
        ∃ x y, AgreeOn pairs x y ∧ x i ≠ y j := by
      let left (k : Nat) : Prop := k = i ∨ ∃ p ∈ pairs, p.1.id = k ∧ Linked pairs i p.2.id
      refine ⟨fun k => some (.boolean (decide (left k))),
        fun k => some (.boolean (decide (Linked pairs i k))), fun p hp => ?_, ?_⟩
      · have : left p.1.id ↔ Linked pairs i p.2.id := by
          refine ⟨?_, fun linked => .inr ⟨p, hp, rfl, linked⟩⟩
          rintro (rfl | ⟨q, hq, same, linked⟩)
          · exact .pair hp
          · exact linked.step hq hp same
        simp [this]
      · simp [left, unlinked]
    have length : cs.length = ds.length := by
      simpa [Row.tuple] using congrArg List.length
        (h (fun _ => none) (fun _ => none) fun _ _ => rfl)
    refine List.forall₂_iff_get.2 ⟨length, fun k hc hd => ?_⟩
    by_contra unlinked
    obtain ⟨x, y, agree, differ⟩ := apart _ _ unlinked
    have same := congrArg (·[k]?) (h x y agree)
    simp only [Row.tuple, List.getElem?_map, List.getElem?_eq_getElem hc,
      List.getElem?_eq_getElem hd, Option.map_some, Option.some.injEq] at same
    exact differ same

namespace Placement

/-- Whether the places of rows are decided by the given lists of columns. -/
def HashedBy (place : HashFunction → Placement) (hashings : List (List Column)) : Prop :=
  ∀ f r s, place f r s ↔ ∃ cs ∈ hashings, s = f (r.tuple cs)

/-- Whether rows that agree on pairs of columns are on one segment, whatever the
hash function is. -/
def Meet (pairs : List (Column × Column)) (left right : HashFunction → Placement) : Prop :=
  ∀ f x y s t, AgreeOn pairs x y → left f x s → right f y t → s = t

/-- Rows that agree on pairs of columns meet exactly if the columns that they are hashed by are
linked by these pairs. -/
theorem meet_iff {pairs : List (Column × Column)} {left right : HashFunction → Placement}
    {ls rs : List (List Column)} (hl : HashedBy left ls) (hr : HashedBy right rs) :
    Meet pairs left right ↔ ∀ cs ∈ ls, ∀ ds ∈ rs, LinkedAll pairs cs ds := by
  classical
  refine ⟨fun meet cs hcs ds hds => linkedAll_iff.2 fun x y agree => ?_, ?_⟩
  · -- a function that tells the tuple of the left row from all others
    have := meet (fun t => if t = x.tuple cs then 1 else 0) x y _ _ agree
      ((hl _ _ _).2 ⟨cs, hcs, rfl⟩) ((hr _ _ _).2 ⟨ds, hds, rfl⟩)
    by_contra differ
    simp [Ne.symm differ] at this
  · intro linked f x y s t agree hs ht
    obtain ⟨cs, hcs, rfl⟩ := (hl _ _ _).1 hs
    obtain ⟨ds, hds, rfl⟩ := (hr _ _ _).1 ht
    rw [linkedAll_iff.1 (linked cs hcs ds hds) x y agree]

end Placement

end QueryOptimizer
