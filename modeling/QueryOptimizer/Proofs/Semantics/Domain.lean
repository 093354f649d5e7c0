import Mathlib.Data.List.Zip
import QueryOptimizer.Proofs.Constraint.Order
import QueryOptimizer.Proofs.Result
import QueryOptimizer.Proofs.Semantics.Scoping

/-!
# Domains of columns

Every column may be restricted to some values, such as those of its type; null is always
allowed. If what is stored, written down or computed stays within the domains, then so do the
rows of every relation whose parameters do.

## Main results

* `LogicalOperator.within_meaning`: operators that stay within the domains make
  rows within them.
-/

namespace QueryOptimizer

/-- The values that each column may have besides null. -/
abbrev Domains := Nat → Set Datum

/-- The values of a type for each column. -/
def Domains.ofTypes (Γ : Nat → DataType) : Domains :=
  fun i => {d | d.IsValue (Γ i)}

variable {D : Domains} {I : Interpretation} {db : Database}

/-- Whether each column has a value of its domain or null. -/
def Row.Within (D : Domains) (r : Row) : Prop :=
  ∀ i, ∀ v ∈ r i, v ∈ D i

/-- Whether the columns that a tuple is assigned to get values of their domains. -/
def Tuple.Within (D : Domains) (cols : List Column) (t : Tuple) : Prop :=
  ∀ p ∈ cols.zip t, ∀ v ∈ p.2, v ∈ D p.1.id

/-- Whether the rows stay within the domains if the parameters do. -/
def Meaning.Within (D : Domains) (m : Meaning) : Prop :=
  ∀ env : Row, env.Within D → ∀ bag ∈ m.results env, ∀ r ∈ bag, r.Within D

namespace Row

/-- The values of columns can be assigned to other columns with larger domains. -/
theorem Within.tuple_renamed {r : Row} (hr : r.Within D) {source target : List Column}
    (larger : ∀ p ∈ source.zip target, D p.1.id ⊆ D p.2.id) :
    Tuple.Within D target (r.tuple source) := by
  induction source generalizing target with
  | nil => simp [Tuple.Within, Row.tuple]
  | cons s source ih =>
    cases target with
    | nil => simp [Tuple.Within]
    | cons t target =>
      obtain ⟨first, rest⟩ := List.forall_mem_cons.1 larger
      exact List.forall_mem_cons.2 ⟨fun v hv => first (hr s.id v hv), ih rest⟩

/-- The values of a row within domains are within them. -/
theorem Within.tuple {r : Row} (hr : r.Within D) (cols : List Column) :
    Tuple.Within D cols (r.tuple cols) := by
  induction cols with
  | nil => simp [Tuple.Within]
  | cons c cs ih => exact List.forall_mem_cons.2 ⟨hr c.id, ih⟩

/-- A row within domains stays so when such values are assigned. -/
theorem Within.assign {r : Row} (hr : r.Within D) {cols : List Column} {t : Tuple}
    (ht : Tuple.Within D cols t) : (r.assign cols t).Within D := by
  induction cols generalizing t with
  | nil => exact hr
  | cons c cs ih =>
    intro i v hv
    cases t with
    | nil =>
      by_cases hc : i = c.id
      · simp [Row.assign, hc] at hv
      · exact ih (show Tuple.Within D cs [] by simp [Tuple.Within]) i v
          (by simpa [Row.assign, hc] using hv)
    | cons w ws =>
      obtain ⟨first, rest⟩ := List.forall_mem_cons.1 ht
      by_cases hc : i = c.id
      · subst hc
        exact first v (by simpa [Row.assign] using hv)
      · exact ih rest i v (by simpa [Row.assign, hc] using hv)

/-- Rows within domains put together are within them. -/
theorem Within.beside {l r : Row} (hl : l.Within D) (hr : r.Within D) (right : Finset Nat) :
    (l.beside right r).Within D := by
  intro i
  unfold Row.beside
  split
  · exact hr i
  · exact hl i

/-- A row within domains that is padded with nulls stays so. -/
theorem Within.padded {l : Row} (hl : l.Within D) (right : Finset Nat) :
    (l.padded right).Within D := by
  intro i
  unfold Row.padded
  split
  · exact fun _ h => by cases h
  · exact hl i

end Row

/-- The rows of a join are within domains if those of its inputs are. -/
theorem JoinType.within_rows {type : JoinType} {right : Finset Nat} {p : Row → Truth} {l : Row}
    {rs : Bag} (hl : l.Within D) (hrs : ∀ r ∈ rs, r.Within D) {x : Row}
    (h : x ∈ type.rows right p l rs) : x.Within D := by
  rcases mem_rows h with ⟨-, rfl⟩ | ⟨-, rfl | ⟨r, hr, rfl⟩⟩
  · exact hl
  · exact hl.padded right
  · exact hl.beside (hrs r hr) right

/-- What is taken away from a bag leaves a part of it. -/
theorem SetOpKind.foldl_le {f : Multiset Tuple → Multiset Tuple → Multiset Tuple}
    (le : ∀ a b, f a b ≤ a) (bag : Multiset Tuple) (bags : List (Multiset Tuple)) :
    bags.foldl f bag ≤ bag := by
  induction bags generalizing bag with
  | nil => exact le_rfl
  | cons b bs ih => exact (ih (f bag b)).trans (le bag b)

/-- A tuple of a set operation is a tuple of one of its inputs. -/
theorem SetOpKind.mem_of_mem_tuples {kind : SetOpKind} {bags : List (Multiset Tuple)}
    {t : Tuple} (h : t ∈ kind.tuples bags) : ∃ bag ∈ bags, t ∈ bag := by
  have sum (bags : List (Multiset Tuple)) (h : t ∈ bags.sum) : ∃ bag ∈ bags, t ∈ bag := by
    induction bags with
    | nil => simp at h
    | cons b bs ih =>
      rw [List.sum_cons] at h
      rcases Multiset.mem_add.1 h with h | h
      · exact ⟨b, by simp, h⟩
      · obtain ⟨bag, hbag, h⟩ := ih h
        exact ⟨bag, List.mem_cons_of_mem b hbag, h⟩
  cases kind with
  | unionAll => exact sum bags h
  | union => exact sum bags (Multiset.mem_dedup.1 h)
  | difference | intersect =>
    cases bags with
    | nil => simp [tuples] at h
    | cons b bs =>
      exact ⟨b, by simp, Multiset.mem_of_le (foldl_le (fun _ _ => Multiset.filter_le _ _) b bs)
        (Multiset.mem_dedup.1 h)⟩
  | differenceAll =>
    cases bags with
    | nil => simp [tuples] at h
    | cons b bs =>
      exact ⟨b, by simp,
        Multiset.mem_of_le (foldl_le (fun a b => Multiset.sub_le_self a b) b bs) h⟩
  | intersectAll =>
    cases bags with
    | nil => simp [tuples] at h
    | cons b bs =>
      exact ⟨b, by simp,
        Multiset.mem_of_le (foldl_le (fun _ _ => Multiset.inter_le_left) b bs) h⟩

/-- The operations that remove duplicates make no tuple twice. -/
theorem SetOpKind.nodup_tuples {kind : SetOpKind} (distinct : kind.isDistinct = true)
    (bags : List (Multiset Tuple)) : (kind.tuples bags).Nodup := by
  cases kind with
  | union => exact Multiset.nodup_dedup _
  | difference | intersect =>
    cases bags with
    | nil => exact Multiset.nodup_zero
    | cons b bs => exact Multiset.nodup_dedup _
  | _ => cases distinct

/-- A tuple of a set operation comes from a row of some input. -/
theorem SetOpKind.exists_row_of_mem_tuples {kind : SetOpKind} {bags : List Bag}
    {lists : List (List Column)} {t : Tuple}
    (h : t ∈ kind.tuples (List.zipWith Bag.tuples bags lists)) :
    ∃ bag ∈ bags, ∃ cols ∈ lists, ∃ r ∈ bag, r.tuple cols = t := by
  obtain ⟨tuples, mem, ht⟩ := mem_of_mem_tuples h
  rw [← List.map_uncurry_zip_eq_zipWith] at mem
  obtain ⟨p, hp, rfl⟩ := List.mem_map.1 mem
  obtain ⟨r, hr, rfl⟩ := Multiset.mem_map.1 ht
  obtain ⟨hbag, hcols⟩ := List.of_mem_zip hp
  exact ⟨p.1, hbag, p.2, hcols, r, hr, rfl⟩

namespace LogicalOperator

/-- A set operation takes tuples of the length of its output from its inputs. -/
theorem Fits.length_tuple {s : SetOperation} {ms : List Meaning}
    (fits : (LogicalOperator.setOp s).Fits Meaning.toScope ms) {cols : List Column}
    (hcols : cols ∈ s.inputs) (r : Row) : (r.tuple cols).length = s.output.length := by
  cases fits with
  | setOp someColumn distinct someInput apart aligned fresh =>
    obtain ⟨-, -, -, length, -⟩ := exists_of_mem_right aligned.flip hcols
    rw [Row.tuple, List.length_map, length]

/-- Whether an operator makes rows within the domains of rows within them: so are the values
that it reads from the database or writes down, so are the values that it computes, and a
column that is put in place of another one has all values that this one may have. -/
def StaysWithin (I : Interpretation) (db : Database) (D : Domains) : LogicalOperator → Prop
  | get s => ∀ t ∈ db.table s.table.id, Tuple.Within D s.cols t
  | dynamicGet s => ∀ t ∈ db.table s.table.id, Tuple.Within D s.cols t
  | values v => ∀ row ∈ v.rows, Tuple.Within D v.cols (row.map Datum.value)
  | project ds => ∀ r : Row, r.Within D → ∀ d ∈ ds, ∀ v ∈ d.2.eval I 0 r, v ∈ D d.1.id
  | groupBy g => ∀ r : Row, r.Within D → ∀ group : Bag, (∀ w ∈ group, w.Within D) →
      ∀ d ∈ g.aggregates, ∀ v ∈ d.2.eval I group r, v ∈ D d.1.id
  | setOp s => ∀ cols ∈ s.inputs, ∀ p ∈ cols.zip s.output, D p.1.id ⊆ D p.2.id
  | cteConsumer c => (∀ env : Row, env.Within D → ∀ r ∈ db.shared c.id env, r.Within D) ∧
      ∀ p ∈ c.producerCols.zip c.cols, D p.1.id ⊆ D p.2.id
  | _ => True

variable {op : LogicalOperator} {ms : List Meaning}

/-- Computed values stay within the domains of the columns that they are assigned to. -/
theorem within_definitions {ds : List Definition} {f : Definition → Value}
    (h : ∀ d ∈ ds, ∀ v ∈ f d, v ∈ D d.1.id) :
    Tuple.Within D (Definition.columns ds) (ds.map f) := by
  intro p hp
  obtain ⟨d, hd, rfl⟩ : ∃ d ∈ ds, (d.1, f d) = p := by
    simpa [Definition.columns, List.zip_map', List.mem_map] using hp
  exact h d hd

/-- Operators that stay within the domains make rows within them. -/
theorem within_meaning (fits : op.Fits Meaning.toScope ms) (stays : op.StaysWithin I db D)
    (inputs : ∀ m ∈ ms, m.Within D) : (op.meaning I db ms).Within D := by
  intro env henv bag hbag r hr
  cases fits with
  | get | dynamicGet =>
    obtain rfl := hbag
    obtain ⟨t, ht, rfl⟩ := Multiset.mem_map.1 hr
    exact henv.assign (stays t ht)
  | values =>
    obtain rfl := hbag
    obtain ⟨row, hrow, rfl⟩ := List.mem_map.1 (Multiset.mem_coe.1 hr)
    exact henv.assign (stays row hrow)
  | select =>
    obtain ⟨b, hb, rfl⟩ := hbag
    exact inputs _ (by simp) env henv b hb r (Multiset.mem_filter.1 hr).1
  | limit =>
    obtain ⟨b, hb, kept⟩ := hbag
    exact inputs _ (by simp) env henv b hb r (Multiset.mem_of_le kept.kept_le hr)
  | project =>
    obtain ⟨b, hb, rfl⟩ := hbag
    obtain ⟨s, hs, rfl⟩ := Multiset.mem_map.1 hr
    have hs : s.Within D := inputs _ (by simp) env henv b hb s hs
    exact hs.assign (within_definitions (stays s hs))
  | @groupBy g m =>
    obtain ⟨b, hb, rfl⟩ := hbag
    obtain ⟨t, ht, rfl⟩ := Multiset.mem_map.1 hr
    have hb : ∀ w ∈ b, w.Within D := inputs m (by simp) env henv b hb
    have keyed : (env.assign g.keys t).Within D := by
      refine henv.assign ?_
      unfold Grouping.keyTuples at ht
      split at ht
      · obtain rfl := Multiset.mem_singleton.1 ht
        simp [Tuple.Within]
      · obtain ⟨w, hw, rfl⟩ := Multiset.mem_map.1 (Multiset.mem_dedup.1 ht)
        exact (hb w hw).tuple g.keys
    refine keyed.assign (within_definitions (stays _ keyed _ fun w hw => ?_))
    exact hb w (Multiset.mem_filter.1 hw).1
  | @join j l r =>
    obtain ⟨ls, hls, rs, hrs, rfl⟩ := hbag
    obtain ⟨x, hx, hrx⟩ := Multiset.mem_bind.1 hr
    exact JoinType.within_rows (inputs l (by simp) env henv ls hls x hx)
      (inputs r (by simp) env henv rs hrs) hrx
  | @apply a l r =>
    obtain ⟨matched, hls, hrs, rfl⟩ := hbag
    obtain ⟨x, hx, hrx⟩ := Multiset.mem_bind.1 hr
    have left : x.1.Within D :=
      inputs l (by simp) env henv _ hls x.1 (Multiset.mem_map_of_mem Prod.fst hx)
    exact JoinType.within_rows left
      (inputs r (by simp) _ (henv.assign (left.tuple a.outer)) x.2 (hrs x hx)) hrx
  | @setOp s =>
    obtain ⟨bags, hbags, rfl⟩ := hbag
    obtain ⟨t, ht, rfl⟩ := Multiset.mem_map.1 hr
    obtain ⟨b, hb, cols, hcols, w, hw, rfl⟩ := SetOpKind.exists_row_of_mem_tuples ht
    obtain ⟨m, hm, results⟩ := exists_of_mem_right hbags hb
    exact henv.assign ((inputs m hm env henv b results w hw).tuple_renamed (stays cols hcols))
  | @cteAnchor id producer body => exact inputs body (by simp) env henv bag hbag r hr
  | cteProducer =>
    obtain ⟨b, hb, rfl⟩ := hbag
    obtain ⟨s, hs, rfl⟩ := Multiset.mem_map.1 hr
    exact henv.assign ((inputs _ (by simp) env henv b hb s hs).tuple _)
  | cteConsumer =>
    obtain rfl := hbag
    obtain ⟨s, hs, rfl⟩ := Multiset.mem_map.1 hr
    exact henv.assign ((stays.1 env henv s hs).tuple_renamed stays.2)

end LogicalOperator

end QueryOptimizer
