import QueryOptimizer.Proofs.Constraint.Algebra
import QueryOptimizer.Proofs.Constraint.Arranged
import QueryOptimizer.Proofs.Constraint.Predicate

/-!
# Predicates that read as constraints

A predicate that was printed from a constraint is read without loss, so all its readings are
exact (`Reading.Reads`). What is printed as one part may be read as several members of the
chain around it: an interval of two ranges inside a disjunction is two disjuncts. Such members
are pieces of the part (`Constraint.Pieces`): merging them one after the other puts the part
together again, at the place where the first of them stands.

Conjunctions and disjunctions are treated alike, as chains of a `Connective`.

## Main results

* `Constraint.Built.flat`: constraints are written in one way only.
* `Constraint.Connective.join_of_pieces`: the pieces of some parts join to the conjunction or
  disjunction of the parts.
* `Reading.ReadsBack.of_pieces`: a chain of the pieces of an interval reads as the interval.
* `Reading.ReadsBack.of_parts`: a chain of the pieces of some parts reads as their
  conjunction or disjunction.
-/

namespace QueryOptimizer

/-! ### How constraints are written

The constructors write a constraint in one way only (`Constraint.Flat`). The ranges of its
intervals are in canonical form. A conjunction has at least two parts; none of them is a
conjunction itself or unbounded, and no two of them are intervals on one column. A disjunction
likewise. Only conjunctions and disjunctions are negated.

`Constraint.Flat` refines `Constraint.Normal`, which leaves open how ranges are written and how
conjunctions and disjunctions are nested.
-/

namespace Constraint

variable {Γ : Nat → DataType} {c d : Constraint} {cs parts : List Constraint}
  {strategy : LookupStrategy}

/-- Whether constraints can be the parts of a conjunction or a disjunction, given
how that is flattened. -/
structure AreParts (flatten : Constraint → List Constraint) (parts : List Constraint) :
    Prop where
  alone : ∀ p ∈ parts, flatten p = [p]
  bounded : ∀ p ∈ parts, p.isUnbounded = false
  separate : parts.Pairwise Separate
  two : 2 ≤ parts.length

/-- Whether a constraint is written as the constructors write it. -/
inductive Flat (Γ : Nat → DataType) : Constraint → Prop
  | interval {i : Interval} (regular : i.Regular (Γ i.column.id))
      (arranged : Range.Arranged i.ranges) :
      Flat Γ (interval i)
  | conjunction {parts : List Constraint} {strategy : LookupStrategy}
      (flat : ∀ p ∈ parts, Flat Γ p) (are : AreParts conjuncts parts) :
      Flat Γ (conjunction parts strategy)
  | disjunction {parts : List Constraint} {strategy : LookupStrategy}
      (flat : ∀ p ∈ parts, Flat Γ p) (are : AreParts disjuncts parts) :
      Flat Γ (disjunction parts strategy)
  | negation {c : Constraint} (flat : Flat Γ c) (compound : c.isCompound = true) :
      Flat Γ (negation c)

/-- The conjuncts of a flat constraint are flat and no conjunctions. -/
theorem Flat.conjuncts (h : c.Flat Γ) : ∀ p ∈ c.conjuncts, p.Flat Γ ∧ p.conjuncts = [p] := by
  cases h with
  | conjunction flat are => exact fun p hp => ⟨flat p hp, are.alone p hp⟩
  | interval regular arranged =>
    exact List.forall_mem_singleton.2 ⟨.interval regular arranged, rfl⟩
  | disjunction flat are => exact List.forall_mem_singleton.2 ⟨.disjunction flat are, rfl⟩
  | negation flat compound => exact List.forall_mem_singleton.2 ⟨.negation flat compound, rfl⟩

/-- The disjuncts of a flat constraint are flat and no disjunctions. -/
theorem Flat.disjuncts (h : c.Flat Γ) : ∀ p ∈ c.disjuncts, p.Flat Γ ∧ p.disjuncts = [p] := by
  cases h with
  | disjunction flat are => exact fun p hp => ⟨flat p hp, are.alone p hp⟩
  | interval regular arranged =>
    exact List.forall_mem_singleton.2 ⟨.interval regular arranged, rfl⟩
  | conjunction flat are => exact List.forall_mem_singleton.2 ⟨.conjunction flat are, rfl⟩
  | negation flat compound => exact List.forall_mem_singleton.2 ⟨.negation flat compound, rfl⟩

/-- Merging keeps constraints flat. -/
theorem Flat.mergeIntervals {combine : Interval → Interval → Interval}
    {flatten : Constraint → List Constraint}
    (single : ∀ i, flatten (.interval i) = [.interval i])
    (regular : ∀ i j, (Constraint.interval i).Regular Γ → (Constraint.interval j).Regular Γ →
      i.column.id = j.column.id → (Constraint.interval (combine i j)).Regular Γ)
    (arranged : ∀ {τ : DataType} {i j : Interval}, i.Regular τ → j.Regular τ →
      Range.Arranged (combine i j).ranges) (hcs : ∀ c ∈ cs, c.Flat Γ ∧ flatten c = [c]) :
    ∀ d ∈ Constraint.mergeIntervals combine cs, d.Flat Γ ∧ flatten d = [d] := by
  refine forall_mem_mergeIntervals hcs fun i j hi hj same => ⟨?_, single _⟩
  cases hi.1 with | interval hi _ => ?_
  cases hj.1 with | interval hj _ => ?_
  cases regular i j (.interval hi) (.interval hj) same with | interval merged => ?_
  exact .interval merged (arranged hi (same ▸ hj))

/-- A conjunction of flat constraints is flat. -/
theorem Flat.conjunction? (hcs : ∀ c ∈ cs, c.Flat Γ)
    (made : Constraint.conjunction? cs strategy = some c) : c.Flat Γ := by
  obtain ⟨parts, hparts, cases⟩ := conjunction?_cases made
  have flat : ∀ p ∈ cs.flatMap Constraint.conjuncts, p.Flat Γ ∧
      p.conjuncts = [p] := fun p hp => by
    obtain ⟨e, he, hp⟩ := List.mem_flatMap.1 hp
    exact (hcs e he).conjuncts p hp
  have merged :=
    Flat.mergeIntervals (fun _ => rfl) (regular_combine_intersect (Γ := Γ))
      Interval.arranged_intersect flat
  have kept : ∀ p ∈ parts, p.Flat Γ ∧ p.conjuncts = [p] := fun p hp =>
    merged p (List.mem_filter.1 (hparts ▸ hp)).1
  rcases cases with single | ⟨two, rfl⟩
  · exact (kept c (by simp [single])).1
  · refine .conjunction (fun p hp => (kept p hp).1)
      ⟨fun p hp => (kept p hp).2, fun p hp => ?_, ?_, two⟩
    · rw [hparts] at hp
      simpa using (List.mem_filter.1 hp).2
    · rw [hparts]
      exact (separate_mergeIntervals column_intersect _).sublist List.filter_sublist

/-- A disjunction of flat constraints is flat. -/
theorem Flat.disjunction? (hcs : ∀ c ∈ cs, c.Flat Γ)
    (made : Constraint.disjunction? cs strategy = some c) : c.Flat Γ := by
  obtain ⟨merged, hmerged, bounded, cases⟩ := disjunction?_cases made
  have flat : ∀ p ∈ cs.flatMap Constraint.disjuncts, p.Flat Γ ∧
      p.disjuncts = [p] := fun p hp => by
    obtain ⟨e, he, hp⟩ := List.mem_flatMap.1 hp
    exact (hcs e he).disjuncts p hp
  have kept : ∀ p ∈ merged, p.Flat Γ ∧ p.disjuncts = [p] := hmerged ▸
    Flat.mergeIntervals (fun _ => rfl) (regular_combine_union (Γ := Γ)) Interval.arranged_union
      fun p hp => flat p (List.mem_filter.1 hp).1
  rcases cases with contradiction | single | ⟨two, rfl⟩
  · exact (flat c contradiction).1
  · exact (kept c (by simp [single])).1
  · refine .disjunction (fun p hp => (kept p hp).1)
      ⟨fun p hp => (kept p hp).2, bounded, ?_, two⟩
    exact hmerged ▸ separate_mergeIntervals column_union _

/-- The negation of a flat constraint is flat. -/
theorem Flat.negate (h : c.Flat Γ) : c.negate.Flat Γ := by
  cases h with
  | interval regular arranged =>
    exact .interval (Interval.complement_spec regular).1 (Interval.arranged_complement regular)
  | conjunction flat are => exact .negation (.conjunction flat are) rfl
  | disjunction flat are => exact .negation (.disjunction flat are) rfl
  | negation flat compound => exact flat

/-- What is built is flat. -/
theorem Built.flat (h : c.Built Γ) : c.Flat Γ := by
  induction h with
  | interval col includeNull typed =>
    exact .interval (Interval.ofRanges_spec col includeNull typed).1
      (Range.arranged_normalize typed)
  | conjunction _ made ih => exact .conjunction? ih made
  | disjunction _ made ih => exact .disjunction? ih made
  | negation _ ih => exact ih.negate

end Constraint

namespace Constraint

variable {c d : Constraint} {cs ds parts : List Constraint} {i j : Interval}
  {strategy : LookupStrategy}

/-! ### Connectives -/

/-- What joins the members of a chain. -/
inductive Connective where
  | and
  | or
  deriving DecidableEq

namespace Connective

/-- The operator between the members. -/
def op : Connective → BinaryOp
  | and => .and
  | or => .or

/-- The members that a constraint contributes to a chain. -/
def flatten : Connective → Constraint → List Constraint
  | and => conjuncts
  | or => disjuncts

/-- How two intervals on one column are joined. -/
def combine : Connective → Interval → Interval → Interval
  | and => Interval.intersect
  | or => Interval.union

/-- The constraint of some members. -/
def join : Connective → List Constraint → LookupStrategy → Option Constraint
  | and => conjunction?
  | or => disjunction?

/-- The constraint with the given parts. -/
def build : Connective → List Constraint → LookupStrategy → Constraint
  | and => conjunction
  | or => disjunction

variable (k : Connective)

@[simp] theorem flatten_build : k.flatten (k.build cs strategy) = cs := by
  cases k <;> rfl

/-- Conjunctions and disjunctions have different operators. -/
theorem op_injective {k l : Connective} (same : k.op = l.op) : k = l := by
  cases k <;> cases l <;> first | rfl | cases same

end Connective

/-! ### Pieces -/

/-- Whether merging constraints one after the other into others that are separate adds a
constraint at the end. -/
def Gathers (combine : Interval → Interval → Interval) (cs : List Constraint)
    (c : Constraint) : Prop :=
  ∀ merged : List Constraint, (∀ d ∈ merged, d.Separate c) →
    cs.foldl (fun acc c => mergeInto combine c acc) merged = merged ++ [c]

variable {combine : Interval → Interval → Interval}

/-- What is separate from everything that is there is added at the end. -/
theorem mergeInto_of_separate (separate : ∀ d ∈ cs, d.Separate c) :
    mergeInto combine c cs = cs ++ [c] := by
  fun_induction mergeInto combine c cs with
  | case1 => rfl
  | case2 ds i j eq same =>
    subst eq
    exact absurd (Column.beq_iff.1 same) (separate _ (by simp) i j rfl rfl)
  | case3 ds i j eq _ ih =>
    subst eq
    rw [ih (List.forall_mem_cons.1 separate).2, List.cons_append]
  | case4 d ds _ ih => rw [ih (List.forall_mem_cons.1 separate).2, List.cons_append]

/-- An interval is combined with the last one, if that is the one on its column. -/
theorem mergeInto_append_interval (separate : ∀ d ∈ cs, d.Separate (.interval i))
    (same : i.column.id = j.column.id) :
    mergeInto combine (.interval j) (cs ++ [.interval i]) =
      cs ++ [.interval (combine i j)] := by
  induction cs with
  | nil => simp [mergeInto, Column.beq_iff.2 same]
  | cons d cs ih =>
    obtain ⟨first, rest⟩ := List.forall_mem_cons.1 separate
    rw [List.cons_append, List.cons_append, ← ih rest]
    cases d with
    | interval l =>
      have other : (l.column == j.column) = false :=
        Bool.eq_false_iff.2 fun equal =>
          first l i rfl rfl ((Column.beq_iff.1 equal).trans same.symm)
      simp [mergeInto, other]
    | _ => simp [mergeInto]

/-- A constraint that is separate from the others is added as it is. -/
theorem gathers_singleton (combine : Interval → Interval → Interval) (c : Constraint) :
    Gathers combine [c] c :=
  fun _ separate => mergeInto_of_separate separate

/-- One more interval on the same column is combined with what was gathered before. -/
theorem Gathers.append_interval (h : Gathers combine cs (.interval i))
    (same : i.column.id = j.column.id) (kept : (combine i j).column = i.column) :
    Gathers combine (cs ++ [.interval j]) (.interval (combine i j)) := by
  intro merged separate
  have apart : ∀ d ∈ merged, d.Separate (.interval i) := by
    rintro d hd l _ hl ⟨⟩
    exact kept ▸ separate d hd l _ hl rfl
  rw [List.foldl_append, h merged apart]
  exact mergeInto_append_interval apart same

/-- What the pieces of separate constraints are gathered to. -/
theorem mergeIntervals_flatMap {f : Constraint → List Constraint} {g : Constraint → Constraint}
    (gathers : ∀ p ∈ parts, Gathers combine (f p) (g p))
    (separate : (parts.map g).Pairwise Separate) :
    mergeIntervals combine (parts.flatMap f) = parts.map g := by
  suffices all : ∀ merged : List Constraint, (merged ++ parts.map g).Pairwise Separate →
      (parts.flatMap f).foldl (fun acc c => mergeInto combine c acc) merged =
      merged ++ parts.map g from all [] separate
  clear separate
  induction parts with
  | nil => simp
  | cons p parts ih =>
    obtain ⟨first, rest⟩ := List.forall_mem_cons.1 gathers
    intro merged separate
    have before : ∀ d ∈ merged, d.Separate (g p) := fun d hd =>
      (List.pairwise_append.1 separate).2.2 d hd _ (by simp)
    rw [List.flatMap_cons, List.foldl_append, first merged before,
      ih rest _ (by simpa using separate)]
    simp

/-- Whether constraints are members of a chain that put a constraint together. -/
structure Pieces (k : Connective) (cs : List Constraint) (c : Constraint) : Prop where
  alone : ∀ q ∈ cs, k.flatten q = [q]
  bounded : ∀ q ∈ cs, q.isUnbounded = false
  satisfiable : ∀ q ∈ cs, q.isContradiction = false
  gathers : Gathers k.combine cs c

/-- A member of a chain is its only piece. -/
theorem pieces_singleton {k : Connective} (alone : k.flatten c = [c])
    (bounded : c.isUnbounded = false) (satisfiable : c.isContradiction = false) :
    Pieces k [c] c where
  alone := List.forall_mem_singleton.2 alone
  bounded := List.forall_mem_singleton.2 bounded
  satisfiable := List.forall_mem_singleton.2 satisfiable
  gathers := gathers_singleton _ _

/-- Taking constraints apart that stand alone changes nothing. -/
theorem flatMap_eq_self {f : Constraint → List Constraint} (alone : ∀ q ∈ cs, f q = [q]) :
    cs.flatMap f = cs := by
  induction cs with
  | nil => rfl
  | cons c cs ih =>
    obtain ⟨first, rest⟩ := List.forall_mem_cons.1 alone
    rw [List.flatMap_cons, first, ih rest, List.singleton_append]

namespace Connective

variable (k : Connective)

/-- Members that are neither unbounded nor contradictions are joined by merging them. -/
theorem join_eq (alone : ∀ q ∈ cs, k.flatten q = [q])
    (bounded : ∀ q ∈ cs, q.isUnbounded = false)
    (satisfiable : ∀ q ∈ cs, q.isContradiction = false)
    (merged : mergeIntervals k.combine cs = ds) (kept : ∀ d ∈ ds, d.isUnbounded = false) :
    (∀ d, ds = [d] → k.join cs strategy = some d) ∧
      (2 ≤ ds.length → k.join cs strategy = some (k.build ds strategy)) := by
  have flat := flatMap_eq_self alone
  have full (es : List Constraint) (h : ∀ d ∈ es, d.isUnbounded = false) :
      ¬es.any isUnbounded = true := by
    simpa using h
  cases k with
  | and =>
    obtain ⟨_, rfl, eq⟩ := conjunction?_eq cs strategy
    simp only [flatten, combine] at flat merged
    have all : ds.filter (!·.isUnbounded) = ds :=
      List.filter_eq_self.2 fun d hd => by simp [kept d hd]
    rw [flat, merged, all] at eq
    simp only [join, build, eq]
    rcases ds with _ | ⟨d, _ | ⟨e, ds⟩⟩ <;> simp
  | or =>
    obtain ⟨_, _, rfl, rfl, eq⟩ := disjunction?_eq cs strategy
    simp only [flatten, combine] at flat merged
    have all : cs.filter (!·.isContradiction) = cs :=
      List.filter_eq_self.2 fun q hq => by simp [satisfiable q hq]
    rw [flat, all, merged, if_neg (full cs bounded), if_neg (full ds kept)] at eq
    simp only [join, build, eq]
    rcases ds with _ | ⟨d, _ | ⟨e, ds⟩⟩ <;> simp

/-- The pieces of a constraint join to it. -/
theorem join_of_gathers (pieces : Pieces k cs c) (bounded : c.isUnbounded = false) :
    k.join cs strategy = some c :=
  (k.join_eq pieces.alone pieces.bounded pieces.satisfiable (pieces.gathers [] (by simp))
    (List.forall_mem_singleton.2 bounded)).1 c rfl

/-- The pieces of some parts join to the conjunction or disjunction of the parts. -/
theorem join_of_pieces {f : Constraint → List Constraint} {g : Constraint → Constraint}
    (pieces : ∀ p ∈ parts, Pieces k (f p) (g p)) (separate : (parts.map g).Pairwise Separate)
    (bounded : ∀ p ∈ parts, (g p).isUnbounded = false) (two : 2 ≤ parts.length) :
    k.join (parts.flatMap f) strategy = some (k.build (parts.map g) strategy) := by
  have each {P : Constraint → Prop} (h : ∀ p ∈ parts, ∀ q ∈ f p, P q) :
      ∀ q ∈ parts.flatMap f, P q := fun q hq => by
    obtain ⟨p, hp, hq⟩ := List.mem_flatMap.1 hq
    exact h p hp q hq
  refine (k.join_eq (each fun p hp => (pieces p hp).alone)
    (each fun p hp => (pieces p hp).bounded) (each fun p hp => (pieces p hp).satisfiable)
    (mergeIntervals_flatMap (fun p hp => (pieces p hp).gathers) separate) ?_).2
      (by simpa using two)
  exact List.forall_mem_map.2 bounded

end Connective

end Constraint

open Constraint

/-! ### Chains of predicates -/

namespace Scalar

variable {op : BinaryOp} {es : List Scalar} {e : Scalar}

/-- A chain of at least two predicates ends in a last one. -/
theorem exists_eq_binary_of_chain (made : chain op es = some e) (two : 2 ≤ es.length) :
    ∃ l r, e = .binary op l r := by
  obtain ⟨first, rest, rfl⟩ :=
    List.exists_cons_of_length_pos (Nat.lt_of_lt_of_le Nat.two_pos two)
  obtain rfl := Option.some.inj made
  obtain rfl | ⟨rest, last, rfl⟩ := List.eq_nil_or_concat rest
  · simp at two
  · exact ⟨rest.foldl (.binary op) first, last, by simp⟩

end Scalar

namespace Reading

variable {K : Type} {catalog : Catalog K} {chain : Option BinaryOp} {e l r : Scalar}
  {c : Constraint}
  {cs ls rs ps : List Constraint} {k : Connective}

/-- Exact readings of constraints. -/
def exactly (cs : List Constraint) : List (Option Reading) :=
  cs.map fun c => some ⟨c, true⟩

/-- The exact readings of two lists are those of both. -/
theorem exactly_append (cs ds : List Constraint) :
    exactly (cs ++ ds) = exactly cs ++ exactly ds :=
  List.map_append

/-- Each exact reading says something. -/
theorem any_isNone_exactly (cs : List Constraint) : ¬(exactly cs).any (·.isNone) = true := by
  simp [exactly]

/-- The constraints of exact readings are the ones that were read. -/
theorem constraints_exactly (cs : List Constraint) :
    (exactly cs).filterMap (·.map (·.constraint)) = cs := by
  simp [exactly, List.filterMap_map]

/-- Exact readings are exact. -/
theorem all_exact_exactly (cs : List Constraint) :
    ((exactly cs).all fun part => part.any (·.exact)) = true := by
  simp [exactly]

/-- Exact readings make up an exact reading of the conjunction. -/
theorem conjoin_exactly (cs : List Constraint) :
    conjoin (exactly cs) = (conjunction? cs .index).map (⟨·, true⟩) := by
  rw [conjoin, constraints_exactly, all_exact_exactly]

/-- Exact readings make up an exact reading of the disjunction. -/
theorem disjoin_exactly (cs : List Constraint) :
    disjoin (exactly cs) = (disjunction? cs .index).map (⟨·, true⟩) := by
  rw [disjoin, if_neg (any_isNone_exactly cs), constraints_exactly, all_exact_exactly]

/-- Whether a predicate, as a part of a chain, reads as constraints. -/
def Reads (catalog : Catalog K) (chain : Option BinaryOp) (e : Scalar) (cs : List Constraint) :
    Prop :=
  parts catalog chain e = .ok (exactly cs)

namespace Reads

/-- Inside a chain, the members on both sides are its members. -/
theorem binary (hl : Reads catalog (some k.op) l ls) (hr : Reads catalog (some k.op) r rs) :
    Reads catalog (some k.op) (.binary k.op l r) (ls ++ rs) := by
  unfold Reads at *
  cases k with
  | and =>
    simp only [Connective.op] at *
    rw [parts, hl, hr, exactly_append]
    rfl
  | or =>
    simp only [Connective.op] at *
    rw [parts, exactly_append]
    refine OptResult.bind_eq_ok.2 ⟨_, hl, ?_⟩
    rw [if_neg (any_isNone_exactly ls)]
    exact OptResult.bind_eq_ok.2 ⟨_, hr, rfl⟩

/-- Outside of a chain, its members are joined. -/
theorem joined (h : Reads catalog (some k.op) (.binary k.op l r) cs)
    (outside : chain ≠ some k.op) (made : k.join cs .index = some c) :
    Reads catalog chain (.binary k.op l r) [c] := by
  unfold Reads at *
  have other : ¬(chain == some k.op) = true := by simpa using outside
  cases k with
  | and =>
    simp only [Connective.op, Connective.join] at *
    rw [parts] at h ⊢
    obtain ⟨left, hl, h⟩ := OptResult.bind_eq_ok.1 h
    obtain ⟨right, hr, h⟩ := OptResult.bind_eq_ok.1 h
    have members : left ++ right = exactly cs := OptResult.pure_eq_ok.1 h
    refine OptResult.bind_eq_ok.2
      ⟨left, hl, OptResult.bind_eq_ok.2 ⟨right, hr, OptResult.pure_eq_ok.2 ?_⟩⟩
    rw [if_neg other, members, conjoin_exactly, made]
    rfl
  | or =>
    simp only [Connective.op, Connective.join] at *
    rw [parts] at h ⊢
    obtain ⟨left, hl, h⟩ := OptResult.bind_eq_ok.1 h
    refine OptResult.bind_eq_ok.2 ⟨left, hl, ?_⟩
    by_cases unknown : left.any (·.isNone) = true
    · rw [if_pos unknown] at h
      have members : left = exactly cs := OptResult.pure_eq_ok.1 h
      exact absurd (members ▸ unknown) (any_isNone_exactly cs)
    · rw [if_neg unknown] at h ⊢
      obtain ⟨right, hr, h⟩ := OptResult.bind_eq_ok.1 h
      have members : left ++ right = exactly cs := OptResult.pure_eq_ok.1 h
      refine OptResult.bind_eq_ok.2 ⟨right, hr, OptResult.pure_eq_ok.2 ?_⟩
      rw [if_neg other, members, disjoin_exactly, made]
      rfl

/-- A chain of predicates has the members of all of them. -/
theorem of_chain {α : Type} {xs : List α} {f : α → Scalar} {g : α → List Constraint}
    (reads : ∀ x ∈ xs, Reads catalog (some k.op) (f x) (g x))
    (made : Scalar.chain k.op (xs.map f) = some e) :
    Reads catalog (some k.op) e (xs.flatMap g) := by
  have extended (start : Scalar) (members : List Constraint)
      (first : Reads catalog (some k.op) start members) (xs : List α)
      (reads : ∀ x ∈ xs, Reads catalog (some k.op) (f x) (g x)) :
      Reads catalog (some k.op) ((xs.map f).foldl (.binary k.op) start)
        (members ++ xs.flatMap g) := by
    induction xs generalizing start members with
    | nil => simpa using first
    | cons x xs ih =>
      obtain ⟨next, rest⟩ := List.forall_mem_cons.1 reads
      simpa using ih _ _ (first.binary next) rest
  cases xs with
  | nil => cases made
  | cons x xs =>
    obtain ⟨first, rest⟩ := List.forall_mem_cons.1 reads
    obtain rfl := Option.some.inj made
    exact extended (f x) (g x) first xs rest

/-- A negation is read on its own. -/
theorem not (h : Reads catalog none e [c]) (chain : Option BinaryOp) :
    Reads catalog chain (.not e) [c.negate] := by
  unfold Reads at *
  rw [parts, h]
  rfl

end Reads

/-! ### Reading back -/

/-- Whether a predicate reads as a constraint on its own and as pieces of it in each chain that
it can be a part of. -/
structure ReadsBack (catalog : Catalog K) (e : Scalar) (c : Constraint) : Prop where
  whole : Reads catalog none e [c]
  members : ∀ k : Connective, k.flatten c = [c] →
    ∃ cs, Reads catalog (some k.op) e cs ∧ Pieces k cs c

namespace ReadsBack

/-- A predicate that reads as one constraint everywhere. -/
theorem of_reads (reads : ∀ chain, Reads catalog chain e [c]) (bounded : c.isUnbounded = false)
    (satisfiable : c.isContradiction = false) : ReadsBack catalog e c :=
  ⟨reads none, fun k alone =>
    ⟨[c], reads (some k.op), pieces_singleton alone bounded satisfiable⟩⟩

/-- A chain of pieces that is read outside of the chain as what they join to. -/
theorem of_joined (reads : Reads catalog (some k.op) (.binary k.op l r) cs)
    (made : k.join cs .index = some c) (own : k.flatten c = [c] → Pieces k cs c)
    (bounded : c.isUnbounded = false) (satisfiable : c.isContradiction = false) :
    ReadsBack catalog (.binary k.op l r) c where
  whole := reads.joined (by simp) made
  members m alone := by
    by_cases same : m = k
    · subst same
      exact ⟨cs, reads, own alone⟩
    · have outside : some m.op ≠ some k.op :=
        fun h => same (Connective.op_injective (Option.some.inj h))
      exact ⟨[c], reads.joined outside made, pieces_singleton alone bounded satisfiable⟩

/-- A chain of the pieces of an interval reads as the interval. -/
theorem of_pieces (reads : Reads catalog (some k.op) (.binary k.op l r) cs)
    (pieces : Pieces k cs c) (bounded : c.isUnbounded = false)
    (satisfiable : c.isContradiction = false) : ReadsBack catalog (.binary k.op l r) c :=
  .of_joined reads (k.join_of_gathers pieces bounded) (fun _ => pieces) bounded satisfiable

/-- A chain of the pieces of some parts reads as their conjunction or disjunction. -/
theorem of_parts {f : Constraint → Scalar} {g : Constraint → Constraint}
    (back : ∀ p ∈ ps, ReadsBack catalog (f p) (g p)) (are : AreParts k.flatten (ps.map g))
    (made : Scalar.chain k.op (ps.map f) = some e)
    (bounded : (k.build (ps.map g) .index).isUnbounded = false)
    (satisfiable : (k.build (ps.map g) .index).isContradiction = false) :
    ReadsBack catalog e (k.build (ps.map g) .index) := by
  have each (p : Constraint) (hp : p ∈ ps) :=
    (back p hp).members k (are.alone _ (List.mem_map_of_mem hp))
  choose! pieces reads gathers using each
  have two : 2 ≤ ps.length := by simpa using are.two
  obtain ⟨l, r, rfl⟩ := Scalar.exists_eq_binary_of_chain made (by simpa using two)
  have joined : k.join (ps.flatMap pieces) .index = some (k.build (ps.map g) .index) :=
    k.join_of_pieces gathers are.separate
      (fun p hp => are.bounded _ (List.mem_map_of_mem hp)) two
  refine .of_joined (.of_chain reads made) joined (fun alone => ?_) bounded satisfiable
  -- a conjunction is no single member of a chain of conjunctions
  rw [Connective.flatten_build] at alone
  have two := are.two
  rw [alone] at two
  simp at two

end ReadsBack

end Reading

end QueryOptimizer
