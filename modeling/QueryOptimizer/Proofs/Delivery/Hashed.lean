import QueryOptimizer.Proofs.Delivery.Alternative
import QueryOptimizer.Proofs.Delivery.Placement
import QueryOptimizer.Proofs.Result

/-!
# Hashed rows

An operator that delivers a hashed distribution has moved or read its rows, leaves the rows of
its first input in place, or works on rows that have been hashed.

## Main results

* `Distribution.hashing?_of_satisfies`: what is as good as a hashed distribution is hashed
  on some of its columns.
* `PhysicalOperator.Delivers.hashes`: how an operator comes to deliver a hashed distribution.
-/

namespace QueryOptimizer

/-! ### Hashed distributions -/

namespace Distribution

/-- What is as good as a hashed distribution is hashed on columns of it. -/
theorem hashing?_of_satisfies {d required : Distribution} (good : d.satisfies required = true)
    {cols : List Column} (hashed : required.hashing? = some cols) :
    ∃ cs, d.hashing? = some cs ∧ ∀ c ∈ cs, cols.contains c = true := by
  have same {cs ds : List Column} (h : cs.map Column.bare = ds.map Column.bare) :
      ∀ c ∈ cs, ds.contains c = true := by
    intro c hc
    rw [← Column.contains_map_bare, ← h, Column.contains_map_bare]
    exact List.contains_iff_exists_mem_beq.2 ⟨c, hc, BEq.rfl⟩
  simp only [satisfies, Bool.or_eq_true] at good
  rcases good with equal | within
  · have ids := beq_iff_bare.1 equal
    cases d <;> cases required <;> simp_all [bare, hashing?] <;> exact same ids.1
  · cases required <;> cases d <;> simp_all [hashing?, hashesWithin]

/-- A hashed distribution places rows by the hash of its columns. -/
theorem placement_of_hashing? {d : Distribution} {cols : List Column}
    (h : d.hashing? = some cols) (f : HashFunction) :
    d.placement f = fun r s => s = f (r.tuple cols) := by
  cases d <;> cases h <;> rfl

end Distribution

/-- Whether an alternative requires of the first input the distribution that it delivers. -/
def Alternative.KeepsFirst (a : Alternative) : Prop :=
  ∃ r rs, a.requires = r :: rs ∧ r.distribution = a.delivers.distribution

section

variable {required : PhysicalProperty} {outs : List ColumnSet} {as : List Alternative}
  {a : Alternative}

/-- An operator that passes its input on delivers no hash but that of the input. -/
theorem keepsFirst_of_passThrough (listed : passThrough required outs = .ok as)
    (mem : a ∈ as) :
    a.KeepsFirst := by
  obtain ⟨produced, -, listed⟩ := OptResult.bind_eq_ok.1 listed
  cases produced <;> cases listed <;> obtain rfl := List.mem_singleton.1 mem <;>
    exact ⟨_, _, rfl, rfl⟩

/-- A join by broadcasting or gathering delivers no hash but that of its left input. -/
theorem keepsFirst_of_broadcastOrGather (listed : broadcastOrGather required outs = .ok as)
    (mem : a ∈ as) : a.KeepsFirst := by
  obtain ⟨produced, -, listed⟩ := OptResult.bind_eq_ok.1 listed
  cases listed
  rcases List.mem_pair.1 mem with rfl | rfl <;> exact ⟨_, _, rfl, rfl⟩

/-- The keys of a join are required of both inputs, and there are some. -/
theorem colocated_eq_ok {predicate : Scalar} (listed : colocated predicate outs = .ok as) :
    ∃ left right, outs[0]? = some left ∧ outs[1]? = some right ∧
      as = if (JoinPredicate.ofPredicate predicate left right).equalities.isEmpty then [] else
        [⟨.hashedOn ((JoinPredicate.ofPredicate predicate left right).equalities.map (·.1)),
          [.hashedOn ((JoinPredicate.ofPredicate predicate left right).equalities.map (·.1)),
           .hashedOn
             ((JoinPredicate.ofPredicate predicate left right).equalities.map (·.2))]⟩] := by
  obtain ⟨left, hleft, listed⟩ := OptResult.bind_eq_ok.1 listed
  obtain ⟨right, hright, listed⟩ := OptResult.bind_eq_ok.1 listed
  refine ⟨left, right, OptResult.elementAt_eq_ok.1 hleft,
    OptResult.elementAt_eq_ok.1 hright, ?_⟩
  simp only [List.unzip_eq_map, List.isEmpty_map] at listed
  split at listed <;> simp_all

/-- A join of rows that meet delivers no hash but that of its left input. -/
theorem keepsFirst_of_colocated {predicate : Scalar}
    (listed : colocated predicate outs = .ok as) (mem : a ∈ as) : a.KeepsFirst := by
  obtain ⟨left, right, -, -, rfl⟩ := colocated_eq_ok listed
  split at mem
  · cases mem
  · obtain rfl := List.mem_singleton.1 mem
    exact ⟨_, _, rfl, rfl⟩

end

namespace PhysicalOperator

/-- How an operator comes to have a hashed distribution: it moves or reads rows, it leaves the
rows of its first input in place, it makes groups of rows that have been hashed, or it combines
rows that have been hashed. -/
inductive Hashes (op : PhysicalOperator) (d : Distribution)
    (requires : List PhysicalProperty) : Prop
  | source (place : ∀ f ps, op.place f ps = d.placement f)
      (hashings : ∀ hs, op.hashings hs = d.hashing?.toList)
  | forwards (place : ∀ f ps, op.place f ps = ps.headD fun _ _ => False)
      (hashings : ∀ hs, op.hashings hs = hs.headD [])
      (required : ∃ r rs, requires = r :: rs ∧ r.distribution = d)
  | groups {g : Grouping} (h : op = .hashAggregate g) (hd : d = .hashedOn g.keys)
      (required : requires = [.hashedOn g.keys])
  | combines {s : SetOperation} (h : op = .hashSetOp s) (hd : d = .hashedOn s.output)
      (required : requires = s.inputs.map .hashedOn)

/-- An alternative that delivers a hash is right about it. -/
theorem Hashes.of_alternative {op : PhysicalOperator} {outs : List ColumnSet}
    {required : PhysicalProperty} {as : List Alternative} {a : Alternative}
    (listed : op.alternatives required outs = .ok as) (mem : a ∈ as) {cols : List Column}
    (hashed : a.delivers.distribution.hashing? = some cols) :
    op.Hashes a.delivers.distribution a.requires := by
  have forwards (place : ∀ f ps, op.place f ps = ps.headD fun _ _ => False)
      (hashings : ∀ hs, op.hashings hs = hs.headD []) (keeps : a.KeepsFirst) :
      op.Hashes a.delivers.distribution a.requires :=
    .forwards place hashings keeps
  cases op with
  | tableScan s | dynamicTableScan s | motion m =>
    cases listed
    obtain rfl := List.mem_singleton.1 mem
    exact .source (fun _ _ => rfl) fun _ => rfl
  | valuesScan _ | limit _ | sequence _ | cteProducer _ | cteConsumer _ =>
    cases listed
    obtain rfl := List.mem_singleton.1 mem
    cases hashed
  | unionAll s =>
    cases listed
    rcases List.mem_pair.1 mem with rfl | rfl <;> cases hashed
  | filter _ | compute _ =>
    exact forwards (by rintro f (_ | _) <;> rfl) (by rintro (_ | _) <;> rfl)
      (keepsFirst_of_passThrough listed mem)
  | nestedLoopJoin _ | indexNestedLoopJoin _ =>
    exact forwards (by rintro f (_ | _) <;> rfl) (by rintro (_ | _) <;> rfl)
      (keepsFirst_of_broadcastOrGather listed mem)
  | sort o =>
    cases listed
    obtain rfl := List.mem_singleton.1 mem
    exact forwards (by rintro f (_ | _) <;> rfl) (by rintro (_ | _) <;> rfl) ⟨_, _, rfl, rfl⟩
  | hashJoin j =>
    obtain ⟨byKeys, hkeys, others, hothers, rfl⟩ := by
      simpa only [alternatives, OptResult.bind_eq_ok, OptResult.pure_eq_ok] using listed
    refine forwards (by rintro f (_ | _) <;> rfl) (by rintro (_ | _) <;> rfl) ?_
    rcases List.mem_append.1 mem with mem | mem
    · exact keepsFirst_of_colocated hkeys mem
    · exact keepsFirst_of_broadcastOrGather hothers mem
  | hashAggregate g =>
    cases listed
    rcases List.mem_cons.1 mem with rfl | mem
    · cases hashed
    · split at mem
      · cases mem
      · obtain rfl := List.mem_singleton.1 mem
        exact .groups rfl rfl rfl
  | hashSetOp s =>
    cases listed
    rcases List.mem_pair.1 mem with rfl | rfl
    · exact .combines rfl rfl rfl
    · cases hashed

/-- An operator that delivers a hash is right about it. -/
theorem Delivers.hashes {op : PhysicalOperator} {outs : List ColumnSet} {p : PhysicalProperty}
    {requires : List PhysicalProperty} (h : op.Delivers outs p requires) {cols : List Column}
    (hashed : p.distribution.hashing? = some cols) : op.Hashes p.distribution requires := by
  cases h with
  | alternative listed mem => exact .of_alternative listed mem hashed
  | motion h below =>
    subst h
    exact .source (fun _ _ => rfl) fun _ => rfl
  | sort h below =>
    subst h
    exact .forwards (by rintro f (_ | _) <;> rfl) (by rintro (_ | _) <;> rfl) ⟨_, _, rfl, rfl⟩

end PhysicalOperator

end QueryOptimizer
