import QueryOptimizer.Proofs.Number.Quantity
import QueryOptimizer.Proofs.Search.States

/-!
# Stages of an optimization

The stages are searched in order, each on the memo that the ones before it have left. A stage
keeps what its own search has found (`Stage.search`). The stages end with the first one that is
good enough or fails, or with the last one, and the ones after that stay as they are. From what
the stages keep, the cheapest plan is chosen, the first one of several (`Chosen`).

## Main results

* `runStages_spec`: how the stages are gone through, by recursion over them.
* `cheapest?_spec`: the plan that is chosen is one of the cheapest, and the first of these.
* `optimize_keeps_best`: what an optimization does with fresh stages.
-/

namespace QueryOptimizer

variable {K : Type} [Quantity K] {env : Environment K} {budget : Nat}
  {required : PhysicalProperty}
  {stages : List (Stage K)} {m m' : Memo K}

/-! ### One stage -/

namespace Stage

/-- The search of a stage on a memo: the best plan that the memo holds in the end, with its
cost, and this memo. -/
def search (env : Environment K) (budget : Nat) (required : PhysicalProperty) (s : Stage K)
    (m : Memo K) : OptResult (Option (Plan K × K)) × Memo K :=
  match (schedule env s.rules s.timeLimit budget 0
    [.optimizeGroup m.root ⟨required, .unlimited⟩]).exec m.reset with
  | (.error e, m') => (.error e, m')
  | (.ok _, m') =>
    match m'.winner? m.root required with
    | some w => ((m'.bestPlan required).map fun plan => some (plan, w.cost), m')
    | none => (.ok none, m')

/-- A stage that has found what it was searched for. -/
def keep (s : Stage K) (found : Option (Plan K × K)) : Stage K :=
  { s with best := found }

omit [Quantity K] in
/-- A stage that has found nothing stays as it was. -/
theorem keep_none {s : Stage K} (fresh : s.best = none) : s.keep none = s := by
  cases s
  cases fresh
  rfl

/-- A fresh stage keeps what its search has found. -/
theorem exec_run_of_fresh {s : Stage K} (fresh : s.best = none) :
    (s.run env budget required).exec m =
      ((s.search env budget required m).1.map s.keep, (s.search env budget required m).2) := by
  have complete (plan : Plan K) (cost : K) :
      s.complete plan cost = .ok (s.keep (some (plan, cost))) := by
    rw [Stage.complete, fresh]
    rfl
  rw [exec_run, search]
  rcases (schedule env s.rules s.timeLimit budget 0
    [.optimizeGroup m.root ⟨required, .unlimited⟩]).exec m.reset with ⟨e | _, m'⟩
  · rfl
  · dsimp only
    cases m'.winner? m.root required with
    | none => exact congrArg (Except.ok ·, m') (keep_none fresh).symm
    | some w =>
      cases m'.bestPlan required with
      | error e => rfl
      | ok plan => exact congrArg (·, m') (complete plan w.cost)

end Stage

/-! ### Going through the stages -/

/-- The memo before a stage: the stages before it have been searched. -/
def memoBefore (env : Environment K) (budget : Nat) (required : PhysicalProperty)
    (stages : List (Stage K)) (m : Memo K) (i : Nat) : Memo K :=
  (stages.take i).foldl (fun m s => (s.search env budget required m).2) m

/-- How the first `n` of some fresh stages were searched, numbered from `number` on. -/
structure StageRun.Searched (env : Environment K) (budget : Nat) (required : PhysicalProperty)
    (stages : List (Stage K)) (m : Memo K) (number : Nat) (run : StageRun K) (n : Nat) :
    Prop where
  bounded : n ≤ stages.length
  memo : run.memo = memoBefore env budget required stages m n
  /-- Each of them was started once. -/
  started : run.started = ((stages.take n).zipIdx number).map fun (s, i) => (i, s.rules)
  /-- A stage keeps what its search has found. -/
  completed : ∀ i s found, i < n → stages[i]? = some s →
    (s.search env budget required (memoBefore env budget required stages m i)).1 = .ok found →
    run.stages[i]? = some (s.keep found)
  /-- A search that fails is the last one, and the error is kept. -/
  failed : ∀ i s e, i < n → stages[i]? = some s →
    (s.search env budget required (memoBefore env budget required stages m i)).1 = .error e →
    i + 1 = n ∧ run.stages[i]? = some s ∧ run.failure = some e
  /-- There is no other error. -/
  failure : ∀ e, run.failure = some e → ∃ i s, i < n ∧ stages[i]? = some s ∧
    (s.search env budget required (memoBefore env budget required stages m i)).1 = .error e
  /-- The other stages stay as they are. -/
  kept : ∀ i, n ≤ i → run.stages[i]? = stages[i]?
  /-- A stage that is good enough is the last one. -/
  last : ∀ i s, run.stages[i]? = some s → s.isGoodEnough = true → i + 1 = n
  /-- All stages are searched unless one is good enough or fails. -/
  all : n < stages.length → run.failure ≠ none ∨ ∃ s ∈ run.stages, s.isGoodEnough = true

namespace StageRun.Searched

variable {s : Stage K} {rest : List (Stage K)} {number : Nat}

/-- No stages have been searched. -/
theorem nil :
    (runStages env budget required number [] m).Searched env budget required
    [] m number 0 where
  bounded := le_rfl
  memo := rfl
  started := rfl
  completed := by simp
  failed := by simp
  failure := by simp [runStages]
  kept := by simp [runStages]
  last := by simp [runStages]
  all := by simp

/-- A stage that fails ends the stages. -/
theorem of_error {e : OptError} (fresh : ∀ t ∈ s :: rest, t.best = none)
    (failed : (s.search env budget required m).1 = .error e) :
    (runStages env budget required number (s :: rest) m).Searched env budget required
    (s :: rest) m number
      1 := by
  have ran :
      (s.run env budget required).exec m = (.error e, (s.search env budget required m).2) := by
    rw [Stage.exec_run_of_fresh (fresh s List.mem_cons_self), failed]
    rfl
  rw [runStages_of_error ran]
  exact {
    bounded := by simp
    memo := rfl
    started := rfl
    completed := by
      intro i t found first ht ok
      obtain rfl : i = 0 := by omega
      obtain rfl : s = t := Option.some.inj ht
      cases failed.symm.trans ok
    failed := by
      intro i t e' first ht error
      obtain rfl : i = 0 := by omega
      obtain rfl : s = t := Option.some.inj ht
      cases failed.symm.trans error
      exact ⟨rfl, rfl, rfl⟩
    failure := by
      intro e' kept
      obtain rfl : e = e' := Option.some.inj kept
      exact ⟨0, s, by omega, rfl, failed⟩
    kept := fun _ _ => rfl
    last := by
      intro i t ht good
      rw [Stage.isGoodEnough, fresh t (List.mem_of_getElem? ht)] at good
      cases good
    all := fun _ => .inl (by simp) }

/-- A stage that is good enough ends the stages. -/
theorem of_isGoodEnough {found : Option (Plan K × K)} (fresh : ∀ t ∈ s :: rest, t.best = none)
    (ok : (s.search env budget required m).1 = .ok found)
    (good : (s.keep found).isGoodEnough = true) :
    (runStages env budget required number (s :: rest) m).Searched env budget required
    (s :: rest) m number
      1 := by
  have ran : (s.run env budget required).exec m =
      (.ok (s.keep found), (s.search env budget required m).2) := by
    rw [Stage.exec_run_of_fresh (fresh s List.mem_cons_self), ok]
    rfl
  rw [runStages_of_ok ran, if_pos good]
  exact {
    bounded := by simp
    memo := rfl
    started := rfl
    completed := by
      intro i t found' first ht ok'
      obtain rfl : i = 0 := by omega
      obtain rfl : s = t := Option.some.inj ht
      cases ok.symm.trans ok'
      rfl
    failed := by
      intro i t e first ht error
      obtain rfl : i = 0 := by omega
      obtain rfl : s = t := Option.some.inj ht
      cases ok.symm.trans error
    failure := by simp
    kept := by
      intro i later
      obtain ⟨i, rfl⟩ := Nat.exists_eq_add_of_le' later
      rfl
    last := by
      intro i t ht good
      cases i with
      | zero => rfl
      | succ i =>
        rw [Stage.isGoodEnough, fresh t (List.mem_cons_of_mem s (List.mem_of_getElem? ht))]
          at good
        cases good
    all := fun _ => .inr ⟨_, List.mem_cons_self, good⟩ }

/-- Otherwise the other stages are gone through. -/
theorem cons {found : Option (Plan K × K)} {n : Nat} (fresh : s.best = none)
    (ok : (s.search env budget required m).1 = .ok found)
    (bad : (s.keep found).isGoodEnough = false) (others :
      (runStages env budget required (number + 1) rest
        (s.search env budget required m).2).Searched env budget required rest
          (s.search env budget required m).2 (number + 1) n) :
    (runStages env budget required number (s :: rest) m).Searched env budget required
    (s :: rest) m number
      (n + 1) := by
  have ran : (s.run env budget required).exec m =
      (.ok (s.keep found), (s.search env budget required m).2) := by
    rw [Stage.exec_run_of_fresh fresh, ok]
    rfl
  rw [runStages_of_ok ran, if_neg (by simp [bad])]
  exact {
    bounded := Nat.succ_le_succ others.bounded
    memo := others.memo
    started := congrArg ((number, s.rules) :: ·) others.started
    completed := by
      intro i t found' inside ht ok'
      cases i with
      | zero =>
        obtain rfl : s = t := Option.some.inj ht
        cases ok.symm.trans ok'
        rfl
      | succ i => exact others.completed i t found' (by omega) ht ok'
    failed := by
      intro i t e inside ht error
      cases i with
      | zero =>
        obtain rfl : s = t := Option.some.inj ht
        cases ok.symm.trans error
      | succ i =>
        obtain ⟨final, unchanged, kept⟩ := others.failed i t e (by omega) ht error
        exact ⟨congrArg (· + 1) final, unchanged, kept⟩
    failure := by
      intro e kept
      obtain ⟨i, t, inside, ht, error⟩ := others.failure e kept
      exact ⟨i + 1, t, by omega, ht, error⟩
    kept := by
      intro i later
      obtain ⟨i, rfl⟩ := Nat.exists_eq_add_of_le' later
      exact others.kept (i + n) (by omega)
    last := by
      intro i t ht good
      cases i with
      | zero =>
        obtain rfl : s.keep found = t := Option.some.inj ht
        cases bad.symm.trans good
      | succ i => exact congrArg (· + 1) (others.last i t ht good)
    all := by
      intro short
      refine (others.all (Nat.lt_of_succ_lt_succ short)).imp id ?_
      rintro ⟨t, ht, good⟩
      exact ⟨t, List.mem_cons_of_mem _ ht, good⟩ }

end StageRun.Searched

/-- The stages are searched in order up to the first one that is good enough or fails. -/
theorem runStages_spec (number : Nat) (fresh : ∀ s ∈ stages, s.best = none) :
    ∃ n, (runStages env budget required number stages m).Searched env budget required stages
      m number n := by
  induction stages generalizing number m with
  | nil => exact ⟨0, .nil⟩
  | cons s rest ih =>
    obtain ⟨first, others⟩ := List.forall_mem_cons.1 fresh
    cases result : (s.search env budget required m).1 with
    | error e => exact ⟨1, .of_error fresh result⟩
    | ok found =>
      by_cases good : (s.keep found).isGoodEnough = true
      · exact ⟨1, .of_isGoodEnough fresh result good⟩
      · obtain ⟨n, searched⟩ := ih (number + 1) others
        exact ⟨n + 1, .cons first result (Bool.not_eq_true _ ▸ good) searched⟩

/-! ### Choosing a plan -/

section Cheapest

variable [SortedQuantity K]

open Quantity

omit [SortedQuantity K] in
/-- An entry of a list that is sorted behind no other one, and is the first such entry. -/
def IsCheapest (before : List (Plan K × K)) (cost : K) (after : List (Plan K × K)) : Prop :=
  (∀ p ∈ before, sortsBefore p.2 cost = false) ∧ ∀ p ∈ after, sortsBefore cost p.2 = true

/-- Going on from the cheapest entry so far, which is the first one. -/
theorem foldl_cheapest (plans : List (Plan K × K)) (first : Plan K × K) :
    ∃ before best after, first :: plans = before ++ best :: after ∧
      plans.foldl (fun a b => if sortsBefore a.2 b.2 then a else b) first = best ∧
      IsCheapest before best.2 after := by
  induction plans generalizing first with
  | nil => exact ⟨[], first, [], rfl, rfl, by simp [IsCheapest]⟩
  | cons second plans ih =>
    rw [List.foldl_cons]
    split
    · rename_i sorted
      obtain ⟨before, best, after, split, chosen, cheaper, behind⟩ := ih first
      cases before with
      | nil =>
        obtain ⟨rfl, rfl⟩ := List.cons.inj split
        exact ⟨[], first, second :: plans, rfl, chosen, by simp,
          List.forall_mem_cons.2 ⟨sorted, behind⟩⟩
      | cons _ before =>
        obtain ⟨rfl, rfl⟩ := List.cons.inj split
        obtain ⟨notFirst, others⟩ := List.forall_mem_cons.1 cheaper
        refine ⟨first :: second :: before, best, after, rfl, chosen, ?_, behind⟩
        refine List.forall_mem_cons.2 ⟨notFirst, List.forall_mem_cons.2 ⟨?_, others⟩⟩
        by_contra sortedSecond
        rw [Bool.not_eq_false] at sortedSecond
        rw [SortedQuantity.sortsBefore_trans sorted sortedSecond] at notFirst
        cases notFirst
    · rename_i unsorted
      obtain ⟨before, best, after, split, chosen, cheaper, behind⟩ := ih second
      refine ⟨first :: before, best, after, by rw [List.cons_append, split],
        chosen, ?_, behind⟩
      refine List.forall_mem_cons.2 ⟨?_, cheaper⟩
      have reverse := (SortedQuantity.sortsBefore_total first.2 second.2).resolve_left unsorted
      by_contra sortedFirst
      rw [Bool.not_eq_false] at sortedFirst
      cases before with
      | nil =>
        obtain ⟨rfl, -⟩ := List.cons.inj split
        exact unsorted sortedFirst
      | cons _ before =>
        obtain ⟨rfl, -⟩ := List.cons.inj split
        have notSecond := cheaper second List.mem_cons_self
        rw [SortedQuantity.sortsBefore_trans reverse sortedFirst] at notSecond
        cases notSecond

/-- The plan that is chosen is a cheapest one, and the first of these. -/
theorem cheapest?_spec {plans : List (Plan K × K)} {plan : Plan K}
    (h : cheapest? plans = some plan) :
    ∃ before cost after, plans = before ++ (plan, cost) :: after ∧
      IsCheapest before cost after := by
  cases plans with
  | nil => cases h
  | cons first plans =>
    obtain ⟨before, best, after, split, chosen, cheapest⟩ := foldl_cheapest plans first
    obtain rfl : best.1 = plan := Option.some.inj (chosen ▸ h)
    exact ⟨before, best.2, after, split, cheapest⟩

end Cheapest

omit [Quantity K] in
/-- There is a cheapest plan if there is a plan. -/
theorem cheapest?_eq_none [Quantity K] {plans : List (Plan K × K)} :
    cheapest? plans = none ↔ plans = [] := by
  cases plans <;> simp [cheapest?]

/-- Whether a plan is the one that the stages chose: that of a completed stage. No completed
stage has a lower cost, those before it have costs that are sorted behind, and those after it
have costs that are not sorted before. -/
def Chosen (stages : List (Stage K)) (plan : Plan K) : Prop :=
  ∃ earlier s cost later, stages = earlier ++ s :: later ∧ s.best = some (plan, cost) ∧
    (∀ t ∈ stages, ∀ best ∈ t.best, ¬ best.2 < cost) ∧
    (∀ t ∈ earlier, ∀ best ∈ t.best, Quantity.sortsBefore best.2 cost = false) ∧
    ∀ t ∈ later, ∀ best ∈ t.best, Quantity.sortsBefore cost best.2 = true

/-- The cheapest of the best plans of stages is chosen. -/
theorem chosen_of_cheapest? [SortedQuantity K] {plan : Plan K}
    (h : cheapest? (stages.filterMap (·.best)) = some plan) : Chosen stages plan := by
  obtain ⟨before, cost, after, split, cheaper, behind⟩ := cheapest?_spec h
  obtain ⟨earlier, rest, rfl, rfl, hrest⟩ := List.filterMap_eq_append_iff.1 split
  obtain ⟨skipped, s, later, rfl, none, hs, rfl⟩ := List.filterMap_eq_cons_iff.1 hrest
  have first : ∀ t ∈ earlier ++ skipped, ∀ best ∈ t.best,
      Quantity.sortsBefore best.2 cost = false := by
    intro t ht best hbest
    rcases List.mem_append.1 ht with ht | ht
    · exact cheaper best (List.mem_filterMap.2 ⟨t, ht, hbest⟩)
    · cases (none t ht).symm.trans hbest
  have last : ∀ t ∈ later, ∀ best ∈ t.best, Quantity.sortsBefore cost best.2 =
      true := fun t ht best hbest =>
    behind best (List.mem_filterMap.2 ⟨t, ht, hbest⟩)
  refine ⟨earlier ++ skipped, s, cost, later, by simp, hs, fun t ht best hbest lower =>
    ?_, first, last⟩
  have sorted := SortedQuantity.sortsBefore_eq_false lower
  rw [← List.append_assoc, List.mem_append, List.mem_cons] at ht
  rcases ht with ht | rfl | ht
  · have total := SortedQuantity.sortsBefore_total best.2 cost
    rw [sorted, first t ht best hbest] at total
    simp at total
  · obtain rfl := Option.some.inj (hs.symm.trans hbest)
    have total := SortedQuantity.sortsBefore_total cost cost
    rw [sorted] at total
    simp at total
  · rw [last t ht best hbest] at sorted
    cases sorted

/-- What an optimization makes of a run of its stages. -/
structure Optimization.Concludes (env : Environment K) (required : PhysicalProperty)
    (run : StageRun K) (o : Optimization K) : Prop where
  stages : o.stages = run.stages
  memo : o.memo = run.memo
  messages : env.flags.reportStages = true →
    o.messages = run.started.map fun (number, rules) => startMessage number rules
  /-- The error of a search is returned. -/
  failed : ∀ e, run.failure = some e → o.result = .error e
  /-- If no search fails, there is no plan just if no stage is completed. -/
  noPlanFound : run.failure = none →
    (o.result = .error (.noPlanFound o.memo.root required.toText) ↔
      ∀ s ∈ o.stages, s.best = none)
  /-- If no search fails and a stage is completed, there is a plan. -/
  found : run.failure = none → (∃ s ∈ o.stages, s.best ≠ none) → ∃ plan, o.result = .ok plan
  chosen : ∀ plan, o.result = .ok plan → Chosen o.stages plan

/-- An optimization concludes from the run of its stages. -/
theorem optimize_concludes [SortedQuantity K] (env : Environment K) (budget : Nat)
    (required : PhysicalProperty) (stages : List (Stage K)) (m : Memo K) :
    (optimize env budget required stages m).Concludes env required
      (runStages env budget required 0 stages m) := by
  simp only [optimize]
  generalize runStages env budget required 0 stages m = run
  cases failure : run.failure with
  | some e =>
    exact {
      stages := rfl
      memo := rfl
      messages := fun reported => if_pos reported
      failed :=
        fun e' kept => congrArg Except.error (Option.some.inj (failure.symm.trans kept))
      noPlanFound := by
        intro none
        cases failure.symm.trans none
      found := by
        intro none
        cases failure.symm.trans none
      chosen := by rintro plan ⟨⟩ }
  | none =>
    have completed : cheapest? (run.stages.filterMap (·.best)) = none ↔
        ∀ s ∈ run.stages, s.best = none :=
      cheapest?_eq_none.trans List.filterMap_eq_nil_iff
    dsimp only
    cases chosen : cheapest? (run.stages.filterMap (·.best)) with
    | none =>
      have nothing := completed.1 chosen
      exact {
        stages := rfl
        memo := rfl
        messages := fun reported => if_pos reported
        failed := by
          intro e kept
          cases failure.symm.trans kept
        noPlanFound := fun _ => ⟨fun _ => nothing, fun _ => rfl⟩
        found := by
          rintro - ⟨s, hs, best⟩
          exact absurd (nothing s hs) best
        chosen := by rintro plan ⟨⟩ }
    | some plan =>
      exact {
        stages := rfl
        memo := rfl
        messages := fun reported => if_pos reported
        failed := by
          intro e kept
          cases failure.symm.trans kept
        noPlanFound := by
          refine fun _ => ⟨?_, fun nothing => ?_⟩
          · rintro ⟨⟩
          · cases chosen.symm.trans (completed.2 nothing)
        found := fun _ _ => ⟨plan, rfl⟩
        chosen := fun _ returned => Except.ok.inj returned ▸ chosen_of_cheapest? chosen }

/-! ### An example -/

namespace Sample

open Memo MemoM

variable {K : Type} [ExactQuantity K] {r : Relation K} {rules : RuleSet}

/-- The memo at the start of another search. -/
def emptied (r : Relation K) : Memo K :=
  memo r [exploredRows, { scanKey with }, { sortKey with }] []

/-- The sample after a search, with the costs forgotten but not the expressions. -/
theorem reset_optimized : (optimized r).reset = emptied r := by
  simp [optimized, emptied, memo, Memo.reset, Group.reset, Expr.reset, exploredRows,
    offeredScan, offeredSort]

theorem run_optimizeGroup_emptied :
    ((Task.optimizeGroup 0 request).run bareSetting rules).exec (emptied r) =
      (.ok [.optimizeInputs ⟨0, 1⟩ request .start, .optimizeExpr ⟨0, 0⟩ (some request)],
        emptied r) :=
  rfl

theorem run_optimizeInputs_emptied :
    ((Task.optimizeInputs ⟨0, 1⟩ request .start).run bareSetting rules).exec (emptied r) =
      (.ok [.optimizeInputs ⟨0, 1⟩ request (.complete (.leaf .singleton) [] (scanCost r))],
        emptied r) :=
  rfl

/-- The second search offers the scan again. -/
theorem run_complete_emptied : ((Task.optimizeInputs ⟨0, 1⟩ request
    (.complete (.leaf .singleton) [] (scanCost r))).run bareSetting rules).exec (emptied r) =
      (.ok [], optimized r) := by
  let offered : Memo K := memo r [exploredRows, offeredScan r, { sortKey with }]
    [(.singleton, ⟨scanCost r, ⟨0, 1⟩⟩)]
  have stored : offered.index[sortKey]? = some ⟨0, 2⟩ := by
    simp [offered, memo]
  have key : (insertKey bareSetting sortKey (some 0)).exec offered =
      (.ok (⟨0, 2⟩, false), offered) := by
    rw [exec_insertKey_some, stored]
  have enforced : (Task.enforce bareSetting 0 inOrder .singleton (scanCost r)
      [⟨.sort rising, ⟨.singleton, rising⟩⟩]).exec offered =
        (.ok (some (sortedCost r)), optimized r) :=
    (exec_bind_of_ok key).trans rfl
  have scan :
    (modify (·.offer ⟨0, 1⟩ .singleton ⟨scanCost r, []⟩) : MemoM K PUnit).exec (emptied r) =
      (.ok ⟨⟩, offered) := rfl
  have recorded :
    (Task.recordWinner bareSetting ⟨0, 1⟩ inOrder (.leaf .singleton) (scanCost r)).exec
      (emptied r) = (.ok (some (sortedCost r)), optimized r) :=
    (exec_bind_of_ok scan).trans enforced
  have admitted : request.bound.admits (scanCost r) = true := BEq.rfl (a := scanCost r)
  simp only [Task.run, Task.optimizingInputs, admitted]
  exact (exec_bind_of_ok recorded).trans rfl

/-- There is no rule left to apply to the logical expression. -/
theorem run_optimizeExpr_optimized :
    ((Task.optimizeExpr ⟨0, 0⟩ (some request)).run bareSetting
      (.union .exploration .implementation)).exec (optimized r) = (.ok [], optimized r) := by
  have all : Task.trialOrder.Perm RuleId.all :=
    (List.reverse_perm _).trans (List.mergeSort_perm _ _)
  have tried : Task.trialOrder.filter (Task.isCandidate (.union .exploration .implementation)
      (exploredRows : Expr K) (.values literals) false) = [] :=
    List.perm_nil.1 (all.filter _)
  exact congrArg (fun rules : List RuleId => (Except.ok (rules.map
    (Task.applyRule · ⟨0, 0⟩ (some request))), optimized r)) tried

/-- The second search ends with the memo that the first one ended with. -/
theorem schedule_emptied : (schedule bareSetting (.union .exploration .implementation) none 5 0
    [.optimizeGroup 0 request]).exec (emptied r) = (.ok .finished, optimized r) :=
  (exec_schedule_of_ok rfl rfl run_optimizeGroup_emptied).trans <|
    (exec_schedule_of_ok rfl rfl run_optimizeInputs_emptied).trans <|
    (exec_schedule_of_ok rfl rfl run_complete_emptied).trans <|
    (exec_schedule_of_ok rfl rfl run_optimizeExpr_optimized).trans rfl

/-- A stage on the memo of an earlier search finds the same plan again. -/
theorem run_stage_optimized (costLimit : Option K) :
    ((Stage.ofRules .exploration none costLimit).run bareSetting 5 inOrder).exec
      (optimized r) =
      (.ok { Stage.ofRules .exploration none costLimit with
        best := some (sortedPlan r, sortedCost r) }, optimized r) := by
  rw [Stage.exec_run, reset_optimized]
  have ran : (schedule bareSetting (Stage.ofRules .exploration none costLimit).rules
      (Stage.ofRules .exploration none costLimit).timeLimit 5 0
      [.optimizeGroup (optimized r).root ⟨inOrder, .unlimited⟩]).exec (emptied r) =
      (.ok .finished, optimized r) := schedule_emptied
  rw [ran]
  rfl

/-- Three stages that find the same plan. What the second one has found is good enough. -/
def tied (r : Relation K) : List (Stage K) :=
  [.ofRules .exploration none none, .ofRules .exploration none (some (sortedCost r)),
    .ofRules .exploration none none]

/-- The first two stages are completed. -/
theorem runStages_tied : runStages bareSetting 5 inOrder 0 (tied r) (entered r) =
    { stages := [
        { Stage.ofRules .exploration none none
          with best := some (sortedPlan r, sortedCost r) },
        { Stage.ofRules .exploration none (some (sortedCost r)) with
          best := some (sortedPlan r, sortedCost r) },
        .ofRules .exploration none none]
      memo := optimized r
      started :=
        [(0, .union .exploration .implementation),
          (1, .union .exploration .implementation)] } := by
  rw [tied, runStages_of_ok run_stage, if_neg (by simp [Stage.isGoodEnough, Stage.ofRules]),
    runStages_of_ok (run_stage_optimized _),
    if_pos (by simp [Stage.isGoodEnough, Stage.ofRules])]
  rfl

/-- The plan of the first one is returned. -/
theorem optimize_tied :
    (optimize bareSetting 5 inOrder (tied r) (entered r)).result = .ok (sortedPlan r) := by
  simp only [optimize, runStages_tied]
  simp [cheapest?, Stage.ofRules]

end Sample

/-- An optimization searches fresh stages in order, each once and on the memo that the ones
before it have left. Every stage keeps what its own search has found. The first one that is
good enough or fails is the last one that is searched, and the others stay as they are. The
plan that is returned is the cheapest one of all completed stages, the first of several. -/
theorem optimize_keeps_best [SortedQuantity K] (env : Environment K) (budget : Nat)
    (required : PhysicalProperty) (stages : List (Stage K)) (m : Memo K)
    (fresh : ∀ s ∈ stages, s.best = none) :
    ∃ run n, run.Searched env budget required stages m 0 n ∧
      (optimize env budget required stages m).Concludes env required run := by
  obtain ⟨n, searched⟩ : ∃ n,
      (runStages env budget required 0 stages m).Searched env budget required stages m 0 n :=
    runStages_spec 0 fresh
  exact ⟨_, n, searched, optimize_concludes env budget required stages m⟩

open Sample in
/-- A sample search with real numbers and three stages: the first two find plans of the same
cost, and the third one is left out because that cost is good enough. -/
theorem optimize_keeps_best_sample : ∃ r : Relation ℝ, (∀ s ∈ tied r, s.best = none) ∧
    (optimize bareSetting 5 inOrder (tied r) (entered r)).result = .ok (sortedPlan r) ∧
    (optimize bareSetting 5 inOrder (tied r) (entered r)).stages.map (·.best) =
      [some (sortedPlan r, sortedCost r), some (sortedPlan r, sortedCost r), none] ∧
    ∃ run : StageRun ℝ, run.Searched bareSetting 5 inOrder (tied r) (entered r) 0 2 ∧
      (optimize bareSetting 5 inOrder (tied r) (entered r)).Concludes bareSetting
        inOrder run := by
  obtain ⟨r, -, -⟩ := exists_derived (K := ℝ)
  have fresh : ∀ s ∈ tied r, s.best = none := by simp [tied, Stage.ofRules]
  obtain ⟨run, n, searched, concludes⟩ :=
    optimize_keeps_best bareSetting 5 inOrder (tied r) (entered r) fresh
  have stages : (optimize bareSetting 5 inOrder (tied r) (entered r)).stages =
      (runStages bareSetting 5 inOrder 0 (tied r) (entered r)).stages := by
    simp only [optimize, runStages_tied]
  rw [runStages_tied] at stages
  -- The second stage is good enough, so it is the last one.
  obtain rfl : 1 + 1 = n := by
    refine searched.last 1 _ (by rw [← concludes.stages, stages]; rfl) ?_
    simp [Stage.isGoodEnough, Stage.ofRules]
  exact ⟨r, fresh, optimize_tied, by rw [stages]; rfl, run, searched, concludes⟩

end QueryOptimizer
