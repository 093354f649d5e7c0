import QueryOptimizer.Proofs.Rule.Outcome
import QueryOptimizer.Search.Task

/-!
# Exploration

The tasks on groups and on logical expressions put nothing on record. They only fill the memo,
and where they name a physical expression, its optimization is yet to start.

A rule is applied to an expression once. What it makes of the bindings that there are at that
time is in the memo afterwards, and stays there. Nothing is said about bindings that come up
later, because the mark that the rule has been applied is never taken away.

## Main results

* `Task.applyingRule_leads_fills`: what a rule makes of the bindings at an
  expression is in the memo.
* `Task.run_leads_fills`: exploration only fills a memo.
-/

namespace QueryOptimizer

variable {K : Type} {m m' : Memo K}

/-- Whether a memo has what a rule made of a binding when the memo was smaller. -/
def Memo.Reflects (m : Memo K) (rule : RuleId) (t : ExprTree) : Prop :=
  ∃ earlier made, Memo.Extends earlier m ∧ rule.apply earlier t = .ok made ∧
    ∀ t' ∈ made, ∃ id, m.Contains id t'

/-- What a rule has made stays in the memo. -/
theorem Memo.Reflects.extends {rule : RuleId} {t : ExprTree} (h : m.Reflects rule t)
    (extended : m.Extends m') : m'.Reflects rule t := by
  obtain ⟨earlier, made, before, apply, contains⟩ := h
  refine ⟨earlier, made, before.trans extended, apply, fun t' ht' => ?_⟩
  obtain ⟨id, there⟩ := contains t' ht'
  exact ⟨id, there.extends extended⟩

namespace Task

/-- Whether a task is about a group or about a logical expression. -/
def Explores : Task K → Prop
  | optimizeInputs .. => False
  | _ => True

/-- Whether a task starts at the beginning, if it optimizes a physical expression. -/
def Starts : Task K → Prop
  | optimizeInputs _ _ p => p = .start
  | _ => True

open Memo MemoM

variable {env : Environment K} {id : ExprId} {group : GroupId} {r : Request K}
  {r? : Option (Request K)}

/-- Optimizing a group records nothing, and its tasks start. -/
theorem optimizingGroup_leads_fills (h : m.Filed) :
    (optimizingGroup group r).Leads Fills m fun ts _ => ∀ t ∈ ts, t.Starts := by
  refine .get_bind (.lift_bind (.refl h) fun g _ => ?_)
  split
  · exact .pure (.refl h) (by simp)
  · refine .pure (.refl h) fun t ht => ?_
    rcases List.mem_append.1 ht with ht | ht
    · obtain ⟨place, -, rfl⟩ := List.mem_map.1 ht
      rfl
    · obtain ⟨place, -, rfl⟩ := List.mem_map.1 ht
      trivial

/-- Exploring a group records nothing, and its tasks start. -/
theorem exploringGroup_leads_fills (h : m.Filed) :
    (exploringGroup group).Leads Fills m fun ts _ => ∀ t ∈ ts, t.Starts := by
  refine .get_bind (.lift_bind (.refl h) fun g _ => ?_)
  split
  · exact .pure (.refl h) (by simp)
  · have explored : m.Fills (m.modifyGroup group ({ · with explored := true })) :=
      h.modifyGroup group (fun _ => rfl) (fun _ => rfl) (fun _ => rfl) fun _ => rfl
    refine Leads.bind (.modify explored) fun _ m' fills _ => .pure (.refl fills.filed) ?_
    intro t ht
    obtain ⟨place, -, rfl⟩ := List.mem_map.1 ht
    trivial

/-- Optimizing an expression records nothing, and its tasks start. -/
theorem optimizingExpr_leads_fills (h : m.Filed) (rules : RuleSet) :
    (optimizingExpr rules id r?).Leads Fills m fun ts _ => ∀ t ∈ ts, t.Starts := by
  refine .get_bind (.lift_bind (.refl h) fun e _ => ?_)
  split
  · exact .throw (.refl h) _
  · refine .pure (.refl h) fun t ht => ?_
    rcases List.mem_append.1 ht with ht | ht
    · obtain ⟨i, -, rfl⟩ := List.mem_map.1 ht
      trivial
    · obtain ⟨rule, -, rfl⟩ := List.mem_map.1 ht
      trivial

/-- Following up an expression records nothing, and its tasks start. -/
theorem followUp_leads_fills (h : m.Filed) :
    (followUp id r?).Leads Fills m fun ts _ => ∀ t ∈ ts, t.Starts := by
  refine .get_bind (.lift_bind (.refl h) fun e _ => ?_)
  split
  · exact .pure (.refl h) (List.forall_mem_singleton.2 trivial)
  · split
    · exact .pure (.refl h) (List.forall_mem_singleton.2 rfl)
    · exact .pure (.refl h) (by simp)

variable [Quantity K]

/-- Applying a rule to a binding records nothing, and what the rule makes
is in the memo then. -/
theorem applyTo_leads_fills (h : m.Filed) {rule : RuleId} {t : ExprTree}
    (binds : m.Binds rule.pattern t) :
    (applyTo env rule id r? t).Leads Fills m fun ts m' =>
      (∀ t ∈ ts, t.Starts) ∧ m'.Reflects rule t := by
  refine .get_bind (.lift_bind (.refl h) fun made hmade => ?_)
  cases made with
  | none => exact .pure (.refl h) ⟨by simp, m, none, .refl m, hmade, by simp⟩
  | some made =>
    refine (h.insertTree (RuleId.isEnforcer_of_apply binds hmade) id.group).bind
      fun r m' fills there => ?_
    have reflects : m'.Reflects rule t :=
      ⟨m, some made, fills.extended, hmade, fun t' ht' => Option.some.inj ht' ▸ ⟨_, there⟩⟩
    dsimp only
    split
    · exact (followUp_leads_fills fills.filed).mono fun ts m'' fills' starts =>
        ⟨starts, reflects.extends fills'.extended⟩
    · exact .pure (.refl fills.filed) ⟨by simp, reflects⟩

/-- What a rule makes of the bindings of its pattern at an expression is in the memo when the
rule has been applied for the first time. -/
theorem applyingRule_leads_fills (h : m.Filed) (rule : RuleId) :
    (applyingRule env rule id r?).Leads Fills m fun ts m' => (∀ t ∈ ts, t.Starts) ∧
      ∀ e, m.expr id = .ok e → rule ∉ e.applied →
        ∀ t ∈ m.bindings rule.pattern id, m'.Reflects rule t := by
  refine .get_bind (.lift_bind (.refl h) fun e he => ?_)
  split
  · rename_i applied
    refine .pure (.refl h) ⟨by simp, fun e' he' new => ?_⟩
    obtain rfl := Except.ok.inj (he.symm.trans he')
    exact absurd applied new
  · have each : ((m.bindings rule.pattern id).mapM (applyTo env rule id r?)).Leads Fills m
        fun tasks m' => List.Forall₂ (fun t ts => (∀ t ∈ ts, t.Starts) ∧ m'.Reflects rule t)
          (m.bindings rule.pattern id) tasks :=
      .mapM (.refl h) (fun _ fills => .refl fills.filed)
        (fun _ _ _ _ fills => And.imp_right (·.extends fills.extended))
        fun t ht m' fills => applyTo_leads_fills fills.filed
          ((binds_of_mem_bindings he ht).2.extends fills.extended)
    refine each.bind fun tasks m' fills results => ?_
    have marked := fills.filed.modifyExpr id
      (f := fun e => { e with applied := ⟨rule :: e.applied.ids⟩ }) (fun _ => rfl) fun _ => rfl
    refine Leads.bind (.modify marked) fun _ m'' fills' _ =>
      .pure (.refl fills'.filed) ⟨?_, ?_⟩
    · intro t ht
      obtain ⟨ts, hts, ht⟩ := List.mem_flatten.1 (List.mem_reverse.1 ht)
      obtain ⟨binding, -, starts, -⟩ := exists_of_mem_right results hts
      exact starts t ht
    · intro e' _ _ t ht
      obtain ⟨ts, -, -, reflects⟩ := exists_of_mem_right results.flip ht
      exact reflects.extends fills'.extended

/-- Exploration only fills a memo. -/
theorem run_leads_fills (h : m.Filed) (rules : RuleSet) {t : Task K} (explores : t.Explores) :
    (t.run env rules).Leads Fills m fun ts _ => ∀ t ∈ ts, t.Starts := by
  cases t with
  | optimizeGroup group r => exact optimizingGroup_leads_fills h
  | exploreGroup group => exact exploringGroup_leads_fills h
  | optimizeExpr id r? => exact optimizingExpr_leads_fills h rules
  | applyRule rule id r? => exact (applyingRule_leads_fills h rule).mono fun _ _ _ => And.left
  | optimizeInputs id r p => exact explores.elim

end Task

end QueryOptimizer
