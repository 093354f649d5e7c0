import Mathlib.Data.List.Forall2
import QueryOptimizer.Error

/-!
# Results of steps

A step that goes through has gone through in each of its parts. A step may be known to go
through, or at least to fail with errors of some kind only.

## Main results

* `OptResult.bind_eq_ok`: a sequence goes through when both of its parts do.
* `OptResult.mapM_eq_ok`: a step on each element of a list goes through when it does on all.
* `OptResult.Succeeds.bind`: a sequence of steps that cannot fail cannot fail.
* `OptResult.SucceedsUnless.bind`: a sequence of steps fails only as one of them does.
-/

namespace QueryOptimizer

/-- Each element on the right of related lists has a partner on the left. -/
theorem exists_of_mem_right {α β : Type*} {R : α → β → Prop} {as : List α} {bs : List β}
    (h : List.Forall₂ R as bs) {b : β} (hb : b ∈ bs) : ∃ a ∈ as, R a b := by
  induction h with
  | nil => cases hb
  | cons first _ ih =>
    rcases List.mem_cons.1 hb with rfl | hb
    · exact ⟨_, by simp, first⟩
    · obtain ⟨a, ha, related⟩ := ih hb
      exact ⟨a, List.mem_cons_of_mem _ ha, related⟩

namespace OptResult

variable {α β : Type}

/-- A composition succeeds if both of its parts do. -/
@[simp] theorem bind_eq_ok {x : OptResult α} {f : α → OptResult β} {b : β} :
    (x >>= f) = .ok b ↔ ∃ a, x = .ok a ∧ f a = .ok b := by
  cases x <;> simp [bind, Except.bind]

/-- A mapped computation succeeds when the computation does. -/
@[simp] theorem map_eq_ok {x : OptResult α} {f : α → β} {b : β} :
    (f <$> x) = .ok b ↔ ∃ a, x = .ok a ∧ f a = b := by
  cases x <;> simp [Functor.map, Except.map]

/-- A returned value is the result. -/
@[simp] theorem pure_eq_ok {a b : α} : (pure a : OptResult α) = .ok b ↔ a = b := by
  simp [pure, Except.pure]

/-- An error is not a success. -/
@[simp] theorem throw_ne_ok {e : OptError} {a : α} : (throw e : OptResult α) ≠ .ok a := by
  simp [throw, throwThe, MonadExceptOf.throw]

/-- A computation on a list succeeds if it does so on each element. -/
theorem mapM_eq_ok {f : α → OptResult β} {as : List α} {bs : List β} :
    as.mapM f = .ok bs ↔ List.Forall₂ (fun a b => f a = .ok b) as bs := by
  induction as generalizing bs with
  | nil =>
    rw [List.mapM_nil, pure_eq_ok]
    exact ⟨fun h => h ▸ .nil, fun h => by cases h; rfl⟩
  | cons a as ih =>
    simp only [List.mapM_cons, bind_eq_ok, pure_eq_ok]
    constructor
    · rintro ⟨b, hb, bs, hbs, rfl⟩
      exact .cons hb (ih.1 hbs)
    · intro h
      cases h with
      | cons hb hbs => exact ⟨_, hb, _, ih.2 hbs, rfl⟩

/-- Looking up an element by its position succeeds if there is one. -/
theorem elementAt_eq_ok {what : String} {as : List α} {i : Nat} {a : α} :
    elementAt what as i = .ok a ↔ as[i]? = some a := by
  unfold elementAt
  cases as[i]? <;> simp

/-! ### Steps that cannot fail -/

/-- Whether a step goes through. -/
def Succeeds (x : OptResult α) : Prop :=
  ∃ a, x = .ok a

namespace Succeeds

/-- A returned value is a success. -/
theorem pure (a : α) : Succeeds (pure a) :=
  ⟨a, rfl⟩

/-- A composition cannot fail if none of its parts can. -/
theorem bind {x : OptResult α} {f : α → OptResult β} (hx : x.Succeeds)
    (hf : ∀ a, x = .ok a → (f a).Succeeds) : (x >>= f).Succeeds := by
  obtain ⟨a, rfl⟩ := hx
  exact hf a rfl

/-- A computation on a list cannot fail if it cannot do so on any element. -/
theorem mapM {f : α → OptResult β} {as : List α} (each : ∀ a ∈ as, (f a).Succeeds) :
    (as.mapM f).Succeeds := by
  induction as with
  | nil => exact .pure []
  | cons a as ih =>
    obtain ⟨first, others⟩ := List.forall_mem_cons.1 each
    rw [List.mapM_cons]
    exact first.bind fun b _ => (ih others).bind fun bs _ => .pure (b :: bs)

/-- A loop cannot fail if its body cannot. -/
theorem foldlM {f : β → α → OptResult β} {as : List α} {b : β}
    (each : ∀ b, ∀ a ∈ as, (f b a).Succeeds) : (as.foldlM f b).Succeeds := by
  induction as generalizing b with
  | nil => exact .pure b
  | cons a as ih =>
    rw [List.foldlM_cons]
    exact (each b a List.mem_cons_self).bind fun c _ =>
      ih fun b a ha => each b a (List.mem_cons_of_mem _ ha)

/-- Looking up an element within the list cannot fail. -/
theorem elementAt {what : String} {as : List α} {i : Nat} (inside : i < as.length) :
    (elementAt what as i).Succeeds :=
  ⟨as[i], elementAt_eq_ok.2 (List.getElem?_eq_getElem inside)⟩

end Succeeds

/-! ### Steps that can fail in some ways only -/

/-- Whether a step goes through unless it fails with an excused error. -/
def SucceedsUnless (excused : OptError → Prop) (x : OptResult α) : Prop :=
  ∀ e, x = .error e → excused e

variable {excused : OptError → Prop}

/-- What cannot fail does not fail for other than excused reasons. -/
theorem Succeeds.unless {x : OptResult α} (h : x.Succeeds) : x.SucceedsUnless excused := by
  obtain ⟨a, rfl⟩ := h
  rintro e ⟨⟩

namespace SucceedsUnless

/-- A returned value is a success, whatever is excused. -/
theorem pure (a : α) : SucceedsUnless excused (pure a) :=
  (Succeeds.pure a).unless

/-- An excused error is allowed. -/
theorem error {e : OptError} (h : excused e) :
    SucceedsUnless excused (.error e : OptResult α) :=
  fun _ same => Except.error.inj same ▸ h

/-- A step goes through for certain if no error is excused. -/
theorem succeeds {x : OptResult α} (h : x.SucceedsUnless fun _ => False) : x.Succeeds := by
  cases x with
  | error e => exact (h e rfl).elim
  | ok a => exact ⟨a, rfl⟩

/-- A composition fails for excused reasons only if its parts do. -/
theorem bind {x : OptResult α} {f : α → OptResult β} (hx : x.SucceedsUnless excused)
    (hf : ∀ a, x = .ok a → (f a).SucceedsUnless excused) :
    (x >>= f).SucceedsUnless excused := by
  cases x with
  | error e => exact .error (hx e rfl)
  | ok a => exact hf a rfl

end SucceedsUnless

end OptResult

end QueryOptimizer
