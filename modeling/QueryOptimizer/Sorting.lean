/-!
# Sorting by insertion

`sort less` arranges a list so that it rises. Elements are taken in turn, and each moves left
past those that come strictly after it, up to the first that does not. The result therefore
keeps equal elements in their order, and it is determined also by a comparison that is not
transitive, such as that of datums of unlike types.

* `sort_perm`: sorting loses and adds nothing.
* `sort_pairwise`: for a comparison that is asymmetric and whose negation is transitive on the
  elements, no element of the result comes strictly before one that stands to its left.
* `sort_eq_self`: a list that rises already stays as it is.
* `sort_stable`: what is not strictly before another keeps its place before it.
* `filter_sort`: elements none of which comes strictly before another keep their order.
-/

namespace QueryOptimizer.Sorting

variable {α : Type}

/-- Puts an element into a falling list, behind all the leading elements that
come strictly after it. -/
def insert (less : α → α → Bool) (a : α) : List α → List α
  | [] => [a]
  | b :: bs => if less a b then b :: insert less a bs else a :: b :: bs

/-- The list in rising order, equal elements in the order in which they came. -/
def sort (less : α → α → Bool) (as : List α) : List α :=
  (as.foldl (fun sorted a => insert less a sorted) []).reverse

/-! ### Elements -/

/-- Insertion adds one element. -/
theorem insert_perm (less : α → α → Bool) (a : α) (bs : List α) :
    (insert less a bs).Perm (a :: bs) := by
  fun_induction insert less a bs with
  | case1 => exact .refl _
  | case2 b bs _ ih => exact (ih.cons b).trans (.swap a b bs)
  | case3 => exact .refl _

/-- Inserting the elements of a list adds just these. -/
theorem foldl_insert_perm (less : α → α → Bool) (as sorted : List α) :
    (as.foldl (fun sorted a => insert less a sorted) sorted).Perm (as ++ sorted) := by
  induction as generalizing sorted with
  | nil => exact .refl _
  | cons a as ih =>
    exact (ih _).trans (((insert_perm less a sorted).append_left as).trans List.perm_middle)

/-- Sorting loses and adds nothing. -/
theorem sort_perm (less : α → α → Bool) (as : List α) : (sort less as).Perm as := by
  have h := foldl_insert_perm less as []
  rw [List.append_nil] at h
  exact (List.reverse_perm _).trans h

/-! ### Order -/

section Order

variable {less : α → α → Bool} {P : α → Prop}
  (asymm : ∀ a b, P a → P b → less a b = true → less b a = false)
  (trans : ∀ a b c, P a → P b → P c → less a b = false → less b c = false → less a c = false)

include asymm trans

/-- A falling list stays falling when an element is put in. -/
theorem insert_pairwise {a : α} (ha : P a) {bs : List α} (hbs : ∀ b ∈ bs, P b)
    (falling : bs.Pairwise fun x y => less x y = false) :
    (insert less a bs).Pairwise fun x y => less x y = false := by
  fun_induction insert less a bs with
  | case1 => exact List.pairwise_singleton _ _
  | case2 b bs below ih =>
    obtain ⟨first, rest⟩ := List.pairwise_cons.1 falling
    obtain ⟨hb, hbs⟩ := List.forall_mem_cons.1 hbs
    refine List.pairwise_cons.2 ⟨fun x hx => ?_, ih hbs rest⟩
    rcases List.mem_cons.1 ((insert_perm less a bs).mem_iff.1 hx) with rfl | hx
    · exact asymm x b ha hb below
    · exact first x hx
  | case3 b bs notBelow =>
    obtain ⟨hb, hbs⟩ := List.forall_mem_cons.1 hbs
    have start : less a b = false := Bool.eq_false_iff.2 notBelow
    refine List.pairwise_cons.2 ⟨fun x hx => ?_, falling⟩
    rcases List.mem_cons.1 hx with rfl | hx
    · exact start
    · exact trans a b x ha hb (hbs x hx) start ((List.pairwise_cons.1 falling).1 x hx)

/-- Insertion keeps a list sorted. -/
theorem foldl_insert_pairwise {as : List α} (has : ∀ a ∈ as, P a) {sorted : List α}
    (hsorted : ∀ a ∈ sorted, P a) (falling : sorted.Pairwise fun x y => less x y = false) :
    (as.foldl (fun sorted a => insert less a sorted) sorted).Pairwise
      fun x y => less x y = false := by
  induction as generalizing sorted with
  | nil => exact falling
  | cons a as ih =>
    obtain ⟨ha, has⟩ := List.forall_mem_cons.1 has
    refine ih has (fun b hb => ?_) (insert_pairwise asymm trans ha hsorted falling)
    rcases List.mem_cons.1 ((insert_perm less a sorted).mem_iff.1 hb) with rfl | hb
    · exact ha
    · exact hsorted b hb

/-- No element of the sorted list comes strictly before one that stands to its left, if the
comparison is lawful on the elements of the list. -/
theorem sort_pairwise {as : List α} (has : ∀ a ∈ as, P a) :
    (sort less as).Pairwise fun x y => less y x = false :=
  List.pairwise_reverse.2 (foldl_insert_pairwise asymm trans has (by simp) .nil)

end Order

/-- A list in rising order is sorted already. -/
theorem sort_eq_self {less : α → α → Bool} {as : List α}
    (rising : as.Pairwise fun x y => less y x = false) : sort less as = as := by
  suffices folded : ∀ sorted : List α, (∀ b ∈ sorted, ∀ a ∈ as, less a b = false) →
      as.foldl (fun sorted a => insert less a sorted) sorted = as.reverse ++ sorted by
    rw [sort, folded [] (fun _ none => by cases none), List.append_nil, List.reverse_reverse]
  induction as with
  | nil => exact fun _ _ => rfl
  | cons a as ih =>
    obtain ⟨first, rest⟩ := List.pairwise_cons.1 rising
    intro sorted above
    have front : insert less a sorted = a :: sorted := by
      cases sorted with
      | nil => rfl
      | cons b bs =>
        exact if_neg (by rw [above b List.mem_cons_self a List.mem_cons_self]; simp)
    rw [List.foldl_cons, front, ih rest, List.reverse_cons, List.append_assoc,
      List.singleton_append]
    refine fun b hb c hc => ?_
    rcases List.mem_cons.1 hb with rfl | hb
    · exact first c hc
    · exact above b hb c (List.mem_cons_of_mem a hc)

/-! ### Stability -/

section Stability

variable {less : α → α → Bool} {R : α → α → Prop}

/-- An element that is put into a falling list moves past greater ones only. -/
theorem insert_stable {a : α} {bs : List α} (earlier : ∀ b ∈ bs, R b a)
    (falling : bs.Pairwise fun y x => less x y = true ∨ R x y) :
    (insert less a bs).Pairwise fun y x => less x y = true ∨ R x y := by
  fun_induction insert less a bs with
  | case1 => exact List.pairwise_singleton _ _
  | case2 b bs below ih =>
    obtain ⟨first, rest⟩ := List.pairwise_cons.1 falling
    obtain ⟨_, earlier⟩ := List.forall_mem_cons.1 earlier
    refine List.pairwise_cons.2 ⟨fun x hx => ?_, ih earlier rest⟩
    rcases List.mem_cons.1 ((insert_perm less a bs).mem_iff.1 hx) with rfl | hx
    · exact .inl below
    · exact first x hx
  | case3 b bs _ => exact List.pairwise_cons.2 ⟨fun x hx => .inr (earlier x hx), falling⟩

/-- Where an element of the sorted list comes before another one, it is less than
that or came before it. -/
theorem sort_stable {as : List α} (before : as.Pairwise R) :
    (sort less as).Pairwise fun x y => less x y = true ∨ R x y := by
  suffices folded : ∀ sorted : List α, (∀ b ∈ sorted, ∀ a ∈ as, R b a) →
      (sorted.Pairwise fun y x => less x y = true ∨ R x y) →
      (as.foldl (fun sorted a => insert less a sorted) sorted).Pairwise fun y x =>
        less x y = true ∨ R x y from
    List.pairwise_reverse.2 (folded [] (fun _ none => by cases none) .nil)
  induction as with
  | nil => exact fun _ _ falling => falling
  | cons a as ih =>
    obtain ⟨first, rest⟩ := List.pairwise_cons.1 before
    intro sorted earlier falling
    refine ih rest _ (fun b hb c hc => ?_)
      (insert_stable (fun b hb => earlier b hb a List.mem_cons_self) falling)
    rcases List.mem_cons.1 ((insert_perm less a sorted).mem_iff.1 hb) with rfl | hb
    · exact first c hc
    · exact earlier b hb c (List.mem_cons_of_mem a hc)

end Stability

/-! ### Elements of one rank -/

section Rank

variable {β : Type} {less : α → α → Bool}

/-- Insertion commutes with a map if the order is that of the images. -/
theorem insert_map (f : β → α) (b : β) (bs : List β) :
    insert less (f b) (bs.map f) = (insert (fun x y => less (f x) (f y)) b bs).map f := by
  induction bs with
  | nil => rfl
  | cons c cs ih =>
    simp only [List.map_cons, insert]
    split
    · rw [ih, List.map_cons]
    · rfl

/-- Sorting by what a function gives. -/
theorem sort_map (f : β → α) (bs : List β) :
    sort less (bs.map f) = (sort (fun x y => less (f x) (f y)) bs).map f := by
  have folded (sorted : List β) :
    (bs.map f).foldl (fun sorted a => insert less a sorted) (sorted.map f) =
      (bs.foldl (fun sorted a => insert (fun x y => less (f x) (f y)) a sorted) sorted).map
      f := by
    induction bs generalizing sorted with
    | nil => rfl
    | cons b bs ih => rw [List.map_cons, List.foldl_cons, List.foldl_cons, insert_map, ih]
  rw [sort, sort, List.map_reverse]
  exact congrArg List.reverse (folded [])

/-- An element moves past none that it is not less than. -/
theorem filter_insert {p : α → Bool} (a : α) (bs : List α)
    (level : p a = true → ∀ b ∈ bs, p b = true → less a b = false) :
    (insert less a bs).filter p = (a :: bs).filter p := by
  induction bs with
  | nil => rfl
  | cons b bs ih =>
    simp only [insert]
    split
    · rename_i below
      have later : (insert less a bs).filter p = (a :: bs).filter p :=
        ih fun ha c hc => level ha c (List.mem_cons_of_mem b hc)
      by_cases ha : p a = true
      · have other : ¬p b = true := fun hb => by
          rw [level ha b List.mem_cons_self hb] at below
          cases below
        rw [List.filter_cons_of_neg other, later, List.filter_cons_of_pos ha,
          List.filter_cons_of_pos ha, List.filter_cons_of_neg other]
      · simp only [List.filter_cons, later, ha]
        rfl
    · rfl

/-- Elements none of which is less than another stay in their order. -/
theorem filter_sort {p : α → Bool} (as : List α)
    (level : ∀ a ∈ as, ∀ b ∈ as, p a = true → p b = true → less a b = false) :
    (sort less as).filter p = as.filter p := by
  have folded (rest sorted : List α)
      (level : ∀ a ∈ rest, ∀ b ∈ rest ++ sorted, p a = true → p b = true → less a b = false) :
      (rest.foldl (fun sorted a => insert less a sorted) sorted).filter p =
        (rest.reverse ++ sorted).filter p := by
    induction rest generalizing sorted with
    | nil => rfl
    | cons a rest ih =>
      have first : (insert less a sorted).filter p = (a :: sorted).filter p :=
        filter_insert a sorted fun ha b hb => level a (by simp) b (by simp [hb]) ha
      rw [List.foldl_cons, ih]
      · simp only [List.filter_append, first, List.reverse_cons, List.append_assoc,
          List.cons_append, List.nil_append]
      · intro b hb c hc
        refine level b (by simp [hb]) c ?_
        simp only [List.mem_append, (insert_perm less a sorted).mem_iff, List.mem_cons] at hc ⊢
        grind
  rw [sort, List.filter_reverse, folded as [] (by simpa using level), List.append_nil,
    List.filter_reverse, List.reverse_reverse]

end Rank

end QueryOptimizer.Sorting
