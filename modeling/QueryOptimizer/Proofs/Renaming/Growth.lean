import QueryOptimizer.Proofs.Semantics.Value

/-!
# Growth of renamings

A renaming is carried along while columns are renamed one after the other. What it has entered
into its map stays there, so a column is replaced in the same way from then on. When fresh
columns are asked for, the map covers every column that has been renamed, and the columns that
it has made are apart from one another and from all that the factory gave out before
(`ColumnMap.RenamesApart`). Then the map can be undone (`ColumnMap.Undoes`).

## Main results

* `Renaming.run_column`: one column is renamed by the map as it is afterwards.
* `Renaming.substitute_after`: what stands in for a column that was renamed does
  not change any more.
* `Renaming.renamesApart_after`: fresh columns are apart.
* `ColumnMap.RenamesApart.exists_undoes`: a map with fresh columns can be undone.
-/

namespace QueryOptimizer

namespace ColumnMap

/-- Whether a map replaces every column that `m` replaces, and by the same column. -/
def Within (m m' : ColumnMap) : Prop :=
  ∀ i d, m.entries.lookup i = some d → m'.entries.lookup i = some d

/-- Replacing what another map replaces is transitive. -/
theorem Within.trans {m m' m'' : ColumnMap} (h : m.Within m') (h' : m'.Within m'') :
    m.Within m'' :=
  fun i d found => h' i d (h i d found)

/-- Whether a map replaces the columns with the ids `ids`, each by a column of its own whose id
is not among those below `next`. -/
structure RenamesApart (m : ColumnMap) (next : Nat) (ids : Finset Nat) : Prop where
  covers : ∀ i, (m.entries.lookup i).isSome = true ↔ i ∈ ids
  fresh : ∀ i d, m.entries.lookup i = some d → next ≤ d.id
  injective : ∀ i j d e, m.entries.lookup i = some d → m.entries.lookup j = some e →
    d.id = e.id → i = j

/-- Whether a map leads from what `m` puts in for columns back to these columns. -/
def Undoes (back m : ColumnMap) : Prop :=
  ∀ i d, m.entries.lookup i = some d → ∃ c, back.entries.lookup d.id = some c ∧ c.id = i

/-- A column is replaced by the one that the map has for it. -/
theorem substitute_of_get? {m : ColumnMap} {c d : Column} (found : m.get? c = some d) :
    m.substitute c = d := by
  simp [substitute, found]

/-- What a map made apart can be undone. -/
theorem RenamesApart.exists_undoes {m : ColumnMap} {next : Nat} {cols : List Column}
    (h : m.RenamesApart next (Column.idsOf cols)) : ∃ back : ColumnMap, back.Undoes m := by
  refine ⟨.ofLists (cols.map m.substitute) cols, fun i d found => ?_⟩
  obtain ⟨c, hc, rfl⟩ := Column.mem_idsOf.1 ((h.covers i).1 (by simp [found]))
  have own : m.substitute c = d := substitute_of_get? found
  rw [lookup_ofLists, ← List.map_prod_right_eq_zip]
  cases chosen : (cols.map fun c => (m.substitute c, c)).reverse.find? fun p =>
    p.1.id == d.id with
  | none =>
    have paired : (d, c) ∈ (cols.map fun c => (m.substitute c, c)).reverse :=
      List.mem_reverse.2 (List.mem_map.2 ⟨c, hc, by rw [own]⟩)
    simpa using List.find?_eq_none.1 chosen _ paired
  | some p =>
    -- the pair that is found belongs to the same column, since no other one is replaced by `d`
    have same : p.1.id = d.id := by simpa using List.find?_some chosen
    obtain ⟨c', hc', rfl⟩ :=
      List.mem_map.1 (List.mem_reverse.1 (List.mem_of_find?_eq_some chosen))
    obtain ⟨e, he⟩ := Option.isSome_iff_exists.1
      ((h.covers c'.id).2 (Column.mem_idsOf.2 ⟨c', hc', rfl⟩))
    rw [substitute_of_get? (m := m) he] at same
    exact ⟨c', rfl, h.injective _ _ e d he found same⟩

end ColumnMap

namespace Renaming

variable {fresh : Bool} {r : Renaming} {c : Column} {cols : List Column}

/-- The renaming after the columns of a list have been renamed. -/
def after (fresh : Bool) (r : Renaming) (cols : List Column) : Renaming :=
  cols.foldl (fun r c => ((column fresh c).run r).2) r

@[simp] theorem after_nil : r.after fresh [] = r := rfl

/-- Two lists of columns are renamed one after the other. -/
@[simp] theorem after_append (cols' : List Column) :
    r.after fresh (cols ++ cols') = (r.after fresh cols).after fresh cols' :=
  List.foldl_append

theorem after_cons : r.after fresh (c :: cols) = (r.after fresh [c]).after fresh cols := rfl

/-- Renaming one column keeps the map, or enters a fresh copy of the column into it. -/
theorem after_singleton_cases (fresh : Bool) (r : Renaming) (c : Column) :
    (r.after fresh [c] = r ∧ (fresh = true → (r.map.get? c).isSome = true)) ∨
      (fresh = true ∧ r.map.get? c = none ∧
        r.after fresh [c] =
          ⟨r.map.insert c (r.factory.copyOf c).1, (r.factory.copyOf c).2⟩) := by
  change (((column fresh c).run r).2 = r ∧ _) ∨ (_ ∧ _ ∧ ((column fresh c).run r).2 = _)
  simp only [column, StateT.run]
  cases found : r.map.get? c with
  | some d => exact .inl ⟨rfl, fun _ => rfl⟩
  | none =>
    cases fresh with
    | false => exact .inl ⟨rfl, nofun⟩
    | true => exact .inr ⟨rfl, rfl, rfl⟩

/-- An entry is found under its own column. -/
theorem get?_insert_self (m : ColumnMap) (c d : Column) : (m.insert c d).get? c = some d := by
  simp [ColumnMap.get?, ColumnMap.insert, ColumnMap.lookup_insertEntry]

/-- One column is replaced by what stands in for it afterwards. -/
theorem run_column (fresh : Bool) (c : Column) (r : Renaming) :
    (column fresh c).run r = ((r.after fresh [c]).map.substitute c, r.after fresh [c]) := by
  change _ = (((column fresh c).run r).2.map.substitute c, ((column fresh c).run r).2)
  simp only [column, StateT.run]
  cases found : r.map.get? c with
  | some d => simp [ColumnMap.substitute, found]
  | none =>
    cases fresh with
    | false => simp [ColumnMap.substitute, found]
    | true => simp [ColumnMap.substitute, get?_insert_self]

/-- What has been entered into the map stays there. -/
theorem within_after (fresh : Bool) (r : Renaming) (cols : List Column) :
    r.map.Within (r.after fresh cols).map := by
  induction cols generalizing r with
  | nil => exact fun _ _ found => found
  | cons c cols ih =>
    refine .trans (fun i d found => ?_) (ih (r.after fresh [c]))
    rcases after_singleton_cases fresh r c with ⟨same, -⟩ | ⟨-, new, grown⟩
    · rwa [same]
    · have other : c.id ≠ i := fun same => by
        rw [ColumnMap.get?, same, found] at new
        cases new
      rw [grown]
      simpa [ColumnMap.insert, ColumnMap.lookup_insertEntry, other] using found

/-- When no fresh columns are asked for, nothing is entered. -/
@[simp] theorem after_false : r.after false cols = r := by
  induction cols with
  | nil => rfl
  | cons c cols ih =>
    rw [after_cons]
    rcases after_singleton_cases false r c with ⟨same, -⟩ | ⟨asked, -⟩
    · rw [same, ih]
    · cases asked

/-- Afterwards the map covers what it covered before and the columns that were renamed. -/
theorem isSome_after_iff (r : Renaming) (cols : List Column) (i : Nat) :
    ((r.after true cols).map.entries.lookup i).isSome = true ↔
      (r.map.entries.lookup i).isSome = true ∨ i ∈ Column.idsOf cols := by
  induction cols generalizing r with
  | nil => simp
  | cons c cols ih =>
    rw [after_cons, ih, Column.idsOf_cons, Finset.mem_union, Finset.mem_singleton, ← or_assoc]
    refine or_congr_left ?_
    rcases after_singleton_cases true r c with ⟨same, known⟩ | ⟨-, -, grown⟩
    · rw [same]
      exact ⟨.inl, fun h => h.elim id fun here => here ▸ known rfl⟩
    · rw [grown]
      by_cases here : c.id = i
      · simp [ColumnMap.insert, ColumnMap.lookup_insertEntry, here]
      · simp [ColumnMap.insert, ColumnMap.lookup_insertEntry, here, Ne.symm here]

/-- Columns that the map covers are renamed without a change to it. -/
theorem after_of_covers (covered : ∀ c ∈ cols, (r.map.get? c).isSome = true) :
    r.after fresh cols = r := by
  induction cols with
  | nil => rfl
  | cons c cols ih =>
    rw [after_cons]
    rcases after_singleton_cases fresh r c with ⟨same, -⟩ | ⟨-, new, -⟩
    · rw [same, ih fun d hd => covered d (List.mem_cons_of_mem c hd)]
    · have known := covered c List.mem_cons_self
      rw [new] at known
      cases known

/-- What stands in for a column that has been renamed does not change any more. -/
theorem substitute_after (fresh : Bool) (r : Renaming) (cols' : List Column) (hc : c ∈ cols) :
    ((r.after fresh cols).after fresh cols').map.substitute c =
      (r.after fresh cols).map.substitute c := by
  cases fresh with
  | false => simp
  | true =>
    have covered : ((r.after true cols).map.get? c).isSome = true :=
      (isSome_after_iff r cols c.id).2 (.inr (Column.mem_idsOf.2 ⟨c, hc, rfl⟩))
    obtain ⟨d, hd⟩ := Option.isSome_iff_exists.1 covered
    rw [ColumnMap.substitute_of_get? hd,
      ColumnMap.substitute_of_get? (within_after true (r.after true cols) cols' c.id d hd)]

/-! ### Fresh columns -/

/-- Whether the map only puts in columns that the factory has given out since `start`,
each for one column. -/
structure Apart (start : Nat) (r : Renaming) : Prop where
  start_le : start ≤ r.factory.next
  made : ∀ i d, r.map.entries.lookup i = some d → start ≤ d.id ∧ d.id < r.factory.next
  injective : ∀ i j d e, r.map.entries.lookup i = some d → r.map.entries.lookup j = some e →
    d.id = e.id → i = j

/-- An empty map has made no columns. -/
theorem Apart.empty (f : ColumnFactory) : Apart f.next ⟨.empty, f⟩ where
  start_le := Nat.le_refl _
  made i d found := by simp [ColumnMap.empty] at found
  injective i j d e found := by simp [ColumnMap.empty] at found

/-- A fresh column is entered: its id is the next one, which no column that is
in the map has. -/
theorem Apart.enter {start : Nat} (h : r.Apart start) (c : Column) :
    Apart start ⟨r.map.insert c (r.factory.copyOf c).1, (r.factory.copyOf c).2⟩ := by
  have entered (i : Nat) (d : Column)
      (found : (r.map.insert c (r.factory.copyOf c).1).entries.lookup i = some d) :
      (c.id = i ∧ d.id = r.factory.next) ∨ r.map.entries.lookup i = some d := by
    rw [ColumnMap.insert, ColumnMap.lookup_insertEntry] at found
    split at found
    · rename_i here
      obtain rfl := Option.some.inj found
      exact .inl ⟨here, rfl⟩
    · exact .inr found
  refine ⟨Nat.le_succ_of_le h.start_le, fun i d found => ?_, fun i j d e hd he same => ?_⟩
  · rcases entered i d found with ⟨-, new⟩ | old
    · exact ⟨new ▸ h.start_le, new ▸ Nat.lt_succ_self _⟩
    · exact ⟨(h.made i d old).1, Nat.lt_succ_of_lt (h.made i d old).2⟩
  · rcases entered i d hd with ⟨here, new⟩ | old <;> rcases entered j e he
      with ⟨here', new'⟩ | old'
    · exact here.symm.trans here'
    · exact absurd (same.symm.trans new) (Nat.ne_of_lt (h.made j e old').2)
    · exact absurd (same.trans new') (Nat.ne_of_lt (h.made i d old).2)
    · exact h.injective i j d e old old' same

/-- Renaming columns keeps what has been made apart from what was there. -/
theorem Apart.after {start : Nat} (h : r.Apart start) (fresh : Bool) (cols : List Column) :
    (r.after fresh cols).Apart start := by
  induction cols generalizing r with
  | nil => exact h
  | cons c cols ih =>
    rw [after_cons]
    refine ih ?_
    rcases after_singleton_cases fresh r c with ⟨same, -⟩ | ⟨-, -, grown⟩
    · rwa [same]
    · rw [grown]
      exact h.enter c

/-- Renaming columns from the empty map on, with fresh columns, gives a map that
keeps them apart. -/
theorem renamesApart_after (f : ColumnFactory) (cols : List Column) :
    (after true ⟨.empty, f⟩ cols).map.RenamesApart f.next (Column.idsOf cols) where
  covers i := by
    rw [isSome_after_iff]
    simp [ColumnMap.empty]
  fresh i d found := (((Apart.empty f).after true cols).made i d found).1
  injective := ((Apart.empty f).after true cols).injective

end Renaming

end QueryOptimizer
