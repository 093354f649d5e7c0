import QueryOptimizer.Column.Basic

/-!
# Column sets

A `ColumnSet` holds its columns in rising order of id, each id once; the order is part of the
type, so sets with the same ids list the same ids. `containsId_insert`, `containsId_union` and
their companions say what each operation does to membership by id.
-/

namespace QueryOptimizer

/-- A set of columns, listed in rising order of id. -/
structure ColumnSet where
  toList : List Column
  sorted : toList.Pairwise (·.id < ·.id)

namespace ColumnSet

/-- Whether the set has a column with this id. -/
def containsId (s : ColumnSet) (id : Nat) : Bool :=
  s.toList.any (·.id == id)

/-- Whether the set has the column. -/
def contains (s : ColumnSet) (c : Column) : Bool :=
  s.containsId c.id

/-- The set without columns. -/
def empty : ColumnSet :=
  ⟨[], .nil⟩

instance : Inhabited ColumnSet := ⟨empty⟩

instance : EmptyCollection ColumnSet := ⟨empty⟩

/-- Puts a column at its place in a sorted list, instead of one with the same id. -/
def insertSorted (c : Column) : List Column → List Column
  | [] => [c]
  | d :: ds =>
    if c.id < d.id then c :: d :: ds
    else if c.id = d.id then c :: ds
    else d :: insertSorted c ds

/-- Insertion adds the new column and no other one. -/
theorem id_mem_insertSorted {c d : Column} {cs : List Column} (h : d ∈ insertSorted c cs) :
    d = c ∨ d ∈ cs := by
  induction cs with
  | nil => simpa [insertSorted] using h
  | cons e es ih =>
    simp only [insertSorted] at h
    split at h
    · simpa using h
    · split at h
      · simp only [List.mem_cons] at h ⊢
        rcases h with h | h
        · exact .inl h
        · exact .inr (.inr h)
      · simp only [List.mem_cons] at h ⊢
        rcases h with h | h
        · exact .inr (.inl h)
        · rcases ih h with h | h
          · exact .inl h
          · exact .inr (.inr h)

/-- Insertion keeps a list in strictly rising order of ids. -/
theorem sorted_insertSorted (c : Column) {cs : List Column} (h : cs.Pairwise (·.id < ·.id)) :
    (insertSorted c cs).Pairwise (·.id < ·.id) := by
  induction cs with
  | nil => simp [insertSorted]
  | cons d ds ih =>
    have hd := (List.pairwise_cons.1 h).1
    have hds := (List.pairwise_cons.1 h).2
    simp only [insertSorted]
    split
    · rename_i lt
      refine List.pairwise_cons.2 ⟨fun e he => ?_, h⟩
      rcases List.mem_cons.1 he with rfl | he
      · exact lt
      · exact Nat.lt_trans lt (hd e he)
    · split
      · rename_i eq
        exact List.pairwise_cons.2 ⟨fun e he => eq ▸ hd e he, hds⟩
      · rename_i ge ne
        refine List.pairwise_cons.2 ⟨fun e he => ?_, ih hds⟩
        rcases id_mem_insertSorted he with rfl | he
        · exact Nat.lt_of_le_of_ne (Nat.le_of_not_lt ge) (fun h => ne h.symm)
        · exact hd e he

/-- Adds a column, instead of one with the same id. -/
def insert (s : ColumnSet) (c : Column) : ColumnSet :=
  ⟨insertSorted c s.toList, sorted_insertSorted c s.sorted⟩

/-- Adds the columns of a list one after the other. -/
def insertMany (s : ColumnSet) (cols : List Column) : ColumnSet :=
  cols.foldl insert s

/-- The set of the columns of a list; of columns with one id the last one stays. -/
def ofList (cols : List Column) : ColumnSet :=
  empty.insertMany cols

/-- The set with one column. -/
def singleton (c : Column) : ColumnSet :=
  ⟨[c], List.pairwise_singleton ..⟩

/-- The columns of the set that pass a test. -/
def filter (s : ColumnSet) (p : Column → Bool) : ColumnSet :=
  ⟨s.toList.filter p, s.sorted.sublist List.filter_sublist⟩

/-- The set without the column. -/
def erase (s : ColumnSet) (c : Column) : ColumnSet :=
  s.filter (·.id != c.id)

/-- The column with this id. -/
def get? (s : ColumnSet) (id : Nat) : Option Column :=
  s.toList.find? (·.id == id)

/-- The number of columns. -/
def size (s : ColumnSet) : Nat :=
  s.toList.length

/-- Whether there is no column. -/
def isEmpty (s : ColumnSet) : Bool :=
  s.toList.isEmpty

/-- The column with the smallest id. -/
def first? (s : ColumnSet) : Option Column :=
  s.toList.head?

/-- The ids in rising order. -/
def ids (s : ColumnSet) : List Nat :=
  s.toList.map (·.id)

/-- Columns of either set; where both have an id, the left column stays. -/
def union (s t : ColumnSet) : ColumnSet :=
  t.toList.foldl (fun acc c => if acc.contains c then acc else acc.insert c) s

/-- Columns of the left set that are also in the right one. -/
def inter (s t : ColumnSet) : ColumnSet :=
  s.filter t.contains

/-- Columns of the left set that are not in the right one. -/
def diff (s t : ColumnSet) : ColumnSet :=
  s.filter (!t.contains ·)

/-- Whether every column of the left set is in the right one. -/
def isSubset (s t : ColumnSet) : Bool :=
  s.toList.all t.contains

/-- Whether the sets have no column in common. -/
def isDisjoint (s t : ColumnSet) : Bool :=
  s.toList.all (!t.contains ·)

/-- The union of a list of sets. -/
def unionAll (sets : List ColumnSet) : ColumnSet :=
  sets.foldl union empty

instance : BEq ColumnSet := ⟨fun s t => s.ids == t.ids⟩

/-! ### Membership -/

/-- Insertion adds the id of the new column and no other one. -/
theorem any_insertSorted (c : Column) (cs : List Column) (id : Nat) :
    (insertSorted c cs).any (·.id == id) = (c.id == id || cs.any (·.id == id)) := by
  induction cs with
  | nil => simp [insertSorted]
  | cons d ds ih =>
    simp only [insertSorted]
    split
    · simp
    · split
      · rename_i eq
        simp [eq]
      · simp only [List.any_cons, ih]
        cases c.id == id <;> cases d.id == id <;> simp

/-- A set with one more column has the id of that column as well. -/
@[simp] theorem containsId_insert (s : ColumnSet) (c : Column) (id : Nat) :
    (s.insert c).containsId id = (c.id == id || s.containsId id) :=
  any_insertSorted c s.toList id

@[simp] theorem containsId_empty (id : Nat) : empty.containsId id = false := rfl

/-- A set of one column has its id only. -/
@[simp] theorem containsId_singleton (c : Column) (id : Nat) :
    (singleton c).containsId id = (c.id == id) := by
  simp [containsId, singleton]

/-- A set with more columns has their ids as well. -/
theorem containsId_insertMany (s : ColumnSet) (cols : List Column) (id : Nat) :
    (s.insertMany cols).containsId id = (s.containsId id || cols.any (·.id == id)) := by
  induction cols generalizing s with
  | nil => simp [insertMany]
  | cons c cs ih =>
    have step : s.insertMany (c :: cs) = (s.insert c).insertMany cs := rfl
    rw [step, ih, containsId_insert, List.any_cons]
    cases c.id == id <;> cases s.containsId id <;> simp

/-- The set of the columns of a list has their ids. -/
@[simp] theorem containsId_ofList (cols : List Column) (id : Nat) :
    (ofList cols).containsId id = cols.any (·.id == id) := by
  simp [ofList, containsId_insertMany]

/-- Columns are added one after the other; those that are known are passed over. -/
theorem containsId_foldl_union (s : ColumnSet) (cols : List Column) (id : Nat) :
    (cols.foldl (fun acc c => if acc.contains c then acc else acc.insert c) s).containsId id
      = (s.containsId id || cols.any (·.id == id)) := by
  induction cols generalizing s with
  | nil => simp
  | cons c cs ih =>
    rw [List.foldl_cons, ih, List.any_cons]
    by_cases h : s.contains c
    · by_cases eq : c.id = id
      · have hs : s.containsId id = true := eq ▸ h
        simp [h, hs]
      · have ne : (c.id == id) = false := beq_eq_false_iff_ne.2 eq
        simp [h, ne]
    · simp only [h, Bool.false_eq_true, ↓reduceIte, containsId_insert]
      cases c.id == id <;> cases s.containsId id <;> simp

/-- A union has the ids of both sets. -/
@[simp] theorem containsId_union (s t : ColumnSet) (id : Nat) :
    (s.union t).containsId id = (s.containsId id || t.containsId id) :=
  containsId_foldl_union s t.toList id

/-- Filtering by ids is filtering of the ids. -/
theorem containsId_filter (s : ColumnSet) {p : Nat → Bool} (id : Nat) :
    (s.filter (p ·.id)).containsId id = (s.containsId id && p id) := by
  simp only [containsId, filter, List.any_filter]
  induction s.toList with
  | nil => simp
  | cons c cs ih =>
    rw [List.any_cons, List.any_cons, ih]
    by_cases eq : c.id = id
    · subst eq
      cases p c.id <;> simp
    · have ne : (c.id == id) = false := beq_eq_false_iff_ne.2 eq
      simp [ne]

/-- An intersection has the ids that both sets have. -/
@[simp] theorem containsId_inter (s t : ColumnSet) (id : Nat) :
    (s.inter t).containsId id = (s.containsId id && t.containsId id) :=
  containsId_filter s id

/-- A difference has the ids that only the first set has. -/
@[simp] theorem containsId_diff (s t : ColumnSet) (id : Nat) :
    (s.diff t).containsId id = (s.containsId id && !t.containsId id) :=
  containsId_filter s (p := fun id => !t.containsId id) id

/-- A set without a column has all ids but that of the column. -/
@[simp] theorem containsId_erase (s : ColumnSet) (c : Column) (id : Nat) :
    (s.erase c).containsId id = (s.containsId id && id != c.id) :=
  containsId_filter s (p := fun id => id != c.id) id

/-- Order-insensitive hash: the sum of the hashes of the columns. -/
def hashValue (s : ColumnSet) : UInt64 :=
  s.toList.foldl (fun acc c => acc + c.hashValue) 0

/-- The texts of the columns. -/
def texts (s : ColumnSet) : List String :=
  s.toList.map Column.toText

/-- The columns in braces. -/
def toText (s : ColumnSet) : String :=
  Text.braced s.texts

end ColumnSet

end QueryOptimizer
