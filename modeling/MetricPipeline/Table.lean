/-!
# Keyed tables

A finite map from names to values, stored as its entries in increasing key order. Labels of a report
and routes of a router are such tables. `get?_insert` says what one write does to every lookup,
`ext_get?` that a table is no more than its lookups, so two tables written in any two orders with the
same last values are equal.

Names are compared by code point, which is also the order of their UTF-8 bytes.
-/

namespace MetricPipeline

/-- At most one value per key. -/
structure Table (α : Type) where
  entries : List (String × α)
  increasing : entries.Pairwise (fun a b => a.1 < b.1)
  deriving DecidableEq, Repr

namespace Table

variable {α : Type}

def empty : Table α := ⟨[], .nil⟩

/-- The first value under a key of a list of pairs. -/
def lookup (key : String) : List (String × α) → Option α
  | [] => none
  | (k, v) :: rest => if k = key then some v else lookup key rest

/-- Writes one pair into a list in key order, in place of the pair that has its key. -/
def insertEntry (key : String) (value : α) : List (String × α) → List (String × α)
  | [] => [(key, value)]
  | (k, v) :: rest =>
    if key < k then (key, value) :: (k, v) :: rest
    else if k = key then (key, value) :: rest
    else (k, v) :: insertEntry key value rest

theorem mem_insertEntry {key : String} {value : α} {e : String × α} {xs : List (String × α)}
    (h : e ∈ insertEntry key value xs) : e = (key, value) ∨ e ∈ xs := by
  induction xs with
  | nil => simpa [insertEntry] using h
  | cons x rest ih =>
    simp only [insertEntry] at h
    split at h
    · simpa using h
    · split at h
      · rcases List.mem_cons.mp h with rfl | h <;> simp [*]
      · rcases List.mem_cons.mp h with rfl | h
        · simp
        · rcases ih h with rfl | h <;> simp [*]

theorem insertEntry_increasing (key : String) (value : α) {xs : List (String × α)}
    (h : xs.Pairwise (fun a b => a.1 < b.1)) :
    (insertEntry key value xs).Pairwise (fun a b => a.1 < b.1) := by
  induction xs with
  | nil => simp [insertEntry]
  | cons x rest ih =>
    obtain ⟨first, tail⟩ := List.pairwise_cons.mp h
    simp only [insertEntry]
    split
    · rename_i before
      refine List.pairwise_cons.mpr ⟨fun e he => ?_, h⟩
      rcases List.mem_cons.mp he with rfl | he
      · exact before
      · exact String.lt_trans before (first e he)
    · split
      · rename_i same
        exact List.pairwise_cons.mpr ⟨fun e he => same ▸ first e he, tail⟩
      · rename_i notBefore other
        refine List.pairwise_cons.mpr ⟨fun e he => ?_, ih tail⟩
        rcases mem_insertEntry he with rfl | he
        · exact Std.lt_of_le_of_ne (String.not_lt.mp notBefore) other
        · exact first e he

/-- Binds a key to a value, in place of what it was bound to. -/
def insert (t : Table α) (key : String) (value : α) : Table α :=
  ⟨insertEntry key value t.entries, insertEntry_increasing key value t.increasing⟩

/-- Of several pairs with one key the last is kept. -/
def ofList (pairs : List (String × α)) : Table α :=
  pairs.foldl (fun t p => t.insert p.1 p.2) empty

def get? (t : Table α) (key : String) : Option α := lookup key t.entries
def keys (t : Table α) : List String := t.entries.map (·.1)
def size (t : Table α) : Nat := t.entries.length
def isEmpty (t : Table α) : Bool := t.entries.isEmpty

theorem lookup_insertEntry (key key' : String) (value : α) {xs : List (String × α)} :
    lookup key' (insertEntry key value xs) = if key = key' then some value else lookup key' xs := by
  induction xs with
  | nil => simp [insertEntry, lookup]
  | cons x rest ih =>
    simp only [insertEntry]
    split
    · simp [lookup]
    · split
      · rename_i same
        subst same
        by_cases h : x.1 = key' <;> simp [lookup, h]
      · rename_i other
        by_cases h : x.1 = key'
        · have : key ≠ key' := fun e => other (h.trans e.symm)
          simp [lookup, h, this]
        · simp [lookup, h, ih]

theorem get?_insert (t : Table α) (key key' : String) (value : α) :
    (t.insert key value).get? key' = if key = key' then some value else t.get? key' :=
  lookup_insertEntry key key' value

theorem mem_of_lookup {key : String} {value : α} {xs : List (String × α)}
    (h : lookup key xs = some value) : (key, value) ∈ xs := by
  induction xs with
  | nil => simp [lookup] at h
  | cons x rest ih =>
    simp only [lookup] at h
    split at h
    · rename_i same
      cases h
      exact List.mem_cons.mpr (.inl (by rw [← same]))
    · exact List.mem_cons_of_mem _ (ih h)

theorem lookup_of_mem {key : String} {value : α} {xs : List (String × α)}
    (sorted : xs.Pairwise (fun a b => a.1 < b.1)) (h : (key, value) ∈ xs) :
    lookup key xs = some value := by
  induction xs with
  | nil => simp at h
  | cons x rest ih =>
    obtain ⟨first, tail⟩ := List.pairwise_cons.mp sorted
    rcases List.mem_cons.mp h with rfl | h
    · simp [lookup]
    · have : x.1 ≠ key := fun e => String.lt_irrefl key (by simpa [e] using first _ h)
      simp [lookup, this, ih tail h]

theorem mem_entries_iff (t : Table α) (key : String) (value : α) :
    (key, value) ∈ t.entries ↔ t.get? key = some value :=
  ⟨lookup_of_mem t.increasing, mem_of_lookup⟩

theorem mem_keys_iff (t : Table α) (key : String) : key ∈ t.keys ↔ (t.get? key).isSome := by
  constructor
  · intro h
    obtain ⟨⟨k, v⟩, mem, rfl⟩ := List.mem_map.mp h
    simp [(t.mem_entries_iff k v).mp mem]
  · intro h
    obtain ⟨v, hv⟩ := Option.isSome_iff_exists.mp h
    exact List.mem_map.mpr ⟨_, (t.mem_entries_iff key v).mpr hv, rfl⟩

private theorem entries_eq_of_mem {xs ys : List (String × α)}
    (hx : xs.Pairwise (fun a b => a.1 < b.1)) (hy : ys.Pairwise (fun a b => a.1 < b.1))
    (h : ∀ e, e ∈ xs ↔ e ∈ ys) : xs = ys := by
  induction xs generalizing ys with
  | nil =>
    cases ys with
    | nil => rfl
    | cons y _ => simpa using (h y).mpr (by simp)
  | cons x xs ih =>
    cases ys with
    | nil => simpa using (h x).mp (by simp)
    | cons y ys =>
      obtain ⟨xFirst, xTail⟩ := List.pairwise_cons.mp hx
      obtain ⟨yFirst, yTail⟩ := List.pairwise_cons.mp hy
      have same : x = y := by
        rcases List.mem_cons.mp ((h x).mp (by simp)) with e | inYs
        · exact e
        · rcases List.mem_cons.mp ((h y).mpr (by simp)) with e | inXs
          · exact e.symm
          · exact absurd (yFirst x inYs) (String.lt_asymm (xFirst y inXs))
      subst same
      congr 1
      refine ih xTail yTail fun e => ⟨fun he => ?_, fun he => ?_⟩
      · rcases List.mem_cons.mp ((h e).mp (List.mem_cons_of_mem _ he)) with rfl | he'
        · exact absurd (xFirst e he) (String.lt_irrefl _)
        · exact he'
      · rcases List.mem_cons.mp ((h e).mpr (List.mem_cons_of_mem _ he)) with rfl | he'
        · exact absurd (yFirst e he) (String.lt_irrefl _)
        · exact he'

theorem ext_get? {s t : Table α} (h : ∀ key, s.get? key = t.get? key) : s = t := by
  have entries : s.entries = t.entries := by
    refine entries_eq_of_mem s.increasing t.increasing fun ⟨k, v⟩ => ?_
    rw [s.mem_entries_iff, t.mem_entries_iff, h]
  cases s; cases t; cases entries; rfl

end Table
end MetricPipeline
