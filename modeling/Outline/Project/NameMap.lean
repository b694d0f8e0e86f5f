/-!
# Maps from names

A finite map whose keys are texts.  Its entries are kept in ascending order of their keys, so
that two maps with the same entries are equal.

* `NameMap.insert` adds an entry or replaces the one with the same key.
* `NameMap.get?` looks an entry up.
-/

namespace Outline

/-- A finite map from texts, with its entries in ascending order. -/
structure NameMap (α : Type) where
  /-- The entries. -/
  entries : List (String × α)
  /-- Each key comes before the keys after it. -/
  ascending : entries.Pairwise (fun a b => a.1 < b.1)

namespace NameMap

variable {α β : Type}

/-! ## Operations -/

/-- The map without entries. -/
def empty : NameMap α := ⟨[], List.Pairwise.nil⟩

instance : Inhabited (NameMap α) := ⟨empty⟩

/-- The keys, in ascending order. -/
def keys (m : NameMap α) : List String := m.entries.map (·.1)

/-- The values, in ascending order of their keys. -/
def values (m : NameMap α) : List α := m.entries.map (·.2)

/-- The number of entries. -/
def size (m : NameMap α) : Nat := m.entries.length

/-- Whether there are no entries. -/
def isEmpty (m : NameMap α) : Bool := m.entries.isEmpty

/-- The value at a key. -/
def get? (m : NameMap α) (key : String) : Option α := m.entries.lookup key

/-- Whether there is an entry with the given key. -/
def contains (m : NameMap α) (key : String) : Bool := (m.get? key).isSome

/-- Puts an entry at its place in an ascending list of entries. -/
def insertEntry (key : String) (value : α) : List (String × α) → List (String × α)
  | [] => [(key, value)]
  | e :: es =>
    if key < e.1 then (key, value) :: e :: es
    else if key == e.1 then (key, value) :: es
    else e :: insertEntry key value es

theorem mem_insertEntry {key : String} {value : α} {es : List (String × α)} {x : String × α}
    (h : x ∈ insertEntry key value es) : x = (key, value) ∨ x ∈ es := by
  induction es with
  | nil => simpa [insertEntry] using h
  | cons e es ih =>
    unfold insertEntry at h
    split at h
    · simpa using h
    · split at h <;> grind

theorem ascending_insertEntry (key : String) (value : α) {es : List (String × α)}
    (h : es.Pairwise (fun a b => a.1 < b.1)) :
    (insertEntry key value es).Pairwise (fun a b => a.1 < b.1) := by
  induction es with
  | nil => simp [insertEntry]
  | cons e es ih =>
    rw [List.pairwise_cons] at h
    unfold insertEntry
    split
    · next lt =>
      refine List.pairwise_cons.2 ⟨fun x hx => ?_, List.pairwise_cons.2 h⟩
      rcases List.mem_cons.1 hx with rfl | hx
      · exact lt
      · exact String.lt_trans lt (h.1 x hx)
    · split
      · next eq =>
        refine List.pairwise_cons.2 ⟨fun x hx => ?_, h.2⟩
        simpa [eq_of_beq eq] using h.1 x hx
      · next nlt ne =>
        refine List.pairwise_cons.2 ⟨fun x hx => ?_, ih h.2⟩
        rcases mem_insertEntry hx with rfl | hx
        · have := String.le_antisymm (a := key) (b := e.1)
          grind
        · exact h.1 x hx

/-- Adds an entry; an entry with the same key is replaced. -/
def insert (m : NameMap α) (key : String) (value : α) : NameMap α :=
  ⟨insertEntry key value m.entries, ascending_insertEntry key value m.ascending⟩

/-- The map with the given entries; of entries with the same key the last one counts. -/
def ofList (es : List (String × α)) : NameMap α := es.foldl (fun m e => m.insert e.1 e.2) empty

/-- Keeps the entries that satisfy `p`. -/
def filter (m : NameMap α) (p : String → α → Bool) : NameMap α :=
  ⟨m.entries.filter fun e => p e.1 e.2, m.ascending.filter _⟩

/-- Changes the values. -/
def map (m : NameMap α) (f : α → β) : NameMap β where
  entries := m.entries.map fun e => (e.1, f e.2)
  ascending := m.ascending.map _ fun _ _ h => h

end NameMap

/-- A finite set of texts. -/
abbrev NameSet := NameMap Unit

namespace NameSet

/-- The set of the given texts. -/
def ofNames (names : List String) : NameSet := NameMap.ofList (names.map (·, ()))

end NameSet

end Outline
