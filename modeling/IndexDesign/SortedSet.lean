/-! # Sorted sets — finite sets listed in the order of their keys

    Fields, entities, edges, aggregates and indexes each have a key: a list of
    texts, compared lexicographically and each text by code points.  A set
    holds at most one element per key and lists its elements by increasing
    key, so every listing of a set is deterministic.

    Two elements with equal keys are the same element of a set even where they
    carry different data.  `insert` keeps the data that is there; `put`
    replaces it.  So a set that grows by insertions keeps the first of the
    elements with one key, and the set of a list the last. -/

namespace IndexDesign

/-- A type whose values are told apart and ordered by a key. -/
class Keyed (α : Type) where
  key : α → List String

export Keyed (key)

instance : Keyed String where
  key s := [s]

/-- A finite set, listed by strictly increasing key. -/
structure SortedSet (α : Type) [Keyed α] where
  toList : List α
  increasing : toList.Pairwise fun a b => key a < key b

namespace SortedSet

variable {α : Type} [Keyed α]

/-- The list with one more element in its place.  On an equal key, `replace` decides
    whether the new element or the old one stays. -/
def place (replace : Bool) (x : α) : List α → List α
  | [] => [x]
  | y :: ys =>
    if key x < key y then x :: y :: ys
    else if key y < key x then y :: place replace x ys
    else (if replace then x else y) :: ys

/-- Two keys of which neither is below the other are equal. -/
theorem key_eq_of_not_lt {a b : List String} (hab : ¬ a < b) (hba : ¬ b < a) : a = b :=
  List.le_antisymm hba hab

/-- An element of the extended list is the new element or an old one. -/
theorem mem_place {replace : Bool} {x z : α} {ys : List α}
    (h : z ∈ place replace x ys) : z = x ∨ z ∈ ys := by
  induction ys with
  | nil => simpa [place] using h
  | cons y ys ih =>
    simp only [place] at h
    split at h
    · simpa using h
    · split at h
      · rcases List.mem_cons.1 h with h | h
        · exact .inr (by simp [h])
        · exact (ih h).imp_right (List.mem_cons_of_mem y)
      · rcases List.mem_cons.1 h with h | h
        · cases replace
          · exact .inr (by simp [h])
          · exact .inl h
        · exact .inr (List.mem_cons_of_mem y h)

/-- Placing an element keeps the keys increasing. -/
theorem place_increasing {replace : Bool} {x : α} {ys : List α}
    (h : ys.Pairwise fun a b => key a < key b) :
    (place replace x ys).Pairwise fun a b => key a < key b := by
  induction ys with
  | nil => simp [place]
  | cons y ys ih =>
    obtain ⟨hy, hys⟩ := List.pairwise_cons.1 h
    simp only [place]
    split
    · next hxy =>
      refine List.pairwise_cons.2 ⟨fun z hz => ?_, h⟩
      rcases List.mem_cons.1 hz with rfl | hz
      · exact hxy
      · exact List.lt_trans hxy (hy z hz)
    · next hxy =>
      split
      · next hyx =>
        refine List.pairwise_cons.2 ⟨fun z hz => ?_, ih hys⟩
        rcases mem_place hz with rfl | hz
        · exact hyx
        · exact hy z hz
      · next hyx =>
        have hkey : key x = key y := key_eq_of_not_lt hxy hyx
        refine List.pairwise_cons.2 ⟨fun z hz => ?_, hys⟩
        cases replace
        · exact hy z hz
        · simpa [hkey] using hy z hz

/-- The set without elements. -/
def empty : SortedSet α := ⟨[], .nil⟩

instance : EmptyCollection (SortedSet α) := ⟨empty⟩

instance : Inhabited (SortedSet α) := ⟨empty⟩

/-- The set with one more element.  On an equal key, `replace` decides whether the new element
    or the old one stays. -/
def add (replace : Bool) (s : SortedSet α) (x : α) : SortedSet α :=
  ⟨place replace x s.toList, place_increasing s.increasing⟩

/-- The set with one more element; an element that is there already stays. -/
def insert (s : SortedSet α) (x : α) : SortedSet α := s.add false x

/-- The set with one more element, in the place of one with the same key. -/
def put (s : SortedSet α) (x : α) : SortedSet α := s.add true x

/-- The set with the elements of a list inserted one after the other; of those with one key the
    first stays. -/
def extend (s : SortedSet α) (xs : List α) : SortedSet α := xs.foldl insert s

/-- The set of the elements of a list; of those with one key the last stays. -/
def ofList (xs : List α) : SortedSet α := xs.foldl put empty

/-- The elements of both sets; on a common key the first set's element stays. -/
def union (s t : SortedSet α) : SortedSet α := s.extend t.toList

/-- The elements that pass a test. -/
def filter (s : SortedSet α) (p : α → Bool) : SortedSet α :=
  ⟨s.toList.filter p, s.increasing.filter p⟩

/-- The element with the given key. -/
def find? (s : SortedSet α) (k : List String) : Option α :=
  s.toList.find? (key · == k)

/-- Whether the set has an element with the key of the given one. -/
def contains (s : SortedSet α) (x : α) : Bool := s.toList.any (key · == key x)

/-- The set without the element of the given one's key. -/
def erase (s : SortedSet α) (x : α) : SortedSet α := s.filter (key · != key x)

/-- The elements that the second set does not have. -/
def diff (s t : SortedSet α) : SortedSet α := s.filter (! t.contains ·)

/-- Whether every element of the first set is in the second. -/
def isSubset (s t : SortedSet α) : Bool := s.toList.all t.contains

/-- The keys of the elements, in order. -/
def keys (s : SortedSet α) : List (List String) := s.toList.map key

/-- The number of elements. -/
def size (s : SortedSet α) : Nat := s.toList.length

/-- Whether the set has no elements. -/
def isEmpty (s : SortedSet α) : Bool := s.toList.isEmpty

/-- The first element in order. -/
def first? (s : SortedSet α) : Option α := s.toList.head?

instance : BEq (SortedSet α) := ⟨fun s t => s.keys == t.keys⟩

instance : Membership α (SortedSet α) := ⟨fun s x => s.contains x = true⟩

instance (x : α) (s : SortedSet α) : Decidable (x ∈ s) :=
  inferInstanceAs (Decidable (s.contains x = true))

/-! ## Membership -/

theorem mem_iff {s : SortedSet α} {x : α} : x ∈ s ↔ ∃ y ∈ s.toList, key y = key x := by
  show s.contains x = true ↔ _
  simp [contains]

theorem mem_of_mem_toList {s : SortedSet α} {x : α} (h : x ∈ s.toList) : x ∈ s :=
  mem_iff.2 ⟨x, h, rfl⟩

/-- A key is found after placing `x` if it is the key of `x` or was there. -/
theorem exists_mem_place {replace : Bool} {x : α} {ys : List α} {k : List String} :
    (∃ y ∈ place replace x ys, key y = k) ↔ key x = k ∨ ∃ y ∈ ys, key y = k := by
  induction ys with
  | nil => simp [place]
  | cons y ys ih =>
    simp only [place]
    split
    · simp
    · next hxy =>
      split
      · simp only [List.mem_cons, exists_eq_or_imp, ih]
        exact ⟨fun h => by rcases h with h | h | h <;> simp_all,
          fun h => by rcases h with h | h | h <;> simp_all⟩
      · next hyx =>
        have hkey : key x = key y := key_eq_of_not_lt hxy hyx
        cases replace <;> simp [hkey]

theorem mem_add {replace : Bool} {s : SortedSet α} {x z : α} :
    z ∈ s.add replace x ↔ key x = key z ∨ z ∈ s := by
  rw [mem_iff, mem_iff]
  exact exists_mem_place

@[simp] theorem mem_insert {s : SortedSet α} {x z : α} :
    z ∈ s.insert x ↔ key x = key z ∨ z ∈ s := mem_add

@[simp] theorem mem_put {s : SortedSet α} {x z : α} :
    z ∈ s.put x ↔ key x = key z ∨ z ∈ s := mem_add

/-- An element of a set with the elements of a list added is a listed element of the set or of the
    list. -/
theorem mem_toList_foldl_add (replace : Bool) {xs : List α} {s : SortedSet α} {z : α}
    (h : z ∈ (xs.foldl (add replace) s).toList) : z ∈ s.toList ∨ z ∈ xs := by
  induction xs generalizing s with
  | nil => exact .inl h
  | cons x xs ih =>
    rcases ih h with h | h
    · rcases mem_place h with rfl | h
      · exact .inr (by simp)
      · exact .inl h
    · exact .inr (List.mem_cons_of_mem x h)

theorem mem_foldl_add (replace : Bool) {xs : List α} {s : SortedSet α} {z : α} :
    z ∈ xs.foldl (add replace) s ↔ z ∈ s ∨ ∃ x ∈ xs, key x = key z := by
  induction xs generalizing s with
  | nil => simp
  | cons x xs ih =>
    rw [List.foldl_cons, ih, mem_add]
    simp only [List.mem_cons, exists_eq_or_imp]
    exact ⟨fun h => by rcases h with (h | h) | h <;> simp_all,
      fun h => by rcases h with h | h | h <;> simp_all⟩

theorem mem_toList_extend {xs : List α} {s : SortedSet α} {z : α}
    (h : z ∈ (s.extend xs).toList) : z ∈ s.toList ∨ z ∈ xs := mem_toList_foldl_add false h

@[simp] theorem mem_extend {xs : List α} {s : SortedSet α} {z : α} :
    z ∈ s.extend xs ↔ z ∈ s ∨ ∃ x ∈ xs, key x = key z := mem_foldl_add false

@[simp] theorem mem_empty {z : α} : z ∈ (empty : SortedSet α) ↔ False := by
  rw [mem_iff]; simp [empty]

theorem mem_ofList {xs : List α} {z : α} : z ∈ ofList xs ↔ ∃ x ∈ xs, key x = key z := by
  refine (mem_foldl_add true).trans ?_
  rw [mem_empty, false_or]

theorem mem_union {s t : SortedSet α} {z : α} : z ∈ s.union t ↔ z ∈ s ∨ z ∈ t := by
  rw [union, mem_extend, mem_iff (s := t)]

end SortedSet

end IndexDesign
