import Mathlib
import IndexDesign.SortedSet

/-! # Sets by their members

    Membership in a sorted set goes by keys, while `toList` lists the elements
    as they are stored.  What the set operations do to members, to listed
    elements and to the number of elements is said once here. -/

namespace IndexDesign.SortedSet

variable {α : Type} [Keyed α] {s t : SortedSet α} {x y : α}

/-- Elements of one key are members of the same sets. -/
theorem mem_congr (h : key x = key y) : x ∈ s ↔ y ∈ s := by
  rw [mem_iff, mem_iff, h]

theorem contains_eq_false_iff : s.contains x = false ↔ x ∉ s := Bool.eq_false_iff

theorem not_mem_empty : x ∉ (∅ : SortedSet α) := mem_empty.mp

theorem mem_filter {keep : α → Bool} :
    x ∈ s.filter keep ↔ ∃ y ∈ s.toList, keep y = true ∧ key y = key x := by
  rw [mem_iff]
  constructor
  · rintro ⟨y, hy, hkey⟩
    obtain ⟨hy, hkeep⟩ := List.mem_filter.mp hy
    exact ⟨y, hy, hkeep, hkey⟩
  · rintro ⟨y, hy, hkeep, hkey⟩
    exact ⟨y, List.mem_filter.mpr ⟨hy, hkeep⟩, hkey⟩

theorem mem_diff : x ∈ s.diff t ↔ x ∈ s ∧ x ∉ t := by
  rw [diff, mem_filter]
  constructor
  · rintro ⟨y, hy, hnot, hkey⟩
    rw [Bool.not_eq_true', contains_eq_false_iff] at hnot
    exact ⟨mem_iff.mpr ⟨y, hy, hkey⟩, fun ht => hnot ((mem_congr hkey).mpr ht)⟩
  · rintro ⟨hs, hnot⟩
    obtain ⟨y, hy, hkey⟩ := mem_iff.mp hs
    refine ⟨y, hy, ?_, hkey⟩
    rw [Bool.not_eq_true', contains_eq_false_iff]
    exact fun ht => hnot ((mem_congr hkey).mp ht)

theorem isSubset_iff : s.isSubset t = true ↔ ∀ x, x ∈ s → x ∈ t := by
  unfold isSubset
  rw [List.all_eq_true]
  constructor
  · intro h x hx
    obtain ⟨y, hy, hkey⟩ := mem_iff.mp hx
    exact (mem_congr hkey).mp (h y hy)
  · intro h y hy
    exact h y (mem_of_mem_toList hy)

theorem isEmpty_iff : s.isEmpty = true ↔ ∀ x, x ∉ s := by
  unfold isEmpty
  rw [List.isEmpty_iff]
  constructor
  · intro h x hx
    obtain ⟨y, hy, -⟩ := mem_iff.mp hx
    rw [h] at hy
    exact nomatch hy
  · intro h
    refine List.eq_nil_iff_forall_not_mem.mpr ?_
    intro x hx
    exact h x (mem_of_mem_toList hx)

theorem size_diff_le (s t : SortedSet α) : (s.diff t).size ≤ s.size := List.length_filter_le _ _

/-- Taking out a member leaves fewer elements. -/
theorem size_diff_lt (hs : x ∈ s) (ht : x ∈ t) : (s.diff t).size < s.size := by
  obtain ⟨y, hy, hkey⟩ := mem_iff.mp hs
  refine List.length_filter_lt_length_iff_exists.mpr ⟨y, hy, ?_⟩
  have hmem : t.contains y = true := (mem_congr hkey).mpr ht
  rw [hmem]
  exact Bool.false_ne_true

theorem isEmpty_filter {keep : α → Bool} (h : s.isEmpty = true) :
    (s.filter keep).isEmpty = true := by
  rw [isEmpty_iff] at h ⊢
  intro x hx
  obtain ⟨y, hy, -, -⟩ := mem_filter.mp hx
  exact h y (mem_of_mem_toList hy)

/-- Taking out the elements that pass a test leaves fewer, if there are any. -/
theorem size_diff_filter_lt {keep : α → Bool} (h : ¬ (s.filter keep).isEmpty = true) :
    (s.diff (s.filter keep)).size < s.size := by
  rw [isEmpty_iff, not_forall] at h
  obtain ⟨x, hx⟩ := h
  have hmem := not_not.mp hx
  obtain ⟨y, hy, -, hkey⟩ := mem_filter.mp hmem
  exact size_diff_lt (mem_iff.mpr ⟨y, hy, hkey⟩) hmem

/-! ## Listed elements -/

/-- A set is what it lists. -/
theorem eq_of_toList_eq (h : s.toList = t.toList) : s = t := by
  cases s
  cases t
  cases h
  rfl

theorem diff_empty (s : SortedSet α) : s.diff ∅ = s := by
  refine eq_of_toList_eq (List.filter_eq_self.mpr fun x _ => ?_)
  rfl

/-- Taking out one set after the other takes out their union. -/
theorem diff_diff (s t u : SortedSet α) : (s.diff t).diff u = s.diff (t.union u) := by
  refine eq_of_toList_eq ?_
  show (s.toList.filter _).filter _ = s.toList.filter _
  rw [List.filter_filter]
  refine List.filter_congr fun x _ => ?_
  rw [Bool.eq_iff_iff, Bool.and_eq_true, Bool.not_eq_true', Bool.not_eq_true', Bool.not_eq_true',
    contains_eq_false_iff, contains_eq_false_iff, contains_eq_false_iff, mem_union, not_or,
    and_comm]

theorem extend_append (s : SortedSet α) (xs ys : List α) :
    s.extend (xs ++ ys) = (s.extend xs).extend ys := List.foldl_append

/-- What a set lists stays when more is inserted. -/
theorem mem_toList_extend_of_mem {xs : List α} (h : x ∈ s.toList) :
    x ∈ (s.extend xs).toList := by
  have hplace : ∀ (z : α) (ys : List α), x ∈ ys → x ∈ place false z ys := by
    intro z ys
    induction ys with
    | nil => intro hx; exact nomatch hx
    | cons y ys ih =>
        intro hx
        simp only [place]
        split
        · exact List.mem_cons_of_mem _ hx
        · split
          · rcases List.mem_cons.mp hx with rfl | hx
            · exact List.mem_cons_self
            · exact List.mem_cons_of_mem _ (ih hx)
          · exact hx
  induction xs generalizing s with
  | nil => exact h
  | cons z xs ih => exact ih (hplace z _ h)

theorem perm_place {replace : Bool} {ys : List α} (h : ∀ y ∈ ys, key x ≠ key y) :
    (place replace x ys).Perm (x :: ys) := by
  induction ys with
  | nil => exact .refl _
  | cons y ys ih =>
      obtain ⟨hy, hys⟩ := List.forall_mem_cons.mp h
      simp only [place]
      split
      · exact .refl _
      · next hnotBelow =>
        split
        · exact ((ih hys).cons y).trans (.swap x y ys)
        · next hnotAbove => exact absurd (key_eq_of_not_lt hnotBelow hnotAbove) hy

/-- A new element is listed beside those that are there. -/
theorem perm_insert (h : x ∉ s) : (s.insert x).toList.Perm (x :: s.toList) :=
  perm_place fun y hy hkey => h (mem_iff.mpr ⟨y, hy, hkey.symm⟩)

theorem mem_of_mem_toList_ofList {xs : List α} (h : x ∈ (ofList xs).toList) : x ∈ xs := by
  rcases mem_toList_foldl_add true h with h | h
  · exact nomatch h
  · exact h

/-- What is inserted into the set without elements was listed. -/
theorem mem_of_mem_toList_extend {xs : List α} (h : x ∈ (extend ∅ xs).toList) : x ∈ xs :=
  (mem_toList_extend h).resolve_left List.not_mem_nil

theorem mem_ofList_toList : x ∈ ofList s.toList ↔ x ∈ s := mem_ofList.trans mem_iff.symm

/-- The keys of the elements differ. -/
theorem nodup_keys (s : SortedSet α) : (s.toList.map key).Nodup := by
  refine List.pairwise_map.mpr (s.increasing.imp ?_)
  intro a b hlt heq
  rw [heq] at hlt
  exact List.lt_irrefl _ hlt

theorem nodup_toList (s : SortedSet α) : s.toList.Nodup := (nodup_keys s).of_map

theorem eq_of_key_eq (hx : x ∈ s.toList) (hy : y ∈ s.toList) (h : key x = key y) : x = y :=
  List.inj_on_of_nodup_map (nodup_keys s) hx hy h

theorem key_mem_map : key x ∈ s.toList.map key ↔ x ∈ s := by
  rw [List.mem_map, mem_iff]

/-- An element above all others comes last. -/
theorem place_of_forall_lt {replace : Bool} {ys : List α} (h : ∀ y ∈ ys, key y < key x) :
    place replace x ys = ys ++ [x] := by
  induction ys with
  | nil => rfl
  | cons y ys ih =>
      obtain ⟨hy, hys⟩ := List.forall_mem_cons.mp h
      rw [place, if_neg (List.lt_asymm hy), if_pos hy, ih hys]
      rfl

/-- A set is that of its listed elements. -/
theorem ofList_toList (s : SortedSet α) : ofList s.toList = s := by
  have hfold : ∀ (xs : List α) (t : SortedSet α),
      (t.toList ++ xs).Pairwise (fun a b => key a < key b) →
        (xs.foldl put t).toList = t.toList ++ xs := by
    intro xs
    induction xs with
    | nil => intro t _; exact (List.append_nil _).symm
    | cons x xs ih =>
        intro t h
        have hplaced : (t.put x).toList = t.toList ++ [x] :=
          place_of_forall_lt fun y hy =>
            (List.pairwise_append.mp h).2.2 y hy x List.mem_cons_self
        rw [List.append_cons, ← hplaced] at h ⊢
        exact ih _ h
  exact eq_of_toList_eq (hfold s.toList ∅ s.increasing)

/-- What is found by a key is listed and has it. -/
theorem of_find? {k : List String} (h : s.find? k = some x) : x ∈ s.toList ∧ key x = k :=
  ⟨List.mem_of_find?_eq_some h, eq_of_beq (List.find?_some (p := (key · == k)) h)⟩

/-- What is listed is found by its key. -/
theorem find?_key (h : x ∈ s.toList) : s.find? (key x) = some x := by
  have hfound : (s.find? (key x)).isSome = true :=
    List.find?_isSome.mpr ⟨x, h, beq_self_eq_true _⟩
  obtain ⟨y, hy⟩ := Option.isSome_iff_exists.mp hfound
  obtain ⟨hmem, hkey⟩ := of_find? hy
  rw [hy, eq_of_key_eq hmem h hkey]

theorem find?_eq_none_iff {k : List String} : s.find? k = none ↔ ∀ y ∈ s.toList, key y ≠ k := by
  simp only [find?, List.find?_eq_none, beq_iff_eq]

/-- What is found after an insertion was there, or it is the new element. -/
theorem find?_insert {k : List String} :
    (s.insert x).find? k = (s.find? k).or (if key x = k then some x else none) := by
  cases hfound : s.find? k with
  | some y =>
      obtain ⟨hy, rfl⟩ := of_find? hfound
      exact find?_key (@mem_toList_extend_of_mem _ _ _ _ [x] hy)
  | none =>
      rw [find?_eq_none_iff] at hfound
      rw [Option.none_or]
      split
      · next hkey =>
        subst hkey
        have hnew : x ∉ s := fun hmem => by
          obtain ⟨y, hy, hsame⟩ := mem_iff.mp hmem
          exact hfound y hy hsame
        exact find?_key ((perm_insert hnew).mem_iff.mpr List.mem_cons_self)
      · next hother =>
        refine find?_eq_none_iff.mpr fun y hy => ?_
        rcases mem_place hy with rfl | hy
        · exact hother
        · exact hfound y hy

/-- Of what has a key an element of the set is found, or else the first of the list. -/
theorem find?_extend {k : List String} (xs : List α) : ∀ s : SortedSet α,
    (s.extend xs).find? k = (s.find? k).or (xs.find? (key · == k)) := by
  induction xs with
  | nil => intro s; exact Option.or_none.symm
  | cons x xs ih =>
      intro s
      rw [extend, List.foldl_cons, ← extend, ih, find?_insert, Option.or_assoc, List.find?_cons]
      by_cases hkey : key x = k
      · rw [if_pos hkey, beq_iff_eq.mpr hkey, Option.some_or]
      · rw [if_neg hkey, beq_eq_false_iff_ne.mpr hkey, Option.none_or]

theorem find?_extend_empty {k : List String} (xs : List α) :
    (extend ∅ xs).find? k = xs.find? (key · == k) :=
  (find?_extend xs ∅).trans Option.none_or

/-- A part of a set is no larger. -/
theorem size_le_of_subset (h : ∀ x, x ∈ s → x ∈ t) : s.size ≤ t.size := by
  have hsub : s.toList.map key ⊆ t.toList.map key := by
    intro k hk
    obtain ⟨y, hy, rfl⟩ := List.mem_map.mp hk
    exact key_mem_map.mpr (h y (mem_of_mem_toList hy))
  simpa [size] using (List.subperm_of_subset (nodup_keys s) hsub).length_le

/-- A part without one of the members is smaller. -/
theorem size_lt_of_subset (h : ∀ x, x ∈ s → x ∈ t) (ht : x ∈ t) (hs : x ∉ s) :
    s.size < t.size := by
  refine Nat.lt_of_le_of_lt (size_le_of_subset fun y hy => ?_) (size_diff_lt ht
    (mem_ofList.mpr ⟨x, List.mem_singleton.mpr rfl, rfl⟩))
  refine mem_diff.mpr ⟨h y hy, fun hmem => hs ?_⟩
  obtain ⟨z, hz, hkey⟩ := mem_ofList.mp hmem
  rw [List.mem_singleton.mp hz] at hkey
  exact (mem_congr hkey).mpr hy

/-- A set is listed in one way: sets with the same members have the same keys. -/
theorem keys_eq_of_mem_iff (h : ∀ x, x ∈ s ↔ x ∈ t) : s.keys = t.keys := by
  have hsorted : ∀ u : SortedSet α, u.keys.Pairwise (· < ·) := fun u =>
    List.pairwise_map.mpr u.increasing
  have hmem : ∀ k, k ∈ s.keys ↔ k ∈ t.keys := by
    intro k
    simp only [keys, List.mem_map]
    constructor
    · rintro ⟨x, hx, rfl⟩
      exact mem_iff.mp ((h x).mp (mem_of_mem_toList hx))
    · rintro ⟨x, hx, rfl⟩
      exact mem_iff.mp ((h x).mpr (mem_of_mem_toList hx))
  exact List.Pairwise.eq_of_mem_iff (hsorted s) (hsorted t) hmem

/-- Texts are their own keys, so the members of a set of texts are those that it lists. -/
theorem mem_toList_text {s : SortedSet String} {x : String} : x ∈ s.toList ↔ x ∈ s := by
  refine ⟨mem_of_mem_toList, fun h => ?_⟩
  obtain ⟨y, hy, hkey⟩ := mem_iff.mp h
  rwa [← (List.cons.inj hkey).1]

theorem mem_ofList_text {xs : List String} {x : String} : x ∈ ofList xs ↔ x ∈ xs := by
  rw [mem_ofList]
  constructor
  · rintro ⟨y, hy, hkey⟩
    rwa [← (List.cons.inj hkey).1]
  · intro h
    exact ⟨x, h, rfl⟩

/-- A set of texts is its members. -/
theorem eq_of_mem_iff_text {s t : SortedSet String} (h : ∀ x, x ∈ s ↔ x ∈ t) : s = t := by
  have hinjective : Function.Injective (key : String → List String) := fun _ _ hkey =>
    (List.cons.inj hkey).1
  exact eq_of_toList_eq (List.map_injective_iff.mpr hinjective (keys_eq_of_mem_iff h))

/-! ## Elements that correspond -/

variable {β : Type} [Keyed β] {R : α → β → Prop}

theorem forall₂_place (hR : ∀ x y, R x y → key x = key y) {replace : Bool} {x : α} {y : β}
    (hxy : R x y) {xs : List α} {ys : List β} (h : List.Forall₂ R xs ys) :
    List.Forall₂ R (place replace x xs) (place replace y ys) := by
  induction h with
  | nil => exact .cons hxy .nil
  | @cons a b xs ys hab htail ih =>
      rw [place, place, hR x y hxy, hR a b hab]
      split
      · exact .cons hxy (.cons hab htail)
      · split
        · exact .cons hab ih
        · cases replace with
          | true => exact .cons hxy htail
          | false => exact .cons hab htail

/-- Sets that list corresponding elements still do where more are inserted that correspond, with
    one key each. -/
theorem forall₂_extend (hR : ∀ x y, R x y → key x = key y) {xs : List α} {ys : List β}
    (h : List.Forall₂ R xs ys) : ∀ (s : SortedSet α) (t : SortedSet β),
      List.Forall₂ R s.toList t.toList →
        List.Forall₂ R (s.extend xs).toList (t.extend ys).toList := by
  induction h with
  | nil => intro s t hst; exact hst
  | cons hxy _ ih => intro s t hst; exact ih _ _ (forall₂_place hR hxy hst)

/-- What is found by one key corresponds. -/
theorem rel_find? (hR : ∀ x y, R x y → key x = key y) {s : SortedSet α} {t : SortedSet β}
    (h : List.Forall₂ R s.toList t.toList) (k : List String) :
    Option.Rel R (s.find? k) (t.find? k) := by
  simp only [find?]
  generalize s.toList = xs, t.toList = ys at h ⊢
  induction h with
  | nil => exact .none
  | @cons a b xs ys hab _ ih =>
      rw [List.find?_cons, List.find?_cons, hR a b hab]
      split
      · exact .some hab
      · exact ih

end IndexDesign.SortedSet
