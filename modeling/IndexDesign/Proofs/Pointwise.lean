import Mathlib.Data.List.Forall2

/-! # Lists element by element

    Where a list is turned into another one by one element after the other,
    what holds of each element and its result is said of both lists at once.
    Computations that can fail succeed on a list where they succeed on each of
    its elements. -/

namespace IndexDesign

variable {β γ : Type}

/-! ## Results -/

theorem exists_of_bind_eq_ok {ε : Type} {x : Except ε β} {f : β → Except ε γ} {y : γ}
    (h : x >>= f = .ok y) : ∃ a, x = .ok a ∧ f a = .ok y := by
  cases x with
  | error e => exact nomatch h
  | ok a => exact ⟨a, rfl, h⟩

/-- A list of results succeeds where each of them does. -/
theorem mapM_eq_ok_iff {ε : Type} {f : β → Except ε γ} (xs : List β) :
    ∀ ys, xs.mapM f = .ok ys ↔ List.Forall₂ (fun x y => f x = .ok y) xs ys := by
  induction xs with
  | nil =>
      intro ys
      rw [List.forall₂_nil_left_iff]
      exact ⟨fun h => (Except.ok.inj h).symm, fun h => by rw [h]; rfl⟩
  | cons x xs ih =>
      intro ys
      rw [List.mapM_cons, List.forall₂_cons_left_iff]
      constructor
      · intro h
        obtain ⟨y, hx, h⟩ := exists_of_bind_eq_ok h
        obtain ⟨rest, hxs, h⟩ := exists_of_bind_eq_ok h
        exact ⟨y, rest, hx, (ih rest).mp hxs, (Except.ok.inj h).symm⟩
      · rintro ⟨y, rest, hx, hrest, rfl⟩
        rw [hx, (ih rest).mpr hrest]
        rfl

theorem forall₂_of_mapM_eq_some {f : β → Option γ} (xs : List β) :
    ∀ ys, xs.mapM f = some ys → List.Forall₂ (fun x y => f x = some y) xs ys := by
  induction xs with
  | nil =>
      intro ys h
      rw [← Option.some.inj h]
      exact .nil
  | cons x xs ih =>
      intro ys h
      rw [List.mapM_cons] at h
      obtain ⟨y, hy, h⟩ := Option.bind_eq_some_iff.mp h
      obtain ⟨rest, hrest, h⟩ := Option.bind_eq_some_iff.mp h
      rw [← Option.some.inj h]
      exact .cons hy (ih rest hrest)

/-- A list gives nothing where one of its elements does. -/
theorem mapM_eq_none_iff {f : β → Option γ} (xs : List β) :
    xs.mapM f = none ↔ ∃ x ∈ xs, f x = none := by
  induction xs with
  | nil => simp
  | cons x xs ih =>
      rw [List.mapM_cons, List.exists_mem_cons_iff, ← ih]
      cases f x with
      | none => simp
      | some y => cases xs.mapM f with
        | none => simp
        | some ys => simp

theorem exists_of_mem_getD {xs : Option (List β)} {x : β} (h : x ∈ xs.getD []) :
    ∃ ys, xs = some ys ∧ x ∈ ys := by
  cases xs with
  | none => exact nomatch h
  | some ys => exact ⟨ys, rfl, h⟩

/-! ## Relations -/

variable {R : β → γ → Prop} {xs : List β} {ys : List γ}

theorem forall₂_trans {δ : Type} {S : γ → δ → Prop} {zs : List δ} (hxy : List.Forall₂ R xs ys)
    (hyz : List.Forall₂ S ys zs) : List.Forall₂ (fun x z => ∃ y, R x y ∧ S y z) xs zs := by
  induction hxy generalizing zs with
  | nil => cases hyz with
    | nil => exact .nil
  | cons hr _ ih => cases hyz with
    | cons hs htail => exact .cons ⟨_, hr, hs⟩ (ih htail)

theorem exists_of_forall₂_left (h : List.Forall₂ R xs ys) {x : β} (hx : x ∈ xs) :
    ∃ y ∈ ys, R x y := by
  induction h with
  | nil => exact nomatch hx
  | cons hxy _ ih =>
      rcases List.mem_cons.mp hx with rfl | hx
      · exact ⟨_, List.mem_cons_self .., hxy⟩
      · obtain ⟨y, hy, hr⟩ := ih hx
        exact ⟨y, List.mem_cons_of_mem _ hy, hr⟩

theorem exists_of_forall₂_right (h : List.Forall₂ R xs ys) {y : γ} (hy : y ∈ ys) :
    ∃ x ∈ xs, R x y :=
  exists_of_forall₂_left h.flip hy

theorem exists_forall₂ (xs : List β) : (∀ x ∈ xs, ∃ y, R x y) → ∃ ys, List.Forall₂ R xs ys := by
  induction xs with
  | nil => intro _; exact ⟨[], .nil⟩
  | cons x xs ih =>
      intro h
      obtain ⟨y, hy⟩ := h x List.mem_cons_self
      obtain ⟨ys, hys⟩ := ih fun z hz => h z (List.mem_cons_of_mem _ hz)
      exact ⟨y :: ys, .cons hy hys⟩

/-- What each element gives alone is what the list gives. -/
theorem filterMap_of_forall₂ {f : β → Option γ} (h : List.Forall₂ (fun x y => f x = some y) xs ys) :
    xs.filterMap f = ys := by
  induction h with
  | nil => rfl
  | cons hx _ ih => rw [List.filterMap_cons_some hx, ih]

/-- What is kept of the results is what the elements give one by one. -/
theorem filterMap_id_of_forall₂ {f : β → Option (Option γ)} {zs : List (Option γ)}
    (h : List.Forall₂ (fun x z => f x = some z) xs zs) :
    zs.filterMap id = xs.filterMap fun x => (f x).join := by
  induction h with
  | nil => rfl
  | cons hx _ ih =>
      rw [List.filterMap_cons, List.filterMap_cons, hx, ih]
      rfl

/-- What is found first in a list by computations whose results correspond. -/
theorem rel_findSome? {δ : Type} {R : γ → δ → Prop} {f : β → Option γ} {g : β → Option δ}
    (xs : List β) : (∀ x ∈ xs, Option.Rel R (f x) (g x)) →
      Option.Rel R (xs.findSome? f) (xs.findSome? g) := by
  induction xs with
  | nil => intro _; exact .none
  | cons x xs ih =>
      intro h
      obtain ⟨hx, hxs⟩ := List.forall_mem_cons.mp h
      rw [List.findSome?_cons, List.findSome?_cons]
      generalize f x = a, g x = b at hx ⊢
      cases hx with
      | none => exact ih hxs
      | some hr => exact .some hr

end IndexDesign
