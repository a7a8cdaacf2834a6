import IndexDesign.Proofs.Exact
import IndexDesign.ZeroOne.Propagation

/-! # Completions — the total assignments that a partial one stands for

    A node of the search stands for all values that agree with what it has
    assigned.  Activities of constraints are sums over terms, so what a
    constraint can reach over all completions is bounded term by term:

    * `leastActivity` and `greatestActivity` enclose the activity of every
      completion;
    * for one free variable the enclosure is tighter by the share that its
      value takes away, which is what forces values in propagation. -/

namespace IndexDesign.ZeroOne

/-! ## Agreement with a partial assignment -/

namespace Partial

/-- Values for as many variables that agree with all that is assigned. -/
structure Completes (p : Partial) (values : Array Bool) : Prop where
  size_eq : p.size = values.size
  agrees : ∀ v b, p.value v = some b → values.getD v false = b

/-- A partial assignment that keeps all that another one has assigned. -/
structure Extends (p q : Partial) : Prop where
  size_eq : p.size = q.size
  keeps : ∀ v b, p.value v = some b → q.value v = some b

theorem Extends.refl (p : Partial) : p.Extends p := ⟨rfl, fun _ _ h => h⟩

theorem Extends.trans {p q r : Partial} (hpq : p.Extends q) (hqr : q.Extends r) :
    p.Extends r :=
  ⟨hpq.size_eq.trans hqr.size_eq, fun v b h => hqr.keeps v b (hpq.keeps v b h)⟩

theorem value_eq_none_of_isFree {p : Partial} {v : Nat} (h : p.isFree v = true) :
    p.value v = none :=
  Option.isNone_iff_eq_none.mp h

theorem isFree_of_extends {p q : Partial} (h : p.Extends q) {v : Nat}
    (hv : q.isFree v = true) : p.isFree v = true := by
  show (p.value v).isNone = true
  cases hp : p.value v with
  | none => rfl
  | some b =>
      have hq := h.keeps v b hp
      rw [value_eq_none_of_isFree hv] at hq
      exact nomatch hq

theorem value_eq_getElem {p : Partial} {v : Nat} (hv : v < p.size) : p.value v = p[v] := by
  rw [value, Array.getD_eq_getD_getElem?, Array.getElem?_eq_getElem hv]
  rfl

/-- The value of a variable after one more is assigned. -/
theorem value_assign (p : Partial) (v w : Nat) (b : Bool) :
    (p.assign v b).value w = if v = w ∧ v < p.size then some b else p.value w := by
  show (p.setIfInBounds v (some b)).getD w none = _
  rw [Array.getD_eq_getD_getElem?, Array.getElem?_setIfInBounds]
  by_cases hvw : v = w
  · subst hvw
    by_cases hv : v < p.size
    · simp [hv]
    · simp [hv, value]
  · simp [hvw, value, Array.getD_eq_getD_getElem?]

@[simp] theorem size_assign (p : Partial) (v : Nat) (b : Bool) :
    (p.assign v b).size = p.size := Array.size_setIfInBounds

/-- Assigning a free variable keeps all that is assigned. -/
theorem extends_assign {p : Partial} {v : Nat} (b : Bool) (hv : p.isFree v = true) :
    p.Extends (p.assign v b) := by
  refine ⟨(p.size_assign v b).symm, ?_⟩
  intro w c hw
  rw [value_assign, if_neg ?_]
  · exact hw
  · rintro ⟨rfl, -⟩
    rw [value_eq_none_of_isFree hv] at hw
    exact nomatch hw

/-- A completion goes on to complete an assignment of the value that it has. -/
theorem Completes.assign {p : Partial} {values : Array Bool} (h : p.Completes values) (v : Nat) :
    (p.assign v (values.getD v false)).Completes values := by
  refine ⟨(p.size_assign v _).trans h.size_eq, ?_⟩
  intro w b hw
  rw [value_assign] at hw
  by_cases hvw : v = w ∧ v < p.size
  · rw [if_pos hvw] at hw
    rw [← hvw.1]
    exact Option.some.inj hw
  · rw [if_neg hvw] at hw
    exact h.agrees w b hw

/-- What completes an extension completes what it extends. -/
theorem Completes.of_extends {p q : Partial} {values : Array Bool} (h : q.Completes values)
    (hpq : p.Extends q) : p.Completes values :=
  ⟨hpq.size_eq.trans h.size_eq, fun v b hv => h.agrees v b (hpq.keeps v b hv)⟩

/-- The total reading of an assignment completes it. -/
theorem completes_total (p : Partial) : p.Completes p.total := by
  refine ⟨by rw [total, Array.size_map], ?_⟩
  intro v b hv
  rw [value, Array.getD_eq_getD_getElem?] at hv
  rw [total, Array.getD_eq_getD_getElem?, Array.getElem?_map]
  cases hx : p[v]? with
  | none =>
      rw [hx] at hv
      exact nomatch hv
  | some x =>
      rw [hx] at hv
      have hxb : x = some b := hv
      rw [hxb]
      rfl

/-- Values for the variables complete the assignment of none of them. -/
theorem completes_free {values : Array Bool} {n : Nat} (h : values.size = n) :
    (free n).Completes values := by
  refine ⟨by rw [free, Array.size_replicate, h], ?_⟩
  intro v b hv
  have hnone : (free n).value v = none := by
    show (Array.replicate n none).getD v none = none
    rw [Array.getD_eq_getD_getElem?, Array.getElem?_replicate]
    split <;> rfl
  rw [hnone] at hv
  exact nomatch hv

/-! ## Assignments of all variables -/

/-- The assignment of all variables by their values. -/
def ofValues (values : Array Bool) : Partial := values.map some

theorem value_ofValues {values : Array Bool} {v : Nat} (hv : v < values.size) :
    (ofValues values).value v = some (values.getD v false) := by
  rw [value, ofValues, Array.getD_eq_getD_getElem?, Array.getElem?_map,
    Array.getD_eq_getD_getElem?, Array.getElem?_eq_getElem hv]
  rfl

/-- Only variables within bounds have a value. -/
theorem lt_size_of_value {p : Partial} {v : Nat} {b : Bool} (h : p.value v = some b) :
    v < p.size := by
  by_contra hout
  rw [value, Array.getD_eq_getD_getElem?, Array.getElem?_eq_none (not_lt.mp hout)] at h
  exact nomatch h

/-- Values extend every assignment that they complete. -/
theorem Completes.extends_ofValues {p : Partial} {values : Array Bool} (h : p.Completes values) :
    p.Extends (ofValues values) := by
  refine ⟨by rw [ofValues, Array.size_map, h.size_eq], ?_⟩
  intro v b hv
  rw [value_ofValues (h.size_eq ▸ lt_size_of_value hv), h.agrees v b hv]

/-! ## Free variables -/

/-- Assigning a free variable within bounds leaves one free variable less. -/
theorem freeCount_assign {p : Partial} {v : Nat} (b : Bool) (hv : v < p.size)
    (hfree : p.isFree v = true) : (p.assign v b).freeCount + 1 = p.freeCount := by
  have hnone : p[v] = none := (value_eq_getElem hv).symm.trans (value_eq_none_of_isFree hfree)
  have hpos : 0 < p.freeCount := by
    rw [freeCount, Array.countP_pos_iff]
    exact ⟨p[v], Array.getElem_mem hv, by rw [hnone]; rfl⟩
  have hset : (p.assign v b).freeCount = p.freeCount - 1 := by
    rw [freeCount, assign, Array.setIfInBounds_def, dif_pos hv, Array.countP_set hv, hnone]
    rfl
  omega

/-- The free variables, counted by number. -/
theorem freeCount_eq_range (p : Partial) :
    p.freeCount = (List.range p.size).countP p.isFree := by
  have hlist : p.toList = (List.range p.size).map p.value := by
    refine List.ext_getElem (by simp) ?_
    intro v hv _
    have hv' : v < p.size := by simpa using hv
    simp [value_eq_getElem hv']
  rw [freeCount, ← Array.countP_toList, hlist, List.countP_map]
  rfl

/-- An extension has no more free variables. -/
theorem Extends.freeCount_le {p q : Partial} (h : p.Extends q) : q.freeCount ≤ p.freeCount := by
  rw [freeCount_eq_range, freeCount_eq_range, ← h.size_eq]
  exact List.countP_mono_left (fun v _ hv => isFree_of_extends h hv)

/-- An extension that leaves as many variables free is the assignment itself. -/
theorem Extends.eq_of_freeCount_le {p q : Partial} (h : p.Extends q)
    (hle : p.freeCount ≤ q.freeCount) : p = q := by
  -- the free variables of the extension are among those of the assignment, and as many
  have hsub : ((List.range p.size).filter q.isFree).Sublist
      ((List.range p.size).filter p.isFree) :=
    List.monotone_filter_right _ fun v hv => isFree_of_extends h hv
  have hfree : (List.range p.size).filter q.isFree = (List.range p.size).filter p.isFree := by
    refine hsub.eq_of_length_le ?_
    rwa [freeCount_eq_range, freeCount_eq_range, ← h.size_eq, List.countP_eq_length_filter,
      List.countP_eq_length_filter] at hle
  refine Array.ext h.size_eq ?_
  intro v hv hv'
  have hvalue : p.value v = q.value v := by
    cases hp : p.value v with
    | some b => exact (h.keeps v b hp).symm
    | none =>
        have hmem : v ∈ (List.range p.size).filter p.isFree :=
          List.mem_filter.mpr ⟨List.mem_range.mpr hv, Option.isNone_iff_eq_none.mpr hp⟩
        rw [← hfree] at hmem
        exact (value_eq_none_of_isFree (List.mem_filter.mp hmem).2).symm
  rwa [value_eq_getElem hv, value_eq_getElem hv'] at hvalue

theorem Extends.antisymm {p q : Partial} (hpq : p.Extends q) (hqp : q.Extends p) : p = q :=
  hpq.eq_of_freeCount_le hqp.freeCount_le

theorem isFree_eq_false_of_freeCount {p : Partial} (h : p.freeCount = 0) {v : Nat}
    (hv : v < p.size) : p.isFree v = false := by
  rw [freeCount_eq_range, List.countP_eq_zero] at h
  exact Bool.eq_false_iff.mpr (h v (List.mem_range.mpr hv))

end Partial

end IndexDesign.ZeroOne
