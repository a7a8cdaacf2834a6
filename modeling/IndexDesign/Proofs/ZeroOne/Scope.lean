import IndexDesign.ZeroOne.Program

/-! # Scope — constraints over the variables of their program

    A program that is built by adding variables, and constraints over variables
    that it has, stays in scope: more variables take no scope away, and merging
    the terms of a constraint mentions no new variable. -/

namespace IndexDesign.ZeroOne

namespace Program

/-- Every constraint is over variables of the program. -/
def InScope (m : Program Rat) : Prop :=
  ∀ c ∈ m.constraints, ∀ t ∈ c.terms, t.1 < m.vars.size

variable {m : Program Rat}

theorem inScope_empty : (empty : Program Rat).InScope := fun _ hc => nomatch hc

theorem InScope.addVariable (h : m.InScope) (name : String) (objective : Rat) :
    (m.addVariable name objective).InScope := by
  intro c hc t ht
  have hlt := h c hc t ht
  show t.1 < (m.vars.push ⟨name, objective⟩).size
  rw [Array.size_push]
  omega

theorem mem_addTerm {v : Nat} {x : Rat} {t : Nat × Rat} (ts : List (Nat × Rat))
    (h : t ∈ addTerm v x ts) : t.1 = v ∨ t.1 ∈ ts.map (·.1) := by
  induction ts with
  | nil =>
      rw [List.mem_singleton.mp h]
      exact .inl rfl
  | cons s ts ih =>
      unfold addTerm at h
      split at h
      · next hs =>
        rcases List.mem_cons.mp h with rfl | h
        · exact .inl hs
        · exact .inr (List.mem_cons_of_mem _ (List.mem_map_of_mem h))
      · rcases List.mem_cons.mp h with rfl | h
        · exact .inr (List.mem_cons_self ..)
        · exact (ih h).imp_right (List.mem_cons_of_mem _)

/-- Merging terms mentions no new variable. -/
theorem mem_mergeTerms {t : Nat × Rat} {terms : List (Nat × Rat)} (h : t ∈ mergeTerms terms) :
    t.1 ∈ terms.map (·.1) := by
  -- induction on the terms still to be merged, over any terms merged before
  have hfold : ∀ (ts merged : List (Nat × Rat)),
      t ∈ ts.foldl (fun merged s => addTerm s.1 s.2 merged) merged →
        t.1 ∈ ts.map (·.1) ∨ t.1 ∈ merged.map (·.1) := by
    intro ts
    induction ts with
    | nil => intro merged h; exact .inr (List.mem_map_of_mem h)
    | cons s ts ih =>
        intro merged h
        rcases ih _ h with h | h
        · exact .inl (List.mem_cons_of_mem _ h)
        · obtain ⟨r, hr, hrt⟩ := List.mem_map.mp h
          rw [← hrt]
          rcases mem_addTerm merged hr with heq | hmem
          · exact .inl (by rw [heq]; exact List.mem_cons_self ..)
          · exact .inr hmem
  rcases hfold terms [] h with h | h
  · exact h
  · exact absurd h List.not_mem_nil

theorem InScope.addConstraint (h : m.InScope) (name : String) {terms : List (Nat × Rat)}
    (sense : Sense) (bound : Rat) (hterms : ∀ t ∈ terms, t.1 < m.vars.size) :
    (m.addConstraint name terms sense bound).InScope := by
  intro c hc t ht
  show t.1 < m.vars.size
  rcases List.mem_append.mp hc with hc | hc
  · exact h c hc t ht
  · rw [List.mem_singleton.mp hc] at ht
    obtain ⟨s, hs, hst⟩ := List.mem_map.mp (mem_mergeTerms (List.mem_filter.mp ht).1)
    rw [← hst]
    exact hterms s hs

end Program

end IndexDesign.ZeroOne
