import IndexDesign.Index.Basic
import IndexDesign.Proofs.SortedSet

/-! # The pool — candidates that are told apart by their keys

    The key of an index is a fingerprint of its descriptor, so indexes of one
    descriptor have one key.  The converse is a matter of luck, and what the
    results about keys ask for.  The pool then has every candidate once, in
    the order of the keys. -/

namespace IndexDesign

namespace Index

variable {indexes : List Index}

/-- The pool is listed by keys. -/
theorem pairwise_pool (indexes : List Index) :
    (pool indexes).Pairwise fun i j => Keyed.key i < Keyed.key j :=
  (SortedSet.extend ∅ indexes).increasing

theorem mem_of_mem_pool {i : Index} (h : i ∈ pool indexes) : i ∈ indexes :=
  SortedSet.mem_of_mem_toList_extend h

/-- The pool has a candidate of every descriptor. -/
theorem exists_mem_pool {j : Index} (h : j ∈ indexes) :
    ∃ i ∈ pool indexes, i.descriptor = j.descriptor := by
  have hmem : j ∈ SortedSet.extend ∅ indexes := SortedSet.mem_extend.mpr (.inr ⟨j, h, rfl⟩)
  obtain ⟨i, hi, hkey⟩ := SortedSet.mem_iff.mp hmem
  exact ⟨i, hi, (List.cons.inj (List.cons.inj hkey).2).1⟩

theorem key_eq_of_descriptor_eq {i j : Index} (h : i.descriptor = j.descriptor) :
    i.key = j.key := by
  unfold key
  rw [h]

/-- Candidates of one key have one descriptor. -/
def KeysDistinct (indexes : List Index) : Prop :=
  ∀ i ∈ indexes, ∀ j ∈ indexes, i.key = j.key → i.descriptor = j.descriptor

/-- The keys of the pool differ. -/
theorem nodup_keys_pool (h : KeysDistinct indexes) : ((pool indexes).map (·.key)).Nodup := by
  refine List.pairwise_map.mpr ?_
  refine List.Pairwise.imp_of_mem ?_ (pairwise_pool indexes)
  intro i j hi hj hlt hkey
  have hdescriptor := h i (mem_of_mem_pool hi) j (mem_of_mem_pool hj) hkey
  have heq : Keyed.key i = Keyed.key j := by
    show [i.key, i.descriptor] = [j.key, j.descriptor]
    rw [hkey, hdescriptor]
  rw [heq] at hlt
  exact List.lt_irrefl _ hlt

/-- The pool has as many candidates as there are descriptors. -/
theorem length_pool (indexes : List Index) :
    (pool indexes).length = (indexes.map (·.descriptor)).dedup.length := by
  have hnodup : ((pool indexes).map (·.descriptor)).Nodup := by
    refine List.pairwise_map.mpr ((pairwise_pool indexes).imp ?_)
    intro i j hlt hdescriptor
    have heq : Keyed.key i = Keyed.key j := by
      show [i.key, i.descriptor] = [j.key, j.descriptor]
      rw [key_eq_of_descriptor_eq hdescriptor, hdescriptor]
    rw [heq] at hlt
    exact List.lt_irrefl _ hlt
  have hmem : ∀ d, d ∈ (pool indexes).map (·.descriptor)
      ↔ d ∈ (indexes.map (·.descriptor)).dedup := by
    intro d
    rw [List.mem_dedup]
    constructor
    · rintro h
      obtain ⟨i, hi, rfl⟩ := List.mem_map.mp h
      exact List.mem_map_of_mem (mem_of_mem_pool hi)
    · intro h
      obtain ⟨j, hj, rfl⟩ := List.mem_map.mp h
      obtain ⟨i, hi, hdescriptor⟩ := exists_mem_pool hj
      exact List.mem_map.mpr ⟨i, hi, hdescriptor⟩
  have hperm := (List.perm_ext_iff_of_nodup hnodup (List.nodup_dedup _)).mpr hmem
  rw [← hperm.length_eq, List.length_map]

end Index

end IndexDesign
