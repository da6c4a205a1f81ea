import WmIot.PartitionTable.Agree

/-!
# What the validation of the tool guarantees

`validate_partition_table` compares neighbours after sorting, with an end that may be one behind the next
offset; the alignment makes up for that. Presence is membership of the names.
-/

namespace WmIot.PartitionTable
set_option autoImplicit false

/-- The addresses of a partition. -/
def Partition.range (p : Partition) : Set Int := Set.Ico p.offset (p.offset + p.size)

def Aligned (p : Partition) : Prop := p.offset % 4096 = 0 ∧ 0 < p.size ∧ p.size % 4096 = 0

theorem is4kAligned_iff (p : Partition) : is4kAligned p = true ↔ Aligned p := by
  rw [is4kAligned, Bool.and_eq_true, Bool.and_eq_true, decide_eq_true_eq, decide_eq_true_eq, decide_eq_true_eq,
    and_assoc]
  rfl

/-- Aligned partitions one of which ends at most one behind the offset of the other do not meet. -/
theorem end_le_of_aligned {p q : Partition} (hp : Aligned p) (hq : Aligned q)
    (hend : ¬ q.offset < p.offset + p.size - 1) : p.offset + p.size ≤ q.offset := by
  unfold Aligned at hp hq
  omega

theorem noOverlap_apart {ps : List Partition} (hover : noOverlap ps = true) (haligned : ∀ p ∈ ps, Aligned p) :
    ps.Pairwise fun p q => p.offset + p.size ≤ q.offset := by
  induction ps with
  | nil => exact .nil
  | cons p ps ih =>
    cases ps with
    | nil => exact List.pairwise_singleton _ _
    | cons q ps =>
      rw [noOverlap, Bool.and_eq_true_iff] at hover
      have hrest := ih hover.2 fun a ha => haligned a (List.mem_cons_of_mem p ha)
      have hnext : p.offset + p.size ≤ q.offset :=
        end_le_of_aligned (haligned p List.mem_cons_self)
          (haligned q (List.mem_cons_of_mem p List.mem_cons_self)) (by simpa using hover.1)
      have hq : 0 < q.size := (haligned q (List.mem_cons_of_mem p List.mem_cons_self)).2.1
      refine .cons (fun a ha => ?_) hrest
      rcases List.mem_cons.mp ha with rfl | ha
      · exact hnext
      · have := List.rel_of_pairwise_cons hrest ha
        omega

theorem range_disjoint {p q : Partition} (h : p.offset + p.size ≤ q.offset) : Disjoint p.range q.range := by
  rw [Set.disjoint_left]
  intro a ha ha'
  exact absurd ha.2 (not_lt.mpr (h.trans ha'.1))

theorem checkForOverlap_disjoint {ps : List Partition} (hover : checkForOverlap ps = true)
    (haligned : ∀ p ∈ ps, Aligned p) : ps.Pairwise fun p q => Disjoint p.range q.range := by
  have hperm := List.perm_insertionSort (fun p q : Partition => p.offset ≤ q.offset) ps
  have happart := noOverlap_apart hover fun p hp => haligned p (hperm.mem_iff.mp hp)
  exact (hperm.pairwise_iff fun h => h.symm).mp (happart.imp range_disjoint)

section
variable {lines : List (List Char)} {ps : List Partition}

/-- A name whose offset is fixed stands on one line at most. -/
theorem count_le_one (hoffsets : (ps.map (·.offset)).Nodup) {name : List Char} {offset : Int}
    (hfixed : ∀ p ∈ ps, p.name = name → p.offset = offset) : (ps.map (·.name)).count name ≤ 1 := by
  have hle : (ps.map (·.name)).count name ≤ (ps.map (·.offset)).count offset := by
    rw [List.count, List.count, List.countP_map, List.countP_map]
    apply List.countP_mono_left
    intro p hp hname
    simp only [Function.comp_apply, beq_iff_eq] at hname ⊢
    exact hfixed p hp hname
  exact hle.trans (List.nodup_iff_count_le_one.mp hoffsets offset)

/-- The offset of a partition that has an expected one. -/
theorem offset_of_consistent {p : Partition} (hcheck : consistent p = true) {e : Partition}
    (hfind : expectedPartitions.find? (fun e => e.name = p.name) = some e) : p.offset = e.offset := by
  rw [consistent, hfind] at hcheck
  simp only [checkPartitionConsistency, Bool.and_eq_true, decide_eq_true_eq] at hcheck
  exact hcheck.1.1

end

end WmIot.PartitionTable
