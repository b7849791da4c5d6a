import LlingrDemux.Offset.Tracker
import Mathlib.Data.List.Chain

/-!
# The sorted gap buffer

The comparator of `sortGapBuffer` is a strict weak order, so the buffer that the
walk sees is strictly increasing in the offset and keeps, of each offset, an item
that was read no earlier than the others.
-/

namespace LlingrDemux.Offset.OffsetsTracker

open Shared
set_option autoImplicit false

variable {T : Type}

theorem gapOrder_neg_iff (a b : WorkItem T) :
    gapOrder a b < 0 ↔ a.offset < b.offset ∨ (a.offset = b.offset ∧ b.readTime < a.readTime) := by
  unfold gapOrder timeCompare
  split_ifs <;> omega

theorem gapOrder_strictWeak : StrictWeak (gapOrder : WorkItem T → WorkItem T → Int) where
  asymm := by
    intro a b
    rw [gapOrder_neg_iff, gapOrder_neg_iff]
    omega
  negTrans := by
    intro a b c
    rw [gapOrder_neg_iff, gapOrder_neg_iff, gapOrder_neg_iff]
    omega

/-- Twins of one offset were read at different times. -/
def ReadApart (a b : WorkItem T) : Prop := a.offset = b.offset → a.readTime ≠ b.readTime

instance : Std.Symm (ReadApart : WorkItem T → WorkItem T → Prop) :=
  ⟨fun _ _ h heq => (h heq.symm).symm⟩

instance (a b : WorkItem T) : Decidable (ReadApart a b) :=
  inferInstanceAs (Decidable (a.offset = b.offset → a.readTime ≠ b.readTime))

section SortSpec
variable (slices : SortFunc (WorkItem T)) (buffer : List (WorkItem T))

theorem run_gapOrder_sorted : (slices.run gapOrder buffer).Pairwise fun a b =>
    a.offset ≤ b.offset ∧ (a.offset = b.offset → b.readTime ≤ a.readTime) := by
  apply (slices.sorted gapOrder buffer gapOrder_strictWeak).imp
  intro a b hab
  rw [gapOrder_neg_iff] at hab
  omega

/-- The comparator sees every pair that ends up adjacent, so the flag never hides a
duplicate and the compaction might as well be unconditional. -/
theorem sortGapBuffer_eq_compact : sortGapBuffer slices buffer =
    compactFunc (fun a b => decide (a.offset = b.offset)) (slices.run gapOrder buffer) := by
  simp only [sortGapBuffer]
  split
  · rfl
  · rename_i hdup
    symm
    apply compactFunc_eq_self
    apply List.isChain_iff_forall_rel_of_append_cons_cons.mpr
    intro a b pre post heq
    simp only [List.any_eq_true, beq_iff_eq, Prod.exists, not_exists, not_and] at hdup
    rcases slices.compared gapOrder buffer pre a b post heq with h | h
    · simpa using fun he => hdup a b h he.symm
    · simpa using hdup b a h

theorem sortGapBuffer_strict :
    (sortGapBuffer slices buffer).Pairwise fun a b => a.offset < b.offset := by
  rw [sortGapBuffer_eq_compact]
  exact compactFunc_strict WorkItem.offset ((run_gapOrder_sorted slices buffer).imp And.left)

theorem mem_of_mem_sortGapBuffer {g : WorkItem T} (h : g ∈ sortGapBuffer slices buffer) :
    g ∈ buffer := by
  rw [sortGapBuffer_eq_compact] at h
  exact (slices.perm gapOrder buffer).mem_iff.mp ((compactFunc_sublist _ _).mem h)

theorem sortGapBuffer_length_le : (sortGapBuffer slices buffer).length ≤ buffer.length := by
  rw [sortGapBuffer_eq_compact]
  exact ((compactFunc_sublist _ _).length_le).trans (slices.perm gapOrder buffer).length_eq.le

/-- Every buffered offset keeps one item, read no earlier than any other of its offset. -/
theorem sortGapBuffer_keeps {g : WorkItem T} (h : g ∈ buffer) :
    ∃ s ∈ sortGapBuffer slices buffer, s.offset = g.offset ∧ (s = g ∨ g.readTime ≤ s.readTime) := by
  rw [sortGapBuffer_eq_compact]
  have hs := run_gapOrder_sorted slices buffer
  have hg := (slices.perm gapOrder buffer).mem_iff.mpr h
  rcases compactFunc_first WorkItem.offset (hs.imp And.left) (hs.imp And.right) g hg with
    hg | ⟨s, hs, ho, hr⟩
  · exact ⟨g, hg, rfl, .inl rfl⟩
  · exact ⟨s, hs, ho, .inr (hr ho)⟩

/-- Of two items that are left with one offset there is only one. -/
theorem sortGapBuffer_offset_inj {g h : WorkItem T} (hg : g ∈ sortGapBuffer slices buffer)
    (hh : h ∈ sortGapBuffer slices buffer) (heq : g.offset = h.offset) : g = h := by
  have hnodup : ((sortGapBuffer slices buffer).map WorkItem.offset).Nodup := by
    rw [List.Nodup, List.pairwise_map]
    exact (sortGapBuffer_strict slices buffer).imp fun hlt => ne_of_lt hlt
  exact List.inj_on_of_nodup_map hnodup hg hh heq

/-- What is left of an offset was read last. -/
theorem sortGapBuffer_latest {g h : WorkItem T} (hg : g ∈ sortGapBuffer slices buffer)
    (hh : h ∈ buffer) (heq : h.offset = g.offset) : h.readTime ≤ g.readTime := by
  obtain ⟨s, hs, hoffset, hread⟩ := sortGapBuffer_keeps slices buffer hh
  have hsame := sortGapBuffer_offset_inj slices buffer hs hg (hoffset.trans heq)
  subst hsame
  rcases hread with rfl | hread
  · exact le_rfl
  · exact hread

/-- Items that are told apart by offset and read time leave the same survivors behind. -/
theorem mem_sortGapBuffer_of_perm {slices slices' : SortFunc (WorkItem T)}
    {buffer buffer' : List (WorkItem T)} (hperm : buffer.Perm buffer')
    (distinct : buffer.Pairwise ReadApart)
    {g : WorkItem T} (hg : g ∈ sortGapBuffer slices buffer) :
    g ∈ sortGapBuffer slices' buffer' := by
  have hbuffer := mem_of_mem_sortGapBuffer slices buffer hg
  obtain ⟨s, hs, hoffset, hread⟩ :=
    sortGapBuffer_keeps slices' buffer' (hperm.mem_iff.mp hbuffer)
  have hs' := hperm.mem_iff.mpr (mem_of_mem_sortGapBuffer slices' buffer' hs)
  have hlatest := sortGapBuffer_latest slices buffer hg hs' hoffset
  rcases hread with rfl | hread
  · exact hs
  · by_cases hne : g = s
    · exact hne ▸ hs
    · have := distinct.forall hbuffer hs' hne hoffset.symm
      omega

/-- Sorting and removing duplicates: the offsets that were there, each once and in order, with
the item that was read last; the order of arrival decides nothing. -/
theorem sortGapBuffer_dedupes :
    (sortGapBuffer slices buffer).Pairwise (fun a b => a.offset < b.offset) ∧
    (∀ g ∈ sortGapBuffer slices buffer, g ∈ buffer ∧
      ∀ h ∈ buffer, h.offset = g.offset → h.readTime ≤ g.readTime) ∧
    (∀ h ∈ buffer, ∃! g, g ∈ sortGapBuffer slices buffer ∧ g.offset = h.offset) ∧
    ∀ (slices' : SortFunc (WorkItem T)) (buffer' : List (WorkItem T)), buffer.Perm buffer' →
      buffer.Pairwise ReadApart →
      sortGapBuffer slices buffer = sortGapBuffer slices' buffer' := by
  refine ⟨sortGapBuffer_strict slices buffer, ?_, ?_, ?_⟩
  · intro g hg
    exact ⟨mem_of_mem_sortGapBuffer slices buffer hg,
      fun h hh heq => sortGapBuffer_latest slices buffer hg hh heq⟩
  · intro h hh
    obtain ⟨s, hs, hoffset, _⟩ := sortGapBuffer_keeps slices buffer hh
    refine ⟨s, ⟨hs, hoffset⟩, ?_⟩
    intro g hg
    exact sortGapBuffer_offset_inj slices buffer hg.1 hs (hg.2.trans hoffset.symm)
  · intro slices' buffer' hperm distinct
    have hirrefl : Std.Irrefl fun a b : WorkItem T => a.offset < b.offset := ⟨fun a => lt_irrefl _⟩
    have hanti : Std.Antisymm fun a b : WorkItem T => a.offset < b.offset :=
      ⟨fun a b hab hba => absurd hba (not_lt.mpr (le_of_lt hab))⟩
    apply (sortGapBuffer_strict slices buffer).eq_of_mem_iff (sortGapBuffer_strict slices' buffer')
    intro g
    exact ⟨mem_sortGapBuffer_of_perm hperm distinct,
      mem_sortGapBuffer_of_perm hperm.symm (distinct.perm hperm (Std.Symm.symm _ _))⟩

end SortSpec

/-- Twins of offset 7 around an item of offset 5, in both orders. -/
theorem sortGapBuffer_dedupes_twins :
    sortGapBuffer (SortFunc.insertion (WorkItem Unit))
        [⟨0, { partition := 0, offset := 7 }, { readTime := 1 }, 6, false, 0⟩,
          ⟨1, { partition := 0, offset := 5 }, { readTime := 2 }, 4, false, 0⟩,
          ⟨2, { partition := 0, offset := 7 }, { readTime := 3 }, 5, false, 0⟩] =
      sortGapBuffer (SortFunc.insertion (WorkItem Unit))
        [⟨2, { partition := 0, offset := 7 }, { readTime := 3 }, 5, false, 0⟩,
          ⟨0, { partition := 0, offset := 7 }, { readTime := 1 }, 6, false, 0⟩,
          ⟨1, { partition := 0, offset := 5 }, { readTime := 2 }, 4, false, 0⟩] := by
  apply (sortGapBuffer_dedupes _ _).2.2.2
  · decide
  · decide

end LlingrDemux.Offset.OffsetsTracker
