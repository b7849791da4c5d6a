import LlingrDemux.Offset.Calls
import Mathlib.Data.List.Perm.Subperm

/-!
# Where every ingested work item is

The committer neither loses nor doubles a work item. Each operation of a tracker moves
the items it held between the tracker, the metrics collector and, for the twins that the
compaction of `sortGapBuffer` removes, nowhere. So for every stamp the ingested items are
as many as the collected, the held and the dropped ones together.
-/

namespace LlingrDemux.Offset

open Shared
set_option autoImplicit false

variable {T : Type}

/-- One for a work item that carries the stamp. -/
def weight (a : WorkItem.Stamp) (w : WorkItem T) : Nat := if w.stamp == a then 1 else 0

/-- How many work items of the list carry the stamp. -/
def tally (a : WorkItem.Stamp) (l : List (WorkItem T)) : Nat := l.countP fun w => w.stamp == a

section Tally
variable {a : WorkItem.Stamp}

@[simp] theorem weight_setWatermarkAdvanceTime (w : WorkItem T) (now : Int) :
    weight a (w.setWatermarkAdvanceTime now) = weight a w := rfl
@[simp] theorem weight_setCommitBuffered (w : WorkItem T) :
    weight a w.setCommitBuffered = weight a w := rfl
@[simp] theorem weight_setOrphaned (w : WorkItem T) : weight a w.setOrphaned = weight a w := rfl
@[simp] theorem weight_orphanedAt (w : WorkItem T) (now : Int) :
    weight a (orphanedAt w now) = weight a w := rfl
@[simp] theorem weight_markFirst (w : WorkItem T) :
    weight a (OffsetsTracker.markFirst w) = weight a w := by
  simp only [weight, OffsetsTracker.stamp_markFirst]

@[simp] theorem tally_nil : tally a ([] : List (WorkItem T)) = 0 := rfl

@[simp] theorem tally_cons (w : WorkItem T) (l : List (WorkItem T)) :
    tally a (w :: l) = tally a l + weight a w := List.countP_cons

@[simp] theorem tally_append (l k : List (WorkItem T)) :
    tally a (l ++ k) = tally a l + tally a k := List.countP_append

theorem tally_map {f : WorkItem T → WorkItem T} (hf : ∀ w, (f w).stamp = w.stamp)
    (l : List (WorkItem T)) : tally a (l.map f) = tally a l := by
  simp [tally, List.countP_map, Function.comp_def, hf]

theorem tally_perm {l k : List (WorkItem T)} (h : l.Perm k) : tally a l = tally a k :=
  h.countP_eq _

theorem tally_pos {l : List (WorkItem T)} : 0 < tally a l ↔ ∃ w ∈ l, w.stamp = a := by
  simp [tally, List.countP_pos_iff]

theorem tally_eq_count (l : List (WorkItem T)) :
    tally a l = (l.map WorkItem.stamp).count a := by
  rw [tally, List.count_eq_countP, List.countP_map]
  rfl

/-- A list that holds no stamp more often than a list of distinct items has distinct items. -/
theorem nodup_of_tally_le {l k : List (WorkItem T)} (hle : ∀ a, tally a l ≤ tally a k)
    (unique : (k.map WorkItem.ptr).Nodup) : (l.map WorkItem.ptr).Nodup := by
  have hsub : (l.map WorkItem.stamp).Subperm (k.map WorkItem.stamp) := by
    apply List.subperm_ext_iff.mpr
    intro a _
    rw [← tally_eq_count, ← tally_eq_count]
    exact hle a
  obtain ⟨m, hperm, hsublist⟩ := List.subperm_iff.mp hsub
  have hptr : ∀ r : List (WorkItem T),
      (r.map WorkItem.stamp).map WorkItem.Stamp.ptr = r.map WorkItem.ptr := fun r => by
    rw [List.map_map]
    rfl
  rw [← hptr] at unique ⊢
  exact ((hperm.map _).nodup_iff.mpr unique).sublist (hsublist.map _)

/-- Items of other partitions do not count. -/
theorem tally_filter_partition (l : List (WorkItem T)) :
    tally a (l.filter fun w => w.partition == a.partition) = tally a l := by
  rw [tally, tally, List.countP_filter]
  apply List.countP_congr
  intro w _
  simp only [Bool.and_eq_true, beq_iff_eq, and_iff_left_iff_imp]
  intro h
  exact congrArg WorkItem.Stamp.partition h

/-- A loop over partitions counts a stamp at its own partition only. -/
theorem tally_flatMap {f : Int → List (WorkItem T)} {order : List Int}
    (hf : ∀ p, ∀ w ∈ f p, w.partition = p) (hnd : order.Nodup) :
    tally a (order.flatMap f) = if a.partition ∈ order then tally a (f a.partition) else 0 := by
  have hother : ∀ p, p ≠ a.partition → tally a (f p) = 0 := by
    intro p hp
    by_contra hpos
    obtain ⟨w, hw, rfl⟩ := tally_pos.mp (Nat.pos_of_ne_zero hpos)
    exact hp (hf p w hw).symm
  induction order with
  | nil => simp
  | cons p order ih =>
    obtain ⟨hp, hnd⟩ := List.nodup_cons.mp hnd
    rw [List.flatMap_cons, tally_append, ih hnd]
    by_cases h : p = a.partition
    · subst h
      simp [hp]
    · simp [hother p h, Ne.symm h]

end Tally

namespace OffsetsTracker

/-- The work items in the tracker. -/
def held (t : OffsetsTracker T) : List (WorkItem T) := t.ready.toList ++ t.gapBuffer

/-- The buffered items that the compaction removes in the next flush. -/
def compacted (slices : SortFunc (WorkItem T)) (t : OffsetsTracker T) : List (WorkItem T) :=
  if t.needsGapAdvance then
    t.gapBuffer.filter fun g => (sortGapBuffer slices t.gapBuffer).all fun k => k.ptr != g.ptr
  else []

/-! ## One operation of a tracker -/

section Operations
variable {a : WorkItem.Stamp} (slices : SortFunc (WorkItem T)) {t : OffsetsTracker T}

theorem checkAndAdvance_conserves (w : WorkItem T) (now : Int) :
    tally a (t.checkAndAdvance w now).1.held + tally a (t.checkAndAdvance w now).2 =
      tally a t.held + tally a [w] := by
  unfold checkAndAdvance
  cases hr : t.ready with
  | none =>
    simp only
    split_ifs
    · simp [advanceThroughGapBuffer_eq, held, hr]
    · simp [held, hr]
    · simp [held, hr, addToGapBuffer]
    · simp [held, hr, addToGapBuffer]
  | some r =>
    simp only
    split_ifs
    · simp [held, hr]
    · simp only [advanceThroughGapBuffer_eq, held, hr, Option.toList_some, tally_append, tally_cons,
        tally_nil, weight_setWatermarkAdvanceTime]
      omega
    · simp only [held, hr, addToGapBuffer, Option.toList_some, tally_append, tally_cons,
        tally_nil, weight_setCommitBuffered]
      omega

theorem processCommit_conserves (o : Option (OffsetsTracker T)) (w : WorkItem T) (now : Int) :
    tally a (processCommit o w now).1.held + tally a (processCommit o w now).2 =
      tally a (o.elim [] held) + tally a [w] := by
  have harrive : (arrive o w).held = o.elim [] held := by
    cases o with
    | none => simp [arrive, raiseFromFirst_eq, ofFirstSeen, held]
    | some t =>
      obtain ⟨lo, hi, heq⟩ := arrive_some_eq t w
      simp [heq, held]
  have h := checkAndAdvance_conserves (a := a) (t := arrive o w) (markFirst w) now
  rw [harrive] at h
  simpa [processCommit] using h

theorem walk_conserves (cpo last now : Int) (ready : Option (WorkItem T)) (l : List (WorkItem T)) :
    tally a (walk cpo last now ready l).ready.toList + tally a (walk cpo last now ready l).rest +
        tally a (walk cpo last now ready l).retired =
      tally a ready.toList + tally a l := by
  fun_induction walk cpo last now ready l with
  | case1 ready => simp
  | case2 g gs hlt q ih =>
    simp only [tally_cons, weight_orphanedAt, q] at ih ⊢
    omega
  | case3 g gs hge hinit ih =>
    simp only [Option.toList_some, Option.toList_none, tally_cons, tally_nil,
      weight_setWatermarkAdvanceTime] at ih ⊢
    omega
  | case4 g gs => simp
  | case5 r g gs hle q ih =>
    simp only [tally_cons, weight_orphanedAt, q] at ih ⊢
    omega
  | case6 r g gs hlt hlink q ih =>
    simp only [Option.toList_some, tally_cons, tally_nil,
      weight_setWatermarkAdvanceTime, q] at ih ⊢
    omega
  | case7 r g gs => simp

/-- What is left after the compaction and what it removed make up the buffer. -/
theorem sortGapBuffer_compacted {buffer : List (WorkItem T)}
    (unique : (buffer.map WorkItem.ptr).Nodup) :
    (sortGapBuffer slices buffer ++ buffer.filter fun g =>
      (sortGapBuffer slices buffer).all fun k => k.ptr != g.ptr).Perm buffer := by
  have hbuffer : buffer.Nodup := unique.of_map
  have hsorted : (sortGapBuffer slices buffer).Nodup := by
    apply (sortGapBuffer_strict slices buffer).imp
    intro g k hlt he
    exact absurd (congrArg WorkItem.offset he) hlt.ne
  have hdisjoint : List.Disjoint (sortGapBuffer slices buffer) (buffer.filter fun g =>
      (sortGapBuffer slices buffer).all fun k => k.ptr != g.ptr) := by
    intro g hg hdrop
    have hall := (List.mem_filter.mp hdrop).2
    simpa using List.all_eq_true.mp hall g hg
  rw [List.perm_ext_iff_of_nodup (hsorted.append (hbuffer.filter _) hdisjoint) hbuffer]
  intro g
  rw [List.mem_append, List.mem_filter]
  constructor
  · rintro (hg | ⟨hg, _⟩)
    · exact mem_of_mem_sortGapBuffer slices buffer hg
    · exact hg
  · intro hg
    by_cases hk : ∃ k ∈ sortGapBuffer slices buffer, k.ptr = g.ptr
    · obtain ⟨k, hk, hptr⟩ := hk
      left
      rwa [← List.inj_on_of_nodup_map unique (mem_of_mem_sortGapBuffer slices buffer hk) hg hptr]
    · right
      refine ⟨hg, List.all_eq_true.mpr fun k hmem => ?_⟩
      simpa using fun he => hk ⟨k, hmem, he⟩

theorem flush_conserves (unique : (t.gapBuffer.map WorkItem.ptr).Nodup) (now : Int) :
    tally a (t.flush slices now).1.held + tally a (t.flush slices now).2 +
      tally a (t.compacted slices) = tally a t.held := by
  cases hflag : t.needsGapAdvance with
  | false => simp [flush, compacted, hflag]
  | true =>
    by_cases hempty : t.gapBuffer = []
    · simp [flush, compacted, hflag, hempty, held]
    · have hwalk := walk_conserves (a := a) t.committedPlusOne t.lastCommittedOffset now t.ready
        (sortGapBuffer slices t.gapBuffer)
      have hsort := tally_perm (a := a) (sortGapBuffer_compacted slices unique)
      simp only [flush, compacted, hflag, hempty, Bool.not_true, Bool.false_eq_true, if_false,
        if_true, sortAndWalk, held, tally_append] at hwalk hsort ⊢
      omega

/-- The successor, what the repair keeps and what it prunes make up the buffer. -/
theorem repair_split {buffer : List (WorkItem T)} {s : WorkItem T}
    (unique : (buffer.map WorkItem.ptr).Nodup) (hs : s ∈ buffer) :
    tally a (buffer.filter fun g => !(g.ptr == s.ptr) && !decide (g.offset < s.offset)) +
      tally a (buffer.filter fun g => !(g.ptr == s.ptr) && decide (g.offset < s.offset)) +
      weight a s = tally a buffer := by
  have hothers : (s :: buffer.filter fun g => !(g.ptr == s.ptr)).Perm buffer := by
    rw [List.perm_ext_iff_of_nodup _ unique.of_map]
    · intro g
      rw [List.mem_cons, List.mem_filter]
      constructor
      · rintro (rfl | ⟨hg, _⟩)
        · exact hs
        · exact hg
      · intro hg
        by_cases hptr : g.ptr = s.ptr
        · exact .inl (List.inj_on_of_nodup_map unique hg hs hptr)
        · exact .inr ⟨hg, by simpa using hptr⟩
    · refine List.nodup_cons.mpr ⟨by simp, unique.of_map.filter _⟩
  have hsplit := tally_perm (a := a) (List.filter_append_perm
    (fun g => decide (g.offset < s.offset)) (buffer.filter fun g => !(g.ptr == s.ptr)))
  have hbuffer := tally_perm (a := a) hothers
  simp only [List.filter_filter, tally_append, tally_cons] at hsplit hbuffer
  simp only [Bool.and_comm (!(_ == s.ptr))]
  omega

theorem repairSuccessor_conserves (unique : (t.gapBuffer.map WorkItem.ptr).Nodup) (now : Int) :
    tally a (t.repairSuccessor now).1.held + tally a (t.repairSuccessor now).2 =
      tally a t.held := by
  unfold repairSuccessor
  split_ifs with hguard
  · rfl
  · cases hs : t.findSuccessor with
    | none => rfl
    | some s =>
      have hnone : t.ready = none := by
        simpa using fun h => hguard (.inl h)
      have hsplit := repair_split (a := a) unique (findSuccessor_some hs).1
      simp only [held, hnone, Option.toList_some, Option.toList_none, tally_append, tally_cons,
        tally_nil, weight_setWatermarkAdvanceTime, tally_map fun w => stamp_orphanedAt w now]
      omega

theorem discardOrphanedTracker_conserves :
    tally a t.discardOrphanedTracker.1.held + tally a t.discardOrphanedTracker.2 =
      tally a t.held := by
  unfold discardOrphanedTracker
  split_ifs
  · rfl
  · simp [held, tally_map WorkItem.stamp_setOrphaned]

theorem collectCommit_conserves (unique : (t.gapBuffer.map WorkItem.ptr).Nodup) (assigned : Bool)
    (now : Int) :
    tally a (t.collectCommit assigned now).1.held + tally a (t.collectCommit assigned now).2.1 =
      tally a t.held := by
  cases assigned with
  | false => exact discardOrphanedTracker_conserves
  | true =>
    have hrepair := repairSuccessor_conserves (a := a) unique now
    apply collectCommit_rule (P := fun q => tally a q.1.held + tally a q.2 = tally a t.held)
      t now hrepair
    intro w hr
    simp only [held, hr, Option.toList_some, Option.toList_none, tally_append, tally_cons,
      tally_nil, weight_setOrphaned] at hrepair ⊢
    omega

theorem acceptCommit_conserves (offset : Int) :
    tally a (t.acceptCommit offset).1.held + tally a (t.acceptCommit offset).2 =
      tally a t.held := by
  simp only [acceptCommit, held, Option.toList_none, List.nil_append, tally_append]
  omega

theorem tick_conserves (unique : (t.held.map WorkItem.ptr).Nodup) (assigned : Bool) (k : PartitionTick) :
    tally a (t.tick slices assigned k).1.held + tally a (t.tickRetired slices assigned k) +
      tally a (t.compacted slices) = tally a t.held := by
  have hbuffer : (t.gapBuffer.map WorkItem.ptr).Nodup :=
    nodup_of_tally_le (fun a => by simp [held]) unique
  have hflush := fun a => flush_conserves (a := a) slices hbuffer k.flushTime
  have hflushed : ((t.flush slices k.flushTime).1.gapBuffer.map WorkItem.ptr).Nodup := by
    apply nodup_of_tally_le _ unique
    intro a
    have h := hflush a
    simp only [held, tally_append] at h ⊢
    omega
  have hcollect := collectCommit_conserves (a := a) hflushed assigned k.repairTime
  have hflush := hflush a
  apply tick_rule (P := fun q => tally a q.1.held + tally a q.2 + tally a (t.compacted slices) =
    tally a t.held)
  · simp only [tally_append]
    omega
  · intro offset
    have haccept := acceptCommit_conserves (a := a)
      (t := ((t.flush slices k.flushTime).1.collectCommit assigned k.repairTime).1) offset
    simp only [tally_append]
    omega

theorem resetCommittedOffset_conserves (o : Option (OffsetsTracker T)) (committedOffset : Int) :
    tally a (resetCommittedOffset o committedOffset).1.held +
        tally a (resetCommittedOffset o committedOffset).2 =
      tally a (o.elim [] held) := by
  cases o with
  | none => simp [resetCommittedOffset, held]
  | some t =>
    have hready : ∀ q : WorkItem T → Bool, tally a (t.ready.filter q).toList +
        tally a (t.ready.filter fun r => !q r).toList = tally a t.ready.toList := by
      intro q
      cases t.ready with
      | none => rfl
      | some r => cases hq : q r <;> simp [Option.filter, hq]
    have h := hready fun r => decide (r.offset < committedOffset)
    simp only [resetCommittedOffset, Option.elim_some]
    split_ifs
    · simp only [held, Option.toList_none, List.nil_append, tally_append, tally_nil,
        tally_map WorkItem.stamp_setOrphaned]
      omega
    · simp only [held, tally_append, tally_nil, tally_map WorkItem.stamp_setOrphaned]
      omega

end Operations

end OffsetsTracker

/-! ## One call on the committer -/

namespace Committer

/-- The work items in the tracker of one partition. -/
def heldAt (c : Committer T) (p : Int) : List (WorkItem T) :=
  (c.partitionMap p).elim [] OffsetsTracker.held

def compactedAt (slices : SortFunc (WorkItem T)) (c : Committer T) (p : Int) : List (WorkItem T) :=
  (c.partitionMap p).elim [] (OffsetsTracker.compacted slices)

end Committer

/-- The items that the compaction removes during the call. -/
def Call.dropped (slices : SortFunc (WorkItem T)) (c : Committer T) : Call T → List (WorkItem T)
  | .flushGapBuffers order _ => order.flatMap (c.compactedAt slices)
  | .commitOffsets k =>
    if k.guardAcquired then k.flushOrder.flatMap (c.compactedAt slices) else []
  | _ => []

/-- Collected and held items of one partition. -/
def Slice.total (a : WorkItem.Stamp) (s : Slice T) : Nat :=
  tally a s.collected + tally a (s.tracker.elim [] OffsetsTracker.held)

theorem Slice.total_update {a : WorkItem.Stamp} {dropped : OffsetsTracker T → Nat}
    {f : Bool → OffsetsTracker T → OffsetsTracker T × List (WorkItem T)} (s : Slice T)
    (hf : ∀ t, s.tracker = some t → tally a (f s.assigned t).1.held +
      tally a (f s.assigned t).2 + dropped t = tally a t.held) :
    (s.update f).total a + s.tracker.elim 0 dropped = s.total a := by
  cases ht : s.tracker with
  | none => simp [Slice.update, Slice.total, ht]
  | some t =>
    have h := hf t ht
    simp only [Slice.update, Slice.total, ht, Option.elim_some, tally_append]
    omega

namespace Committer
variable {c : Committer T} {a : WorkItem.Stamp}

theorem total_slice (c : Committer T) (a : WorkItem.Stamp) :
    (c.slice a.partition).total a = tally a c.collected + tally a (c.heldAt a.partition) := by
  simp only [slice, Slice.total, tally_filter_partition, heldAt]

theorem Keyed.heldAt (hk : c.Keyed) (p : Int) : ∀ w ∈ c.heldAt p, w.partition = p := by
  intro w hw
  cases ht : c.partitionMap p with
  | none => simp [Committer.heldAt, ht] at hw
  | some t =>
    simp only [Committer.heldAt, ht, Option.elim_some, OffsetsTracker.held] at hw
    rcases List.mem_append.mp hw with hw | hw
    · exact (hk p t ht).ready w (Option.mem_toList.mp hw)
    · exact (hk p t ht).buffer w hw

/-- A removed item leaves one of its partition and offset in the buffer. -/
theorem Keyed.kept (hk : c.Keyed) {slices : SortFunc (WorkItem T)} {p : Int} {g : WorkItem T}
    (hg : g ∈ c.compactedAt slices p) :
    ∃ t, c.partitionMap p = some t ∧ g ∈ t.gapBuffer ∧
      ∃ k ∈ OffsetsTracker.sortGapBuffer slices t.gapBuffer,
        k.ptr ≠ g.ptr ∧ k.partition = g.partition ∧ k.offset = g.offset := by
  cases ht : c.partitionMap p with
  | none => simp [compactedAt, ht] at hg
  | some t =>
    simp only [compactedAt, ht, Option.elim_some, OffsetsTracker.compacted] at hg
    split_ifs at hg
    · obtain ⟨hmem, hall⟩ := List.mem_filter.mp hg
      obtain ⟨k, hks, hoffset, _⟩ := OffsetsTracker.sortGapBuffer_keeps slices _ hmem
      have hptr : k.ptr ≠ g.ptr := by simpa using List.all_eq_true.mp hall k hks
      have hkp := (hk p t ht).buffer k (OffsetsTracker.mem_of_mem_sortGapBuffer slices _ hks)
      have hgp := (hk p t ht).buffer g hmem
      exact ⟨t, rfl, hmem, k, hks, hptr, hkp.trans hgp.symm, hoffset⟩
    · cases hg

theorem tally_compacted (hk : c.Keyed) (slices : SortFunc (WorkItem T)) {order : List Int}
    (ho : c.Iterates order) :
    tally a (order.flatMap (c.compactedAt slices)) =
      (c.partitionMap a.partition).elim 0 fun t => tally a (t.compacted slices) := by
  have hpartition : ∀ p, ∀ w ∈ c.compactedAt slices p, w.partition = p := by
    intro p w hw
    obtain ⟨t, ht, hmem, _⟩ := hk.kept hw
    exact (hk p t ht).buffer w hmem
  rw [tally_flatMap hpartition ho.1]
  cases ht : c.partitionMap a.partition with
  | none => simp [ho.2, ht]
  | some t => simp [ho.2, ht, compactedAt]

end Committer

theorem Slice.step_total {a : WorkItem.Stamp} (slices : SortFunc (WorkItem T)) (s : Slice T)
    (call : Call T)
    (unique : ∀ t, s.tracker = some t → (t.held.map WorkItem.ptr).Nodup) :
    (s.step slices a.partition call).total a +
        (match call with
          | .flushGapBuffers _ _ => s.tracker.elim 0 fun t => tally a (t.compacted slices)
          | .commitOffsets k =>
            if k.guardAcquired then s.tracker.elim 0 fun t => tally a (t.compacted slices) else 0
          | _ => 0) =
      s.total a + tally a call.ingested := by
  cases call with
  | processCommit w now =>
    simp only [Slice.step, Call.ingested]
    split_ifs with hp
    · have h := OffsetsTracker.processCommit_conserves (a := a) s.tracker w now
      simp only [Slice.total, Option.elim_some, tally_append]
      omega
    · have hw : weight a w = 0 := by
        simp only [weight, beq_iff_eq, ite_eq_right_iff]
        intro he
        exact absurd (congrArg WorkItem.Stamp.partition he) hp
      simp [hw]
  | flushGapBuffers order now =>
    apply Slice.total_update
    intro t ht
    exact OffsetsTracker.flush_conserves slices
      (nodup_of_tally_le (fun a => by simp [OffsetsTracker.held]) (unique t ht)) now
  | commitOffsets k =>
    simp only [Slice.step]
    split_ifs
    · apply Slice.total_update
      intro t ht
      exact OffsetsTracker.tick_conserves slices (unique t ht) _ _
    · rfl
  | resetCommittedOffsets l =>
    simp only [Slice.step]
    split
    · rfl
    · rename_i r _
      have h := OffsetsTracker.resetCommittedOffset_conserves (a := a) s.tracker r.2
      simp only [Slice.total, Option.elim_some, tally_append, Call.ingested, tally_nil]
      omega
  | markPartitionAssigned q =>
    simp only [Slice.step]
    split_ifs
    · rfl
    · rfl
  | markPartitionRevoked q =>
    simp only [Slice.step]
    split_ifs
    · cases ht : s.tracker with
      | none => simp [Slice.total, ht, Call.ingested]
      | some t => simp [Slice.total, ht, Call.ingested, OffsetsTracker.held]
    · rfl

theorem Call.run_conserves {c : Committer T} {a : WorkItem.Stamp} (hk : c.Keyed)
    (slices : SortFunc (WorkItem T)) {call : Call T} (legal : call.Legal c)
    (unique : ((c.heldAt a.partition).map WorkItem.ptr).Nodup) :
    ((call.run slices c).slice a.partition).total a + tally a (call.dropped slices c) =
      (c.slice a.partition).total a + tally a call.ingested := by
  have hunique : ∀ t, (c.slice a.partition).tracker = some t →
      (t.held.map WorkItem.ptr).Nodup := by
    intro t ht
    change c.partitionMap a.partition = some t at ht
    simpa [Committer.heldAt, ht] using unique
  rw [Committer.run_slice hk slices legal, ← Slice.step_total slices _ call hunique]
  congr 1
  cases call with
  | flushGapBuffers order now => exact Committer.tally_compacted hk slices legal
  | commitOffsets k =>
    simp only [Call.dropped]
    split_ifs
    · exact Committer.tally_compacted hk slices legal.1
    · rfl
  | processCommit w now => rfl
  | resetCommittedOffsets l => rfl
  | markPartitionAssigned q => rfl
  | markPartitionRevoked q => rfl

/-! ## Runs -/

/-- The items that the compaction has removed so far. -/
def History.dropped (slices : SortFunc (WorkItem T)) (h : History T) : List (WorkItem T) :=
  h.steps.flatMap fun s => s.2.dropped slices s.1

@[simp] theorem History.record_dropped (slices : SortFunc (WorkItem T)) (h : History T)
    (call : Call T) :
    (h.record slices call).dropped slices = h.dropped slices ++ call.dropped slices h.committer := by
  simp [History.dropped, History.record]

section Runs
variable {slices : SortFunc (WorkItem T)} {h h' : History T}

theorem Committer.tally_heldAt {c : Committer T} (hk : c.Keyed) {p : Int} (a : WorkItem.Stamp) :
    tally a (c.heldAt p) ≤ tally a (c.heldAt a.partition) := by
  by_cases hp : p = a.partition
  · rw [hp]
  · have hzero : tally a (c.heldAt p) = 0 := by
      by_contra hpos
      obtain ⟨w, hw, rfl⟩ := tally_pos.mp (Nat.pos_of_ne_zero hpos)
      exact hp (hk.heldAt p w hw).symm
    omega

/-- Every ingested item is collected, held or dropped, and counted once. -/
theorem tally_ingested (hr : (callSystem slices Call.Legal).Reachable h)
    (once : (h.ingested.map WorkItem.ptr).Nodup) (a : WorkItem.Stamp) :
    tally a h.ingested = tally a h.committer.collected +
      tally a (h.committer.heldAt a.partition) + tally a (h.dropped slices) := by
  refine System.invariant (P := fun h => (h.ingested.map WorkItem.ptr).Nodup →
    ∀ a, tally a h.ingested = tally a h.committer.collected +
      tally a (h.committer.heldAt a.partition) + tally a (h.dropped slices)) ?_ ?_ h hr once a
  · rintro _ rfl _ a
    simp [History.ingested, History.dropped, Committer.heldAt]
  · rintro h _ hreach ih ⟨call, legal, rfl⟩ once a
    rw [History.record_ingested, List.map_append] at once
    have hbefore := ih (List.nodup_append.mp once).1
    have hk := Committer.Keyed.of_reachable hreach
    have hunique : ((h.committer.heldAt a.partition).map WorkItem.ptr).Nodup := by
      apply nodup_of_tally_le _ (List.nodup_append.mp once).1
      intro b
      have hle := Committer.tally_heldAt hk (p := a.partition) b
      have hb := hbefore b
      omega
    have hstep := Call.run_conserves hk slices legal hunique
    have hb := hbefore a
    rw [Committer.total_slice, Committer.total_slice] at hstep
    simp only [History.record_ingested, History.record_dropped, tally_append]
    simp only [History.record] at hstep ⊢
    omega

/-- An item once handed to the collector stays there. -/
theorem collected_grows (later : (callSystem slices Call.Legal).Run h h') :
    h.committer.collected <+: h'.committer.collected := by
  induction later with
  | refl => exact List.prefix_rfl
  | @tail b c _ hstep ih =>
    obtain ⟨call, _, rfl⟩ := hstep
    exact ih.trans (Committer.run_collected slices b.committer call)

theorem totalProcessed_eq (hr : (callSystem slices Call.Legal).Reachable h) :
    h.committer.totalProcessed = h.committer.collected.length := by
  apply History.store_invariant (P := fun c => c.totalProcessed = c.collected.length) rfl _ _ _ hr
  · intro c p r hc
    rw [Committer.store_totalProcessed, Committer.store_collected, List.length_append, hc]
  · exact fun _ _ hc => hc
  · exact fun _ _ hc => hc

theorem tally_heldAt_order {c : Committer T} (hk : c.Keyed) {order : List Int}
    (ho : c.Iterates order) (a : WorkItem.Stamp) :
    tally a (order.flatMap c.heldAt) = tally a (c.heldAt a.partition) := by
  rw [tally_flatMap hk.heldAt ho.1]
  cases ht : c.partitionMap a.partition with
  | none => simp [ho.2, ht, Committer.heldAt]
  | some t => simp [ho.2, ht]

theorem dropped_kept (hr : (callSystem slices Call.Legal).Reachable h) :
    ∀ s ∈ h.steps, ∀ g ∈ s.2.dropped slices s.1, ∃ t, s.1.partitionMap g.partition = some t ∧
      ∃ k ∈ OffsetsTracker.sortGapBuffer slices t.gapBuffer,
        k.ptr ≠ g.ptr ∧ k.partition = g.partition ∧ k.offset = g.offset := by
  intro s hs g hg
  obtain ⟨_, h₀, hreach, heq⟩ := History.mem_steps hr s hs
  have hk : s.1.Keyed := heq ▸ Committer.Keyed.of_reachable hreach
  have hat : ∃ p, g ∈ s.1.compactedAt slices p := by
    cases hcall : s.2 with
    | flushGapBuffers order now =>
      rw [hcall] at hg
      obtain ⟨p, _, hp⟩ := List.mem_flatMap.mp hg
      exact ⟨p, hp⟩
    | commitOffsets k =>
      rw [hcall] at hg
      simp only [Call.dropped] at hg
      split_ifs at hg
      · obtain ⟨p, _, hp⟩ := List.mem_flatMap.mp hg
        exact ⟨p, hp⟩
      · cases hg
    | processCommit w now => simp [hcall, Call.dropped] at hg
    | resetCommittedOffsets l => simp [hcall, Call.dropped] at hg
    | markPartitionAssigned p => simp [hcall, Call.dropped] at hg
    | markPartitionRevoked p => simp [hcall, Call.dropped] at hg
  obtain ⟨p, hp⟩ := hat
  obtain ⟨t, ht, hmem, hkept⟩ := hk.kept hp
  have hpart : g.partition = p := (hk p t ht).buffer g hmem
  exact ⟨t, hpart ▸ ht, hkept⟩

theorem tally_accounted (hr : (callSystem slices Call.Legal).Reachable h)
    (once : (h.ingested.map WorkItem.ptr).Nodup) {order : List Int}
    (ho : h.committer.Iterates order) (a : WorkItem.Stamp) :
    tally a (h.committer.collected ++ order.flatMap h.committer.heldAt ++ h.dropped slices) =
      tally a h.ingested := by
  rw [tally_ingested hr once a, tally_append, tally_append,
    tally_heldAt_order (Committer.Keyed.of_reachable hr) ho]

/-- A collected item is in no tracker. -/
theorem held_not_collected (hr : (callSystem slices Call.Legal).Reachable h)
    (once : (h.ingested.map WorkItem.ptr).Nodup) {w v : WorkItem T} {p : Int}
    (hw : w ∈ h.committer.collected) (hv : v ∈ h.committer.heldAt p) : v.ptr ≠ w.ptr := by
  obtain ⟨order, ho⟩ := Committer.exists_iterates hr
  have hnodup := nodup_of_tally_le (fun a => (tally_accounted hr once ho a).le) once
  have hmem : v ∈ order.flatMap h.committer.heldAt := by
    apply List.mem_flatMap.mpr
    refine ⟨p, (ho.2 p).mpr ?_, hv⟩
    cases ht : h.committer.partitionMap p with
    | none => simp [Committer.heldAt, ht] at hv
    | some t => rfl
  rw [List.append_assoc, List.map_append, List.nodup_append] at hnodup
  intro hptr
  refine hnodup.2.2 w.ptr (List.mem_map_of_mem hw) v.ptr ?_ hptr.symm
  exact List.mem_map_of_mem (List.mem_append_left _ hmem)

/-- After any run in which each work item was ingested once, the ingested items are the
disjoint union of the collected ones, the ones in the trackers and the ones that a
compaction removed; what was collected earlier in the run is in no tracker. -/
theorem work_items_accounted (slices : SortFunc (WorkItem T)) {h h' : History T}
    (reachable : (callSystem slices Call.Legal).Reachable h)
    (later : (callSystem slices Call.Legal).Run h h')
    (once : (h'.ingested.map WorkItem.ptr).Nodup) :
    (∃ order, h'.committer.Iterates order ∧
      (h'.ingested.map WorkItem.stamp).Perm ((h'.committer.collected ++
        order.flatMap h'.committer.heldAt ++ h'.dropped slices).map WorkItem.stamp) ∧
      ((h'.committer.collected ++ order.flatMap h'.committer.heldAt ++
        h'.dropped slices).map WorkItem.ptr).Nodup) ∧
    (∀ w ∈ h.committer.collected, ∀ p, ∀ v ∈ h'.committer.heldAt p, v.ptr ≠ w.ptr) ∧
    (∀ s ∈ h'.steps, ∀ g ∈ s.2.dropped slices s.1, ∃ t, s.1.partitionMap g.partition = some t ∧
      ∃ k ∈ OffsetsTracker.sortGapBuffer slices t.gapBuffer,
        k.ptr ≠ g.ptr ∧ k.partition = g.partition ∧ k.offset = g.offset) ∧
    h'.committer.totalProcessed = h'.committer.collected.length := by
  have hr := reachable.run later
  obtain ⟨order, ho⟩ := Committer.exists_iterates hr
  have htally := tally_accounted hr once ho
  refine ⟨⟨order, ho, ?_, nodup_of_tally_le (fun a => (htally a).le) once⟩, ?_, dropped_kept hr,
    totalProcessed_eq hr⟩
  · apply List.perm_iff_count.mpr
    intro a
    rw [← tally_eq_count, ← tally_eq_count, htally a]
  · intro w hw p v hv
    exact held_not_collected hr once ((collected_grows later).subset hw) hv

end Runs

/-- Two records of one offset, read at different times. -/
def twin (ptr : Nat) (readTime : Int) : WorkItem Unit where
  ptr := ptr
  message := { partition := 0, offset := 7 }
  metrics := { readTime := readTime }
  previousOffset := 6

/-- Both twins are buffered, the reset asks for the walk, and the flush drops one. -/
def twinCalls : List (Call Unit) :=
  [.processCommit (twin 0 1) 10, .processCommit (twin 1 2) 11, .resetCommittedOffsets [(0, 5)],
    .flushGapBuffers [0] 12]

def twinHistory : History Unit :=
  twinCalls.foldl (History.record (SortFunc.insertion (WorkItem Unit))) {}

theorem twinHistory_reachable :
    (callSystem (SortFunc.insertion (WorkItem Unit)) Call.Legal).Reachable twinHistory :=
  reachable_of_script 0 (R := fun _ _ => True) (fun _ _ hlegal _ => hlegal) (by decide)

theorem work_items_accounted_twins :
    (twinHistory.dropped (SortFunc.insertion (WorkItem Unit))).map WorkItem.ptr = [0] ∧
      ∃ order, twinHistory.committer.Iterates order ∧
        (twinHistory.ingested.map WorkItem.stamp).Perm ((twinHistory.committer.collected ++
          order.flatMap twinHistory.committer.heldAt ++
          twinHistory.dropped (SortFunc.insertion (WorkItem Unit))).map WorkItem.stamp) :=
  have h := work_items_accounted (SortFunc.insertion (WorkItem Unit)) twinHistory_reachable .refl
    (by decide)
  ⟨by decide, h.1.imp fun _ ho => ⟨ho.1, ho.2.1⟩⟩

end LlingrDemux.Offset
