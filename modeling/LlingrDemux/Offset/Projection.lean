import LlingrDemux.Offset.Committer
import LlingrDemux.Offset.Retired

/-!
# What the committer does to one partition

Every operation of the committer, looked at through the slice of one partition, is the
tracker's own operation: the iteration orders and the other partitions do not show. The
commit batch holds at most one item of each partition, the item that the partition's own
tracker offers.
-/

namespace LlingrDemux.Offset

open Shared
set_option autoImplicit false

variable {T : Type}

/-- What one partition sees of a `CommitOffsets` call that holds the guard. -/
structure PartitionTick where
  flushTime : Int := 0
  repairTime : Int := 0
  accepted : Bool := true

def Tick.partition (k : Tick) (p : Int) : PartitionTick :=
  ⟨k.flushTime, k.repairTime p, k.accepted⟩

@[simp] theorem Tick.partition_accepted (k : Tick) (p : Int) :
    (k.partition p).accepted = k.accepted := rfl

/-- One partition's share of the call: the new tracker and the item offered to the broker. -/
def OffsetsTracker.tick (slices : SortFunc (WorkItem T)) (assigned : Bool) (k : PartitionTick)
    (t : OffsetsTracker T) : OffsetsTracker T × Option (WorkItem T) :=
  let q := (t.flush slices k.flushTime).1.collectCommit assigned k.repairTime
  match q.2.2 with
  | none => (q.1, none)
  | some w => (if k.accepted then (q.1.acceptCommit w.offset).1 else q.1, some w)

/-- The work items that this share of the call retires. -/
def OffsetsTracker.tickRetired (slices : SortFunc (WorkItem T)) (assigned : Bool) (k : PartitionTick)
    (t : OffsetsTracker T) : List (WorkItem T) :=
  let f := t.flush slices k.flushTime
  let q := f.1.collectCommit assigned k.repairTime
  f.2 ++ q.2.1 ++ match q.2.2 with
    | none => []
    | some w => if k.accepted then (q.1.acceptCommit w.offset).2 else []

section Tick
variable (slices : SortFunc (WorkItem T)) {assigned : Bool} (k : PartitionTick)
  (t : OffsetsTracker T)

theorem OffsetsTracker.tick_of_none (h : ((t.flush slices k.flushTime).1.collectCommit assigned
    k.repairTime).2.2 = none) : t.tick slices assigned k =
      (((t.flush slices k.flushTime).1.collectCommit assigned k.repairTime).1, none) := by
  simp only [OffsetsTracker.tick, h]

theorem OffsetsTracker.tick_of_some {m : WorkItem T} (h : ((t.flush slices
    k.flushTime).1.collectCommit assigned k.repairTime).2.2 = some m) : t.tick slices assigned k =
      (if k.accepted then (((t.flush slices k.flushTime).1.collectCommit assigned
          k.repairTime).1.acceptCommit m.offset).1
        else ((t.flush slices k.flushTime).1.collectCommit assigned k.repairTime).1, some m) := by
  simp only [OffsetsTracker.tick, h]

theorem OffsetsTracker.tickRetired_of_none (h : ((t.flush slices
    k.flushTime).1.collectCommit assigned k.repairTime).2.2 = none) :
    t.tickRetired slices assigned k = (t.flush slices k.flushTime).2 ++
      ((t.flush slices k.flushTime).1.collectCommit assigned k.repairTime).2.1 := by
  simp only [OffsetsTracker.tickRetired, h, List.append_nil]

theorem OffsetsTracker.tickRetired_of_some {m : WorkItem T} (h : ((t.flush slices
    k.flushTime).1.collectCommit assigned k.repairTime).2.2 = some m) :
    t.tickRetired slices assigned k = (t.flush slices k.flushTime).2 ++
      ((t.flush slices k.flushTime).1.collectCommit assigned k.repairTime).2.1 ++
      if k.accepted then (((t.flush slices k.flushTime).1.collectCommit assigned
          k.repairTime).1.acceptCommit m.offset).2
        else [] := by
  simp only [OffsetsTracker.tickRetired, h]

/-- The rule for one share of a tick: what holds after the loop body, and after the accepted
item has been booked, holds after the tick. -/
theorem OffsetsTracker.tick_rule {P : OffsetsTracker T × List (WorkItem T) → Prop}
    (collected : P (((t.flush slices k.flushTime).1.collectCommit assigned k.repairTime).1,
      (t.flush slices k.flushTime).2 ++
        ((t.flush slices k.flushTime).1.collectCommit assigned k.repairTime).2.1))
    (accepted : ∀ offset, P ((((t.flush slices k.flushTime).1.collectCommit assigned
        k.repairTime).1.acceptCommit offset).1,
      (t.flush slices k.flushTime).2 ++
        ((t.flush slices k.flushTime).1.collectCommit assigned k.repairTime).2.1 ++
        (((t.flush slices k.flushTime).1.collectCommit assigned
          k.repairTime).1.acceptCommit offset).2)) :
    P ((t.tick slices assigned k).1, t.tickRetired slices assigned k) := by
  cases hoff : ((t.flush slices k.flushTime).1.collectCommit assigned k.repairTime).2.2 with
  | none =>
    rw [tick_of_none slices k t hoff, tickRetired_of_none slices k t hoff]
    exact collected
  | some m =>
    rw [tick_of_some slices k t hoff, tickRetired_of_some slices k t hoff]
    cases k.accepted with
    | false =>
      simp only [Bool.false_eq_true, if_false, List.append_nil]
      exact collected
    | true => exact accepted m.offset

end Tick

/-- The committer as one partition sees it. -/
structure Slice (T : Type) where
  tracker : Option (OffsetsTracker T)
  assigned : Bool
  collected : List (WorkItem T)

/-- An operation on the tracker of a slice, with the items it retires. -/
def Slice.update (f : Bool → OffsetsTracker T → OffsetsTracker T × List (WorkItem T))
    (s : Slice T) : Slice T :=
  match s.tracker with
  | none => s
  | some t => ⟨some (f s.assigned t).1, s.assigned, s.collected ++ (f s.assigned t).2⟩

namespace Committer

open OffsetsTracker

def slice (c : Committer T) (p : Int) : Slice T :=
  ⟨c.partitionMap p, c.assigned p, c.collected.filter fun w => w.partition == p⟩

/-- A work item sits in the tracker of its own partition. -/
def Keyed (c : Committer T) : Prop :=
  ∀ p t, c.partitionMap p = some t → AllItems (fun s => s.partition = p) t

/-- The shape of the loop bodies: an operation on one partition's tracker, if there is one. -/
def updateTracker (f : Bool → OffsetsTracker T → OffsetsTracker T × List (WorkItem T))
    (c : Committer T) (p : Int) : Committer T :=
  match c.partitionMap p with
  | none => c
  | some t => c.store p (f (c.assigned p) t)

section
variable {c : Committer T} {p q : Int} {r : OffsetsTracker T × List (WorkItem T)}

theorem entry_eq_slice (c : Committer T) (p : Int) :
    c.entry p = ((c.slice p).tracker, (c.slice p).assigned) := rfl

theorem Keyed.store (h : c.Keyed) (hr : AllItems (fun s => s.partition = p) r.1) :
    (c.store p r).Keyed := by
  intro q t ht
  rw [store_partitionMap] at ht
  by_cases hq : q = p
  · subst q
    rw [Function.update_self] at ht
    rwa [← Option.some.inj ht]
  · rw [Function.update_of_ne hq] at ht
    exact h q t ht

theorem store_slice_same (hr : Keeps (fun s => s.partition = p) r) :
    (c.store p r).slice p = ⟨some r.1, c.assigned p, (c.slice p).collected ++ r.2⟩ := by
  have hfilter : (r.2.filter fun w => w.partition == p) = r.2 := by
    apply List.filter_eq_self.mpr
    intro w hw
    simpa using hr.retired w hw
  simp [slice, List.filter_append, hfilter]

theorem store_slice_other (hr : Keeps (fun s => s.partition = p) r) (hq : q ≠ p) :
    (c.store p r).slice q = c.slice q := by
  have hfilter : (r.2.filter fun w => w.partition == q) = [] := by
    apply List.filter_eq_nil_iff.mpr
    intro w hw
    have hp : w.partition = p := hr.retired w hw
    simpa [hp] using Ne.symm hq
  simp [slice, List.filter_append, hfilter, Function.update_of_ne hq]

/-- Every loop of the committer applies tracker operations partition by partition. -/
theorem updateTracker_keyedStep {A : Type} (key : A → Int)
    {f : A → Bool → OffsetsTracker T → OffsetsTracker T × List (WorkItem T)}
    (hf : ∀ (Q : WorkItem.Stamp → Prop) (x : A) (a : Bool) (t : OffsetsTracker T),
      AllItems Q t → Keeps Q (f x a t)) :
    KeyedStep (fun c x => updateTracker (f x) c (key x)) key slice Keyed
      (fun x => Slice.update (f x)) where
  inv c x h := by
    unfold updateTracker
    split
    · exact h
    · rename_i t ht
      exact h.store (hf _ x _ t (h _ t ht)).items
  same c x h := by
    unfold updateTracker
    split
    · rename_i ht
      simp [slice, Slice.update, ht]
    · rename_i t ht
      rw [store_slice_same (hf _ x _ t (h _ t ht))]
      simp [slice, Slice.update, ht]
  other c x q h hq := by
    unfold updateTracker
    split
    · rfl
    · rename_i t ht
      exact store_slice_other (hf _ x _ t (h _ t ht)) hq

/-! ## Arrivals -/

theorem processCommit_keyed_keeps (h : c.Keyed) (w : WorkItem T) (now : Int) :
    Keeps (fun s => s.partition = w.partition)
      (OffsetsTracker.processCommit (c.partitionMap w.partition) w now) :=
  processCommit_keeps _ (fun t ht => h _ t ht) rfl now

theorem Keyed.processCommit (h : c.Keyed) (w : WorkItem T) (now : Int) :
    (c.processCommit w now).Keyed :=
  h.store (processCommit_keyed_keeps h w now).items

theorem processCommit_slice_same (h : c.Keyed) (w : WorkItem T) (now : Int) :
    (c.processCommit w now).slice w.partition =
      ⟨some (OffsetsTracker.processCommit (c.partitionMap w.partition) w now).1,
        c.assigned w.partition, (c.slice w.partition).collected ++
          (OffsetsTracker.processCommit (c.partitionMap w.partition) w now).2⟩ :=
  store_slice_same (processCommit_keyed_keeps h w now)

theorem processCommit_partitionMap_same (c : Committer T) (w : WorkItem T) (now : Int) :
    (c.processCommit w now).partitionMap w.partition =
      some (OffsetsTracker.processCommit (c.partitionMap w.partition) w now).1 := by
  simp [Committer.processCommit]

theorem processCommit_partitionMap_other (c : Committer T) (w : WorkItem T) (now : Int) {p : Int}
    (hp : p ≠ w.partition) : (c.processCommit w now).partitionMap p = c.partitionMap p := by
  simp [Committer.processCommit, Function.update_of_ne hp]

@[simp] theorem processCommit_assigned (c : Committer T) (w : WorkItem T) (now : Int) :
    (c.processCommit w now).assigned = c.assigned := by
  simp [Committer.processCommit]

/-! ## Flushes -/

section Flush
variable (slices : SortFunc (WorkItem T)) (now : Int)

theorem flushPartition_keyedStep : KeyedStep (flushPartition slices now) id slice Keyed
    (fun _ => Slice.update fun _ t => t.flush slices now) :=
  updateTracker_keyedStep id fun _ _ _ _ h => flush_keeps slices h now

theorem Keyed.flushGapBuffers (h : c.Keyed) (order : List Int) :
    (c.flushGapBuffers slices order now).Keyed :=
  (flushPartition_keyedStep slices now).foldl_inv order h

/-- A flush in any order flushes each tracker by itself. -/
theorem flushGapBuffers_slice (h : c.Keyed) {order : List Int} (ho : c.Iterates order) (p : Int) :
    (c.flushGapBuffers slices order now).slice p =
      (c.slice p).update fun _ t => t.flush slices now := by
  have hk := flushPartition_keyedStep (T := T) slices now
  by_cases hp : p ∈ order
  · exact hk.foldl_same h (by simpa using ho.1) hp
  · have hnone : c.partitionMap p = none := by
      have := (ho.2 p).not.mp hp
      simpa using this
    have hother := hk.foldl_other h (k := p) (l := order) (by simpa using hp)
    rw [Committer.flushGapBuffers, hother]
    simp [slice, Slice.update, hnone]

theorem flushGapBuffers_entry (h : c.Keyed) {order : List Int} (ho : c.Iterates order) (p : Int) :
    (c.flushGapBuffers slices order now).entry p =
      ((c.partitionMap p).map fun t => (t.flush slices now).1, c.assigned p) := by
  rw [entry_eq_slice, flushGapBuffers_slice slices now h ho p]
  cases ht : c.partitionMap p <;> simp [slice, Slice.update, ht]

end Flush

/-! ## The commit batch -/

theorem collectCommit_offered {t : OffsetsTracker T} {assigned : Bool} {now : Int} {w : WorkItem T}
    (h : w ∈ (t.collectCommit assigned now).2.2) :
    (t.collectCommit assigned now).1.ready = some w := by
  rw [Option.mem_def] at h
  cases assigned with
  | false => simp [collectCommit] at h
  | true =>
    rcases collectCommit_cases t now with ⟨_, _, hn⟩ | ⟨_, _, _, _, hn⟩ | ⟨v, hv, _, heq, hs⟩
    · simp [h] at hn
    · simp [h] at hn
    · rw [heq, hv, ← hs, h]

theorem collectCommit_allItems {Q : WorkItem.Stamp → Prop} {t : OffsetsTracker T} (h : AllItems Q t)
    (assigned : Bool) (now : Int) : AllItems Q (t.collectCommit assigned now).1 :=
  (collectCommit_keeps h assigned now).items

/-- The slice of a partition together with its items in the batch collected so far. -/
def batchSlice (s : Committer T × List (WorkItem T)) (p : Int) : Slice T × List (WorkItem T) :=
  (s.1.slice p, s.2.filter fun w => w.partition == p)

theorem commitPartition_keyedStep (repairTime : Int → Int) :
    KeyedStep (commitPartition (T := T) repairTime) id batchSlice (fun s => s.1.Keyed)
    (fun p e => (e.1.update fun a t =>
        ((t.collectCommit a (repairTime p)).1, (t.collectCommit a (repairTime p)).2.1),
      e.2 ++ match e.1.tracker with
        | none => []
        | some t => (t.collectCommit e.1.assigned (repairTime p)).2.2.toList)) where
  inv s p h := by
    unfold commitPartition
    split
    · exact h
    · rename_i t ht
      exact h.store (collectCommit_allItems (h p t ht) _ (repairTime p))
  same s p h := by
    unfold commitPartition
    cases ht : s.1.partitionMap p with
    | none => simp [batchSlice, slice, Slice.update, ht]
    | some t =>
      have hkeeps := collectCommit_keeps (h p t ht) (s.1.assigned p) (repairTime p)
      have hoff : (t.collectCommit (s.1.assigned p) (repairTime p)).2.2.toList.filter
          (fun w => w.partition == p) =
            (t.collectCommit (s.1.assigned p) (repairTime p)).2.2.toList := by
        apply List.filter_eq_self.mpr
        intro w hw
        simpa using hkeeps.items.ready w (collectCommit_offered (Option.mem_toList.mp hw))
      simp only [id_eq, batchSlice, store_slice_same hkeeps, List.filter_append, hoff]
      simp [slice, Slice.update, ht]
  other s p q h hq := by
    unfold commitPartition
    cases ht : s.1.partitionMap p with
    | none => rfl
    | some t =>
      have hkeeps := collectCommit_keeps (h p t ht) (s.1.assigned p) (repairTime p)
      have hoff : (t.collectCommit (s.1.assigned p) (repairTime p)).2.2.toList.filter
          (fun w => w.partition == q) = [] := by
        apply List.filter_eq_nil_iff.mpr
        intro w hw
        have hp : w.partition = p :=
          hkeeps.items.ready w (collectCommit_offered (Option.mem_toList.mp hw))
        simpa [hp] using Ne.symm hq
      simp only [id_eq] at hq
      simp [batchSlice, store_slice_other hkeeps hq, List.filter_append, hoff]

theorem acceptMessage_keyedStep :
    KeyedStep (acceptMessage (T := T)) WorkItem.partition slice Keyed
    (fun w => Slice.update fun _ t => t.acceptCommit w.offset) :=
  updateTracker_keyedStep WorkItem.partition fun _ w _ _ h => acceptCommit_keeps h w.offset

section Batch
variable (slices : SortFunc (WorkItem T)) (k : Tick)

/-- The state of the tick after its loop over the partitions. -/
def gatherCommits (c : Committer T) : Committer T × List (WorkItem T) :=
  k.commitOrder.foldl (commitPartition k.repairTime)
    (c.flushGapBuffers slices k.flushOrder k.flushTime, [])

theorem gatherCommits_keyed (h : c.Keyed) : (gatherCommits slices k c).1.Keyed :=
  (commitPartition_keyedStep k.repairTime).foldl_inv k.commitOrder
    (h.flushGapBuffers slices k.flushTime k.flushOrder)

theorem gatherCommits_slice (h : c.Keyed) (hf : c.Iterates k.flushOrder)
    (hc : c.Iterates k.commitOrder) (p : Int) :
    batchSlice (gatherCommits slices k c) p = match c.partitionMap p with
      | none => (c.slice p, [])
      | some t =>
        (⟨some ((t.flush slices k.flushTime).1.collectCommit (c.assigned p) (k.repairTime p)).1,
            c.assigned p, (c.slice p).collected ++ (t.flush slices k.flushTime).2 ++
              ((t.flush slices k.flushTime).1.collectCommit (c.assigned p) (k.repairTime p)).2.1⟩,
          ((t.flush slices k.flushTime).1.collectCommit (c.assigned p)
            (k.repairTime p)).2.2.toList) := by
  have hk := commitPartition_keyedStep (T := T) k.repairTime
  have hkeyed := h.flushGapBuffers slices k.flushTime k.flushOrder
  have hstart : batchSlice (c.flushGapBuffers slices k.flushOrder k.flushTime, []) p =
      ((c.slice p).update fun _ t => t.flush slices k.flushTime, []) := by
    simp [batchSlice, flushGapBuffers_slice slices k.flushTime h hf p]
  by_cases hp : p ∈ k.commitOrder
  · have hsame := hk.foldl_same (s := (c.flushGapBuffers slices k.flushOrder k.flushTime, []))
      hkeyed (by simpa using hc.1) hp
    simp only [id_eq, hstart] at hsame
    rw [gatherCommits, hsame]
    cases ht : c.partitionMap p with
    | none => simp [slice, Slice.update, ht]
    | some t => simp [slice, Slice.update, ht]
  · have hnone : c.partitionMap p = none := by
      have := (hc.2 p).not.mp hp
      simpa using this
    have hother := hk.foldl_other (s := (c.flushGapBuffers slices k.flushOrder k.flushTime, []))
      hkeyed (k := p) (l := k.commitOrder) (by simpa using hp)
    rw [gatherCommits, hother, hstart]
    simp [slice, Slice.update, hnone]

/-- No partition has two items in the batch. -/
theorem gatherCommits_nodup (h : c.Keyed) (hf : c.Iterates k.flushOrder)
    (hc : c.Iterates k.commitOrder) :
    ((gatherCommits slices k c).2.map WorkItem.partition).Nodup := by
  apply List.nodup_iff_count_le_one.mpr
  intro p
  have hb := congrArg Prod.snd (gatherCommits_slice slices k h hf hc p)
  simp only [batchSlice] at hb
  rw [List.count_eq_countP, List.countP_map, List.countP_eq_length_filter]
  change ((gatherCommits slices k c).2.filter fun w => w.partition == p).length ≤ 1
  rw [hb]
  split
  · simp
  · exact Option.length_toList_le

theorem commitOffsets_eq (hg : k.guardAcquired = true) : c.commitOffsets slices k =
    if (gatherCommits slices k c).2.isEmpty then ⟨(gatherCommits slices k c).1, [], none⟩
    else if !k.accepted then
      ⟨(gatherCommits slices k c).1, (gatherCommits slices k c).2, some .errBrokerCommitFailed⟩
    else
      ⟨(gatherCommits slices k c).2.foldl acceptMessage (gatherCommits slices k c).1,
        (gatherCommits slices k c).2, none⟩ := by
  simp [commitOffsets, gatherCommits, hg]

theorem commitOffsets_error_none (h : (c.commitOffsets slices k).error = none) :
    k.guardAcquired = true ∧ (k.accepted = true ∨ (c.commitOffsets slices k).sent = []) := by
  cases hg : k.guardAcquired with
  | false => simp [commitOffsets, hg] at h
  | true =>
    rw [commitOffsets_eq slices k hg] at h ⊢
    split_ifs at h ⊢ with he ha
    · exact ⟨rfl, .inr rfl⟩
    · exact ⟨rfl, .inl (by simpa using ha)⟩

theorem Keyed.commitOffsets (h : c.Keyed) : (c.commitOffsets slices k).committer.Keyed := by
  cases hg : k.guardAcquired with
  | false => simpa [Committer.commitOffsets, hg] using h
  | true =>
    have hs := gatherCommits_keyed slices k h
    rw [commitOffsets_eq slices k hg]
    split_ifs
    · exact hs
    · exact hs
    · exact acceptMessage_keyedStep.foldl_inv _ hs

theorem commitOffsets_of_nothing_offered (h : c.Keyed) (hg : k.guardAcquired = true) {p : Int}
    (hl : ((gatherCommits slices k c).2.filter fun w => w.partition == p) = []) :
    (c.commitOffsets slices k).committer.slice p = (gatherCommits slices k c).1.slice p ∧
    ((c.commitOffsets slices k).sent.filter fun w => w.partition == p) = [] := by
  have hnot : p ∉ (gatherCommits slices k c).2.map WorkItem.partition := by
    intro hp
    obtain ⟨w, hw, hwp⟩ := List.mem_map.mp hp
    have := List.filter_eq_nil_iff.mp hl w hw
    simp [hwp] at this
  rw [commitOffsets_eq slices k hg]
  split_ifs
  · exact ⟨rfl, rfl⟩
  · exact ⟨rfl, hl⟩
  · exact ⟨acceptMessage_keyedStep.foldl_other (gatherCommits_keyed slices k h) hnot, hl⟩

/-- A tick in any order ticks each tracker by itself and offers what it offers. -/
theorem commitOffsets_slice (h : c.Keyed) (hg : k.guardAcquired = true)
    (hf : c.Iterates k.flushOrder) (hc : c.Iterates k.commitOrder) (p : Int) :
    (c.commitOffsets slices k).committer.slice p =
      (c.slice p).update (fun a t =>
        ((t.tick slices a (k.partition p)).1, t.tickRetired slices a (k.partition p))) ∧
    ((c.commitOffsets slices k).sent.filter fun w => w.partition == p) =
      ((c.partitionMap p).bind fun t => (t.tick slices (c.assigned p) (k.partition p)).2).toList := by
  obtain ⟨he, hl⟩ := Prod.ext_iff.mp (gatherCommits_slice slices k h hf hc p)
  simp only [batchSlice] at he hl
  cases ht : c.partitionMap p with
  | none =>
    simp only [ht] at he hl
    obtain ⟨h1, h2⟩ := commitOffsets_of_nothing_offered slices k h hg hl
    rw [h1, h2, he]
    exact ⟨by simp [slice, Slice.update, ht], rfl⟩
  | some t =>
    simp only [ht] at he hl
    cases hoff : ((t.flush slices k.flushTime).1.collectCommit (c.assigned p)
        (k.repairTime p)).2.2 with
    | none =>
      rw [hoff] at hl
      obtain ⟨h1, h2⟩ := commitOffsets_of_nothing_offered slices k h hg hl
      rw [h1, h2, he]
      simp [slice, Slice.update, ht, OffsetsTracker.tick, tickRetired, Tick.partition, hoff]
    | some w =>
      rw [hoff] at hl
      have hw : w ∈ (gatherCommits slices k c).2.filter fun w => w.partition == p := by
        rw [hl]
        simp
      obtain ⟨hmem, hwp⟩ := List.mem_filter.mp hw
      rw [beq_iff_eq] at hwp
      have hne : (gatherCommits slices k c).2.isEmpty = false :=
        List.isEmpty_eq_false_iff.mpr (List.ne_nil_of_mem hmem)
      rw [commitOffsets_eq slices k hg]
      cases hacc : k.accepted with
      | false =>
        simp only [hne, Bool.false_eq_true, if_false, Bool.not_false, if_true]
        refine ⟨?_, by simp [OffsetsTracker.tick, Tick.partition, hoff, hl]⟩
        rw [he]
        simp [slice, Slice.update, ht, OffsetsTracker.tick, tickRetired, Tick.partition, hoff, hacc]
      | true =>
        have hsame := acceptMessage_keyedStep.foldl_same (gatherCommits_keyed slices k h)
          (gatherCommits_nodup slices k h hf hc) hmem
        rw [hwp, he] at hsame
        simp only [hne, Bool.false_eq_true, if_false, Bool.not_true]
        refine ⟨?_, by simp [OffsetsTracker.tick, Tick.partition, hoff, hl]⟩
        rw [hsame]
        simp [slice, Slice.update, ht, OffsetsTracker.tick, tickRetired, Tick.partition, hoff, hacc]

theorem commitOffsets_entry (h : c.Keyed) (hg : k.guardAcquired = true)
    (hf : c.Iterates k.flushOrder) (hc : c.Iterates k.commitOrder) (p : Int) :
    (c.commitOffsets slices k).committer.entry p =
      ((c.partitionMap p).map fun t => (t.tick slices (c.assigned p) (k.partition p)).1, c.assigned p) ∧
    ((c.commitOffsets slices k).sent.filter fun w => w.partition == p) =
      ((c.partitionMap p).bind fun t => (t.tick slices (c.assigned p) (k.partition p)).2).toList := by
  obtain ⟨hslice, hsent⟩ := commitOffsets_slice slices k h hg hf hc p
  refine ⟨?_, hsent⟩
  rw [entry_eq_slice, hslice]
  cases ht : c.partitionMap p <;> simp [slice, Slice.update, ht]

end Batch

/-! ## Resets and marks -/

theorem resetPartition_keyedStep :
    KeyedStep (resetPartition (T := T)) Prod.fst slice Keyed
    (fun r e => ⟨some (OffsetsTracker.resetCommittedOffset e.tracker r.2).1, e.assigned,
      e.collected ++ (OffsetsTracker.resetCommittedOffset e.tracker r.2).2⟩) where
  inv _ r h := h.store (resetCommittedOffset_keeps _ (fun t ht => h _ t ht) r.2).items
  same _ r h := store_slice_same (resetCommittedOffset_keeps _ (fun t ht => h _ t ht) r.2)
  other _ r _ h hq :=
    store_slice_other (resetCommittedOffset_keeps _ (fun t ht => h _ t ht) r.2) hq

theorem Keyed.resetCommittedOffsets (h : c.Keyed) (l : List (Int × Int)) :
    (c.resetCommittedOffsets l).Keyed :=
  resetPartition_keyedStep.foldl_inv l h

theorem resetCommittedOffsets_slice_same (h : c.Keyed) {l : List (Int × Int)}
    (hl : (l.map Prod.fst).Nodup) {r : Int × Int} (hr : r ∈ l) :
    (c.resetCommittedOffsets l).slice r.1 =
      ⟨some (OffsetsTracker.resetCommittedOffset (c.partitionMap r.1) r.2).1, c.assigned r.1,
        (c.slice r.1).collected ++
          (OffsetsTracker.resetCommittedOffset (c.partitionMap r.1) r.2).2⟩ :=
  resetPartition_keyedStep.foldl_same h hl hr

theorem resetCommittedOffsets_entry_same (h : c.Keyed) {l : List (Int × Int)}
    (hl : (l.map Prod.fst).Nodup) {r : Int × Int} (hr : r ∈ l) :
    (c.resetCommittedOffsets l).entry r.1 =
      (some (OffsetsTracker.resetCommittedOffset (c.partitionMap r.1) r.2).1, c.assigned r.1) := by
  rw [entry_eq_slice, resetCommittedOffsets_slice_same h hl hr]

theorem Keyed.markPartitionAssigned (h : c.Keyed) (p : Int) :
    (c.markPartitionAssigned p).Keyed := h

theorem Keyed.markPartitionRevoked (h : c.Keyed) (p : Int) : (c.markPartitionRevoked p).Keyed := by
  intro q t ht
  by_cases hq : q = p
  · subst q
    simp only [Committer.markPartitionRevoked, Function.update_self] at ht
    obtain ⟨t₀, ht₀, rfl⟩ := Option.map_eq_some_iff.mp ht
    have hall := h p t₀ ht₀
    exact ⟨hall.ready, hall.buffer⟩
  · simp only [Committer.markPartitionRevoked, Function.update_of_ne hq] at ht
    exact h q t ht

end

end Committer

end LlingrDemux.Offset
