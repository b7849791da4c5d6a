import LlingrDemux.Offset.Calls

/-!
# One partition does not feel the others

Two runs that look alike from one partition end alike there: the same offsets are
committed for it and its tracker is the same up to the times the clock showed. A single
partition is replayed from what it sees of the calls, with all clocks at zero, and every
run agrees with the replay of its own view.
-/

namespace LlingrDemux

/-- The item without its watermark time. -/
def WorkItem.timeless {T : Type} (w : WorkItem T) : WorkItem T := w.setWatermarkAdvanceTime 0

namespace Offset

open Shared
set_option autoImplicit false

variable {T : Type}

theorem offset_of_timeless {v w : WorkItem T} (h : v.timeless = w.timeless) :
    v.offset = w.offset := by
  have hoffset : v.timeless.offset = w.timeless.offset := congrArg WorkItem.offset h
  exact hoffset

namespace OffsetsTracker

/-- The tracker without the watermark time of `Ready`; a buffered item has none. -/
def timeless (t : OffsetsTracker T) : OffsetsTracker T :=
  { t with ready := t.ready.map WorkItem.timeless }

section Alike
variable {t u : OffsetsTracker T}

/-- Trackers that differ in times only are equal, or both have a `Ready` of one offset. -/
theorem timeless_cases (h : t.timeless = u.timeless) : (t.ready = none ∧ u = t) ∨
    ∃ a b, t.ready = some a ∧ u = { t with ready := some b } ∧ a.timeless = b.timeless := by
  have hready : t.ready.map WorkItem.timeless = u.ready.map WorkItem.timeless := congrArg ready h
  have hrest : u = { t with ready := u.ready } := by
    cases t
    cases u
    simp only [timeless, mk.injEq] at h ⊢
    tauto
  cases ht : t.ready with
  | none =>
    rw [ht, Option.map_none] at hready
    have hu := Option.map_eq_none_iff.mp hready.symm
    rw [hu, ← ht] at hrest
    exact .inl ⟨rfl, hrest⟩
  | some a =>
    rw [ht, Option.map_some] at hready
    obtain ⟨b, hb, hab⟩ := Option.map_eq_some_iff.mp hready.symm
    rw [hb] at hrest
    exact .inr ⟨a, b, rfl, hrest, hab.symm⟩

theorem checkAndAdvance_timeless (h : t.timeless = u.timeless) (w : WorkItem T) (now now' : Int) :
    (t.checkAndAdvance w now).1.timeless = (u.checkAndAdvance w now').1.timeless := by
  rcases timeless_cases h with ⟨ht, rfl⟩ | ⟨a, b, ht, rfl, hab⟩
  · simp only [checkAndAdvance, ht]
    split_ifs
    · simp only [advanceThroughGapBuffer_eq]
      rfl
    · rfl
    · rfl
    · rfl
  · simp only [checkAndAdvance, ht, offset_of_timeless hab]
    split_ifs
    · exact h
    · simp only [advanceThroughGapBuffer_eq]
      rfl
    · simp [timeless, ht, hab, addToGapBuffer]

theorem arrive_ready (t : OffsetsTracker T) (r : Option (WorkItem T)) (w : WorkItem T) :
    arrive (some { t with ready := r }) w = { arrive (some t) w with ready := r } := by
  simp only [arrive, raiseFromFirst_eq, seeOffset]
  split_ifs <;> rfl

theorem processCommit_timeless {o o' : Option (OffsetsTracker T)}
    (h : o.map timeless = o'.map timeless) (w : WorkItem T) (now now' : Int) :
    (processCommit o w now).1.timeless = (processCommit o' w now').1.timeless := by
  apply checkAndAdvance_timeless
  cases o with
  | none =>
    rw [Option.map_none] at h
    rw [Option.map_eq_none_iff.mp h.symm]
  | some t =>
    rw [Option.map_some] at h
    obtain ⟨u, rfl, htu⟩ := Option.map_eq_some_iff.mp h.symm
    rcases timeless_cases htu with ⟨_, rfl⟩ | ⟨a, b, hu, rfl, hab⟩
    · rfl
    · obtain ⟨lo, hi, heq⟩ := arrive_some_eq u w
      rw [arrive_ready, heq]
      simp [timeless, hu, hab]

theorem walk_timeless (cpo last now now' : Int) {r r' : Option (WorkItem T)}
    (h : r.map WorkItem.timeless = r'.map WorkItem.timeless) (l : List (WorkItem T)) :
    (walk cpo last now r l).ready.map WorkItem.timeless =
        (walk cpo last now' r' l).ready.map WorkItem.timeless ∧
      (walk cpo last now r l).rest = (walk cpo last now' r' l).rest := by
  induction l generalizing r r' with
  | nil => exact ⟨by simpa [walk] using h, by simp [walk]⟩
  | cons g gs ih =>
    have hg : (some (g.setWatermarkAdvanceTime now)).map WorkItem.timeless =
        (some (g.setWatermarkAdvanceTime now')).map WorkItem.timeless := rfl
    cases r with
    | none =>
      obtain rfl := Option.map_eq_none_iff.mp h.symm
      simp only [walk]
      split_ifs
      · exact ih rfl
      · exact ih hg
      · exact ⟨rfl, rfl⟩
    | some a =>
      obtain ⟨b, rfl, hab⟩ := Option.map_eq_some_iff.mp h.symm
      simp only [walk, offset_of_timeless hab]
      split_ifs
      · exact ih h
      · exact ih hg
      · exact ⟨h, rfl⟩

theorem flush_timeless (slices : SortFunc (WorkItem T)) (h : t.timeless = u.timeless)
    (now now' : Int) :
    (t.flush slices now).1.timeless = (u.flush slices now').1.timeless := by
  have hwalk : ∀ {r r' : Option (WorkItem T)}, r.map WorkItem.timeless = r'.map WorkItem.timeless →
      (sortAndWalk slices { t with ready := r } now).1.timeless =
        (sortAndWalk slices { t with ready := r' } now').1.timeless := by
    intro r r' hr
    obtain ⟨hready, hrest⟩ := walk_timeless t.committedPlusOne t.lastCommittedOffset now now' hr
      (sortGapBuffer slices t.gapBuffer)
    simp only [sortAndWalk, timeless, hready, hrest]
  rcases timeless_cases h with ⟨_, rfl⟩ | ⟨a, b, ht, rfl, hab⟩
  · unfold flush
    split_ifs
    · rfl
    · rfl
    · exact hwalk rfl
  · have hready : t = { t with ready := some a } := by rw [← ht]
    unfold flush
    split_ifs
    · exact h
    · simp [timeless, ht, hab]
    · rw [hready]
      exact hwalk (by simp [hab])

theorem repairSuccessor_timeless (h : t.timeless = u.timeless) (now now' : Int) :
    (t.repairSuccessor now).1.timeless = (u.repairSuccessor now').1.timeless := by
  rcases timeless_cases h with ⟨ht, rfl⟩ | ⟨a, b, ht, rfl, hab⟩
  · unfold repairSuccessor
    split_ifs
    · rfl
    · cases u.findSuccessor with
      | none => rfl
      | some s => rfl
  · simpa [repairSuccessor, ht] using h

/-- The tick's loop body also offers the same offset, if it offers one. -/
theorem collectCommit_timeless (h : t.timeless = u.timeless) (assigned : Bool) (now now' : Int) :
    (t.collectCommit assigned now).1.timeless = (u.collectCommit assigned now').1.timeless ∧
      (t.collectCommit assigned now).2.2.map WorkItem.timeless =
        (u.collectCommit assigned now').2.2.map WorkItem.timeless := by
  cases assigned with
  | false =>
    refine ⟨?_, rfl⟩
    rcases timeless_cases h with ⟨ht, rfl⟩ | ⟨a, b, ht, rfl, hab⟩
    · rfl
    · simp [collectCommit, discardOrphanedTracker, ht, timeless]
  | true =>
    have hrepair := repairSuccessor_timeless h now now'
    simp only [collectCommit, Bool.not_true, Bool.false_eq_true, if_false, repairSuccessor_guarded]
    rcases timeless_cases hrepair with ⟨ht, heq⟩ | ⟨a, b, ht, heq, hab⟩
    · rw [heq]
      simp only [ht]
      exact ⟨trivial, trivial⟩
    · rw [heq]
      simp only [ht, offset_of_timeless hab]
      split_ifs
      · exact ⟨rfl, rfl⟩
      · exact ⟨by simp [timeless, ht, hab], by simp [hab]⟩

theorem acceptCommit_timeless (h : t.timeless = u.timeless) (offset : Int) :
    (t.acceptCommit offset).1.timeless = (u.acceptCommit offset).1.timeless := by
  rcases timeless_cases h with ⟨_, rfl⟩ | ⟨a, b, _, rfl, _⟩
  · rfl
  · rfl

/-- The broker's answer matters to a tracker only when it offers an item. -/
theorem tick_timeless (slices : SortFunc (WorkItem T)) (h : t.timeless = u.timeless)
    (assigned : Bool) {k k' : PartitionTick}
    (haccepted : (t.tick slices assigned k).2.isSome = true → k.accepted = k'.accepted) :
    (t.tick slices assigned k).1.timeless = (u.tick slices assigned k').1.timeless ∧
      (t.tick slices assigned k).2.map WorkItem.offset =
        (u.tick slices assigned k').2.map WorkItem.offset := by
  obtain ⟨hcollect, hoffered⟩ := collectCommit_timeless
    (flush_timeless slices h k.flushTime k'.flushTime) assigned k.repairTime k'.repairTime
  cases hoff : ((t.flush slices k.flushTime).1.collectCommit assigned k.repairTime).2.2 with
  | none =>
    rw [hoff, Option.map_none] at hoffered
    have hoff' := Option.map_eq_none_iff.mp hoffered.symm
    rw [tick_of_none slices k t hoff, tick_of_none slices k' u hoff']
    exact ⟨hcollect, rfl⟩
  | some m =>
    rw [hoff, Option.map_some] at hoffered
    obtain ⟨m', hoff', hm⟩ := Option.map_eq_some_iff.mp hoffered.symm
    rw [tick_of_some slices k t hoff] at haccepted ⊢
    rw [tick_of_some slices k' u hoff', ← haccepted rfl, offset_of_timeless hm]
    refine ⟨?_, by simp [offset_of_timeless hm]⟩
    split_ifs
    · exact acceptCommit_timeless hcollect m.offset
    · exact hcollect

theorem resetCommittedOffset_timeless {o o' : Option (OffsetsTracker T)}
    (h : o.map timeless = o'.map timeless) (committedOffset : Int) :
    (resetCommittedOffset o committedOffset).1.timeless =
      (resetCommittedOffset o' committedOffset).1.timeless := by
  cases o with
  | none =>
    rw [Option.map_none] at h
    rw [Option.map_eq_none_iff.mp h.symm]
  | some t =>
    rw [Option.map_some] at h
    obtain ⟨u, rfl, htu⟩ := Option.map_eq_some_iff.mp h.symm
    rcases timeless_cases htu with ⟨_, rfl⟩ | ⟨a, b, hu, rfl, hab⟩
    · rfl
    · by_cases hlt : b.offset < committedOffset
      · simp [resetCommittedOffset, timeless, hu, Option.filter, offset_of_timeless hab, hlt]
      · simp only [resetCommittedOffset, timeless, hu, Option.filter, offset_of_timeless hab, hlt,
          decide_false, Bool.not_false, if_true]
        split_ifs
        · rfl
        · simp [hab]

end Alike

end OffsetsTracker

/-! ## The view of one partition -/

/-- What one partition sees of a call; a tick whose batch is empty counts as accepted. -/
inductive PartitionEvent (T : Type) where
  | arrives (w : WorkItem T)
  | flushed
  | ticked (outcome : Option CommitError)
  | reset (committedOffset : Int)
  | assigned
  | revoked

def Call.seenBy (slices : SortFunc (WorkItem T)) (p : Int) (c : Committer T) :
    Call T → Option (PartitionEvent T)
  | .processCommit w _ => if w.partition = p then some (.arrives w) else none
  | .flushGapBuffers _ _ => some .flushed
  | .commitOffsets k => some (.ticked (c.commitOffsets slices k).error)
  | .resetCommittedOffsets partitionOffsets =>
    (partitionOffsets.find? fun r => r.1 == p).map fun r => .reset r.2
  | .markPartitionAssigned q => if q = p then some .assigned else none
  | .markPartitionRevoked q => if q = p then some .revoked else none

/-- The offsets that the broker accepts for the partition during the call. -/
def Call.committed (slices : SortFunc (WorkItem T)) (p : Int) (c : Committer T) :
    Call T → List Int
  | .commitOffsets k =>
    if (c.commitOffsets slices k).error = none then
      ((c.commitOffsets slices k).sent.filter fun w => w.partition == p).map WorkItem.offset
    else []
  | _ => []

namespace History

/-- The run restricted to partition `p`. -/
def restrict (slices : SortFunc (WorkItem T)) (p : Int) (h : History T) :
    List (PartitionEvent T) :=
  h.steps.filterMap fun s => s.2.seenBy slices p s.1

/-- The sequence of offsets committed for partition `p`. -/
def committed (slices : SortFunc (WorkItem T)) (p : Int) (h : History T) : List Int :=
  h.steps.flatMap fun s => s.2.committed slices p s.1

end History

/-- A partition by itself, with the offsets committed for it. -/
structure SinglePartition (T : Type) where
  tracker : Option (OffsetsTracker T) := none
  assigned : Bool := false
  committed : List Int := []

/-- The tick of a partition by itself, at time zero. -/
def PartitionEvent.tick (outcome : Option CommitError) : PartitionTick where
  accepted := outcome.isNone

/-- What the partition does on an event, with the clock at zero. -/
def SinglePartition.step (slices : SortFunc (WorkItem T)) (s : SinglePartition T) :
    PartitionEvent T → SinglePartition T
  | .arrives w => { s with tracker := some (OffsetsTracker.processCommit s.tracker w 0).1 }
  | .flushed => { s with tracker := s.tracker.map fun t => (t.flush slices 0).1 }
  | .ticked (some .acquireGuardFailed) => s
  | .ticked (some .errBrokerCommitFailed) =>
    { s with tracker := s.tracker.map fun t =>
        (t.tick slices s.assigned (PartitionEvent.tick (some .errBrokerCommitFailed))).1 }
  | .ticked none =>
    { s with
      tracker := s.tracker.map fun t => (t.tick slices s.assigned (PartitionEvent.tick none)).1
      committed := s.committed ++ ((s.tracker.bind fun t =>
        (t.tick slices s.assigned (PartitionEvent.tick none)).2).map WorkItem.offset).toList }
  | .reset committedOffset =>
    { s with tracker := some (OffsetsTracker.resetCommittedOffset s.tracker committedOffset).1 }
  | .assigned => { s with assigned := true }
  | .revoked =>
    { s with
      assigned := false
      tracker := s.tracker.map fun t => { t with assignment := .revoke } }

def SinglePartition.replay (slices : SortFunc (WorkItem T)) (events : List (PartitionEvent T)) :
    SinglePartition T :=
  events.foldl (SinglePartition.step slices) {}

/-! ## Every run agrees with the replay of its view -/

/-- Up to times the partition's tracker is the replayed one, and so are its commits. -/
structure Agrees (slices : SortFunc (WorkItem T)) (p : Int) (h : History T)
    (s : SinglePartition T) : Prop where
  tracker : (h.committer.partitionMap p).map OffsetsTracker.timeless =
    s.tracker.map OffsetsTracker.timeless
  assigned : h.committer.assigned p = s.assigned
  committed : h.committed slices p = s.committed

section Replay
variable {slices : SortFunc (WorkItem T)} {p : Int} {c : Committer T}

theorem map_eq_map_cases {α β : Type} {f : α → β} {o o' : Option α} (h : o.map f = o'.map f) :
    (o = none ∧ o' = none) ∨ ∃ t u, o = some t ∧ o' = some u ∧ f t = f u := by
  cases o with
  | none => exact .inl ⟨rfl, Option.map_eq_none_iff.mp h.symm⟩
  | some t =>
    obtain ⟨u, hu, htu⟩ := Option.map_eq_some_iff.mp h.symm
    exact .inr ⟨t, u, rfl, hu, htu.symm⟩

theorem map_timeless {o o' : Option (OffsetsTracker T)} {f g : OffsetsTracker T → OffsetsTracker T}
    (h : o.map OffsetsTracker.timeless = o'.map OffsetsTracker.timeless)
    (hfg : ∀ t u, o = some t → t.timeless = u.timeless → (f t).timeless = (g u).timeless) :
    (o.map f).map OffsetsTracker.timeless = (o'.map g).map OffsetsTracker.timeless := by
  rcases map_eq_map_cases h with ⟨rfl, rfl⟩ | ⟨t, u, rfl, rfl, htu⟩
  · rfl
  · simp [hfg t u rfl htu]

theorem update_tracker (s : Slice T)
    (f : Bool → OffsetsTracker T → OffsetsTracker T × List (WorkItem T)) :
    (s.update f).tracker = s.tracker.map fun t => (f s.assigned t).1 := by
  cases ht : s.tracker with
  | none => simp [Slice.update, ht]
  | some t => simp [Slice.update, ht]

theorem update_assigned (s : Slice T)
    (f : Bool → OffsetsTracker T → OffsetsTracker T × List (WorkItem T)) :
    (s.update f).assigned = s.assigned := by
  cases ht : s.tracker with
  | none => simp [Slice.update, ht]
  | some t => simp [Slice.update, ht]

/-- A tracker that offers an item makes the batch non-empty, so the outcome is the broker's. -/
theorem outcome_of_offered (hk : c.Keyed) {k : Tick} (legal : (Call.commitOffsets k).Legal c)
    (hg : k.guardAcquired = true) {t : OffsetsTracker T} (ht : c.partitionMap p = some t)
    (hoff : (t.tick slices (c.assigned p) (k.partition p)).2.isSome = true) :
    k.accepted = (c.commitOffsets slices k).error.isNone := by
  have hsent := (Committer.commitOffsets_entry slices k hk hg legal.1 legal.2 p).2
  have hne : (c.commitOffsets slices k).sent ≠ [] := by
    intro hnil
    obtain ⟨m, hm⟩ := Option.isSome_iff_exists.mp hoff
    simp [hnil, ht, hm] at hsent
  rw [Committer.commitOffsets_eq slices k hg] at hne ⊢
  split_ifs at hne ⊢ with hempty hacc
  · exact absurd rfl hne
  · simpa using hacc
  · simpa using hacc

/-- A tick and its replay: the replayed tick gets the outcome of the whole batch. -/
theorem Agrees.tick {h : History T} {s : SinglePartition T} (ha : Agrees slices p h s)
    (hk : h.committer.Keyed) {k : Tick} (legal : (Call.commitOffsets k).Legal h.committer)
    (htracker : (h.record slices (.commitOffsets k)).committer.partitionMap p =
      ((h.committer.slice p).step slices p (.commitOffsets k)).tracker)
    (hassigned : (h.record slices (.commitOffsets k)).committer.assigned p =
      ((h.committer.slice p).step slices p (.commitOffsets k)).assigned)
    (hcommitted : (h.record slices (.commitOffsets k)).committed slices p =
      h.committed slices p ++ (Call.commitOffsets k).committed slices p h.committer) :
    Agrees slices p (h.record slices (.commitOffsets k))
      (s.step slices (.ticked (h.committer.commitOffsets slices k).error)) := by
  obtain ⟨hat, haa, hac⟩ := ha
  cases hg : k.guardAcquired with
  | false =>
    have herr : (h.committer.commitOffsets slices k).error = some .acquireGuardFailed := by
      simp [Committer.commitOffsets, hg]
    simp only [Slice.step, hg, Bool.false_eq_true, if_false] at htracker hassigned
    simp only [Call.committed, herr, reduceCtorEq, if_false, List.append_nil] at hcommitted
    rw [herr]
    exact ⟨by rw [htracker]; exact hat, hassigned.trans haa, hcommitted.trans hac⟩
  | true =>
    simp only [Slice.step, hg, if_true, update_tracker, update_assigned] at htracker hassigned
    have hoff : ∀ t, h.committer.partitionMap p = some t →
        (t.tick slices (h.committer.assigned p) (k.partition p)).2.isSome →
        k.accepted = (h.committer.commitOffsets slices k).error.isNone :=
      fun t ht => outcome_of_offered hk legal hg ht
    have hsent := (Committer.commitOffsets_entry slices k hk hg legal.1 legal.2 p).2
    generalize hout : (h.committer.commitOffsets slices k).error = outcome at hoff ⊢
    have htick : ∀ t u : OffsetsTracker T, h.committer.partitionMap p = some t →
        t.timeless = u.timeless →
        (t.tick slices (h.committer.assigned p) (k.partition p)).1.timeless =
          (u.tick slices (h.committer.assigned p) (PartitionEvent.tick outcome)).1.timeless ∧
        (t.tick slices (h.committer.assigned p) (k.partition p)).2.map WorkItem.offset =
          (u.tick slices (h.committer.assigned p) (PartitionEvent.tick outcome)).2.map
            WorkItem.offset := by
      intro t u ht htu
      exact OffsetsTracker.tick_timeless slices htu _ (hoff t ht)
    have hmap := map_timeless hat fun t u ht htu => (htick t u ht htu).1
    have hmap' : ((h.record slices (.commitOffsets k)).committer.partitionMap p).map
        OffsetsTracker.timeless = (s.tracker.map fun u => (u.tick slices s.assigned
          (PartitionEvent.tick outcome)).1).map OffsetsTracker.timeless := by
      rw [htracker, ← haa]
      exact hmap
    cases outcome with
    | none =>
      refine ⟨hmap', hassigned.trans haa, ?_⟩
      rw [hcommitted, Call.committed, if_pos hout, hsent, hac, SinglePartition.step]
      rw [← haa]
      congr 1
      rcases map_eq_map_cases hat with ⟨ht, hu⟩ | ⟨t, u, ht, hu, htu⟩
      · simp [ht, hu]
      · rw [ht, hu, Option.bind_some, Option.bind_some, ← (htick t u ht htu).2, Option.toList_map]
    | some e =>
      rw [Call.committed, hout, if_neg (by simp), List.append_nil] at hcommitted
      cases e with
      | errBrokerCommitFailed => exact ⟨hmap', hassigned.trans haa, hcommitted.trans hac⟩
      | acquireGuardFailed =>
        rw [Committer.commitOffsets_eq slices k hg] at hout
        split_ifs at hout
        simp at hout

theorem Agrees.record {h : History T} {s : SinglePartition T} (ha : Agrees slices p h s)
    (hk : h.committer.Keyed) {call : Call T} (legal : call.Legal h.committer) :
    Agrees slices p (h.record slices call)
      ((call.seenBy slices p h.committer).elim s (s.step slices)) := by
  have hslice := Committer.run_slice hk slices legal p
  have htracker : (h.record slices call).committer.partitionMap p =
      ((h.committer.slice p).step slices p call).tracker := congrArg Slice.tracker hslice
  have hassigned : (h.record slices call).committer.assigned p =
      ((h.committer.slice p).step slices p call).assigned := congrArg Slice.assigned hslice
  have hcommitted : (h.record slices call).committed slices p =
      h.committed slices p ++ call.committed slices p h.committer := by
    simp [History.committed, History.record]
  have hquiet : ∀ s' : SinglePartition T, s'.committed = s.committed →
      call.committed slices p h.committer = [] →
      (h.record slices call).committed slices p = s'.committed := by
    intro s' hs hnone
    rw [hcommitted, hnone, List.append_nil, hs, ha.committed]
  obtain ⟨hat, haa, hac⟩ := ha
  cases call with
  | processCommit w now =>
    simp only [Slice.step] at htracker hassigned
    simp only [Call.seenBy]
    split_ifs at htracker hassigned ⊢
    · refine ⟨?_, hassigned.trans haa, hquiet _ rfl rfl⟩
      rw [htracker]
      exact congrArg some (OffsetsTracker.processCommit_timeless hat w now 0)
    · exact ⟨htracker ▸ hat, hassigned.trans haa, hquiet s rfl rfl⟩
  | flushGapBuffers order now =>
    simp only [Slice.step, update_tracker, update_assigned] at htracker hassigned
    refine ⟨?_, hassigned.trans haa, hquiet _ rfl rfl⟩
    rw [htracker]
    exact map_timeless hat fun t u _ htu => OffsetsTracker.flush_timeless slices htu now 0
  | commitOffsets k => exact Agrees.tick ⟨hat, haa, hac⟩ hk legal htracker hassigned hcommitted
  | resetCommittedOffsets l =>
    simp only [Slice.step] at htracker hassigned
    simp only [Call.seenBy]
    cases hfind : l.find? fun r => r.1 == p with
    | none =>
      simp only [hfind] at htracker hassigned
      exact ⟨htracker ▸ hat, hassigned.trans haa, hquiet s rfl rfl⟩
    | some r =>
      simp only [hfind] at htracker hassigned
      refine ⟨?_, hassigned.trans haa, hquiet _ rfl rfl⟩
      rw [htracker]
      exact congrArg some (OffsetsTracker.resetCommittedOffset_timeless hat r.2)
  | markPartitionAssigned q =>
    simp only [Slice.step] at htracker hassigned
    simp only [Call.seenBy]
    split_ifs at htracker hassigned ⊢
    · exact ⟨htracker ▸ hat, hassigned, hquiet _ rfl rfl⟩
    · exact ⟨htracker ▸ hat, hassigned.trans haa, hquiet s rfl rfl⟩
  | markPartitionRevoked q =>
    simp only [Slice.step] at htracker hassigned
    simp only [Call.seenBy]
    split_ifs at htracker hassigned ⊢
    · refine ⟨?_, hassigned, hquiet _ rfl rfl⟩
      rw [htracker]
      apply map_timeless hat
      intro t u _ htu
      rcases OffsetsTracker.timeless_cases htu with ⟨_, rfl⟩ | ⟨a, b, ht, rfl, hab⟩
      · rfl
      · simp [OffsetsTracker.timeless, ht, hab]
    · exact ⟨htracker ▸ hat, hassigned.trans haa, hquiet s rfl rfl⟩

theorem agrees_replay {h : History T} (hr : (callSystem slices Call.Legal).Reachable h) :
    Agrees slices p h (SinglePartition.replay slices (h.restrict slices p)) := by
  refine System.invariant (M := callSystem slices Call.Legal) (P := fun h => Agrees slices p h
    (SinglePartition.replay slices (h.restrict slices p))) ?_ ?_ h hr
  · rintro h rfl
    exact ⟨rfl, rfl, rfl⟩
  · rintro h h' hreach ha ⟨call, legal, rfl⟩
    have hstep := ha.record (Committer.Keyed.of_reachable hreach) legal
    have hreplay : SinglePartition.replay slices ((h.record slices call).restrict slices p) =
        (call.seenBy slices p h.committer).elim
          (SinglePartition.replay slices (h.restrict slices p))
          ((SinglePartition.replay slices (h.restrict slices p)).step slices) := by
      rw [History.restrict, History.record, List.filterMap_append, SinglePartition.replay,
        List.foldl_append]
      cases hseen : call.seenBy slices p h.committer with
      | none => simp [hseen, SinglePartition.replay, History.restrict]
      | some e => simp [hseen, SinglePartition.replay, History.restrict]
    rw [hreplay]
    exact hstep

/-- Two runs that look the same to partition `p` commit the same offsets for it and leave
it the same tracker up to the times of the stamps, whatever the other partitions do. -/
theorem partition_independence {h₁ h₂ : History T}
    (r₁ : (callSystem slices Call.Legal).Reachable h₁)
    (r₂ : (callSystem slices Call.Legal).Reachable h₂)
    (same : h₁.restrict slices p = h₂.restrict slices p) :
    h₁.committed slices p = h₂.committed slices p ∧
      (h₁.committer.partitionMap p).map OffsetsTracker.timeless =
        (h₂.committer.partitionMap p).map OffsetsTracker.timeless := by
  have a₁ := agrees_replay (p := p) r₁
  have a₂ := agrees_replay (p := p) r₂
  rw [same] at a₁
  exact ⟨a₁.committed.trans a₂.committed.symm, a₁.tracker.trans a₂.tracker.symm⟩

end Replay

/-- The first record of a partition. -/
def openingItem (p : Int) (ptr : Nat) : WorkItem Unit where
  ptr := ptr
  message := { partition := p, offset := 0 }
  previousOffset := -1
  first := true

/-- Partition 0 alone commits its record. -/
def aloneHistory : History Unit :=
  [Call.markPartitionAssigned 0, Call.processCommit (openingItem 0 0) 10,
    Call.commitOffsets { flushOrder := [0], commitOrder := [0] }].foldl
    (History.record (SortFunc.insertion (WorkItem Unit))) {}

/-- The same with partition 1 active before, at other times and in another order. -/
def besideHistory : History Unit :=
  [Call.processCommit (openingItem 1 1) 7, Call.markPartitionAssigned 0,
    Call.processCommit (openingItem 0 0) 12,
    Call.commitOffsets { flushOrder := [1, 0], commitOrder := [0, 1], flushTime := 5 }].foldl
    (History.record (SortFunc.insertion (WorkItem Unit))) {}

theorem reachable_aloneHistory :
    (callSystem (SortFunc.insertion (WorkItem Unit)) Call.Legal).Reachable aloneHistory :=
  reachable_of_script 0 (R := fun _ _ => True) (fun _ _ legal _ => legal) (by decide)

theorem reachable_besideHistory :
    (callSystem (SortFunc.insertion (WorkItem Unit)) Call.Legal).Reachable besideHistory := by
  have h₁ := (System.Reachable.init (M := callSystem (SortFunc.insertion (WorkItem Unit))
    Call.Legal) rfl).step ⟨.processCommit (openingItem 1 1) 7, trivial, rfl⟩
  have h₂ := h₁.step ⟨.markPartitionAssigned 0, trivial, rfl⟩
  have h₃ := h₂.step ⟨.processCommit (openingItem 0 0) 12, trivial, rfl⟩
  refine h₃.step ⟨_, ?_, rfl⟩
  have hmem : ∀ q : Int, q = 0 ∨ q = 1 ↔ ((((({} : Committer Unit).processCommit
      (openingItem 1 1) 7).markPartitionAssigned 0).processCommit
        (openingItem 0 0) 12).partitionMap q).isSome := by
    intro q
    by_cases h0 : q = 0
    · subst h0
      decide
    · by_cases h1 : q = 1
      · subst h1
        decide
      · simp [Committer.processCommit, Committer.markPartitionAssigned, WorkItem.partition,
          openingItem, h0, h1]
  refine ⟨⟨by decide, ?_⟩, by decide, ?_⟩
  · intro q
    rw [List.mem_cons, List.mem_singleton, or_comm]
    exact hmem q
  · intro q
    rw [List.mem_cons, List.mem_singleton]
    exact hmem q

theorem partition_independence_sample :
    aloneHistory.committed (SortFunc.insertion (WorkItem Unit)) 0 = [0] ∧
      aloneHistory.committed (SortFunc.insertion (WorkItem Unit)) 0 =
        besideHistory.committed (SortFunc.insertion (WorkItem Unit)) 0 :=
  ⟨by decide, (partition_independence reachable_aloneHistory reachable_besideHistory rfl).1⟩

end Offset

end LlingrDemux
