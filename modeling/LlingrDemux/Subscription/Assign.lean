import LlingrDemux.Subscription.Rebalance

/-!
# The effect of an assign event

What an uninterrupted assign does to the predecessor tracking and to the committer, and
that a session can run it in one piece. An assign forgets the predecessors of the
partitions it names, except that naming none forgets those of every partition.
-/

namespace LlingrDemux

set_option autoImplicit false

namespace Prev.PartitionOffsets

theorem reset_of_not_mem (s : PartitionOffsets) {l : List Int} {p : Int} (hl : l ≠ [])
    (hp : p ∉ l) : (s.reset l).prevOffsets p = s.prevOffsets p := by
  simp [reset, hl, hp]

/-- The answer depends on the partition's own entry only. -/
theorem getPrevious_congr {s s' : PartitionOffsets} {p : Int}
    (h : s'.prevOffsets p = s.prevOffsets p) (offset : Int) :
    (s'.getPrevious p offset).2 = (s.getPrevious p offset).2 := by
  unfold getPrevious
  rw [h]
  split
  · rfl
  · cases s.prevOffsets p with
    | none => rfl
    | some last =>
      simp only
      split_ifs
      · rfl
      · rfl
      · rfl

end Prev.PartitionOffsets

namespace Rebalance

open Offset Prev Shared

variable {T : Type}

/-! ## In one piece -/

theorem mem_partitionOffsets {info : List RebalanceInfo} {order : List Int} {p : Int}
    (h : p ∈ (partitionOffsets info order).map Prod.fst) : p ∈ partitions info ∧ p ∈ order := by
  obtain ⟨x, hx, rfl⟩ := List.mem_map.mp h
  obtain ⟨q, hq, hval⟩ := List.mem_filterMap.mp hx
  obtain ⟨offset, hoffset, rfl⟩ := Option.map_eq_some_iff.mp hval
  obtain ⟨r, hr, _⟩ := Option.map_eq_some_iff.mp hoffset
  have hmem := List.mem_of_find?_eq_some hr
  have hrq := List.find?_some hr
  refine ⟨List.mem_map.mpr ⟨r, List.mem_reverse.mp hmem, ?_⟩, hq⟩
  simpa using hrq

theorem resetCommittedOffsets_entry_other (c : Committer T) {l : List (Int × Int)} {p : Int}
    (hp : p ∉ l.map Prod.fst) : (c.resetCommittedOffsets l).entry p = c.entry p := by
  induction l generalizing c with
  | nil => rfl
  | cons r l ih =>
    rw [List.map_cons, List.mem_cons, not_or] at hp
    exact (ih (c.resetPartition r) hp.2).trans (Committer.store_entry_other c _ hp.1)

namespace Subscription
variable (slices : SortFunc (WorkItem T)) (choice : Choice) (s : Subscription T)

theorem foldl_markPartitionAssigned (ps : List Int) :
    (ps.map Action.markPartitionAssigned).foldl (perform slices choice) s =
      { s with committer := ps.foldl Committer.markPartitionAssigned s.committer } := by
  induction ps generalizing s with
  | nil => rfl
  | cons p ps ih => exact ih _

theorem handleRebalance_assign {info : List RebalanceInfo} (accepted : s.foreignTopic info = none) :
    (s.handleRebalance slices choice .assign info).1 =
      { s with
        signalAssigned := true
        prev := s.prev.reset (partitions info)
        committer := (partitions info).foldl Committer.markPartitionAssigned
          (s.committer.resetCommittedOffsets (partitionOffsets info choice.order)) } := by
  simp only [handleRebalance, accepted, sections, List.foldl_append, foldl_markPartitionAssigned]
  rfl

theorem foldl_assigned_entry (c : Committer T) {ps : List Int} {p : Int} (hp : p ∉ ps) :
    (ps.foldl Committer.markPartitionAssigned c).entry p = c.entry p := by
  induction ps generalizing c with
  | nil => rfl
  | cons q ps ih =>
    rw [List.mem_cons, not_or] at hp
    refine (ih (c.markPartitionAssigned q) hp.2).trans ?_
    simp [Committer.entry, Committer.markPartitionAssigned, Function.update_of_ne hp.1]

/-- The committer keeps the entries of the partitions that an assign does not name. -/
theorem assign_entry {info : List RebalanceInfo} (accepted : s.foreignTopic info = none) {p : Int}
    (hp : p ∉ partitions info) :
    (s.handleRebalance slices choice .assign info).1.committer.entry p = s.committer.entry p := by
  rw [handleRebalance_assign slices choice s accepted]
  refine (foldl_assigned_entry _ hp).trans (resetCommittedOffsets_entry_other _ ?_)
  intro hmem
  exact hp (mem_partitionOffsets hmem).1

end Subscription

/-! ## In a session -/

namespace Session

variable {slices : SortFunc (WorkItem T)} {topicName : String} {choice : Choice}
  {info : List RebalanceInfo}

/-- A call that no other goroutine interrupts. -/
theorem run_sections {t : RebalanceType} (l : List Action) {s : Subscription T} {r : Record T}
    (hs : (sessionSystem slices topicName).Reachable ⟨s, r, [⟨t, info, l⟩]⟩)
    (hfits : ∀ a ∈ l, ∀ s : Subscription T, choice.Fits s a) :
    (sessionSystem slices topicName).Reachable
      ⟨l.foldl (Subscription.perform slices choice) s, l.foldl Record.note r, [⟨t, info, []⟩]⟩ := by
  induction l generalizing s r with
  | nil => exact hs
  | cons a l ih =>
    apply ih
    · exact hs.step (Step.act _ choice [] ⟨t, info, a :: l⟩ [] a l rfl rfl
        (hfits a List.mem_cons_self s))
    · intro b hb
      exact hfits b (List.mem_cons_of_mem a hb)

theorem foldl_note_markPartitionAssigned (ps : List Int) (r : Record T) :
    (ps.map Action.markPartitionAssigned).foldl Record.note r =
      { r with released := ps.foldl (fun f p => Function.update f p false) r.released } := by
  induction ps generalizing r with
  | nil => rfl
  | cons p ps ih => exact ih _

theorem fits_assign (horder : choice.order.Nodup ∧ ∀ p, p ∈ choice.order ↔ p ∈ partitions info) :
    ∀ a ∈ sections .assign info, ∀ s : Subscription T, choice.Fits s a := by
  intro a ha s
  simp only [sections, List.mem_append, List.mem_cons, List.mem_map, List.not_mem_nil,
    or_false] at ha
  rcases ha with ((rfl | rfl | rfl) | ⟨p, _, rfl⟩) | rfl | rfl
  · trivial
  · trivial
  · exact horder
  · trivial
  · trivial
  · trivial

/-- From a session without a call in progress, an assign event can run in one piece. -/
theorem reachable_assign (slices : SortFunc (WorkItem T)) (topicName : String) (choice : Choice)
    (info : List RebalanceInfo) {s : Session T} (hs : (sessionSystem slices topicName).Reachable s)
    (hidle : s.calls = []) (accepted : s.foreignTopic info = none)
    (away : ∀ p ∈ partitions info, s.ownership p = .revoked)
    (horder : choice.order.Nodup ∧ ∀ p, p ∈ choice.order ↔ p ∈ partitions info) :
    ∃ s', (sessionSystem slices topicName).Reachable s' ∧ s'.calls = [] ∧
      s'.toSubscription = (s.handleRebalance slices choice .assign info).1 ∧
      (∀ p ∉ partitions info, s'.committer.partitionMap p = s.committer.partitionMap p) ∧
      s'.epoch = (fun p => if p ∈ partitions info then s.epoch p + 1 else s.epoch p) ∧
      s'.ingested = s.ingested := by
  have hbegin := hs.step (Step.assign s info accepted away)
  simp only [begin, hidle, List.nil_append] at hbegin
  have hrun := run_sections (sections .assign info) hbegin (fits_assign horder)
  have hsub : (sections .assign info).foldl (Subscription.perform slices choice) s.toSubscription =
      (s.handleRebalance slices choice .assign info).1 := by
    simp [Subscription.handleRebalance, accepted]
  refine ⟨_, hrun.step (Step.finish _ [] ⟨.assign, info, []⟩ [] rfl rfl), rfl, hsub, ?_, ?_, ?_⟩
  · intro p hp
    simp only [finish, hsub]
    exact congrArg Prod.fst (Subscription.assign_entry slices choice s.toSubscription accepted hp)
  · simp only [finish, sections, List.foldl_append, foldl_note_markPartitionAssigned]
    rfl
  · simp only [finish, sections, List.foldl_append, foldl_note_markPartitionAssigned]
    rfl

end Session

/-! ## The frame of an assign event -/

/-- An assign event leaves the predecessor tracking and the tracker of every partition it
does not name alone, exactly when it names a partition or nothing has been polled. -/
theorem assign_frame_iff (slices : SortFunc (WorkItem T)) (choice : Choice) (s : Subscription T)
    (info : List RebalanceInfo) (accepted : s.foreignTopic info = none) :
    (∀ p ∉ partitions info,
      (s.handleRebalance slices choice .assign info).1.prev.prevOffsets p = s.prev.prevOffsets p ∧
      (s.handleRebalance slices choice .assign info).1.committer.partitionMap p =
        s.committer.partitionMap p ∧
      ∀ offset, ((s.handleRebalance slices choice .assign info).1.prev.getPrevious p offset).2 =
        (s.prev.getPrevious p offset).2) ↔
    info ≠ [] ∨ ∀ p, s.prev.prevOffsets p = none := by
  have hprev : (s.handleRebalance slices choice .assign info).1.prev =
      s.prev.reset (partitions info) := by
    rw [Subscription.handleRebalance_assign slices choice s accepted]
  rw [hprev]
  constructor
  · intro h
    by_cases hinfo : info = []
    · right
      subst hinfo
      intro p
      obtain ⟨hp, _⟩ := h p (by simp [partitions])
      rw [← hp]
      rfl
    · exact .inl hinfo
  · intro h p hp
    have hsame : (s.prev.reset (partitions info)).prevOffsets p = s.prev.prevOffsets p := by
      by_cases hnil : partitions info = []
      · rcases h with hinfo | hnone
        · exact absurd hnil (by simpa [partitions] using hinfo)
        · rw [hnone p, hnil]
          rfl
      · exact s.prev.reset_of_not_mem hnil hp
    refine ⟨hsame, ?_, PartitionOffsets.getPrevious_congr hsame⟩
    exact congrArg Prod.fst (Subscription.assign_entry slices choice s accepted hp)

/-- Partition `0` was polled up to offset `5`. -/
def polledSubscription : Subscription Unit where
  topicName := "orders"
  prev := ⟨fun p => if p = 0 then some 5 else none⟩

theorem assign_frame_iff_sample :
    (polledSubscription.handleRebalance (SortFunc.insertion _) { order := [1] } .assign
      [{ partition := 1 }]).1.prev.prevOffsets 0 = some 5 :=
  ((assign_frame_iff (SortFunc.insertion _) { order := [1] } polledSubscription [{ partition := 1 }]
    rfl).mpr (.inl (by decide)) 0 (by decide)).1

/-- Record `7` of partition `0`, stamped as a first one. -/
def stampedFirst : WorkItem Unit where
  ptr := 0
  message := { partition := 0, offset := 7 }
  previousOffset := 6
  first := true

/-- Partition `0` is owned from offset `5` and its record `5` is in flight. An assign of no
partition makes the next record a first one, and its completion is committed past `5`. -/
theorem empty_assign_skips_record_in_flight :
    ∃ s : Session Unit, (sessionSystem (SortFunc.insertion _) "orders").Reachable s ∧
      s.foreignTopic [] = none ∧ s.ingested = [] ∧
      (s.prev.getPrevious 0 7).2 = .ok (5, false) ∧
      ((s.handleRebalance (SortFunc.insertion _) {} .assign []).1.prev.getPrevious 0 7).2 =
        .ok (6, true) ∧
      (((s.handleRebalance (SortFunc.insertion _) {} .assign []).1.ingest (SortFunc.insertion _)
        [stampedFirst] (fun _ => 0) 0 [0]).committer.commitOffsets (SortFunc.insertion _)
        ⟨true, [0], [0], 0, fun _ => 0, true⟩).sent.map WorkItem.offset = [7] := by
  obtain ⟨s, hs, _, hsub, _, _, hing⟩ := Session.reachable_assign (SortFunc.insertion (WorkItem Unit))
    "orders" { order := [0] } [{ partition := 0, committedOffset := 5 }]
    (s := { topicName := "orders" }) (System.Reachable.init rfl) rfl rfl (by simp)
    (by simp [partitions])
  refine ⟨s.poll 0 5, hs.step (Session.Step.poll s 0 5), ?_, hing, ?_, ?_, ?_⟩
  · rfl
  · simp only [Session.poll, hsub]
    rfl
  · simp only [Session.poll, hsub]
    rfl
  · simp only [Session.poll, hsub]
    decide

end Rebalance

end LlingrDemux
