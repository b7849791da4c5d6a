import LlingrDemux.Offset.Accounting
import LlingrDemux.Offset.Backlog

/-!
# A commit that the broker rejects

When the broker answers, the call has already flushed, discarded and repaired; the error
path keeps all of that and adds nothing. Every offered item stays `Ready`, and until the
partition is reset or revoked its tracker stands at or above the rejected offset: either
the `Ready` item does, or the baseline has passed it.
-/

namespace LlingrDemux.Offset

open Shared
set_option autoImplicit false

variable {T : Type}

namespace OffsetsTracker

/-- Nothing below `x` can be committed next. -/
def AtLeast (x : Int) (t : OffsetsTracker T) : Prop :=
  (∃ r, t.ready = some r ∧ x ≤ r.offset) ∨ x < t.committedPlusOne

section
variable {t : OffsetsTracker T} {x : Int}

theorem checkAndAdvance_atLeast (h : t.AtLeast x) (w : WorkItem T) (now : Int) :
    (t.checkAndAdvance w now).1.AtLeast x := by
  rcases h with ⟨r, hr, hle⟩ | hlt
  · rcases checkAndAdvance_cases t w now with ⟨f, heq, _, hcase⟩ | ⟨heq, _⟩ | ⟨f, heq, _⟩
    · rcases hcase with ⟨hn, _⟩ | ⟨r₀, hr₀, hge, _⟩
      · simp [hn] at hr
      · rw [hr, Option.some.injEq] at hr₀
        subst hr₀
        rw [heq]
        exact .inl ⟨_, rfl, hle.trans hge⟩
    · rw [heq]
      exact .inl ⟨r, hr, hle⟩
    · rw [heq]
      exact .inl ⟨r, hr, hle⟩
  · exact .inr (by simpa using hlt)

theorem processCommit_atLeast (h : t.AtLeast x) (w : WorkItem T) (now : Int) :
    (processCommit (some t) w now).1.AtLeast x := by
  apply checkAndAdvance_atLeast
  obtain ⟨lo, hi, heq⟩ := arrive_some_eq t w
  rw [heq]
  rcases h with h | hlt
  · exact .inl h
  · right
    simp only
    split_ifs <;> omega

theorem flush_atLeast (h : t.AtLeast x) (slices : SortFunc (WorkItem T)) (now : Int) :
    (t.flush slices now).1.AtLeast x := by
  rcases h with ⟨r, hr, hle⟩ | hlt
  · obtain ⟨r', hr', hle'⟩ := flush_ready_mono slices now hr
    exact .inl ⟨r', hr', hle.trans hle'⟩
  · exact .inr (by simpa using hlt)

theorem repaired_atLeast (h : t.AtLeast x) (slices : SortFunc (WorkItem T)) (k : PartitionTick) :
    (t.repaired slices k).AtLeast x := by
  rcases flush_atLeast h slices k.flushTime with ⟨r, hr, hle⟩ | hlt
  · have hsame : t.repaired slices k = (t.flush slices k.flushTime).1 := by
      simp [repaired, repairSuccessor, hr]
    exact .inl ⟨r, hsame ▸ hr, hle⟩
  · exact .inr (by simpa using hlt)

/-- The tick of an assigned partition offers nothing below `x` and keeps the bound. -/
theorem tick_atLeast (h : t.AtLeast x) (slices : SortFunc (WorkItem T)) (k : PartitionTick) :
    (t.tick slices true k).1.AtLeast x ∧ ∀ m, (t.tick slices true k).2 = some m → x ≤ m.offset := by
  have hrep := repaired_atLeast h slices k
  rcases tick_assigned_cases slices t k with
    ⟨_, heq⟩ | ⟨m, flag, hready, hstale, heq⟩ | ⟨m, hready, hbase, heq⟩
  · rw [heq]
    exact ⟨hrep, fun _ hm => by cases hm⟩
  · rw [heq]
    refine ⟨.inr ?_, fun _ hm => by cases hm⟩
    rcases hrep with ⟨r, hr, hle⟩ | hlt
    · rw [hready, Option.some.injEq] at hr
      subst hr
      simpa using (by omega : x < t.committedPlusOne)
    · exact hlt
  · have hle : x ≤ m.offset := by
      rcases hrep with ⟨r, hr, hle⟩ | hlt
      · rw [hready, Option.some.injEq] at hr
        exact hr ▸ hle
      · rw [repaired_committedPlusOne] at hlt
        omega
    rw [heq]
    refine ⟨?_, fun _ hm => by cases hm; exact hle⟩
    split_ifs
    · right
      simp only [acceptCommit, repaired_committedPlusOne]
      split_ifs <;> omega
    · exact hrep

/-- A rejected batch moves neither the baseline nor the anchor. -/
theorem tick_rejected (slices : SortFunc (WorkItem T)) (t : OffsetsTracker T) (assigned : Bool)
    {k : PartitionTick} (hk : k.accepted = false) :
    (t.tick slices assigned k).1.committedPlusOne = t.committedPlusOne ∧
      (t.tick slices assigned k).1.lastCommittedOffset = t.lastCommittedOffset := by
  cases assigned with
  | false =>
    rw [tick_of_none slices k t (by simp [collectCommit])]
    simp only [collectCommit, discardOrphanedTracker, Bool.not_false, if_true]
    split_ifs <;> simp
  | true =>
    have hlast : (t.repaired slices k).lastCommittedOffset = t.lastCommittedOffset := by
      simp [repaired]
    rcases tick_assigned_cases slices t k with ⟨_, heq⟩ | ⟨_, _, _, _, heq⟩ | ⟨_, _, _, heq⟩
    · rw [heq]
      exact ⟨by simp, hlast⟩
    · rw [heq]
      exact ⟨by simp, hlast⟩
    · rw [heq, hk]
      exact ⟨by simp, hlast⟩

/-- A rejected item stays `Ready`. -/
theorem tick_rejected_ready (slices : SortFunc (WorkItem T)) (t : OffsetsTracker T) {k : PartitionTick}
    (hk : k.accepted = false) {m : WorkItem T} (hm : (t.tick slices true k).2 = some m) :
    (t.tick slices true k).1.ready = some m := by
  rcases tick_assigned_cases slices t k with ⟨_, heq⟩ | ⟨_, _, _, _, heq⟩ | ⟨v, hready, _, heq⟩
  · simp [heq] at hm
  · simp [heq] at hm
  · rw [heq, hk]
    rw [heq] at hm
    cases hm
    exact hready

end

end OffsetsTracker

/-- The call neither resets nor revokes partition `p`. -/
def Call.Spares (p : Int) : Call T → Prop
  | .resetCommittedOffsets partitionOffsets => p ∉ partitionOffsets.map Prod.fst
  | .markPartitionRevoked q => q ≠ p
  | _ => True

/-- The partition is assigned and can commit nothing below `x` next. -/
def Slice.AtLeast (x : Int) (s : Slice T) : Prop :=
  s.assigned = true ∧ ∃ t, s.tracker = some t ∧ t.AtLeast x

theorem Slice.AtLeast.step {x p : Int} {s : Slice T} (h : s.AtLeast x)
    (slices : SortFunc (WorkItem T)) {call : Call T} (spares : call.Spares p) :
    (s.step slices p call).AtLeast x := by
  obtain ⟨hassigned, t, ht, hx⟩ := h
  cases call with
  | processCommit w now =>
    simp only [Slice.step]
    split_ifs
    · refine ⟨hassigned, _, rfl, ?_⟩
      rw [ht]
      exact OffsetsTracker.processCommit_atLeast hx w now
    · exact ⟨hassigned, t, ht, hx⟩
  | flushGapBuffers order now =>
    simp only [Slice.step, Slice.update, ht]
    exact ⟨hassigned, _, rfl, OffsetsTracker.flush_atLeast hx slices now⟩
  | commitOffsets k =>
    simp only [Slice.step]
    split_ifs
    · simp only [Slice.update, ht, hassigned]
      exact ⟨rfl, _, rfl, (OffsetsTracker.tick_atLeast hx slices _).1⟩
    · exact ⟨hassigned, t, ht, hx⟩
  | resetCommittedOffsets l =>
    have hnone : (l.find? fun r => r.1 == p) = none := by
      apply List.find?_eq_none.mpr
      intro r hr he
      exact spares (List.mem_map.mpr ⟨r, hr, by simpa using he⟩)
    simp only [Slice.step, hnone]
    exact ⟨hassigned, t, ht, hx⟩
  | markPartitionAssigned q =>
    simp only [Slice.step]
    split_ifs
    · exact ⟨rfl, t, ht, hx⟩
    · exact ⟨hassigned, t, ht, hx⟩
  | markPartitionRevoked q =>
    have hq : q ≠ p := spares
    simp only [Slice.step, hq, if_false]
    exact ⟨hassigned, t, ht, hx⟩

namespace Committer
variable {c : Committer T} {slices : SortFunc (WorkItem T)} {k : Tick}

/-- A sent item is what the tracker of its assigned partition offers. -/
theorem sent_cases (hk : c.Keyed) (legal : (Call.commitOffsets k).Legal c) {m : WorkItem T}
    (hm : m ∈ (c.commitOffsets slices k).sent) :
    c.assigned m.partition = true ∧ ∃ t, c.partitionMap m.partition = some t ∧
      (t.tick slices true (k.partition m.partition)).2 = some m ∧
      (c.commitOffsets slices k).committer.partitionMap m.partition =
        some (t.tick slices true (k.partition m.partition)).1 := by
  have hg : k.guardAcquired = true := by
    cases hg : k.guardAcquired with
    | false => simp [commitOffsets, hg] at hm
    | true => rfl
  have hassigned := (sent_of_tick slices hk legal.1 legal.2 hm).1
  obtain ⟨hentry, hsent⟩ := commitOffsets_entry slices k hk hg legal.1 legal.2 m.partition
  have hmem : m ∈ ((c.commitOffsets slices k).sent.filter fun w => w.partition == m.partition) :=
    List.mem_filter.mpr ⟨hm, by simp⟩
  rw [hsent, Option.mem_toList, Option.bind_eq_some_iff, hassigned] at hmem
  obtain ⟨t, ht, htick⟩ := hmem
  have hmap := congrArg Prod.fst hentry
  rw [ht, hassigned] at hmap
  exact ⟨hassigned, t, ht, htick, hmap⟩

theorem commitOffsets_rejected (hk : k.accepted = false)
    (batch : (c.commitOffsets slices k).sent ≠ []) :
    k.guardAcquired = true ∧ (c.commitOffsets slices k).error = some .errBrokerCommitFailed := by
  cases hg : k.guardAcquired with
  | false => simp [commitOffsets, hg] at batch
  | true =>
    refine ⟨rfl, ?_⟩
    rw [commitOffsets_eq slices k hg] at batch ⊢
    split_ifs at batch ⊢ with he
    · exact absurd rfl batch
    · rfl
    · simp_all

end Committer

theorem run_atLeast {slices : SortFunc (WorkItem T)} {p x : Int} {h h' : History T}
    (hk : h.committer.Keyed) (hx : (h.committer.slice p).AtLeast x)
    (hrun : (callSystem slices fun c call => call.Legal c ∧ call.Spares p).Run h h') :
    h'.committer.Keyed ∧ (h'.committer.slice p).AtLeast x := by
  induction hrun with
  | refl => exact ⟨hk, hx⟩
  | tail _ hstep ih =>
    obtain ⟨call, ⟨legal, spares⟩, rfl⟩ := hstep
    refine ⟨ih.1.run slices call, ?_⟩
    rw [History.record, Committer.run_slice ih.1 slices legal p]
    exact ih.2.step slices spares

/-- A batch that the broker rejects: the call reports it, every baseline and anchor stays,
no offered item is collected (each item having been ingested once), each stays `Ready`, and
whatever is accepted later for its partition, before a reset or a revoke of it, is not
below it. -/
theorem rejected_commit_loses_nothing {slices : SortFunc (WorkItem T)} {h : History T}
    (reachable : (callSystem slices Call.Legal).Reachable h) {k : Tick}
    (legal : (Call.commitOffsets k).Legal h.committer) (rejected : k.accepted = false)
    (batch : (h.committer.commitOffsets slices k).sent ≠ []) :
    (h.committer.commitOffsets slices k).error = some .errBrokerCommitFailed ∧
    (∀ p t, h.committer.partitionMap p = some t →
      ∃ t', (h.committer.commitOffsets slices k).committer.partitionMap p = some t' ∧
        t'.committedPlusOne = t.committedPlusOne ∧
        t'.lastCommittedOffset = t.lastCommittedOffset) ∧
    ∀ m ∈ (h.committer.commitOffsets slices k).sent,
      ((h.ingested.map WorkItem.ptr).Nodup →
        ∀ w ∈ (h.committer.commitOffsets slices k).committer.collected, w.ptr ≠ m.ptr) ∧
      (∃ t', (h.committer.commitOffsets slices k).committer.partitionMap m.partition = some t' ∧
        t'.ready = some m) ∧
      ∀ h', (callSystem slices fun c call => call.Legal c ∧ call.Spares m.partition).Run
          (h.record slices (.commitOffsets k)) h' →
        ∀ k', (Call.commitOffsets k').Legal h'.committer →
          (h'.committer.commitOffsets slices k').error = none →
          ∀ m' ∈ (h'.committer.commitOffsets slices k').sent, m'.partition = m.partition →
            m.offset ≤ m'.offset := by
  have hk := Committer.Keyed.of_reachable reachable
  obtain ⟨hg, herror⟩ := Committer.commitOffsets_rejected rejected batch
  refine ⟨herror, ?_, ?_⟩
  · intro p t ht
    have hmap := congrArg Prod.fst
      (Committer.commitOffsets_entry slices k hk hg legal.1 legal.2 p).1
    rw [ht] at hmap
    exact ⟨_, hmap, OffsetsTracker.tick_rejected slices t _ rejected⟩
  · intro m hm
    obtain ⟨hassigned, t, ht, htick, hmap⟩ := Committer.sent_cases hk legal hm
    have hready := OffsetsTracker.tick_rejected_ready slices t rejected htick
    have hafter : (callSystem slices Call.Legal).Reachable
        (h.record slices (.commitOffsets k)) := reachable.step ⟨_, legal, rfl⟩
    refine ⟨?_, ⟨_, hmap, hready⟩, ?_⟩
    · intro once w hw
      refine (held_not_collected (p := m.partition) hafter (by simpa [Call.ingested] using once)
        hw ?_).symm
      simp [Committer.heldAt, History.record, Call.run, hmap, OffsetsTracker.held, hready]
    · intro h' hrun k' legal' _ m' hm' hpartition
      have hstays := congrArg Prod.snd
        (Committer.commitOffsets_entry slices k hk hg legal.1 legal.2 m.partition).1
      obtain ⟨hk', _, t', ht', hx⟩ := run_atLeast (Committer.Keyed.of_reachable hafter)
        ⟨hstays.trans hassigned, _, hmap, .inl ⟨m, hready, le_rfl⟩⟩ hrun
      obtain ⟨_, t'', ht'', htick', _⟩ := Committer.sent_cases hk' legal' hm'
      rw [hpartition] at ht''
      cases ht'.symm.trans ht''
      exact (OffsetsTracker.tick_atLeast hx slices _).2 m' htick'

/-- Record 5 is `Ready` at its baseline when the broker rejects it. -/
def rejectedCalls : List (Call Unit) :=
  [.resetCommittedOffsets [(0, 5)], .markPartitionAssigned 0,
    .processCommit ⟨0, { partition := 0, offset := 5 }, {}, -1, true, 0⟩ 1]

def rejectedHistory : History Unit :=
  rejectedCalls.foldl (History.record (SortFunc.insertion (WorkItem Unit))) {}

theorem rejectedCalls_script : Call.Script (SortFunc.insertion (WorkItem Unit)) 0
    (fun _ _ => True) {} rejectedCalls := by
  decide

def rejectedTick : Tick where
  flushOrder := [0]
  commitOrder := [0]
  accepted := false

theorem rejected_commit_loses_nothing_sample :
    (rejectedHistory.committer.commitOffsets (SortFunc.insertion (WorkItem Unit))
      rejectedTick).error = some .errBrokerCommitFailed ∧
    ∀ m ∈ (rejectedHistory.committer.commitOffsets (SortFunc.insertion (WorkItem Unit))
        rejectedTick).sent, ∃ t', (rejectedHistory.committer.commitOffsets
          (SortFunc.insertion (WorkItem Unit)) rejectedTick).committer.partitionMap m.partition =
            some t' ∧ t'.ready = some m :=
  have hiterates : rejectedHistory.committer.Iterates [0] :=
    Committer.iterates_singleton (by decide) (only_of_script rejectedCalls_script)
  have h := rejected_commit_loses_nothing (k := rejectedTick)
    (reachable_of_script 0 (fun _ _ hlegal _ => hlegal) rejectedCalls_script)
    ⟨hiterates, hiterates⟩ rfl (by decide)
  ⟨h.1, fun m hm => (h.2.2 m hm).2.1⟩

end LlingrDemux.Offset
