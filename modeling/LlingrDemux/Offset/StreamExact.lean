import LlingrDemux.Offset.Exactness

/-!
# Runs over one epoch's stream

The tracker of the stream's partition stays exact under every batch and every tick, so
after each of them the watermark is the longest completed prefix.
-/

namespace LlingrDemux.Offset

open Shared OffsetsTracker
set_option autoImplicit false

variable {T : Type}

namespace Stream
variable {p : Int} {S : Stream T p} {baseline : Int} {arrived : List Nat} {m : Nat}
  {t : OffsetsTracker T}

/-! ## The slice of the stream's partition -/

structure SliceExact (S : Stream T p) (baseline : Int) (before : List (WorkItem T))
    (arrived : List Nat) (s : Slice T) : Prop where
  assigned : s.assigned = true
  tracker : ∃ t m, s.tracker = some t ∧ S.Exact baseline arrived m t
  retired : ∃ new, s.collected = before ++ new ∧ ∀ w ∈ new, w.Clean

section Slices
variable {before : List (WorkItem T)} {c : Committer T}

theorem SliceExact.update {s : Slice T} (h : S.SliceExact baseline before arrived s)
    {arrived' : List Nat} {t' : OffsetsTracker T} (ht : S.Exact baseline arrived' m t')
    {retired : List (WorkItem T)} (hret : ∀ g ∈ retired, g.Clean) :
    S.SliceExact baseline before arrived' ⟨some t', s.assigned, s.collected ++ retired⟩ := by
  obtain ⟨new, hnew, hclean⟩ := h.retired
  refine ⟨h.assigned, ⟨t', m, rfl, ht⟩, new ++ retired, ?_, ?_⟩
  · rw [hnew, List.append_assoc]
  · intro w hw
    rcases List.mem_append.mp hw with hw | hw
    · exact hclean w hw
    · exact hret w hw

theorem SliceExact.ingest (hbase : baseline ≤ S.offset 0) (batch : List (Nat × Int))
    (hc : c.Keyed) (h : S.SliceExact baseline before arrived (c.slice p))
    (once : (arrived ++ batch.map Prod.fst).Nodup) :
    (StreamRun.ingest S batch c).Keyed ∧ S.SliceExact baseline before
      (arrived ++ batch.map Prod.fst) ((StreamRun.ingest S batch c).slice p) := by
  induction batch generalizing arrived c with
  | nil => simpa [StreamRun.ingest] using ⟨hc, h⟩
  | cons x batch ih =>
    rw [List.map_cons, List.append_cons] at once ⊢
    apply ih (hc.processCommit (S.item x.1) x.2)
    · obtain ⟨t, m, ht, hexact⟩ := h.tracker
      have hfresh : x.1 ∉ arrived := by
        intro hx
        have hnd := (List.nodup_append.mp once).1
        exact (List.nodup_append.mp hnd).2.2 x.1 hx x.1 (by simp) rfl
      obtain ⟨m', hexact', hret⟩ := hexact.processCommit hbase hfresh x.2
      have hslice := Committer.processCommit_slice_same hc (S.item x.1) x.2
      change c.partitionMap p = some t at ht
      rw [S.partition x.1, ht] at hslice
      rw [hslice]
      exact h.update hexact' hret
    · exact once

theorem SliceExact.flush (hbase : baseline ≤ S.offset 0) (slices : SortFunc (WorkItem T))
    (hc : c.Keyed) (h : S.SliceExact baseline before arrived (c.slice p)) {order : List Int}
    (iterates : c.Iterates order) (now : Int) :
    S.SliceExact baseline before arrived ((c.flushGapBuffers slices order now).slice p) ∧
      ∃ t m, (c.flushGapBuffers slices order now).partitionMap p = some t ∧
        S.Exact baseline arrived m t ∧ m ∉ arrived := by
  obtain ⟨t, m, ht, hexact⟩ := h.tracker
  obtain ⟨m', hexact', hm', hret⟩ := hexact.flush slices hbase now
  have hslice : (c.flushGapBuffers slices order now).slice p =
      ⟨some (t.flush slices now).1, (c.slice p).assigned,
        (c.slice p).collected ++ (t.flush slices now).2⟩ := by
    rw [Committer.flushGapBuffers_slice slices now hc iterates p, Slice.update, ht]
  refine ⟨?_, _, m', congrArg Slice.tracker hslice, hexact', hm'⟩
  rw [hslice]
  exact h.update hexact' hret

theorem SliceExact.tick (hbase : baseline ≤ S.offset 0) (slices : SortFunc (WorkItem T))
    (hc : c.Keyed) (h : S.SliceExact baseline before arrived (c.slice p)) {k : Tick}
    (hg : k.guardAcquired = true) (flushes : c.Iterates k.flushOrder)
    (commits : c.Iterates k.commitOrder) :
    S.SliceExact baseline before arrived ((c.commitOffsets slices k).committer.slice p) ∧
      ∃ t m, c.partitionMap p = some t ∧
        (c.commitOffsets slices k).committer.partitionMap p = some (t.tick slices true (k.partition p)).1 ∧
        ((c.commitOffsets slices k).sent.filter fun w => w.partition == p) =
          (t.tick slices true (k.partition p)).2.toList ∧
        S.Exact baseline arrived m (t.tick slices true (k.partition p)).1 ∧ m ∉ arrived ∧
        (m = 0 → (t.tick slices true (k.partition p)).2 = none) ∧
        (k.accepted = true ∨ (t.tick slices true (k.partition p)).2 = none →
          (t.tick slices true (k.partition p)).1.ready = none) := by
  obtain ⟨t, m, ht, hexact⟩ := h.tracker
  obtain ⟨m', hexact', hm', hzero, hready, hret⟩ := hexact.tick slices (k.partition p) hbase
  have hassigned : c.assigned p = true := h.assigned
  obtain ⟨hslice, hsent⟩ := Committer.commitOffsets_slice slices k hc hg flushes commits p
  have hslice' : (c.commitOffsets slices k).committer.slice p =
      ⟨some (t.tick slices true (k.partition p)).1, (c.slice p).assigned,
        (c.slice p).collected ++ t.tickRetired slices true (k.partition p)⟩ := by
    rw [hslice, Slice.update, ht, h.assigned]
  change c.partitionMap p = some t at ht
  rw [ht, hassigned, Option.bind_some] at hsent
  refine ⟨?_, t, m', ht, congrArg Slice.tracker hslice', hsent, hexact', hm', hzero, hready⟩
  rw [hslice']
  exact h.update hexact' hret

end Slices

end Stream

namespace StreamRun

/-! ## Runs -/

section
variable {p : Int} {S : Stream T p} {baseline : Int} {slices : SortFunc (WorkItem T)}
  {r r' : StreamRun T}

structure Inv (S : Stream T p) (baseline : Int) (r : StreamRun T) : Prop where
  keyed : r.committer.Keyed
  slice : S.SliceExact baseline r.before r.arrived (r.committer.slice p)
  exact_ : ∃ t m, r.committer.partitionMap p = some t ∧ S.Exact baseline r.arrived m t ∧
    m ∉ r.arrived
  once : r.arrived.Nodup
  nothing : 0 ∉ r.arrived → r.accepted = []

theorem inv_opened (h : Opened p baseline r) : r.Inv S baseline := by
  obtain ⟨c, hc, hcommitter⟩ := h.opening
  have hreset := Committer.resetCommittedOffsets_slice_same hc (l := [(p, baseline)]) (by simp)
    List.mem_cons_self
  have hmap : r.committer.partitionMap p =
      some (resetCommittedOffset (c.partitionMap p) baseline).1 := by
    rw [hcommitter]
    exact congrArg Slice.tracker hreset
  obtain ⟨hready, hbuffer⟩ := h.empty _ hmap
  have hfields : (resetCommittedOffset (c.partitionMap p) baseline).1.committedPlusOne = baseline ∧
      (resetCommittedOffset (c.partitionMap p) baseline).1.lastCommittedOffset = -1 := by
    cases c.partitionMap p <;> simp [resetCommittedOffset]
  have hexact : S.Exact baseline r.arrived 0 (resetCommittedOffset (c.partitionMap p) baseline).1 := by
    rw [h.arrived]
    exact {
      upTo := by simp
      zero := by simp
      at_ := ⟨hready, hfields.2, hfields.1⟩
      holds := ⟨by simp [hbuffer], by simp, by simp [hbuffer], by simp [hbuffer]⟩
      flag := by simp
      clean := by simp [hready] }
  exact {
    keyed := by
      rw [hcommitter]
      exact (hc.resetCommittedOffsets _).markPartitionAssigned p
    slice := by
      refine ⟨?_, ⟨_, 0, hmap, hexact⟩, [], ?_, by simp⟩
      · rw [hcommitter]
        simp [Committer.slice, Committer.markPartitionAssigned]
      · rw [h.before, List.append_nil]
    exact_ := ⟨_, 0, hmap, hexact, by simp [h.arrived]⟩
    once := by simp [h.arrived]
    nothing := fun _ => h.accepted }

theorem Inv.batch (h : r.Inv S baseline) (hbase : baseline ≤ S.offset 0) {items : List (Nat × Int)}
    {order : List Int} (once : (r.arrived ++ items.map Prod.fst).Nodup)
    (iterates : (ingest S items r.committer).Iterates order) (now : Int) :
    (r.batch slices S items order now).Inv S baseline := by
  obtain ⟨hkeyed, hslice⟩ := h.slice.ingest hbase items h.keyed once
  obtain ⟨hslice', hexact⟩ := hslice.flush hbase slices hkeyed iterates now
  refine ⟨hkeyed.flushGapBuffers slices now order, hslice', hexact, once, ?_⟩
  intro hzero
  apply h.nothing
  intro hmem
  exact hzero (List.mem_append_left _ hmem)

theorem tick_of_guard_failed {k : Tick} (hg : k.guardAcquired = false) :
    r.tick slices p k = r := by
  simp [StreamRun.tick, Committer.commitOffsets, hg]

theorem Inv.tick (h : r.Inv S baseline) (hbase : baseline ≤ S.offset 0)
    (slices : SortFunc (WorkItem T)) {k : Tick} (flushes : r.committer.Iterates k.flushOrder)
    (commits : r.committer.Iterates k.commitOrder) : (r.tick slices p k).Inv S baseline := by
  cases hg : k.guardAcquired with
  | false => rwa [tick_of_guard_failed hg]
  | true =>
    obtain ⟨hslice, t, m, _, hmap, hsent, hexact, hm, hzero, _⟩ :=
      h.slice.tick hbase slices h.keyed hg flushes commits
    refine ⟨h.keyed.commitOffsets slices k, hslice, ⟨_, m, hmap, hexact, hm⟩, h.once, ?_⟩
    intro h0
    -- without record `0` the watermark stands at `0` and nothing is offered
    have hm0 : m = 0 := by
      by_contra hne
      exact h0 (hexact.upTo 0 (by omega))
    simp [StreamRun.tick, hsent, hzero hm0, h.nothing h0]

theorem inv_of_reachable (hbase : baseline ≤ S.offset 0)
    (h : (streamSystem slices S baseline).Reachable r) : r.Inv S baseline := by
  refine System.invariant (P := fun r => r.Inv S baseline) ?_ ?_ r h
  · intro s hs
    exact inv_opened hs
  · intro s s' _ hs hstep
    cases hstep with
    | batch items order now once iterates => exact hs.batch hbase once iterates now
    | tick k flushes commits => exact hs.tick hbase slices flushes commits

theorem completedPrefix_unique {t : OffsetsTracker T} {m k : Nat}
    (h : S.Exact baseline r.arrived m t) (hm : m ∉ r.arrived) (hk : CompletedPrefix r.arrived k) :
    m = k := by
  rcases Nat.lt_trichotomy m k with hlt | heq | hgt
  · exact absurd (hk.1 m hlt) hm
  · exact heq
  · exact absurd (h.upTo k hgt) hk.2

theorem watermark_of_at {t : OffsetsTracker T} {n : Nat} (h : S.At baseline t (n + 1)) :
    t.watermark = S.offset n := by
  rcases h with ⟨r, hr, hrs, _, _⟩ | ⟨hr, hl, _⟩
  · simp [watermark, hr, Stream.offset_of_stamp hrs]
  · simp [watermark, hr, hl]

theorem gapBuffer_perm {t : OffsetsTracker T} {m : Nat} (h : S.Holds r.arrived m t.gapBuffer)
    (once : r.arrived.Nodup) : (t.gapBuffer.map WorkItem.stamp).Perm
      ((r.arrived.filter (m ≤ ·)).map fun i => (S.item i).stamp) := by
  have hinj : Function.Injective fun i => (S.item i).stamp := by
    intro i j hij
    exact S.offset_inj (WorkItem.offset_of_stamp hij)
  have hnodup : (t.gapBuffer.map WorkItem.stamp).Nodup := by
    apply List.Nodup.of_map WorkItem.Stamp.offset
    rw [List.map_map]
    exact h.once
  apply (List.perm_ext_iff_of_nodup hnodup ((once.filter _).map hinj)).mpr
  intro st
  constructor
  · intro hst
    obtain ⟨g, hg, rfl⟩ := List.mem_map.mp hst
    obtain ⟨i, hi, hmi, hgi⟩ := h.mem g hg
    exact List.mem_map.mpr ⟨i, List.mem_filter.mpr ⟨hi, by simpa using hmi⟩, hgi.symm⟩
  · intro hst
    obtain ⟨i, hi, rfl⟩ := List.mem_map.mp hst
    obtain ⟨hi, hmi⟩ := List.mem_filter.mp hi
    obtain ⟨g, hg, hgi⟩ := h.all i hi (by simpa using hmi)
    exact List.mem_map.mpr ⟨g, hg, hgi⟩

/-- A tick without an error leaves no `Ready` behind. -/
theorem Inv.committed_of_tick (h : r.Inv S baseline) (hbase : baseline ≤ S.offset 0) {n : Nat}
    (hk : CompletedPrefix r.arrived (n + 1)) {k : Tick} (flushes : r.committer.Iterates k.flushOrder)
    (commits : r.committer.Iterates k.commitOrder)
    (herr : (r.committer.commitOffsets slices k).error = none) {t : OffsetsTracker T}
    (ht : (r.committer.commitOffsets slices k).committer.partitionMap p = some t) :
    t.committedPlusOne = S.offset n + 1 := by
  obtain ⟨hg, hacc⟩ := Committer.commitOffsets_error_none slices k herr
  obtain ⟨_, t₀, m, _, hmap, hsent, hexact, hm, _, hready⟩ :=
    h.slice.tick hbase slices h.keyed hg flushes commits
  obtain rfl : m = n + 1 := completedPrefix_unique hexact hm hk
  rw [ht, Option.some.injEq] at hmap
  subst hmap
  have hnone : (t₀.tick slices true (k.partition p)).1.ready = none := by
    apply hready
    rcases hacc with hacc | hempty
    · exact .inl hacc
    · right
      rw [hempty, List.filter_nil] at hsent
      exact Option.toList_eq_nil_iff.mp hsent.symm
  rcases hexact.at_ with ⟨q, hq, _⟩ | ⟨_, _, hc⟩
  · rw [hnone] at hq
    cases hq
  · exact hc

end

/-- After every batch and every tick of an epoch the tracker stands exactly behind the
longest completed prefix: the watermark, the gap buffer and an accepted tick say so, no
item is orphaned and the repair changes nothing. -/
theorem watermark_exact {p : Int} (slices : SortFunc (WorkItem T)) (S : Stream T p) (baseline : Int)
    (hbase : baseline < 0 ∨ baseline ≤ S.offset 0) (r : StreamRun T)
    (h : (streamSystem slices S baseline).Reachable r) (k : Nat)
    (hk : CompletedPrefix r.arrived k) :
    ∃ t, r.committer.partitionMap p = some t ∧
      (k = 0 → t.ready = none ∧ r.accepted = []) ∧
      (0 < k → t.watermark = S.offset (k - 1)) ∧
      (t.gapBuffer.map WorkItem.stamp).Perm
        ((r.arrived.filter (k ≤ ·)).map fun i => (S.item i).stamp) ∧
      (0 < k → ∀ c : Tick, r.committer.Iterates c.flushOrder → r.committer.Iterates c.commitOrder →
        (r.committer.commitOffsets slices c).error = none →
        ∀ t', (r.committer.commitOffsets slices c).committer.partitionMap p = some t' →
          t'.committedPlusOne = S.offset (k - 1) + 1) ∧
      (∀ g, t.ready = some g ∨ g ∈ t.gapBuffer ∨ g ∈ r.retired p → g.Clean) ∧
      (∀ now, t.repairSuccessor now = (t, [])) ∧
      ∀ now later, (t.flush slices now).1.repairSuccessor later = ((t.flush slices now).1, []) := by
  have hbase' : baseline ≤ S.offset 0 := by
    have := S.offset_nonneg 0
    omega
  have hinv := inv_of_reachable hbase' h
  obtain ⟨t, m, ht, hexact, hm⟩ := hinv.exact_
  obtain rfl : m = k := completedPrefix_unique hexact hm hk
  obtain ⟨new, hnew, hclean⟩ := hinv.slice.retired
  refine ⟨t, ht, ?_, ?_, gapBuffer_perm hexact.holds hinv.once, ?_, ?_, hexact.repair hm, ?_⟩
  · intro hm0
    have hat := hexact.at_
    rw [hm0] at hat
    exact ⟨hat.1, hinv.nothing (hm0 ▸ hm)⟩
  · intro hpos
    obtain ⟨n, rfl⟩ : ∃ n, m = n + 1 := ⟨m - 1, by omega⟩
    exact watermark_of_at hexact.at_
  · intro hpos c flushes commits herr t' ht'
    obtain ⟨n, rfl⟩ : ∃ n, m = n + 1 := ⟨m - 1, by omega⟩
    exact hinv.committed_of_tick hbase' hk flushes commits herr ht'
  · intro g hg
    rcases hg with hg | hg | hg
    · exact hexact.clean g hg
    · exact hexact.holds.clean g hg
    · rw [StreamRun.retired, hnew, List.drop_left] at hg
      exact hclean g hg
  · intro now later
    obtain ⟨m', hflush, hm', _⟩ := hexact.flush slices hbase' now
    exact hflush.repair hm' later

/-- The records at the even offsets of partition `0`. -/
def evens : Stream Unit 0 where
  item i := {
    ptr := i
    message := { partition := 0, offset := 2 * i }
    previousOffset := if i = 0 then -1 else 2 * i - 2
    first := decide (i = 0) }
  prev i := if i = 0 then {} else ⟨Function.update (fun _ => none) 0 (some (2 * i - 2))⟩
  opened := rfl
  stamped := by
    intro i
    cases i with
    | zero => rfl
    | succ n =>
      have hpos : ¬ (2 * ((n : Int) + 1) < 0) := by omega
      have hgt : 2 * ((n : Int) + 1) > 2 * (n + 1) - 2 := by omega
      have hsucc : 2 * ((n : Int) + 1 + 1) - 2 = 2 * (n + 1) := by omega
      simp [Prev.PartitionOffsets.getPrevious, WorkItem.offset, hpos, hgt, hsucc]
  partition _ := rfl
  clean _ := rfl

def evensOpened : StreamRun Unit where
  committer := (({} : Committer Unit).resetCommittedOffsets [(0, -1)]).markPartitionAssigned 0
  before := []

/-- Offset `2` completes before offset `0`. -/
def evensCompleted : StreamRun Unit :=
  evensOpened.batch (SortFunc.insertion _) evens [(1, 0), (0, 0)] [0] 0

theorem evensOpened_iterates : (ingest evens [(1, 0), (0, 0)] evensOpened.committer).Iterates [0] := by
  refine ⟨by decide, ?_⟩
  intro q
  by_cases hq : q = 0
  · subst hq
    decide
  · simp [hq, ingest, evensOpened, Committer.processCommit, evens, WorkItem.partition,
      Committer.markPartitionAssigned, Committer.resetCommittedOffsets, Committer.resetPartition]

theorem evensCompleted_reachable :
    (streamSystem (SortFunc.insertion (WorkItem Unit)) evens (-1)).Reachable evensCompleted := by
  have h0 : (streamSystem (SortFunc.insertion (WorkItem Unit)) evens (-1)).Reachable evensOpened := by
    apply System.Reachable.init
    refine ⟨⟨{}, ?_, rfl⟩, ?_, rfl, rfl, rfl⟩
    · intro q t ht
      cases ht
    · intro t ht
      cases ht
      exact ⟨rfl, rfl⟩
  exact h0.step (Step.batch _ [(1, 0), (0, 0)] [0] 0 (by decide) evensOpened_iterates)

theorem watermark_exact_sample :
    CompletedPrefix evensCompleted.arrived 2 ∧
      ∃ t, evensCompleted.committer.partitionMap 0 = some t ∧ t.watermark = 2 := by
  have hk : CompletedPrefix evensCompleted.arrived 2 := by
    refine ⟨?_, by decide⟩
    intro i hi
    have hor : i = 0 ∨ i = 1 := by omega
    rcases hor with rfl | rfl
    · decide
    · decide
  obtain ⟨t, ht, _, hw, _⟩ := watermark_exact _ evens (-1) (.inl (by decide)) evensCompleted
    evensCompleted_reachable 2 hk
  exact ⟨hk, t, ht, hw (by decide)⟩

end StreamRun

end LlingrDemux.Offset
