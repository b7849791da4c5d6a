import LlingrDemux.Offset.Calls

/-!
# The pre-commit snapshot

`PreCommitsSnapshot` reports for every partition the committed offset and the highest
ready one. Without a `Ready` item the two are the same number, but only the first is
clamped, so a baseline below zero shows up in the second. A `First` item that raises the
baseline over a `Ready` item turns the two around as well. `Call.Grounded` says which calls
do neither. One baseline has no predecessor at all: below the least `int64` the committed offset
wraps to the greatest. The time of the last rebalance, which the snapshot copies, is left out.
-/

namespace LlingrDemux.Snapshot

open Offset Offset.OffsetsTracker Shared
set_option autoImplicit false

variable {T : Type}

structure PartitionSnapshot where
  partition : Int
  committedOffset : Int
  highestReadyOffset : Int
  maxOffsetSeen : Int
  gapBufferDepth : Nat
  assigned : Bool
  deriving DecidableEq, Repr

def partitionSnapshot (partition : Int) (tracker : OffsetsTracker T) : PartitionSnapshot :=
  let committedOffset := int64 (tracker.committedPlusOne - 1)
  let readyOffset :=
    match tracker.ready with
    | none => committedOffset
    | some r => r.offset
  { partition := partition
    committedOffset := if committedOffset < -1 then -1 else committedOffset
    highestReadyOffset := readyOffset
    maxOffsetSeen := tracker.maxOffsetSeen
    gapBufferDepth := tracker.gapBuffer.length
    assigned := decide (tracker.assignment = .assign) }

/-- The entries in the order in which the loop visits the partition map. -/
def preCommitsSnapshot (c : Committer T) (order : List Int) : List PartitionSnapshot :=
  order.filterMap fun p => (c.partitionMap p).map (partitionSnapshot p)

/-- Every entry of a snapshot, in whatever order, has its ready offset at or above the
committed one, which is at least -1, and equal to it without a `Ready` item. -/
def SelfConsistent (c : Committer T) : Prop :=
  ∀ order, ∀ e ∈ preCommitsSnapshot c order,
    e.highestReadyOffset ≥ e.committedOffset ∧ e.committedOffset ≥ -1 ∧
      ∀ t, c.partitionMap e.partition = some t → t.ready = none →
        e.highestReadyOffset = e.committedOffset

/-- The same of one tracker. -/
structure Consistent (t : OffsetsTracker T) : Prop where
  empty : t.ready = none → 0 ≤ t.committedPlusOne
  ready : ∀ r, t.ready = some r → t.committedPlusOne ≤ r.offset + 1 ∧ -1 ≤ r.offset

theorem consistent_iff_of_empty {t : OffsetsTracker T} (hr : t.ready = none) :
    Consistent t ↔ 0 ≤ t.committedPlusOne := by
  constructor
  · intro h
    exact h.empty hr
  · intro h
    refine ⟨fun _ => h, ?_⟩
    intro r he
    rw [hr] at he
    cases he

theorem consistent_iff_of_ready {t : OffsetsTracker T} {r : WorkItem T} (hr : t.ready = some r) :
    Consistent t ↔ t.committedPlusOne ≤ r.offset + 1 ∧ -1 ≤ r.offset := by
  constructor
  · intro h
    exact h.ready r hr
  · intro h
    refine ⟨?_, ?_⟩
    · intro he
      rw [hr] at he
      cases he
    · intro x hx
      obtain rfl := Option.some.inj (hx.symm.trans hr)
      exact h

/-- Offsets are `int64` and have a next one, and the baseline has a previous one. -/
structure Ranged (t : OffsetsTracker T) : Prop where
  items : AllItems (fun s => 0 ≤ s.offset ∧ s.offset < maxInt64) t
  low : minInt64 < t.committedPlusOne
  high : t.committedPlusOne ≤ maxInt64

theorem Ranged.int64_eq {t : OffsetsTracker T} (h : Ranged t) :
    int64 (t.committedPlusOne - 1) = t.committedPlusOne - 1 := by
  obtain ⟨_, hlow, hhigh⟩ := h
  exact int64_of_range (by omega) (by omega)

theorem partitionSnapshot_iff (p : Int) {t : OffsetsTracker T} (ranged : Ranged t) :
    ((partitionSnapshot p t).highestReadyOffset ≥ (partitionSnapshot p t).committedOffset ∧
      (partitionSnapshot p t).committedOffset ≥ -1 ∧
      (t.ready = none →
        (partitionSnapshot p t).highestReadyOffset = (partitionSnapshot p t).committedOffset)) ↔
    Consistent t := by
  unfold partitionSnapshot
  rw [ranged.int64_eq]
  cases hr : t.ready with
  | none =>
    rw [consistent_iff_of_empty hr]
    simp only [true_implies]
    split <;> omega
  | some r =>
    rw [consistent_iff_of_ready hr]
    simp only [reduceCtorEq, false_implies, and_true]
    split <;> omega

theorem selfConsistent_iff {c : Committer T}
    (ranged : ∀ p t, c.partitionMap p = some t → Ranged t) :
    SelfConsistent c ↔ ∀ p t, c.partitionMap p = some t → Consistent t := by
  constructor
  · intro h p t ht
    have hmem : partitionSnapshot p t ∈ preCommitsSnapshot c [p] := by
      simp [preCommitsSnapshot, ht]
    obtain ⟨h1, h2, h3⟩ := h [p] _ hmem
    exact (partitionSnapshot_iff p (ranged p t ht)).mp ⟨h1, h2, h3 t ht⟩
  · intro h order e he
    obtain ⟨p, _, hp⟩ := List.mem_filterMap.mp he
    obtain ⟨t, ht, rfl⟩ := Option.map_eq_some_iff.mp hp
    obtain ⟨h1, h2, h3⟩ := (partitionSnapshot_iff p (ranged p t ht)).mpr (h p t ht)
    refine ⟨h1, h2, ?_⟩
    intro t' ht'
    obtain rfl := Option.some.inj (ht.symm.trans ht')
    exact h3

/-- A consistent tracker whose items all have real offsets. -/
structure Steady (t : OffsetsTracker T) : Prop where
  consistent : Consistent t
  numbered : AllItems (fun s => 0 ≤ s.offset) t

section Operations
variable {t : OffsetsTracker T} {slices : SortFunc (WorkItem T)} {now : Int}

theorem walk_above (cpo last now : Int) (ready : Option (WorkItem T)) (l : List (WorkItem T))
    (h : ∀ r, ready = some r → cpo ≤ r.offset + 1) :
    (∀ r, (walk cpo last now ready l).ready = some r → cpo ≤ r.offset + 1) ∧
      ((walk cpo last now ready l).ready = none → ready = none) := by
  fun_induction walk cpo last now ready l with
  | case1 ready => exact ⟨h, fun hn => hn⟩
  | case2 g gs hlt q ih => exact ih h
  | case3 g gs hge hinit ih =>
    refine ⟨(ih ?_).1, fun _ => rfl⟩
    intro r hr
    cases hr
    show cpo ≤ g.offset + 1
    omega
  | case4 g gs => exact ⟨h, fun hn => hn⟩
  | case5 r g gs hle q ih => exact ih h
  | case6 r g gs hlt hlink q ih =>
    have hr := h r rfl
    obtain ⟨habove, hnone⟩ := ih (by
      intro x hx
      cases hx
      show cpo ≤ g.offset + 1
      omega)
    exact ⟨habove, fun hn => absurd (hnone hn) (Option.some_ne_none _)⟩
  | case7 r g gs => exact ⟨h, fun hn => hn⟩

theorem Steady.flush (h : Steady t) (slices : SortFunc (WorkItem T)) (now : Int) :
    Steady (t.flush slices now).1 := by
  have hitems := flush_allItems slices h.numbered now
  refine ⟨?_, hitems⟩
  unfold OffsetsTracker.flush at hitems ⊢
  split_ifs at hitems ⊢
  · exact h.consistent
  · exact ⟨h.consistent.empty, h.consistent.ready⟩
  · obtain ⟨habove, hnone⟩ := walk_above t.committedPlusOne t.lastCommittedOffset now t.ready
      (sortGapBuffer slices t.gapBuffer) fun r hr => (h.consistent.ready r hr).1
    refine ⟨fun hn => h.consistent.empty (hnone hn), ?_⟩
    intro r hr
    have hge : 0 ≤ r.offset := hitems.ready r hr
    exact ⟨habove r hr, by omega⟩

theorem Steady.repairSuccessor (h : Steady t) (now : Int) : Steady (t.repairSuccessor now).1 := by
  have hitems := repairSuccessor_allItems h.numbered now
  refine ⟨?_, hitems⟩
  rcases repairSuccessor_cases t now with ⟨heq, _⟩ | ⟨s, hs, _, _, _, heq⟩
  · rw [heq]
    exact h.consistent
  · obtain ⟨hmem, ⟨habove, _⟩, _⟩ := findSuccessor_some hs
    have hge : 0 ≤ s.offset := h.numbered.buffer s hmem
    rw [heq, consistent_iff_of_ready rfl]
    show t.committedPlusOne ≤ s.offset + 1 ∧ -1 ≤ s.offset
    omega

/-- The tick keeps an assigned tracker consistent; the one it empties because its partition
is not assigned shows its baseline. -/
theorem collectCommit_consistent_iff (h : Steady t) (assigned : Bool) (now : Int) :
    Consistent (t.collectCommit assigned now).1 ↔ (assigned = false → 0 ≤ t.committedPlusOne) := by
  cases assigned with
  | false =>
    simp only [collectCommit, Bool.not_false, if_true, discardOrphanedTracker, true_implies]
    split_ifs with hempty
    · exact consistent_iff_of_empty (Option.isNone_iff_eq_none.mp hempty.1)
    · exact consistent_iff_of_empty rfl
  | true =>
    have hrepair := h.repairSuccessor now
    simp only [reduceCtorEq, false_implies, iff_true]
    rcases collectCommit_cases t now with ⟨_, heq, _⟩ | ⟨w, hw, hlt, heq, _⟩ | ⟨w, _, _, heq, _⟩
    · rw [heq]
      exact hrepair.consistent
    · have hge : 0 ≤ w.offset := hrepair.numbered.ready w hw
      rw [heq, consistent_iff_of_empty rfl]
      show 0 ≤ (t.repairSuccessor now).1.committedPlusOne
      rw [repairSuccessor_committedPlusOne]
      omega
    · rw [heq]
      exact hrepair.consistent

theorem tick_consistent_iff (h : Steady t) (assigned : Bool) (k : PartitionTick) :
    Consistent (t.tick slices assigned k).1 ↔ (assigned = false → 0 ≤ t.committedPlusOne) := by
  have hflush := h.flush slices k.flushTime
  have hcollect := collectCommit_consistent_iff hflush assigned k.repairTime
  rw [flush_committedPlusOne] at hcollect
  cases hoff : ((t.flush slices k.flushTime).1.collectCommit assigned k.repairTime).2.2 with
  | none =>
    rw [tick_of_none slices k t hoff]
    exact hcollect
  | some m =>
    have hoffered : (t.tick slices assigned k).2 = some m := by
      rw [tick_of_some slices k t hoff]
    obtain ⟨rfl, hge⟩ := tick_offered h.numbered slices hoffered
    rw [tick_of_some slices k t hoff]
    cases k.accepted with
    | false => exact hcollect
    | true =>
      simp only [reduceCtorEq, false_implies, iff_true, if_true]
      rw [consistent_iff_of_empty rfl]
      simp only [acceptCommit]
      have : 0 ≤ m.offset := hge
      split <;> omega

theorem checkAndAdvance_consistent_of_empty {w : WorkItem T} (hw : 0 ≤ w.offset)
    (hr : t.ready = none) :
    Consistent (t.checkAndAdvance w now).1 ↔ 0 ≤ t.committedPlusOne := by
  rcases checkAndAdvance_cases t w now with
    ⟨_, heq, _, ⟨_, hcpo⟩ | ⟨r, hsome, _⟩⟩ | ⟨heq, _⟩ | ⟨_, heq, _⟩
  · rw [heq, consistent_iff_of_ready rfl]
    show t.committedPlusOne ≤ w.offset + 1 ∧ -1 ≤ w.offset ↔ _
    omega
  · rw [hr] at hsome
    cases hsome
  · rw [heq]
    exact consistent_iff_of_empty hr
  · rw [heq]
    exact consistent_iff_of_empty hr

theorem checkAndAdvance_consistent_of_ready {w r : WorkItem T} (hw : 0 ≤ w.offset)
    (hr : t.ready = some r) (hge : 0 ≤ r.offset) :
    Consistent (t.checkAndAdvance w now).1 ↔ t.committedPlusOne ≤ r.offset + 1 ∨
      (r.offset = w.previousOffset ∧ r.offset ≤ w.offset ∧ t.committedPlusOne ≤ w.offset + 1) := by
  rcases checkAndAdvance_cases t w now with
    ⟨_, heq, _, ⟨hnone, _⟩ | ⟨x, hx, hle, hlink⟩⟩ |
    ⟨heq, ⟨hnone, _⟩ | ⟨x, hx, hlt⟩⟩ | ⟨_, heq, ⟨hnone, _⟩ | ⟨x, hx, hlt, hlink, _⟩⟩
  · rw [hr] at hnone
    cases hnone
  · obtain rfl := Option.some.inj (hr.symm.trans hx)
    rw [heq, consistent_iff_of_ready rfl]
    show t.committedPlusOne ≤ w.offset + 1 ∧ -1 ≤ w.offset ↔ _
    omega
  · rw [hr] at hnone
    cases hnone
  · obtain rfl := Option.some.inj (hr.symm.trans hx)
    rw [heq, consistent_iff_of_ready hr]
    omega
  · rw [hr] at hnone
    cases hnone
  · obtain rfl := Option.some.inj (hr.symm.trans hx)
    rw [heq, consistent_iff_of_ready (by exact hr)]
    show t.committedPlusOne ≤ r.offset + 1 ∧ -1 ≤ r.offset ↔ _
    omega

/-! ## The baseline stays in range -/

theorem collectCommit_committedPlusOne (assigned : Bool) (now : Int) :
    (t.collectCommit assigned now).1.committedPlusOne = t.committedPlusOne := by
  cases assigned with
  | false =>
    simp only [collectCommit, Bool.not_false, if_true, discardOrphanedTracker]
    split_ifs <;> rfl
  | true =>
    rcases collectCommit_cases t now with ⟨_, heq, _⟩ | ⟨w, _, _, heq, _⟩ | ⟨w, _, _, heq, _⟩
    all_goals
      rw [heq]
      exact repairSuccessor_committedPlusOne t now

theorem Ranged.flush (h : Ranged t) (slices : SortFunc (WorkItem T)) (now : Int) :
    Ranged (t.flush slices now).1 := by
  refine ⟨flush_allItems slices h.items now, ?_, ?_⟩
  · rw [flush_committedPlusOne]
    exact h.low
  · rw [flush_committedPlusOne]
    exact h.high

/-- An accepted item raises the baseline to the offset behind it. -/
theorem tick_committedPlusOne (slices : SortFunc (WorkItem T)) (assigned : Bool)
    (k : PartitionTick) : (t.tick slices assigned k).1.committedPlusOne = t.committedPlusOne ∨
      ∃ m, (t.tick slices assigned k).2 = some m ∧
        (t.tick slices assigned k).1.committedPlusOne = m.offset + 1 := by
  have hcollect : ((t.flush slices k.flushTime).1.collectCommit assigned
      k.repairTime).1.committedPlusOne = t.committedPlusOne := by
    rw [collectCommit_committedPlusOne, flush_committedPlusOne]
  cases hoff : ((t.flush slices k.flushTime).1.collectCommit assigned k.repairTime).2.2 with
  | none =>
    rw [tick_of_none slices k t hoff]
    exact .inl hcollect
  | some m =>
    rw [tick_of_some slices k t hoff]
    cases k.accepted with
    | false => exact .inl hcollect
    | true =>
      simp only [if_true, acceptCommit, hcollect]
      split_ifs
      · exact .inr ⟨m, rfl, rfl⟩
      · exact .inl rfl

theorem Ranged.tick (h : Ranged t) (slices : SortFunc (WorkItem T)) (assigned : Bool)
    (k : PartitionTick) : Ranged (t.tick slices assigned k).1 := by
  have hitems := tick_allItems h.items slices assigned k
  rcases tick_committedPlusOne (t := t) slices assigned k with heq | ⟨m, hm, heq⟩
  · exact ⟨hitems, heq ▸ h.low, heq ▸ h.high⟩
  · obtain ⟨hge, hlt⟩ := (tick_offered h.items slices hm).2
    refine ⟨hitems, ?_, ?_⟩
    · rw [heq]
      have hneg : minInt64 < 0 := by decide
      exact hneg.trans (Int.lt_add_one_of_le hge)
    · rw [heq]
      exact hlt

/-- The baseline after an arrival: its offset, or what it was. -/
theorem processCommit_committedPlusOne (o : Option (OffsetsTracker T)) (w : WorkItem T) (now : Int) :
    (OffsetsTracker.processCommit o w now).1.committedPlusOne = w.offset ∨
      (OffsetsTracker.processCommit o w now).1.committedPlusOne = -1 ∨
      ∃ t, o = some t ∧
        (OffsetsTracker.processCommit o w now).1.committedPlusOne = t.committedPlusOne := by
  rw [OffsetsTracker.processCommit, checkAndAdvance_committedPlusOne]
  cases o with
  | none =>
    rw [arrive, raiseFromFirst_eq]
    dsimp only
    split_ifs
    · exact .inl rfl
    · exact .inr (.inl rfl)
  | some t =>
    obtain ⟨lo, hi, heq⟩ := arrive_some_eq t w
    rw [heq]
    dsimp only
    split_ifs
    · exact .inl rfl
    · exact .inr (.inr ⟨t, rfl, rfl⟩)

theorem processCommit_ranged {o : Option (OffsetsTracker T)} (h : ∀ t, o = some t → Ranged t)
    {w : WorkItem T} (hw : 0 ≤ w.offset ∧ w.offset < maxInt64) :
    Ranged (OffsetsTracker.processCommit o w now).1 := by
  have hitems := (processCommit_keeps o (fun t ht => (h t ht).items) hw now).items
  have hneg : minInt64 < -1 ∧ (-1 : Int) ≤ maxInt64 := by decide
  rcases processCommit_committedPlusOne o w now with heq | heq | ⟨t, ht, heq⟩
  · exact ⟨hitems, by omega, by omega⟩
  · exact ⟨hitems, by omega, by omega⟩
  · have hlow := (h t ht).low
    have hhigh := (h t ht).high
    exact ⟨hitems, by omega, by omega⟩

theorem resetCommittedOffset_ranged {o : Option (OffsetsTracker T)} (h : ∀ t, o = some t → Ranged t)
    {committedOffset : Int} (hb : minInt64 < committedOffset ∧ committedOffset ≤ maxInt64) :
    Ranged (resetCommittedOffset o committedOffset).1 := by
  cases o with
  | none => exact ⟨⟨by simp [resetCommittedOffset], by simp [resetCommittedOffset]⟩, hb.1, hb.2⟩
  | some t => exact ⟨resetCommittedOffset_allItems (h t rfl).items committedOffset, hb.1, hb.2⟩

/-! ## Which calls keep it -/

/-- A new partition has to open with a `First` item, and a `First` item must not jump over a
`Ready` one that it does not follow. -/
def Opens (o : Option (OffsetsTracker T)) (w : WorkItem T) : Prop :=
  match o with
  | none => w.first = true
  | some t => ∀ r, t.ready = some r → w.first = true → r.offset + 1 < w.offset →
      w.previousOffset = r.offset

theorem processCommit_consistent_iff {o : Option (OffsetsTracker T)}
    (h : ∀ t, o = some t → Steady t) {w : WorkItem T} (hw : 0 ≤ w.offset) :
    Consistent (OffsetsTracker.processCommit o w now).1 ↔ Opens o w := by
  have hw' : 0 ≤ (markFirst w).offset := by rwa [offset_markFirst]
  unfold OffsetsTracker.processCommit
  cases o with
  | none =>
    have hready : (arrive none w).ready = none := by rw [arrive, raiseFromFirst_eq]; rfl
    have hcpo : (arrive none w).committedPlusOne =
        if w.first ∧ w.offset ≥ -1 then w.offset else -1 := by rw [arrive, raiseFromFirst_eq]; rfl
    rw [checkAndAdvance_consistent_of_empty hw' hready, hcpo]
    show _ ↔ w.first = true
    split_ifs with hfirst
    · exact ⟨fun _ => hfirst.1, fun _ => hw⟩
    · exact ⟨fun hneg => by omega, fun hf => absurd ⟨hf, by omega⟩ hfirst⟩
  | some t =>
    obtain ⟨hcons, hitems⟩ := h t rfl
    obtain ⟨lo, hi, heq⟩ := arrive_some_eq t w
    have hready : (arrive (some t) w).ready = t.ready := by rw [heq]
    have hcpo : (arrive (some t) w).committedPlusOne =
        if w.first ∧ w.offset ≥ t.committedPlusOne then w.offset else t.committedPlusOne := by
      rw [heq]
    simp only [Opens]
    cases hr : t.ready with
    | none =>
      have hpos := hcons.empty hr
      rw [checkAndAdvance_consistent_of_empty hw' (hready.trans hr), hcpo]
      simp only [reduceCtorEq, false_implies, implies_true, iff_true]
      split <;> omega
    | some r =>
      have hge : 0 ≤ r.offset := hitems.ready r hr
      have hle := (hcons.ready r hr).1
      rw [checkAndAdvance_consistent_of_ready hw' (hready.trans hr) hge, hcpo]
      simp only [offset_markFirst, previousOffset_markFirst, Option.some.injEq, forall_eq']
      split_ifs with hfirst
      · simp only [hfirst.1, true_implies]
        omega
      · refine ⟨fun _ hf => ?_, fun _ => .inl hle⟩
        have : ¬ w.offset ≥ t.committedPlusOne := fun hge => hfirst ⟨hf, hge⟩
        omega

/-- A baseline below zero does no harm under a `Ready` item that stays. -/
def Grounds (o : Option (OffsetsTracker T)) (committedOffset : Int) : Prop :=
  0 ≤ committedOffset ∨ ∃ t, o = some t ∧ t.assignment ≠ .revoke ∧ t.ready.isSome

theorem resetCommittedOffset_consistent_iff {o : Option (OffsetsTracker T)}
    (h : ∀ t, o = some t → Steady t) (committedOffset : Int) :
    Consistent (resetCommittedOffset o committedOffset).1 ↔ Grounds o committedOffset := by
  unfold Grounds
  cases o with
  | none =>
    rw [consistent_iff_of_empty rfl]
    simp [resetCommittedOffset]
  | some t =>
    have hs := h t rfl
    by_cases hrevoked : t.assignment = .revoke
    · rw [consistent_iff_of_empty (by simp [resetCommittedOffset, hrevoked])]
      simp [resetCommittedOffset, hrevoked]
    · cases hr : t.ready with
      | none =>
        rw [consistent_iff_of_empty (by simp [resetCommittedOffset, hr])]
        simp [resetCommittedOffset, hr]
      | some r =>
        have hge : 0 ≤ r.offset := hs.numbered.ready r hr
        by_cases hlt : r.offset < committedOffset
        · rw [consistent_iff_of_empty (by simp [resetCommittedOffset, hr, hlt])]
          simp [resetCommittedOffset, hr, hrevoked]
          omega
        · rw [consistent_iff_of_ready (r := r) (by simp [resetCommittedOffset, hr, hlt, hrevoked])]
          simp [resetCommittedOffset, hr, hrevoked]
          omega

end Operations

/-- The offsets of work items are real: `GetPrevious` lets no others into the pipeline. Baselines
are `int64` and not the least one. -/
structure Numbered (call : Call T) : Prop where
  offsets : ∀ w ∈ call.ingested, 0 ≤ w.offset ∧ w.offset < maxInt64
  baselines : ∀ l, call = .resetCommittedOffsets l → ∀ r ∈ l, minInt64 < r.2 ∧ r.2 ≤ maxInt64

/-- The condition on a call, in the state that it finds. -/
def Grounded (c : Committer T) : Call T → Prop
  | .processCommit w _ => Opens (c.partitionMap w.partition) w
  | .commitOffsets k => k.guardAcquired = true → ∀ p t, c.partitionMap p = some t →
      c.assigned p = false → 0 ≤ t.committedPlusOne
  | .resetCommittedOffsets l => ∀ r ∈ l, Grounds (c.partitionMap r.1) r.2
  | .flushGapBuffers _ _ | .markPartitionAssigned _ | .markPartitionRevoked _ => True

/-- The same as one partition sees it. -/
def GroundedAt (p : Int) (s : Slice T) : Call T → Prop
  | .processCommit w _ => w.partition = p → Opens s.tracker w
  | .commitOffsets k => k.guardAcquired = true → ∀ t, s.tracker = some t →
      s.assigned = false → 0 ≤ t.committedPlusOne
  | .resetCommittedOffsets l => ∀ r, (l.find? fun r => r.1 == p) = some r → Grounds s.tracker r.2
  | .flushGapBuffers _ _ | .markPartitionAssigned _ | .markPartitionRevoked _ => True

theorem grounded_iff {c : Committer T} {call : Call T} (legal : call.Legal c) :
    Grounded c call ↔ ∀ p, GroundedAt p (c.slice p) call := by
  cases call with
  | processCommit w now =>
    constructor
    · rintro h p rfl
      exact h
    · exact fun h => h w.partition rfl
  | commitOffsets k => exact ⟨fun h p hg => h hg p, fun h hg p => h p hg⟩
  | resetCommittedOffsets l =>
    constructor
    · intro h p r hr
      have hp : r.1 = p := by simpa using List.find?_some hr
      exact hp ▸ h r (List.mem_of_find?_eq_some hr)
    · intro h r hr
      cases hfind : l.find? fun x => x.1 == r.1 with
      | none => simpa using List.find?_eq_none.mp hfind r hr
      | some x =>
        have hx : x.1 = r.1 := by simpa using List.find?_some hfind
        obtain rfl := List.inj_on_of_nodup_map legal (List.mem_of_find?_eq_some hfind) hr hx
        exact h x.1 x hfind
  | flushGapBuffers order now | markPartitionAssigned q | markPartitionRevoked q =>
    exact ⟨fun _ _ => trivial, fun _ => trivial⟩

section Steps
variable {slices : SortFunc (WorkItem T)} {p : Int} {s : Slice T} {call : Call T}

theorem forall_some_iff {α : Type} {P : α → Prop} {x : α} :
    (∀ y, some x = some y → P y) ↔ P x := by
  constructor
  · exact fun h => h x rfl
  · rintro h _ ⟨⟩
    exact h

theorem step_consistent_iff (slices : SortFunc (WorkItem T)) (p : Int)
    (hs : ∀ t, s.tracker = some t → Steady t) (hn : Numbered call) :
    (∀ t, (s.step slices p call).tracker = some t → Consistent t) ↔ GroundedAt p s call := by
  have hcons : ∀ t, s.tracker = some t → Consistent t := fun t ht => (hs t ht).consistent
  cases call with
  | processCommit w now =>
    simp only [Slice.step, GroundedAt]
    split_ifs with hp
    · simp only [hp, true_implies]
      rw [forall_some_iff]
      exact processCommit_consistent_iff hs (hn.offsets w List.mem_cons_self).1
    · simp only [hp, false_implies, iff_true]
      exact hcons
  | flushGapBuffers order now =>
    simp only [Slice.step, GroundedAt, iff_true, Slice.update]
    split
    · exact hcons
    · rename_i t ht
      rw [forall_some_iff]
      exact ((hs t ht).flush _ _).consistent
  | commitOffsets k =>
    simp only [Slice.step, GroundedAt]
    split_ifs with hg
    · simp only [hg, true_implies, Slice.update]
      split
      · rename_i hnone
        simp only [hnone, reduceCtorEq, false_implies, implies_true]
      · rename_i t ht
        rw [forall_some_iff, ht, forall_some_iff]
        exact tick_consistent_iff (hs t ht) s.assigned _
    · exact ⟨fun _ hacquired => absurd hacquired hg, fun _ => hcons⟩
  | resetCommittedOffsets l =>
    simp only [Slice.step, GroundedAt]
    split
    · rename_i hnone
      simp only [hnone, reduceCtorEq, false_implies, implies_true, iff_true]
      exact hcons
    · rename_i r hr
      rw [forall_some_iff, hr, forall_some_iff]
      exact resetCommittedOffset_consistent_iff hs r.2
  | markPartitionAssigned q =>
    simp only [Slice.step, GroundedAt, iff_true]
    split_ifs
    · exact hcons
    · exact hcons
  | markPartitionRevoked q =>
    simp only [Slice.step, GroundedAt, iff_true]
    split_ifs
    · intro t ht
      obtain ⟨t₀, ht₀, rfl⟩ := Option.map_eq_some_iff.mp ht
      obtain ⟨hempty, hready⟩ := hcons t₀ ht₀
      exact ⟨hempty, hready⟩
    · exact hcons

theorem step_ranged (h : s.Keeps Ranged fun _ => True) (hn : Numbered call) :
    (s.step slices p call).Keeps Ranged fun _ => True := by
  refine h.step slices p call ?_ ?_ ?_ ?_
    (fun t ht => ⟨⟨ht.items.ready, ht.items.buffer⟩, ht.low, ht.high⟩)
  · rintro w now rfl
    exact ⟨processCommit_ranged h.tracker (hn.offsets w List.mem_cons_self), fun _ _ => trivial⟩
  · exact fun _ now t _ ht => ⟨(h.tracker t ht).flush slices now, fun _ _ => trivial⟩
  · exact fun k t _ _ ht => ⟨(h.tracker t ht).tick slices _ _, fun _ _ => trivial⟩
  · rintro l r rfl hr _
    exact ⟨resetCommittedOffset_ranged h.tracker (hn.baselines l rfl r hr), fun _ _ => trivial⟩

end Steps

/-- The calls of a run that keeps its snapshots consistent. -/
def Allowed (c : Committer T) (call : Call T) : Prop :=
  call.Legal c ∧ Numbered call ∧ Grounded c call

section Runs
variable {slices : SortFunc (WorkItem T)} {h : History T}

theorem run_ranged (slices : SortFunc (WorkItem T)) {c : Committer T} {call : Call T} (hk : c.Keyed)
    (ranged : ∀ p t, c.partitionMap p = some t → Ranged t) (legal : call.Legal c)
    (hn : Numbered call) (p : Int) (t : OffsetsTracker T)
    (ht : (call.run slices c).partitionMap p = some t) : Ranged t := by
  have hslice : (c.slice p).Keeps Ranged fun _ => True := ⟨ranged p, fun _ _ => trivial⟩
  have hranged : ((c.slice p).step slices p call).Keeps Ranged fun _ => True :=
    step_ranged hslice hn
  apply hranged.tracker t
  rw [← Committer.run_slice hk slices legal p]
  exact ht

theorem run_selfConsistent_iff (slices : SortFunc (WorkItem T)) {c : Committer T}
    {call : Call T} (hk : c.Keyed) (hs : ∀ p t, c.partitionMap p = some t → Steady t)
    (ranged : ∀ p t, c.partitionMap p = some t → Ranged t)
    (legal : call.Legal c) (hn : Numbered call) :
    SelfConsistent (call.run slices c) ↔ Grounded c call := by
  rw [selfConsistent_iff (run_ranged slices hk ranged legal hn), grounded_iff legal]
  refine forall_congr' fun p => ?_
  have hsteady : ∀ t, (c.slice p).tracker = some t → Steady t := hs p
  rw [← step_consistent_iff slices p hsteady hn, ← Committer.run_slice hk slices legal p]
  rfl

theorem ranged_of_reachable (hr : (callSystem slices Allowed).Reachable h) (p : Int)
    (t : OffsetsTracker T) (ht : h.committer.partitionMap p = some t) : Ranged t := by
  have hkeeps : (h.committer.slice p).Keeps Ranged fun _ => True := by
    apply History.slice_invariant p (fun _ _ ha => ha.1) .empty _ hr
    exact fun c call ha hs => step_ranged hs ha.2.1
  exact hkeeps.tracker t ht

theorem steady_of_reachable (hr : (callSystem slices Allowed).Reachable h) :
    ∀ p t, h.committer.partitionMap p = some t → Steady t := by
  refine System.invariant (P := fun h : History T => ∀ p t,
    h.committer.partitionMap p = some t → Steady t) ?_ ?_ h hr
  · rintro _ rfl p t ht
    cases ht
  · intro h h' hreach ih hstep p t ht
    have hranged := ranged_of_reachable (hreach.step hstep)
    obtain ⟨call, ⟨hlegal, hnumbered, hgrounded⟩, rfl⟩ := hstep
    have hself := (run_selfConsistent_iff slices
      (Committer.Keyed.of_reachable hreach) ih (ranged_of_reachable hreach) hlegal
      hnumbered).mpr hgrounded
    have hitems := (hranged p t ht).items
    exact ⟨(selfConsistent_iff hranged).mp hself p t ht,
      fun r hr => (hitems.ready r hr).1, fun g hg => (hitems.buffer g hg).1⟩

/-- As long as every call is grounded every snapshot is consistent, and the first call that
is not grounded breaks that. -/
theorem preCommitsSnapshot_consistent (hr : (callSystem slices Allowed).Reachable h) :
    SelfConsistent h.committer ∧
      ∀ call, call.Legal h.committer → Numbered call →
        (SelfConsistent (call.run slices h.committer) ↔ Grounded h.committer call) := by
  have hsteady := steady_of_reachable hr
  have hranged := ranged_of_reachable hr
  refine ⟨(selfConsistent_iff hranged).mpr fun p t ht => (hsteady p t ht).consistent, ?_⟩
  intro call hlegal hnumbered
  exact run_selfConsistent_iff slices (Committer.Keyed.of_reachable hr) hsteady hranged hlegal
    hnumbered

end Runs

/-- The first record of partition 0 after a reset to its offset. -/
def resumedItem : WorkItem Unit where
  ptr := 0
  message := { partition := 0, offset := 100 }
  previousOffset := 99
  first := true

def resumedHistory : History Unit :=
  [Call.resetCommittedOffsets [(0, 100)], Call.processCommit resumedItem 1].foldl
    (History.record (SortFunc.insertion (WorkItem Unit))) {}

theorem resumedHistory_reachable :
    (callSystem (SortFunc.insertion (WorkItem Unit)) Allowed).Reachable resumedHistory := by
  have hinit := System.Reachable.init
    (M := callSystem (SortFunc.insertion (WorkItem Unit)) Allowed) rfl
  have hnumbered : Numbered (Call.resetCommittedOffsets [(0, 100)] : Call Unit) := by
    refine ⟨List.forall_mem_nil _, ?_⟩
    intro l hl
    cases hl
    decide
  have hreset := hinit.step ⟨.resetCommittedOffsets [(0, 100)],
    ⟨by simp [Call.Legal], hnumbered, by simp [Grounded, Grounds]⟩, rfl⟩
  refine hreset.step ⟨.processCommit resumedItem 1,
    ⟨trivial, ⟨?_, fun _ hl => by cases hl⟩, ?_⟩, rfl⟩
  · rw [Call.ingested, List.forall_mem_singleton]
    decide
  · intro r hr
    cases hr

theorem preCommitsSnapshot_consistent_resumed :
    preCommitsSnapshot resumedHistory.committer [0] = [⟨0, 99, 100, 100, 0, true⟩] ∧
      SelfConsistent resumedHistory.committer :=
  ⟨by decide, (preCommitsSnapshot_consistent resumedHistory_reachable).1⟩

/-- A second `First` item raises the baseline over the `Ready` one. -/
example : preCommitsSnapshot ((resumedHistory.record (SortFunc.insertion (WorkItem Unit))
    (.processCommit { resumedItem with
      ptr := 1, message := { partition := 0, offset := 120 }, previousOffset := 119 } 2)).committer)
        [0] = [⟨0, 119, 100, 120, 1, true⟩] := by
  decide

/-- The offset before the least baseline is the greatest one. -/
example : preCommitsSnapshot ((resumedHistory.record (SortFunc.insertion (WorkItem Unit))
    (.resetCommittedOffsets [(0, minInt64)])).committer) [0] =
      [⟨0, maxInt64, 100, 100, 0, true⟩] := by
  decide

/-- A reset of a new partition to Kafka's invalid offset. -/
def invalidOffsetHistory : History Unit :=
  [Call.resetCommittedOffsets [(0, -1001)]].foldl
    (History.record (SortFunc.insertion (WorkItem Unit))) {}

/-- The committed offset is clamped, the ready one is not. -/
theorem preCommitsSnapshot_unclamped :
    (callSystem (SortFunc.insertion (WorkItem Unit)) Call.Legal).Reachable invalidOffsetHistory ∧
      preCommitsSnapshot invalidOffsetHistory.committer [0] = [⟨0, -1, -1002, 0, 0, true⟩] ∧
      ¬ SelfConsistent invalidOffsetHistory.committer := by
  refine ⟨?_, by decide, ?_⟩
  · exact reachable_of_script 0 (R := fun _ _ => True) (fun _ _ legal _ => legal) (by decide)
  · intro h
    have hle := (h [0] ⟨0, -1, -1002, 0, 0, true⟩ (by decide)).1
    exact absurd hle (by decide)

end LlingrDemux.Snapshot
