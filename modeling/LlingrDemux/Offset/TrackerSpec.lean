import LlingrDemux.Offset.SortedBuffer

/-!
# What the tracker's operations can do

One inversion lemma for each operation of the tracker, and `AllItems`, which
follows the work items an operation may leave in the tracker.
-/

namespace LlingrDemux.Offset.OffsetsTracker

open Shared
set_option autoImplicit false

variable {T : Type}

/-! ## Fields the small helpers leave alone -/

section Fields
variable (t : OffsetsTracker T) (w : WorkItem T) (x : Int)

theorem advanceThroughGapBuffer_eq : t.advanceThroughGapBuffer x =
    { t with needsGapAdvance :=
        t.needsGapAdvance || t.gapBuffer.any (fun g => x == g.previousOffset) } := by
  unfold advanceThroughGapBuffer
  cases h : t.gapBuffer.any (fun g => x == g.previousOffset) <;> simp

theorem seeOffset_eq : ∃ lo hi, t.seeOffset x = { t with minOffsetSeen := lo, maxOffsetSeen := hi } := by
  unfold seeOffset
  split_ifs
  · exact ⟨x, t.maxOffsetSeen, rfl⟩
  · exact ⟨t.minOffsetSeen, x, rfl⟩
  · exact ⟨t.minOffsetSeen, t.maxOffsetSeen, rfl⟩

theorem raiseFromFirst_eq : t.raiseFromFirst w =
    { t with committedPlusOne :=
        if w.first ∧ w.offset ≥ t.committedPlusOne then w.offset else t.committedPlusOne } := by
  unfold raiseFromFirst
  split <;> rfl

theorem arrive_some_eq : ∃ lo hi, arrive (some t) w =
    { t with
      minOffsetSeen := lo
      maxOffsetSeen := hi
      committedPlusOne :=
        if w.first ∧ w.offset ≥ t.committedPlusOne then w.offset else t.committedPlusOne } := by
  obtain ⟨lo, hi, hsee⟩ := seeOffset_eq t w.offset
  exact ⟨lo, hi, by rw [arrive, raiseFromFirst_eq, hsee]⟩

@[simp] theorem stamp_markFirst : (markFirst w).stamp = w.stamp := by
  unfold markFirst
  split <;> rfl

@[simp] theorem offset_markFirst : (markFirst w).offset = w.offset :=
  WorkItem.offset_of_stamp (stamp_markFirst w)

@[simp] theorem previousOffset_markFirst : (markFirst w).previousOffset = w.previousOffset :=
  WorkItem.previousOffset_of_stamp (stamp_markFirst w)

end Fields

/-- What an arrival does: it becomes `Ready`, is orphaned, or is buffered. -/
theorem checkAndAdvance_cases (t : OffsetsTracker T) (w : WorkItem T) (now : Int) :
    (∃ flag, (t.checkAndAdvance w now).1 =
        { t with
          ready := some (w.setWatermarkAdvanceTime now)
          needsGapAdvance := t.needsGapAdvance || flag } ∧
      flag = t.gapBuffer.any (fun g => w.offset == g.previousOffset) ∧
      ((t.ready = none ∧ t.committedPlusOne = w.offset) ∨
        ∃ r, t.ready = some r ∧ r.offset ≤ w.offset ∧
          (r.offset = w.previousOffset ∨ r.offset = w.offset))) ∨
    ((t.checkAndAdvance w now).1 = t ∧
      ((t.ready = none ∧ w.offset < t.committedPlusOne) ∨
        ∃ r, t.ready = some r ∧ w.offset < r.offset)) ∨
    (∃ flag, (t.checkAndAdvance w now).1 =
        { t with
          gapBuffer := t.gapBuffer ++ [w.setCommitBuffered]
          needsGapAdvance := t.needsGapAdvance || flag } ∧
      ((t.ready = none ∧ t.committedPlusOne < w.offset ∧
          flag = decide (0 ≤ t.lastCommittedOffset ∧ w.previousOffset = t.lastCommittedOffset)) ∨
        ∃ r, t.ready = some r ∧ r.offset < w.offset ∧ r.offset ≠ w.previousOffset ∧
          flag = false)) := by
  cases hr : t.ready with
  | none =>
    by_cases h1 : t.committedPlusOne = w.offset
    · have heq : t.checkAndAdvance w now = (advanceThroughGapBuffer
          { t with ready := some (w.setWatermarkAdvanceTime now) } w.offset, []) := by
        simp [checkAndAdvance, hr, h1]
      rw [heq, advanceThroughGapBuffer_eq]
      exact .inl ⟨_, rfl, rfl, .inl ⟨rfl, h1⟩⟩
    · by_cases h2 : t.committedPlusOne > w.offset
      · have heq : t.checkAndAdvance w now = (t, [orphanedAt w now]) := by
          simp [checkAndAdvance, hr, h1, h2]
        exact .inr (.inl ⟨by rw [heq], .inl ⟨rfl, h2⟩⟩)
      · refine .inr (.inr ⟨_, ?_, .inl ⟨rfl, by omega, rfl⟩⟩)
        have h3 : w.offset ≠ t.committedPlusOne := Ne.symm h1
        simp only [checkAndAdvance, hr, h1, h2, h3, addToGapBuffer, if_false, false_or]
        split_ifs with h4 <;> simp [h4]
  | some r =>
    by_cases h1 : r.offset > w.offset
    · have heq : t.checkAndAdvance w now = (t, [orphanedAt w now]) := by
        simp [checkAndAdvance, hr, h1]
      exact .inr (.inl ⟨by rw [heq], .inr ⟨r, rfl, h1⟩⟩)
    · by_cases h2 : r.offset = w.previousOffset ∨ r.offset = w.offset
      · have heq : t.checkAndAdvance w now = (advanceThroughGapBuffer
            { t with ready := some (w.setWatermarkAdvanceTime now) } w.offset, [r]) := by
          simp [checkAndAdvance, hr, h1, h2]
        rw [heq, advanceThroughGapBuffer_eq]
        exact .inl ⟨_, rfl, rfl, .inr ⟨r, rfl, by omega, h2⟩⟩
      · have heq : t.checkAndAdvance w now = (addToGapBuffer t w, []) := by
          simp [checkAndAdvance, hr, h1, h2]
        rw [heq]
        refine .inr (.inr ⟨false, by simp [addToGapBuffer, hr], .inr ⟨r, rfl, ?_, ?_, rfl⟩⟩)
        · omega
        · tauto

/-- The walk leaves a tail of the buffer behind. -/
theorem walk_rest_suffix (cpo last now : Int) (ready : Option (WorkItem T))
    (l : List (WorkItem T)) : (walk cpo last now ready l).rest <:+ l := by
  fun_induction walk cpo last now ready l with
  | case1 ready => exact List.suffix_rfl
  | case2 g gs hlt q ih => exact ih.trans (List.suffix_cons g gs)
  | case3 g gs hge hinit ih => exact ih.trans (List.suffix_cons g gs)
  | case4 g gs => exact List.suffix_rfl
  | case5 r g gs hle q ih => exact ih.trans (List.suffix_cons g gs)
  | case6 r g gs hlt hlink q ih => exact ih.trans (List.suffix_cons g gs)
  | case7 r g gs => exact List.suffix_rfl

/-! ## The items an operation leaves in the tracker -/

/-- Every work item the tracker holds carries a stamp with property `Q`. -/
structure AllItems (Q : WorkItem.Stamp → Prop) (t : OffsetsTracker T) : Prop where
  ready : ∀ r, t.ready = some r → Q r.stamp
  buffer : ∀ g ∈ t.gapBuffer, Q g.stamp

section Items
variable {Q : WorkItem.Stamp → Prop} {t : OffsetsTracker T} {w : WorkItem T}

theorem walk_allItems (cpo last now : Int) (ready : Option (WorkItem T)) (l : List (WorkItem T))
    (hready : ∀ r, ready = some r → Q r.stamp) (hl : ∀ g ∈ l, Q g.stamp) :
    (∀ r, (walk cpo last now ready l).ready = some r → Q r.stamp) ∧
    (∀ g ∈ (walk cpo last now ready l).rest, Q g.stamp) := by
  fun_induction walk cpo last now ready l with
  | case1 ready => exact ⟨hready, by simp⟩
  | case2 g gs hlt q ih => exact ih hready fun x hx => hl x (List.mem_cons_of_mem g hx)
  | case3 g gs _ _ ih =>
    refine ih ?_ fun x hx => hl x (List.mem_cons_of_mem g hx)
    rintro r ⟨⟩
    exact hl g List.mem_cons_self
  | case4 g gs => exact ⟨hready, hl⟩
  | case5 r g gs hle q ih => exact ih hready fun x hx => hl x (List.mem_cons_of_mem g hx)
  | case6 r g gs _ _ q ih =>
    refine ih ?_ fun x hx => hl x (List.mem_cons_of_mem g hx)
    rintro r ⟨⟩
    exact hl g List.mem_cons_self
  | case7 r g gs => exact ⟨hready, hl⟩

theorem checkAndAdvance_allItems (h : AllItems Q t) (hw : Q w.stamp) (now : Int) :
    AllItems Q (t.checkAndAdvance w now).1 := by
  rcases checkAndAdvance_cases t w now with ⟨f, heq, _⟩ | ⟨heq, _⟩ | ⟨f, heq, _⟩
  · rw [heq]
    refine ⟨?_, h.buffer⟩
    rintro r ⟨⟩
    exact hw
  · rw [heq]
    exact h
  · rw [heq]
    refine ⟨h.ready, ?_⟩
    intro g hg
    rcases List.mem_append.mp hg with hg | hg
    · exact h.buffer g hg
    · rw [List.mem_singleton.mp hg]
      exact hw

theorem arrive_allItems (h : AllItems Q t) : AllItems Q (arrive (some t) w) := by
  obtain ⟨lo, hi, heq⟩ := arrive_some_eq t w
  rw [heq]
  exact ⟨h.ready, h.buffer⟩

theorem processCommit_allItems (h : AllItems Q t) (hw : Q w.stamp) (now : Int) :
    AllItems Q (processCommit (some t) w now).1 :=
  checkAndAdvance_allItems (arrive_allItems h) (by simpa using hw) now

theorem sortAndWalk_allItems (slices : SortFunc (WorkItem T)) (h : AllItems Q t) (now : Int) :
    AllItems Q (t.sortAndWalk slices now).1 := by
  obtain ⟨h1, h2⟩ := walk_allItems t.committedPlusOne t.lastCommittedOffset now t.ready
    (sortGapBuffer slices t.gapBuffer) h.ready
    (fun g hg => h.buffer g (mem_of_mem_sortGapBuffer slices _ hg))
  exact ⟨h1, h2⟩

theorem flush_allItems (slices : SortFunc (WorkItem T)) (h : AllItems Q t) (now : Int) :
    AllItems Q (t.flush slices now).1 := by
  unfold flush
  split_ifs
  · exact h
  · exact ⟨h.ready, h.buffer⟩
  · exact sortAndWalk_allItems slices h now

/-- An item that provably holds the record right after the committed one. -/
def Provable (cpo last : Int) (g : WorkItem T) : Prop :=
  cpo ≤ g.offset ∧ (g.offset = cpo ∨ (0 ≤ g.previousOffset ∧ g.previousOffset ≤ last))

/-- One iteration keeps the candidate or takes a provable item strictly below it. -/
theorem successorStep_cases (cpo last : Int) (acc : Option (WorkItem T)) (g : WorkItem T) :
    (successorStep cpo last acc g = acc ∧
        (Provable cpo last g → ∃ a, acc = some a ∧ a.offset ≤ g.offset)) ∨
      (successorStep cpo last acc g = some g ∧ Provable cpo last g ∧
        ∀ a, acc = some a → g.offset < a.offset) := by
  unfold successorStep Provable
  split_ifs with h1 h2 h3 h4
  · exact .inl ⟨rfl, fun hp => by omega⟩
  · rw [Option.any_eq_true] at h2
    obtain ⟨a, ha, hge⟩ := h2
    exact .inl ⟨rfl, fun _ => ⟨a, ha, by simpa using hge⟩⟩
  · refine .inr ⟨rfl, ⟨by omega, .inl h3⟩, fun a ha => ?_⟩
    simpa [ha] using h2
  · refine .inr ⟨rfl, ⟨by omega, .inr h4⟩, fun a ha => ?_⟩
    simpa [ha] using h2
  · exact .inl ⟨rfl, fun hp => by omega⟩

theorem foldl_successor_spec (cpo last : Int) (l : List (WorkItem T)) (acc : Option (WorkItem T)) :
    (∀ s, l.foldl (successorStep cpo last) acc = some s →
      (acc = some s ∨ (s ∈ l ∧ Provable cpo last s)) ∧ (∀ a, acc = some a → s.offset ≤ a.offset) ∧
      ∀ g ∈ l, Provable cpo last g → s.offset ≤ g.offset) ∧
    (l.foldl (successorStep cpo last) acc = none →
      acc = none ∧ ∀ g ∈ l, ¬ Provable cpo last g) := by
  induction l generalizing acc with
  | nil =>
    refine ⟨fun s hs => ⟨.inl hs, fun a ha => ?_, by simp⟩, fun h => ⟨h, by simp⟩⟩
    have hsa : s = a := Option.some.inj (hs.symm.trans ha)
    rw [hsa]
  | cons g l ih =>
    obtain ⟨hsome, hnone⟩ := ih (successorStep cpo last acc g)
    simp only [List.foldl_cons]
    rcases successorStep_cases cpo last acc g with ⟨heq, hp⟩ | ⟨heq, hp, hlow⟩
    · rw [heq] at hsome hnone ⊢
      constructor
      · intro s hs
        obtain ⟨h1, h2, h3⟩ := hsome s hs
        refine ⟨h1.imp_right fun h => ⟨List.mem_cons_of_mem g h.1, h.2⟩, h2, ?_⟩
        intro x hx hpx
        rcases List.mem_cons.mp hx with rfl | hx
        · obtain ⟨a, ha, hle⟩ := hp hpx
          exact (h2 a ha).trans hle
        · exact h3 x hx hpx
      · intro hn
        obtain ⟨h1, h2⟩ := hnone hn
        refine ⟨h1, ?_⟩
        intro x hx hpx
        rcases List.mem_cons.mp hx with rfl | hx
        · obtain ⟨a, ha, _⟩ := hp hpx
          simp [h1] at ha
        · exact h2 x hx hpx
    · rw [heq] at hsome hnone ⊢
      constructor
      · intro s hs
        obtain ⟨h1, h2, h3⟩ := hsome s hs
        have hsg := h2 g rfl
        refine ⟨.inr ?_, fun a ha => by have := hlow a ha; omega, ?_⟩
        · rcases h1 with h1 | h1
          · rw [← Option.some.inj h1]
            exact ⟨List.mem_cons_self, hp⟩
          · exact ⟨List.mem_cons_of_mem g h1.1, h1.2⟩
        · intro x hx hpx
          rcases List.mem_cons.mp hx with rfl | hx
          · exact hsg
          · exact h3 x hx hpx
      · intro hn
        simpa using (hnone hn).1

theorem findSuccessor_some {s : WorkItem T} (h : t.findSuccessor = some s) :
    s ∈ t.gapBuffer ∧ Provable t.committedPlusOne t.lastCommittedOffset s ∧
      ∀ g ∈ t.gapBuffer, Provable t.committedPlusOne t.lastCommittedOffset g →
        s.offset ≤ g.offset := by
  obtain ⟨h1, _, h3⟩ := (foldl_successor_spec _ _ t.gapBuffer none).1 s h
  rcases h1 with h1 | ⟨h1, h2⟩
  · simp at h1
  · exact ⟨h1, h2, h3⟩

theorem findSuccessor_none (h : t.findSuccessor = none) :
    ∀ g ∈ t.gapBuffer, ¬ Provable t.committedPlusOne t.lastCommittedOffset g :=
  ((foldl_successor_spec _ _ t.gapBuffer none).2 h).2

/-- What the repair does: nothing, or it promotes the lowest provable item. -/
theorem repairSuccessor_cases (t : OffsetsTracker T) (now : Int) :
    (t.repairSuccessor now = (t, []) ∧
      (t.ready = none → t.needsGapAdvance = false → 0 ≤ t.lastCommittedOffset →
        ∀ g ∈ t.gapBuffer, ¬ Provable t.committedPlusOne t.lastCommittedOffset g)) ∨
    (∃ s, t.findSuccessor = some s ∧ t.ready = none ∧ 0 ≤ t.lastCommittedOffset ∧
      t.needsGapAdvance = false ∧
      (t.repairSuccessor now).1 =
        { t with
          gapBuffer :=
            t.gapBuffer.filter fun g => !(g.ptr == s.ptr) && !decide (g.offset < s.offset)
          ready := some (s.setWatermarkAdvanceTime now)
          needsGapAdvance := decide ((t.gapBuffer.filter fun g =>
            !(g.ptr == s.ptr) && !decide (g.offset < s.offset)) ≠ []) }) := by
  unfold repairSuccessor
  split_ifs with hguard
  · refine .inl ⟨rfl, fun h1 h2 h3 g hg => ?_⟩
    simp only [h1, h2, Option.isSome_none, Bool.false_eq_true, false_or] at hguard
    rcases hguard with hguard | hguard
    · simp [hguard] at hg
    · omega
  · simp only [not_or, Bool.not_eq_true, Option.isSome_eq_false_iff, Option.isNone_iff_eq_none,
      not_lt] at hguard
    cases hs : t.findSuccessor with
    | none => exact .inl ⟨rfl, fun _ _ _ => findSuccessor_none hs⟩
    | some s => exact .inr ⟨s, rfl, hguard.1, hguard.2.2.2, hguard.2.2.1, rfl⟩

theorem repairSuccessor_allItems (h : AllItems Q t) (now : Int) :
    AllItems Q (t.repairSuccessor now).1 := by
  rcases repairSuccessor_cases t now with ⟨heq, _⟩ | ⟨s, hs, _, _, _, heq⟩
  · rw [heq]
    exact h
  · rw [heq]
    refine ⟨?_, fun g hg => h.buffer g (List.mem_of_mem_filter hg)⟩
    rintro r ⟨⟩
    exact h.buffer s (findSuccessor_some hs).1

theorem discardOrphanedTracker_allItems (h : AllItems Q t) :
    AllItems Q t.discardOrphanedTracker.1 := by
  unfold discardOrphanedTracker
  split_ifs
  · exact h
  · exact ⟨by simp, by simp⟩

theorem acceptCommit_allItems (h : AllItems Q t) (offset : Int) :
    AllItems Q (t.acceptCommit offset).1 := ⟨by simp [acceptCommit], h.buffer⟩

theorem resetCommittedOffset_allItems (h : AllItems Q t) (committedOffset : Int) :
    AllItems Q (resetCommittedOffset (some t) committedOffset).1 := by
  constructor
  · intro r hr
    simp only [resetCommittedOffset] at hr
    split at hr
    · simp at hr
    · exact h.ready r (Option.eq_some_of_filter_eq_some hr)
  · intro g hg
    simp only [resetCommittedOffset] at hg
    split at hg
    · simp at hg
    · exact h.buffer g hg

end Items

/-! ## Baseline and anchor move in few places -/

section Anchors
variable (slices : SortFunc (WorkItem T)) (t : OffsetsTracker T) (w : WorkItem T) (now : Int)

theorem flush_eq : ∃ ready rest flag, (t.flush slices now).1 =
    { t with ready := ready, gapBuffer := rest, needsGapAdvance := flag } := by
  unfold flush
  split_ifs
  · exact ⟨t.ready, t.gapBuffer, t.needsGapAdvance, rfl⟩
  · exact ⟨t.ready, t.gapBuffer, false, rfl⟩
  · exact ⟨_, _, false, rfl⟩

theorem repairSuccessor_eq : ∃ ready rest flag, (t.repairSuccessor now).1 =
    { t with ready := ready, gapBuffer := rest, needsGapAdvance := flag } := by
  rcases repairSuccessor_cases t now with ⟨heq, _⟩ | ⟨s, _, _, _, _, heq⟩
  · exact ⟨t.ready, t.gapBuffer, t.needsGapAdvance, by rw [heq]⟩
  · exact ⟨_, _, _, heq⟩

theorem checkAndAdvance_eq : ∃ ready rest flag, (t.checkAndAdvance w now).1 =
    { t with ready := ready, gapBuffer := rest, needsGapAdvance := flag } := by
  rcases checkAndAdvance_cases t w now with ⟨f, heq, _⟩ | ⟨heq, _⟩ | ⟨f, heq, _⟩
  · exact ⟨_, _, _, heq⟩
  · exact ⟨t.ready, t.gapBuffer, t.needsGapAdvance, heq⟩
  · exact ⟨_, _, _, heq⟩

@[simp] theorem flush_committedPlusOne :
    (t.flush slices now).1.committedPlusOne = t.committedPlusOne := by
  obtain ⟨_, _, _, h⟩ := flush_eq slices t now
  rw [h]

@[simp] theorem flush_lastCommittedOffset :
    (t.flush slices now).1.lastCommittedOffset = t.lastCommittedOffset := by
  obtain ⟨_, _, _, h⟩ := flush_eq slices t now
  rw [h]

@[simp] theorem repairSuccessor_committedPlusOne :
    (t.repairSuccessor now).1.committedPlusOne = t.committedPlusOne := by
  obtain ⟨_, _, _, h⟩ := repairSuccessor_eq t now
  rw [h]

@[simp] theorem repairSuccessor_lastCommittedOffset :
    (t.repairSuccessor now).1.lastCommittedOffset = t.lastCommittedOffset := by
  obtain ⟨_, _, _, h⟩ := repairSuccessor_eq t now
  rw [h]

@[simp] theorem checkAndAdvance_committedPlusOne :
    (t.checkAndAdvance w now).1.committedPlusOne = t.committedPlusOne := by
  obtain ⟨_, _, _, h⟩ := checkAndAdvance_eq t w now
  rw [h]

@[simp] theorem checkAndAdvance_lastCommittedOffset :
    (t.checkAndAdvance w now).1.lastCommittedOffset = t.lastCommittedOffset := by
  obtain ⟨_, _, _, h⟩ := checkAndAdvance_eq t w now
  rw [h]

end Anchors

/-- The tick calls the repair only without a `Ready` item, which the repair tests as well. -/
theorem repairSuccessor_guarded (t : OffsetsTracker T) (now : Int) :
    (if t.ready.isNone then t.repairSuccessor now else (t, [])) = t.repairSuccessor now := by
  cases hr : t.ready with
  | none => rfl
  | some r => simp [repairSuccessor, hr]

/-- What the tick's loop body does for an assigned partition: after the repair there is
no `Ready`, or a stale one is discarded, or one at or above the baseline is offered. -/
theorem collectCommit_cases (t : OffsetsTracker T) (now : Int) :
    ((t.repairSuccessor now).1.ready = none ∧
      (t.collectCommit true now).1 = (t.repairSuccessor now).1 ∧
      (t.collectCommit true now).2.2 = none) ∨
    (∃ w, (t.repairSuccessor now).1.ready = some w ∧
      w.offset < t.committedPlusOne ∧
      (t.collectCommit true now).1 = { (t.repairSuccessor now).1 with
        ready := none
        needsGapAdvance := (t.repairSuccessor now).1.needsGapAdvance ||
          decide ((t.repairSuccessor now).1.gapBuffer ≠ []) } ∧
      (t.collectCommit true now).2.2 = none) ∨
    (∃ w, (t.repairSuccessor now).1.ready = some w ∧
      t.committedPlusOne ≤ w.offset ∧
      (t.collectCommit true now).1 = (t.repairSuccessor now).1 ∧
      (t.collectCommit true now).2.2 = some w) := by
  have hrep := repairSuccessor_guarded t now
  cases hq : (t.repairSuccessor now).1.ready with
  | none =>
    refine .inl ⟨rfl, ?_⟩
    simp only [collectCommit, Bool.not_true, Bool.false_eq_true, if_false, hrep, hq, and_self]
  | some w =>
    by_cases hlt : w.offset < t.committedPlusOne
    · refine .inr (.inl ⟨w, rfl, hlt, ?_⟩)
      simp only [collectCommit, Bool.not_true, Bool.false_eq_true, if_false, hrep, hq,
        repairSuccessor_committedPlusOne, hlt, if_true, and_self]
    · refine .inr (.inr ⟨w, rfl, not_lt.mp hlt, ?_⟩)
      simp only [collectCommit, Bool.not_true, Bool.false_eq_true, if_false, hrep, hq,
        repairSuccessor_committedPlusOne, hlt, and_self]

/-- The rule for the loop body of an assigned partition: what holds after the repair, and
after a stale `Ready` has been discarded, holds after the body. -/
theorem collectCommit_rule {P : OffsetsTracker T × List (WorkItem T) → Prop}
    (t : OffsetsTracker T) (now : Int) (repaired : P (t.repairSuccessor now))
    (discarded : ∀ w, (t.repairSuccessor now).1.ready = some w →
      P ({ (t.repairSuccessor now).1 with
          ready := none
          needsGapAdvance := (t.repairSuccessor now).1.needsGapAdvance ||
            decide ((t.repairSuccessor now).1.gapBuffer ≠ []) },
        (t.repairSuccessor now).2 ++ [w.setOrphaned])) :
    P ((t.collectCommit true now).1, (t.collectCommit true now).2.1) := by
  simp only [collectCommit, Bool.not_true, Bool.false_eq_true, if_false, repairSuccessor_guarded]
  cases hr : (t.repairSuccessor now).1.ready with
  | none => exact repaired
  | some w =>
    simp only
    split_ifs
    · exact discarded w hr
    · exact repaired

end LlingrDemux.Offset.OffsetsTracker
