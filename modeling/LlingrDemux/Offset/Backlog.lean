import LlingrDemux.Offset.Projection

/-!
# What the tracker still holds of a completed record

`Accounts` says that a completed record is buffered or covered by `Ready`, `backlog`
counts the items a tracker holds, and `Poised` says that a buffered item at the baseline
has asked for the walk. No operation gives a record up that lies at or above the
baseline, and a tick that finds a `Ready` item makes the backlog smaller.
-/

namespace LlingrDemux.Offset.OffsetsTracker

open Shared
set_option autoImplicit false

variable {T : Type}

/-- The record of stamp `s` is covered by `Ready` or waits in the gap buffer. -/
def Accounts (t : OffsetsTracker T) (s : WorkItem.Stamp) : Prop :=
  (∃ r, t.ready = some r ∧ s.offset ≤ r.offset) ∨ ∃ g ∈ t.gapBuffer, g.stamp = s

/-- No buffered item at the baseline waits without the flag. -/
def Poised (t : OffsetsTracker T) : Prop :=
  t.ready = none → ∀ g ∈ t.gapBuffer, g.offset = t.committedPlusOne → t.needsGapAdvance = true

def backlog (t : OffsetsTracker T) : Nat := t.gapBuffer.length + t.ready.toList.length

/-- The record of stamp `s` is the latest read buffered record of its offset. -/
def Latest (t : OffsetsTracker T) (s : WorkItem.Stamp) : Prop :=
  ∀ g ∈ t.gapBuffer, g.offset = s.offset → s.readTime ≤ g.readTime → g.stamp = s

/-! ## The walk -/

section Walk
variable (cpo last now : Int)

theorem walk_ready_mono (r : WorkItem T) (l : List (WorkItem T)) :
    ∃ r', (walk cpo last now (some r) l).ready = some r' ∧ r.offset ≤ r'.offset := by
  induction l generalizing r with
  | nil => exact ⟨r, rfl, le_rfl⟩
  | cons g gs ih =>
    simp only [walk]
    split_ifs with hle hlink
    · exact ih r
    · obtain ⟨r', hr', hge⟩ := ih (g.setWatermarkAdvanceTime now)
      have hg : (g.setWatermarkAdvanceTime now).offset = g.offset := rfl
      exact ⟨r', hr', by omega⟩
    · exact ⟨r, rfl, le_rfl⟩

/-- The walk leaves an item in the buffer, covers it, or finds it below the baseline. -/
theorem walk_accounts (ready : Option (WorkItem T)) (l : List (WorkItem T)) :
    ∀ g ∈ l, g ∈ (walk cpo last now ready l).rest ∨ g.offset < cpo ∨
      ∃ r, (walk cpo last now ready l).ready = some r ∧ g.offset ≤ r.offset := by
  fun_induction walk cpo last now ready l with
  | case1 ready => simp
  | case2 g gs hlt q ih =>
    intro x hx
    rcases List.mem_cons.mp hx with rfl | hx
    · exact .inr (.inl hlt)
    · exact ih x hx
  | case3 g gs hge hinit ih =>
    intro x hx
    rcases List.mem_cons.mp hx with rfl | hx
    · obtain ⟨r, hr, hle⟩ := walk_ready_mono cpo last now (x.setWatermarkAdvanceTime now) gs
      exact .inr (.inr ⟨r, hr, hle⟩)
    · exact ih x hx
  | case4 g gs => exact fun x hx => .inl hx
  | case5 r g gs hle q ih =>
    intro x hx
    rcases List.mem_cons.mp hx with rfl | hx
    · obtain ⟨r', hr', hle'⟩ := walk_ready_mono cpo last now r gs
      exact .inr (.inr ⟨r', hr', hle.trans hle'⟩)
    · exact ih x hx
  | case6 r g gs hlt hlink q ih =>
    intro x hx
    rcases List.mem_cons.mp hx with rfl | hx
    · obtain ⟨r', hr', hle⟩ := walk_ready_mono cpo last now (x.setWatermarkAdvanceTime now) gs
      exact .inr (.inr ⟨r', hr', hle⟩)
    · exact ih x hx
  | case7 r g gs => exact fun x hx => .inl hx

theorem walk_rest_mem (ready : Option (WorkItem T)) (l : List (WorkItem T)) :
    ∀ g ∈ (walk cpo last now ready l).rest, g ∈ l := by
  fun_induction walk cpo last now ready l with
  | case1 ready => simp
  | case2 g gs hlt q ih => exact fun x hx => List.mem_cons_of_mem g (ih x hx)
  | case3 g gs hge hinit ih => exact fun x hx => List.mem_cons_of_mem g (ih x hx)
  | case4 g gs => exact fun x hx => hx
  | case5 r g gs hle q ih => exact fun x hx => List.mem_cons_of_mem g (ih x hx)
  | case6 r g gs hlt hlink q ih => exact fun x hx => List.mem_cons_of_mem g (ih x hx)
  | case7 r g gs => exact fun x hx => hx

theorem walk_size (ready : Option (WorkItem T)) (l : List (WorkItem T)) :
    (walk cpo last now ready l).rest.length + (walk cpo last now ready l).ready.toList.length ≤
      l.length + ready.toList.length := by
  fun_induction walk cpo last now ready l with
  | case1 ready => simp
  | case2 g gs hlt q ih =>
    refine le_trans ih ?_
    simp only [List.length_cons]
    omega
  | case3 g gs hge hinit ih =>
    simp only [List.length_cons, Option.toList_some, Option.toList_none, List.length_nil] at ih ⊢
    omega
  | case4 g gs => simp
  | case5 r g gs hle q ih =>
    refine le_trans ih ?_
    simp only [List.length_cons]
    omega
  | case6 r g gs hlt hlink q ih =>
    refine le_trans ih ?_
    simp only [List.length_cons, Option.toList_some, List.length_nil]
    omega
  | case7 r g gs => simp

/-- A walk that ends without `Ready` leaves no item at the baseline behind. -/
theorem walk_none (l : List (WorkItem T)) (hl : l.Pairwise fun a b => a.offset < b.offset)
    (hnone : (walk cpo last now none l).ready = none) :
    ∀ g ∈ (walk cpo last now none l).rest, g.offset ≠ cpo := by
  induction l with
  | nil => simp [walk]
  | cons g gs ih =>
    obtain ⟨hg, hgs⟩ := List.pairwise_cons.mp hl
    simp only [walk] at hnone ⊢
    split_ifs at hnone ⊢ with hlt hinit
    · exact ih hgs hnone
    · obtain ⟨r, hr, _⟩ := walk_ready_mono cpo last now (g.setWatermarkAdvanceTime now) gs
      simp [hr] at hnone
    · intro x hx
      rcases List.mem_cons.mp hx with rfl | hx
      · exact fun he => hinit (.inl he)
      · have := hg x hx
        omega

end Walk

/-! ## Flush -/

section Flush
variable (slices : SortFunc (WorkItem T)) {t : OffsetsTracker T} {s : WorkItem.Stamp} (now : Int)

theorem flush_ready_mono {r : WorkItem T} (h : t.ready = some r) :
    ∃ r', (t.flush slices now).1.ready = some r' ∧ r.offset ≤ r'.offset := by
  unfold flush
  split_ifs
  · exact ⟨r, h, le_rfl⟩
  · exact ⟨r, h, le_rfl⟩
  · simp only [sortAndWalk, h]
    exact walk_ready_mono _ _ _ r _

theorem mem_of_mem_flush {g : WorkItem T} (h : g ∈ (t.flush slices now).1.gapBuffer) :
    g ∈ t.gapBuffer := by
  unfold flush at h
  split_ifs at h
  · exact h
  · exact h
  · exact mem_of_mem_sortGapBuffer slices _ (walk_rest_mem _ _ _ _ _ g h)

theorem flush_accounts (h : t.Accounts s) (hlatest : t.Latest s)
    (hbase : t.committedPlusOne ≤ s.offset) : (t.flush slices now).1.Accounts s := by
  rcases h with ⟨r, hr, hle⟩ | ⟨g, hg, hgs⟩
  · obtain ⟨r', hr', hle'⟩ := flush_ready_mono slices now hr
    exact .inl ⟨r', hr', hle.trans hle'⟩
  · unfold flush
    split_ifs
    · exact .inr ⟨g, hg, hgs⟩
    · exact .inr ⟨g, hg, hgs⟩
    · -- the compaction keeps the latest read twin, which is this record
      obtain ⟨k, hk, hko, hkt⟩ := sortGapBuffer_keeps slices t.gapBuffer hg
      have hks : k.stamp = s := by
        rcases hkt with rfl | hkt
        · exact hgs
        · apply hlatest k (mem_of_mem_sortGapBuffer slices _ hk)
          · rw [hko, ← hgs]
            rfl
          · rw [← hgs]
            exact hkt
      have hoffset : k.offset = s.offset := congrArg WorkItem.Stamp.offset hks
      rcases walk_accounts t.committedPlusOne t.lastCommittedOffset now t.ready _ k hk with
        hrest | hlt | ⟨r, hr, hle⟩
      · exact .inr ⟨k, hrest, hks⟩
      · omega
      · exact .inl ⟨r, hr, hoffset ▸ hle⟩

theorem flush_backlog : (t.flush slices now).1.backlog ≤ t.backlog := by
  unfold flush
  split_ifs
  · exact le_rfl
  · exact le_rfl
  · have h1 := walk_size t.committedPlusOne t.lastCommittedOffset now t.ready
      (sortGapBuffer slices t.gapBuffer)
    have h2 := sortGapBuffer_length_le slices t.gapBuffer
    simp only [backlog, sortAndWalk]
    omega

theorem flush_poised (h : t.Poised) : (t.flush slices now).1.Poised := by
  unfold flush
  split_ifs with h1 h2
  · exact h
  · intro _ g hg
    simp [h2] at hg
  · intro hready g hg hoff
    simp only [sortAndWalk] at hready hg hoff
    cases hr : t.ready with
    | some r =>
      obtain ⟨r', hr', _⟩ := walk_ready_mono t.committedPlusOne t.lastCommittedOffset now r
        (sortGapBuffer slices t.gapBuffer)
      rw [hr, hr'] at hready
      cases hready
    | none =>
      rw [hr] at hready hg
      exact absurd hoff (walk_none _ _ _ _ (sortGapBuffer_strict slices t.gapBuffer) hready g hg)

theorem flush_unflagged : (t.flush slices now).1.needsGapAdvance = false := by
  unfold flush
  split_ifs with h1 h2
  · simpa using h1
  · rfl
  · rfl

end Flush

/-! ## Arrivals -/

section Arrival
variable {t : OffsetsTracker T} {s : WorkItem.Stamp} {w : WorkItem T} {now : Int}

theorem checkAndAdvance_accounts (h : t.Accounts s) : (t.checkAndAdvance w now).1.Accounts s := by
  rcases checkAndAdvance_cases t w now with ⟨f, heq, _, hcase⟩ | ⟨heq, _⟩ | ⟨f, heq, _⟩
  · rw [heq]
    rcases h with ⟨r, hr, hle⟩ | hg
    · rcases hcase with ⟨hn, _⟩ | ⟨r₀, hr₀, hle₀, _⟩
      · simp [hn] at hr
      · rw [hr, Option.some.injEq] at hr₀
        subst r₀
        exact .inl ⟨_, rfl, hle.trans hle₀⟩
    · exact .inr hg
  · rwa [heq]
  · rw [heq]
    rcases h with h | ⟨g, hg, hgs⟩
    · exact .inl h
    · exact .inr ⟨g, List.mem_append_left _ hg, hgs⟩

/-- An arrival at or above the baseline is accounted for. -/
theorem checkAndAdvance_accounts_self (hbase : t.committedPlusOne ≤ w.offset) :
    (t.checkAndAdvance w now).1.Accounts w.stamp := by
  rcases checkAndAdvance_cases t w now with ⟨f, heq, _, _⟩ | ⟨heq, hcase⟩ | ⟨f, heq, _⟩
  · rw [heq]
    exact .inl ⟨_, rfl, le_rfl⟩
  · rw [heq]
    rcases hcase with ⟨_, hlt⟩ | ⟨r, hr, hlt⟩
    · omega
    · exact .inl ⟨r, hr, hlt.le⟩
  · rw [heq]
    exact .inr ⟨w.setCommitBuffered, by simp, rfl⟩

theorem checkAndAdvance_poised (h : t.Poised ∨ t.committedPlusOne = w.offset) :
    (t.checkAndAdvance w now).1.Poised := by
  rcases checkAndAdvance_cases t w now with ⟨f, heq, _, _⟩ | ⟨heq, hcase⟩ | ⟨f, heq, hcase⟩
  · rw [heq]
    intro hn
    cases hn
  · rw [heq]
    intro hn
    rcases hcase with ⟨_, hlt⟩ | ⟨r, hr, _⟩
    · rcases h with h | h
      · exact h hn
      · omega
    · simp [hr] at hn
  · rw [heq]
    intro hn g hg hoff
    change t.ready = none at hn
    rcases hcase with ⟨_, hlt, _⟩ | ⟨r, hr, _⟩
    · rcases List.mem_append.mp hg with hg | hg
      · rcases h with h | h
        · simp [h hn g hg hoff]
        · omega
      · rw [List.mem_singleton.mp hg] at hoff
        change w.offset = t.committedPlusOne at hoff
        omega
    · simp [hr] at hn

/-- A raise of the baseline is by the arriving item itself, which then becomes `Ready`
unless there is one. -/
theorem processCommit_poised (h : t.Poised) : (processCommit (some t) w now).1.Poised := by
  obtain ⟨lo, hi, heq⟩ := arrive_some_eq t w
  apply checkAndAdvance_poised
  rw [heq, offset_markFirst]
  by_cases hraise : w.first = true ∧ w.offset ≥ t.committedPlusOne
  · exact .inr (if_pos hraise)
  · rw [if_neg hraise]
    exact .inl h

end Arrival

/-! ## Repair and tick -/

section Repair
variable {t : OffsetsTracker T} {s : WorkItem.Stamp} (now : Int)

theorem repairSuccessor_accounts (h : t.Accounts s)
    (unique : ∀ a ∈ t.gapBuffer, ∀ b ∈ t.gapBuffer, a.ptr = b.ptr → a.stamp = b.stamp) :
    (t.repairSuccessor now).1.Accounts s := by
  rcases repairSuccessor_cases t now with ⟨heq, _⟩ | ⟨k, hk, hnone, _, _, heq⟩
  · rwa [heq]
  · rw [heq]
    rcases h with ⟨r, hr, _⟩ | ⟨g, hg, hgs⟩
    · simp [hnone] at hr
    · have hkmem := (findSuccessor_some hk).1
      have hoffset : g.offset = s.offset := congrArg WorkItem.Stamp.offset hgs
      by_cases hptr : g.ptr = k.ptr
      · have hgk := WorkItem.offset_of_stamp (unique g hg k hkmem hptr)
        exact .inl ⟨_, rfl, (hoffset.symm.trans hgk).le⟩
      · by_cases hlt : g.offset < k.offset
        · exact .inl ⟨_, rfl, (hoffset.symm.le.trans hlt.le)⟩
        · exact .inr ⟨g, List.mem_filter.mpr ⟨hg, by simp [hptr, hlt]⟩, hgs⟩

theorem repairSuccessor_backlog : (t.repairSuccessor now).1.backlog ≤ t.backlog := by
  rcases repairSuccessor_cases t now with ⟨heq, _⟩ | ⟨k, hk, hnone, _, _, heq⟩
  · rw [heq]
  · rw [heq]
    have hlt : (t.gapBuffer.filter fun g =>
        !(g.ptr == k.ptr) && !decide (g.offset < k.offset)).length < t.gapBuffer.length := by
      apply List.length_filter_lt_length_iff_exists.mpr
      exact ⟨k, (findSuccessor_some hk).1, by simp⟩
    simp only [backlog, hnone, Option.toList_some, Option.toList_none, List.length_cons,
      List.length_nil]
    omega

theorem repairSuccessor_poised (h : t.Poised) : (t.repairSuccessor now).1.Poised := by
  rcases repairSuccessor_cases t now with ⟨heq, _⟩ | ⟨k, _, _, _, _, heq⟩
  · rwa [heq]
  · rw [heq]
    intro hn
    cases hn

theorem collectCommit_poised (h : t.Poised) (assigned : Bool) :
    (t.collectCommit assigned now).1.Poised := by
  cases assigned with
  | false =>
    intro _ g hg
    simp only [collectCommit, discardOrphanedTracker, Bool.not_false, if_true] at hg
    split_ifs at hg with hempty
    · simp [hempty.2] at hg
    · simp at hg
  | true =>
    have hrep := repairSuccessor_poised now h
    rcases collectCommit_cases t now with ⟨_, heq, _⟩ | ⟨_, _, _, heq, _⟩ | ⟨_, _, _, heq, _⟩
    · rwa [heq]
    · rw [heq]
      intro _ g hg _
      have hne : (t.repairSuccessor now).1.gapBuffer ≠ [] := List.ne_nil_of_mem hg
      simp [hne]
    · rwa [heq]

theorem acceptCommit_poised (offset : Int) : (t.acceptCommit offset).1.Poised := by
  intro _ g hg _
  have hne : t.gapBuffer ≠ [] := List.ne_nil_of_mem hg
  simp [acceptCommit, hne]

theorem resetCommittedOffset_poised (o : Option (OffsetsTracker T)) (committedOffset : Int) :
    (resetCommittedOffset o committedOffset).1.Poised := by
  intro _ g hg _
  cases o with
  | none => simp [resetCommittedOffset] at hg
  | some t =>
    simp only [resetCommittedOffset] at hg ⊢
    exact decide_eq_true (List.ne_nil_of_mem hg)

theorem tick_poised (slices : SortFunc (WorkItem T)) (h : t.Poised) (assigned : Bool) (k : PartitionTick) :
    (t.tick slices assigned k).1.Poised := by
  have hc := collectCommit_poised k.repairTime (flush_poised slices k.flushTime h) assigned
  exact tick_rule (P := fun q => q.1.Poised) slices k t hc fun _ => acceptCommit_poised _

end Repair

section Assigned
variable (slices : SortFunc (WorkItem T)) (t : OffsetsTracker T) (k : PartitionTick)

/-- The tracker of an assigned partition between the tick's flush and its commit. -/
def repaired : OffsetsTracker T := ((t.flush slices k.flushTime).1.repairSuccessor k.repairTime).1

@[simp] theorem repaired_committedPlusOne :
    (t.repaired slices k).committedPlusOne = t.committedPlusOne := by
  simp [repaired]

theorem repaired_backlog : (t.repaired slices k).backlog ≤ t.backlog :=
  (repairSuccessor_backlog k.repairTime).trans (flush_backlog slices k.flushTime)

/-- The tick of an assigned partition commits the repaired `Ready` item, discards it as
stale, or finds none. -/
theorem tick_assigned_cases :
    ((t.repaired slices k).ready = none ∧ t.tick slices true k = (t.repaired slices k, none)) ∨
    (∃ m flag, (t.repaired slices k).ready = some m ∧ m.offset < t.committedPlusOne ∧
      t.tick slices true k =
        ({ t.repaired slices k with ready := none, needsGapAdvance := flag }, none)) ∨
    (∃ m, (t.repaired slices k).ready = some m ∧ t.committedPlusOne ≤ m.offset ∧
      t.tick slices true k =
        (if k.accepted then ((t.repaired slices k).acceptCommit m.offset).1
          else t.repaired slices k, some m)) := by
  rcases collectCommit_cases (t.flush slices k.flushTime).1 k.repairTime with
    ⟨hready, heq, hoff⟩ | ⟨m, hready, hlt, heq, hoff⟩ | ⟨m, hready, hle, heq, hoff⟩
  · refine .inl ⟨hready, ?_⟩
    rw [tick_of_none slices k t hoff, heq]
    rfl
  · refine .inr (.inl ⟨m, (t.repaired slices k).needsGapAdvance ||
      decide ((t.repaired slices k).gapBuffer ≠ []), hready, by simpa using hlt, ?_⟩)
    rw [tick_of_none slices k t hoff, heq]
    rfl
  · refine .inr (.inr ⟨m, hready, by simpa using hle, ?_⟩)
    rw [tick_of_some slices k t hoff, heq]
    rfl

variable {t}

/-- A record at or above the baseline stays accounted for until a commit covers it. -/
theorem tick_accounts {s : WorkItem.Stamp} (h : t.Accounts s) (hlatest : t.Latest s)
    (hbase : t.committedPlusOne ≤ s.offset)
    (unique : ∀ a ∈ t.gapBuffer, ∀ b ∈ t.gapBuffer, a.ptr = b.ptr → a.stamp = b.stamp) :
    (t.tick slices true k).1.Accounts s ∨
      ∃ m, (t.tick slices true k).2 = some m ∧ k.accepted = true ∧ s.offset ≤ m.offset := by
  have hrep : (t.repaired slices k).Accounts s :=
    repairSuccessor_accounts k.repairTime (flush_accounts slices k.flushTime h hlatest hbase)
      fun a ha b hb => unique a (mem_of_mem_flush slices _ ha) b (mem_of_mem_flush slices _ hb)
  rcases tick_assigned_cases slices t k with
    ⟨_, heq⟩ | ⟨m, flag, hready, hlt, heq⟩ | ⟨m, hready, _, heq⟩
  · rw [heq]
    exact .inl hrep
  · rw [heq]
    rcases hrep with ⟨r, hr, hle⟩ | hg
    · rw [hready, Option.some.injEq] at hr
      subst r
      omega
    · exact .inl (.inr hg)
  · rw [heq]
    cases hacc : k.accepted with
    | false => exact .inl hrep
    | true =>
      rcases hrep with ⟨r, hr, hle⟩ | hg
      · rw [hready, Option.some.injEq] at hr
        subst r
        exact .inr ⟨m, rfl, rfl, hle⟩
      · exact .inl (.inr hg)

/-- A tick that finds a `Ready` item makes the backlog smaller, unless the broker rejects it. -/
theorem tick_backlog (hready : (t.repaired slices k).ready.isSome = true)
    (hacc : (t.tick slices true k).2.isSome = true → k.accepted = true) :
    (t.tick slices true k).1.backlog < t.backlog := by
  have hle := repaired_backlog slices t k
  rcases tick_assigned_cases slices t k with
    ⟨hn, _⟩ | ⟨m, flag, hm, _, heq⟩ | ⟨m, hm, _, heq⟩
  · simp [hn] at hready
  · rw [heq]
    simp only [backlog, hm, Option.toList_some, Option.toList_none, List.length_cons,
      List.length_nil] at hle ⊢
    omega
  · rw [heq] at hacc ⊢
    simp only [backlog, hm, hacc rfl, if_true, acceptCommit, Option.toList_some,
      Option.toList_none, List.length_cons, List.length_nil] at hle ⊢
    omega

end Assigned

end LlingrDemux.Offset.OffsetsTracker
