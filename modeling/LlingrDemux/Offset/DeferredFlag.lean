import LlingrDemux.Offset.Backlog
import LlingrDemux.Offset.Calls

/-!
# The deferred-advance flag

`NeedsGapAdvance` stands in for the sort and the walk of `flushGapBuffers`. The walk can
advance only over the lowest buffered item above its starting point, so it is enough
that this item, whichever of its twins it is, does not continue `Ready` while the flag is
down. Every site that could break this raises the flag, with an empty buffer apart.
-/

namespace LlingrDemux.Offset

open Shared
set_option autoImplicit false

variable {T : Type}

namespace OffsetsTracker

/-- The lowest offset that the walk does not prune. -/
def walkFloor (t : OffsetsTracker T) : Int :=
  match t.ready with
  | none => t.committedPlusOne
  | some r => r.offset + 1

/-- The walk advances over `g` when it comes to it. -/
def Advances (t : OffsetsTracker T) (g : WorkItem T) : Prop :=
  match t.ready with
  | none => g.offset = t.committedPlusOne ∨
      (0 ≤ t.lastCommittedOffset ∧ g.previousOffset = t.lastCommittedOffset)
  | some r => r.offset = g.previousOffset

/-- `g` is a lowest item of the list that the walk does not prune. -/
def Foremost (t : OffsetsTracker T) (l : List (WorkItem T)) (g : WorkItem T) : Prop :=
  g ∈ l ∧ t.walkFloor ≤ g.offset ∧ ∀ k ∈ l, t.walkFloor ≤ k.offset → g.offset ≤ k.offset

/-- While the flag is down the walk would not advance. -/
def Settled (t : OffsetsTracker T) : Prop :=
  t.needsGapAdvance = false → ∀ g, t.Foremost t.gapBuffer g → ¬ t.Advances g

variable {t : OffsetsTracker T}

theorem settled_of_nil (h : t.gapBuffer = []) : t.Settled := by
  rintro _ g ⟨hg, _⟩
  simp [h] at hg

/-- A flag that is up whenever something is buffered. -/
theorem settled_of_flagged (h : t.gapBuffer ≠ [] → t.needsGapAdvance = true) : t.Settled := by
  by_cases hnil : t.gapBuffer = []
  · exact settled_of_nil hnil
  · intro hflag
    simp [h hnil] at hflag

/-! ## The walk -/

section Walk
variable {cpo last now : Int}

theorem walk_some_stays {r : WorkItem T} {l : List (WorkItem T)}
    (hsorted : l.Pairwise fun a b => a.offset < b.offset)
    (hblocked : ∀ g ∈ l, r.offset < g.offset →
      (∀ k ∈ l, r.offset < k.offset → g.offset ≤ k.offset) → r.offset ≠ g.previousOffset) :
    (walk cpo last now (some r) l).ready = some r := by
  induction l with
  | nil => rfl
  | cons g gs ih =>
    obtain ⟨hg, hgs⟩ := List.pairwise_cons.mp hsorted
    simp only [walk]
    split_ifs with hle hlink
    · apply ih hgs
      intro x hx hlt hmin
      apply hblocked x (List.mem_cons_of_mem g hx) hlt
      intro k hk hkr
      rcases List.mem_cons.mp hk with rfl | hk
      · omega
      · exact hmin k hk hkr
    · refine absurd hlink (hblocked g List.mem_cons_self (by omega) ?_)
      intro k hk _
      rcases List.mem_cons.mp hk with rfl | hk
      · exact le_rfl
      · exact (hg k hk).le
    · rfl

theorem walk_none_stays {l : List (WorkItem T)}
    (hsorted : l.Pairwise fun a b => a.offset < b.offset)
    (hblocked : ∀ g ∈ l, cpo ≤ g.offset → (∀ k ∈ l, cpo ≤ k.offset → g.offset ≤ k.offset) →
      ¬ (g.offset = cpo ∨ (0 ≤ last ∧ g.previousOffset = last))) :
    (walk cpo last now none l).ready = none := by
  induction l with
  | nil => rfl
  | cons g gs ih =>
    obtain ⟨hg, hgs⟩ := List.pairwise_cons.mp hsorted
    simp only [walk]
    split_ifs with hlt hinit
    · apply ih hgs
      intro x hx hge hmin
      apply hblocked x (List.mem_cons_of_mem g hx) hge
      intro k hk hkr
      rcases List.mem_cons.mp hk with rfl | hk
      · omega
      · exact hmin k hk hkr
    · refine absurd hinit (hblocked g List.mem_cons_self (by omega) ?_)
      intro k hk _
      rcases List.mem_cons.mp hk with rfl | hk
      · exact le_rfl
      · exact (hg k hk).le
    · rfl

/-- What the walk leaves behind does not continue the `Ready` it leaves. -/
theorem walk_rest_blocked {ready : Option (WorkItem T)} {l : List (WorkItem T)} :
    ∀ g gs, (walk cpo last now ready l).rest = g :: gs →
      match (walk cpo last now ready l).ready with
      | none => cpo ≤ g.offset ∧ ¬ (g.offset = cpo ∨ (0 ≤ last ∧ g.previousOffset = last))
      | some r => r.offset < g.offset ∧ r.offset ≠ g.previousOffset := by
  fun_induction walk cpo last now ready l with
  | case1 ready => simp
  | case2 g gs hlt q ih => exact ih
  | case3 g gs hge hinit ih => exact ih
  | case4 g gs hge hinit =>
    rintro _ _ ⟨⟩
    exact ⟨not_lt.mp hge, hinit⟩
  | case5 r g gs hle q ih => exact ih
  | case6 r g gs hlt hlink q ih => exact ih
  | case7 r g gs hlt hlink =>
    rintro _ _ ⟨⟩
    exact ⟨not_le.mp hlt, hlink⟩

end Walk

/-- The item that the sorted buffer presents first stands for one that was foremost. -/
theorem Foremost.of_sorted (slices : SortFunc (WorkItem T)) {g : WorkItem T}
    (h : t.Foremost (sortGapBuffer slices t.gapBuffer) g) : t.Foremost t.gapBuffer g := by
  obtain ⟨hg, hfloor, hmin⟩ := h
  refine ⟨mem_of_mem_sortGapBuffer slices _ hg, hfloor, ?_⟩
  intro k hk hkfloor
  obtain ⟨s, hs, hoffset, _⟩ := sortGapBuffer_keeps slices _ hk
  exact hoffset ▸ hmin s hs (hoffset ▸ hkfloor)

theorem Settled.sortAndWalk_ready (h : t.Settled) (hflag : t.needsGapAdvance = false)
    (slices : SortFunc (WorkItem T)) (now : Int) : (t.sortAndWalk slices now).1.ready = t.ready := by
  have hblocked : ∀ g, t.Foremost (sortGapBuffer slices t.gapBuffer) g → ¬ t.Advances g :=
    fun g hg => h hflag g (hg.of_sorted slices)
  have hsorted := sortGapBuffer_strict slices t.gapBuffer
  simp only [sortAndWalk]
  cases hr : t.ready with
  | none =>
    apply walk_none_stays hsorted
    intro g hg hge hmin
    have := hblocked g ⟨hg, by simpa [walkFloor, hr] using hge,
      by simpa [walkFloor, hr] using hmin⟩
    simpa [Advances, hr] using this
  | some r =>
    apply walk_some_stays hsorted
    intro g hg hlt hmin
    have := hblocked g ⟨hg, by simpa [walkFloor, hr, Int.add_one_le_iff] using hlt,
      by simpa [walkFloor, hr, Int.add_one_le_iff] using hmin⟩
    simpa [Advances, hr] using this

/-! ## Every operation leaves a settled tracker -/

theorem Foremost.eq_head {g x : WorkItem T} {xs : List (WorkItem T)}
    (h : t.Foremost (x :: xs) g) (hsorted : (x :: xs).Pairwise fun a b => a.offset < b.offset)
    (hx : t.walkFloor ≤ x.offset) : g = x := by
  obtain ⟨hg, _, hmin⟩ := h
  rcases List.mem_cons.mp hg with rfl | hg
  · rfl
  · have hlt := (List.pairwise_cons.mp hsorted).1 g hg
    have hle := hmin x List.mem_cons_self hx
    omega

theorem sortAndWalk_settled (slices : SortFunc (WorkItem T)) (now : Int) :
    (t.sortAndWalk slices now).1.Settled := by
  intro _ g hforemost
  cases hrest : (t.sortAndWalk slices now).1.gapBuffer with
  | nil =>
    rw [hrest] at hforemost
    cases hforemost.1
  | cons x xs =>
    have hsorted := (sortGapBuffer_strict slices t.gapBuffer).sublist (walk_rest_suffix
      t.committedPlusOne t.lastCommittedOffset now t.ready _).sublist
    have hx := walk_rest_blocked x xs hrest
    change (t.sortAndWalk slices now).1.gapBuffer.Pairwise _ at hsorted
    rw [hrest] at hforemost hsorted
    cases hready : (t.sortAndWalk slices now).1.ready with
    | none =>
      change (walk _ _ _ _ _).ready = none at hready
      simp only [hready] at hx
      rw [hforemost.eq_head hsorted (by simpa [walkFloor, sortAndWalk, hready] using hx.1)]
      simpa [Advances, sortAndWalk, hready] using hx.2
    | some r =>
      change (walk _ _ _ _ _).ready = some r at hready
      simp only [hready] at hx
      rw [hforemost.eq_head hsorted
        (by simpa [walkFloor, sortAndWalk, hready, Int.add_one_le_iff] using hx.1)]
      simpa [Advances, sortAndWalk, hready] using hx.2

theorem flush_settled (h : t.Settled) (slices : SortFunc (WorkItem T)) (now : Int) :
    (t.flush slices now).1.Settled := by
  unfold flush
  split_ifs with h1 h2
  · exact h
  · exact settled_of_nil h2
  · exact sortAndWalk_settled slices now

theorem Foremost.of_append {g w : WorkItem T} {l : List (WorkItem T)}
    (h : t.Foremost (l ++ [w]) g) : g = w ∨ t.Foremost l g := by
  obtain ⟨hg, hfloor, hmin⟩ := h
  rcases List.mem_append.mp hg with hg | hg
  · exact .inr ⟨hg, hfloor, fun k hk => hmin k (List.mem_append_left _ hk)⟩
  · exact .inl (List.mem_singleton.mp hg)

theorem checkAndAdvance_settled {w : WorkItem T} (now : Int)
    (h : t.Settled ∨ (t.ready = none ∧ t.committedPlusOne = w.offset)) :
    (t.checkAndAdvance w now).1.Settled := by
  rcases checkAndAdvance_cases t w now with ⟨f, heq, hf, _⟩ | ⟨heq, hcase⟩ | ⟨f, heq, hcase⟩
  · -- the scan saw no item with this predecessor
    rw [heq]
    intro hflag g hforemost hadv
    simp only [Bool.or_eq_false_iff] at hflag
    rw [hf, List.any_eq_false] at hflag
    have hlink : w.offset = g.previousOffset := hadv
    exact hflag.2 g hforemost.1 (by simpa using hlink)
  · rw [heq]
    rcases h with h | ⟨hnone, hbase⟩
    · exact h
    · rcases hcase with ⟨_, hlt⟩ | ⟨r, hr, _⟩
      · omega
      · simp [hnone] at hr
  · rcases h with h | ⟨hnone, hbase⟩
    · rw [heq]
      intro hflag g hforemost
      simp only [Bool.or_eq_false_iff] at hflag
      rcases hforemost.of_append with rfl | hold
      · intro hadv
        rcases hcase with ⟨hnone, hlt, hf⟩ | ⟨r, hr, _, hne, _⟩
        · rw [hflag.2, eq_comm, decide_eq_false_iff_not] at hf
          simp only [Advances, hnone] at hadv
          rcases hadv with hbase | hlink
          · exact absurd hbase hlt.ne'
          · exact hf hlink
        · simp only [Advances, hr] at hadv
          exact hne hadv
      · exact h hflag.1 g hold
    · rcases hcase with ⟨_, hlt, _⟩ | ⟨r, hr, _⟩
      · omega
      · simp [hnone] at hr

/-- A raise of the baseline is by the arriving item itself, which then becomes `Ready`
unless there is one; and with a `Ready` the baseline does not matter. -/
theorem arrive_settled (h : t.Settled) (w : WorkItem T) : (arrive (some t) w).Settled ∨
    ((arrive (some t) w).ready = none ∧ (arrive (some t) w).committedPlusOne = w.offset) := by
  obtain ⟨lo, hi, heq⟩ := arrive_some_eq t w
  rw [heq]
  by_cases hraise : w.first = true ∧ w.offset ≥ t.committedPlusOne
  · cases hr : t.ready with
    | none => exact .inr ⟨rfl, if_pos hraise⟩
    | some r =>
      left
      intro hflag g hforemost
      have hold := h hflag g
      simp only [Foremost, Advances, walkFloor, hr] at hforemost hold ⊢
      exact hold hforemost
  · left
    rw [if_neg hraise]
    exact h

theorem processCommit_settled (o : Option (OffsetsTracker T)) (w : WorkItem T) (now : Int)
    (h : ∀ t, o = some t → t.Settled) : (processCommit o w now).1.Settled := by
  apply checkAndAdvance_settled
  rw [offset_markFirst]
  cases o with
  | none =>
    left
    apply settled_of_nil
    rw [arrive, raiseFromFirst_eq]
    rfl
  | some t => exact arrive_settled (h t rfl) w

theorem repairSuccessor_settled (h : t.Settled) (now : Int) :
    (t.repairSuccessor now).1.Settled := by
  rcases repairSuccessor_cases t now with ⟨heq, _⟩ | ⟨s, _, _, _, _, heq⟩
  · rwa [heq]
  · rw [heq]
    apply settled_of_flagged
    intro hne
    simpa using hne

theorem collectCommit_settled (h : t.Settled) (assigned : Bool) (now : Int) :
    (t.collectCommit assigned now).1.Settled := by
  cases assigned with
  | false =>
    apply settled_of_nil
    simp only [collectCommit, discardOrphanedTracker, Bool.not_false, if_true]
    split_ifs with hempty
    · exact hempty.2
    · rfl
  | true =>
    have hrepair := repairSuccessor_settled h now
    rcases collectCommit_cases t now with ⟨_, heq, _⟩ | ⟨_, _, _, heq, _⟩ | ⟨_, _, _, heq, _⟩
    · rwa [heq]
    · rw [heq]
      apply settled_of_flagged
      intro hne
      simp only [decide_eq_true hne, Bool.or_true]
    · rwa [heq]

theorem acceptCommit_settled (offset : Int) : (t.acceptCommit offset).1.Settled := by
  apply settled_of_flagged
  intro hne
  simp only [acceptCommit, decide_eq_true (show t.gapBuffer ≠ [] from hne), Bool.or_true]

theorem tick_settled (h : t.Settled) (slices : SortFunc (WorkItem T)) (assigned : Bool) (k : PartitionTick) :
    (t.tick slices assigned k).1.Settled := by
  have hcollect := collectCommit_settled (flush_settled h slices k.flushTime) assigned k.repairTime
  exact tick_rule (P := fun q => q.1.Settled) slices k t hcollect acceptCommit_settled

theorem resetCommittedOffset_settled (o : Option (OffsetsTracker T)) (committedOffset : Int) :
    (resetCommittedOffset o committedOffset).1.Settled := by
  apply settled_of_flagged
  cases o with
  | none => simp [resetCommittedOffset]
  | some t =>
    intro hne
    simp only [resetCommittedOffset] at hne ⊢
    exact decide_eq_true hne

end OffsetsTracker

/-! ## Runs -/

section Runs
variable {slices : SortFunc (WorkItem T)} {h : History T} {p : Int} {t : OffsetsTracker T}

theorem settled_of_reachable (hr : (callSystem slices Call.Legal).Reachable h)
    (ht : h.committer.partitionMap p = some t) : t.Settled :=
  History.tracker_invariant OffsetsTracker.processCommit_settled
    (fun _ now hs => OffsetsTracker.flush_settled hs slices now)
    (fun _ assigned k hs => OffsetsTracker.tick_settled hs slices assigned k)
    (fun o offset _ => OffsetsTracker.resetCommittedOffset_settled o offset)
    (fun _ hs => hs) hr ht

/-- A tracker whose flag is down has nothing that a sort, a compaction and a walk would
advance over; so the flag-gated flush leaves the same `Ready` as an unconditional one. -/
theorem deferred_flag_sound (reachable : (callSystem slices Call.Legal).Reachable h)
    (tracked : h.committer.partitionMap p = some t) (sort : SortFunc (WorkItem T)) (now : Int) :
    (t.needsGapAdvance = false → (t.sortAndWalk sort now).1.ready = t.ready) ∧
      (t.flush sort now).1.ready = (t.sortAndWalk sort now).1.ready := by
  have hdown : t.needsGapAdvance = false → (t.sortAndWalk sort now).1.ready = t.ready :=
    fun hflag => (settled_of_reachable reachable tracked).sortAndWalk_ready hflag sort now
  refine ⟨hdown, ?_⟩
  unfold OffsetsTracker.flush
  split_ifs with h1 h2
  · exact (hdown (by simpa using h1)).symm
  · have hsorted : OffsetsTracker.sortGapBuffer sort t.gapBuffer = [] := by
      apply List.eq_nil_of_length_eq_zero
      have := OffsetsTracker.sortGapBuffer_length_le sort t.gapBuffer
      simp only [h2, List.length_nil] at this ⊢
      omega
    simp [OffsetsTracker.sortAndWalk, hsorted, OffsetsTracker.walk]
  · rfl

end Runs

/-- Record 0 is `Ready` and record 2 waits for record 1, which nothing has asked for. -/
def waitingHistory : History Unit :=
  [Call.processCommit ⟨0, { partition := 0, offset := 0 }, {}, -1, true, 0⟩ 1,
    Call.processCommit ⟨1, { partition := 0, offset := 2 }, {}, 1, false, 0⟩ 2].foldl
    (History.record (SortFunc.insertion (WorkItem Unit))) {}

theorem waitingHistory_reachable :
    (callSystem (SortFunc.insertion (WorkItem Unit)) Call.Legal).Reachable waitingHistory :=
  reachable_of_script 0 (R := fun _ _ => True) (fun _ _ hlegal _ => hlegal) (by decide)

theorem deferred_flag_sound_waiting :
    ∃ t, waitingHistory.committer.partitionMap 0 = some t ∧ t.gapBuffer ≠ [] ∧
      t.needsGapAdvance = false ∧
      (t.sortAndWalk (SortFunc.insertion (WorkItem Unit)) 3).1.ready = t.ready :=
  ⟨_, rfl, by decide, by decide, (deferred_flag_sound (p := 0) waitingHistory_reachable rfl
    (SortFunc.insertion (WorkItem Unit)) 3).1 (by decide)⟩

end LlingrDemux.Offset
