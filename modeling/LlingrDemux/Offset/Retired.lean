import LlingrDemux.Offset.TrackerSpec

/-!
# What the tracker's operations hand to the metrics collector

An operation neither keeps nor retires a work item that the tracker did not hold or
receive. `Keeps` says this for a property of stamps, over both halves of an operation's
result.
-/

namespace LlingrDemux.Offset.OffsetsTracker

open Shared
set_option autoImplicit false

variable {T : Type}

/-- Every work item left in the tracker or retired carries a stamp with property `Q`. -/
structure Keeps (Q : WorkItem.Stamp → Prop) (r : OffsetsTracker T × List (WorkItem T)) : Prop where
  items : AllItems Q r.1
  retired : ∀ w ∈ r.2, Q w.stamp

variable {Q : WorkItem.Stamp → Prop} {t : OffsetsTracker T} {w : WorkItem T}

theorem checkAndAdvance_keeps (h : AllItems Q t) (hw : Q w.stamp) (now : Int) :
    Keeps Q (t.checkAndAdvance w now) := by
  refine ⟨checkAndAdvance_allItems h hw now, ?_⟩
  intro g hg
  unfold checkAndAdvance at hg
  cases hr : t.ready with
  | none =>
    simp only [hr] at hg
    split_ifs at hg
    · simp at hg
    · rw [List.mem_singleton.mp hg]
      exact hw
    · simp at hg
    · simp at hg
  | some r =>
    simp only [hr] at hg
    split_ifs at hg
    · rw [List.mem_singleton.mp hg]
      exact hw
    · rw [List.mem_singleton.mp hg]
      exact h.ready r hr
    · simp at hg

theorem processCommit_keeps (o : Option (OffsetsTracker T)) (h : ∀ t, o = some t → AllItems Q t)
    (hw : Q w.stamp) (now : Int) : Keeps Q (processCommit o w now) := by
  have harrive : AllItems Q (arrive o w) := by
    cases o with
    | none =>
      rw [arrive, raiseFromFirst_eq]
      exact ⟨by simp [ofFirstSeen], by simp [ofFirstSeen]⟩
    | some t => exact arrive_allItems (h t rfl)
  apply checkAndAdvance_keeps harrive
  rw [stamp_markFirst]
  exact hw

theorem walk_retired (cpo last now : Int) (ready : Option (WorkItem T)) (l : List (WorkItem T))
    (hready : ∀ r, ready = some r → Q r.stamp) (hl : ∀ g ∈ l, Q g.stamp) :
    ∀ g ∈ (walk cpo last now ready l).retired, Q g.stamp := by
  fun_induction walk cpo last now ready l with
  | case1 ready => simp
  | case2 g gs hlt q ih =>
    intro x hx
    rcases List.mem_cons.mp hx with rfl | hx
    · exact hl g List.mem_cons_self
    · exact ih hready (fun y hy => hl y (List.mem_cons_of_mem g hy)) x hx
  | case3 g gs _ _ ih =>
    apply ih
    · rintro r ⟨⟩
      exact hl g List.mem_cons_self
    · exact fun y hy => hl y (List.mem_cons_of_mem g hy)
  | case4 g gs => simp
  | case5 r g gs hle q ih =>
    intro x hx
    rcases List.mem_cons.mp hx with rfl | hx
    · exact hl g List.mem_cons_self
    · exact ih hready (fun y hy => hl y (List.mem_cons_of_mem g hy)) x hx
  | case6 r g gs _ _ q ih =>
    intro x hx
    rcases List.mem_cons.mp hx with rfl | hx
    · exact hready x rfl
    · refine ih ?_ (fun y hy => hl y (List.mem_cons_of_mem g hy)) x hx
      rintro r' ⟨⟩
      exact hl g List.mem_cons_self
  | case7 r g gs => simp

theorem flush_keeps (slices : SortFunc (WorkItem T)) (h : AllItems Q t) (now : Int) :
    Keeps Q (t.flush slices now) := by
  refine ⟨flush_allItems slices h now, ?_⟩
  intro g hg
  unfold flush at hg
  split_ifs at hg
  · simp at hg
  · simp at hg
  · exact walk_retired _ _ _ _ _ h.ready
      (fun x hx => h.buffer x (mem_of_mem_sortGapBuffer slices _ hx)) g hg

theorem repairSuccessor_keeps (h : AllItems Q t) (now : Int) :
    Keeps Q (t.repairSuccessor now) := by
  refine ⟨repairSuccessor_allItems h now, ?_⟩
  intro g hg
  unfold repairSuccessor at hg
  split_ifs at hg
  · simp at hg
  · split at hg
    · simp at hg
    · obtain ⟨x, hx, rfl⟩ := List.mem_map.mp hg
      exact h.buffer x (List.mem_of_mem_filter hx)

theorem discardOrphanedTracker_keeps (h : AllItems Q t) : Keeps Q t.discardOrphanedTracker := by
  refine ⟨discardOrphanedTracker_allItems h, ?_⟩
  intro g hg
  unfold discardOrphanedTracker at hg
  split_ifs at hg
  · simp at hg
  · rcases List.mem_append.mp hg with hg | hg
    · obtain ⟨x, hx, rfl⟩ := List.mem_map.mp hg
      exact h.ready x (Option.mem_toList.mp hx)
    · obtain ⟨x, hx, rfl⟩ := List.mem_map.mp hg
      exact h.buffer x hx

theorem collectCommit_keeps (h : AllItems Q t) (assigned : Bool) (now : Int) :
    Keeps Q ((t.collectCommit assigned now).1, (t.collectCommit assigned now).2.1) := by
  cases assigned with
  | false => exact discardOrphanedTracker_keeps h
  | true =>
    have hq := repairSuccessor_keeps h now
    simp only [collectCommit, Bool.not_true, Bool.false_eq_true, if_false, repairSuccessor_guarded]
    cases hr : (t.repairSuccessor now).1.ready with
    | none => exact hq
    | some w =>
      simp only
      split_ifs
      · refine ⟨⟨by simp, hq.items.buffer⟩, ?_⟩
        intro g hg
        rcases List.mem_append.mp hg with hg | hg
        · exact hq.retired g hg
        · rw [List.mem_singleton.mp hg]
          exact hq.items.ready w hr
      · exact hq

theorem acceptCommit_keeps (h : AllItems Q t) (offset : Int) : Keeps Q (t.acceptCommit offset) :=
  ⟨acceptCommit_allItems h offset, fun g hg => h.ready g (Option.mem_toList.mp hg)⟩

theorem resetCommittedOffset_keeps (o : Option (OffsetsTracker T))
    (h : ∀ t, o = some t → AllItems Q t) (committedOffset : Int) :
    Keeps Q (resetCommittedOffset o committedOffset) := by
  cases o with
  | none => exact ⟨⟨by simp [resetCommittedOffset], by simp [resetCommittedOffset]⟩,
      by simp [resetCommittedOffset]⟩
  | some t =>
    have ht := h t rfl
    refine ⟨resetCommittedOffset_allItems ht committedOffset, ?_⟩
    intro g hg
    have hfilter : ∀ (q : WorkItem T → Bool), ∀ x ∈ (t.ready.filter q).toList, Q x.stamp :=
      fun q x hx => ht.ready x (Option.eq_some_of_filter_eq_some (Option.mem_toList.mp hx))
    simp only [resetCommittedOffset] at hg
    rcases List.mem_append.mp hg with hg | hg
    · obtain ⟨x, hx, rfl⟩ := List.mem_map.mp hg
      exact hfilter _ x hx
    · split at hg
      · rcases List.mem_append.mp hg with hg | hg
        · obtain ⟨x, hx, rfl⟩ := List.mem_map.mp hg
          exact hfilter _ x hx
        · obtain ⟨x, hx, rfl⟩ := List.mem_map.mp hg
          exact ht.buffer x hx
      · simp at hg

end LlingrDemux.Offset.OffsetsTracker
