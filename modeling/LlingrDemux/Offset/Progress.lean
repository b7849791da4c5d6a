import LlingrDemux.Offset.Preserved
import LlingrDemux.Offset.Safety
import LlingrDemux.Offset.Threaded

/-!
# No permanent stall

What the tracker knows of an epoch's records is kept by every step of the partition. A
tick therefore finds a `Ready` item as long as something is left to commit, and every
such tick makes the backlog smaller.
-/

namespace LlingrDemux.Offset

open Shared OffsetsTracker Committer
set_option autoImplicit false

variable {T : Type}

namespace World

structure Progress (p : Int) (w : World T) : Prop where
  threaded : w.Threaded
  opening : w.phase = .opening → ∀ f ∈ w.history, f.epoch ≠ w.epoch
  unique : ∀ g g', w.Holds p g → w.Holds p g' → g.ptr = g'.ptr → g.stamp = g'.stamp
  poised : ∀ t, w.committer.partitionMap p = some t → t.Poised
  tracked : w.ReadTimesIncrease → w.phase = .assigned →
    ∀ t, w.committer.partitionMap p = some t → w.Tracked t

/-- The stamps of the held work items. -/
def HoldsStamp (p : Int) (w : World T) (s : WorkItem.Stamp) : Prop := ∃ g, w.Holds p g ∧ g.stamp = s

section
variable {slices : SortFunc (WorkItem T)} {p : Int} {w w' : World T} {t t' : OffsetsTracker T}

theorem progress_init : ({} : World T).Progress p where
  threaded := ⟨by simp, by simp⟩
  opening := by simp
  unique := by simp [Holds]
  poised := by simp
  tracked := by simp

theorem holds_allItems (ht : w.committer.partitionMap p = some t) :
    AllItems (w.HoldsStamp p) t where
  ready r hr := ⟨r, .inr ⟨t, ht, .inl hr⟩, rfl⟩
  buffer g hg := ⟨g, .inr ⟨t, ht, .inr hg⟩, rfl⟩

/-- Held items are told apart by their identity as long as nothing new is held. -/
theorem Progress.unique_of_subset (h : w.Progress p)
    (flying : ∀ f ∈ w'.inFlight, f ∈ w.inFlight)
    (tracker : ∀ t', w'.committer.partitionMap p = some t' → AllItems (w.HoldsStamp p) t') :
    ∀ g g', w'.Holds p g → w'.Holds p g' → g.ptr = g'.ptr → g.stamp = g'.stamp := by
  have hsub : ∀ g, w'.Holds p g → w.HoldsStamp p g.stamp := by
    rintro g (⟨f, hf, rfl⟩ | ⟨t', ht', hr | hg⟩)
    · exact ⟨f.item, .inl ⟨f, flying f hf, rfl⟩, rfl⟩
    · exact (tracker t' ht').ready g hr
    · exact (tracker t' ht').buffer g hg
  intro g g' hg hg' hptr
  obtain ⟨a, ha, has⟩ := hsub g hg
  obtain ⟨b, hb, hbs⟩ := hsub g' hg'
  have hab : a.ptr = b.ptr := by
    have h1 : a.ptr = g.ptr := congrArg WorkItem.Stamp.ptr has
    have h2 : b.ptr = g'.ptr := congrArg WorkItem.Stamp.ptr hbs
    rw [h1, h2, hptr]
  exact has.symm.trans ((h.unique a b ha hb hab).trans hbs)

theorem Progress.buffer_unique (h : w.Progress p) (ht : w.committer.partitionMap p = some t) :
    ∀ a ∈ t.gapBuffer, ∀ b ∈ t.gapBuffer, a.ptr = b.ptr → a.stamp = b.stamp :=
  fun a ha b hb => h.unique a b (.inr ⟨t, ht, .inr ha⟩) (.inr ⟨t, ht, .inr hb⟩)

theorem Inv.tracker_of_history (h : w.Inv p) {f : Fetched T} (hf : f ∈ w.history) :
    ∃ t, w.committer.partitionMap p = some t := by
  by_cases hp : w.phase = .closed
  · rcases h.closed hp with ⟨hn, _⟩ | ⟨t, ht, _⟩
    · simp [hn] at hf
    · exact ⟨t, ht⟩
  · obtain ⟨t, ht, _⟩ := h.opened hp
    exact ⟨t, ht⟩

/-- The tracker of an assigned partition is the open one. -/
theorem Inv.open_of_assigned (h : w.Inv p) (owned : w.phase = .assigned)
    (ht : w.committer.partitionMap p = some t) : w.toLedger.Open t := by
  obtain ⟨t₀, ht₀, ho⟩ := h.opened (by simp [owned])
  rw [ht, Option.some.injEq] at ht₀
  subst t₀
  exact ho

section Mapped
variable {f : OffsetsTracker T → OffsetsTracker T}

/-- Nothing new is held when a step only changes the tracker, by an operation that brings in
no items. -/
theorem Progress.unique_of_map (h : w.Progress p) (flying : ∀ g ∈ w'.inFlight, g ∈ w.inFlight)
    (hmap : w'.committer.partitionMap p = (w.committer.partitionMap p).map f)
    (items : ∀ {Q t}, AllItems Q t → AllItems Q (f t)) :
    ∀ g g', w'.Holds p g → w'.Holds p g' → g.ptr = g'.ptr → g.stamp = g'.stamp := by
  apply h.unique_of_subset flying
  intro t' ht'
  rw [hmap, Option.map_eq_some_iff] at ht'
  obtain ⟨t, ht, rfl⟩ := ht'
  exact items (holds_allItems ht)

theorem Progress.poised_of_map (h : w.Progress p)
    (hmap : w'.committer.partitionMap p = (w.committer.partitionMap p).map f)
    (keeps : ∀ t, t.Poised → (f t).Poised) :
    ∀ t, w'.committer.partitionMap p = some t → t.Poised := by
  intro t' ht'
  rw [hmap, Option.map_eq_some_iff] at ht'
  obtain ⟨t, ht, rfl⟩ := ht'
  exact keeps t (h.poised t ht)

end Mapped

/-! ## One lemma for each kind of step -/

theorem Progress.reset (hp : w.Progress p) (h : w.Inv p) (baseline : Int) :
    (w.reset p baseline).Progress p := by
  have he := resetCommittedOffsets_entry_same h.keyed (l := [(p, baseline)]) (by simp)
    List.mem_cons_self
  have hmap : (w.reset p baseline).committer.partitionMap p = _ := congrArg Prod.fst he
  exact {
    threaded := ⟨hp.threaded.unique, hp.threaded.chain⟩
    opening := by
      intro _ f hf heq
      have hle := h.ledger.epoch_le f hf
      change f.epoch = w.epoch + 1 at heq
      omega
    unique := by
      apply hp.unique_of_subset
      · exact fun f hf => hf
      · intro t' ht'
        rw [hmap, Option.some.injEq] at ht'
        subst t'
        cases ht : w.committer.partitionMap p with
        | none => exact ⟨by simp [resetCommittedOffset], by simp [resetCommittedOffset]⟩
        | some t => exact resetCommittedOffset_allItems (holds_allItems ht) baseline
    poised := by
      intro t' ht'
      rw [hmap, Option.some.injEq] at ht'
      subst t'
      exact resetCommittedOffset_poised _ _
    tracked := fun _ ha => by simp [World.reset] at ha }

theorem Progress.markAssigned (hp : w.Progress p) (h : w.Inv p) (opening : w.phase = .opening) :
    (w.markAssigned p).Progress p where
  threaded := hp.threaded
  opening := fun ha => by simp [World.markAssigned] at ha
  unique := hp.unique
  poised := hp.poised
  tracked := by
    intro _ _ t _
    have hnone : ∀ f ∈ w.completed, f.epoch ≠ w.epoch :=
      fun f hf => hp.opening opening f (h.ledger.completed_history f hf)
    exact ⟨fun f hf he => absurd he (hnone f hf), fun f hf he => absurd he (hnone f hf)⟩

theorem Progress.markRevoked (hp : w.Progress p) : (w.markRevoked p).Progress p := by
  have hmap : (w.markRevoked p).committer.partitionMap p =
      (w.committer.partitionMap p).map fun t => { t with assignment := .revoke } := by
    simp [World.markRevoked, markPartitionRevoked]
  exact {
    threaded := hp.threaded
    opening := fun ha => by simp [World.markRevoked] at ha
    unique := hp.unique_of_map (fun g hg => hg) hmap fun h => ⟨h.ready, h.buffer⟩
    poised := hp.poised_of_map hmap fun t ht => ht
    tracked := fun _ ha => by simp [World.markRevoked] at ha }

theorem Progress.fetch (hp : w.Progress p) (h : w.Inv p) {item : WorkItem T}
    {prev : Prev.PartitionOffsets} (owned : w.phase = .assigned) (next : w.NextRecord item.offset)
    (stamped : w.prev.getPrevious p item.offset = (prev, .ok (item.previousOffset, item.first)))
    (fresh : ∀ g, w.Holds p g → g.ptr ≠ item.ptr) : (w.fetch item prev).Progress p where
  threaded := hp.threaded.fetch h.ledger next.2.1 stamped
  opening := fun ha => by simp [World.fetch, owned] at ha
  unique := by
    have hcase : ∀ g, (w.fetch item prev).Holds p g → w.Holds p g ∨ g = item := by
      rintro g (⟨f, hf, rfl⟩ | hg)
      · rcases List.mem_append.mp hf with hf | hf
        · exact .inl (.inl ⟨f, hf, rfl⟩)
        · rw [List.mem_singleton.mp hf]
          exact .inr rfl
      · exact .inl (.inr hg)
    intro g g' hg hg' hptr
    rcases hcase g hg with hold | hnew
    · rcases hcase g' hg' with hold' | hnew'
      · exact hp.unique g g' hold hold' hptr
      · exact absurd (hptr.trans (congrArg WorkItem.ptr hnew')) (fresh g hold)
    · rcases hcase g' hg' with hold' | hnew'
      · exact absurd (hptr.symm.trans (congrArg WorkItem.ptr hnew)) (fresh g' hold')
      · rw [hnew, hnew']
  poised := hp.poised
  tracked := by
    intro htimes ha t ht
    have htr := hp.tracked (fun f hf f' hf' => htimes f (List.mem_append_left _ hf) f'
      (List.mem_append_left _ hf')) ha t ht
    exact ⟨htr.accounted, htr.firstRaised⟩

theorem Progress.complete (hp : w.Progress p) (h : w.Inv p) {before : List (Fetched T)}
    {f : Fetched T} {after : List (Fetched T)} (flying : w.inFlight = before ++ f :: after)
    (now : Int) : (w.complete before f after now).Progress p := by
  have hfly : f ∈ w.inFlight := by simp [flying]
  have hf : f ∈ w.history := h.flying f hfly
  obtain ⟨t, ht⟩ := h.tracker_of_history hf
  have hmap := processCommit_partitionMap_same w.committer f.item now
  rw [h.ledger.partition f hf, ht] at hmap
  exact {
    threaded := ⟨hp.threaded.unique, hp.threaded.chain⟩
    opening := hp.opening
    unique := by
      apply hp.unique_of_subset
      · intro g hg
        rw [flying]
        rcases List.mem_append.mp hg with hg | hg
        · exact List.mem_append_left _ hg
        · exact List.mem_append_right _ (List.mem_cons_of_mem f hg)
      · intro t' ht'
        rw [World.complete, hmap, Option.some.injEq] at ht'
        subst t'
        exact processCommit_allItems (holds_allItems ht) ⟨f.item, .inl ⟨f, hfly, rfl⟩, rfl⟩ now
    poised := by
      intro t' ht'
      rw [World.complete, hmap, Option.some.injEq] at ht'
      subst t'
      exact processCommit_poised (hp.poised t ht)
    tracked := by
      intro htimes ha t' ht'
      rw [World.complete, hmap, Option.some.injEq] at ht'
      subst t'
      have ho := h.open_of_assigned ha ht
      exact (hp.tracked htimes ha t ht).complete h.ledger ho hf now }

theorem Progress.flush (hp : w.Progress p) (h : w.Inv p) {order : List Int}
    (iterates : w.committer.Iterates order) (now : Int) :
    (w.flush slices order now).Progress p := by
  have hmap : (w.flush slices order now).committer.partitionMap p =
      (w.committer.partitionMap p).map fun t => (t.flush slices now).1 :=
    congrArg Prod.fst (flushGapBuffers_entry slices now h.keyed iterates p)
  exact {
    threaded := hp.threaded
    opening := hp.opening
    unique := hp.unique_of_map (fun g hg => hg) hmap fun h => flush_allItems slices h now
    poised := hp.poised_of_map hmap fun _ => flush_poised slices now
    tracked := by
      intro htimes ha t' ht'
      rw [hmap, Option.map_eq_some_iff] at ht'
      obtain ⟨t, ht, rfl⟩ := ht'
      have ho := h.open_of_assigned ha ht
      have htr := hp.tracked htimes ha t ht
      refine ⟨fun f hf he hc => ?_, fun f hf he hfirst hc => ?_⟩
      · have hhist := h.ledger.completed_history f hf
        exact flush_accounts slices now (htr.accounted f hf he hc)
          (hp.threaded.latest h.ledger ho htimes hhist he)
          (ho.baseline f.offset (.inr ⟨f, hhist, he, rfl⟩) hc)
      · rw [flush_committedPlusOne]
        exact htr.firstRaised f hf he hfirst hc }

theorem Progress.tick (hp : w.Progress p) (h : w.Inv p) (slices : SortFunc (WorkItem T)) {k : Tick}
    (flushes : w.committer.Iterates k.flushOrder) (commits : w.committer.Iterates k.commitOrder) :
    (w.tick slices p k).Progress p := by
  cases hg : k.guardAcquired with
  | false => rwa [tick_of_guard_failed slices p w hg]
  | true =>
    obtain ⟨hmap, _, htaken⟩ := tick_spec slices p h.keyed hg flushes commits
    exact {
      threaded := ⟨hp.threaded.unique, hp.threaded.chain⟩
      opening := hp.opening
      unique := hp.unique_of_map (fun g hg => hg) hmap fun h =>
        OffsetsTracker.tick_allItems h slices _ _
      poised := hp.poised_of_map hmap fun _ h => tick_poised slices h _ _
      tracked := by
        intro htimes ha t' ht'
        rw [hmap, Option.map_eq_some_iff] at ht'
        obtain ⟨t, ht, rfl⟩ := ht'
        change w.phase = .assigned at ha
        have ho := h.open_of_assigned ha ht
        have hassigned : w.committer.assigned p = true := by rw [h.assigned, ha]; rfl
        have htr := hp.tracked htimes ha t ht
        rw [ht, hassigned, Option.bind_some] at htaken
        rw [hassigned]
        cases hoff : (t.tick slices true (k.partition p)).2 with
        | none =>
          rw [tick_ledger_of_nil (by simp [htaken, hoff])]
          exact htr.tick h.ledger ho hp.threaded htimes (hp.buffer_unique ht) slices _ (.inl hoff)
        | some m =>
          cases hacc : k.accepted with
          | false =>
            rw [tick_ledger_of_nil (by simp [htaken, hacc])]
            exact htr.tick h.ledger ho hp.threaded htimes (hp.buffer_unique ht) slices _ (.inr hacc)
          | true =>
            have hone : w.taken slices p k = [m] := by simp [htaken, hoff, hacc]
            rw [tick_ledger_of_one hone]
            rcases ho.tick h.ledger slices true (k.partition p) with ⟨hno, _⟩ | ⟨m', hm', _, hle, _⟩
            · simp [hoff, hacc] at hno
            · rw [hoff, Option.some.injEq] at hm'
              subst m'
              exact htr.accept h.ledger ho hp.threaded htimes (hp.buffer_unique ht) slices _ hoff hle }

theorem Progress.step (hp : w.Progress p) (h : w.Inv p) (hs : Step slices p w w') :
    w'.Progress p := by
  cases hs with
  | append x nonneg above =>
    refine ⟨⟨hp.threaded.unique, hp.threaded.chain⟩, hp.opening, hp.unique, hp.poised, ?_⟩
    intro htimes ha t ht
    have htr := hp.tracked htimes ha t ht
    exact ⟨htr.accounted, htr.firstRaised⟩
  | remove kept =>
    refine ⟨⟨hp.threaded.unique, hp.threaded.chain⟩, hp.opening, hp.unique, hp.poised, ?_⟩
    intro htimes ha t ht
    have htr := hp.tracked htimes ha t ht
    exact ⟨htr.accounted, htr.firstRaised⟩
  | otherOwner position away forward =>
    refine ⟨⟨hp.threaded.unique, hp.threaded.chain⟩, hp.opening, hp.unique, hp.poised, ?_⟩
    intro _ ha
    simp [World.otherOwner, away] at ha
  | reset baseline away value => exact hp.reset h baseline
  | markAssigned opening => exact hp.markAssigned h opening
  | markRevoked owned => exact hp.markRevoked
  | fetch item prev owned next partition stamped fresh =>
    exact hp.fetch h owned next stamped fresh
  | complete before f after now flying known => exact hp.complete h flying now
  | flush order now iterates => exact hp.flush h iterates now
  | tick k flushes commits => exact hp.tick h slices flushes commits

theorem progress_of_reachable (h : (partitionSystem slices p).Reachable w) : w.Progress p := by
  refine System.invariant (P := World.Progress p) ?_ ?_ w h
  · rintro s rfl
    exact progress_init
  · intro s t hr hs hstep
    exact hs.step (inv_of_reachable hr) hstep

end

/-! ## Successful ticks -/

/-- A `CommitOffsets` call that returns `nil`. -/
def Commits (slices : SortFunc (WorkItem T)) (p : Int) (w w' : World T) : Prop :=
  ∃ k : Tick, w.committer.Iterates k.flushOrder ∧ w.committer.Iterates k.commitOrder ∧
    (w.committer.commitOffsets slices k).error = none ∧ w' = w.tick slices p k

/-- The tracker's backlog at `p`. -/
def backlog (p : Int) (w : World T) : Nat :=
  match w.committer.partitionMap p with
  | none => 0
  | some t => t.backlog

/-- Every record fetched in the current epoch is committed. -/
def CaughtUp (w : World T) : Prop := ∀ f ∈ w.history, f.epoch = w.epoch → f.offset < w.committed

/-- The states between the successful ticks. -/
structure Settled (slices : SortFunc (WorkItem T)) (p : Int) (w : World T) : Prop where
  reachable : (partitionSystem slices p).Reachable w
  times : w.ReadTimesIncrease
  owned : w.phase = .assigned
  done : ∀ f ∈ w.history, f.epoch = w.epoch → f ∈ w.completed

section
variable {slices : SortFunc (WorkItem T)} {p : Int} {w w' : World T}

theorem Commits.step (h : Commits slices p w w') : Step slices p w w' := by
  obtain ⟨k, hf, hc, _, rfl⟩ := h
  exact .tick w k hf hc

theorem commits_frame {n : Nat} (h : Steps (Commits slices p) n w w') :
    w'.history = w.history ∧ w'.epoch = w.epoch := by
  induction h with
  | refl s => exact ⟨rfl, rfl⟩
  | head step rest ih =>
    obtain ⟨k, _, _, _, rfl⟩ := step
    exact ih

theorem Settled.commits (h : w.Settled slices p) (hs : Commits slices p w w') :
    w'.Settled slices p := by
  have hreach := h.reachable.step hs.step
  obtain ⟨k, _, _, _, rfl⟩ := hs
  exact ⟨hreach, h.times, h.owned, h.done⟩

/-- What an offered item says about a call that returned `nil`. -/
theorem accepted_of_offered (hk : w.committer.Keyed) {k : Tick}
    (flushes : w.committer.Iterates k.flushOrder) (commits : w.committer.Iterates k.commitOrder)
    (hg : k.guardAcquired = true) (herr : (w.committer.commitOffsets slices k).error = none)
    {t : OffsetsTracker T} (ht : w.committer.partitionMap p = some t)
    (hoff : (t.tick slices (w.committer.assigned p) (k.partition p)).2.isSome = true) :
    k.accepted = true := by
  have hsent := (commitOffsets_entry slices k hk hg flushes commits p).2
  obtain ⟨m, hm⟩ := Option.isSome_iff_exists.mp hoff
  rw [ht, Option.bind_some, hm] at hsent
  rcases (commitOffsets_error_none slices k herr).2 with hacc | hempty
  · exact hacc
  · rw [hempty] at hsent
    cases hsent

theorem Settled.progress (h : w.Settled slices p) (hs : Commits slices p w w') :
    w'.CaughtUp ∨ (¬ w.CaughtUp ∧ w'.backlog p < w.backlog p) := by
  have hinv := inv_of_reachable h.reachable
  have hmono := hinv.committed_step hs.step
  obtain ⟨k, flushes, commits, herr, rfl⟩ := hs
  by_cases hcaught : w.CaughtUp
  · exact .inl fun f hf he => (hcaught f hf he).trans_le hmono
  · refine .inr ⟨hcaught, ?_⟩
    have hp := progress_of_reachable h.reachable
    simp only [CaughtUp, not_forall, not_lt] at hcaught
    obtain ⟨f, hf, he, hc⟩ := hcaught
    have hg := (commitOffsets_error_none slices k herr).1
    obtain ⟨t, ht, ho⟩ := hinv.opened (by simp [h.owned])
    have hassigned : w.committer.assigned p = true := by rw [hinv.assigned, h.owned]; rfl
    have hready := (hp.tracked h.times h.owned t ht).repaired_ready hinv.ledger ho hp.threaded
      h.times (hp.poised t ht) h.done hf he hc slices (k.partition p)
    have hmap := (tick_spec slices p hinv.keyed hg flushes commits).1
    rw [ht, hassigned, Option.map_some] at hmap
    simp only [backlog, hmap, ht]
    apply tick_backlog slices (k.partition p) hready
    intro hoff
    exact accepted_of_offered hinv.keyed flushes commits hg herr ht (hassigned ▸ hoff)

theorem Settled.caughtUp_of_backlog (h : w.Settled slices p) (hzero : w.backlog p = 0) :
    w.CaughtUp := by
  intro f hf he
  by_contra hc
  have hp := progress_of_reachable h.reachable
  obtain ⟨t, ht, _⟩ := (inv_of_reachable h.reachable).opened (by simp [h.owned])
  simp only [World.backlog, ht, OffsetsTracker.backlog] at hzero
  have hacc := (hp.tracked h.times h.owned t ht).accounted f (h.done f hf he) he (by omega)
  rcases hacc with ⟨r, hr, _⟩ | ⟨g, hg, _⟩
  · simp [hr] at hzero
  · have := List.length_pos_of_mem hg
    omega

end

/-- No permanent stall: with everything of the current epoch completed, two successful
ticks more than the gap buffer has items commit every record fetched in the epoch, the last
one included. -/
theorem commits_reach_last_fetched (slices : SortFunc (WorkItem T)) (p : Int) (w w' : World T)
    (h : (partitionSystem slices p).Reachable w) (times : w.ReadTimesIncrease)
    (owned : w.phase = .assigned) (done : ∀ f ∈ w.history, f.epoch = w.epoch → f ∈ w.completed)
    (t : OffsetsTracker T) (ht : w.committer.partitionMap p = some t)
    (ticks : Steps (Commits slices p) (t.gapBuffer.length + 2) w w') (f : Fetched T)
    (hf : f ∈ w.history) (he : f.epoch = w.epoch) : f.offset < w'.committed := by
  have hsettled : w.Settled slices p := ⟨h, times, owned, done⟩
  have hrank : w.backlog p ≤ t.gapBuffer.length + 2 := by
    simp only [World.backlog, ht, OffsetsTracker.backlog]
    cases t.ready <;> simp
  have hgoal : w'.CaughtUp := ticks.reaches (fun _ _ hs hstep => hs.commits hstep)
    (fun _ _ hs hstep => hs.progress hstep) (fun _ hs => hs.caughtUp_of_backlog) hsettled
    (.inr hrank)
  obtain ⟨hhist, hepoch⟩ : w'.history = w.history ∧ w'.epoch = w.epoch := commits_frame ticks
  exact hgoal f (hhist ▸ hf) (hepoch ▸ he)

theorem commits_iterates {slices : SortFunc (WorkItem T)} {p : Int} {w w' : World T}
    (hk : w.committer.Keyed) (h : Commits slices p w w') {order : List Int}
    (iterates : w.committer.Iterates order) : w'.committer.Iterates order := by
  obtain ⟨k, flushes, commits, herr, rfl⟩ := h
  refine ⟨iterates.1, fun q => ?_⟩
  have hg : k.guardAcquired = true := by
    cases hg : k.guardAcquired with
    | true => rfl
    | false => simp [commitOffsets, hg] at herr
  have hmap := congrArg Prod.fst (commitOffsets_entry slices k hk hg flushes commits q).1
  simp only [entry] at hmap
  rw [iterates.2 q, World.tick, hmap, Option.isSome_map]

/-- The sample run after `n` further ticks. -/
def sampleTicks : Nat → World Unit
  | 0 => sampleCompleted
  | n + 1 => (sampleTicks n).tick (SortFunc.insertion _) 0 sampleTick

theorem commits_reach_last_fetched_sample :
    sampleCompleted.committed = 0 ∧ 3 < (sampleTicks 3).committed := by
  have h0 : Commits (SortFunc.insertion _) 0 (sampleTicks 0) (sampleTicks 1) :=
    ⟨sampleTick, sampleCompleted_iterates, sampleCompleted_iterates, by decide, rfl⟩
  have k0 := (inv_of_reachable (sampleCompleted_reachable (SortFunc.insertion _))).keyed
  have i1 := commits_iterates k0 h0 sampleCompleted_iterates
  have h1 : Commits (SortFunc.insertion _) 0 (sampleTicks 1) (sampleTicks 2) :=
    ⟨sampleTick, i1, i1, by decide, rfl⟩
  have k1 : (sampleTicks 1).committer.Keyed := k0.commitOffsets _ _
  have i2 := commits_iterates k1 h1 i1
  have h2 : Commits (SortFunc.insertion _) 0 (sampleTicks 2) (sampleTicks 3) :=
    ⟨sampleTick, i2, i2, by decide, rfl⟩
  refine ⟨by decide, ?_⟩
  exact commits_reach_last_fetched (SortFunc.insertion _) 0 sampleCompleted (sampleTicks 3)
    (sampleCompleted_reachable _) (by unfold Ledger.ReadTimesIncrease; decide) rfl (by decide) _ rfl
    (.head h0 (.head h1 (.head h2 (.refl _)))) sampleSecond (by decide) rfl

end World

end LlingrDemux.Offset
