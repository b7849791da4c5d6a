import LlingrDemux.Offset.OpenTracker
import LlingrDemux.Offset.Preserved

/-!
# Commit safety and monotonicity of the broker's position

The invariant of the step system of one partition: the ledger's own invariant and, in
an open epoch, the tracker's. Outside an epoch the tracker carries the revoke mark, so
the next reset discards what it holds.
-/

namespace LlingrDemux.Offset

open Shared OffsetsTracker Committer
set_option autoImplicit false

variable {T : Type}

namespace OffsetsTracker

theorem tick_unassigned (slices : SortFunc (WorkItem T)) (t : OffsetsTracker T) (k : PartitionTick) :
    (t.tick slices false k).2 = none := by
  simp [OffsetsTracker.tick, collectCommit]

end OffsetsTracker

/-- One partition's share of a tick, in an open epoch: nothing of it is accepted and the
tracker stays open, or the accepted item moves the ledger. -/
theorem Ledger.Open.tick {p : Int} {l : Ledger T} {t : OffsetsTracker T} (h : l.Inv p)
    (ho : l.Open t) (slices : SortFunc (WorkItem T)) (assigned : Bool) (k : PartitionTick) :
    (((t.tick slices assigned k).2 = none ∨ k.accepted = false) ∧
      l.Open (t.tick slices assigned k).1) ∨
    (∃ m, (t.tick slices assigned k).2 = some m ∧ k.accepted = true ∧ l.committed ≤ m.offset ∧
      (l.accept m).Inv p ∧ (l.accept m).Open (t.tick slices assigned k).1) := by
  have hflush := ho.flush h slices k.flushTime
  have hcollect := hflush.collect h assigned k.repairTime
  cases hoff : ((t.flush slices k.flushTime).1.collectCommit assigned k.repairTime).2.2 with
  | none =>
    rw [tick_of_none slices k t hoff]
    exact .inl ⟨.inl rfl, hcollect⟩
  | some m =>
    rw [tick_of_some slices k t hoff]
    cases hacc : k.accepted with
    | false => exact .inl ⟨.inr rfl, hcollect⟩
    | true =>
      refine .inr ⟨m, rfl, rfl, ?_⟩
      have hready := collectCommit_offered (Option.mem_def.mpr hoff)
      obtain ⟨hripe, _⟩ := hcollect.ready m hready
      have harr := hcollect.items.ready m hready
      have hbase : ((t.flush slices k.flushTime).1.collectCommit assigned
          k.repairTime).1.committedPlusOne ≤ m.offset := by
        cases assigned with
        | false => simp [collectCommit] at hoff
        | true =>
          rcases collectCommit_cases (t.flush slices k.flushTime).1 k.repairTime with
            ⟨_, _, hn⟩ | ⟨_, _, _, _, hn⟩ | ⟨w, _, hle, heq, hw⟩
          · simp [hn] at hoff
          · simp [hn] at hoff
          · rw [hw, Option.some.injEq] at hoff
            subst w
            rw [heq, repairSuccessor_committedPlusOne]
            exact hle
      exact ⟨hripe.committed_le, h.accept harr hripe,
        hcollect.accept hripe hbase (harr.nonneg h)⟩

namespace World

structure Inv (p : Int) (w : World T) : Prop where
  ledger : w.toLedger.Inv p
  keyed : w.committer.Keyed
  assigned : w.committer.assigned p = decide (w.phase = .assigned)
  flying : ∀ f ∈ w.inFlight, f ∈ w.history
  opened : w.phase ≠ .closed → ∃ t, w.committer.partitionMap p = some t ∧ w.toLedger.Open t
  closed : w.phase = .closed →
    (w.history = [] ∧ w.committer.partitionMap p = none) ∨
      ∃ t, w.committer.partitionMap p = some t ∧ t.assignment = .revoke

section
variable {slices : SortFunc (WorkItem T)} {p : Int} {w : World T}

theorem inv_init : ({} : World T).Inv p where
  ledger := Ledger.inv_init
  keyed := by simp [Keyed]
  assigned := rfl
  flying := by simp
  opened := fun h => absurd rfl h
  closed := fun _ => .inl ⟨rfl, rfl⟩

/-! ## Steps that do not touch the committer -/

theorem Inv.append (h : w.Inv p) {x : Int} (nonneg : 0 ≤ x) (above : ∀ y ∈ w.appended, y < x) :
    (w.append x).Inv p :=
  { h with
    ledger := h.ledger.append nonneg above
    opened := by
      intro hp
      obtain ⟨t, ht, ho⟩ := h.opened hp
      exact ⟨t, ht, ho.append h.ledger above⟩ }

theorem Inv.remove (h : w.Inv p) (kept : Int → Bool) : (w.remove kept).Inv p :=
  { h with
    ledger := h.ledger.remove kept
    opened := by
      intro hp
      obtain ⟨t, ht, ho⟩ := h.opened hp
      refine ⟨t, ht, ho.mono rfl rfl rfl rfl (fun _ hx => hx) (fun _ hf => hf) ?_⟩
      rintro x (hx | hx)
      · exact .inl (List.mem_of_mem_filter hx)
      · exact .inr hx }

theorem Inv.otherOwner (h : w.Inv p) {position : Int} (away : w.phase = .closed)
    (forward : w.committed ≤ position) : (w.otherOwner position).Inv p :=
  { h with
    ledger := h.ledger.otherOwner forward
    opened := fun hp => absurd away hp }

theorem Inv.fetch (h : w.Inv p) {item : WorkItem T} {prev : Prev.PartitionOffsets}
    (owned : w.phase = .assigned) (next : w.NextRecord item.offset)
    (partition : item.partition = p)
    (stamped : w.prev.getPrevious p item.offset = (prev, .ok (item.previousOffset, item.first))) :
    (w.fetch item prev).Inv p where
  ledger := h.ledger.fetch next.1 next.2.1 next.2.2 partition stamped
  keyed := h.keyed
  assigned := h.assigned
  flying := by
    intro f hf
    rcases List.mem_append.mp hf with hf | hf
    · exact List.mem_append_left _ (h.flying f hf)
    · exact List.mem_append_right _ hf
  opened := by
    intro hp
    obtain ⟨t, ht, ho⟩ := h.opened hp
    refine ⟨t, ht, ho.mono rfl rfl rfl rfl (fun _ hx => hx) (fun _ hf => hf) ?_⟩
    rintro x (hx | ⟨f, hf, he, ho⟩)
    · exact .inl hx
    · rcases List.mem_append.mp hf with hf | hf
      · exact .inr ⟨f, hf, he, ho⟩
      · rw [List.mem_singleton.mp hf] at ho
        exact .inl (ho ▸ next.1)
  closed := fun hp => by simp [World.fetch, owned] at hp

/-! ## Epoch changes -/

theorem Inv.reset (h : w.Inv p) {baseline : Int} (away : w.phase = .closed)
    (value : baseline = w.committed ∨ baseline < 0) : (w.reset p baseline).Inv p where
  ledger := h.ledger.reset _
  keyed := h.keyed.resetCommittedOffsets _
  assigned := by
    have he := resetCommittedOffsets_entry_same h.keyed (l := [(p, baseline)]) (by simp)
      List.mem_cons_self
    have := congrArg Prod.snd he
    simp only [entry] at this
    simp [World.reset, this, h.assigned, away]
  flying := h.flying
  opened := by
    intro _
    have he := resetCommittedOffsets_entry_same h.keyed (l := [(p, baseline)]) (by simp)
      List.mem_cons_self
    refine ⟨_, congrArg Prod.fst he, Ledger.Open.reset h.ledger _ ?_ value⟩
    intro t ht
    rcases h.closed away with ⟨_, hn⟩ | ⟨t', ht', hrev⟩
    · simp [hn] at ht
    · simp only [ht', Option.some.injEq] at ht
      exact ht ▸ hrev
  closed := fun hp => by simp [World.reset] at hp

theorem Inv.markAssigned (h : w.Inv p) (opening : w.phase = .opening) :
    (w.markAssigned p).Inv p where
  ledger := h.ledger
  keyed := h.keyed.markPartitionAssigned p
  assigned := by simp [World.markAssigned, markPartitionAssigned]
  flying := h.flying
  opened := fun _ => h.opened (by simp [opening])
  closed := fun hp => by simp [World.markAssigned] at hp

theorem Inv.markRevoked (h : w.Inv p) (owned : w.phase = .assigned) :
    (w.markRevoked p).Inv p where
  ledger := h.ledger
  keyed := h.keyed.markPartitionRevoked p
  assigned := by simp [World.markRevoked, markPartitionRevoked]
  flying := h.flying
  opened := fun hp => absurd rfl hp
  closed := by
    intro _
    obtain ⟨t, ht, _⟩ := h.opened (by simp [owned])
    refine .inr ⟨{ t with assignment := .revoke }, ?_, rfl⟩
    simp [World.markRevoked, markPartitionRevoked, ht]

/-! ## Completions, flushes and ticks -/

theorem Inv.complete (h : w.Inv p) {before : List (Fetched T)} {f : Fetched T}
    {after : List (Fetched T)} (flying : w.inFlight = before ++ f :: after)
    (known : w.phase ≠ .closed → w.unknownBaseline = true → f.item.first = true →
      f.epoch = w.epoch) (now : Int) : (w.complete before f after now).Inv p := by
  have hf : f ∈ w.history := h.flying f (by simp [flying])
  have hp : f.item.partition = p := h.ledger.partition f hf
  have hmap := processCommit_partitionMap_same w.committer f.item now
  rw [hp] at hmap
  exact {
    ledger := h.ledger.complete hf
    keyed := h.keyed.processCommit f.item now
    assigned := (congrFun (processCommit_assigned w.committer f.item now) p).trans h.assigned
    flying := by
      intro g hg
      apply h.flying g
      rw [flying]
      rcases List.mem_append.mp hg with hg | hg
      · exact List.mem_append_left _ hg
      · exact List.mem_append_right _ (List.mem_cons_of_mem f hg)
    opened := by
      intro hphase
      obtain ⟨t, ht, ho⟩ := h.opened hphase
      rw [ht] at hmap
      exact ⟨_, hmap, ho.complete h.ledger hf (known hphase) now⟩
    closed := by
      intro hphase
      rcases h.closed hphase with ⟨hn, _⟩ | ⟨t, ht, hrev⟩
      · simp [hn] at hf
      · rw [ht] at hmap
        exact .inr ⟨_, hmap, (processCommit_assignment t f.item now).trans hrev⟩ }

theorem Inv.flush (h : w.Inv p) {order : List Int} (iterates : w.committer.Iterates order)
    (now : Int) : (w.flush slices order now).Inv p := by
  obtain ⟨hmap, hassigned⟩ :=
    Prod.ext_iff.mp (flushGapBuffers_entry slices now h.keyed iterates p)
  simp only [entry] at hmap hassigned
  exact {
    ledger := h.ledger
    keyed := h.keyed.flushGapBuffers slices now order
    assigned := hassigned.trans h.assigned
    flying := h.flying
    opened := by
      intro hphase
      obtain ⟨t, ht, ho⟩ := h.opened hphase
      rw [ht] at hmap
      exact ⟨_, hmap, ho.flush h.ledger slices now⟩
    closed := by
      intro hphase
      rcases h.closed hphase with ⟨hn, hnone⟩ | ⟨t, ht, hrev⟩
      · rw [hnone] at hmap
        exact .inl ⟨hn, hmap⟩
      · rw [ht] at hmap
        exact .inr ⟨_, hmap, (flush_assignment slices t now).trans hrev⟩ }

theorem tick_of_guard_failed (slices : SortFunc (WorkItem T)) (p : Int) (w : World T) {k : Tick}
    (hg : k.guardAcquired = false) : w.tick slices p k = w := by
  simp [World.tick, World.taken, commitOffsets, hg]

/-- A tick that holds the guard: the tracker's own tick, and the broker takes what the
tracker offers when it accepts the batch. -/
theorem tick_spec (slices : SortFunc (WorkItem T)) (p : Int) (hk : w.committer.Keyed) {k : Tick}
    (hg : k.guardAcquired = true)
    (flushes : w.committer.Iterates k.flushOrder) (commits : w.committer.Iterates k.commitOrder) :
    (w.tick slices p k).committer.partitionMap p = (w.committer.partitionMap p).map
      (fun t => (t.tick slices (w.committer.assigned p) (k.partition p)).1) ∧
    (w.tick slices p k).committer.assigned p = w.committer.assigned p ∧
    w.taken slices p k = if k.accepted then ((w.committer.partitionMap p).bind fun t =>
      (t.tick slices (w.committer.assigned p) (k.partition p)).2).toList else [] := by
  obtain ⟨hentry, hsent⟩ := commitOffsets_entry slices k hk hg flushes commits p
  obtain ⟨hmap, hassigned⟩ := Prod.ext_iff.mp hentry
  refine ⟨hmap, hassigned, ?_⟩
  rw [← hsent, World.taken, commitOffsets_eq slices k hg]
  cases k.accepted with
  | false => cases (gatherCommits slices k w.committer).2 <;> simp
  | true => cases (gatherCommits slices k w.committer).2 <;> simp

theorem tick_ledger_of_nil {k : Tick} (h : w.taken slices p k = []) :
    (w.tick slices p k).toLedger = w.toLedger := by
  simp [World.tick, h]

theorem tick_ledger_of_one {k : Tick} {m : WorkItem T} (h : w.taken slices p k = [m]) :
    (w.tick slices p k).toLedger = w.toLedger.accept m := by
  simp [World.tick, h, Ledger.accept]

/-- In a state of the invariant a tick leaves the ledger alone or accepts one item, at or
above the committed position. -/
theorem Inv.tick (h : w.Inv p) (slices : SortFunc (WorkItem T)) {k : Tick}
    (flushes : w.committer.Iterates k.flushOrder) (commits : w.committer.Iterates k.commitOrder) :
    (w.tick slices p k).Inv p ∧
      ((w.tick slices p k).toLedger = w.toLedger ∨
        ∃ m, w.committed ≤ m.offset ∧ (w.tick slices p k).toLedger = w.toLedger.accept m) := by
  cases hg : k.guardAcquired with
  | false =>
    rw [tick_of_guard_failed slices p w hg]
    exact ⟨h, .inl rfl⟩
  | true =>
    obtain ⟨hmap, hassigned, htaken⟩ := tick_spec slices p h.keyed hg flushes commits
    have hkeyed : (w.tick slices p k).committer.Keyed := h.keyed.commitOffsets slices k
    have hphase : (w.tick slices p k).phase = w.phase := rfl
    have hhistory : (w.tick slices p k).history = w.history := rfl
    by_cases hclosed : w.phase = .closed
    · -- nothing of an unassigned partition is offered
      have hun : w.committer.assigned p = false := by rw [h.assigned, hclosed]; rfl
      have hnil : w.taken slices p k = [] := by
        rw [htaken, hun]
        cases w.committer.partitionMap p with
        | none => simp
        | some t => simp [tick_unassigned slices t (k.partition p)]
      have hledger := tick_ledger_of_nil hnil
      refine ⟨⟨hledger ▸ h.ledger, hkeyed, hassigned.trans h.assigned, h.flying,
        fun hp => absurd hclosed hp, fun _ => ?_⟩, .inl hledger⟩
      rcases h.closed hclosed with ⟨hn, hnone⟩ | ⟨t, ht, hrev⟩
      · rw [hnone] at hmap
        exact .inl ⟨hn, hmap⟩
      · rw [ht, hun] at hmap
        exact .inr ⟨_, hmap, (tick_assignment slices t false (k.partition p)).trans hrev⟩
    · obtain ⟨t, ht, ho⟩ := h.opened hclosed
      rw [ht] at hmap htaken
      simp only [Option.map_some, Option.bind_some] at hmap htaken
      rcases ho.tick h.ledger slices (w.committer.assigned p) (k.partition p) with
        ⟨hnone, ho'⟩ | ⟨m, hm, hacc, hle, hinv', ho'⟩
      · have hnil : w.taken slices p k = [] := by
          rcases hnone with hnone | hrej
          · simp [htaken, hnone]
          · rw [Tick.partition_accepted] at hrej
            simp [htaken, hrej]
        have hledger := tick_ledger_of_nil hnil
        exact ⟨⟨hledger ▸ h.ledger, hkeyed, hassigned.trans h.assigned, h.flying,
          fun _ => ⟨_, hmap, hledger ▸ ho'⟩, fun hp => absurd hp hclosed⟩, .inl hledger⟩
      · rw [Tick.partition_accepted] at hacc
        have hone : w.taken slices p k = [m] := by simp [htaken, hm, hacc]
        have hledger := tick_ledger_of_one hone
        exact ⟨⟨hledger ▸ hinv', hkeyed, hassigned.trans h.assigned, h.flying,
          fun _ => ⟨_, hmap, hledger ▸ ho'⟩, fun hp => absurd hp hclosed⟩, .inr ⟨m, hle, hledger⟩⟩

theorem Inv.step (h : w.Inv p) {w' : World T} (hs : Step slices p w w') : w'.Inv p := by
  cases hs with
  | append x nonneg above => exact h.append nonneg above
  | remove kept => exact h.remove kept
  | otherOwner position away forward => exact h.otherOwner away forward
  | reset baseline away value => exact h.reset away value
  | markAssigned opening => exact h.markAssigned opening
  | markRevoked owned => exact h.markRevoked owned
  | fetch item prev owned next partition stamped _ => exact h.fetch owned next partition stamped
  | complete before f after now flying known => exact h.complete flying known now
  | flush order now iterates => exact h.flush iterates now
  | tick k flushes commits => exact (h.tick slices flushes commits).1

theorem inv_of_reachable (h : (partitionSystem slices p).Reachable w) : w.Inv p := by
  refine System.invariant (P := World.Inv p) ?_ ?_ w h
  · rintro s rfl
    exact inv_init
  · intro s t _ hs hstep
    exact hs.step hstep

theorem Inv.committed_step (h : w.Inv p) {w' : World T} (hs : Step slices p w w') :
    w.committed ≤ w'.committed := by
  cases hs with
  | otherOwner position away forward => exact forward
  | tick k flushes commits =>
    rcases (h.tick slices flushes commits).2 with heq | ⟨m, hle, heq⟩
    · rw [heq]
    · rw [heq]
      change w.committed ≤ m.offset + 1
      omega
  | _ => exact le_rfl

end

/-- No record is lost: below the broker's position, whatever is still in the log or was
fetched in the current epoch has been given to `processCommit`, or lies below a position
that another owner committed. -/
theorem live_below_committed_done (slices : SortFunc (WorkItem T)) (p : Int) (w : World T)
    (h : (partitionSystem slices p).Reachable w) (x : Int) (hlive : w.Live x)
    (hx : x < w.committed) : w.Done x :=
  (inv_of_reachable h).ledger.safe x hlive hx

def sampleItem (ptr : Nat) (offset previousOffset : Int) (first : Bool) : WorkItem Unit where
  ptr := ptr
  message := { partition := 0, offset := offset }
  previousOffset := previousOffset
  first := first

def sampleFirst : Fetched Unit := ⟨1, sampleItem 0 0 (-1) true⟩

def sampleSecond : Fetched Unit := ⟨1, sampleItem 1 3 0 false⟩

/-- Records `0` and `3` in the log and an epoch opened at the broker's position. -/
def sampleOpened : World Unit := (((({} : World Unit).append 0).append 3).reset 0 0).markAssigned 0

/-- Both records fetched. -/
def sampleFetched : World Unit :=
  (sampleOpened.fetch sampleFirst.item (sampleOpened.prev.getPrevious 0 0).1).fetch
    sampleSecond.item ((sampleOpened.prev.getPrevious 0 0).1.getPrevious 0 3).1

/-- The second record completed before the first. -/
def sampleCompleted : World Unit :=
  (sampleFetched.complete [sampleFirst] sampleSecond [] 0).complete [] sampleFirst [] 0

theorem sampleOpened_reachable (slices : SortFunc (WorkItem Unit)) :
    (partitionSystem slices 0).Reachable sampleOpened := by
  have h0 : (partitionSystem slices 0).Reachable ({} : World Unit) := System.Reachable.init rfl
  have h1 := h0.step (Step.append {} 0 le_rfl (by simp))
  have h2 := h1.step (Step.append _ 3 (by decide) (by simp [World.append]))
  exact (h2.step (Step.reset _ 0 rfl (.inl rfl))).step (Step.markAssigned _ rfl)

theorem sampleFetched_reachable (slices : SortFunc (WorkItem Unit)) :
    (partitionSystem slices 0).Reachable sampleFetched := by
  have htracker : sampleOpened.committer.partitionMap 0 = some { committedPlusOne := 0 } := rfl
  have h1 := (sampleOpened_reachable slices).step (Step.fetch _ sampleFirst.item
    (sampleOpened.prev.getPrevious 0 0).1 rfl ⟨by decide, by decide, by decide⟩ rfl rfl (by
      rintro g (⟨f, hf, _⟩ | ⟨t, ht, hg⟩)
      · cases hf
      · rw [htracker] at ht
        cases ht
        simp at hg))
  refine h1.step (Step.fetch _ sampleSecond.item _ rfl ⟨by decide, by decide, by decide⟩ rfl rfl ?_)
  rintro g (⟨f, hf, rfl⟩ | ⟨t, ht, hg⟩)
  · rw [List.mem_singleton.mp hf]
    decide
  · change sampleOpened.committer.partitionMap 0 = some t at ht
    rw [htracker] at ht
    cases ht
    simp at hg

theorem sampleCompleted_reachable (slices : SortFunc (WorkItem Unit)) :
    (partitionSystem slices 0).Reachable sampleCompleted :=
  ((sampleFetched_reachable slices).step
    (Step.complete _ [sampleFirst] sampleSecond [] 0 rfl (fun _ _ _ => rfl))).step
    (Step.complete _ [] sampleFirst [] 0 rfl (fun _ _ _ => rfl))

def sampleTick : Tick where
  flushOrder := [0]
  commitOrder := [0]

theorem sampleCompleted_iterates : sampleCompleted.committer.Iterates [0] := by
  apply iterates_singleton
  · decide
  · intro q hq
    simp [hq, sampleCompleted, sampleFetched, sampleOpened, World.complete, World.fetch,
      World.markAssigned, World.reset, World.append, markPartitionAssigned, resetCommittedOffsets,
      resetPartition, Committer.processCommit, sampleFirst, sampleSecond, sampleItem,
      WorkItem.partition]

/-- The tick commits both records at once. -/
def sampleCommitted : World Unit := sampleCompleted.tick (SortFunc.insertion _) 0 sampleTick

theorem sampleCommitted_reachable :
    (partitionSystem (SortFunc.insertion (WorkItem Unit)) 0).Reachable sampleCommitted :=
  (sampleCompleted_reachable _).step
    (Step.tick _ sampleTick sampleCompleted_iterates sampleCompleted_iterates)

theorem live_below_committed_done_sample :
    sampleCommitted.committed = 4 ∧ sampleCommitted.Live 3 ∧ sampleCommitted.Done 3 :=
  have hlive : sampleCommitted.Live 3 := .inl (by decide)
  ⟨by decide, hlive, live_below_committed_done _ 0 sampleCommitted sampleCommitted_reachable 3 hlive
    (by decide)⟩

/-- The broker's position never moves back, and in one epoch the accepted commits carry
strictly increasing offsets. -/
theorem committed_monotone (slices : SortFunc (WorkItem T)) (p : Int) (w : World T)
    (h : (partitionSystem slices p).Reachable w) :
    (∀ w', (partitionSystem slices p).Run w w' → w.committed ≤ w'.committed) ∧
      w.accepted.Pairwise fun a b => a.1 = b.1 → a.2 < b.2 := by
  refine ⟨fun w' hrun => ?_, (inv_of_reachable h).ledger.accepted_increasing⟩
  exact System.run_monotone (fun w => w.committed)
    (fun a b ha hstep => (inv_of_reachable ha).committed_step hstep) h hrun

theorem committed_monotone_sample :
    sampleCompleted.committed = 0 ∧ sampleCommitted.committed = 4 ∧
      sampleCompleted.committed ≤ sampleCommitted.committed :=
  ⟨by decide, by decide, (committed_monotone _ 0 sampleCompleted (sampleCompleted_reachable _)).1 _
    (.single (Step.tick _ sampleTick sampleCompleted_iterates sampleCompleted_iterates))⟩

end World

end LlingrDemux.Offset
