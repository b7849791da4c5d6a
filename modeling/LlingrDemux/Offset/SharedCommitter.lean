import LlingrDemux.Offset.Calls
import LlingrDemux.Offset.Progress
import LlingrDemux.Shared.Simulation

/-!
# One partition of a committer that serves many

The step system of one partition, with the same committer taking calls for any other
partitions in between: their completions, resets and marks. Flushes and ticks run over the
whole partition map. Such a run is matched, step by step, by a run in which the committer has
the one partition only, so what holds there of the broker's position holds here.
-/

namespace LlingrDemux.Offset

open Shared OffsetsTracker Committer
set_option autoImplicit false

variable {T : Type} {slices : SortFunc (WorkItem T)} {p : Int}

/-- A call for other partitions than `p`. -/
def Call.Avoids (p : Int) : Call T → Prop
  | .processCommit w _ => w.partition ≠ p
  | .resetCommittedOffsets partitionOffsets => p ∉ partitionOffsets.map Prod.fst
  | .markPartitionAssigned q | .markPartitionRevoked q => q ≠ p
  | .flushGapBuffers _ _ | .commitOffsets _ => False

theorem Slice.step_of_avoids {call : Call T} (away : call.Avoids p) (s : Slice T) :
    s.step slices p call = s := by
  cases call with
  | processCommit w now => exact if_neg away
  | flushGapBuffers order now => exact away.elim
  | commitOffsets k => exact away.elim
  | resetCommittedOffsets l =>
    have hfind : l.find? (fun r => r.1 == p) = none := by
      apply List.find?_eq_none.mpr
      intro r hr hrp
      exact away (List.mem_map.mpr ⟨r, hr, by simpa using hrp⟩)
    simp only [Slice.step, hfind]
  | markPartitionAssigned q => exact if_neg away
  | markPartitionRevoked q => exact if_neg away

namespace World

/-- A call for another partition. -/
def otherCall (slices : SortFunc (WorkItem T)) (w : World T) (call : Call T) : World T :=
  { w with committer := call.run slices w.committer }

inductive SharedStep (slices : SortFunc (WorkItem T)) (p : Int) : World T → World T → Prop where
  | own {w w' : World T} (step : Step slices p w w') : SharedStep slices p w w'
  | other (w : World T) (call : Call T) (legal : call.Legal w.committer) (away : call.Avoids p) :
      SharedStep slices p w (w.otherCall slices call)

end World

/-- The step system of partition `p` of a committer that serves others, too. -/
def sharedSystem (slices : SortFunc (WorkItem T)) (p : Int) : System (World T) where
  init w := w = {}
  step := World.SharedStep slices p

/-- `d` is what `c` has of partition `p`, by itself. -/
structure Committer.Alone (p : Int) (c d : Committer T) : Prop where
  keyed : c.Keyed
  keyed_alone : d.Keyed
  slice : d.slice p = c.slice p
  only : d.Only p

/-- The order in which a loop over the map visits the one entry, if there is one. -/
def Committer.soleOrder (p : Int) (d : Committer T) : List Int :=
  if (d.partitionMap p).isSome then [p] else []

theorem Committer.Only.iterates {d : Committer T} (h : d.Only p) : d.Iterates (d.soleOrder p) := by
  unfold soleOrder
  split
  · rename_i hsome
    exact iterates_singleton hsome h
  · rename_i hnone
    refine ⟨List.nodup_nil, fun q => ?_⟩
    by_cases hq : q = p
    · subst hq
      simpa using hnone
    · simp [h q hq]

namespace Committer.Alone
variable {c d : Committer T}

theorem empty : Alone p ({} : Committer T) {} where
  keyed _ _ ht := by cases ht
  keyed_alone _ _ ht := by cases ht
  slice := rfl
  only _ _ := rfl

theorem partitionMap (h : Alone p c d) : d.partitionMap p = c.partitionMap p :=
  congrArg Slice.tracker h.slice

theorem assigned (h : Alone p c d) : d.assigned p = c.assigned p :=
  congrArg Slice.assigned h.slice

/-- Calls that do the same to the partition on both sides. -/
theorem run (h : Alone p c d) (slices : SortFunc (WorkItem T)) (call call' : Call T)
    (legal : call.Legal c) (legal' : call'.Legal d)
    (same : ∀ s : Slice T, s.step slices p call' = s.step slices p call)
    (only : (call'.run slices d).Only p) :
    Alone p (call.run slices c) (call'.run slices d) where
  keyed := h.keyed.run slices call
  keyed_alone := h.keyed_alone.run slices call'
  slice := by rw [run_slice h.keyed_alone slices legal' p, run_slice h.keyed slices legal p, same,
    h.slice]
  only := only

/-- A call that the partition alone could have made. -/
theorem run_at (h : Alone p c d) (slices : SortFunc (WorkItem T)) (call : Call T)
    (legal : call.Legal c) (hat : call.At p d) :
    Alone p (call.run slices c) (call.run slices d) :=
  h.run slices call call legal (hat.legal h.only) (fun _ => rfl)
    (h.only.run h.keyed_alone slices hat)

theorem run_other (h : Alone p c d) {call : Call T} (legal : call.Legal c) (away : call.Avoids p) :
    Alone p (call.run slices c) d where
  keyed := h.keyed.run slices call
  keyed_alone := h.keyed_alone
  slice := by rw [run_slice h.keyed slices legal p, Slice.step_of_avoids away, h.slice]
  only := h.only

theorem flushGapBuffers (h : Alone p c d) {order : List Int} (iterates : c.Iterates order)
    (now : Int) : Alone p (c.flushGapBuffers slices order now)
      (d.flushGapBuffers slices (d.soleOrder p) now) := by
  refine h.run slices (.flushGapBuffers order now) (.flushGapBuffers (d.soleOrder p) now)
    iterates h.only.iterates (fun _ => rfl) ?_
  intro q hq
  exact (preserves_flushGapBuffers slices h.keyed_alone h.only.iterates now).absent q (h.only q hq)

end Committer.Alone

/-- The call with the loops of a committer that has the partition alone. -/
def Tick.sole (p : Int) (d : Committer T) (k : Tick) : Tick :=
  { k with flushOrder := d.soleOrder p, commitOrder := d.soleOrder p }

theorem Committer.Alone.commitOffsets {c d : Committer T} (h : Alone p c d) {k : Tick}
    (flushes : c.Iterates k.flushOrder) (commits : c.Iterates k.commitOrder) :
    Alone p (c.commitOffsets slices k).committer
      (d.commitOffsets slices (k.sole p d)).committer := by
  refine h.run slices (.commitOffsets k) (.commitOffsets (k.sole p d))
    ⟨flushes, commits⟩ ⟨h.only.iterates, h.only.iterates⟩ (fun _ => rfl) ?_
  intro q hq
  exact (preserves_commitOffsets slices h.keyed_alone (k := k.sole p d) h.only.iterates
    h.only.iterates).absent q (h.only q hq)

namespace World
variable {w w' : World T} {d : Committer T}

/-- The same world with the partition's part of the committer by itself. -/
def alone (w : World T) (d : Committer T) : World T := { w with committer := d }

/-- What relates a world to that of the partition alone. -/
def View (p : Int) (w v : World T) : Prop := ∃ d, v = w.alone d ∧ w.committer.Alone p d

theorem holds_alone (h : w.committer.Alone p d) {g : WorkItem T} :
    (w.alone d).Holds p g ↔ w.Holds p g := by
  simp only [Holds, alone, h.partitionMap]

theorem taken_alone (h : w.committer.Alone p d) {k : Tick}
    (flushes : w.committer.Iterates k.flushOrder) (commits : w.committer.Iterates k.commitOrder) :
    (w.alone d).taken slices p (k.sole p d) = w.taken slices p k := by
  cases hg : k.guardAcquired with
  | false =>
    simp [taken, alone, Committer.commitOffsets, Tick.sole, hg]
  | true =>
    have hsole : (k.sole p d).guardAcquired = true := hg
    rw [(tick_spec slices p (w := w.alone d) h.keyed_alone hsole h.only.iterates
      h.only.iterates).2.2, (tick_spec slices p h.keyed hg flushes commits).2.2]
    simp only [alone, h.partitionMap, h.assigned]
    rfl

theorem tick_alone (h : w.committer.Alone p d) {k : Tick}
    (flushes : w.committer.Iterates k.flushOrder) (commits : w.committer.Iterates k.commitOrder) :
    (w.alone d).tick slices p (k.sole p d) =
      (w.tick slices p k).alone (d.commitOffsets slices (k.sole p d)).committer := by
  rw [tick, taken_alone h flushes commits]
  rfl

/-- Every step of the partition is one that it could take alone. -/
theorem Step.alone (h : w.committer.Alone p d) (hd : (w.alone d).Inv p)
    (step : Step slices p w w') :
    ∃ d', Step slices p (w.alone d) (w'.alone d') ∧ w'.committer.Alone p d' := by
  cases step with
  | append x nonneg above => exact ⟨d, .append (w.alone d) x nonneg above, h⟩
  | remove kept => exact ⟨d, .remove (w.alone d) kept, h⟩
  | otherOwner position away forward => exact ⟨d, .otherOwner (w.alone d) position away forward, h⟩
  | reset baseline away value =>
    exact ⟨_, .reset (w.alone d) baseline away value,
      h.run_at slices (.resetCommittedOffsets [(p, baseline)]) (List.nodup_singleton p) rfl⟩
  | markAssigned opening =>
    exact ⟨_, .markAssigned (w.alone d) opening,
      h.run_at slices (.markPartitionAssigned p) trivial rfl⟩
  | markRevoked owned =>
    exact ⟨_, .markRevoked (w.alone d) owned,
      h.run_at slices (.markPartitionRevoked p) trivial rfl⟩
  | fetch item prev owned next partition stamped fresh =>
    refine ⟨d, .fetch (w.alone d) item prev owned next partition stamped ?_, h⟩
    intro g hg
    exact fresh g ((holds_alone h).mp hg)
  | complete before f after now flying known =>
    have hf : f ∈ w.inFlight := flying ▸ List.mem_append_right before List.mem_cons_self
    have hp : f.item.partition = p := hd.ledger.partition f (hd.flying f hf)
    exact ⟨_, .complete (w.alone d) before f after now flying known,
      h.run_at slices (.processCommit f.item now) trivial hp⟩
  | flush order now iterates =>
    exact ⟨_, .flush (w.alone d) (d.soleOrder p) now h.only.iterates, h.flushGapBuffers iterates now⟩
  | tick k flushes commits =>
    refine ⟨_, ?_, h.commitOffsets flushes commits⟩
    rw [← tick_alone h flushes commits]
    exact .tick (w.alone d) (k.sole p d) h.only.iterates h.only.iterates

/-- Seen from the partition, the calls for others do not happen. -/
theorem shared_simulates :
    (sharedSystem slices p).Simulates (partitionSystem slices p) (View p) where
  initial w h := ⟨w, h, {}, by rw [h]; rfl, by rw [h]; exact .empty⟩
  step w w' v _ hv hview hstep := by
    obtain ⟨d, rfl, h⟩ := hview
    cases hstep with
    | own step =>
      obtain ⟨d', hstep', h'⟩ := step.alone h (inv_of_reachable hv)
      exact ⟨_, .single hstep', d', rfl, h'⟩
    | other call legal away => exact ⟨_, .refl, d, rfl, h.run_other legal away⟩

/-- The invariant of the partition alone. -/
theorem shared_inv (h : (sharedSystem slices p).Reachable w) : w.Inv p := by
  obtain ⟨v, hv, d, rfl, hd⟩ := shared_simulates.reachable h
  have hinv := inv_of_reachable hv
  refine ⟨hinv.ledger, hd.keyed, hd.assigned.symm.trans hinv.assigned, hinv.flying, ?_, ?_⟩
  · rw [← hd.partitionMap]
    exact hinv.opened
  · rw [← hd.partitionMap]
    exact hinv.closed

theorem ledger_inv (h : (sharedSystem slices p).Reachable w) : w.toLedger.Inv p :=
  (shared_inv h).ledger

/-- Neither a loss nor a step back of the broker's position, whatever the committer does for
its other partitions. -/
theorem shared_position_safe (slices : SortFunc (WorkItem T)) (p : Int) (w : World T)
    (h : (sharedSystem slices p).Reachable w) :
    (∀ x, w.Live x → x < w.committed → w.Done x) ∧
    (∀ w', (sharedSystem slices p).Run w w' → w.committed ≤ w'.committed) ∧
    w.accepted.Pairwise fun a b => a.1 = b.1 → a.2 < b.2 := by
  refine ⟨(ledger_inv h).safe, fun w' hrun => ?_, (ledger_inv h).accepted_increasing⟩
  obtain ⟨v, hv, d, rfl, hd⟩ := shared_simulates.reachable h
  obtain ⟨v', hrun', d', rfl, _⟩ := shared_simulates.run h hv ⟨d, rfl, hd⟩ hrun
  exact System.run_monotone (fun v => v.committed)
    (fun a b ha hstep => (inv_of_reachable ha).committed_step hstep) hv hrun'

/-! ## Successful ticks -/

/-- A call with nothing of the partition in its batch sends nothing for the partition alone. -/
theorem sent_alone (h : w.committer.Alone p d) {k : Tick} (hg : k.guardAcquired = true)
    (flushes : w.committer.Iterates k.flushOrder) (commits : w.committer.Iterates k.commitOrder)
    (empty : (w.committer.commitOffsets slices k).sent = []) :
    (d.commitOffsets slices (k.sole p d)).sent = [] := by
  have hsole := fun q => (commitOffsets_entry slices (k.sole p d) h.keyed_alone hg
    h.only.iterates h.only.iterates q).2
  apply List.eq_nil_iff_forall_not_mem.mpr
  intro m hm
  have hm' : m ∈ (d.commitOffsets slices (k.sole p d)).sent.filter
      fun x => x.partition == m.partition := List.mem_filter.mpr ⟨hm, by simp⟩
  by_cases hp : m.partition = p
  · have hshared := (commitOffsets_entry slices k h.keyed hg flushes commits p).2
    rw [hsole, hp, h.partitionMap, h.assigned] at hm'
    rw [empty, List.filter_nil] at hshared
    exact absurd (hshared ▸ hm' : m ∈ []) List.not_mem_nil
  · rw [hsole, h.only _ hp] at hm'
    exact absurd hm' List.not_mem_nil

/-- A call that returns `nil` is one that the partition alone could have made. -/
theorem Commits.alone (h : w.committer.Alone p d) (commit : Commits slices p w w') :
    ∃ d', Commits slices p (w.alone d) (w'.alone d') ∧ w'.committer.Alone p d' := by
  obtain ⟨k, flushes, commits, herr, rfl⟩ := commit
  refine ⟨_, ⟨k.sole p d, h.only.iterates, h.only.iterates, ?_, (tick_alone h flushes commits).symm⟩,
    h.commitOffsets flushes commits⟩
  obtain ⟨hg, hsent⟩ := commitOffsets_error_none slices k herr
  show (d.commitOffsets slices (k.sole p d)).error = none
  have hsole : (k.sole p d).guardAcquired = true := hg
  have hempty : (w.committer.commitOffsets slices k).sent = [] →
      (d.commitOffsets slices (k.sole p d)).sent = [] := sent_alone h hg flushes commits
  rw [commitOffsets_eq slices _ hsole] at hempty ⊢
  split_ifs at hempty ⊢ with hnone hacc
  · rfl
  · rcases hsent with hyes | hsent
    · exact absurd hyes (by simpa [Tick.sole] using hacc)
    · exact absurd (hempty hsent) (by simpa using hnone)
  · rfl

theorem commits_alone {n : Nat} (ticks : Steps (Commits slices p) n w w')
    (h : w.committer.Alone p d) :
    ∃ d', Steps (Commits slices p) n (w.alone d) (w'.alone d') ∧ w'.committer.Alone p d' := by
  induction ticks generalizing d with
  | refl s => exact ⟨d, .refl _, h⟩
  | head step rest ih =>
    obtain ⟨d₁, hstep, h₁⟩ := step.alone h
    obtain ⟨d', hrest, h'⟩ := ih h₁
    exact ⟨d', .head hstep hrest, h'⟩

/-- With everything of the current epoch completed, successful ticks commit all of it, also on a
committer that serves other partitions. -/
theorem shared_commits_reach (h : (sharedSystem slices p).Reachable w)
    (times : w.ReadTimesIncrease) (owned : w.phase = .assigned)
    (done : ∀ f ∈ w.history, f.epoch = w.epoch → f ∈ w.completed) {n : Nat}
    (enough : w.backlog p ≤ n) (ticks : Steps (Commits slices p) n w w') : w'.CaughtUp := by
  obtain ⟨v, hv, d, rfl, hd⟩ := shared_simulates.reachable h
  obtain ⟨d', hticks, _⟩ := commits_alone ticks hd
  have hsettled : (w.alone d).Settled slices p := ⟨hv, times, owned, done⟩
  have hrank : (w.alone d).backlog p ≤ n := by
    simpa only [World.backlog, alone, hd.partitionMap] using enough
  have hcaught : (w'.alone d').CaughtUp := hticks.reaches (fun _ _ hs hstep => hs.commits hstep)
    (fun _ _ hs hstep => hs.progress hstep) (fun _ hs => hs.caughtUp_of_backlog) hsettled
    (.inr hrank)
  exact hcaught

theorem reachable_shared (h : (partitionSystem slices p).Reachable w) :
    (sharedSystem slices p).Reachable w := by
  refine System.invariant (M := partitionSystem slices p)
    (P := (sharedSystem slices p).Reachable) (fun s hs => .init hs) ?_ w h
  intro s t _ hs hstep
  exact hs.step (.own hstep)

/-- A record of partition `1` completes after the two of partition `0` are committed. -/
def sampleOther : Call Unit :=
  .processCommit { ptr := 7, message := { partition := 1, offset := 5 } } 0

theorem shared_position_safe_sample : ∃ w : World Unit,
    (sharedSystem (SortFunc.insertion (WorkItem Unit)) 0).Reachable w ∧
      (w.committer.partitionMap 1).isSome = true ∧ w.committed = 4 ∧ w.Live 3 ∧ w.Done 3 := by
  have h := (reachable_shared sampleCommitted_reachable).step
    (.other _ sampleOther trivial (show (1 : Int) ≠ 0 by decide))
  have hlive : sampleCommitted.Live 3 := .inl (by decide)
  exact ⟨_, h, rfl, by decide, hlive,
    (shared_position_safe _ 0 _ h).1 3 hlive (show (3 : Int) < sampleCommitted.committed by decide)⟩

end World

end LlingrDemux.Offset
