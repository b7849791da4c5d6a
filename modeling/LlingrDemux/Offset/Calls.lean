import LlingrDemux.Offset.Preserved
import LlingrDemux.Shared.System

/-!
# Any sequence of calls on the committer

A run of the committer is a sequence of calls, each under the committer's mutex, over
any partitions and with any work items. `History` keeps for every call the committer it
found, so what a call ingested, dropped or committed can be read off afterwards. The
calls a run may make are a parameter: `Call.Legal` allows everything that Go's map
iteration allows, and narrower conditions give narrower systems.
-/

namespace LlingrDemux.Offset

open Shared OffsetsTracker
set_option autoImplicit false

variable {T : Type}

/-- A call with what the clock, the broker and the map iteration decide about it. -/
inductive Call (T : Type) where
  | processCommit (w : WorkItem T) (now : Int)
  | flushGapBuffers (order : List Int) (now : Int)
  | commitOffsets (k : Tick)
  | resetCommittedOffsets (partitionOffsets : List (Int × Int))
  | markPartitionAssigned (p : Int)
  | markPartitionRevoked (p : Int)

namespace Call

def run (slices : SortFunc (WorkItem T)) (c : Committer T) : Call T → Committer T
  | processCommit w now => c.processCommit w now
  | flushGapBuffers order now => c.flushGapBuffers slices order now
  | commitOffsets k => (c.commitOffsets slices k).committer
  | resetCommittedOffsets partitionOffsets => c.resetCommittedOffsets partitionOffsets
  | markPartitionAssigned p => c.markPartitionAssigned p
  | markPartitionRevoked p => c.markPartitionRevoked p

/-- The loops visit the entries of a map once each, in some order. -/
def Legal (c : Committer T) : Call T → Prop
  | flushGapBuffers order _ => c.Iterates order
  | commitOffsets k => c.Iterates k.flushOrder ∧ c.Iterates k.commitOrder
  | resetCommittedOffsets partitionOffsets => (partitionOffsets.map Prod.fst).Nodup
  | _ => True

def ingested : Call T → List (WorkItem T)
  | processCommit w _ => [w]
  | _ => []

end Call

/-- The calls made so far, each with the committer it found, and the present committer. -/
structure History (T : Type) where
  steps : List (Committer T × Call T) := []
  committer : Committer T := {}

namespace History

def record (slices : SortFunc (WorkItem T)) (h : History T) (call : Call T) : History T :=
  ⟨h.steps ++ [(h.committer, call)], call.run slices h.committer⟩

/-- The work items given to `processCommit`. -/
def ingested (h : History T) : List (WorkItem T) := h.steps.flatMap fun s => s.2.ingested

@[simp] theorem record_ingested (slices : SortFunc (WorkItem T)) (h : History T) (call : Call T) :
    (h.record slices call).ingested = h.ingested ++ call.ingested := by
  simp [ingested, record]

end History

/-- The runs of a new committer whose calls are all `allowed` where they are made. -/
def callSystem (slices : SortFunc (WorkItem T)) (allowed : Committer T → Call T → Prop) :
    System (History T) where
  init h := h = {}
  step h h' := ∃ call, allowed h.committer call ∧ h' = h.record slices call

namespace Committer

/-- Every call is a chain of stores and marks. -/
theorem run_of_store (slices : SortFunc (WorkItem T)) {P : Committer T → Prop} (call : Call T)
    (store : ∀ c p r, P c → P (c.store p r))
    (assigned : ∀ c p, P c → P (c.markPartitionAssigned p))
    (revoked : ∀ c p, P c → P (c.markPartitionRevoked p)) {c : Committer T} (h : P c) :
    P (call.run slices c) := by
  have hflush : ∀ (order : List Int) (now : Int) (c : Committer T), P c →
      P (c.flushGapBuffers slices order now) := by
    intro order now c h
    apply List.foldlRecOn order _ h
    intro c h p _
    unfold flushPartition
    split
    · exact h
    · exact store _ _ _ h
  cases call with
  | processCommit w now => exact store _ _ _ h
  | flushGapBuffers order now => exact hflush order now c h
  | commitOffsets k =>
    cases hg : k.guardAcquired with
    | false => simpa [Call.run, commitOffsets, hg] using h
    | true =>
      have hgather : P (gatherCommits slices k c).1 := by
        refine List.foldlRecOn (motive := fun s : Committer T × List (WorkItem T) => P s.1)
          k.commitOrder _ (hflush k.flushOrder k.flushTime c h) ?_
        intro s hs p _
        unfold commitPartition
        split
        · exact hs
        · exact store _ _ _ hs
      change P (c.commitOffsets slices k).committer
      rw [commitOffsets_eq slices k hg]
      split_ifs
      · exact hgather
      · exact hgather
      · apply List.foldlRecOn _ _ hgather
        intro c h w _
        unfold acceptMessage
        split
        · exact h
        · exact store _ _ _ h
  | resetCommittedOffsets partitionOffsets =>
    apply List.foldlRecOn partitionOffsets _ h
    intro c h r _
    exact store _ _ _ h
  | markPartitionAssigned p => exact assigned c p h
  | markPartitionRevoked p => exact revoked c p h

/-- A call only adds to the retired items. -/
theorem run_collected (slices : SortFunc (WorkItem T)) (c : Committer T) (call : Call T) :
    c.collected <+: (call.run slices c).collected := by
  apply run_of_store slices (P := fun c' => c.collected <+: c'.collected) call
  · intro c' p r h
    rw [store_collected]
    exact h.trans (List.prefix_append _ _)
  · exact fun _ _ h => h
  · exact fun _ _ h => h
  · exact List.prefix_rfl

theorem Keyed.run {c : Committer T} (h : c.Keyed) (slices : SortFunc (WorkItem T))
    (call : Call T) : (call.run slices c).Keyed := by
  cases call with
  | processCommit w now => exact h.processCommit w now
  | flushGapBuffers order now => exact h.flushGapBuffers slices now order
  | commitOffsets k => exact h.commitOffsets slices k
  | resetCommittedOffsets partitionOffsets => exact h.resetCommittedOffsets partitionOffsets
  | markPartitionAssigned p => exact h.markPartitionAssigned p
  | markPartitionRevoked p => exact h.markPartitionRevoked p

end Committer

/-- What a call does to the slice of partition `p`. -/
def Slice.step (slices : SortFunc (WorkItem T)) (p : Int) (s : Slice T) : Call T → Slice T
  | .processCommit w now =>
    if w.partition = p then
      let r := OffsetsTracker.processCommit s.tracker w now
      ⟨some r.1, s.assigned, s.collected ++ r.2⟩
    else s
  | .flushGapBuffers _ now => s.update fun _ t => t.flush slices now
  | .commitOffsets k =>
    if k.guardAcquired then
      s.update fun a t =>
        ((t.tick slices a (k.partition p)).1, t.tickRetired slices a (k.partition p))
    else s
  | .resetCommittedOffsets partitionOffsets =>
    match partitionOffsets.find? fun r => r.1 == p with
    | none => s
    | some r =>
      let q := OffsetsTracker.resetCommittedOffset s.tracker r.2
      ⟨some q.1, s.assigned, s.collected ++ q.2⟩
  | .markPartitionAssigned q => if q = p then { s with assigned := true } else s
  | .markPartitionRevoked q =>
    if q = p then
      { s with
        assigned := false
        tracker := s.tracker.map fun t => { t with assignment := .revoke } }
    else s

/-- The tracker an operation leaves behind and the items it hands on. -/
structure Leaves (H : OffsetsTracker T → Prop) (R : WorkItem T → Prop)
    (r : OffsetsTracker T × List (WorkItem T)) : Prop where
  tracker : H r.1
  retired : ∀ w ∈ r.2, R w

/-- The partition's tracker and its collected items. -/
structure Slice.Keeps (H : OffsetsTracker T → Prop) (R : WorkItem T → Prop) (s : Slice T) :
    Prop where
  tracker : ∀ t, s.tracker = some t → H t
  collected : ∀ w ∈ s.collected, R w

namespace Slice.Keeps
variable {H : OffsetsTracker T → Prop} {R : WorkItem T → Prop} {s : Slice T}

theorem empty : Slice.Keeps H R ⟨none, false, []⟩ := by
  refine ⟨fun t ht => ?_, List.forall_mem_nil R⟩
  cases ht

theorem store (h : s.Keeps H R) {r : OffsetsTracker T × List (WorkItem T)} (hr : Leaves H R r) :
    Slice.Keeps H R ⟨some r.1, s.assigned, s.collected ++ r.2⟩ := by
  constructor
  · rintro _ ⟨⟩
    exact hr.tracker
  · intro w hw
    rcases List.mem_append.mp hw with hw | hw
    · exact h.collected w hw
    · exact hr.retired w hw

theorem update (h : s.Keeps H R) {f : Bool → OffsetsTracker T → OffsetsTracker T × List (WorkItem T)}
    (hf : ∀ t, s.tracker = some t → Leaves H R (f s.assigned t)) : (s.update f).Keeps H R := by
  unfold Slice.update
  split
  · exact h
  · rename_i t ht
    exact h.store (hf t ht)

/-- A call keeps what each operation on the tracker keeps; one premise for each operation. -/
theorem step (h : s.Keeps H R) (slices : SortFunc (WorkItem T)) (p : Int) (call : Call T)
    (processCommit : ∀ w now, call = .processCommit w now →
      Leaves H R (OffsetsTracker.processCommit s.tracker w now))
    (flush : ∀ order now t, call = .flushGapBuffers order now → s.tracker = some t →
      Leaves H R (t.flush slices now))
    (tick : ∀ k t, call = .commitOffsets k → k.guardAcquired = true → s.tracker = some t →
      Leaves H R ((t.tick slices s.assigned (k.partition p)).1,
        t.tickRetired slices s.assigned (k.partition p)))
    (reset : ∀ l r, call = .resetCommittedOffsets l → r ∈ l → r.1 = p →
      Leaves H R (OffsetsTracker.resetCommittedOffset s.tracker r.2))
    (revoked : ∀ t, H t → H { t with assignment := .revoke }) :
    (s.step slices p call).Keeps H R := by
  cases call with
  | processCommit w now =>
    simp only [Slice.step]
    split_ifs
    · exact h.store (processCommit w now rfl)
    · exact h
  | flushGapBuffers order now =>
    simp only [Slice.step]
    exact h.update fun t ht => flush order now t rfl ht
  | commitOffsets k =>
    simp only [Slice.step]
    split_ifs with hg
    · exact h.update fun t ht => tick k t rfl hg ht
    · exact h
  | resetCommittedOffsets l =>
    simp only [Slice.step]
    split
    · exact h
    · rename_i r hfind
      have hp : r.1 = p := by simpa using List.find?_some hfind
      exact h.store (reset l r rfl (List.mem_of_find?_eq_some hfind) hp)
  | markPartitionAssigned q =>
    simp only [Slice.step]
    split_ifs
    · exact ⟨h.tracker, h.collected⟩
    · exact h
  | markPartitionRevoked q =>
    simp only [Slice.step]
    split_ifs
    · refine ⟨fun t ht => ?_, h.collected⟩
      obtain ⟨t₀, ht₀, rfl⟩ := Option.map_eq_some_iff.mp ht
      exact revoked t₀ (h.tracker t₀ ht₀)
    · exact h

end Slice.Keeps

/-- One partition sees nothing of the other partitions or of the iteration orders. -/
theorem Committer.run_slice {c : Committer T} (hk : c.Keyed) (slices : SortFunc (WorkItem T))
    {call : Call T} (legal : call.Legal c) (p : Int) :
    (call.run slices c).slice p = (c.slice p).step slices p call := by
  cases call with
  | processCommit w now =>
    simp only [Slice.step]
    split_ifs with hp
    · subst hp
      exact processCommit_slice_same hk w now
    · exact store_slice_other (processCommit_keyed_keeps hk w now) (Ne.symm hp)
  | flushGapBuffers order now => exact flushGapBuffers_slice slices now hk legal p
  | commitOffsets k =>
    simp only [Slice.step]
    split_ifs with hg
    · exact (commitOffsets_slice slices k hk hg legal.1 legal.2 p).1
    · simp [Call.run, commitOffsets, hg]
  | resetCommittedOffsets l =>
    simp only [Slice.step]
    cases hfind : l.find? fun r => r.1 == p with
    | none =>
      apply resetPartition_keyedStep.foldl_other hk
      intro hp
      obtain ⟨r, hr, hrp⟩ := List.mem_map.mp hp
      simpa [hrp] using List.find?_eq_none.mp hfind r hr
    | some r =>
      obtain rfl : r.1 = p := by simpa using List.find?_some hfind
      exact resetCommittedOffsets_slice_same hk legal (List.mem_of_find?_eq_some hfind)
  | markPartitionAssigned q =>
    simp only [Slice.step]
    split_ifs with hq
    · subst hq
      simp [Call.run, slice, markPartitionAssigned]
    · simp [Call.run, slice, markPartitionAssigned, Function.update_of_ne (Ne.symm hq)]
  | markPartitionRevoked q =>
    simp only [Slice.step]
    split_ifs with hq
    · subst hq
      simp [Call.run, slice, markPartitionRevoked]
    · simp [Call.run, slice, markPartitionRevoked, Function.update_of_ne (Ne.symm hq)]

section Reachable
variable {slices : SortFunc (WorkItem T)} {allowed : Committer T → Call T → Prop}
  {h : History T}

/-- The invariant rule for a property of the committer. -/
theorem History.committer_invariant {P : Committer T → Prop} (initial : P {})
    (preserved : ∀ c call, allowed c call → P c → P (call.run slices c))
    (hr : (callSystem slices allowed).Reachable h) : P h.committer := by
  refine System.invariant (P := fun h => P h.committer) ?_ ?_ h hr
  · rintro _ rfl
    exact initial
  · rintro h _ _ hP ⟨call, hallowed, rfl⟩
    exact preserved h.committer call hallowed hP

/-- A property that stores and marks keep holds after every run. -/
theorem History.store_invariant {P : Committer T → Prop} (initial : P {})
    (store : ∀ c p r, P c → P (c.store p r))
    (assigned : ∀ c p, P c → P (c.markPartitionAssigned p))
    (revoked : ∀ c p, P c → P (c.markPartitionRevoked p))
    (hr : (callSystem slices allowed).Reachable h) : P h.committer :=
  History.committer_invariant initial
    (fun _ call _ hc => Committer.run_of_store slices call store assigned revoked hc) hr

/-- Every recorded call was allowed in a state that the run went through. -/
theorem History.mem_steps (hr : (callSystem slices allowed).Reachable h) :
    ∀ s ∈ h.steps, allowed s.1 s.2 ∧
      ∃ h₀, (callSystem slices allowed).Reachable h₀ ∧ h₀.committer = s.1 := by
  refine System.invariant (P := fun h => ∀ s ∈ h.steps, allowed s.1 s.2 ∧
    ∃ h₀, (callSystem slices allowed).Reachable h₀ ∧ h₀.committer = s.1) ?_ ?_ h hr
  · rintro _ rfl s hs
    cases hs
  · rintro h _ hreach ih ⟨call, hallowed, rfl⟩ s hs
    rcases List.mem_append.mp hs with hs | hs
    · exact ih s hs
    · rw [List.mem_singleton.mp hs]
      exact ⟨hallowed, h, hreach, rfl⟩

/-- The metrics window holds one record for every collected item, in order. -/
theorem Committer.recorded_eq (hr : (callSystem slices allowed).Reachable h) :
    h.committer.recorded = h.committer.collected.map MetricsRecord.ofItem := by
  apply History.store_invariant
    (P := fun c => c.recorded = c.collected.map MetricsRecord.ofItem) rfl _ _ _ hr
  · intro c p r hc
    rw [Committer.store_recorded, Committer.store_collected, List.map_append, hc]
  · exact fun _ _ hc => hc
  · exact fun _ _ hc => hc

/-- The partition map is finite: some order iterates over it. -/
theorem Committer.exists_iterates (hr : (callSystem slices allowed).Reachable h) :
    ∃ order, h.committer.Iterates order := by
  apply History.store_invariant (P := fun c => ∃ order, c.Iterates order) _ _ _ _ hr
  · exact ⟨[], List.nodup_nil, by simp⟩
  · rintro c p r ⟨order, hnd, hmem⟩
    refine ⟨order.insert p, hnd.insert, ?_⟩
    intro q
    rw [List.mem_insert_iff, hmem, Committer.store_partitionMap]
    by_cases hq : q = p
    · simp [hq]
    · simp [hq]
  · rintro c p ⟨order, ho⟩
    exact ⟨order, ho⟩
  · rintro c p ⟨order, hnd, hmem⟩
    refine ⟨order, hnd, ?_⟩
    intro q
    rw [hmem, Committer.markPartitionRevoked]
    by_cases hq : q = p
    · simp [hq]
    · simp [hq]

theorem Committer.Keyed.of_reachable (hr : (callSystem slices allowed).Reachable h) :
    h.committer.Keyed := by
  apply History.committer_invariant (P := Committer.Keyed) _ _ hr
  · intro p t ht
    cases ht
  · intro c call _ hk
    exact hk.run slices call

/-- The invariant rule for a property of one partition's slice. -/
theorem History.slice_invariant {P : Slice T → Prop} (p : Int)
    (legal : ∀ c call, allowed c call → call.Legal c) (initial : P ⟨none, false, []⟩)
    (step : ∀ c call, allowed c call → P (c.slice p) → P ((c.slice p).step slices p call))
    (hr : (callSystem slices allowed).Reachable h) : P (h.committer.slice p) := by
  refine System.invariant (P := fun h => P (h.committer.slice p)) ?_ ?_ h hr
  · rintro _ rfl
    exact initial
  · rintro h _ hreach hP ⟨call, hallowed, rfl⟩
    simp only [History.record]
    rw [Committer.run_slice (Committer.Keyed.of_reachable hreach) slices (legal _ _ hallowed) p]
    exact step _ call hallowed hP

/-- The invariant rule for a property of the trackers, one premise for each operation. -/
theorem History.tracker_invariant {P : OffsetsTracker T → Prop}
    (processCommit : ∀ o w now, (∀ t, o = some t → P t) →
      P (OffsetsTracker.processCommit o w now).1)
    (flush : ∀ t now, P t → P (t.flush slices now).1)
    (tick : ∀ t assigned k, P t → P (t.tick slices assigned k).1)
    (reset : ∀ o offset, (∀ t, o = some t → P t) →
      P (OffsetsTracker.resetCommittedOffset o offset).1)
    (revoked : ∀ t, P t → P { t with assignment := .revoke })
    (hr : (callSystem slices Call.Legal).Reachable h) {p : Int} {t : OffsetsTracker T}
    (ht : h.committer.partitionMap p = some t) : P t := by
  have hkept := History.slice_invariant (P := Slice.Keeps P fun _ => True) p (fun _ _ hl => hl)
    .empty ?_ hr
  · exact hkept.tracker t ht
  · intro c call _ hs
    refine hs.step slices p call ?_ ?_ ?_ ?_ revoked
    · exact fun w now _ => ⟨processCommit _ w now hs.tracker, fun _ _ => trivial⟩
    · exact fun _ now t _ ht => ⟨flush t now (hs.tracker t ht), fun _ _ => trivial⟩
    · exact fun k t _ _ ht => ⟨tick t _ _ (hs.tracker t ht), fun _ _ => trivial⟩
    · exact fun _ r _ _ _ => ⟨reset _ r.2 hs.tracker, fun _ _ => trivial⟩

end Reachable

/-! ## Scripts on one partition -/

/-- The call works on partition `p` alone and its loops visit that partition. -/
def Call.At (p : Int) (c : Committer T) : Call T → Prop
  | .processCommit w _ => w.partition = p
  | .flushGapBuffers order _ => order = [p] ∧ (c.partitionMap p).isSome = true
  | .commitOffsets k =>
    k.flushOrder = [p] ∧ k.commitOrder = [p] ∧ (c.partitionMap p).isSome = true
  | .resetCommittedOffsets partitionOffsets => partitionOffsets.map Prod.fst = [p]
  | .markPartitionAssigned q => q = p
  | .markPartitionRevoked q => q = p

instance (p : Int) (c : Committer T) : (call : Call T) → Decidable (call.At p c)
  | .processCommit w _ => inferInstanceAs (Decidable (w.partition = p))
  | .flushGapBuffers order _ => inferInstanceAs (Decidable (order = [p] ∧ _))
  | .commitOffsets k => inferInstanceAs (Decidable (k.flushOrder = [p] ∧ _))
  | .resetCommittedOffsets partitionOffsets =>
    inferInstanceAs (Decidable (partitionOffsets.map Prod.fst = [p]))
  | .markPartitionAssigned q => inferInstanceAs (Decidable (q = p))
  | .markPartitionRevoked q => inferInstanceAs (Decidable (q = p))

/-- Every call of the list is on partition `p` and meets the condition `R` where it is made. -/
def Call.Script (slices : SortFunc (WorkItem T)) (p : Int) (R : Committer T → Call T → Prop) :
    Committer T → List (Call T) → Prop
  | _, [] => True
  | c, call :: calls => (call.At p c ∧ R c call) ∧ Call.Script slices p R (call.run slices c) calls

instance Call.decidableScript (slices : SortFunc (WorkItem T)) (p : Int)
    (R : Committer T → Call T → Prop) [∀ c call, Decidable (R c call)] :
    (c : Committer T) → (calls : List (Call T)) → Decidable (Call.Script slices p R c calls)
  | _, [] => isTrue trivial
  | c, call :: calls =>
    have := Call.decidableScript slices p R (call.run slices c) calls
    inferInstanceAs (Decidable (_ ∧ _))

/-- The committer has at most the tracker of partition `p`. -/
def Committer.Only (p : Int) (c : Committer T) : Prop := ∀ q, q ≠ p → c.partitionMap q = none

section Script
variable {p : Int} {c : Committer T} {call : Call T}

theorem Call.At.legal (hat : call.At p c) (ho : c.Only p) : call.Legal c := by
  cases call with
  | processCommit w now => trivial
  | flushGapBuffers order now =>
    obtain ⟨rfl, hsome⟩ := hat
    exact Committer.iterates_singleton hsome ho
  | commitOffsets k =>
    obtain ⟨hflush, hcommit, hsome⟩ := hat
    simp only [Call.Legal, hflush, hcommit, and_self]
    exact Committer.iterates_singleton hsome ho
  | resetCommittedOffsets partitionOffsets =>
    simp only [Call.At] at hat
    simp [Call.Legal, hat]
  | markPartitionAssigned q => trivial
  | markPartitionRevoked q => trivial

theorem Committer.Only.run (ho : c.Only p) (hk : c.Keyed) (slices : SortFunc (WorkItem T))
    (hat : call.At p c) : (call.run slices c).Only p := by
  have hlegal := hat.legal ho
  intro q hq
  cases call with
  | processCommit w now =>
    simp only [Call.At] at hat
    simp [Call.run, Committer.processCommit, hat, Function.update_of_ne hq, ho q hq]
  | flushGapBuffers order now =>
    exact (Committer.preserves_flushGapBuffers slices hk hlegal now).absent q (ho q hq)
  | commitOffsets k =>
    exact (Committer.preserves_commitOffsets slices hk hlegal.1 hlegal.2).absent q (ho q hq)
  | resetCommittedOffsets partitionOffsets =>
    obtain ⟨r, rfl, hr⟩ := List.map_eq_singleton_iff.mp hat
    simp [Call.run, Committer.resetCommittedOffsets, Committer.resetPartition, hr,
      Function.update_of_ne hq, ho q hq]
  | markPartitionAssigned q' => exact ho q hq
  | markPartitionRevoked q' =>
    simp only [Call.At] at hat
    simp [Call.run, Committer.markPartitionRevoked, hat, Function.update_of_ne hq, ho q hq]

/-- A script is a run. -/
theorem run_of_script {slices : SortFunc (WorkItem T)} {R allowed : Committer T → Call T → Prop}
    (hallowed : ∀ c call, call.Legal c → R c call → allowed c call) {h : History T}
    {calls : List (Call T)} (hk : h.committer.Keyed) (ho : h.committer.Only p)
    (hs : Call.Script slices p R h.committer calls) :
    (callSystem slices allowed).Run h (calls.foldl (History.record slices) h) ∧
      (calls.foldl (History.record slices) h).committer.Only p := by
  induction calls generalizing h with
  | nil => exact ⟨.refl, ho⟩
  | cons call calls ih =>
    obtain ⟨⟨hat, hR⟩, hrest⟩ := hs
    obtain ⟨hrun, honly⟩ := ih (h := h.record slices call) (hk.run slices call)
      (ho.run hk slices hat) hrest
    exact ⟨hrun.head ⟨call, hallowed _ _ (hat.legal ho) hR, rfl⟩, honly⟩

/-- The runs of a new committer that a script describes. -/
theorem reachable_of_script {slices : SortFunc (WorkItem T)} (p : Int)
    {R allowed : Committer T → Call T → Prop}
    (hallowed : ∀ c call, call.Legal c → R c call → allowed c call) {calls : List (Call T)}
    (hs : Call.Script slices p R {} calls) :
    (callSystem slices allowed).Reachable (calls.foldl (History.record slices) {}) :=
  ⟨{}, rfl, (run_of_script hallowed (fun _ _ ht => by cases ht) (fun _ _ => rfl) hs).1⟩

theorem only_of_script {slices : SortFunc (WorkItem T)} {R : Committer T → Call T → Prop}
    {calls : List (Call T)} (hs : Call.Script slices p R {} calls) :
    (calls.foldl (History.record slices) {}).committer.Only p :=
  (run_of_script (fun _ _ hlegal _ => hlegal) (fun _ _ ht => by cases ht) (fun _ _ => rfl) hs).2

end Script

end LlingrDemux.Offset
