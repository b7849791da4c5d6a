import LlingrDemux.Offset.Calls
import LlingrDemux.Offset.DrainHandshake
import LlingrDemux.Shared.Monitor

/-!
# The committer's mutex

The ingest loop, `CommitOffsets`, the rebalance calls and the snapshots run on their own
goroutines and take turns at the committer's mutex. Here their critical sections are taken
apart: every work item of a batch, every partition of a loop over the map, the broker call and
its answer are steps of their own. Every call reads its own time.
-/

namespace LlingrDemux.Offset

open Shared
set_option autoImplicit false

variable {T : Type}

/-- What the mutex protects; `answered` lists the batches of the broker calls and whether the
broker accepted them. -/
structure Protected (T : Type) where
  committer : Committer T := {}
  answered : List (List (WorkItem T) × Bool) := []

structure CommitterChannels (T : Type) where
  commitsIn : List (WorkItem T) := []
  autoCommitGuard : Bool := false
  drained : Bool := false

/-- A `map[int32]int64`, in the order of one iteration over it. -/
structure OffsetMap where
  entries : List (Int × Int)
  keys : (entries.map Prod.fst).Nodup

/-- Who runs `flushGapBuffers`. -/
inductive Flusher where
  | ingest
  | tick
  deriving DecidableEq, Repr

/-- Before the mutex: `received` of the ingest loop, `guarding` and `guarded` of
`CommitOffsets` before and behind the commit guard, `resetWaiting`, `marking` and `sampling` of
the others. The loops carry what they have still to visit. -/
inductive GoroutinePc (T : Type) where
  | idle
  | received (w : WorkItem T)
  | ingesting (w : WorkItem T) (messageCount : Nat)
  | batching (messageCount : Nat)
  | flushing (todo : List Int) (now : Int) (after : Flusher)
  | guarding
  | guarded
  | ticking
  | gathering (todo : List Int) (commits : List (WorkItem T))
  | sending (commits : List (WorkItem T))
  | accepting (todo : List (WorkItem T))
  | ticked (error : Option CommitError)
  | releasing (error : Option CommitError)
  | resetWaiting (partitionOffsets : OffsetMap)
  | resetting (todo : List (Int × Int))
  | marking (p : Int) (assigned : Bool)
  | marked (p : Int) (assigned : Bool)
  | sampling
  | sampled
  | unlocking

namespace GoroutinePc

def InLock : GoroutinePc T → Prop
  | ingesting .. | batching .. | flushing .. | ticking | gathering .. | sending _ | accepting _
  | ticked _ | resetting _ | marked .. | sampled | unlocking => True
  | idle | received .. | guarding | guarded | releasing _ | resetWaiting _ | marking .. | sampling =>
    False

inductive Outside : GoroutinePc T → CommitterChannels T → GoroutinePc T → CommitterChannels T →
    Prop where
  | collectAndCommit (c : CommitterChannels T) (w : WorkItem T) :
      Outside idle c idle { c with commitsIn := c.commitsIn ++ [w] }
  | receive (c : CommitterChannels T) (w : WorkItem T) (rest : List (WorkItem T))
      (head : c.commitsIn = w :: rest) : Outside idle c (received w) { c with commitsIn := rest }
  | takeDrained (c : CommitterChannels T) : Outside idle c idle { c with drained := false }
  | commitOffsets (c : CommitterChannels T) : Outside idle c guarding c
  | guard (c : CommitterChannels T) (free : c.autoCommitGuard = false) :
      Outside guarding c guarded { c with autoCommitGuard := true }
  | guardTimeout (c : CommitterChannels T) : Outside guarding c idle c
  | release (c : CommitterChannels T) (error : Option CommitError) :
      Outside (releasing error) c idle { c with autoCommitGuard := false }
  | reset (c : CommitterChannels T) (partitionOffsets : OffsetMap) :
      Outside idle c (resetWaiting partitionOffsets) c
  | mark (c : CommitterChannels T) (p : Int) (assigned : Bool) : Outside idle c (marking p assigned) c
  | sample (c : CommitterChannels T) : Outside idle c sampling c

inductive Lock : GoroutinePc T → GoroutinePc T → Prop where
  | ingest (w : WorkItem T) : Lock (received w) (ingesting w 1)
  | tick : Lock guarded ticking
  | reset (partitionOffsets : OffsetMap) :
      Lock (resetWaiting partitionOffsets) (resetting partitionOffsets.entries)
  | mark (p : Int) (assigned : Bool) : Lock (marking p assigned) (marked p assigned)
  | sample : Lock sampling sampled

inductive Unlock : GoroutinePc T → GoroutinePc T → Prop where
  | done : Unlock unlocking idle
  | tick (error : Option CommitError) : Unlock (ticked error) (releasing error)

inductive Inside (slices : SortFunc (WorkItem T)) : GoroutinePc T → CommitterChannels T →
    Protected T → GoroutinePc T → CommitterChannels T → Protected T → Prop where
  | processCommit (c : CommitterChannels T) (d : Protected T) (w : WorkItem T) (n : Nat)
      (now : Int) : Inside slices (ingesting w n) c d (batching n) c
        { d with committer := d.committer.processCommit w now }
  | next (c : CommitterChannels T) (d : Protected T) (w : WorkItem T) (rest : List (WorkItem T))
      (n : Nat) (more : n < readBatchSize) (head : c.commitsIn = w :: rest) :
      Inside slices (batching n) c d (ingesting w (n + 1)) { c with commitsIn := rest } d
  | endBatch (c : CommitterChannels T) (d : Protected T) (n : Nat) (order : List Int) (now : Int)
      (ended : readBatchSize ≤ n ∨ c.commitsIn = []) (iterates : d.committer.Iterates order) :
      Inside slices (batching n) c d (flushing order now .ingest) c d
  | flush (c : CommitterChannels T) (d : Protected T) (p : Int) (todo : List Int) (now : Int)
      (after : Flusher) : Inside slices (flushing (p :: todo) now after) c d
        (flushing todo now after) c
        { d with committer := d.committer.flushPartition slices now p }
  | signalDrained (c : CommitterChannels T) (d : Protected T) (now : Int) :
      Inside slices (flushing [] now .ingest) c d unlocking
        { c with drained := c.drained || c.commitsIn.isEmpty } d
  | flushTick (c : CommitterChannels T) (d : Protected T) (order : List Int) (now : Int)
      (iterates : d.committer.Iterates order) :
      Inside slices ticking c d (flushing order now .tick) c d
  | range (c : CommitterChannels T) (d : Protected T) (order : List Int) (now : Int)
      (iterates : d.committer.Iterates order) :
      Inside slices (flushing [] now .tick) c d (gathering order []) c d
  | gather (c : CommitterChannels T) (d : Protected T) (p : Int) (todo : List Int)
      (commits : List (WorkItem T)) (now : Int) : Inside slices (gathering (p :: todo) commits) c d
        (gathering todo (Committer.commitPartition (fun _ => now) (d.committer, commits) p).2) c
        { d with committer := (Committer.commitPartition (fun _ => now) (d.committer, commits) p).1 }
  | nothing (c : CommitterChannels T) (d : Protected T) :
      Inside slices (gathering [] []) c d (ticked none) c d
  | send (c : CommitterChannels T) (d : Protected T) (commits : List (WorkItem T))
      (nonempty : commits ≠ []) : Inside slices (gathering [] commits) c d (sending commits) c d
  | reject (c : CommitterChannels T) (d : Protected T) (commits : List (WorkItem T)) :
      Inside slices (sending commits) c d (ticked (some .errBrokerCommitFailed)) c
        { d with answered := d.answered ++ [(commits, false)] }
  | accept (c : CommitterChannels T) (d : Protected T) (commits : List (WorkItem T)) :
      Inside slices (sending commits) c d (accepting commits) c
        { d with answered := d.answered ++ [(commits, true)] }
  | acceptMessage (c : CommitterChannels T) (d : Protected T) (w : WorkItem T)
      (todo : List (WorkItem T)) : Inside slices (accepting (w :: todo)) c d (accepting todo) c
        { d with committer := d.committer.acceptMessage w }
  | accepted (c : CommitterChannels T) (d : Protected T) :
      Inside slices (accepting []) c d (ticked none) c d
  | resetPartition (c : CommitterChannels T) (d : Protected T) (r : Int × Int)
      (todo : List (Int × Int)) : Inside slices (resetting (r :: todo)) c d (resetting todo) c
        { d with committer := d.committer.resetPartition r }
  | resetDone (c : CommitterChannels T) (d : Protected T) :
      Inside slices (resetting []) c d unlocking c d
  | markAssigned (c : CommitterChannels T) (d : Protected T) (p : Int) :
      Inside slices (marked p true) c d unlocking c
        { d with committer := d.committer.markPartitionAssigned p }
  | markRevoked (c : CommitterChannels T) (d : Protected T) (p : Int) :
      Inside slices (marked p false) c d unlocking c
        { d with committer := d.committer.markPartitionRevoked p }
  | sample (c : CommitterChannels T) (d : Protected T) : Inside slices sampled c d unlocking c d

end GoroutinePc

def committerCode (slices : SortFunc (WorkItem T)) :
    MutexCode (Protected T) (CommitterChannels T) (GoroutinePc T) where
  held := GoroutinePc.InLock
  outside := GoroutinePc.Outside
  lock := GoroutinePc.Lock
  inside := GoroutinePc.Inside slices
  unlock := GoroutinePc.Unlock
  outside_held h := by cases h <;> exact ⟨id, id⟩
  lock_held h := by cases h <;> exact ⟨id, trivial⟩
  inside_held h := by cases h <;> exact ⟨trivial, trivial⟩
  unlock_held h := by cases h <;> exact ⟨trivial, id⟩

/-- Any number of goroutines on a new committer. -/
def lockingSystem (slices : SortFunc (WorkItem T)) :
    System (Sharing (Protected T) (CommitterChannels T) (GoroutinePc T) Nat) :=
  (committerCode slices).system Nat {} {} .idle

/-! ## Whole calls -/

/-- The broker call of a `CommitOffsets`, with the broker's answer. -/
def Call.answered (slices : SortFunc (WorkItem T)) (c : Committer T) :
    Call T → List (List (WorkItem T) × Bool)
  | .commitOffsets k =>
    if (c.commitOffsets slices k).sent = [] then []
    else [((c.commitOffsets slices k).sent, k.accepted)]
  | _ => []

/-- The broker calls of a run. -/
def History.answered (slices : SortFunc (WorkItem T)) (h : History T) :
    List (List (WorkItem T) × Bool) := h.steps.flatMap fun s => s.2.answered slices s.1

variable {slices : SortFunc (WorkItem T)}

theorem History.record_answered (h : History T) (call : Call T) :
    (h.record slices call).answered slices = h.answered slices ++ call.answered slices h.committer := by
  rw [History.answered, History.record, List.flatMap_append, List.flatMap_singleton]
  rfl

/-- A run of whole calls led to a committer from which `effect` leads to the present one, with
the answers `log` since then. -/
def Since (slices : SortFunc (WorkItem T)) (log : List (List (WorkItem T) × Bool))
    (effect : Committer T → Committer T → Prop) (d : Protected T) : Prop :=
  ∃ h, (callSystem slices Call.Legal).Reachable h ∧ h.answered slices ++ log = d.answered ∧
    effect h.committer d.committer

/-- The committer is the one after some run of whole calls, with the same broker calls. -/
def Sequential (slices : SortFunc (WorkItem T)) (d : Protected T) : Prop :=
  Since slices [] (fun c c' => c = c') d

namespace Since
variable {log more : List (List (WorkItem T) × Bool)}
  {effect effect' : Committer T → Committer T → Prop} {d d' : Protected T}

theorem imp (h : Since slices log effect d) (answered : d'.answered = d.answered ++ more)
    (next : ∀ c, c.Keyed → effect c d.committer → effect' c d'.committer) :
    Since slices (log ++ more) effect' d' := by
  obtain ⟨h, hreach, hanswered, heffect⟩ := h
  refine ⟨h, hreach, ?_, next _ (.of_reachable hreach) heffect⟩
  rw [answered, ← hanswered, List.append_assoc]

/-- A step without a broker call. -/
theorem quiet (h : Since slices log effect d) (answered : d'.answered = d.answered)
    (next : ∀ c, c.Keyed → effect c d.committer → effect' c d'.committer) :
    Since slices log effect' d' := by
  have hmore := h.imp (answered.trans (List.append_nil _).symm) next
  rwa [List.append_nil] at hmore

/-- What has been done is a whole call. -/
theorem call (h : Since slices log effect d)
    (whole : ∀ c, effect c d.committer → ∃ call : Call T, call.Legal c ∧
      call.answered slices c = log ∧ call.run slices c = d.committer) : Sequential slices d := by
  obtain ⟨h, hreach, hanswered, heffect⟩ := h
  obtain ⟨call, hlegal, hlog, hrun⟩ := whole h.committer heffect
  refine ⟨h.record slices call, hreach.step ⟨call, hlegal, rfl⟩, ?_, hrun⟩
  rw [List.append_nil, History.record_answered, hlog, hanswered]

end Since

/-- A call of one step. -/
theorem Sequential.call {d : Protected T} (h : Sequential slices d) (call : Call T)
    (legal : ∀ c, call.Legal c) (silent : ∀ c, call.answered slices c = []) :
    Sequential slices { d with committer := call.run slices d.committer } := by
  have hone : Since slices [] (fun c c' => c' = call.run slices c)
      { d with committer := call.run slices d.committer } :=
    h.quiet rfl fun c _ hc => congrArg (call.run slices) hc.symm
  exact hone.call fun c hc => ⟨call, legal c, silent c, hc.symm⟩

/-! ## How far a call is -/

/-- `flushGapBuffers` with `todo` before it. -/
def Flushing (slices : SortFunc (WorkItem T)) (todo : List Int) (now : Int) (c c' : Committer T) :
    Prop :=
  ∃ visited, c.Iterates (visited ++ todo) ∧ visited.foldl (Committer.flushPartition slices now) c = c'

/-- The loop over the map in `CommitOffsets`, with `todo` before it. -/
def Gathering (slices : SortFunc (WorkItem T)) (todo : List Int) (commits : List (WorkItem T))
    (c c' : Committer T) : Prop :=
  ∃ flushOrder flushTime repairTime visited, c.Iterates flushOrder ∧ c.Iterates (visited ++ todo) ∧
    visited.foldl (Committer.commitPartition repairTime)
      (c.flushGapBuffers slices flushOrder flushTime, []) = (c', commits)

/-- The loop over the accepted batch, with `todo` before it. -/
def Accepting (slices : SortFunc (WorkItem T)) (commits todo : List (WorkItem T))
    (c c' : Committer T) : Prop :=
  ∃ c₁ visited, Gathering slices [] commits c c₁ ∧ visited ++ todo = commits ∧
    visited.foldl Committer.acceptMessage c₁ = c'

def Resetting (todo : List (Int × Int)) (c c' : Committer T) : Prop :=
  ∃ visited, ((visited ++ todo).map Prod.fst).Nodup ∧
    visited.foldl Committer.resetPartition c = c'

section Effects
variable {c c' : Committer T} {todo : List Int} {now : Int} {commits : List (WorkItem T)}

theorem Flushing.start {order : List Int} (iterates : c'.Iterates order) (same : c = c') :
    Flushing slices order now c c' := ⟨[], same ▸ iterates, same⟩

theorem Flushing.next {p : Int} (h : Flushing slices (p :: todo) now c c') :
    Flushing slices todo now c (c'.flushPartition slices now p) := by
  obtain ⟨visited, hiterates, hc⟩ := h
  refine ⟨visited ++ [p], by rwa [List.append_assoc], ?_⟩
  rw [List.foldl_append, hc]
  rfl

theorem Flushing.iterates (h : Flushing slices [] now c c') :
    ∃ order, c.Iterates order ∧ c.flushGapBuffers slices order now = c' := by
  obtain ⟨visited, hiterates, hc⟩ := h
  rw [List.append_nil] at hiterates
  exact ⟨visited, hiterates, hc⟩

/-- The flush keeps the entries of the map. -/
theorem Gathering.start (keyed : c.Keyed) {order : List Int} (h : Flushing slices [] now c c')
    (iterates : c'.Iterates order) : Gathering slices order [] c c' := by
  obtain ⟨flushOrder, hflush, rfl⟩ := h.iterates
  have hpreserves := Committer.preserves_flushGapBuffers slices keyed hflush now
  refine ⟨flushOrder, now, fun _ => 0, [], hflush, ⟨iterates.1, fun p => (iterates.2 p).trans ?_⟩, rfl⟩
  cases hp : c.partitionMap p with
  | none => rw [hpreserves.absent p hp]
  | some t =>
    obtain ⟨t', ht', _⟩ := hpreserves.tracker p t hp
    rw [ht']
    exact iff_of_true rfl rfl

/-- A partition reads the clock for itself. -/
theorem commitPartition_congr {f g : Int → Int} {p : Int} (same : f p = g p)
    (acc : Committer T × List (WorkItem T)) :
    Committer.commitPartition f acc p = Committer.commitPartition g acc p := by
  unfold Committer.commitPartition
  rw [same]

/-- One more partition, at a time of its own. -/
theorem foldl_commitPartition_next {visited : List Int} {p : Int} (hnew : p ∉ visited)
    (repairTime : Int → Int) (now : Int) (acc : Committer T × List (WorkItem T)) :
    (visited ++ [p]).foldl (Committer.commitPartition (Function.update repairTime p now)) acc =
      Committer.commitPartition (fun _ => now)
        (visited.foldl (Committer.commitPartition repairTime) acc) p := by
  rw [List.foldl_append, List.foldl_cons, List.foldl_nil]
  have hbefore : visited.foldl (Committer.commitPartition (Function.update repairTime p now)) acc =
      visited.foldl (Committer.commitPartition repairTime) acc := by
    apply List.foldl_ext
    intro acc q hq
    have hne : q ≠ p := ne_of_mem_of_not_mem hq hnew
    exact commitPartition_congr (Function.update_of_ne hne _ _) acc
  have hown : Function.update repairTime p now p = (fun _ => now) p := Function.update_self ..
  rw [hbefore]
  exact commitPartition_congr hown _

theorem Gathering.next {p : Int} (h : Gathering slices (p :: todo) commits c c') (now : Int) :
    Gathering slices todo (Committer.commitPartition (fun _ => now) (c', commits) p).2 c
      (Committer.commitPartition (fun _ => now) (c', commits) p).1 := by
  obtain ⟨flushOrder, flushTime, repairTime, visited, hflush, hiterates, hc⟩ := h
  have hnew : p ∉ visited := fun hp =>
    (List.nodup_append.mp hiterates.1).2.2 p hp p List.mem_cons_self rfl
  refine ⟨flushOrder, flushTime, Function.update repairTime p now, visited ++ [p], hflush,
    by rwa [List.append_assoc], ?_⟩
  rw [foldl_commitPartition_next hnew, hc]

/-- The tick that has gathered its batch. -/
theorem Gathering.tick (h : Gathering slices [] commits c c') (accepted : Bool) :
    ∃ k : Tick, c.Iterates k.flushOrder ∧ c.Iterates k.commitOrder ∧ k.guardAcquired = true ∧
      k.accepted = accepted ∧ Committer.gatherCommits slices k c = (c', commits) := by
  obtain ⟨flushOrder, flushTime, repairTime, visited, hflush, hiterates, hc⟩ := h
  rw [List.append_nil] at hiterates
  exact ⟨⟨true, flushOrder, visited, flushTime, repairTime, accepted⟩, hflush, hiterates, rfl, rfl, hc⟩

/-- A batch that the broker answers is a whole `CommitOffsets`. -/
theorem Gathering.call (h : Gathering slices [] commits c c') (accepted : Bool) :
    ∃ call : Call T, call.Legal c ∧
      call.answered slices c = (if commits = [] then [] else [(commits, accepted)]) ∧
      call.run slices c = if accepted then commits.foldl Committer.acceptMessage c' else c' := by
  obtain ⟨k, hflush, hiterates, hguard, rfl, hgather⟩ := h.tick accepted
  have hcommit := Committer.commitOffsets_eq (c := c) slices k hguard
  rw [hgather] at hcommit
  refine ⟨.commitOffsets k, ⟨hflush, hiterates⟩, ?_, ?_⟩
  · rw [Call.answered, hcommit]
    cases commits with
    | nil => rfl
    | cons w ws => cases k.accepted <;> rfl
  · rw [Call.run, hcommit]
    cases commits with
    | nil => cases k.accepted <;> rfl
    | cons w ws => cases k.accepted <;> rfl

theorem Accepting.next {w : WorkItem T} {todo : List (WorkItem T)}
    (h : Accepting slices commits (w :: todo) c c') :
    Accepting slices commits todo c (c'.acceptMessage w) := by
  obtain ⟨c₁, visited, hgathered, hcommits, hc⟩ := h
  refine ⟨c₁, visited ++ [w], hgathered, by rwa [List.append_assoc], ?_⟩
  rw [List.foldl_append, hc]
  rfl

theorem Resetting.next {r : Int × Int} {todo : List (Int × Int)} (h : Resetting (r :: todo) c c') :
    Resetting todo c (c'.resetPartition r) := by
  obtain ⟨visited, hkeys, hc⟩ := h
  refine ⟨visited ++ [r], by rwa [List.append_assoc], ?_⟩
  rw [List.foldl_append, hc]
  rfl

end Effects

/-- What a goroutine behind the lock knows of the data. -/
def Knows (slices : SortFunc (WorkItem T)) (pc : GoroutinePc T) (d : Protected T) : Prop :=
  match pc with
  | .flushing todo now _ => Since slices [] (Flushing slices todo now) d
  | .gathering todo commits => Since slices [] (Gathering slices todo commits) d
  | .sending commits => commits ≠ [] ∧ Since slices [] (Gathering slices [] commits) d
  | .accepting todo => ∃ commits, commits ≠ [] ∧
      Since slices [(commits, true)] (Accepting slices commits todo) d
  | .resetting todo => Since slices [] (Resetting todo) d
  | _ => Sequential slices d

theorem knows_lock {pc pc' : GoroutinePc T} {d : Protected T} (h : Sequential slices d)
    (lock : GoroutinePc.Lock pc pc') : Knows slices pc' d := by
  cases lock with
  | ingest | tick | mark | sample => exact h
  | reset partitionOffsets =>
    have hstart : Since slices [] (Resetting partitionOffsets.entries) d :=
      h.quiet rfl fun c _ hc => ⟨[], partitionOffsets.keys, hc⟩
    exact hstart

theorem knows_inside {pc pc' : GoroutinePc T} {c c' : CommitterChannels T} {d d' : Protected T}
    (h : Knows slices pc d) (inside : GoroutinePc.Inside slices pc c d pc' c' d') :
    Knows slices pc' d' := by
  cases inside with
  | processCommit _ _ w n now =>
    exact Sequential.call h (.processCommit w now) (fun _ => trivial) fun _ => rfl
  | next => exact h
  | endBatch _ _ n order now ended iterates =>
    have hstart : Since slices [] (Flushing slices order now) d :=
      Since.quiet h rfl fun c _ hc => .start iterates hc
    exact hstart
  | flush _ _ p todo now after =>
    have hnext : Since slices [] (Flushing slices todo now)
        { d with committer := d.committer.flushPartition slices now p } :=
      Since.quiet h rfl fun c _ hc => Flushing.next hc
    exact hnext
  | signalDrained _ _ now =>
    have hdone : Since slices [] (Flushing slices [] now) d := h
    refine hdone.call fun c hc => ?_
    obtain ⟨order, hiterates, hrun⟩ := hc.iterates
    exact ⟨.flushGapBuffers order now, hiterates, rfl, hrun⟩
  | flushTick _ _ order now iterates =>
    have hstart : Since slices [] (Flushing slices order now) d :=
      Since.quiet h rfl fun c _ hc => .start iterates hc
    exact hstart
  | range _ _ order now iterates =>
    have hstart : Since slices [] (Gathering slices order []) d :=
      Since.quiet h rfl fun c hkeyed hc => Gathering.start hkeyed hc iterates
    exact hstart
  | gather _ _ p todo commits now =>
    have hgathering : Since slices [] (Gathering slices (p :: todo) commits) d := h
    exact hgathering.quiet rfl fun c _ hc => hc.next now
  | nothing =>
    have hdone : Since slices [] (Gathering slices [] []) d := h
    exact hdone.call fun c hc => hc.call true
  | send _ _ commits nonempty => exact ⟨nonempty, h⟩
  | reject _ _ commits =>
    obtain ⟨hsome, h⟩ := h
    have hlogged : Since slices [(commits, false)] (Gathering slices [] commits)
      { d with answered := d.answered ++ [(commits, false)] } := h.imp rfl fun _ _ hc => hc
    refine hlogged.call fun c hc => ?_
    have hwhole := hc.call false
    rwa [if_neg hsome] at hwhole
  | accept _ _ commits =>
    obtain ⟨hsome, h⟩ := h
    exact ⟨commits, hsome, h.imp rfl fun c _ hc => ⟨d.committer, [], hc, rfl, rfl⟩⟩
  | acceptMessage _ _ w todo =>
    obtain ⟨commits, hsome, h⟩ := h
    exact ⟨commits, hsome, h.quiet rfl fun c _ hc => hc.next⟩
  | accepted =>
    obtain ⟨commits, hsome, h⟩ := h
    refine h.call fun c hc => ?_
    obtain ⟨c₁, visited, hgathered, hcommits, hc⟩ := hc
    rw [List.append_nil] at hcommits
    have hwhole := hgathered.call true
    rw [if_neg hsome, ← hcommits] at hwhole
    exact hc ▸ hcommits ▸ hwhole
  | resetPartition _ _ r todo =>
    have hresetting : Since slices [] (Resetting (r :: todo)) d := h
    exact hresetting.quiet rfl fun c _ hc => hc.next
  | resetDone =>
    have hdone : Since slices [] (Resetting []) d := h
    refine hdone.call fun c hc => ?_
    obtain ⟨visited, hkeys, hc⟩ := hc
    rw [List.append_nil] at hkeys
    exact ⟨.resetCommittedOffsets visited, hkeys, rfl, hc⟩
  | markAssigned _ _ p =>
    exact Sequential.call h (.markPartitionAssigned p) (fun _ => trivial) fun _ => rfl
  | markRevoked _ _ p =>
    exact Sequential.call h (.markPartitionRevoked p) (fun _ => trivial) fun _ => rfl
  | sample => exact h

theorem monitor : (committerCode slices).Monitor (Sequential slices) (Knows slices) where
  lock h lock := knows_lock h lock
  inside h inside := knows_inside h inside
  unlock h unlock := by
    cases unlock with
    | done => exact h
    | tick error => exact h

section Locking
variable {s : Sharing (Protected T) (CommitterChannels T) (GoroutinePc T) Nat}

theorem knows_of_reachable (h : (lockingSystem slices).Reachable s) :
    (s.owner = none → Sequential slices s.data) ∧
      ∀ i, (s.pcs i).InLock → Knows slices (s.pcs i) s.data := by
  have hinit : Sequential slices ({} : Protected T) := ⟨{}, .init rfl, rfl, rfl⟩
  exact monitor.of_reachable id hinit h

theorem alone_of_reachable (h : (lockingSystem slices).Reachable s) {i j : Nat}
    (hi : (s.pcs i).InLock) (hj : (s.pcs j).InLock) : j = i := by
  have howner : ∀ k, (s.pcs k).InLock ↔ s.owner = some k := MutexCode.held_iff_owner id h
  exact Option.some.inj (((howner j).mp hj).symm.trans ((howner i).mp hi))

/-- However the goroutines interleave: when the mutex is free, and for a snapshot that has taken
it, the committer is the one after a run of whole calls, one after another, with the same broker
calls and answers. -/
theorem locked_run_sequential (s : Sharing (Protected T) (CommitterChannels T) (GoroutinePc T) Nat)
    (h : (lockingSystem slices).Reachable s)
    (settled : s.owner = none ∨ ∃ i, s.pcs i = .sampled) :
    ∃ run : History T, (callSystem slices Call.Legal).Reachable run ∧
      run.committer = s.data.committer ∧ run.answered slices = s.data.answered := by
  obtain ⟨hfree, hknows⟩ := knows_of_reachable h
  have hsequential : Sequential slices s.data := by
    rcases settled with hnone | ⟨i, hi⟩
    · exact hfree hnone
    · have hread := hknows i (by rw [hi]; trivial)
      rw [hi] at hread
      exact hread
  obtain ⟨run, hreach, hanswered, hrun⟩ := hsequential
  exact ⟨run, hreach, hrun, by rwa [List.append_nil] at hanswered⟩

/-- What a tracker offers to the batch. -/
theorem collectCommit_some {t : OffsetsTracker T} {assigned : Bool} {now : Int} {m : WorkItem T}
    (h : (t.collectCommit assigned now).2.2 = some m) : assigned = true ∧
      (t.collectCommit assigned now).1.ready = some m ∧
      (t.collectCommit assigned now).1.committedPlusOne ≤ m.offset := by
  cases assigned with
  | false => exact nomatch h
  | true =>
    refine ⟨rfl, Committer.collectCommit_offered h, ?_⟩
    rcases OffsetsTracker.collectCommit_cases t now with ⟨_, _, hn⟩ | ⟨_, _, _, _, hn⟩ |
      ⟨w, _, hle, hsame, hw⟩
    · exact nomatch h.symm.trans hn
    · exact nomatch h.symm.trans hn
    · obtain rfl := Option.some.inj (h.symm.trans hw)
      rw [hsame, OffsetsTracker.repairSuccessor_committedPlusOne]
      exact hle

/-- What a gathered batch holds. -/
theorem Gathering.batch {c c' : Committer T} {commits : List (WorkItem T)} (keyed : c.Keyed)
    (h : Gathering slices [] commits c c') :
    (commits.map WorkItem.partition).Nodup ∧ ∀ m ∈ commits, c'.assigned m.partition = true ∧
      ∃ t, c'.partitionMap m.partition = some t ∧ t.ready = some m ∧
        t.committedPlusOne ≤ m.offset := by
  obtain ⟨k, hflush, hiterates, _, _, hgather⟩ := h.tick true
  have hnodup := Committer.gatherCommits_nodup slices k keyed hflush hiterates
  rw [hgather] at hnodup
  refine ⟨hnodup, ?_⟩
  intro m hm
  have hslice := Committer.gatherCommits_slice slices k keyed hflush hiterates m.partition
  rw [hgather] at hslice
  have hin : m ∈ (Committer.batchSlice (c', commits) m.partition).2 :=
    List.mem_filter.mpr ⟨hm, beq_self_eq_true _⟩
  cases hp : c.partitionMap m.partition with
  | none =>
    rw [hp] at hslice
    rw [hslice] at hin
    exact absurd hin List.not_mem_nil
  | some t =>
    rw [hp] at hslice
    rw [hslice] at hin
    obtain ⟨hassigned, hready, hle⟩ := collectCommit_some (Option.mem_toList.mp hin)
    have hentry := congrArg Prod.fst hslice
    exact ⟨(congrArg Slice.assigned hentry).trans hassigned, _, congrArg Slice.tracker hentry,
      hready, hle⟩

/-- While a broker call is in progress its goroutine is alone behind the mutex, and every record
of the batch is the one `Ready` of a partition that is assigned, at or above its baseline. -/
theorem broker_call_owned (s : Sharing (Protected T) (CommitterChannels T) (GoroutinePc T) Nat)
    (h : (lockingSystem slices).Reachable s) (i : Nat) (commits : List (WorkItem T))
    (pc : s.pcs i = .sending commits) :
    (∀ j, (s.pcs j).InLock → j = i) ∧ commits ≠ [] ∧ (commits.map WorkItem.partition).Nodup ∧
    ∀ m ∈ commits, s.data.committer.assigned m.partition = true ∧
      ∃ t, s.data.committer.partitionMap m.partition = some t ∧ t.ready = some m ∧
        t.committedPlusOne ≤ m.offset := by
  have hin : (s.pcs i).InLock := by
    rw [pc]
    trivial
  have hknows := (knows_of_reachable h).2 i hin
  rw [pc] at hknows
  obtain ⟨hsome, run, hreach, _, hgathered⟩ := hknows
  exact ⟨fun j hj => alone_of_reachable h hin hj, hsome, hgathered.batch (.of_reachable hreach)⟩

theorem reachable_outside (h : (lockingSystem slices).Reachable s) (i : Nat) {pc : GoroutinePc T}
    {c : CommitterChannels T} (move : GoroutinePc.Outside (s.pcs i) s.channels pc c) :
    (lockingSystem slices).Reachable
      { s with channels := c, pcs := Function.update s.pcs i pc } :=
  h.step (.outside s i pc c move)

theorem reachable_lock (h : (lockingSystem slices).Reachable s) (i : Nat) {pc : GoroutinePc T}
    (free : s.owner = none) (move : GoroutinePc.Lock (s.pcs i) pc) :
    (lockingSystem slices).Reachable
      { s with pcs := Function.update s.pcs i pc, owner := some i } :=
  h.step (.lock s i pc free move)

theorem reachable_inside (h : (lockingSystem slices).Reachable s) (i : Nat) {pc : GoroutinePc T}
    {c : CommitterChannels T} {d : Protected T}
    (move : GoroutinePc.Inside slices (s.pcs i) s.channels s.data pc c d) :
    (lockingSystem slices).Reachable
      { s with data := d, channels := c, pcs := Function.update s.pcs i pc } :=
  h.step (.inside s i pc c d move)

theorem reachable_unlock (h : (lockingSystem slices).Reachable s) (i : Nat) {pc : GoroutinePc T}
    (move : GoroutinePc.Unlock (s.pcs i) pc) : (lockingSystem slices).Reachable
      { s with pcs := Function.update s.pcs i pc, owner := none } :=
  h.step (.unlock s i pc move)

end Locking

section Samples
open Handshake

/-- Partition `0` is assigned and its first record has gone through the ingest loop. -/
def assignedFlushed : Committer Unit := oneFlushed.markPartitionAssigned 0

theorem assignedFlushed_keyed : assignedFlushed.Keyed :=
  (oneProcessed_keyed.flushGapBuffers _ _ _).markPartitionAssigned 0

theorem assignedFlushed_iterates : assignedFlushed.Iterates [0] := oneFlushed_iterates

theorem assignedFlushed_reachable :
    (lockingSystem (SortFunc.insertion (WorkItem Unit))).Reachable
      ⟨{ committer := assignedFlushed }, { drained := true }, fun _ => .idle, none⟩ := by
  have h0 : (lockingSystem (SortFunc.insertion (WorkItem Unit))).Reachable _ := .init rfl
  have h1 := reachable_outside h0 0 (.collectAndCommit _ (drainItem 0))
  have h2 := reachable_outside h1 0 (.receive _ (drainItem 0) [] rfl)
  have h3 := reachable_lock h2 0 rfl (.ingest _)
  have h4 := reachable_inside h3 0 (.processCommit _ _ _ _ 0)
  have h5 := reachable_inside h4 0 (.endBatch _ _ _ [0] 0 (.inr rfl) oneProcessed_iterates)
  have h6 := reachable_inside h5 0 (.flush _ _ _ _ _ _)
  have h7 := reachable_inside h6 0 (.signalDrained _ _ _)
  have h8 := reachable_unlock h7 0 .done
  have h9 := reachable_outside h8 0 (.mark _ 0 true)
  have h10 := reachable_lock h9 0 rfl (.mark _ _)
  have h11 := reachable_inside h10 0 (.markAssigned _ _ _)
  have h12 := reachable_unlock h11 0 .done
  have hidle : Function.update (fun _ : Nat => (.idle : GoroutinePc Unit)) 0 .idle = fun _ => .idle :=
    Function.update_eq_self _ _
  simp only [Function.update_idem, hidle] at h12
  exact h12

/-- What the tick gathers for partition `0`. -/
def gatheredFirst : Committer Unit × List (WorkItem Unit) :=
  Committer.commitPartition (fun _ => 0)
    (assignedFlushed.flushPartition (SortFunc.insertion _) 0 0, []) 0

theorem assignedFlushed_flush_iterates :
    (assignedFlushed.flushPartition (SortFunc.insertion _) 0 0).Iterates [0] := by
  apply Committer.iterates_singleton
  · decide
  · intro q hq
    refine (Committer.preserves_flushGapBuffers _ assignedFlushed_keyed
      assignedFlushed_iterates 0).absent q ?_
    exact Option.not_isSome_iff_eq_none.mp fun hsome =>
      hq (List.mem_singleton.mp ((assignedFlushed_iterates.2 q).mpr hsome))

/-- Goroutine `1` is in the broker call. Meanwhile the second record has come in and the ingest
loop waits with it for the mutex, as does a call of `MarkPartitionRevoked`. -/
theorem inBrokerCall_reachable :
    ∃ s, (lockingSystem (SortFunc.insertion (WorkItem Unit))).Reachable s ∧
      s.data = { committer := gatheredFirst.1 } ∧ s.pcs 0 = .received (drainItem 1) ∧
      s.pcs 1 = .sending gatheredFirst.2 ∧ s.pcs 2 = .marking 0 false := by
  have h1 := reachable_outside assignedFlushed_reachable 1 (.commitOffsets _)
  have h2 := reachable_outside h1 1 (.guard _ rfl)
  have h3 := reachable_lock h2 1 rfl .tick
  have h4 := reachable_outside h3 3 (.collectAndCommit _ (drainItem 1))
  have h5 := reachable_inside h4 1 (.flushTick _ _ [0] 0 assignedFlushed_iterates)
  have h6 := reachable_outside h5 2 (.mark _ 0 false)
  have h7 := reachable_inside h6 1 (.flush _ _ _ _ _ _)
  have h8 := reachable_inside h7 1 (.range _ _ [0] _ assignedFlushed_flush_iterates)
  have h9 := reachable_inside h8 1 (.gather _ _ _ _ _ 0)
  have h10 := reachable_inside h9 1 (.send _ _ _ (by decide : gatheredFirst.2 ≠ []))
  have h11 := reachable_outside h10 0 (.receive _ (drainItem 1) [] rfl)
  exact ⟨_, h11, rfl, rfl, rfl, rfl⟩

/-- The broker accepts the first record while the ingest loop and the revocation wait. -/
theorem locked_run_sequential_sample : ∃ run : History Unit,
    (callSystem (SortFunc.insertion (WorkItem Unit)) Call.Legal).Reachable run ∧
      run.committer = gatheredFirst.2.foldl Committer.acceptMessage gatheredFirst.1 ∧
      run.answered (SortFunc.insertion (WorkItem Unit)) = [(gatheredFirst.2, true)] := by
  obtain ⟨s, h0, hdata, _, hsending, _⟩ := inBrokerCall_reachable
  have haccept : GoroutinePc.Inside (SortFunc.insertion _) (s.pcs 1) s.channels s.data
      (.accepting gatheredFirst.2) s.channels ⟨gatheredFirst.1, [(gatheredFirst.2, true)]⟩ := by
    rw [hsending, hdata]
    exact .accept _ _ _
  have h1 := reachable_inside h0 1 haccept
  have h2 := reachable_inside h1 1 (.acceptMessage _ _ _ [])
  have h3 := reachable_inside h2 1 (.accepted _ _)
  have h4 := reachable_unlock h3 1 (.tick none)
  exact locked_run_sequential _ h4 (.inl rfl)

/-- The auto-commit loop is in the broker call for the first record. -/
theorem broker_call_owned_sample : ∃ (c : Committer Unit) (m : WorkItem Unit),
    m.offset = 0 ∧ c.assigned m.partition = true ∧
      ∃ t, c.partitionMap m.partition = some t ∧ t.ready = some m ∧
        t.committedPlusOne ≤ m.offset := by
  obtain ⟨s, hreach, _, _, hpc, _⟩ := inBrokerCall_reachable
  obtain ⟨_, _, _, howned⟩ := broker_call_owned s hreach 1 _ hpc
  have hzero : ∃ m ∈ gatheredFirst.2, m.offset = 0 := by decide
  obtain ⟨m, hm, hoffset⟩ := hzero
  exact ⟨_, m, hoffset, howned m hm⟩

end Samples

end LlingrDemux.Offset
