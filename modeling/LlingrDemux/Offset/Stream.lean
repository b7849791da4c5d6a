import LlingrDemux.Offset.Projection
import LlingrDemux.Pipeline.Prev
import LlingrDemux.Shared.System
import Mathlib.Order.Monotone.Basic

/-!
# One epoch fed by a stream

A stream is a strictly increasing sequence of records of one partition, stamped by
`GetPrevious` after a reset. Its records complete in any order and at most once each, in
batches that end in `flushGapBuffers`, between ticks that the broker accepts or rejects.
-/

namespace LlingrDemux.Offset

open Shared Prev
set_option autoImplicit false

variable {T : Type}

/-- The records of a stream with the predecessor tracker before each of them. -/
structure Stream (T : Type) (p : Int) where
  item : Nat → WorkItem T
  prev : Nat → PartitionOffsets
  opened : (prev 0).prevOffsets p = none
  stamped : ∀ i, (prev i).getPrevious p (item i).offset =
    (prev (i + 1), .ok ((item i).previousOffset, (item i).first))
  partition : ∀ i, (item i).partition = p
  clean : ∀ i, (item i).Clean

namespace Stream
variable {p : Int} (S : Stream T p)

def offset (i : Nat) : Int := (S.item i).offset

theorem offset_nonneg (i : Nat) : 0 ≤ S.offset i := (PartitionOffsets.getPrevious_ok (S.stamped i)).1

theorem prevOffsets_succ (i : Nat) : (S.prev (i + 1)).prevOffsets p = some (S.offset i) := by
  rw [(PartitionOffsets.getPrevious_ok (S.stamped i)).2.1, Function.update_self]
  rfl

theorem stamp_zero : (S.item 0).first = true := by
  rcases (PartitionOffsets.getPrevious_ok (S.stamped 0)).2.2 with ⟨_, _, hf⟩ | ⟨hs, _, _⟩
  · exact hf
  · rw [S.opened] at hs
    cases hs

theorem stamp_succ (i : Nat) : (S.item (i + 1)).previousOffset = S.offset i ∧
    S.offset i < S.offset (i + 1) ∧ (S.item (i + 1)).first = false := by
  have hprev := S.prevOffsets_succ i
  rcases (PartitionOffsets.getPrevious_ok (S.stamped (i + 1))).2.2 with ⟨hn, _, _⟩ | ⟨hs, hlt, hf⟩
  · rw [hn] at hprev
    cases hprev
  · rw [hs, Option.some.injEq] at hprev
    exact ⟨hprev, hprev ▸ hlt, hf⟩

theorem offset_lt {i j : Nat} : S.offset i < S.offset j ↔ i < j := by
  have hmono : StrictMono S.offset := strictMono_nat_of_lt_succ fun i => (S.stamp_succ i).2.1
  exact hmono.lt_iff_lt

theorem offset_inj {i j : Nat} (h : S.offset i = S.offset j) : i = j := by
  rcases Nat.lt_trichotomy i j with hlt | heq | hgt
  · exact absurd h (Int.ne_of_lt (S.offset_lt.mpr hlt))
  · exact heq
  · exact absurd h.symm (Int.ne_of_lt (S.offset_lt.mpr hgt))

end Stream

/-- A run over a stream: what completed, what the broker accepted for the partition, and
the items that had been retired when the epoch opened. -/
structure StreamRun (T : Type) where
  committer : Committer T
  before : List (WorkItem T)
  arrived : List Nat := []
  accepted : List Int := []

namespace StreamRun

/-- The work items of the partition retired since the epoch opened. -/
def retired (p : Int) (r : StreamRun T) : List (WorkItem T) :=
  (r.committer.slice p).collected.drop r.before.length

/-- The committer after the `processCommit` calls of a batch. -/
def ingest {p : Int} (S : Stream T p) (batch : List (Nat × Int)) (c : Committer T) : Committer T :=
  batch.foldl (fun c x => c.processCommit (S.item x.1) x.2) c

def batch {p : Int} (slices : SortFunc (WorkItem T)) (S : Stream T p) (r : StreamRun T)
    (items : List (Nat × Int)) (order : List Int) (now : Int) : StreamRun T :=
  { r with
    committer := (ingest S items r.committer).flushGapBuffers slices order now
    arrived := r.arrived ++ items.map Prod.fst }

def tick (slices : SortFunc (WorkItem T)) (p : Int) (r : StreamRun T) (k : Tick) : StreamRun T :=
  let q := r.committer.commitOffsets slices k
  { r with
    committer := q.committer
    accepted := r.accepted ++
      if q.error.isNone then (q.sent.filter fun m => m.partition == p).map WorkItem.offset else [] }

inductive Step {p : Int} (slices : SortFunc (WorkItem T)) (S : Stream T p) :
    StreamRun T → StreamRun T → Prop where
  | batch (r : StreamRun T) (items : List (Nat × Int)) (order : List Int) (now : Int)
      (once : (r.arrived ++ items.map Prod.fst).Nodup)
      (iterates : (ingest S items r.committer).Iterates order) :
      Step slices S r (r.batch slices S items order now)
  | tick (r : StreamRun T) (k : Tick) (flushes : r.committer.Iterates k.flushOrder)
      (commits : r.committer.Iterates k.commitOrder) : Step slices S r (r.tick slices p k)

/-- A committer whose partition was opened by `ResetCommittedOffsets` with empty `Ready`
and gap buffer, and marked as assigned. -/
structure Opened (p baseline : Int) (r : StreamRun T) : Prop where
  opening : ∃ c : Committer T, c.Keyed ∧
    r.committer = (c.resetCommittedOffsets [(p, baseline)]).markPartitionAssigned p
  empty : ∀ t, r.committer.partitionMap p = some t → t.ready = none ∧ t.gapBuffer = []
  before : r.before = (r.committer.slice p).collected
  arrived : r.arrived = []
  accepted : r.accepted = []

end StreamRun

def streamSystem {p : Int} (slices : SortFunc (WorkItem T)) (S : Stream T p) (baseline : Int) :
    System (StreamRun T) where
  init := StreamRun.Opened p baseline
  step := StreamRun.Step slices S

/-- The length of the longest prefix of the stream that has completed. -/
def CompletedPrefix (arrived : List Nat) (k : Nat) : Prop := (∀ i < k, i ∈ arrived) ∧ k ∉ arrived

/-- `Ready`'s offset, or `LastCommittedOffset` without one. -/
def OffsetsTracker.watermark (t : OffsetsTracker T) : Int :=
  match t.ready with
  | none => t.lastCommittedOffset
  | some r => r.offset

end LlingrDemux.Offset
