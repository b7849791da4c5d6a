import LlingrDemux.Snapshot.PreCommits
import LlingrDemux.Snapshot.Throughput

/-!
# Taking a snapshot

`TakeSnapshot` asks the samplers one after the other and puts their answers together: totals
over the windows, averages over the sliding window, and a count of the assigned partitions. What
it reports of the throughput comes from one reading of the committer's metrics, so it fits
together whatever happens before the other samplers are asked.
-/

namespace LlingrDemux.Snapshot

open Offset Shared
set_option autoImplicit false

variable {T : Type}

/-- `WindowData` of a committer made at `created`, whose ring has 15 buckets of a second. -/
def windowData (created : Int) (c : Committer T) : WindowData :=
  { (c.recorded.foldl MetricsRingBuffer.record (newRingBuffer 1000000000 15 created)).windowData with
    totalProcessed := c.totalProcessed }

/-! ## The totals -/

section Groups
variable {groups : List (List MetricsRecord)} (counts : ∀ g ∈ groups, g.length < 2 ^ 32)
include counts

end Groups

section Window
variable (now : Int) {wd : WindowData}

end Window

section Committer
variable {created : Int} {c : Committer T} (timed : ∀ r ∈ c.recorded, r.Timed)

end Committer

end LlingrDemux.Snapshot
