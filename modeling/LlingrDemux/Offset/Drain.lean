import LlingrDemux.Offset.Committer
import LlingrDemux.Shared.System

/-!
# The ingest goroutine and `DrainCommitter`

`startIngestLoop` and `DrainCommitter`, step by step, around the ingest channel, the
one-slot `drained` channel and the committer's mutex, with the auto-commit loop as a third
party. The mutex is held while the ingest goroutine is in a batch; what `CommitOffsets`
does under it is one step.
-/

namespace LlingrDemux.Offset

open Shared
set_option autoImplicit false

variable {T : Type}

def readBatchSize : Nat := 1000

/-- The ingest goroutine: `received` waits for the guard ticker and `ready` for the mutex;
from `locked` to `unlocking` it holds the mutex. -/
inductive IngestPc (T : Type) where
  | idle
  | received (w : WorkItem T)
  | ready (w : WorkItem T)
  | locked (w : WorkItem T)
  | batch (messageCount : Nat)
  | flushing
  | testing
  | offering
  | unlocking

namespace IngestPc

/-- An item has left the channel and the mutex is not held. -/
def Holding : IngestPc T → Prop
  | received _ | ready _ => True
  | idle | locked _ | batch _ | flushing | testing | offering | unlocking => False

def InLock : IngestPc T → Prop
  | locked _ | batch _ | flushing | testing | offering | unlocking => True
  | idle | received _ | ready _ => False

/-- The item that has left the channel and has not reached `processCommit`. -/
def inHand : IngestPc T → List (WorkItem T)
  | received w | ready w | locked w => [w]
  | idle | batch _ | flushing | testing | offering | unlocking => []

end IngestPc

/-- What a step of the ingest goroutine does outside its own state and the channel. Each call
adds to the wall time of the batch what has passed since, so `now` is a time of its own. -/
inductive IngestAction (T : Type) where
  | silent
  | processCommit (w : WorkItem T) (now : Int)
  | flushGapBuffers (order : List Int) (now : Int)
  | offer

namespace IngestAction

def processed : IngestAction T → List (WorkItem T)
  | processCommit w _ => [w]
  | silent | flushGapBuffers _ _ | offer => []

/-- A loop over the partitions visits those of the map. -/
def Fits (c : Committer T) : IngestAction T → Prop
  | flushGapBuffers order _ => c.Iterates order
  | silent | processCommit _ _ | offer => True

end IngestAction

/-- `startIngestLoop`: from its state and the channel to the next ones. -/
inductive IngestMove : IngestPc T → List (WorkItem T) → IngestAction T →
    IngestPc T → List (WorkItem T) → Prop where
  | receive (w : WorkItem T) (rest : List (WorkItem T)) :
      IngestMove .idle (w :: rest) .silent (.received w) rest
  | tick (w : WorkItem T) (queue : List (WorkItem T)) :
      IngestMove (.received w) queue .silent (.ready w) queue
  | lock (w : WorkItem T) (queue : List (WorkItem T)) :
      IngestMove (.ready w) queue .silent (.locked w) queue
  | first (w : WorkItem T) (queue : List (WorkItem T)) (now : Int) :
      IngestMove (.locked w) queue (.processCommit w now) (.batch 1) queue
  | next (w : WorkItem T) (rest : List (WorkItem T)) (messageCount : Nat) (now : Int)
      (more : messageCount < readBatchSize) :
      IngestMove (.batch messageCount) (w :: rest) (.processCommit w now)
        (.batch (messageCount + 1)) rest
  | endBatch (queue : List (WorkItem T)) (messageCount : Nat)
      (stop : queue = [] ∨ messageCount = readBatchSize) :
      IngestMove (.batch messageCount) queue .silent .flushing queue
  | flush (queue : List (WorkItem T)) (order : List Int) (now : Int) :
      IngestMove .flushing queue (.flushGapBuffers order now) .testing queue
  | testEmpty : IngestMove .testing [] .silent .offering []
  | testMore (w : WorkItem T) (rest : List (WorkItem T)) :
      IngestMove .testing (w :: rest) .silent .unlocking (w :: rest)
  | offer (queue : List (WorkItem T)) : IngestMove .offering queue .offer .unlocking queue
  | unlock (queue : List (WorkItem T)) : IngestMove .unlocking queue .silent .idle queue

inductive DrainError where
  | timeout
  | commit (e : CommitError)
  deriving DecidableEq, Repr

/-- `DrainCommitter`: before the clearing of the token, before the test of the channel, in
either select, before the mutex barrier, before and behind the commit guard of the final
commit or of the one after a timeout, and returned. -/
inductive DrainPc where
  | idle
  | clearing
  | cleared
  | grace
  | barrier
  | waiting
  | final
  | finalGuarded
  | late
  | lateGuarded
  | returned (error : Option DrainError)
  deriving DecidableEq, Repr

/-- The two selects and the test before them. -/
def DrainPc.Awaiting : DrainPc → Prop
  | cleared | grace | waiting => True
  | idle | clearing | barrier | final | finalGuarded | late | lateGuarded | returned _ => False

/-- What `surfaceFinalCommit` makes of the result of `CommitOffsets`. -/
def surfaceFinalCommit : Option CommitError → Option DrainError
  | none | some .errBrokerCommitFailed => none
  | some e => some (.commit e)

/-- `autoCommitGuard` is the one-slot guard and `ticking` that the auto-commit loop holds it.
`processed` and `flushed` list the items that went through `processCommit` and through a
flush after it, `covered` those that had when the last final commit collected its batch. -/
structure Handshake (T : Type) where
  commitsIn : List (WorkItem T) := []
  drained : Bool := false
  autoCommitGuard : Bool := false
  committer : Committer T := {}
  ingest : IngestPc T := .idle
  drain : DrainPc := .idle
  ticking : Bool := false
  enqueued : List (WorkItem T) := []
  processed : List (WorkItem T) := []
  flushed : List (WorkItem T) := []
  covered : List (WorkItem T) := []

namespace Handshake

def collectAndCommit (s : Handshake T) (w : WorkItem T) : Handshake T :=
  { s with commitsIn := s.commitsIn ++ [w], enqueued := s.enqueued ++ [w] }

def perform (slices : SortFunc (WorkItem T)) (s : Handshake T) : IngestAction T → Handshake T
  | .silent => s
  | .processCommit w now =>
    { s with
      committer := s.committer.processCommit w now
      processed := s.processed ++ [w] }
  | .flushGapBuffers order now =>
    { s with
      committer := s.committer.flushGapBuffers slices order now
      flushed := s.processed }
  | .offer => { s with drained := true }

/-- The ingest goroutine moves. -/
def ingested (slices : SortFunc (WorkItem T)) (s : Handshake T) (a : IngestAction T)
    (pc : IngestPc T) (queue : List (WorkItem T)) : Handshake T :=
  { s.perform slices a with ingest := pc, commitsIn := queue }

/-- `CommitOffsets` with the guard acquired: under the mutex it flushes, then collects. -/
def commit (slices : SortFunc (WorkItem T)) (s : Handshake T) (k : Tick) : Handshake T :=
  { s with
    committer := (s.committer.commitOffsets slices k).committer
    autoCommitGuard := false
    flushed := s.processed }

/-- What the environment decides about a commit fits the partition map. -/
structure Fits (s : Handshake T) (k : Tick) : Prop where
  guardAcquired : k.guardAcquired = true
  flushes : s.committer.Iterates k.flushOrder
  commits : s.committer.Iterates k.commitOrder

/-- One step of `DrainCommitter`, from its call to the next one. The timers may expire at any
moment. -/
inductive DrainStep (slices : SortFunc (WorkItem T)) : Handshake T → Handshake T → Prop where
  | call (s : Handshake T) (pc : s.drain = .idle) : DrainStep slices s { s with drain := .clearing }
  | clear (s : Handshake T) (pc : s.drain = .clearing) :
      DrainStep slices s { s with drained := false, drain := .cleared }
  | lenEmpty (s : Handshake T) (pc : s.drain = .cleared) (empty : s.commitsIn = []) :
      DrainStep slices s { s with drain := .grace }
  | lenMore (s : Handshake T) (pc : s.drain = .cleared) (more : s.commitsIn ≠ []) :
      DrainStep slices s { s with drain := .waiting }
  | token (s : Handshake T) (pc : s.drain = .grace ∨ s.drain = .waiting) (full : s.drained = true) :
      DrainStep slices s { s with drained := false, drain := .final }
  | graceExpires (s : Handshake T) (pc : s.drain = .grace) :
      DrainStep slices s { s with drain := .barrier }
  | barrier (s : Handshake T) (pc : s.drain = .barrier) (free : ¬ s.ingest.InLock) :
      DrainStep slices s { s with drain := .final }
  | timerExpires (s : Handshake T) (pc : s.drain = .waiting) :
      DrainStep slices s { s with drain := .late }
  | acquire (s : Handshake T) (pc : s.drain = .final) (free : s.autoCommitGuard = false) :
      DrainStep slices s { s with autoCommitGuard := true, drain := .finalGuarded }
  | acquireExpires (s : Handshake T) (pc : s.drain = .final) :
      DrainStep slices s
        { s with drain := .returned (surfaceFinalCommit (some .acquireGuardFailed)) }
  | finalCommit (s : Handshake T) (k : Tick) (pc : s.drain = .finalGuarded)
      (free : ¬ s.ingest.InLock) (fits : s.Fits k) :
      DrainStep slices s { s.commit slices k with
        covered := (s.commit slices k).flushed
        drain := .returned (surfaceFinalCommit (s.committer.commitOffsets slices k).error) }
  | lateAcquire (s : Handshake T) (pc : s.drain = .late) (free : s.autoCommitGuard = false) :
      DrainStep slices s { s with autoCommitGuard := true, drain := .lateGuarded }
  | lateExpires (s : Handshake T) (pc : s.drain = .late) :
      DrainStep slices s { s with drain := .returned (some .timeout) }
  | lateCommit (s : Handshake T) (k : Tick) (pc : s.drain = .lateGuarded)
      (free : ¬ s.ingest.InLock) (fits : s.Fits k) :
      DrainStep slices s { s.commit slices k with drain := .returned (some .timeout) }
  | again (s : Handshake T) (error : Option DrainError) (pc : s.drain = .returned error) :
      DrainStep slices s { s with drain := .idle }

/-- Work items are enqueued only while no drain runs; the auto-commit loop runs all along. -/
inductive Step (slices : SortFunc (WorkItem T)) (commitIngestChannelLen : Nat) :
    Handshake T → Handshake T → Prop where
  | collectAndCommit (s : Handshake T) (w : WorkItem T) (before : s.drain = .idle)
      (room : s.commitsIn.length < commitIngestChannelLen) :
      Step slices commitIngestChannelLen s (s.collectAndCommit w)
  | ingest (s : Handshake T) (a : IngestAction T) (pc : IngestPc T) (queue : List (WorkItem T))
      (move : IngestMove s.ingest s.commitsIn a pc queue) (fits : a.Fits s.committer) :
      Step slices commitIngestChannelLen s (s.ingested slices a pc queue)
  | drain {s s' : Handshake T} (h : DrainStep slices s s') :
      Step slices commitIngestChannelLen s s'
  | tickerAcquire (s : Handshake T) (free : s.autoCommitGuard = false) :
      Step slices commitIngestChannelLen s { s with autoCommitGuard := true, ticking := true }
  | tickerCommit (s : Handshake T) (k : Tick) (holds : s.ticking = true)
      (free : ¬ s.ingest.InLock) (fits : s.Fits k) :
      Step slices commitIngestChannelLen s { s.commit slices k with ticking := false }

/-- The step does not clear the token between a successful test of the channel and the
offer that follows it while the channel has items again, and does not pass the barrier
while an item is out of the channel and the mutex not yet taken for it. -/
structure Orderly (s s' : Handshake T) : Prop where
  clear : s.drain = .clearing → s'.drain = .cleared → ¬ (s.ingest = .offering ∧ s.commitsIn ≠ [])
  barrier : s.drain = .barrier → s'.drain = .final → ¬ s.ingest.Holding

end Handshake

/-- Every interleaving, from any state of the committer. -/
def handshakeSystem (slices : SortFunc (WorkItem T)) (commitIngestChannelLen : Nat) :
    System (Handshake T) where
  init s := ∃ c, s = { committer := c }
  step := Handshake.Step slices commitIngestChannelLen

def orderlySystem (slices : SortFunc (WorkItem T)) (commitIngestChannelLen : Nat) :
    System (Handshake T) where
  init s := ∃ c, s = { committer := c }
  step s s' := Handshake.Step slices commitIngestChannelLen s s' ∧ s.Orderly s'

end LlingrDemux.Offset
