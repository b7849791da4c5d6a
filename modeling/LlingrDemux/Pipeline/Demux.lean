import LlingrDemux.Pipeline.Fnv
import LlingrDemux.Pipeline.Worker
import LlingrDemux.Shared.System
import Mathlib.Logic.Function.Basic

/-!
# The demultiplexer

Shards of workers by partition key, the worker pools with their warm-up and pruner, the
polling goroutine in `Processor.Process` and `SendToWorkerForProcessing`, any number of
`DrainWorkers` callers, and the tokens of the guard and of the shared overflow guard.
Every critical section of a shard's mutex is one step, except the dispatcher's borrowing
of a worker, during which it holds the mutex over three steps. The rate limiter is the
no-op one; `activeCount` and the log lines are left out.
-/

namespace LlingrDemux.Pipeline

open Shared
set_option autoImplicit false

variable {T : Type}

/-- The sizes of a validated configuration and the capacities of the two token channels. -/
structure Config where
  workerShardsCount : Nat
  perKeyBufferLen : Nat
  guardCap : Nat
  overflowCap : Nat
  minIdleWorkers : Nat
  shards_pos : 0 < workerShardsCount
  buffer_pos : 0 < perKeyBufferLen

def Config.workerPoolSize (cfg : Config) : Nat := cfg.guardCap + cfg.overflowCap

def Config.shardOf (cfg : Config) (partitionKey : String) : Nat :=
  (Fnv.hashIndex partitionKey (UInt32.ofNat (cfg.workerShardsCount - 1))).toNat

theorem Config.shardOf_lt (cfg : Config) (partitionKey : String) :
    cfg.shardOf partitionKey < cfg.workerShardsCount := by
  have hle := Fnv.hashIndex_le partitionKey (UInt32.ofNat (cfg.workerShardsCount - 1))
  have hmod : (UInt32.ofNat (cfg.workerShardsCount - 1)).toNat ≤ cfg.workerShardsCount - 1 := by
    rw [UInt32.toNat_ofNat']
    exact Nat.mod_le _ _
  have := cfg.shards_pos
  unfold Config.shardOf
  omega

/-- `pruneIdleWorkers`; `prevLen` starts at the largest integer, here `none`. -/
inductive PrunerPc where
  | waiting (prevLen : Option Nat)
  | taking (poolSize : Nat)
  | closing (worker poolSize : Nat)
  deriving DecidableEq, Repr

/-- The warm-up loop of `NewWorkerShard`. -/
inductive WarmupPc where
  | filling (warmed : List Nat)
  | returning (warmed : List Nat)
  | ready
  deriving DecidableEq, Repr

def WarmupPc.warmed : WarmupPc → List Nat
  | .filling l | .returning l => l
  | .ready => []

structure Shard where
  workers : String → Option Nat := fun _ => none
  workerPool : List Nat := []
  done : Bool := false
  pruner : PrunerPc := .waiting none
  warmup : WarmupPc := .filling []

/-- The polling goroutine: the two selects of `Process`, then `SendToWorkerForProcessing`
from its first lock on. `borrowing` and `inserting` hold the mutex; `settling` gives back
the token of an item that was pipelined or abandoned. -/
inductive DispatcherPc (T : Type) where
  | idle
  | acquiring (w : WorkItem T)
  | waiting (w : WorkItem T)
  | locking (w : WorkItem T)
  | borrowing (w : WorkItem T)
  | inserting (w : WorkItem T) (worker : Nat)
  | handing (w : WorkItem T) (worker : Nat)
  | stalled (w : WorkItem T)
  | settling (t : Token)

/-- The work item of a `SendToWorkerForProcessing` call that has not delivered it. -/
def DispatcherPc.sending : DispatcherPc T → Option (WorkItem T)
  | .locking w | .borrowing w | .inserting w _ | .handing w _ | .stalled w => some w
  | .idle | .acquiring _ | .waiting _ | .settling _ => none

/-- The token the dispatcher still holds: it passes to a worker that is put into the map. -/
def DispatcherPc.token : DispatcherPc T → Option Token
  | .locking w | .borrowing w | .inserting w _ | .stalled w => some (Pipeline.token w)
  | .settling t => some t
  | .idle | .acquiring _ | .waiting _ | .handing _ _ => none

/-- `DrainWorkers`: the shard it is at and the snapshot of workers still to wait for. -/
inductive DrainerPc where
  | idle
  | scanning (shard : Nat)
  | checking (shard : Nat) (workers : List Nat)
  | parked (shard : Nat) (workers : List Nat)
  | returned
  deriving DecidableEq, Repr

/-- `drained.Broadcast` of a worker wakes the drainers that wait for it. -/
def DrainerPc.wake (worker : Nat) : DrainerPc → DrainerPc
  | .parked i (w :: ws) => if w = worker then .checking i (w :: ws) else .parked i (w :: ws)
  | d => d

/-- What happened so far. -/
structure Log (T : Type) where
  dispatched : List Ident := []
  invoked : List Ident := []
  outcomes : List (Ident × Bool) := []
  collected : List (WorkItem T) := []
  skipped : List Ident := []
  failed : List Ident := []

def Log.record (l : Log T) : Event T → Log T
  | .silent => l
  | .skipped w => { l with skipped := l.skipped ++ [ident w] }
  | .invoked w => { l with invoked := l.invoked ++ [ident w] }
  | .finished w ok => { l with outcomes := l.outcomes ++ [(ident w, ok)] }
  | .triggered w => { l with failed := l.failed ++ [ident w] }
  | .collected w => { l with collected := l.collected ++ [w] }

/-- `guard` and `overflow` count the tokens this consumer has acquired and not released,
`others` the overflow tokens of the other consumers. -/
@[ext] structure Demux (T : Type) where
  workers : Nat → Worker T
  created : Nat := 0
  shards : Nat → Shard := fun _ => {}
  tripped : Bool := false
  guard : Int := 0
  overflow : Int := 0
  others : Int := 0
  dispatcher : DispatcherPc T := .idle
  drainers : Nat → DrainerPc := fun _ => .idle
  log : Log T := {}

namespace Demux

variable (s : Demux T)

def setWorker (id : Nat) (w : Worker T) : Demux T :=
  { s with workers := Function.update s.workers id w }

def setShard (i : Nat) (sh : Shard) : Demux T :=
  { s with shards := Function.update s.shards i sh }

/-- Write or, with `none`, delete an entry of a shard's map. -/
def setEntry (i : Nat) (k : String) (id : Option Nat) : Demux T :=
  s.setShard i { s.shards i with workers := Function.update (s.shards i).workers k id }

def setPool (i : Nat) (ids : List Nat) : Demux T :=
  s.setShard i { s.shards i with workerPool := ids }

def setDone (i : Nat) : Demux T := s.setShard i { s.shards i with done := true }

def setPruner (i : Nat) (pc : PrunerPc) : Demux T := s.setShard i { s.shards i with pruner := pc }

def setWarmup (i : Nat) (pc : WarmupPc) : Demux T := s.setShard i { s.shards i with warmup := pc }

def setDrainer (d : Nat) (pc : DrainerPc) : Demux T :=
  { s with drainers := Function.update s.drainers d pc }

def record (e : Event T) : Demux T :=
  { s with
    log := s.log.record e
    tripped := match e with
      | .triggered _ => true
      | _ => s.tripped }

/-- A send to a token channel of this consumer. -/
def acquire (t : Token) : Demux T :=
  match t with
  | .guard => { s with guard := s.guard + 1 }
  | .overflow => { s with overflow := s.overflow + 1 }

/-- A receive from it. -/
def release (t : Token) : Demux T :=
  match t with
  | .guard => { s with guard := s.guard - 1 }
  | .overflow => { s with overflow := s.overflow - 1 }

/-- The channel has room for another token. -/
def Room (cfg : Config) : Token → Prop
  | .guard => s.guard < cfg.guardCap
  | .overflow => s.overflow + s.others < cfg.overflowCap

/-- The channel holds a token. -/
def Filled : Token → Prop
  | .guard => 0 < s.guard
  | .overflow => 0 < s.overflow + s.others

/-- `BorrowWorker`: a pooled worker, or a new one that starts cold. -/
def borrowWorker (i : Nat) (holder : Holder) : Nat × Demux T :=
  match (s.shards i).workerPool with
  | id :: rest =>
    (id, (s.setPool i rest).setWorker id { s.workers id with place := .held holder })
  | [] =>
    (s.created, { s.setWorker s.created { shard := i, place := .held holder } with
      created := s.created + 1 })

/-- `ReturnWorker`: into the pool, or shut down when the pool is full. -/
def returnWorker (cfg : Config) (i id : Nat) : Demux T :=
  if (s.shards i).workerPool.length < cfg.workerPoolSize then
    (s.setPool i ((s.shards i).workerPool ++ [id])).setWorker id
      { s.workers id with place := .pooled }
  else s.setWorker id { s.workers id with place := .stopped, shutdown := true }

/-- The dispatcher is inside the critical section in which it borrows a worker. -/
def Locked (cfg : Config) (i : Nat) : Prop :=
  match s.dispatcher with
  | .borrowing w | .inserting w _ => cfg.shardOf w.message.key = i
  | _ => False

/-- `NewDemux` has returned. -/
def Ready (cfg : Config) : Prop := ∀ i < cfg.workerShardsCount, (s.shards i).warmup = .ready

/-- `SendToWorkerForProcessing` up to its first lock. -/
def send (cfg : Config) (w : WorkItem T) : Demux T :=
  { s with
    dispatcher := .locking { w with workerPool := cfg.shardOf w.message.key }
    log := { s.log with dispatched := s.log.dispatched ++ [ident w] } }

/-- The item with `QueueDepth` as the dispatcher sees it under the mutex. -/
def measured (id : Nat) (w : WorkItem T) : WorkItem T :=
  { w with metrics.queueDepth := (s.workers id).workItems.length }

/-- A pipelined item enters the channel of its key's worker. -/
def pipeline (id : Nat) (w : WorkItem T) : Demux T :=
  { s.setWorker id { s.workers id with
      workItems := (s.workers id).workItems ++ [s.measured id w] } with
    dispatcher := .settling (token w) }

/-- The dispatcher finds its shard's breaker tripped and gives up a stalled item. -/
def stallExit (w : WorkItem T) : Demux T :=
  { s.record (.skipped w) with dispatcher := .settling (token w) }

/-- The borrowed worker is activated and put into the map. -/
def insert (cfg : Config) (w : WorkItem T) (id : Nat) : Demux T :=
  { (s.setEntry (cfg.shardOf w.message.key) w.message.key (some id)).setWorker id
      { s.workers id with
        isActive := true
        place := .serving w.message.key
        activatedBy := some (token w) } with
    dispatcher := .handing w id }

/-- The first item enters the channel of a worker just put into the map. -/
def hand (w : WorkItem T) (id : Nat) : Demux T :=
  { s.setWorker id { s.workers id with workItems := (s.workers id).workItems ++ [w] } with
    dispatcher := .idle }

/-- An idle worker removes its cached key from the map and wakes its drainers. -/
def retire (id : Nat) : Demux T :=
  { (s.setEntry (s.workers id).shard (s.workers id).partitionKey none).setWorker id
      { s.workers id with isActive := false, place := .retiring, pc := .releasing } with
    drainers := fun d => (s.drainers d).wake id }

/-- It gives back the token of the first item it served. -/
def releaseWorker (id : Nat) : Demux T :=
  (s.setWorker id { s.workers id with
    pc := .returning, partitionKey := "", activatedBy := none }).release
      (.ofOverflow (s.workers id).usedOverflow)

def giveBack (cfg : Config) (id : Nat) : Demux T :=
  (s.setWorker id { s.workers id with pc := .cold }).returnWorker cfg (s.workers id).shard id

section Fields
variable {s}

@[simp] theorem setWorker_same (id : Nat) (w : Worker T) : (s.setWorker id w).workers id = w :=
  Function.update_self ..

theorem setWorker_other {id j : Nat} (w : Worker T) (h : j ≠ id) :
    (s.setWorker id w).workers j = s.workers j := Function.update_of_ne h ..

@[simp] theorem setWorker_shards (id : Nat) (w : Worker T) :
    (s.setWorker id w).shards = s.shards := rfl

@[simp] theorem setWorker_created (id : Nat) (w : Worker T) :
    (s.setWorker id w).created = s.created := rfl

theorem setShard_same (i : Nat) (sh : Shard) : (s.setShard i sh).shards i = sh :=
  Function.update_self ..

theorem setShard_other {i j : Nat} (sh : Shard) (h : j ≠ i) :
    (s.setShard i sh).shards j = s.shards j := Function.update_of_ne h ..

variable (i j : Nat)

theorem setEntry_shards (k : String) (id : Option Nat) :
    (s.setEntry i k id).shards j = { s.shards j with
      workers := if j = i then Function.update (s.shards j).workers k id
        else (s.shards j).workers } := by
  by_cases hj : j = i
  · subst hj
    rw [setEntry, setShard_same, if_pos rfl]
  · rw [setEntry, setShard_other _ hj, if_neg hj]

theorem setEntry_entry (k k' : String) (id : Option Nat) :
    ((s.setEntry i k id).shards j).workers k' =
      if j = i ∧ k' = k then id else (s.shards j).workers k' := by
  rw [setEntry_shards]
  by_cases hj : j = i
  · by_cases hk : k' = k
    · simp [hj, hk]
    · simp [hj, hk]
  · simp [hj]

theorem setPool_shards (ids : List Nat) :
    (s.setPool i ids).shards j =
      { s.shards j with workerPool := if j = i then ids else (s.shards j).workerPool } := by
  by_cases hj : j = i
  · subst hj
    rw [setPool, setShard_same, if_pos rfl]
  · rw [setPool, setShard_other _ hj, if_neg hj]

theorem setDone_shards :
    (s.setDone i).shards j = { s.shards j with done := (s.shards j).done || decide (j = i) } := by
  by_cases hj : j = i
  · subst hj
    rw [setDone, setShard_same, decide_eq_true rfl, Bool.or_true]
  · rw [setDone, setShard_other _ hj, decide_eq_false hj, Bool.or_false]

theorem setPruner_shards (pc : PrunerPc) :
    (s.setPruner i pc).shards j =
      { s.shards j with pruner := if j = i then pc else (s.shards j).pruner } := by
  by_cases hj : j = i
  · subst hj
    rw [setPruner, setShard_same, if_pos rfl]
  · rw [setPruner, setShard_other _ hj, if_neg hj]

theorem setWarmup_shards (pc : WarmupPc) :
    (s.setWarmup i pc).shards j =
      { s.shards j with warmup := if j = i then pc else (s.shards j).warmup } := by
  by_cases hj : j = i
  · subst hj
    rw [setWarmup, setShard_same, if_pos rfl]
  · rw [setWarmup, setShard_other _ hj, if_neg hj]

end Fields

/-- Only the token channels differ. -/
structure TokensOnly (s s' : Demux T) : Prop where
  workers : s'.workers = s.workers
  created : s'.created = s.created
  shards : s'.shards = s.shards
  tripped : s'.tripped = s.tripped
  dispatcher : s'.dispatcher = s.dispatcher
  drainers : s'.drainers = s.drainers
  log : s'.log = s.log

/-- Only the workers and the shards differ. -/
structure PoolsOnly (s s' : Demux T) : Prop where
  tripped : s'.tripped = s.tripped
  guard : s'.guard = s.guard
  overflow : s'.overflow = s.overflow
  dispatcher : s'.dispatcher = s.dispatcher
  drainers : s'.drainers = s.drainers
  log : s'.log = s.log

/-- Only the map of a shard differs. -/
structure MapOnly (a b : Shard) : Prop where
  workerPool : b.workerPool = a.workerPool
  done : b.done = a.done
  pruner : b.pruner = a.pruner
  warmup : b.warmup = a.warmup

section Frames
variable {s}

theorem setEntry_mapOnly (i j : Nat) (k : String) (id : Option Nat) :
    MapOnly (s.shards j) ((s.setEntry i k id).shards j) := by
  rw [setEntry_shards]
  exact ⟨rfl, rfl, rfl, rfl⟩

theorem insert_mapOnly (cfg : Config) (w : WorkItem T) (id j : Nat) :
    MapOnly (s.shards j) ((s.insert cfg w id).shards j) := setEntry_mapOnly ..

theorem retire_mapOnly (id j : Nat) : MapOnly (s.shards j) ((s.retire id).shards j) :=
  setEntry_mapOnly ..

theorem insert_entry (cfg : Config) (w : WorkItem T) (id j : Nat) (k : String) :
    ((s.insert cfg w id).shards j).workers k =
      if j = cfg.shardOf w.message.key ∧ k = w.message.key then some id
      else (s.shards j).workers k := setEntry_entry ..

theorem retire_entry (id j : Nat) (k : String) :
    ((s.retire id).shards j).workers k =
      if j = (s.workers id).shard ∧ k = (s.workers id).partitionKey then none
      else (s.shards j).workers k := setEntry_entry ..

theorem insert_worker (cfg : Config) (w : WorkItem T) (id : Nat) :
    (s.insert cfg w id).workers id = { s.workers id with
      isActive := true, place := .serving w.message.key, activatedBy := some (token w) } :=
  setWorker_same ..

theorem retire_worker (id : Nat) : (s.retire id).workers id = { s.workers id with
    isActive := false, place := .retiring, pc := .releasing } := setWorker_same ..

theorem pipeline_worker (id : Nat) (w : WorkItem T) : (s.pipeline id w).workers id =
    { s.workers id with workItems := (s.workers id).workItems ++ [s.measured id w] } :=
  setWorker_same ..

theorem hand_worker (w : WorkItem T) (id : Nat) : (s.hand w id).workers id =
    { s.workers id with workItems := (s.workers id).workItems ++ [w] } := setWorker_same ..

theorem acquire_tokensOnly (t : Token) : s.TokensOnly (s.acquire t) := by
  cases t <;> exact ⟨rfl, rfl, rfl, rfl, rfl, rfl, rfl⟩

theorem release_tokensOnly (t : Token) : s.TokensOnly (s.release t) := by
  cases t <;> exact ⟨rfl, rfl, rfl, rfl, rfl, rfl, rfl⟩

theorem borrowWorker_poolsOnly (i : Nat) (holder : Holder) :
    s.PoolsOnly (s.borrowWorker i holder).2 := by
  unfold borrowWorker
  split <;> exact ⟨rfl, rfl, rfl, rfl, rfl, rfl⟩

theorem returnWorker_poolsOnly (cfg : Config) (i id : Nat) :
    s.PoolsOnly (s.returnWorker cfg i id) := by
  unfold returnWorker
  split <;> exact ⟨rfl, rfl, rfl, rfl, rfl, rfl⟩

theorem giveBack_poolsOnly (cfg : Config) (id : Nat) : s.PoolsOnly (s.giveBack cfg id) := by
  obtain ⟨h1, h2, h3, h4, h5, h6⟩ := returnWorker_poolsOnly
    (s := s.setWorker id { s.workers id with pc := .cold }) cfg (s.workers id).shard id
  exact ⟨h1, h2, h3, h4, h5, h6⟩

end Frames

end Demux

end LlingrDemux.Pipeline
