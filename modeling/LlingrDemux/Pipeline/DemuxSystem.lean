import LlingrDemux.Pipeline.Demux

/-!
# The demultiplexer's step system

One constructor for each atomic action of a goroutine. Items come from `Process`, which
acquires a token before each send, or from a direct caller of `SendToWorkerForProcessing`,
which may send any item at any time and puts tokens into the channels as it likes.
-/

namespace LlingrDemux.Pipeline

open Shared
set_option autoImplicit false

variable {T : Type}

inductive Caller where
  | process
  | direct
  deriving DecidableEq, Repr

namespace Demux

/-- The test of `pruneIdleWorkers` on a tick. -/
def prunes (cfg : Config) (poolSize : Nat) (prevLen : Option Nat) : Bool :=
  decide (cfg.minIdleWorkers < poolSize) &&
    match prevLen with
    | none => true
    | some n => decide (poolSize ≤ n)

/-- What `DrainWorkers` copies of a shard's map, in any order; an empty copy is its
`continue`. -/
def Snapshot (s : Demux T) (i : Nat) (ids : List Nat) : Prop :=
  ids.Nodup ∧ ∀ id, id ∈ ids ↔ ∃ k, (s.shards i).workers k = some id

/-- The steps of the polling goroutine, up to the return of a send. -/
inductive DispatchStep (cfg : Config) (c : Caller) : Demux T → Demux T → Prop where
  | poll (s : Demux T) (w : WorkItem T) (caller : c = .process) (ready : s.Ready cfg)
      (pc : s.dispatcher = .idle) (clean : w.metrics.traits.usedOverflow = false) :
      DispatchStep cfg c s { s with dispatcher := .acquiring w }
  | takeGuard (s : Demux T) (w : WorkItem T) (pc : s.dispatcher = .acquiring w)
      (room : s.Room cfg .guard) : DispatchStep cfg c s ((s.acquire .guard).send cfg w)
  | guardFull (s : Demux T) (w : WorkItem T) (pc : s.dispatcher = .acquiring w)
      (full : ¬ s.Room cfg .guard) : DispatchStep cfg c s { s with dispatcher := .waiting w }
  | takeGuardLate (s : Demux T) (w : WorkItem T) (pc : s.dispatcher = .waiting w)
      (room : s.Room cfg .guard) : DispatchStep cfg c s ((s.acquire .guard).send cfg w)
  | takeOverflow (s : Demux T) (w : WorkItem T) (pc : s.dispatcher = .waiting w)
      (room : s.Room cfg .overflow) :
      DispatchStep cfg c s
        ((s.acquire .overflow).send cfg { w with metrics.traits.usedOverflow := true })
  | acquireTimeout (s : Demux T) (w : WorkItem T) (pc : s.dispatcher = .waiting w) :
      DispatchStep cfg c s { s with dispatcher := .idle }
  | call (s : Demux T) (w : WorkItem T) (caller : c = .direct) (ready : s.Ready cfg)
      (pc : s.dispatcher = .idle) : DispatchStep cfg c s (s.send cfg w)
  | deposit (s : Demux T) (t : Token) (caller : c = .direct) (room : s.Room cfg t) :
      DispatchStep cfg c s (s.acquire t)
  | pipeline (s : Demux T) (w : WorkItem T) (id : Nat) (pc : s.dispatcher = .locking w)
      (found : (s.shards (cfg.shardOf w.message.key)).workers w.message.key = some id)
      (room : (s.workers id).workItems.length < cfg.perKeyBufferLen) :
      DispatchStep cfg c s (s.pipeline id w)
  | stall (s : Demux T) (w : WorkItem T) (id : Nat) (pc : s.dispatcher = .locking w)
      (found : (s.shards (cfg.shardOf w.message.key)).workers w.message.key = some id)
      (full : cfg.perKeyBufferLen ≤ (s.workers id).workItems.length) :
      DispatchStep cfg c s { s with dispatcher := .stalled (s.measured id w) }
  | stallExit (s : Demux T) (w : WorkItem T) (pc : s.dispatcher = .stalled w)
      (done : (s.shards (cfg.shardOf w.message.key)).done = true) :
      DispatchStep cfg c s (s.stallExit w)
  | stallRetry (s : Demux T) (w : WorkItem T) (timeout : Bool) (pc : s.dispatcher = .stalled w)
      (live : (s.shards (cfg.shardOf w.message.key)).done = false) :
      DispatchStep cfg c s { s with dispatcher := .locking w, tripped := s.tripped || timeout }
  | missing (s : Demux T) (w : WorkItem T) (pc : s.dispatcher = .locking w)
      (absent : (s.shards (cfg.shardOf w.message.key)).workers w.message.key = none) :
      DispatchStep cfg c s { s with dispatcher := .borrowing w }
  | borrow (s : Demux T) (w : WorkItem T) (pc : s.dispatcher = .borrowing w) :
      DispatchStep cfg c s
        { (s.borrowWorker (cfg.shardOf w.message.key) .dispatcher).2 with
          dispatcher := .inserting w
            (s.borrowWorker (cfg.shardOf w.message.key) .dispatcher).1 }
  | insert (s : Demux T) (w : WorkItem T) (id : Nat) (pc : s.dispatcher = .inserting w id) :
      DispatchStep cfg c s (s.insert cfg w id)
  | hand (s : Demux T) (w : WorkItem T) (id : Nat) (pc : s.dispatcher = .handing w id)
      (room : (s.workers id).workItems.length < cfg.perKeyBufferLen) :
      DispatchStep cfg c s (s.hand w id)
  | settle (s : Demux T) (t : Token) (pc : s.dispatcher = .settling t) (filled : s.Filled t) :
      DispatchStep cfg c s { s.release t with dispatcher := .idle }

/-- The steps of the workers' goroutines. -/
inductive WorkStep (cfg : Config) : Demux T → Demux T → Prop where
  | work (s : Demux T) (id : Nat) (e : Event T) (w : Worker T) (made : id < s.created)
      (step : WorkerStep (s.shards (s.workers id).shard).done (s.workers id) e w) :
      WorkStep cfg s ((s.setWorker id w).record e)
  | resume (s : Demux T) (id : Nat) (made : id < s.created) (pc : (s.workers id).pc = .emptied)
      (arrived : (s.workers id).workItems ≠ []) (free : ¬ s.Locked cfg (s.workers id).shard) :
      WorkStep cfg s (s.setWorker id { s.workers id with pc := .hot })
  | retire (s : Demux T) (id : Nat) (made : id < s.created) (pc : (s.workers id).pc = .emptied)
      (empty : (s.workers id).workItems = []) (free : ¬ s.Locked cfg (s.workers id).shard) :
      WorkStep cfg s (s.retire id)
  | release (s : Demux T) (id : Nat) (made : id < s.created)
      (pc : (s.workers id).pc = .releasing)
      (filled : s.Filled (.ofOverflow (s.workers id).usedOverflow)) :
      WorkStep cfg s (s.releaseWorker id)
  | giveBack (s : Demux T) (id : Nat) (made : id < s.created)
      (pc : (s.workers id).pc = .returning) : WorkStep cfg s (s.giveBack cfg id)

/-- The steps of the pools: the pruner of each shard and the warm-up in `NewWorkerShard`. -/
inductive PoolStep (cfg : Config) : Demux T → Demux T → Prop where
  | tick (s : Demux T) (i : Nat) (prevLen : Option Nat)
      (pc : (s.shards i).pruner = .waiting prevLen) :
      PoolStep cfg s (s.setPruner i
        (if prunes cfg (s.shards i).workerPool.length prevLen
          then .taking (s.shards i).workerPool.length
          else .waiting (some (s.shards i).workerPool.length)))
  | take (s : Demux T) (i n id : Nat) (rest : List Nat) (pc : (s.shards i).pruner = .taking n)
      (pool : (s.shards i).workerPool = id :: rest) :
      PoolStep cfg s
        (((s.setPool i rest).setWorker id
          { s.workers id with place := .held (.pruner i) }).setPruner i (.closing id n))
  | miss (s : Demux T) (i n : Nat) (pc : (s.shards i).pruner = .taking n)
      (pool : (s.shards i).workerPool = []) :
      PoolStep cfg s (s.setPruner i (.waiting (some n)))
  | close (s : Demux T) (i n id : Nat) (pc : (s.shards i).pruner = .closing id n) :
      PoolStep cfg s
        ((s.setPruner i (.waiting (some n))).setWorker id
          { s.workers id with place := .stopped, shutdown := true })
  | warm (s : Demux T) (i : Nat) (warmed : List Nat) (pc : (s.shards i).warmup = .filling warmed)
      (more : warmed.length < cfg.minIdleWorkers) :
      PoolStep cfg s
        ((s.borrowWorker i (.warmup i)).2.setWarmup i
          (.filling (warmed ++ [(s.borrowWorker i (.warmup i)).1])))
  | turn (s : Demux T) (i : Nat) (warmed : List Nat) (pc : (s.shards i).warmup = .filling warmed)
      (enough : warmed.length = cfg.minIdleWorkers) :
      PoolStep cfg s (s.setWarmup i (.returning warmed))
  | return_ (s : Demux T) (i id : Nat) (warmed : List Nat)
      (pc : (s.shards i).warmup = .returning (id :: warmed)) :
      PoolStep cfg s ((s.setWarmup i (.returning warmed)).returnWorker cfg i id)
  | ready (s : Demux T) (i : Nat) (pc : (s.shards i).warmup = .returning []) :
      PoolStep cfg s (s.setWarmup i .ready)

theorem PoolStep.poolsOnly {cfg : Config} {s s' : Demux T} (step : PoolStep cfg s s') :
    s.PoolsOnly s' := by
  cases step with
  | tick | take | miss | close | turn | ready => exact ⟨rfl, rfl, rfl, rfl, rfl, rfl⟩
  | warm i warmed pc more =>
    obtain ⟨h1, h2, h3, h4, h5, h6⟩ := borrowWorker_poolsOnly (s := s) i (.warmup i)
    exact ⟨h1, h2, h3, h4, h5, h6⟩
  | return_ i id warmed pc =>
    obtain ⟨h1, h2, h3, h4, h5, h6⟩ := returnWorker_poolsOnly
      (s := s.setWarmup i (.returning warmed)) cfg i id
    exact ⟨h1, h2, h3, h4, h5, h6⟩

/-- A trip of the breaker from anywhere, its becoming visible to a shard, and the overflow
tokens of the other consumers. -/
inductive EnvStep (cfg : Config) : Demux T → Demux T → Prop where
  | trip (s : Demux T) : EnvStep cfg s { s with tripped := true }
  | observe (s : Demux T) (i : Nat) (tripped : s.tripped = true) :
      EnvStep cfg s (s.setDone i)
  | others (s : Demux T) (n : Int) (nonneg : 0 ≤ n) (room : s.overflow + n ≤ cfg.overflowCap) :
      EnvStep cfg s { s with others := n }

/-- The steps of a `DrainWorkers` call. -/
inductive DrainStep (cfg : Config) : Demux T → Demux T → Prop where
  | start (s : Demux T) (d : Nat) (ready : s.Ready cfg) (pc : s.drainers d = .idle) :
      DrainStep cfg s (s.setDrainer d (.scanning 0))
  | scan (s : Demux T) (d i : Nat) (ids : List Nat) (pc : s.drainers d = .scanning i)
      (more : i < cfg.workerShardsCount) (free : ¬ s.Locked cfg i) (look : s.Snapshot i ids) :
      DrainStep cfg s (s.setDrainer d (.checking i ids))
  | pass (s : Demux T) (d i id : Nat) (ids : List Nat)
      (pc : s.drainers d = .checking i (id :: ids)) (free : ¬ s.Locked cfg i)
      (drained : (s.workers id).isActive = false) :
      DrainStep cfg s (s.setDrainer d (.checking i ids))
  | park (s : Demux T) (d i id : Nat) (ids : List Nat)
      (pc : s.drainers d = .checking i (id :: ids)) (free : ¬ s.Locked cfg i)
      (active : (s.workers id).isActive = true) :
      DrainStep cfg s (s.setDrainer d (.parked i (id :: ids)))
  | next (s : Demux T) (d i : Nat) (pc : s.drainers d = .checking i []) :
      DrainStep cfg s (s.setDrainer d (.scanning (i + 1)))
  | return_ (s : Demux T) (d i : Nat) (pc : s.drainers d = .scanning i)
      (last : i = cfg.workerShardsCount) : DrainStep cfg s (s.setDrainer d .returned)

inductive Step (cfg : Config) (c : Caller) (s s' : Demux T) : Prop where
  | dispatch (step : DispatchStep cfg c s s')
  | work (step : WorkStep cfg s s')
  | pool (step : PoolStep cfg s s')
  | env (step : EnvStep cfg s s')
  | drain (step : DrainStep cfg s s')

/-- Nothing created yet. -/
def initial : Demux T := { workers := fun _ => { shard := 0, place := .stopped } }

end Demux

def demuxSystem (T : Type) (cfg : Config) (c : Caller) : System (Demux T) where
  init s := s = Demux.initial
  step := Demux.Step cfg c

/-- One shard without warm workers, channels of one item and two tokens. -/
def Config.small : Config where
  workerShardsCount := 1
  perKeyBufferLen := 1
  guardCap := 2
  overflowCap := 0
  minIdleWorkers := 0
  shards_pos := by decide
  buffer_pos := by decide

/-- An item of key `a` at offset `n`. -/
def itemA (n : Nat) : WorkItem Unit :=
  { ptr := n, message := { partition := 0, offset := n, key := "a" } }

namespace Demux

theorem ready_small {s : Demux Unit} (h : (s.shards 0).warmup = .ready) : s.Ready .small := by
  intro i hi
  rw [show i = 0 from Nat.lt_one_iff.mp hi]
  exact h

/-- The first polled item has activated a worker, which has received it. -/
def receivedA : Demux Unit where
  workers := Function.update (fun _ => { shard := 0, place := .stopped }) 0
    { shard := 0, partitionKey := "a", pc := .received (itemA 0), isActive := true,
      place := .serving "a", activatedBy := some .guard }
  created := 1
  shards := Function.update (fun _ => {}) 0
    { workers := Function.update (fun _ => none) "a" (some 0), warmup := .ready }
  guard := 1
  log := { dispatched := [ident (itemA 0)] }

theorem receivedA_reachable : (demuxSystem Unit .small .process).Reachable receivedA := by
  have h0 : (demuxSystem Unit .small .process).Reachable Demux.initial := .init rfl
  have hturn := h0.step (.pool (.turn _ 0 [] rfl rfl))
  have hready := hturn.step (.pool (.ready _ 0 rfl))
  have hpoll := hready.step (.dispatch (.poll _ (itemA 0) rfl (ready_small rfl) rfl rfl))
  have hguard := hpoll.step (.dispatch (.takeGuard _ _ rfl (show (0 : Int) < 2 by decide)))
  have hmissing := hguard.step (.dispatch (.missing _ _ rfl rfl))
  have hborrow := hmissing.step (.dispatch (.borrow _ _ rfl))
  have hinsert := hborrow.step (.dispatch (.insert _ _ _ rfl))
  have hhand := hinsert.step (.dispatch (.hand _ _ _ rfl (by decide)))
  have hreceive := hhand.step (.work (.work _ 0 _ _ (by decide) (.receive _ _ _ rfl rfl)))
  have hcast : ∀ {s s' : Demux Unit}, (demuxSystem Unit .small .process).Reachable s → s = s' →
      (demuxSystem Unit .small .process).Reachable s' := fun h he => he ▸ h
  apply hcast hreceive
  apply Demux.ext
  case workers =>
    funext j
    cases j <;> rfl
  case shards =>
    funext j
    cases j <;> rfl
  all_goals rfl

end Demux

end LlingrDemux.Pipeline
