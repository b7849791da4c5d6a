import LlingrDemux.Pipeline.Placed
import LlingrDemux.Shared.Lane

/-!
# The demultiplexer refines one lane per key

What happens to the items of one key, seen alone, is a run of the one-server queue: the
dispatcher's item is the offer, the channel of the worker in the key's map entry is the
queue, and that worker is the server.
-/

namespace LlingrDemux.Pipeline

open Shared
set_option autoImplicit false

variable {T : Type} {cfg : Config} {c : Caller} {s s' : Demux T} {k : String}

def WorkerPc.stage : WorkerPc T → Stage Ident
  | .received w => .taken (ident w)
  | .cleared w => .accepted (ident w)
  | .processing w | .deadLettering w => .running (ident w)
  | .triggering w => .ending (ident w) false
  | .committing w => .ending (ident w) true
  | .cold | .hot | .emptied | .releasing | .returning | .exited => .idle

def onKey (k : String) (l : List Ident) : List Ident := l.filter fun a => a.key = k

theorem onKey_append (l l' : List Ident) : onKey k (l ++ l') = onKey k l ++ onKey k l' :=
  List.filter_append ..

theorem onKey_snoc_same (l : List Ident) {a : Ident} (key : a.key = k) :
    onKey k (l ++ [a]) = onKey k l ++ [a] := by
  simp [onKey, key]

theorem onKey_snoc_other (l : List Ident) {a : Ident} (key : a.key ≠ k) :
    onKey k (l ++ [a]) = onKey k l := by
  simp [onKey, key]

namespace Demux

/-- The channel and the stage of the worker in the map under `k`. -/
def serving (cfg : Config) (s : Demux T) (k : String) : List Ident × Stage Ident :=
  match (s.shards (cfg.shardOf k)).workers k with
  | some id => ((s.workers id).workItems.map ident, (s.workers id).pc.stage)
  | none => ([], .idle)

def lane (cfg : Config) (s : Demux T) (k : String) : Lane Ident where
  arrived := onKey k s.log.dispatched
  offered := (s.dispatcher.sending.map ident).filter fun a => a.key = k
  queue := (s.serving cfg k).1
  stage := (s.serving cfg k).2
  closed := (s.shards (cfg.shardOf k)).done
  started := onKey k s.log.invoked
  finished := s.log.outcomes.filter fun p => p.1.key = k
  delivered := onKey k (s.log.collected.map ident)
  dropped := onKey k s.log.skipped
  failed := onKey k s.log.failed

theorem serving_some {id : Nat} (entry : (s.shards (cfg.shardOf k)).workers k = some id) :
    s.serving cfg k = ((s.workers id).workItems.map ident, (s.workers id).pc.stage) := by
  rw [serving, entry]

theorem serving_none (entry : (s.shards (cfg.shardOf k)).workers k = none) :
    s.serving cfg k = ([], .idle) := by
  rw [serving, entry]

theorem lane_eq (log : s'.log = s.log)
    (sending : s'.dispatcher.sending.map ident = s.dispatcher.sending.map ident)
    (serving : s'.serving cfg k = s.serving cfg k)
    (done : (s'.shards (cfg.shardOf k)).done = (s.shards (cfg.shardOf k)).done) :
    s'.lane cfg k = s.lane cfg k := by
  simp only [lane, log, sending, serving, done]

/-- The step leaves the log, the maps and the workers in them alone. -/
structure Keeps (s s' : Demux T) : Prop where
  log : s'.log = s.log
  maps : ∀ i, (s'.shards i).workers = (s.shards i).workers
  done : ∀ i, (s'.shards i).done = (s.shards i).done
  serving : ∀ id < s.created, ∀ k, (s.workers id).place = .serving k → s'.workers id = s.workers id

namespace Keeps

theorem serving_eq (h : Keeps s s') (layout : Layout cfg s) (k : String) :
    s'.serving cfg k = s.serving cfg k := by
  cases hentry : (s.shards (cfg.shardOf k)).workers k with
  | none => rw [serving_none hentry, serving_none (by rw [h.maps, hentry])]
  | some id =>
    have hat := (layout.mapped _ _ _).mp hentry
    rw [serving_some hentry, serving_some (by rw [h.maps, hentry]),
      h.serving id hat.made k hat.place]

theorem lane_eq (h : Keeps s s') (layout : Layout cfg s)
    (sending : s'.dispatcher.sending.map ident = s.dispatcher.sending.map ident) (k : String) :
    s'.lane cfg k = s.lane cfg k :=
  Demux.lane_eq h.log sending (h.serving_eq layout k) (h.done _)

/-- One worker outside the maps is moved, with the lists that have it. -/
theorem of_outside (id : Nat) (out : id < s.created → ∀ k, (s.workers id).place ≠ .serving k)
    (log : s'.log = s.log) (maps : ∀ i, (s'.shards i).workers = (s.shards i).workers)
    (done : ∀ i, (s'.shards i).done = (s.shards i).done)
    (others : ∀ j, j ≠ id → s'.workers j = s.workers j) : Keeps s s' where
  log := log
  maps := maps
  done := done
  serving j hj k hk := by
    apply others
    intro he
    subst he
    exact out hj k hk

theorem of_workers (workers : s'.workers = s.workers) (log : s'.log = s.log)
    (maps : ∀ i, (s'.shards i).workers = (s.shards i).workers)
    (done : ∀ i, (s'.shards i).done = (s.shards i).done) : Keeps s s' where
  log := log
  maps := maps
  done := done
  serving j _ _ _ := by rw [workers]

theorem of_tokensOnly (same : s.TokensOnly s') : Keeps s s' := by
  refine of_workers same.workers same.log ?_ ?_
  all_goals
    intro j
    rw [same.shards]

theorem borrowWorker (layout : Layout cfg s) (i : Nat) (holder : Holder) :
    Keeps s (s.borrowWorker i holder).2 := by
  unfold Demux.borrowWorker
  cases hpool : (s.shards i).workerPool with
  | nil =>
    exact of_outside s.created (fun hid => absurd hid (Nat.lt_irrefl _)) rfl (fun _ => rfl) (fun _ => rfl)
      (fun j hj => setWorker_other _ hj)
  | cons id rest =>
    have hat := layout.pool i id (hpool ▸ List.mem_cons_self)
    refine of_outside id (fun _ k hk => nomatch hat.place.symm.trans hk) rfl ?_ ?_
      (fun j hj => setWorker_other _ hj)
    all_goals
      intro j
      rw [setWorker_shards, setPool_shards]

theorem returnWorker {i id : Nat} (out : ∀ k, (s.workers id).place ≠ .serving k) :
    Keeps s (s.returnWorker cfg i id) := by
  unfold Demux.returnWorker
  split
  · refine of_outside id (fun _ => out) rfl ?_ ?_ (fun j hj => setWorker_other _ hj)
    all_goals
      intro j
      rw [setWorker_shards, setPool_shards]
  · exact of_outside id (fun _ => out) rfl (fun _ => rfl) (fun _ => rfl)
      (fun j hj => setWorker_other _ hj)

theorem setPruner (i : Nat) (pc : PrunerPc) : Keeps s (s.setPruner i pc) := by
  refine of_workers rfl rfl ?_ ?_
  all_goals
    intro j
    rw [setPruner_shards]

theorem setWarmup (i : Nat) (pc : WarmupPc) : Keeps s (s.setWarmup i pc) := by
  refine of_workers rfl rfl ?_ ?_
  all_goals
    intro j
    rw [setWarmup_shards]

theorem trans {s'' : Demux T} (h : Keeps s s') (h' : Keeps s' s'') (created : s.created ≤ s'.created) :
    Keeps s s'' where
  log := h'.log.trans h.log
  maps i := (h'.maps i).trans (h.maps i)
  done i := (h'.done i).trans (h.done i)
  serving id hid k hk := by
    have hsame := h.serving id hid k hk
    exact (h'.serving id (Nat.lt_of_lt_of_le hid created) k (hsame ▸ hk)).trans hsame

end Keeps

theorem borrowWorker_created (i : Nat) (holder : Holder) :
    s.created ≤ (s.borrowWorker i holder).2.created := by
  unfold Demux.borrowWorker
  split
  · exact Nat.le_refl _
  · exact Nat.le_succ _

theorem PoolStep.keeps (layout : Layout cfg s) (step : s.PoolStep cfg s') : Keeps s s' := by
  cases step with
  | tick i prevLen pc => exact .setPruner i _
  | miss i n pc pool => exact .setPruner i _
  | take i n id rest pc pool =>
    have htaken := Keeps.borrowWorker layout i (.pruner i)
    rw [Demux.borrowWorker, pool] at htaken
    exact htaken.trans (.setPruner i _) (Nat.le_refl _)
  | close i n id pc =>
    have hat := layout.pruner i id n pc
    have hset : Keeps s (s.setPruner i (.waiting (some n))) := .setPruner i _
    refine hset.trans (.of_outside id ?_ rfl ?_ ?_ ?_) (Nat.le_refl _)
    · exact fun _ k hk => Place.noConfusion (hat.place.symm.trans hk)
    · exact fun _ => rfl
    · exact fun _ => rfl
    · exact fun j hj => setWorker_other _ hj
  | warm i warmed pc more =>
    exact (Keeps.borrowWorker layout i _).trans (.setWarmup i _) (borrowWorker_created i _)
  | turn i warmed pc enough => exact .setWarmup i _
  | return_ i id warmed pc =>
    have hat := layout.warmup i id (by rw [pc]; exact List.mem_cons_self)
    have hset : Keeps s (s.setWarmup i (.returning warmed)) := .setWarmup i _
    refine hset.trans (.returnWorker ?_) (Nat.le_refl _)
    exact fun k hk => Place.noConfusion (hat.place.symm.trans hk)
  | ready i pc => exact .setWarmup i _

end Demux

/-- The item an event is about. -/
def Event.item : Event T → Option (WorkItem T)
  | .silent => none
  | .skipped w | .invoked w | .finished w _ | .triggered w | .collected w => some w

/-- What an event adds to the lane of its item's key. -/
def Event.note (l : Lane Ident) : Event T → Lane Ident
  | .silent => l
  | .skipped w => { l with dropped := l.dropped ++ [ident w] }
  | .invoked w => { l with started := l.started ++ [ident w] }
  | .finished w good => { l with finished := l.finished ++ [(ident w, good)] }
  | .triggered w => { l with failed := l.failed ++ [ident w] }
  | .collected w => { l with delivered := l.delivered ++ [ident w] }

theorem WorkerStep.event_item {done : Bool} {w w' : Worker T} {e : Event T}
    (h : WorkerStep done w e w') : ∀ x ∈ e.item, w.pc.item = some x := by
  intro x hx
  cases h with
  | receive | exit | receiveHot | fallThrough | clear | fail => exact nomatch hx
  | skip y pc | invoke y pc | succeed y _ _ pc | deadLetter y _ pc | deadLetterFail y _ pc
  | trigger y pc | commit y pc =>
    rw [pc]
    exact hx

/-- A step of a worker is a step of the lane it serves, or none. -/
theorem WorkerStep.lane_step {done : Bool} {w w' : Worker T} {e : Event T} {l : Lane Ident}
    (h : WorkerStep done w e w') (queue : l.queue = w.workItems.map ident)
    (stage : l.stage = w.pc.stage) (closed : l.closed = done) :
    e.note { l with queue := w'.workItems.map ident, stage := w'.pc.stage } = l ∨
      Lane.Step l (e.note { l with queue := w'.workItems.map ident, stage := w'.pc.stage }) := by
  cases h with
  | receive x rest pc hq =>
    rw [pc] at stage
    rw [hq] at queue
    exact .inr (.take l _ _ stage queue)
  | receiveHot x rest pc hq =>
    rw [pc] at stage
    rw [hq] at queue
    exact .inr (.take l _ _ stage queue)
  | exit pc | fallThrough pc | fail _ _ _ _ pc =>
    left
    rw [pc] at stage
    simp only [Event.note, ← queue]
    cases l
    simp_all [WorkerPc.stage]
  | skip x pc tripped =>
    rw [pc] at stage
    simp only [Event.note, ← queue]
    exact .inr (.drop l _ stage (closed.trans tripped))
  | clear x pc live =>
    rw [pc] at stage
    simp only [Event.note, ← queue]
    exact .inr (.accept l _ stage (closed.trans live))
  | invoke x pc =>
    rw [pc] at stage
    simp only [Event.note, ← queue]
    exact .inr (.start l _ stage)
  | succeed x _ _ pc | deadLetter x _ pc | deadLetterFail x _ pc =>
    rw [pc] at stage
    simp only [Event.note, ← queue]
    exact .inr (.finish l _ _ stage)
  | trigger x pc =>
    rw [pc] at stage
    simp only [Event.note, ← queue]
    exact .inr (.fail l _ stage)
  | commit x pc =>
    rw [pc] at stage
    simp only [Event.note, ← queue]
    exact .inr (.deliver l _ stage)

namespace Demux

theorem lane_record_same {e : Event T} (key : ∀ x ∈ e.item, x.message.key = k) :
    (s.record e).lane cfg k = e.note (s.lane cfg k) := by
  cases e with
  | silent => rfl
  | skipped w | invoked w | finished w good | triggered w | collected w =>
    have hk : (ident w).key = k := key w rfl
    simp [record, lane, Log.record, Event.note, onKey, hk, serving]

theorem lane_record_other {e : Event T} (key : ∀ x ∈ e.item, x.message.key ≠ k) :
    (s.record e).lane cfg k = s.lane cfg k := by
  cases e with
  | silent => rfl
  | skipped w | invoked w | finished w good | triggered w | collected w =>
    have hk : (ident w).key ≠ k := key w rfl
    simp [record, lane, Log.record, onKey, hk, serving]

theorem lane_setWorker_same {id : Nat} (entry : (s.shards (cfg.shardOf k)).workers k = some id)
    (w : Worker T) : (s.setWorker id w).lane cfg k =
      { s.lane cfg k with queue := w.workItems.map ident, stage := w.pc.stage } := by
  have hserving : (s.setWorker id w).serving cfg k = (w.workItems.map ident, w.pc.stage) := by
    rw [serving_some (s := s.setWorker id w) entry, setWorker_same]
  simp only [lane, hserving]
  rfl

theorem lane_setWorker_other {id : Nat} (entry : (s.shards (cfg.shardOf k)).workers k ≠ some id)
    (w : Worker T) : (s.setWorker id w).lane cfg k = s.lane cfg k := by
  refine lane_eq rfl rfl ?_ rfl
  cases hentry : (s.shards (cfg.shardOf k)).workers k with
  | none => rw [serving_none hentry, serving_none (s := s.setWorker id w) hentry]
  | some j =>
    have hne : j ≠ id := fun he => entry (he ▸ hentry)
    rw [serving_some hentry, serving_some (s := s.setWorker id w) hentry, setWorker_other w hne]

theorem lane_work (layout : Layout cfg s) {id : Nat} {e : Event T} {w : Worker T}
    (made : id < s.created)
    (step : WorkerStep (s.shards (s.workers id).shard).done (s.workers id) e w) :
    ((s.setWorker id w).record e).lane cfg k = s.lane cfg k ∨
      Lane.Step (s.lane cfg k) (((s.setWorker id w).record e).lane cfg k) := by
  have hsound := layout.sound id made
  by_cases hserving : ∃ k', (s.workers id).place = .serving k'
  · obtain ⟨k', hk'⟩ := hserving
    obtain ⟨t, ht⟩ := hsound.serving hk'
    have hat : s.At id (s.workers id).shard (.serving k') := ⟨made, rfl, hk'⟩
    have hhome := layout.home id _ k' hat
    have hkeys : ∀ x ∈ e.item, x.message.key = k' := by
      intro x hx
      exact ht.busy x (step.event_item x hx)
    by_cases hk : k' = k
    · subst hk
      have hentry : (s.shards (cfg.shardOf k')).workers k' = some id :=
        (layout.mapped _ _ _).mpr (hhome ▸ hat)
      rw [lane_record_same hkeys, lane_setWorker_same hentry]
      apply step.lane_step
      · exact congrArg Prod.fst (serving_some hentry)
      · exact congrArg Prod.snd (serving_some hentry)
      · rw [hhome]
        rfl
    · left
      rw [lane_record_other fun x hx he => hk ((hkeys x hx).symm.trans he), lane_setWorker_other]
      intro hentry
      have hp := hk'.symm.trans ((layout.mapped _ _ _).mp hentry).place
      injection hp with hp
      exact hk hp
  · obtain ⟨_, rfl, rfl⟩ := step.outside hsound fun k' hk' => hserving ⟨k', hk'⟩
    refine .inl (lane_setWorker_other ?_ _)
    intro hentry
    exact hserving ⟨k, ((layout.mapped _ _ _).mp hentry).place⟩

/-- A worker that found its channel empty serves an idle lane. -/
theorem serving_emptied {id : Nat} (entry : (s.shards (cfg.shardOf k)).workers k = some id)
    (pc : (s.workers id).pc = .emptied) :
    s.serving cfg k = ((s.workers id).workItems.map ident, .idle) := by
  rw [serving_some entry, pc]
  rfl

theorem lane_resume {id : Nat} (pc : (s.workers id).pc = .emptied) :
    (s.setWorker id { s.workers id with pc := .hot }).lane cfg k = s.lane cfg k := by
  by_cases hentry : (s.shards (cfg.shardOf k)).workers k = some id
  · rw [lane_setWorker_same hentry]
    simp only [lane, serving_emptied hentry pc]
    rfl
  · exact lane_setWorker_other hentry _

theorem lane_retire (placed : Placed cfg s) {id : Nat} (made : id < s.created)
    (pc : (s.workers id).pc = .emptied) (empty : (s.workers id).workItems = []) :
    (s.retire id).lane cfg k = s.lane cfg k := by
  obtain ⟨k', t, hk', _, hkey⟩ := placed.serving_of_emptied made pc
  have hat : s.At id (s.workers id).shard (.serving k') := ⟨made, rfl, hk'⟩
  have hentry' : ∀ i k'', ((s.retire id).shards i).workers k'' =
      if i = (s.workers id).shard ∧ k'' = k' then none else (s.shards i).workers k'' := by
    intro i k''
    rw [retire_entry, hkey]
  refine lane_eq rfl rfl ?_ (retire_mapOnly id _).done
  by_cases hk : cfg.shardOf k = (s.workers id).shard ∧ k = k'
  · have hentry : (s.shards (cfg.shardOf k)).workers k = some id := by
      rw [hk.1, hk.2]
      exact (placed.layout.mapped _ _ _).mpr hat
    have hgone := hentry' (cfg.shardOf k) k
    rw [if_pos hk] at hgone
    rw [serving_none hgone, serving_emptied hentry pc, empty]
    rfl
  · have hsame := hentry' (cfg.shardOf k) k
    rw [if_neg hk] at hsame
    cases hentry : (s.shards (cfg.shardOf k)).workers k with
    | none => rw [serving_none hentry, serving_none (hsame.trans hentry)]
    | some j =>
      have hne : j ≠ id := fun he => hk ((placed.layout.entry_iff hat hentry).mp he)
      rw [serving_some hentry, serving_some (hsame.trans hentry)]
      rw [show (s.retire id).workers j = s.workers j from setWorker_other _ hne]

theorem keeps_release (layout : Layout cfg s) {id : Nat} (made : id < s.created)
    (pc : (s.workers id).pc = .releasing) : Keeps s (s.releaseWorker id) := by
  have hplace := (layout.sound id made).retiring_of_pc (.inl pc)
  have hset : Keeps s (s.setWorker id { s.workers id with
      pc := .returning, partitionKey := "", activatedBy := none }) :=
    .of_outside id (fun _ k hk => nomatch hplace.symm.trans hk) rfl (fun _ => rfl)
      (fun _ => rfl) (fun j hj => setWorker_other _ hj)
  exact hset.trans (.of_tokensOnly (release_tokensOnly _)) (Nat.le_refl _)

theorem keeps_giveBack (layout : Layout cfg s) {id : Nat} (made : id < s.created)
    (pc : (s.workers id).pc = .returning) : Keeps s (s.giveBack cfg id) := by
  have hplace := (layout.sound id made).retiring_of_pc (.inr pc)
  have hset : Keeps s (s.setWorker id { s.workers id with pc := .cold }) :=
    .of_outside id (fun _ k hk => nomatch hplace.symm.trans hk) rfl (fun _ => rfl)
      (fun _ => rfl) (fun j hj => setWorker_other _ hj)
  refine hset.trans (.returnWorker ?_) (Nat.le_refl _)
  intro k hk
  rw [setWorker_same] at hk
  exact nomatch hplace.symm.trans hk

theorem releaseWorker_dispatcher (id : Nat) : (s.releaseWorker id).dispatcher = s.dispatcher :=
  (release_tokensOnly _).dispatcher

theorem WorkStep.lane_step (placed : Placed cfg s) (step : s.WorkStep cfg s') (k : String) :
    s'.lane cfg k = s.lane cfg k ∨ Lane.Step (s.lane cfg k) (s'.lane cfg k) := by
  cases step with
  | work id e w made step => exact lane_work placed.layout made step
  | resume id made pc arrived free => exact .inl (lane_resume pc)
  | retire id made pc empty free => exact .inl (lane_retire placed made pc empty)
  | release id made pc filled =>
    refine .inl ((keeps_release placed.layout made pc).lane_eq placed.layout ?_ k)
    rw [releaseWorker_dispatcher]
  | giveBack id made pc =>
    refine .inl ((keeps_giveBack placed.layout made pc).lane_eq placed.layout ?_ k)
    rw [(giveBack_poolsOnly cfg id).dispatcher]

theorem PoolStep.lane_eq (layout : Layout cfg s) (step : s.PoolStep cfg s') (k : String) :
    s'.lane cfg k = s.lane cfg k := by
  refine (step.keeps layout).lane_eq layout ?_ k
  rw [step.poolsOnly.dispatcher]

theorem lane_acquire (t : Token) : (s.acquire t).lane cfg k = s.lane cfg k := by
  cases t <;> rfl

theorem lane_release (t : Token) : (s.release t).lane cfg k = s.lane cfg k := by
  cases t <;> rfl

/-- The offer of the lane under `k`. -/
def offer (d : DispatcherPc T) (k : String) : Option Ident :=
  (d.sending.map ident).filter fun a => a.key = k

theorem offer_none {d : DispatcherPc T} (free : d.sending = none) : offer d k = none := by
  rw [offer, free]
  rfl

theorem offer_same {d : DispatcherPc T} {a : Ident} (sending : d.sending.map ident = some a)
    (key : a.key = k) : offer d k = some a := by
  simp [offer, sending, key]

theorem offer_other {d : DispatcherPc T} {a : Ident} (sending : d.sending.map ident = some a)
    (key : a.key ≠ k) : offer d k = none := by
  simp [offer, sending, key]

theorem lane_setDispatcher (d : DispatcherPc T) :
    ({ s with dispatcher := d } : Demux T).lane cfg k =
      { s.lane cfg k with offered := offer d k } := rfl

/-- A new send arrives in the lane of its key. -/
theorem lane_send (w : WorkItem T) (free : s.dispatcher.sending = none) :
    (s.send cfg w).lane cfg k = s.lane cfg k ∨
      Lane.Step (s.lane cfg k) ((s.send cfg w).lane cfg k) := by
  have hfree : (s.lane cfg k).offered = none := offer_none free
  have hlane : (s.send cfg w).lane cfg k = { s.lane cfg k with
      arrived := onKey k (s.log.dispatched ++ [ident w])
      offered := offer (.locking { w with workerPool := cfg.shardOf w.message.key }) k } := rfl
  by_cases hk : w.message.key = k
  · right
    rw [hlane, onKey_snoc_same _ hk, offer_same (a := ident w) rfl hk]
    exact .arrive _ _ hfree
  · left
    rw [hlane, onKey_snoc_other _ hk, offer_other (a := ident w) rfl hk, ← hfree]
    rfl

/-- The dispatcher's item enters the channel of the worker in its key's map entry. -/
theorem lane_deliver (layout : Layout cfg s) {w w' : WorkItem T} {id : Nat} {d : DispatcherPc T}
    (sending : s.dispatcher.sending.map ident = some (ident w)) (same : ident w' = ident w) (free : d.sending = none)
    (entry : (s.shards (cfg.shardOf w.message.key)).workers w.message.key = some id) :
    ({ s.setWorker id { s.workers id with workItems := (s.workers id).workItems ++ [w'] } with
        dispatcher := d } : Demux T).lane cfg k = s.lane cfg k ∨
      Lane.Step (s.lane cfg k)
        (({ s.setWorker id { s.workers id with workItems := (s.workers id).workItems ++ [w'] } with
          dispatcher := d } : Demux T).lane cfg k) := by
  rw [lane_setDispatcher, offer_none free]
  by_cases hk : w.message.key = k
  · right
    subst hk
    have hserving := serving_some entry
    have hqueue : ((s.workers id).workItems ++ [w']).map ident =
        (s.lane cfg w.message.key).queue ++ [ident w] := by
      rw [List.map_append, show (s.lane cfg w.message.key).queue = _ from
        congrArg Prod.fst hserving, ← same]
      rfl
    have hstage : (s.workers id).pc.stage = (s.lane cfg w.message.key).stage :=
      (congrArg Prod.snd hserving).symm
    rw [lane_setWorker_same entry, hqueue, hstage]
    exact .enqueue _ _ (offer_same sending rfl)
  · left
    rw [lane_setWorker_other]
    · have hfree : (s.lane cfg k).offered = none := offer_other sending hk
      rw [← hfree]
    · intro hentry
      have hp := ((layout.mapped _ _ _).mp entry).place.symm.trans
        ((layout.mapped _ _ _).mp hentry).place
      injection hp with hp
      exact hk hp

theorem lane_stallExit {w : WorkItem T} (pc : s.dispatcher = .stalled w)
    (done : (s.shards (cfg.shardOf w.message.key)).done = true) :
    (s.stallExit w).lane cfg k = s.lane cfg k ∨
      Lane.Step (s.lane cfg k) ((s.stallExit w).lane cfg k) := by
  rw [stallExit, lane_setDispatcher, offer_none rfl]
  by_cases hk : w.message.key = k
  · right
    subst hk
    rw [lane_record_same (e := .skipped w) (fun x hx => by cases hx; rfl)]
    exact .abandon _ _ (offer_same (pc ▸ rfl) rfl) done
  · left
    have hfree : (s.lane cfg k).offered = none := offer_other (a := ident w) (pc ▸ rfl) hk
    rw [lane_record_other (e := .skipped w) (fun x hx => by cases hx; exact hk), ← hfree]

/-- A worker just put into the map serves an empty lane. -/
theorem lane_insert (placed : Placed cfg s) {w : WorkItem T} {id : Nat}
    (pc : s.dispatcher = .inserting w id) : (s.insert cfg w id).lane cfg k = s.lane cfg k := by
  have hat := placed.dispatching.borrowed w id pc
  have hrest := (placed.layout.sound id hat.made).held hat.place
  have habsent := placed.dispatching.absent w (.inr ⟨id, pc⟩)
  have hentry' := insert_entry (s := s) cfg w id (cfg.shardOf k) k
  refine lane_eq rfl (by rw [pc]; rfl) ?_ (insert_mapOnly cfg w id _).done
  · by_cases hk : k = w.message.key
    · subst hk
      rw [if_pos ⟨rfl, rfl⟩] at hentry'
      rw [serving_none habsent, serving_some hentry', insert_worker]
      simp only [hrest.queue, hrest.pc]
      rfl
    · rw [if_neg fun he => hk he.2] at hentry'
      cases hentry : (s.shards (cfg.shardOf k)).workers k with
      | none => rw [serving_none hentry, serving_none (hentry'.trans hentry)]
      | some j =>
        have hne : j ≠ id := by
          intro he
          subst he
          exact nomatch hat.place.symm.trans ((placed.layout.mapped _ _ _).mp hentry).place
        rw [serving_some hentry, serving_some (hentry'.trans hentry),
          show (s.insert cfg w id).workers j = s.workers j from setWorker_other _ hne]

theorem DispatchStep.lane_step (placed : Placed cfg s) (step : s.DispatchStep cfg c s')
    (k : String) : s'.lane cfg k = s.lane cfg k ∨ Lane.Step (s.lane cfg k) (s'.lane cfg k) := by
  cases step with
  | poll w caller ready pc clean => exact .inl (lane_eq rfl (by rw [pc]; rfl) rfl rfl)
  | guardFull w pc full | acquireTimeout w pc | stall w id pc found full
  | stallRetry w timeout pc live | missing w pc absent =>
    exact .inl (lane_eq rfl (by rw [pc]; rfl) rfl rfl)
  | takeGuard w pc room | takeGuardLate w pc room | takeOverflow w pc room =>
    rw [← lane_acquire (s := s)]
    exact lane_send _ (by rw [(acquire_tokensOnly _).dispatcher, pc]; rfl)
  | call w caller ready pc => exact lane_send _ (by rw [pc]; rfl)
  | deposit t caller room => exact .inl (lane_acquire t)
  | pipeline w id pc found room =>
    exact lane_deliver placed.layout (by rw [pc]; rfl) rfl rfl found
  | stallExit w pc done => exact lane_stallExit pc done
  | borrow w pc =>
    have hkeeps := Keeps.borrowWorker placed.layout (cfg.shardOf w.message.key) .dispatcher
    left
    refine lane_eq hkeeps.log (by rw [pc]; rfl) ?_ (hkeeps.done _)
    exact hkeeps.serving_eq placed.layout k
  | insert w id pc => exact .inl (lane_insert placed pc)
  | hand w id pc room =>
    have hat := (placed.dispatching.handing w id pc).1
    exact lane_deliver placed.layout (by rw [pc]; rfl) rfl rfl ((placed.layout.mapped _ _ _).mpr hat)
  | settle t pc filled =>
    left
    rw [lane_setDispatcher, lane_release, offer_none rfl]
    have hfree : (s.lane cfg k).offered = none := offer_none (by rw [pc]; rfl)
    rw [← hfree]

theorem EnvStep.lane_step (step : s.EnvStep cfg s') (k : String) :
    s'.lane cfg k = s.lane cfg k ∨ Lane.Step (s.lane cfg k) (s'.lane cfg k) := by
  cases step with
  | trip => exact .inl rfl
  | others n nonneg room => exact .inl rfl
  | observe i tripped =>
    have hserving : (s.setDone i).serving cfg k = s.serving cfg k := by
      rw [serving, setDone_shards]
      rfl
    have hlane : (s.setDone i).lane cfg k =
        { s.lane cfg k with closed := (s.lane cfg k).closed || decide (cfg.shardOf k = i) } := by
      simp only [lane, hserving, setDone_shards]
      rfl
    rw [hlane]
    by_cases hi : cfg.shardOf k = i
    · right
      rw [decide_eq_true hi, Bool.or_true]
      exact .close _
    · left
      rw [decide_eq_false hi, Bool.or_false]

/-- One step of the demultiplexer is at most one step of each lane. -/
theorem Step.lane_step (placed : Placed cfg s) (step : Step cfg c s s') (k : String) :
    s'.lane cfg k = s.lane cfg k ∨ Lane.Step (s.lane cfg k) (s'.lane cfg k) := by
  cases step with
  | dispatch step => exact step.lane_step placed k
  | work step => exact step.lane_step placed k
  | pool step => exact .inl (step.lane_eq placed.layout k)
  | env step => exact step.lane_step k
  | drain step =>
    left
    cases step <;> rfl

theorem lane_inv (h : (demuxSystem T cfg c).Reachable s) (k : String) : (s.lane cfg k).Inv := by
  refine System.invariant (P := fun s => (s.lane cfg k).Inv) ?_ ?_ s h
  · intro s hs
    rw [show s = initial from hs]
    exact Lane.Inv.initial
  · intro s s' hs hinv hstep
    rcases Step.lane_step (.of_reachable hs) hstep k with heq | hlane
    · rwa [heq]
    · exact hinv.step hlane

end Demux

end LlingrDemux.Pipeline
