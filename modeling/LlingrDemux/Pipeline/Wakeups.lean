import LlingrDemux.Pipeline.Settling

/-!
# No wake-up of a drain is lost

A `DrainWorkers` call parks only on a worker that is active, and an active worker of its
snapshot is in the map. The worker wakes it when it leaves the map, so that once the pipeline
is at rest no call is parked and each goes through the remaining shards.
-/

namespace LlingrDemux.Pipeline

open Shared
set_option autoImplicit false

variable {T : Type} {cfg : Config} {c : Caller} {s s' : Demux T}

namespace Demux

/-- No worker is activated, deactivated or moved to another shard. -/
structure Still (s s' : Demux T) : Prop where
  created : s.created ≤ s'.created
  maps : ∀ i, (s'.shards i).workers = (s.shards i).workers
  active : ∀ id < s.created, (s'.workers id).isActive = (s.workers id).isActive
  shard : ∀ id < s.created, (s'.workers id).shard = (s.workers id).shard

namespace Still

theorem of_workers (workers : s'.workers = s.workers) (created : s'.created = s.created)
    (maps : ∀ i, (s'.shards i).workers = (s.shards i).workers) : s.Still s' where
  created := Nat.le_of_eq created.symm
  maps := maps
  active _ _ := by rw [workers]
  shard _ _ := by rw [workers]

theorem trans {s'' : Demux T} (h : s.Still s') (h' : s'.Still s'') : s.Still s'' where
  created := Nat.le_trans h.created h'.created
  maps i := (h'.maps i).trans (h.maps i)
  active id hid := (h'.active id (Nat.lt_of_lt_of_le hid h.created)).trans (h.active id hid)
  shard id hid := (h'.shard id (Nat.lt_of_lt_of_le hid h.created)).trans (h.shard id hid)

/-- One worker changes in other fields. -/
theorem of_worker {id : Nat} {w : Worker T} (workers : s'.workers = Function.update s.workers id w)
    (created : s'.created = s.created) (maps : ∀ i, (s'.shards i).workers = (s.shards i).workers)
    (active : w.isActive = (s.workers id).isActive) (shard : w.shard = (s.workers id).shard) :
    s.Still s' where
  created := Nat.le_of_eq created.symm
  maps := maps
  active j _ := by
    rw [workers]
    by_cases hj : j = id
    · subst hj
      rw [Function.update_self, active]
    · rw [Function.update_of_ne hj]
  shard j _ := by
    rw [workers]
    by_cases hj : j = id
    · subst hj
      rw [Function.update_self, shard]
    · rw [Function.update_of_ne hj]

theorem setPruner (i : Nat) (pc : PrunerPc) : s.Still (s.setPruner i pc) :=
  .of_workers rfl rfl fun j => by rw [setPruner_shards]

theorem setWarmup (i : Nat) (pc : WarmupPc) : s.Still (s.setWarmup i pc) :=
  .of_workers rfl rfl fun j => by rw [setWarmup_shards]

theorem tokensOnly (h : s.TokensOnly s') : s.Still s' :=
  .of_workers h.workers h.created fun i => by rw [h.shards]

theorem borrowWorker (i : Nat) (holder : Holder) : s.Still (s.borrowWorker i holder).2 := by
  unfold Demux.borrowWorker
  split
  · rename_i id rest hpool
    exact of_worker rfl rfl (fun j => by rw [setWorker_shards, setPool_shards]) rfl rfl
  · -- the new worker is none of the created ones
    have hother : ∀ j < s.created, (s.setWorker s.created { shard := i, place := .held holder }).workers
        j = s.workers j := fun j hj => setWorker_other _ (Nat.ne_of_lt hj)
    exact ⟨Nat.le_succ _, fun _ => rfl, fun j hj => congrArg Worker.isActive (hother j hj),
      fun j hj => congrArg Worker.shard (hother j hj)⟩

theorem returnWorker (i id : Nat) : s.Still (s.returnWorker cfg i id) := by
  unfold Demux.returnWorker
  split
  · exact of_worker rfl rfl (fun j => by rw [setWorker_shards, setPool_shards]) rfl rfl
  · exact of_worker rfl rfl (fun _ => rfl) rfl rfl

end Still

theorem workerStep_isActive {done : Bool} {w w' : Worker T} {e : Event T}
    (step : WorkerStep done w e w') : w'.isActive = w.isActive := by
  cases step <;> rfl

theorem PoolStep.still (step : s.PoolStep cfg s') : s.Still s' := by
  cases step with
  | tick i prevLen pc | miss i n pc pool => exact .setPruner i _
  | turn i warmed pc enough | ready i pc => exact .setWarmup i _
  | take i n id rest pc pool =>
    exact .of_worker rfl rfl (fun j => by rw [setPruner_shards, setWorker_shards, setPool_shards])
      rfl rfl
  | close i n id pc =>
    exact .of_worker rfl rfl (fun j => by rw [setWorker_shards, setPruner_shards]) rfl rfl
  | warm i warmed pc more => exact (Still.borrowWorker i _).trans (.setWarmup i _)
  | return_ i id warmed pc => exact (Still.setWarmup i _).trans (.returnWorker i id)

/-- What a call knows of the workers it still waits for. -/
def Listed (s : Demux T) (i : Nat) (ids : List Nat) : Prop :=
  ∀ id ∈ ids, id < s.created ∧ (s.workers id).shard = i ∧
    ((s.workers id).isActive = true → ∃ k, (s.shards i).workers k = some id)

/-- A call in progress is inside the range of the shards, and parked on an active worker. -/
def Awaits (cfg : Config) (s : Demux T) : DrainerPc → Prop
  | .idle | .returned => True
  | .scanning i => i ≤ cfg.workerShardsCount
  | .checking i ids => i < cfg.workerShardsCount ∧ s.Listed i ids
  | .parked i ids => i < cfg.workerShardsCount ∧ s.Listed i ids ∧
      ∃ id rest, ids = id :: rest ∧ (s.workers id).isActive = true

/-- What a step may do to the workers of a snapshot: activate one that it puts into the map. -/
theorem Awaits.mono {pc : DrainerPc} (h : s.Awaits cfg pc)
    (listed : ∀ i ids, s.Listed i ids → s'.Listed i ids)
    (active : ∀ id < s.created, (s.workers id).isActive = true → (s'.workers id).isActive = true) :
    s'.Awaits cfg pc := by
  cases pc with
  | idle | returned => trivial
  | scanning i => exact h
  | checking i ids => exact ⟨h.1, listed i ids h.2⟩
  | parked i ids =>
    obtain ⟨hi, hlisted, id, rest, hids, hactive⟩ := h
    have hmade := (hlisted id (hids ▸ List.mem_cons_self ..)).1
    exact ⟨hi, listed i ids hlisted, id, rest, hids, active id hmade hactive⟩

theorem Awaits.still {pc : DrainerPc} (h : s.Awaits cfg pc) (still : s.Still s') :
    s'.Awaits cfg pc := by
  refine h.mono ?_ fun id hid hactive => (still.active id hid).trans hactive
  intro i ids hlisted id hid
  obtain ⟨hmade, hshard, hmapped⟩ := hlisted id hid
  refine ⟨Nat.lt_of_lt_of_le hmade still.created, (still.shard id hmade).trans hshard, ?_⟩
  rw [still.active id hmade, still.maps]
  exact hmapped

/-- The worker that is put into the map may be in a snapshot from its last time there. -/
theorem Awaits.insert {pc : DrainerPc} {w : WorkItem T} {id : Nat} (placed : Placed cfg s)
    (inserting : s.dispatcher = .inserting w id) (h : s.Awaits cfg pc) :
    (s.insert cfg w id).Awaits cfg pc := by
  have habsent := placed.dispatching.absent w (.inr ⟨id, inserting⟩)
  have hheld := placed.dispatching.borrowed w id inserting
  have hother : ∀ j, j ≠ id → (s.insert cfg w id).workers j = s.workers j :=
    fun j hj => setWorker_other _ hj
  refine h.mono ?_ ?_
  · intro i ids hlisted j hj
    obtain ⟨hmade, hshard, hmapped⟩ := hlisted j hj
    by_cases hid : j = id
    · subst hid
      rw [insert_worker]
      refine ⟨hmade, hshard, fun _ => ⟨w.message.key, ?_⟩⟩
      rw [insert_entry, if_pos ⟨hshard.symm.trans hheld.shard, rfl⟩]
    · rw [hother j hid]
      refine ⟨hmade, hshard, fun hactive => ?_⟩
      obtain ⟨k, hk⟩ := hmapped hactive
      refine ⟨k, ?_⟩
      rw [insert_entry, if_neg, hk]
      intro heq
      rw [heq.1, heq.2, habsent] at hk
      exact nomatch hk
  · intro j _ hactive
    by_cases hid : j = id
    · subst hid
      rw [insert_worker]
    · rwa [hother j hid]

/-- The worker that leaves the map wakes the calls that are parked on it. -/
theorem Awaits.retire {pc : DrainerPc} {id : Nat} (placed : Placed cfg s) (made : id < s.created)
    (emptied : (s.workers id).pc = .emptied) (h : s.Awaits cfg pc) :
    (s.retire id).Awaits cfg (pc.wake id) := by
  obtain ⟨key, t, hplace, hserves, hkey⟩ := placed.serving_of_emptied made emptied
  have hentry : (s.shards (s.workers id).shard).workers (s.workers id).partitionKey = some id :=
    (placed.layout.mapped _ _ _).mpr ⟨made, rfl, hkey ▸ hplace⟩
  have hother : ∀ j, j ≠ id → (s.retire id).workers j = s.workers j :=
    fun j hj => setWorker_other _ hj
  have hlisted : ∀ i ids, s.Listed i ids → (s.retire id).Listed i ids := by
    intro i ids hlisted j hj
    obtain ⟨hmade, hshard, hmapped⟩ := hlisted j hj
    by_cases hid : j = id
    · subst hid
      rw [retire_worker]
      exact ⟨hmade, hshard, nofun⟩
    · rw [hother j hid]
      refine ⟨hmade, hshard, fun hactive => ?_⟩
      obtain ⟨k, hk⟩ := hmapped hactive
      refine ⟨k, ?_⟩
      rw [retire_entry, if_neg, hk]
      intro heq
      rw [heq.1, heq.2, hentry] at hk
      exact hid (Option.some.inj hk).symm
  cases pc with
  | idle | returned => trivial
  | scanning i => exact h
  | checking i ids => exact ⟨h.1, hlisted i ids h.2⟩
  | parked i ids =>
    obtain ⟨hi, hbefore, j, rest, rfl, hactive⟩ := h
    rw [DrainerPc.wake]
    split
    · exact ⟨hi, hlisted i _ hbefore⟩
    · rename_i hne
      exact ⟨hi, hlisted i _ hbefore, j, rest, rfl, (hother j hne).symm ▸ hactive⟩

def AllAwait (cfg : Config) (s : Demux T) : Prop := ∀ d, s.Awaits cfg (s.drainers d)

theorem AllAwait.still (h : s.AllAwait cfg) (still : s.Still s')
    (drainers : s'.drainers = s.drainers) : s'.AllAwait cfg := by
  intro d
  rw [drainers]
  exact (h d).still still

theorem AllAwait.dispatchStep (h : s.AllAwait cfg) (placed : Placed cfg s)
    (step : s.DispatchStep cfg c s') : s'.AllAwait cfg := by
  cases step with
  | poll | guardFull | acquireTimeout | call | stall | stallExit | stallRetry | missing =>
    exact h.still (.of_workers rfl rfl fun _ => rfl) rfl
  | takeGuard w pc room | takeGuardLate w pc room | takeOverflow w pc room =>
    exact h.still (.of_workers rfl rfl fun _ => rfl) rfl
  | deposit t caller room =>
    exact h.still (.tokensOnly (acquire_tokensOnly t)) (acquire_tokensOnly t).drainers
  | settle t pc filled =>
    have hsame := release_tokensOnly (s := s) t
    exact h.still (.of_workers hsame.workers hsame.created fun i => by rw [hsame.shards])
      hsame.drainers
  | pipeline w id pc found room | hand w id pc room =>
    exact h.still (.of_worker rfl rfl (fun _ => rfl) rfl rfl) rfl
  | borrow w pc =>
    have hstill := Still.borrowWorker (s := s) (cfg.shardOf w.message.key) .dispatcher
    exact h.still ⟨hstill.created, hstill.maps, hstill.active, hstill.shard⟩
      (borrowWorker_poolsOnly _ _).drainers
  | insert w id pc => exact fun d => (h d).insert placed pc

theorem AllAwait.workStep (h : s.AllAwait cfg) (placed : Placed cfg s)
    (step : s.WorkStep cfg s') : s'.AllAwait cfg := by
  cases step with
  | work id e w made step =>
    exact h.still (.of_worker rfl rfl (fun _ => rfl) (workerStep_isActive step) step.shard) rfl
  | resume id made pc arrived free => exact h.still (.of_worker rfl rfl (fun _ => rfl) rfl rfl) rfl
  | retire id made pc empty free => exact fun d => (h d).retire placed made pc
  | release id made pc filled =>
    have hsame := release_tokensOnly (s := s.setWorker id { s.workers id with
      pc := .returning, partitionKey := "", activatedBy := none })
      (.ofOverflow (s.workers id).usedOverflow)
    exact h.still (.of_worker hsame.workers hsame.created (fun i => by rw [releaseWorker, hsame.shards]; rfl)
      rfl rfl) hsame.drainers
  | giveBack id made pc =>
    have hcold : s.Still (s.setWorker id { s.workers id with pc := .cold }) :=
      .of_worker rfl rfl (fun _ => rfl) rfl rfl
    exact h.still (hcold.trans (.returnWorker _ _)) (giveBack_poolsOnly cfg id).drainers

/-- A call's own step; the other calls stay where they are. -/
theorem AllAwait.drainStep (h : s.AllAwait cfg) (layout : Layout cfg s)
    (step : s.DrainStep cfg s') : s'.AllAwait cfg := by
  have hset : ∀ (d' : Nat) (pc : DrainerPc), s.Awaits cfg pc → (s.setDrainer d' pc).AllAwait cfg := by
    intro d' pc hpc d
    have hstill : s.Still (s.setDrainer d' pc) := .of_workers rfl rfl fun _ => rfl
    by_cases hd : d = d'
    · subst hd
      rw [show (s.setDrainer d pc).drainers d = pc from Function.update_self ..]
      exact hpc.still hstill
    · rw [show (s.setDrainer d' pc).drainers d = s.drainers d from Function.update_of_ne hd ..]
      exact (h d).still hstill
  cases step with
  | start d ready pc => exact hset d _ (Nat.zero_le _)
  | scan d i ids pc more free look =>
    refine hset d _ ⟨more, fun id hid => ?_⟩
    obtain ⟨k, hk⟩ := (look.2 id).mp hid
    have hat := (layout.mapped _ _ _).mp hk
    exact ⟨hat.made, hat.shard, fun _ => ⟨k, hk⟩⟩
  | pass d i id ids pc free drained =>
    have hbefore := h d
    rw [pc] at hbefore
    exact hset d _ ⟨hbefore.1, fun j hj => hbefore.2 j (List.mem_cons_of_mem _ hj)⟩
  | park d i id ids pc free active =>
    have hbefore := h d
    rw [pc] at hbefore
    exact hset d _ ⟨hbefore.1, hbefore.2, id, ids, rfl, active⟩
  | next d i pc =>
    have hbefore := h d
    rw [pc] at hbefore
    exact hset d _ hbefore.1
  | return_ d i pc last => exact hset d _ trivial

section AtRest
variable {d : Nat} (idle : s.dispatcher = .idle) (maps : ∀ i k, (s.shards i).workers k = none)
include idle maps

end AtRest

theorem DispatchStep.drainers (step : s.DispatchStep cfg c s') : s'.drainers = s.drainers := by
  cases step with
  | deposit t => exact (acquire_tokensOnly t).drainers
  | settle t => exact (release_tokensOnly t).drainers
  | borrow w => exact (borrowWorker_poolsOnly _ _).drainers
  | poll | takeGuard | guardFull | takeGuardLate | takeOverflow | acquireTimeout | call | pipeline
  | stall | stallExit | stallRetry | missing | insert | hand => rfl

theorem Advance.started {d : Nat} (placed : Placed cfg s) (advance : s.Advance cfg s')
    (started : s.drainers d ≠ .idle) : s'.drainers d ≠ .idle := by
  cases advance with
  | dispatch step => rwa [step.drainers]
  | work step =>
    rcases (step.quiet placed.layout).2.2 d with hsame | ⟨id, hwake⟩
    · rwa [hsame]
    · rw [hwake]
      cases hpc : s.drainers d with
      | idle => exact absurd hpc started
      | scanning | checking | returned =>
        intro hidle
        cases hidle
      | parked i ids =>
        intro hidle
        cases ids with
        | nil => cases hidle
        | cons w ws =>
          rw [DrainerPc.wake] at hidle
          split at hidle <;> cases hidle

end Demux

end LlingrDemux.Pipeline
