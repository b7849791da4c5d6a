import LlingrDemux.Pipeline.Dispatching

/-!
# The placement holds in every reachable state

`Placed` joins `Layout` and `Dispatching`; every step of every goroutine keeps it.
-/

namespace LlingrDemux.Pipeline

open Shared
set_option autoImplicit false

variable {T : Type} {cfg : Config} {c : Caller} {s s' : Demux T}

structure Placed (cfg : Config) (s : Demux T) : Prop where
  layout : Layout cfg s
  dispatching : Dispatching cfg s

namespace Placed

/-- Steps that touch nothing the placement speaks of. -/
theorem of_same (h : Placed cfg s) (dispatcher : s'.dispatcher = s.dispatcher)
    (workers : s'.workers = s.workers) (created : s'.created = s.created)
    (shards : s'.shards = s.shards) : Placed cfg s' :=
  ⟨h.layout.of_same workers created shards,
    h.dispatching.frame_workers dispatcher created workers fun _ => by rw [shards]⟩

theorem of_tokensOnly (h : Placed cfg s) (same : s.TokensOnly s') : Placed cfg s' :=
  h.of_same same.dispatcher same.workers same.created same.shards

/-- A step of another goroutine at one worker, which stays in its place. -/
theorem setInPlace (h : Placed cfg s) {id : Nat} {w : Worker T} (sound : w.Sound)
    (shard : w.shard = (s.workers id).shard) (place : w.place = (s.workers id).place)
    (before : (s.workers id).place ≠ .held .dispatcher ∧ ¬ (s.workers id).Unfed)
    (after : ¬ w.Unfed) : Placed cfg (s.setWorker id w) := by
  refine ⟨h.layout.setInPlace sound shard place, ?_⟩
  refine h.dispatching.frame id rfl (Nat.le_refl _) (fun _ hj _ => hj) (fun _ _ hk => hk)
    (fun j hj => Demux.setWorker_other w hj) (fun _ => before) ?_
  rwa [Demux.setWorker_same]

theorem record (h : Placed cfg s) (e : Event T) : Placed cfg (s.record e) :=
  h.of_same rfl rfl rfl rfl

theorem work (h : Placed cfg s) {id : Nat} {e : Event T} {w : Worker T} (made : id < s.created)
    (step : WorkerStep (s.shards (s.workers id).shard).done (s.workers id) e w) :
    Placed cfg ((s.setWorker id w).record e) := by
  have hsound := h.layout.sound id made
  apply Placed.record
  refine h.setInPlace (step.sound hsound) step.shard step.place ⟨?_, step.not_unfed hsound⟩
    (Worker.not_unfed_of_pc step.not_cold)
  intro hheld
  have hout := step.outside hsound (by simp [hheld])
  exact nomatch hheld.symm.trans hout.1

/-- A worker whose channel was found empty is in a map. -/
theorem serving_of_emptied (h : Placed cfg s) {id : Nat} (made : id < s.created)
    (pc : (s.workers id).pc = .emptied) : ∃ k t, (s.workers id).place = .serving k ∧
      (s.workers id).Serves k t ∧ (s.workers id).partitionKey = k := by
  obtain ⟨k, hk⟩ := (h.layout.sound id made).serving_of_warm (pc ▸ trivial)
  obtain ⟨t, ht⟩ := (h.layout.sound id made).serving hk
  exact ⟨k, t, hk, ht, (ht.warm (by rw [pc]; exact nofun)).2.1⟩

theorem resume (h : Placed cfg s) {id : Nat} (made : id < s.created)
    (pc : (s.workers id).pc = .emptied) :
    Placed cfg (s.setWorker id { s.workers id with pc := .hot }) := by
  obtain ⟨k, t, hk, ht, _⟩ := h.serving_of_emptied made pc
  obtain ⟨live, active, token, queue, busy, cached⟩ := ht
  refine h.setInPlace ?_ rfl rfl ⟨by rw [hk]; exact nofun, ?_⟩ ?_
  · show Worker.Sound _
    unfold Worker.Sound
    rw [show ({ s.workers id with pc := .hot } : Worker T).place = .serving k from hk]
    refine ⟨t, live, active, token, queue, ?_, .inr ?_⟩
    · intro x hx
      cases hx
    · rcases cached with ⟨hcold, _⟩ | ⟨_, hc⟩
      · exact nomatch pc.symm.trans hcold
      · exact ⟨trivial, hc⟩
  · exact Worker.not_unfed_of_pc (by rw [pc]; exact nofun)
  · exact Worker.not_unfed_of_pc nofun

theorem retire (h : Placed cfg s) {id : Nat} (made : id < s.created)
    (pc : (s.workers id).pc = .emptied) (empty : (s.workers id).workItems = []) :
    Placed cfg (s.retire id) := by
  obtain ⟨k, t, hk, ht, hkey⟩ := h.serving_of_emptied made pc
  refine ⟨h.layout.retire made pc empty, ?_⟩
  refine h.dispatching.frame id rfl (Nat.le_refl _) (fun _ hj _ => hj) ?_
    (fun j hj => Demux.setWorker_other _ hj)
    (fun _ => ⟨by rw [hk]; exact nofun, Worker.not_unfed_of_pc (by rw [pc]; exact nofun)⟩) ?_
  · intro i k' hnone
    rw [Demux.retire_entry]
    split
    · rfl
    · exact hnone
  · rw [Demux.retire_worker]
    exact Worker.not_unfed_of_place fun k hk => nomatch hk

theorem release (h : Placed cfg s) {id : Nat} (made : id < s.created)
    (pc : (s.workers id).pc = .releasing) : Placed cfg (s.releaseWorker id) := by
  have hplace := (h.layout.sound id made).retiring_of_pc (.inl pc)
  have hret := (h.layout.sound id made).retiring hplace
  have hset : Placed cfg (s.setWorker id { s.workers id with
      pc := .returning, partitionKey := "", activatedBy := none }) := by
    refine h.setInPlace ?_ rfl rfl ⟨by rw [hplace]; exact nofun, ?_⟩ ?_
    · unfold Worker.Sound
      rw [show ({ s.workers id with
        pc := .returning, partitionKey := "", activatedBy := none } : Worker T).place =
          .retiring from hplace]
      exact ⟨hret.queue, hret.live, .inr ⟨.inl rfl, rfl⟩⟩
    · exact Worker.not_unfed_of_pc (by rw [pc]; exact nofun)
    · exact Worker.not_unfed_of_pc nofun
  exact hset.of_tokensOnly (Demux.release_tokensOnly _)

/-- A resting worker that neither a list nor the dispatcher has is given back. -/
theorem returnWorker (h : Placed cfg s) {i id : Nat} (loose : s.Loose id) (made : id < s.created)
    (shard : (s.workers id).shard = i) (resting : (s.workers id).Resting)
    (place : (s.workers id).place ≠ .held .dispatcher)
    (outside : ∀ k, (s.workers id).place ≠ .serving k) :
    Placed cfg (s.returnWorker cfg i id) := by
  refine ⟨h.layout.returnWorker loose made shard resting, ?_⟩
  unfold Demux.returnWorker
  split
  · refine h.dispatching.frame id rfl (Nat.le_refl _) (fun _ hj _ => hj) ?_
      (fun j hj => Demux.setWorker_other _ hj)
      (fun _ => ⟨place, Worker.not_unfed_of_place outside⟩) ?_
    · intro j k hnone
      rw [Demux.setWorker_shards, Demux.setPool_shards]
      exact hnone
    · rw [Demux.setWorker_same]
      exact Worker.not_unfed_of_place fun k hk => nomatch hk
  · refine h.dispatching.frame id rfl (Nat.le_refl _) (fun _ hj _ => hj) (fun _ _ hk => hk)
      (fun j hj => Demux.setWorker_other _ hj)
      (fun _ => ⟨place, Worker.not_unfed_of_place outside⟩) ?_
    rw [Demux.setWorker_same]
    exact Worker.not_unfed_of_place fun k hk => nomatch hk

theorem giveBack (h : Placed cfg s) {id : Nat} (made : id < s.created)
    (pc : (s.workers id).pc = .returning) : Placed cfg (s.giveBack cfg id) := by
  have hplace := (h.layout.sound id made).retiring_of_pc (.inr pc)
  have hret := (h.layout.sound id made).retiring hplace
  have htoken : (s.workers id).activatedBy = none := by
    rcases hret.token with ⟨hpc, _⟩ | ⟨_, ht⟩
    · exact nomatch pc.symm.trans hpc
    · exact ht
  have hset : Placed cfg (s.setWorker id { s.workers id with pc := .cold }) := by
    refine h.setInPlace ?_ rfl rfl ⟨by rw [hplace]; exact nofun, ?_⟩ ?_
    · unfold Worker.Sound
      rw [show ({ s.workers id with pc := .cold } : Worker T).place = .retiring from hplace]
      exact ⟨hret.queue, hret.live, .inr ⟨.inr rfl, htoken⟩⟩
    · exact Worker.not_unfed_of_pc (by rw [pc]; exact nofun)
    · exact Worker.not_unfed_of_place fun k hk => nomatch hplace.symm.trans hk
  have hnew : (s.setWorker id { s.workers id with pc := .cold }).workers id =
      { s.workers id with pc := .cold } := Demux.setWorker_same ..
  have hnewPlace := (congrArg Worker.place hnew).trans hplace
  apply hset.returnWorker (hset.layout.loose_of_place (.inr (.inl hnewPlace))) made
  · rw [hnew]
  · rw [hnew]
    exact ⟨rfl, hret.queue, hret.live, htoken⟩
  · rw [hnewPlace]
    exact nofun
  · intro k
    rw [hnewPlace]
    exact nofun

theorem workStep (h : Placed cfg s) (step : s.WorkStep cfg s') : Placed cfg s' := by
  cases step with
  | work id e w made step => exact h.work made step
  | resume id made pc arrived free => exact h.resume made pc
  | retire id made pc empty free => exact h.retire made pc empty
  | release id made pc filled => exact h.release made pc
  | giveBack id made pc => exact h.giveBack made pc

theorem setDone (h : Placed cfg s) (i : Nat) : Placed cfg (s.setDone i) := by
  have hmaps : ∀ j, ((s.setDone i).shards j).workers = (s.shards j).workers := by
    intro j
    rw [Demux.setDone_shards]
  refine ⟨h.layout.relist rfl rfl hmaps ?_ ?_ ?_ ?_ ?_,
    h.dispatching.frame_workers rfl rfl rfl hmaps⟩
  all_goals intro j
  all_goals rw [Demux.setDone_shards]
  · exact h.layout.pool_nodup j
  · exact h.layout.pool j
  · exact h.layout.pruner j
  · exact h.layout.warmup_nodup j
  · exact h.layout.warmup j

theorem setPruner (h : Placed cfg s) {i : Nat} {pc : PrunerPc}
    (held : ∀ id n, pc = .closing id n → s.At id i (.held (.pruner i))) :
    Placed cfg (s.setPruner i pc) := by
  have hmaps : ∀ j, ((s.setPruner i pc).shards j).workers = (s.shards j).workers := by
    intro j
    rw [Demux.setPruner_shards]
  refine ⟨h.layout.relist rfl rfl hmaps ?_ ?_ ?_ ?_ ?_,
    h.dispatching.frame_workers rfl rfl rfl hmaps⟩
  all_goals intro j
  all_goals rw [Demux.setPruner_shards]
  · exact h.layout.pool_nodup j
  · exact h.layout.pool j
  · intro id n hid
    by_cases hj : j = i
    · subst hj
      rw [if_pos rfl] at hid
      exact held id n hid
    · rw [if_neg hj] at hid
      exact h.layout.pruner j id n hid
  · exact h.layout.warmup_nodup j
  · exact h.layout.warmup j

theorem setWarmup (h : Placed cfg s) {i : Nat} {pc : WarmupPc} (nodup : pc.warmed.Nodup)
    (held : ∀ id ∈ pc.warmed, s.At id i (.held (.warmup i))) : Placed cfg (s.setWarmup i pc) := by
  have hmaps : ∀ j, ((s.setWarmup i pc).shards j).workers = (s.shards j).workers := by
    intro j
    rw [Demux.setWarmup_shards]
  refine ⟨h.layout.relist rfl rfl hmaps ?_ ?_ ?_ ?_ ?_,
    h.dispatching.frame_workers rfl rfl rfl hmaps⟩
  all_goals intro j
  all_goals rw [Demux.setWarmup_shards]
  · exact h.layout.pool_nodup j
  · exact h.layout.pool j
  · exact h.layout.pruner j
  · split
    · exact nodup
    · exact h.layout.warmup_nodup j
  · intro id hid
    by_cases hj : j = i
    · subst hj
      rw [if_pos rfl] at hid
      exact held id hid
    · rw [if_neg hj] at hid
      exact h.layout.warmup j id hid

/-- A worker borrowed while the dispatcher stays where it is. -/
theorem borrowWorker (h : Placed cfg s) (i : Nat) (holder : Holder) :
    Placed cfg (s.borrowWorker i holder).2 := by
  refine ⟨(h.layout.borrowWorker i holder).1, ?_⟩
  unfold Demux.borrowWorker
  cases hpool : (s.shards i).workerPool with
  | nil =>
    refine h.dispatching.frame s.created rfl (Nat.le_succ _) ?_ (fun _ _ hk => hk)
      (fun j hj => Demux.setWorker_other _ hj) (fun hid => absurd hid (Nat.lt_irrefl _)) ?_
    · intro j hj hne
      exact Nat.lt_of_le_of_ne (Nat.lt_succ_iff.mp hj) hne
    · show ¬ ((s.setWorker s.created _).workers s.created).Unfed
      rw [Demux.setWorker_same]
      exact Worker.not_unfed_of_place fun k hk => nomatch hk
  | cons id rest =>
    have hat := h.layout.pool i id (hpool ▸ List.mem_cons_self)
    refine h.dispatching.frame id rfl (Nat.le_refl _) (fun _ hj _ => hj) ?_
      (fun j hj => Demux.setWorker_other _ hj) ?_ ?_
    · intro j k hnone
      rw [Demux.setWorker_shards, Demux.setPool_shards]
      exact hnone
    · intro _
      rw [hat.place]
      refine ⟨nofun, Worker.not_unfed_of_place ?_⟩
      intro k hk
      exact nomatch hat.place.symm.trans hk
    · rw [Demux.setWorker_same]
      exact Worker.not_unfed_of_place fun k hk => nomatch hk

theorem take (h : Placed cfg s) {i n id : Nat} {rest : List Nat}
    (pool : (s.shards i).workerPool = id :: rest) :
    Placed cfg (((s.setPool i rest).setWorker id
      { s.workers id with place := .held (.pruner i) }).setPruner i (.closing id n)) := by
  have hborrow := h.borrowWorker i (.pruner i)
  have hat := (h.layout.borrowWorker i (.pruner i)).2.1
  rw [Demux.borrowWorker, pool] at hborrow hat
  apply hborrow.setPruner
  intro id' n' he
  injection he with he
  exact he ▸ hat

theorem close (h : Placed cfg s) {i n id : Nat} (pc : (s.shards i).pruner = .closing id n) :
    Placed cfg ((s.setPruner i (.waiting (some n))).setWorker id
      { s.workers id with place := .stopped, shutdown := true }) := by
  have hat := h.layout.pruner i id n pc
  have hrest := (h.layout.sound id hat.made).held hat.place
  have hset : Placed cfg (s.setPruner i (.waiting (some n))) := h.setPruner nofun
  have hloose : (s.setPruner i (.waiting (some n))).Loose id := by
    refine ⟨?_, ?_, ?_, ?_⟩
    · intro j k hid
      exact nomatch hat.place.symm.trans ((hset.layout.mapped j k id).mp hid).place
    · intro j hid
      exact nomatch hat.place.symm.trans (hset.layout.pool j id hid).place
    · intro j m hid
      have hp := hat.place.symm.trans (hset.layout.pruner j id m hid).place
      injection hp with hp
      injection hp with hp
      subst hp
      rw [Demux.setPruner_shards, if_pos rfl] at hid
      exact nomatch hid
    · intro j hid
      exact nomatch hat.place.symm.trans (hset.layout.warmup j id hid).place
  refine ⟨hset.layout.setOutside hloose hat.made hrest.stop (fun k hk => nomatch hk), ?_⟩
  refine hset.dispatching.frame id rfl (Nat.le_refl _) (fun _ hj _ => hj) (fun _ _ hk => hk)
    (fun j hj => Demux.setWorker_other _ hj) (fun _ => ⟨?_, ?_⟩) ?_
  · exact fun hk => nomatch hat.place.symm.trans hk
  · exact Worker.not_unfed_of_place fun k hk => nomatch hat.place.symm.trans hk
  · rw [Demux.setWorker_same]
    exact Worker.not_unfed_of_place fun k hk => nomatch hk

theorem warm (h : Placed cfg s) {i : Nat} {warmed : List Nat}
    (pc : (s.shards i).warmup = .filling warmed) :
    Placed cfg ((s.borrowWorker i (.warmup i)).2.setWarmup i
      (.filling (warmed ++ [(s.borrowWorker i (.warmup i)).1]))) := by
  have hborrow := h.borrowWorker i (.warmup i)
  obtain ⟨_, hat, hloose⟩ := h.layout.borrowWorker i (.warmup i)
  have hsame : ∀ j, ((s.borrowWorker i (.warmup i)).2.shards j).warmup = (s.shards j).warmup := by
    intro j
    unfold Demux.borrowWorker
    split
    · rw [Demux.setWorker_shards, Demux.setPool_shards]
    · rfl
  have hwarmed : ((s.borrowWorker i (.warmup i)).2.shards i).warmup.warmed = warmed := by
    rw [hsame, pc, WarmupPc.warmed]
  apply hborrow.setWarmup
  · rw [WarmupPc.warmed]
    refine List.nodup_append.mpr ⟨hwarmed ▸ hborrow.layout.warmup_nodup i, by simp, ?_⟩
    intro a ha b hb he
    apply hloose.warmup i
    rw [hwarmed]
    exact List.mem_singleton.mp hb ▸ he ▸ ha
  · intro id hid
    rcases List.mem_append.mp hid with hid | hid
    · exact hborrow.layout.warmup i id (hwarmed.symm ▸ hid)
    · exact List.mem_singleton.mp hid ▸ hat

theorem warmReturn (h : Placed cfg s) {i id : Nat} {warmed : List Nat}
    (pc : (s.shards i).warmup = .returning (id :: warmed)) :
    Placed cfg ((s.setWarmup i (.returning warmed)).returnWorker cfg i id) := by
  have hmem : ∀ x, x ∈ id :: warmed → s.At x i (.held (.warmup i)) := by
    intro x hx
    exact h.layout.warmup i x (by rwa [pc])
  have hnodup : (id :: warmed).Nodup := by
    have := h.layout.warmup_nodup i
    rwa [pc] at this
  have hat := hmem id List.mem_cons_self
  have hset : Placed cfg (s.setWarmup i (.returning warmed)) := by
    apply h.setWarmup
    · exact (List.nodup_cons.mp hnodup).2
    · exact fun x hx => hmem x (List.mem_cons_of_mem id hx)
  apply hset.returnWorker ?_ hat.made hat.shard ((h.layout.sound id hat.made).held hat.place)
  · exact fun hk => nomatch hat.place.symm.trans hk
  · exact fun k hk => nomatch hat.place.symm.trans hk
  · refine ⟨?_, ?_, ?_, ?_⟩
    · intro j k hid
      exact nomatch hat.place.symm.trans ((hset.layout.mapped j k id).mp hid).place
    · intro j hid
      exact nomatch hat.place.symm.trans (hset.layout.pool j id hid).place
    · intro j m hid
      exact nomatch hat.place.symm.trans (hset.layout.pruner j id m hid).place
    · intro j hid
      have hp := hat.place.symm.trans (hset.layout.warmup j id hid).place
      injection hp with hp
      injection hp with hp
      subst hp
      rw [Demux.setWarmup_shards, if_pos rfl] at hid
      exact (List.nodup_cons.mp hnodup).1 hid

theorem poolStep (h : Placed cfg s) (step : s.PoolStep cfg s') : Placed cfg s' := by
  cases step with
  | tick i prevLen pc =>
    apply h.setPruner
    intro id n he
    split at he <;> exact nomatch he
  | take i n id rest pc pool => exact h.take pool
  | miss i n pc pool => exact h.setPruner nofun
  | close i n id pc => exact h.close pc
  | warm i warmed pc more => exact h.warm pc
  | turn i warmed pc enough =>
    have hsame : (s.shards i).warmup.warmed = warmed := by rw [pc, WarmupPc.warmed]
    exact h.setWarmup (hsame ▸ h.layout.warmup_nodup i) (hsame ▸ h.layout.warmup i)
  | return_ i id warmed pc => exact h.warmReturn pc
  | ready i pc => exact h.setWarmup List.nodup_nil nofun

/-- The dispatcher moves between two places outside its critical section. -/
theorem setDispatcher (h : Placed cfg s) (before : s.dispatcher.Quiet) (after : s'.dispatcher.Quiet)
    (workers : s'.workers = s.workers) (created : s'.created = s.created)
    (shards : s'.shards = s.shards) : Placed cfg s' := by
  refine ⟨h.layout.of_same workers created shards, Dispatching.of_quiet after ?_⟩
  rw [workers, created]
  exact h.dispatching.fed_of_quiet before

theorem pipeline (h : Placed cfg s) {w : WorkItem T} {id : Nat} (pc : s.dispatcher = .locking w)
    (found : (s.shards (cfg.shardOf w.message.key)).workers w.message.key = some id) :
    Placed cfg (s.pipeline id w) := by
  have hat := (h.layout.mapped _ _ _).mp found
  have hfed := h.dispatching.fed_of_quiet (pc ▸ trivial)
  obtain ⟨t, live, active, token, queue, busy, cached⟩ :=
    (h.layout.sound id hat.made).serving hat.place
  have hset : Layout cfg (s.setWorker id { s.workers id with
      workItems := (s.workers id).workItems ++ [s.measured id w] }) := by
    refine h.layout.setInPlace ?_ rfl rfl
    unfold Worker.Sound
    rw [show ({ s.workers id with
      workItems := (s.workers id).workItems ++ [s.measured id w] } : Worker T).place =
        .serving w.message.key from hat.place]
    refine ⟨t, live, active, token, ?_, busy, ?_⟩
    · intro x hx
      rcases List.mem_append.mp hx with hx | hx
      · exact queue x hx
      · rw [List.mem_singleton.mp hx]
        rfl
    · -- a cold worker already has the item it was activated by
      rcases cached with ⟨hcold, hhead⟩ | hwarm
      · left
        refine ⟨hcold, ?_⟩
        cases hq : (s.workers id).workItems with
        | nil => exact absurd ⟨⟨_, hat.place⟩, hcold, hq⟩ (hfed id hat.made)
        | cons x rest =>
          rw [hq] at hhead
          exact hhead
      · exact .inr hwarm
  refine ⟨hset.of_same rfl rfl rfl, Dispatching.of_quiet trivial ?_⟩
  intro j hj hu
  by_cases hne : j = id
  · subst hne
    have hq := hu.queue
    rw [Demux.pipeline_worker] at hq
    exact absurd hq (by simp)
  · apply hfed j hj
    rwa [← Demux.setWorker_other _ hne]

theorem insert (h : Placed cfg s) {w : WorkItem T} {id : Nat}
    (pc : s.dispatcher = .inserting w id) : Placed cfg (s.insert cfg w id) := by
  have hat := h.dispatching.borrowed w id pc
  have hrest := (h.layout.sound id hat.made).held hat.place
  have hlay := h.layout.insert hat (h.dispatching.absent w (.inr ⟨id, pc⟩))
  have hnew : (s.insert cfg w id).workers id = { s.workers id with
      isActive := true, place := .serving w.message.key, activatedBy := some (token w) } :=
    Demux.setWorker_same ..
  refine ⟨hlay, ⟨?_, ?_, ?_, ?_⟩⟩
  · intro w' hw'
    rcases hw' with hw' | ⟨id', hw'⟩ <;> exact nomatch hw'
  · intro w' id' hw'
    exact nomatch hw'
  · intro w' id' hw'
    injection hw' with hw hid
    subst hw hid
    rw [hnew]
    exact ⟨⟨hat.made, hnew ▸ hat.shard, hnew ▸ rfl⟩, ⟨⟨_, rfl⟩, hrest.pc, hrest.queue⟩, rfl⟩
  · intro j hj hu
    by_cases hne : j = id
    · exact ⟨w, hne ▸ rfl⟩
    · refine absurd ?_ (h.dispatching.all_fed (fun w' id' he => nomatch pc.symm.trans he) j hj)
      rwa [← Demux.setWorker_other _ hne]

theorem hand (h : Placed cfg s) {w : WorkItem T} {id : Nat} (pc : s.dispatcher = .handing w id) :
    Placed cfg (s.hand w id) := by
  obtain ⟨hat, hunfed, htoken⟩ := h.dispatching.handing w id pc
  obtain ⟨t, live, active, token, queue, busy, cached⟩ :=
    (h.layout.sound id hat.made).serving hat.place
  have hset : Layout cfg (s.setWorker id { s.workers id with
      workItems := (s.workers id).workItems ++ [w] }) := by
    refine h.layout.setInPlace ?_ rfl rfl
    unfold Worker.Sound
    rw [show ({ s.workers id with workItems := (s.workers id).workItems ++ [w] } : Worker T).place =
      .serving w.message.key from hat.place]
    refine ⟨t, live, active, token, ?_, busy, .inl ⟨hunfed.pc, ?_⟩⟩
    · intro x hx
      rw [hunfed.queue] at hx
      rw [List.mem_singleton.mp hx]
    · intro x hx
      rw [hunfed.queue] at hx
      cases hx
      exact Option.some.inj (htoken.symm.trans token)
  refine ⟨hset.of_same rfl rfl rfl, Dispatching.of_quiet trivial ?_⟩
  intro j hj hu
  by_cases hne : j = id
  · subst hne
    have hq := hu.queue
    rw [Demux.hand_worker] at hq
    exact absurd hq (by simp)
  · have hu' : (s.workers j).Unfed := by rwa [← Demux.setWorker_other _ hne]
    obtain ⟨w', hw'⟩ := h.dispatching.fed j hj hu'
    injection pc.symm.trans hw' with _ hid
    exact hne hid.symm

theorem borrow (h : Placed cfg s) {w : WorkItem T} (pc : s.dispatcher = .borrowing w) :
    Placed cfg { (s.borrowWorker (cfg.shardOf w.message.key) .dispatcher).2 with
      dispatcher := .inserting w
        (s.borrowWorker (cfg.shardOf w.message.key) .dispatcher).1 } := by
  have hborrow := h.borrowWorker (cfg.shardOf w.message.key) .dispatcher
  obtain ⟨hlay, hat, _⟩ := h.layout.borrowWorker (cfg.shardOf w.message.key) .dispatcher
  have hpc : (s.borrowWorker (cfg.shardOf w.message.key) .dispatcher).2.dispatcher =
      .borrowing w := (Demux.borrowWorker_poolsOnly _ _).dispatcher.trans pc
  have habsent := hborrow.dispatching.absent w (.inl hpc)
  refine ⟨hlay.of_same rfl rfl rfl, ⟨?_, ?_, ?_, ?_⟩⟩
  · intro w' hw'
    rcases hw' with hw' | ⟨id', hw'⟩
    · exact nomatch hw'
    · injection hw' with hw'
      subst hw'
      exact habsent
  · intro w' id' hw'
    injection hw' with hw hid
    subst hw hid
    exact ⟨hat.made, hat.shard, hat.place⟩
  · intro w' id' hw'
    exact nomatch hw'
  · intro j hj hu
    exact absurd hu
      (hborrow.dispatching.all_fed (fun w' id' he => nomatch hpc.symm.trans he) j hj)

theorem missing (h : Placed cfg s) {w : WorkItem T} (pc : s.dispatcher = .locking w)
    (absent : (s.shards (cfg.shardOf w.message.key)).workers w.message.key = none) :
    Placed cfg { s with dispatcher := .borrowing w } := by
  refine ⟨h.layout.of_same rfl rfl rfl, ⟨?_, ?_, ?_, ?_⟩⟩
  · intro w' hw'
    rcases hw' with hw' | ⟨id', hw'⟩
    · injection hw' with hw'
      subst hw'
      exact absent
    · exact nomatch hw'
  · intro w' id' hw'
    exact nomatch hw'
  · intro w' id' hw'
    exact nomatch hw'
  · intro j hj hu
    exact absurd hu (h.dispatching.fed_of_quiet (pc ▸ trivial) j hj)

theorem send (h : Placed cfg s) (w : WorkItem T) (before : s.dispatcher.Quiet) :
    Placed cfg (s.send cfg w) :=
  h.setDispatcher before trivial rfl rfl rfl

theorem dispatchStep (h : Placed cfg s) (step : s.DispatchStep cfg c s') : Placed cfg s' := by
  cases step with
  | poll w caller ready pc clean => exact h.setDispatcher (pc ▸ trivial) trivial rfl rfl rfl
  | guardFull w pc full | acquireTimeout w pc | stall w id pc found full | stallExit w pc done
  | stallRetry w timeout pc live => exact h.setDispatcher (pc ▸ trivial) trivial rfl rfl rfl
  | takeGuard w pc room | takeGuardLate w pc room | takeOverflow w pc room =>
    apply (h.of_tokensOnly (Demux.acquire_tokensOnly _)).send
    rw [(Demux.acquire_tokensOnly _).dispatcher, pc]
    trivial
  | call w caller ready pc => exact h.send w (pc ▸ trivial)
  | deposit t caller room => exact h.of_tokensOnly (Demux.acquire_tokensOnly t)
  | pipeline w id pc found room => exact h.pipeline pc found
  | missing w pc absent => exact h.missing pc absent
  | borrow w pc => exact h.borrow pc
  | insert w id pc => exact h.insert pc
  | hand w id pc room => exact h.hand pc
  | settle t pc filled =>
    have hrelease := Demux.release_tokensOnly (s := s) t
    have hpc := hrelease.dispatcher.trans pc
    exact (h.of_tokensOnly hrelease).setDispatcher (hpc ▸ trivial) trivial rfl rfl rfl

theorem envStep (h : Placed cfg s) (step : s.EnvStep cfg s') : Placed cfg s' := by
  cases step with
  | trip => exact h.of_same rfl rfl rfl rfl
  | observe i tripped => exact h.setDone i
  | others n nonneg room => exact h.of_same rfl rfl rfl rfl

theorem step (h : Placed cfg s) (step : Demux.Step cfg c s s') : Placed cfg s' := by
  cases step with
  | dispatch step => exact h.dispatchStep step
  | work step => exact h.workStep step
  | pool step => exact h.poolStep step
  | env step => exact h.envStep step
  | drain step => cases step <;> exact h.of_same rfl rfl rfl rfl

theorem of_reachable (h : (demuxSystem T cfg c).Reachable s) : Placed cfg s := by
  refine System.invariant (P := Placed cfg) ?_ ?_ s h
  · intro s hs
    rw [show s = Demux.initial from hs]
    exact ⟨Layout.initial, Dispatching.initial⟩
  · intro s s' _ hs hstep
    exact hs.step hstep

end Placed

end LlingrDemux.Pipeline
