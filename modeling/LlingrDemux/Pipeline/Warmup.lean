import LlingrDemux.Pipeline.Placed

/-!
# The warm-up of a shard

`NewWorkerShard` borrows the minimum of idle workers and gives them back. Until it is done
nobody else gives a worker to the pool, since no worker of the shard has been dispatched
to, and the pruner only takes workers out: what is in the pool and what is still to be
given back are together at most the minimum.
-/

namespace LlingrDemux.Pipeline

open Shared
set_option autoImplicit false

variable {T : Type} {cfg : Config} {c : Caller} {s s' : Demux T}

/-- Taken by the dispatcher and not yet given back. -/
def Place.Circulates : Place → Prop
  | .serving _ | .retiring | .held .dispatcher => True
  | .pooled | .held (.pruner _) | .held (.warmup _) | .stopped => False

/-- The pool of a shard that is being warmed up. -/
def Shard.Fits (minIdleWorkers : Nat) (sh : Shard) : Prop :=
  match sh.warmup with
  | .filling _ => sh.workerPool = []
  | .returning warmed => sh.workerPool.length + warmed.length ≤ minIdleWorkers
  | .ready => True

theorem Shard.fits_of_le {n : Nat} {sh sh' : Shard} (h : sh.Fits n)
    (warmup : sh'.warmup = sh.warmup) (pool : sh'.workerPool.length ≤ sh.workerPool.length) :
    sh'.Fits n := by
  unfold Shard.Fits at h ⊢
  rw [warmup]
  cases hw : sh.warmup with
  | filling warmed =>
    rw [hw] at h
    simp only [List.eq_nil_iff_length_eq_zero] at h ⊢
    omega
  | returning warmed =>
    rw [hw] at h
    simp only at h ⊢
    omega
  | ready => trivial

theorem Shard.fits_of_ready {n : Nat} {sh : Shard} (h : sh.warmup = .ready) : sh.Fits n := by
  unfold Shard.Fits
  rw [h]
  trivial

namespace Demux

theorem borrowWorker_shards (i j : Nat) (holder : Holder) :
    (s.borrowWorker i holder).2.shards j = { s.shards j with
      workerPool := if j = i then (s.shards j).workerPool.tail else (s.shards j).workerPool } := by
  unfold borrowWorker
  cases hpool : (s.shards i).workerPool with
  | nil =>
    show s.shards j = _
    by_cases hj : j = i
    · subst hj
      rw [if_pos rfl, hpool, List.tail_nil, ← hpool]
    · rw [if_neg hj]
  | cons id rest =>
    show (s.setPool i rest).shards j = _
    rw [setPool_shards]
    by_cases hj : j = i
    · subst hj
      rw [if_pos rfl, if_pos rfl, hpool, List.tail_cons]
    · rw [if_neg hj, if_neg hj]

theorem borrowWorker_other {i j : Nat} {holder : Holder}
    (hne : j ≠ (s.borrowWorker i holder).1) :
    (s.borrowWorker i holder).2.workers j = s.workers j ∧
      (j < (s.borrowWorker i holder).2.created → j < s.created) := by
  unfold borrowWorker at hne ⊢
  cases hpool : (s.shards i).workerPool with
  | nil =>
    rw [hpool] at hne
    refine ⟨setWorker_other _ hne, ?_⟩
    intro hj
    exact Nat.lt_of_le_of_ne (Nat.le_of_lt_succ hj) hne
  | cons id rest =>
    rw [hpool] at hne
    exact ⟨setWorker_other _ hne, fun hj => hj⟩

/-- A worker that is given back goes to the end of its pool, if there is room. -/
theorem returnWorker_shards (i j id : Nat) :
    (s.returnWorker cfg i id).shards j = { s.shards j with
      workerPool := if j = i ∧ (s.shards i).workerPool.length < cfg.workerPoolSize
        then (s.shards i).workerPool ++ [id] else (s.shards j).workerPool } := by
  unfold returnWorker
  by_cases hroom : (s.shards i).workerPool.length < cfg.workerPoolSize
  · rw [if_pos hroom]
    show (s.setPool i _).shards j = _
    rw [setPool_shards]
    simp only [hroom, and_true]
  · rw [if_neg hroom]
    simp only [hroom, and_false, if_false]
    rfl

theorem returnWorker_same (cfg : Config) (s : Demux T) (i id : Nat) :
    ((s.returnWorker cfg i id).workers id).place = .pooled ∨
      ((s.returnWorker cfg i id).workers id).place = .stopped := by
  unfold returnWorker
  split
  · left
    rw [setWorker_same]
  · right
    rw [setWorker_same]

theorem returnWorker_other (cfg : Config) (s : Demux T) (i : Nat) {j id : Nat} (hne : j ≠ id) :
    (s.returnWorker cfg i id).workers j = s.workers j := by
  unfold returnWorker
  split
  · exact setWorker_other _ hne
  · exact setWorker_other _ hne

theorem returnWorker_created (i id : Nat) : (s.returnWorker cfg i id).created = s.created := by
  unfold returnWorker
  split <;> rfl

end Demux

structure Warming (cfg : Config) (s : Demux T) : Prop where
  ready : s.dispatcher ≠ .idle → s.Ready cfg
  circulating : ∀ id < s.created, (s.workers id).place.Circulates →
    (s.shards (s.workers id).shard).warmup = .ready
  fits : ∀ i, (s.shards i).Fits cfg.minIdleWorkers

namespace Warming

theorem initial : Warming cfg (Demux.initial : Demux T) where
  ready h := absurd rfl h
  circulating _ h := absurd h (Nat.not_lt_zero _)
  fits _ := rfl

theorem frame (h : Warming cfg s)
    (warmup : ∀ i, (s.shards i).warmup = .ready → (s'.shards i).warmup = .ready)
    (dispatcher : s'.dispatcher ≠ .idle → s.dispatcher ≠ .idle ∨ s.Ready cfg)
    (workers : ∀ id < s'.created, (s'.workers id).place.Circulates →
      (id < s.created ∧ (s.workers id).place.Circulates ∧
        (s'.workers id).shard = (s.workers id).shard) ∨
      (s.shards (s'.workers id).shard).warmup = .ready)
    (fits : ∀ i, ((s'.shards i).warmup = (s.shards i).warmup ∧
        (s'.shards i).workerPool.length ≤ (s.shards i).workerPool.length) ∨
      (s'.shards i).Fits cfg.minIdleWorkers) : Warming cfg s' where
  ready hd i hi := by
    rcases dispatcher hd with hd | hready
    · exact warmup i (h.ready hd i hi)
    · exact warmup i (hready i hi)
  circulating id hid hplace := by
    apply warmup
    rcases workers id hid hplace with ⟨hmade, hplace, hshard⟩ | hready
    · rw [hshard]
      exact h.circulating id hmade hplace
    · exact hready
  fits i := by
    rcases fits i with ⟨hw, hpool⟩ | hfits
    · exact Shard.fits_of_le (h.fits i) hw hpool
    · exact hfits

/-- A step that leaves the pools and the warm-ups as they are. -/
theorem keep (h : Warming cfg s)
    (shards : ∀ i, (s'.shards i).warmup = (s.shards i).warmup ∧
      (s'.shards i).workerPool = (s.shards i).workerPool)
    (dispatcher : s'.dispatcher ≠ .idle → s.dispatcher ≠ .idle ∨ s.Ready cfg)
    (workers : ∀ id < s'.created, (s'.workers id).place.Circulates → id < s.created ∧
      (s.workers id).place.Circulates ∧ (s'.workers id).shard = (s.workers id).shard) :
    Warming cfg s' := by
  refine h.frame ?_ dispatcher (fun id hid hp => .inl (workers id hid hp)) ?_
  · intro i hi
    rw [(shards i).1, hi]
  · intro i
    exact .inl ⟨(shards i).1, Nat.le_of_eq (congrArg List.length (shards i).2)⟩

/-- Only the dispatcher moves. -/
theorem move (h : Warming cfg s) (shards : s'.shards = s.shards) (workers : s'.workers = s.workers)
    (created : s'.created = s.created)
    (dispatcher : s'.dispatcher ≠ .idle → s.dispatcher ≠ .idle ∨ s.Ready cfg) :
    Warming cfg s' := by
  refine h.keep ?_ dispatcher ?_
  · intro i
    rw [shards]
    exact ⟨rfl, rfl⟩
  · intro id hid hp
    rw [workers] at hp ⊢
    exact ⟨created ▸ hid, hp, rfl⟩

/-- One worker changes and was in circulation if it is afterwards. -/
theorem setWorker (h : Warming cfg s) {id : Nat} {w : Worker T}
    (created : s'.created = s.created) (workers : s'.workers = (s.setWorker id w).workers)
    (shards : ∀ i, (s'.shards i).warmup = (s.shards i).warmup ∧
      (s'.shards i).workerPool = (s.shards i).workerPool)
    (dispatcher : s'.dispatcher ≠ .idle → s.dispatcher ≠ .idle)
    (shard : w.shard = (s.workers id).shard)
    (place : w.place.Circulates → (s.workers id).place.Circulates) : Warming cfg s' := by
  refine h.keep shards (fun hd => .inl (dispatcher hd)) ?_
  intro j hj hp
  rw [workers] at hp ⊢
  rw [created] at hj
  by_cases hne : j = id
  · subst hne
    rw [Demux.setWorker_same] at hp ⊢
    exact ⟨hj, place hp, shard⟩
  · rw [Demux.setWorker_other w hne] at hp ⊢
    exact ⟨hj, hp, rfl⟩

/-- Before its shard is ready a worker is borrowed by nobody but the warm-up. -/
theorem borrowWorker (h : Warming cfg s) (layout : Layout cfg s) (i : Nat) (holder : Holder)
    (ready : (Place.held holder).Circulates → (s.shards i).warmup = .ready) :
    Warming cfg (s.borrowWorker i holder).2 := by
  have hframe := Demux.borrowWorker_poolsOnly (s := s) i holder
  refine h.frame ?_ (fun hd => .inl (hframe.dispatcher ▸ hd)) ?_ ?_
  · intro j hj
    rw [Demux.borrowWorker_shards]
    exact hj
  · intro j hj hp
    by_cases hne : j = (s.borrowWorker i holder).1
    · obtain ⟨_, hshard, hplace⟩ := (layout.borrowWorker i holder).2.1
      rw [hne, hplace] at hp
      rw [hne, hshard]
      exact .inr (ready hp)
    · obtain ⟨hsame, hmade⟩ := Demux.borrowWorker_other hne
      rw [hsame] at hp
      exact .inl ⟨hmade hj, hp, congrArg Worker.shard hsame⟩
  · intro j
    rw [Demux.borrowWorker_shards]
    refine .inl ⟨rfl, ?_⟩
    show (if j = i then _ else _ : List Nat).length ≤ _
    split
    · rw [List.length_tail]
      omega
    · exact Nat.le_refl _

/-- A worker that is given back leaves the circulation; its pool has to fit still. -/
theorem returnWorker (h : Warming cfg s) {i id : Nat}
    (fits : ((s.returnWorker cfg i id).shards i).Fits cfg.minIdleWorkers) :
    Warming cfg (s.returnWorker cfg i id) := by
  have hframe := Demux.returnWorker_poolsOnly (s := s) cfg i id
  refine h.frame ?_ (fun hd => .inl (hframe.dispatcher ▸ hd)) ?_ ?_
  · intro j hj
    rw [Demux.returnWorker_shards]
    exact hj
  · intro j hj hp
    rw [Demux.returnWorker_created] at hj
    by_cases hne : j = id
    · rw [hne] at hp
      rcases Demux.returnWorker_same cfg s i id with he | he
      all_goals
        rw [he] at hp
        exact hp.elim
    · have hsame := Demux.returnWorker_other cfg s i hne
      rw [hsame] at hp ⊢
      exact .inl ⟨hj, hp, rfl⟩
  · intro j
    by_cases hj : j = i
    · subst hj
      exact .inr fits
    · left
      rw [Demux.returnWorker_shards]
      simp [hj]

theorem setWarmup (h : Warming cfg s) {i : Nat} {pc : WarmupPc}
    (busy : (s.shards i).warmup ≠ .ready)
    (fits : ({ s.shards i with warmup := pc } : Shard).Fits cfg.minIdleWorkers) :
    Warming cfg (s.setWarmup i pc) := by
  refine h.frame ?_ .inl (fun j hj hp => .inl ⟨hj, hp, rfl⟩) ?_
  · intro j hj
    rw [Demux.setWarmup_shards]
    have hne : j ≠ i := fun he => busy (he ▸ hj)
    simp [hne, hj]
  · intro j
    rw [Demux.setWarmup_shards]
    by_cases hj : j = i
    · subst hj
      rw [if_pos rfl]
      exact .inr fits
    · rw [if_neg hj]
      exact .inl ⟨rfl, Nat.le_refl _⟩

theorem dispatchStep (h : Warming cfg s) (placed : Placed cfg s)
    (step : s.DispatchStep cfg c s') : Warming cfg s' := by
  have hsame : ∀ i, (s.shards i).warmup = (s.shards i).warmup ∧
      (s.shards i).workerPool = (s.shards i).workerPool := fun _ => ⟨rfl, rfl⟩
  cases step with
  | poll w caller ready pc | call w caller ready pc =>
    exact h.move rfl rfl rfl fun _ => .inr ready
  | takeGuard w pc | guardFull w pc | takeGuardLate w pc | takeOverflow w pc | stall w id pc
  | stallExit w pc | stallRetry w timeout pc | missing w pc =>
    exact h.move rfl rfl rfl fun _ => .inl (by simp [pc])
  | acquireTimeout w pc => exact h.move rfl rfl rfl fun hd => absurd rfl hd
  | deposit t caller room =>
    have hframe := Demux.acquire_tokensOnly (s := s) t
    exact h.move hframe.shards hframe.workers hframe.created fun hd =>
      .inl (hframe.dispatcher ▸ hd)
  | settle t pc filled =>
    have hframe := Demux.release_tokensOnly (s := s) t
    exact h.move hframe.shards hframe.workers hframe.created fun hd => absurd rfl hd
  | pipeline w id pc found room =>
    exact h.setWorker rfl rfl hsame (fun _ => by simp [pc]) rfl fun hp => hp
  | borrow w pc =>
    have hready := h.ready (by simp [pc]) _ (cfg.shardOf_lt w.message.key)
    have hborrow := h.borrowWorker placed.layout (cfg.shardOf w.message.key)
      .dispatcher fun _ => hready
    refine hborrow.move rfl rfl rfl fun _ => .inl ?_
    simp [(Demux.borrowWorker_poolsOnly (s := s) _ _).dispatcher, pc]
  | insert w id pc =>
    have hat := placed.dispatching.borrowed w id pc
    refine h.setWorker rfl rfl ?_ (fun _ => by simp [pc]) rfl fun _ => ?_
    · intro i
      have hmap := Demux.insert_mapOnly (s := s) cfg w id i
      exact ⟨hmap.warmup, hmap.workerPool⟩
    · rw [hat.place]
      trivial
  | hand w id pc room =>
    exact h.setWorker rfl rfl hsame (fun _ => by simp [pc]) rfl fun hp => hp

theorem workStep (h : Warming cfg s) (placed : Placed cfg s) (step : s.WorkStep cfg s') :
    Warming cfg s' := by
  have hsame : ∀ i, (s.shards i).warmup = (s.shards i).warmup ∧
      (s.shards i).workerPool = (s.shards i).workerPool := fun _ => ⟨rfl, rfl⟩
  cases step with
  | work id e w made step =>
    exact h.setWorker rfl rfl hsame (fun hd => hd) step.shard fun hp => step.place ▸ hp
  | resume id made pc => exact h.setWorker rfl rfl hsame (fun hd => hd) rfl fun hp => hp
  | retire id made pc empty free =>
    obtain ⟨k, t, hk, _⟩ := placed.serving_of_emptied made pc
    refine h.setWorker rfl rfl ?_ (fun hd => hd) rfl fun _ => ?_
    · intro i
      have hmap := Demux.retire_mapOnly (s := s) id i
      exact ⟨hmap.warmup, hmap.workerPool⟩
    · rw [hk]
      trivial
  | release id made pc filled =>
    have hframe := Demux.release_tokensOnly (s := s.setWorker id { s.workers id with
      pc := .returning, partitionKey := "", activatedBy := none })
      (.ofOverflow (s.workers id).usedOverflow)
    refine h.setWorker hframe.created hframe.workers ?_ (fun hd => hframe.dispatcher ▸ hd) rfl
      fun hp => hp
    intro i
    show ((Demux.release _ _).shards i).warmup = _ ∧ ((Demux.release _ _).shards i).workerPool = _
    rw [hframe.shards]
    exact ⟨rfl, rfl⟩
  | giveBack id made pc =>
    have hplace := (placed.layout.sound id made).retiring_of_pc (.inr pc)
    have hready := h.circulating id made (by rw [hplace]; trivial)
    have hcold : Warming cfg (s.setWorker id { s.workers id with pc := .cold }) :=
      h.setWorker rfl rfl hsame (fun hd => hd) rfl fun hp => hp
    refine hcold.returnWorker (Shard.fits_of_ready ?_)
    rw [Demux.returnWorker_shards]
    exact hready

theorem setPruner (h : Warming cfg s) (i : Nat) (pc : PrunerPc) :
    Warming cfg (s.setPruner i pc) := by
  refine h.keep ?_ .inl fun j hj hp => ⟨hj, hp, rfl⟩
  intro j
  rw [Demux.setPruner_shards]
  exact ⟨rfl, rfl⟩

/-- The pruner takes the first worker of a pool. -/
theorem unpool (h : Warming cfg s) {i id : Nat} {rest : List Nat}
    (pool : (s.shards i).workerPool = id :: rest) : Warming cfg (s.setPool i rest) := by
  refine h.frame ?_ .inl (fun j hj hp => .inl ⟨hj, hp, rfl⟩) ?_
  · intro j hj
    rw [Demux.setPool_shards]
    exact hj
  · intro j
    rw [Demux.setPool_shards]
    refine .inl ⟨rfl, ?_⟩
    by_cases hj : j = i
    · subst hj
      simp [pool]
    · simp [hj]

/-- A worker leaves the circulation or never was part of it. -/
theorem setOutside (h : Warming cfg s) (id : Nat) {w : Worker T}
    (shard : w.shard = (s.workers id).shard) (place : ¬ w.place.Circulates) :
    Warming cfg (s.setWorker id w) :=
  h.setWorker rfl rfl (fun _ => ⟨rfl, rfl⟩) (fun hd => hd) shard fun hp => absurd hp place

theorem warm (h : Warming cfg s) (layout : Layout cfg s) {i : Nat} {warmed : List Nat}
    (pc : (s.shards i).warmup = .filling warmed) :
    Warming cfg ((s.borrowWorker i (.warmup i)).2.setWarmup i
      (.filling (warmed ++ [(s.borrowWorker i (.warmup i)).1]))) := by
  have hborrow := h.borrowWorker layout i (.warmup i) fun hc => hc.elim
  have hfits := h.fits i
  unfold Shard.Fits at hfits
  rw [pc] at hfits
  refine hborrow.setWarmup ?_ ?_
  · rw [Demux.borrowWorker_shards]
    simp [pc]
  · rw [Demux.borrowWorker_shards]
    show (if i = i then _ else _ : List Nat) = []
    rw [if_pos rfl, hfits, List.tail_nil]

theorem warmReturn (h : Warming cfg s) {i id : Nat} {warmed : List Nat}
    (pc : (s.shards i).warmup = .returning (id :: warmed)) :
    Warming cfg ((s.setWarmup i (.returning warmed)).returnWorker cfg i id) := by
  have hfits := h.fits i
  unfold Shard.Fits at hfits
  rw [pc] at hfits
  simp only [List.length_cons] at hfits
  have hset : Warming cfg (s.setWarmup i (.returning warmed)) := by
    refine h.setWarmup (by simp [pc]) ?_
    show (s.shards i).workerPool.length + warmed.length ≤ cfg.minIdleWorkers
    omega
  apply hset.returnWorker
  unfold Shard.Fits
  rw [Demux.returnWorker_shards, Demux.setWarmup_shards]
  simp only [if_true, true_and]
  split
  · rw [List.length_append, List.length_singleton]
    omega
  · omega

theorem poolStep (h : Warming cfg s) (placed : Placed cfg s) (step : s.PoolStep cfg s') :
    Warming cfg s' := by
  cases step with
  | tick i prevLen pc | miss i n pc pool => exact h.setPruner i _
  | take i n id rest pc pool =>
    apply Warming.setPruner
    exact (h.unpool pool).setOutside id (by rfl) fun hc => hc
  | close i n id pc =>
    exact (h.setPruner i _).setOutside id (by rfl) fun hc => hc
  | warm i warmed pc more => exact h.warm placed.layout pc
  | turn i warmed pc enough =>
    have hfits := h.fits i
    unfold Shard.Fits at hfits
    rw [pc] at hfits
    refine h.setWarmup (by simp [pc]) ?_
    show (s.shards i).workerPool.length + warmed.length ≤ cfg.minIdleWorkers
    rw [hfits, enough]
    exact Nat.le_of_eq (Nat.zero_add _)
  | return_ i id warmed pc => exact h.warmReturn pc
  | ready i pc => exact h.setWarmup (by simp [pc]) (Shard.fits_of_ready rfl)

theorem envStep (h : Warming cfg s) (step : s.EnvStep cfg s') : Warming cfg s' := by
  cases step with
  | trip | others => exact h.move rfl rfl rfl .inl
  | observe i tripped =>
    refine h.keep ?_ .inl fun j hj hp => ⟨hj, hp, rfl⟩
    intro j
    rw [Demux.setDone_shards]
    exact ⟨rfl, rfl⟩

theorem drainStep (h : Warming cfg s) (step : s.DrainStep cfg s') : Warming cfg s' := by
  cases step <;> exact h.move rfl rfl rfl .inl

theorem step (h : Warming cfg s) (placed : Placed cfg s) (step : Demux.Step cfg c s s') :
    Warming cfg s' := by
  cases step with
  | dispatch step => exact h.dispatchStep placed step
  | work step => exact h.workStep placed step
  | pool step => exact h.poolStep placed step
  | env step => exact h.envStep step
  | drain step => exact h.drainStep step

theorem of_reachable (h : (demuxSystem T cfg c).Reachable s) : Warming cfg s := by
  refine System.invariant (P := Warming cfg) ?_ ?_ s h
  · intro s hs
    rw [show s = Demux.initial from hs]
    exact initial
  · intro s s' hreach hs hstep
    exact hs.step (Placed.of_reachable hreach) hstep

/-- With no more warm workers than the pool holds, one that is given back finds room. -/
theorem room (h : Warming cfg s) (size : cfg.minIdleWorkers ≤ cfg.workerPoolSize) {i id : Nat}
    {warmed : List Nat} (pc : (s.shards i).warmup = .returning (id :: warmed)) :
    (s.shards i).workerPool.length < cfg.workerPoolSize := by
  have hfits := h.fits i
  unfold Shard.Fits at hfits
  rw [pc] at hfits
  simp only [List.length_cons] at hfits
  omega

end Warming

end LlingrDemux.Pipeline
