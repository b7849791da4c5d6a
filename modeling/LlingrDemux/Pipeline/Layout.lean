import LlingrDemux.Pipeline.WorkerPlace

/-!
# Maps, pools and places agree

`Layout` ties the shards to the places of the workers: a map's entries are the workers
that serve its keys, a pool holds pooled workers, and a worker in the hands of a pruner or
of a warm-up is held by it. A step moves at most one worker, and `Layout.move` says what
such a move has to respect.
-/

namespace LlingrDemux.Pipeline

set_option autoImplicit false

variable {T : Type}

/-- The worker exists, belongs to the shard and is in the place. -/
structure Demux.At (s : Demux T) (id i : Nat) (place : Place) : Prop where
  made : id < s.created
  shard : (s.workers id).shard = i
  place : (s.workers id).place = place

structure Layout (cfg : Config) (s : Demux T) : Prop where
  sound : ∀ id < s.created, (s.workers id).Sound
  mapped : ∀ i k id, (s.shards i).workers k = some id ↔ s.At id i (.serving k)
  home : ∀ id i k, s.At id i (.serving k) → i = cfg.shardOf k
  pool_nodup : ∀ i, (s.shards i).workerPool.Nodup
  pool : ∀ i, ∀ id ∈ (s.shards i).workerPool, s.At id i .pooled
  pruner : ∀ i id n, (s.shards i).pruner = .closing id n → s.At id i (.held (.pruner i))
  warmup_nodup : ∀ i, (s.shards i).warmup.warmed.Nodup
  warmup : ∀ i, ∀ id ∈ (s.shards i).warmup.warmed, s.At id i (.held (.warmup i))

namespace Layout
variable {cfg : Config} {s s' : Demux T}

theorem initial : Layout cfg (Demux.initial : Demux T) where
  sound _ h := absurd h (Nat.not_lt_zero _)
  mapped _ _ _ := ⟨nofun, fun h => absurd h.made (Nat.not_lt_zero _)⟩
  home _ _ _ h := absurd h.made (Nat.not_lt_zero _)
  pool_nodup _ := List.nodup_nil
  pool _ _ h := nomatch h
  pruner _ _ _ h := nomatch h
  warmup_nodup _ := List.nodup_nil
  warmup _ _ h := nomatch h

end Layout

/-- No map, pool, pruner or warm-up has the worker. -/
structure Demux.Loose (s : Demux T) (id : Nat) : Prop where
  map : ∀ i k, (s.shards i).workers k ≠ some id
  pool : ∀ i, id ∉ (s.shards i).workerPool
  pruner : ∀ i n, (s.shards i).pruner ≠ .closing id n
  warmup : ∀ i, id ∉ (s.shards i).warmup.warmed

/-- A step that moves the worker `id` only, which may be new. -/
structure Move (cfg : Config) (s s' : Demux T) (id : Nat) : Prop where
  created : s'.created = s.created ∧ id < s.created ∨
    s'.created = s.created + 1 ∧ id = s.created
  others : ∀ j, j ≠ id → s'.workers j = s.workers j
  sound : (s'.workers id).Sound
  home : ∀ k, (s'.workers id).place = .serving k → (s'.workers id).shard = cfg.shardOf k
  mapped : ∀ i k j, (s'.shards i).workers k = some j ↔
    j ≠ id ∧ (s.shards i).workers k = some j ∨
      j = id ∧ (s'.workers id).shard = i ∧ (s'.workers id).place = .serving k
  pool_nodup : ∀ i, (s'.shards i).workerPool.Nodup
  pool : ∀ i, ∀ j ∈ (s'.shards i).workerPool, j ≠ id ∧ j ∈ (s.shards i).workerPool ∨
    j = id ∧ (s'.workers id).shard = i ∧ (s'.workers id).place = .pooled
  pruner : ∀ i j n, (s'.shards i).pruner = .closing j n →
    j ≠ id ∧ (s.shards i).pruner = .closing j n
  warmup_nodup : ∀ i, (s'.shards i).warmup.warmed.Nodup
  warmup : ∀ i, ∀ j ∈ (s'.shards i).warmup.warmed, j ≠ id ∧ j ∈ (s.shards i).warmup.warmed

namespace Move
variable {cfg : Config} {s s' : Demux T} {id : Nat}

theorem made (m : Move cfg s s' id) : id < s'.created := by
  rcases m.created with ⟨hc, hid⟩ | ⟨hc, hid⟩ <;> omega

theorem made_other (m : Move cfg s s' id) {j : Nat} (hne : j ≠ id) :
    j < s'.created ↔ j < s.created := by
  rcases m.created with ⟨hc, hid⟩ | ⟨hc, hid⟩ <;> omega

theorem at_other (m : Move cfg s s' id) {j i : Nat} {p : Place} (hne : j ≠ id) :
    s'.At j i p ↔ s.At j i p := by
  constructor
  · intro hj
    obtain ⟨hmade, hshard, hplace⟩ := hj
    rw [m.others j hne] at hshard hplace
    exact ⟨(m.made_other hne).mp hmade, hshard, hplace⟩
  · intro hj
    obtain ⟨hmade, hshard, hplace⟩ := hj
    rw [← m.others j hne] at hshard hplace
    exact ⟨(m.made_other hne).mpr hmade, hshard, hplace⟩

theorem layout (m : Move cfg s s' id) (h : Layout cfg s) : Layout cfg s' where
  sound j hj := by
    by_cases hne : j = id
    · exact hne ▸ m.sound
    · rw [m.others j hne]
      exact h.sound j ((m.made_other hne).mp hj)
  mapped i k j := by
    rw [m.mapped]
    constructor
    · intro hj
      rcases hj with ⟨hne, hj⟩ | ⟨rfl, hshard, hplace⟩
      · exact (m.at_other hne).mpr ((h.mapped i k j).mp hj)
      · exact ⟨m.made, hshard, hplace⟩
    · intro hj
      by_cases hne : j = id
      · subst hne
        exact .inr ⟨rfl, hj.shard, hj.place⟩
      · exact .inl ⟨hne, (h.mapped i k j).mpr ((m.at_other hne).mp hj)⟩
  home j i k hj := by
    by_cases hne : j = id
    · subst hne
      exact hj.shard.symm.trans (m.home k hj.place)
    · exact h.home j i k ((m.at_other hne).mp hj)
  pool_nodup := m.pool_nodup
  pool i j hj := by
    rcases m.pool i j hj with ⟨hne, hj⟩ | ⟨rfl, hshard, hplace⟩
    · exact (m.at_other hne).mpr (h.pool i j hj)
    · exact ⟨m.made, hshard, hplace⟩
  pruner i j n hj := by
    obtain ⟨hne, hj⟩ := m.pruner i j n hj
    exact (m.at_other hne).mpr (h.pruner i j n hj)
  warmup_nodup := m.warmup_nodup
  warmup i j hj := by
    obtain ⟨hne, hj⟩ := m.warmup i j hj
    exact (m.at_other hne).mpr (h.warmup i j hj)

end Move

namespace Layout
variable {cfg : Config} {s s' : Demux T}

/-- Changes to the shards alone. -/
theorem relist (h : Layout cfg s) (workers : s'.workers = s.workers)
    (created : s'.created = s.created)
    (maps : ∀ i, (s'.shards i).workers = (s.shards i).workers)
    (pool_nodup : ∀ i, (s'.shards i).workerPool.Nodup)
    (pool : ∀ i, ∀ id ∈ (s'.shards i).workerPool, s.At id i .pooled)
    (pruner : ∀ i id n, (s'.shards i).pruner = .closing id n → s.At id i (.held (.pruner i)))
    (warmup_nodup : ∀ i, (s'.shards i).warmup.warmed.Nodup)
    (warmup : ∀ i, ∀ id ∈ (s'.shards i).warmup.warmed, s.At id i (.held (.warmup i))) :
    Layout cfg s' := by
  have hat : ∀ {id i p}, s'.At id i p ↔ s.At id i p := by
    intro id i p
    constructor
    · intro ha
      exact ⟨created ▸ ha.made, workers ▸ ha.shard, workers ▸ ha.place⟩
    · intro ha
      exact ⟨created.symm ▸ ha.made, workers.symm ▸ ha.shard, workers.symm ▸ ha.place⟩
  refine ⟨?_, ?_, ?_, pool_nodup, fun i id hid => hat.mpr (pool i id hid),
    fun i id n hid => hat.mpr (pruner i id n hid), warmup_nodup,
    fun i id hid => hat.mpr (warmup i id hid)⟩
  · intro id hid
    rw [workers]
    exact h.sound id (created ▸ hid)
  · intro i k id
    rw [maps, h.mapped, hat]
  · intro id i k ha
    exact h.home id i k (hat.mp ha)

/-- A worker that no list has moves, or is created, outside the maps. -/
theorem putOutside (h : Layout cfg s) {id n : Nat} (loose : s.Loose id)
    (created : n = s.created ∧ id < s.created ∨ n = s.created + 1 ∧ id = s.created)
    {w : Worker T} (sound : w.Sound) (out : ∀ k, w.place ≠ .serving k) :
    Layout cfg { s.setWorker id w with created := n } := by
  have hw : (s.setWorker id w).workers id = w := Demux.setWorker_same id w
  refine Move.layout (?_ : Move cfg s _ id) h
  refine ⟨created, fun j hj => Demux.setWorker_other w hj, hw.symm ▸ sound, ?_, ?_, h.pool_nodup,
    ?_, ?_, h.warmup_nodup, ?_⟩
  · intro k hk
    exact absurd (hw ▸ hk) (out k)
  · intro i k j
    show _ ↔ _ ∨ j = id ∧ _ ∧ ((s.setWorker id w).workers id).place = _
    rw [hw]
    constructor
    · intro hj
      exact .inl ⟨fun he => loose.map i k (he ▸ hj), hj⟩
    · intro hj
      rcases hj with ⟨_, hj⟩ | ⟨_, _, hj⟩
      · exact hj
      · exact absurd hj (out k)
  · intro i j hj
    exact .inl ⟨fun he => loose.pool i (he ▸ hj), hj⟩
  · intro i j n hj
    exact ⟨fun he => loose.pruner i n (he ▸ hj), hj⟩
  · intro i j hj
    exact ⟨fun he => loose.warmup i (he ▸ hj), hj⟩

theorem setOutside (h : Layout cfg s) {id : Nat} (loose : s.Loose id) (made : id < s.created)
    {w : Worker T} (sound : w.Sound) (out : ∀ k, w.place ≠ .serving k) :
    Layout cfg (s.setWorker id w) :=
  h.putOutside loose (.inl ⟨rfl, made⟩) sound out

/-- No list has a worker that does not exist. -/
theorem loose_created (h : Layout cfg s) : s.Loose s.created where
  map i k hid := absurd ((h.mapped i k _).mp hid).made (Nat.lt_irrefl _)
  pool i hid := absurd (h.pool i _ hid).made (Nat.lt_irrefl _)
  pruner i n hid := absurd (h.pruner i _ n hid).made (Nat.lt_irrefl _)
  warmup i hid := absurd (h.warmup i _ hid).made (Nat.lt_irrefl _)

end Layout

end LlingrDemux.Pipeline
