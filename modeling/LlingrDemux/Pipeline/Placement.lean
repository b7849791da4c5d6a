import LlingrDemux.Pipeline.Layout

/-!
# Every step keeps the workers in place

The operations of the demultiplexer, one by one, keep `Layout` and the facts about the
dispatcher's critical section and its hand-over of a first item.
-/

namespace LlingrDemux.Pipeline

set_option autoImplicit false

variable {T : Type} {cfg : Config} {s s' : Demux T}

theorem Worker.Resting.at_place {w : Worker T} (h : w.Resting) {p : Place}
    (hp : p = .pooled ∨ ∃ holder, p = .held holder) : Worker.Sound { w with place := p } := by
  rcases hp with rfl | ⟨holder, rfl⟩ <;> exact ⟨h.pc, h.queue, h.live, h.token⟩

theorem Worker.Resting.stop {w : Worker T} (h : w.Resting) :
    Worker.Sound { w with place := .stopped, shutdown := true } :=
  Worker.Stopped.mk (.inl h.pc) h.queue h.token

namespace Layout

/-- A worker changes and stays where it is. -/
theorem setInPlace (h : Layout cfg s) {id : Nat} {w : Worker T} (sound : w.Sound)
    (shard : w.shard = (s.workers id).shard) (place : w.place = (s.workers id).place) :
    Layout cfg (s.setWorker id w) := by
  have hat : ∀ {j i p}, (s.setWorker id w).At j i p ↔ s.At j i p := by
    intro j i p
    by_cases hj : j = id
    · subst hj
      constructor
      · intro ha
        have hs := ha.shard
        have hp := ha.place
        rw [Demux.setWorker_same] at hs hp
        exact ⟨ha.made, shard ▸ hs, place ▸ hp⟩
      · intro ha
        refine ⟨ha.made, ?_, ?_⟩
        · rw [Demux.setWorker_same, shard, ha.shard]
        · rw [Demux.setWorker_same, place, ha.place]
    · constructor
      · intro ha
        have hs := ha.shard
        have hp := ha.place
        rw [Demux.setWorker_other w hj] at hs hp
        exact ⟨ha.made, hs, hp⟩
      · intro ha
        refine ⟨ha.made, ?_, ?_⟩
        · rw [Demux.setWorker_other w hj, ha.shard]
        · rw [Demux.setWorker_other w hj, ha.place]
  refine ⟨?_, fun i k j => (h.mapped i k j).trans hat.symm,
    fun j i k hj => h.home j i k (hat.mp hj), h.pool_nodup, fun i j hj => hat.mpr (h.pool i j hj),
    fun i j n hj => hat.mpr (h.pruner i j n hj), h.warmup_nodup,
    fun i j hj => hat.mpr (h.warmup i j hj)⟩
  intro j hj
  by_cases hne : j = id
  · subst hne
    rwa [Demux.setWorker_same]
  · rw [Demux.setWorker_other w hne]
    exact h.sound j hj

/-- The first worker of a pool is taken out. -/
theorem unpool (h : Layout cfg s) {i id : Nat} {rest : List Nat}
    (pool : (s.shards i).workerPool = id :: rest) :
    Layout cfg (s.setPool i rest) ∧ (s.setPool i rest).Loose id := by
  have hat := h.pool i id (pool ▸ List.mem_cons_self)
  have hnodup := List.nodup_cons.mp (pool ▸ h.pool_nodup i)
  have hsub : ∀ j, ∀ x ∈ ((s.setPool i rest).shards j).workerPool,
      x ∈ (s.shards j).workerPool ∧ x ≠ id := by
    intro j x hx
    rw [Demux.setPool_shards] at hx
    by_cases hj : j = i
    · subst hj
      rw [if_pos rfl] at hx
      exact ⟨pool ▸ List.mem_cons_of_mem id hx, fun he => hnodup.1 (he ▸ hx)⟩
    · rw [if_neg hj] at hx
      exact ⟨hx, fun he => hj ((h.pool j x hx).shard.symm.trans (he ▸ hat.shard))⟩
  refine ⟨h.relist rfl rfl ?_ ?_ (fun j x hx => h.pool j x (hsub j x hx).1) ?_ ?_ ?_,
    ⟨?_, fun j hid => (hsub j id hid).2 rfl, ?_, ?_⟩⟩
  all_goals intro j
  all_goals rw [Demux.setPool_shards]
  · split
    · exact hnodup.2
    · exact h.pool_nodup j
  · exact h.pruner j
  · exact h.warmup_nodup j
  · exact h.warmup j
  · intro k hid
    exact nomatch hat.place.symm.trans ((h.mapped j k id).mp hid).place
  · intro n hid
    exact nomatch hat.place.symm.trans (h.pruner j id n hid).place
  · intro hid
    exact nomatch hat.place.symm.trans (h.warmup j id hid).place

/-- A pooled worker that no list has enters a pool. -/
theorem repool (h : Layout cfg s) {i id : Nat} (loose : s.Loose id) (pooled : s.At id i .pooled) :
    Layout cfg (s.setPool i ((s.shards i).workerPool ++ [id])) := by
  refine h.relist rfl rfl ?_ ?_ ?_ ?_ ?_ ?_
  all_goals intro j
  all_goals rw [Demux.setPool_shards]
  · split
    · rename_i hj
      subst hj
      exact List.nodup_append.mpr ⟨h.pool_nodup j, by simp,
        fun a ha b hb he => loose.pool j (List.mem_singleton.mp hb ▸ he ▸ ha)⟩
    · exact h.pool_nodup j
  · intro x hx
    by_cases hj : j = i
    · subst hj
      rw [if_pos rfl] at hx
      rcases List.mem_append.mp hx with hx | hx
      · exact h.pool j x hx
      · exact List.mem_singleton.mp hx ▸ pooled
    · rw [if_neg hj] at hx
      exact h.pool j x hx
  · exact h.pruner j
  · exact h.warmup_nodup j
  · exact h.warmup j

/-- A borrowed worker rests in the hands of its borrower. -/
theorem borrowWorker (h : Layout cfg s) (i : Nat) (holder : Holder) :
    Layout cfg (s.borrowWorker i holder).2 ∧
      (s.borrowWorker i holder).2.At (s.borrowWorker i holder).1 i (.held holder) ∧
      (s.borrowWorker i holder).2.Loose (s.borrowWorker i holder).1 := by
  unfold Demux.borrowWorker
  cases hpool : (s.shards i).workerPool with
  | nil =>
    have hnew : (s.setWorker s.created { shard := i, place := .held holder }).workers s.created =
        { shard := i, place := .held holder } := Demux.setWorker_same ..
    obtain ⟨hmap, hp, hpr, hw⟩ := h.loose_created
    refine ⟨?_, ⟨Nat.lt_succ_self _, ?_, ?_⟩, ⟨hmap, hp, hpr, hw⟩⟩
    · exact h.putOutside h.loose_created (.inr ⟨rfl, rfl⟩)
        (Worker.Resting.mk rfl rfl rfl rfl) (fun k hk => nomatch hk)
    · exact congrArg Worker.shard hnew
    · exact congrArg Worker.place hnew
  | cons id rest =>
    obtain ⟨hlay, hloose⟩ := h.unpool hpool
    have hat := h.pool i id (hpool ▸ List.mem_cons_self)
    have hrest := (h.sound id hat.made).pooled hat.place
    obtain ⟨hmap, hp, hpr, hw⟩ := hloose
    refine ⟨?_, ⟨hat.made, ?_, ?_⟩, ⟨hmap, hp, hpr, hw⟩⟩
    · exact hlay.setOutside ⟨hmap, hp, hpr, hw⟩ hat.made (hrest.at_place (.inr ⟨holder, rfl⟩))
        (fun k hk => nomatch hk)
    · rw [Demux.setWorker_same]
      exact hat.shard
    · rw [Demux.setWorker_same]

/-- A resting worker that no list has goes back to the pool or is shut down. -/
theorem returnWorker (h : Layout cfg s) {i id : Nat} (loose : s.Loose id) (made : id < s.created)
    (shard : (s.workers id).shard = i) (resting : (s.workers id).Resting) :
    Layout cfg (s.returnWorker cfg i id) := by
  unfold Demux.returnWorker
  split
  · have hlay := h.setOutside loose made (resting.at_place (.inl rfl)) (fun k hk => nomatch hk)
    obtain ⟨hmap, hp, hpr, hw⟩ := loose
    refine hlay.repool ⟨hmap, hp, hpr, hw⟩ ⟨made, ?_, ?_⟩
    · rw [Demux.setWorker_same]
      exact shard
    · rw [Demux.setWorker_same]
  · exact h.setOutside loose made resting.stop (fun k hk => nomatch hk)

/-- In the dispatcher's hands, on its way back or stopped, a worker is in no list. -/
theorem loose_of_place (h : Layout cfg s) {id : Nat}
    (place : (s.workers id).place = .held .dispatcher ∨ (s.workers id).place = .retiring ∨
      (s.workers id).place = .stopped) : s.Loose id where
  map i k hid := by
    have hp := ((h.mapped i k id).mp hid).place
    rcases place with he | he | he <;> exact nomatch he.symm.trans hp
  pool i hid := by
    have hp := (h.pool i id hid).place
    rcases place with he | he | he <;> exact nomatch he.symm.trans hp
  pruner i n hid := by
    have hp := (h.pruner i id n hid).place
    rcases place with he | he | he <;> exact nomatch he.symm.trans hp
  warmup i hid := by
    have hp := (h.warmup i id hid).place
    rcases place with he | he | he <;> exact nomatch he.symm.trans hp

/-- A worker that is in no list enters or leaves a map, and nothing else of the shards
changes. -/
theorem remap (h : Layout cfg s) {id : Nat}
    (maps : ∀ i, Demux.MapOnly (s.shards i) (s'.shards i)) (created : s'.created = s.created)
    (made : id < s.created) (others : ∀ j, j ≠ id → s'.workers j = s.workers j)
    (apart : (∀ i, id ∉ (s.shards i).workerPool) ∧ (∀ i n, (s.shards i).pruner ≠ .closing id n) ∧
      ∀ i, id ∉ (s.shards i).warmup.warmed)
    (sound : (s'.workers id).Sound)
    (home : ∀ k, (s'.workers id).place = .serving k → (s'.workers id).shard = cfg.shardOf k)
    (mapped : ∀ i k j, (s'.shards i).workers k = some j ↔
      j ≠ id ∧ (s.shards i).workers k = some j ∨
        j = id ∧ (s'.workers id).shard = i ∧ (s'.workers id).place = .serving k) :
    Layout cfg s' := by
  obtain ⟨hpool, hpruner, hwarmup⟩ := apart
  refine Move.layout (?_ : Move cfg s s' id) h
  refine ⟨.inl ⟨created, made⟩, others, sound, home, mapped, ?_, ?_, ?_, ?_, ?_⟩
  all_goals intro i
  all_goals simp only [(maps i).workerPool, (maps i).pruner, (maps i).warmup]
  · exact h.pool_nodup i
  · intro j hj
    exact .inl ⟨fun he => hpool i (he ▸ hj), hj⟩
  · intro j n hj
    exact ⟨fun he => hpruner i n (he ▸ hj), hj⟩
  · exact h.warmup_nodup i
  · intro j hj
    exact ⟨fun he => hwarmup i (he ▸ hj), hj⟩

/-- The dispatcher puts the worker it holds into the map under a key that has none. -/
theorem insert (h : Layout cfg s) {w : WorkItem T} {id : Nat}
    (held : s.At id (cfg.shardOf w.message.key) (.held .dispatcher))
    (absent : (s.shards (cfg.shardOf w.message.key)).workers w.message.key = none) :
    Layout cfg (s.insert cfg w id) := by
  have hloose := h.loose_of_place (.inl held.place)
  have hrest := (h.sound id held.made).held held.place
  have hnew := Demux.insert_worker (s := s) cfg w id
  have hmap := Demux.insert_mapOnly (s := s) cfg w id
  refine h.remap hmap rfl held.made (fun j hj => Demux.setWorker_other _ hj)
    ⟨hloose.pool, hloose.pruner, hloose.warmup⟩ ?_ ?_ ?_
  · rw [hnew]
    refine ⟨token w, hrest.live, rfl, rfl, ?_, ?_, .inl ⟨hrest.pc, ?_⟩⟩
    · intro x hx
      rw [hrest.queue] at hx
      exact absurd hx List.not_mem_nil
    · intro x hx
      rw [hrest.pc] at hx
      cases hx
    · intro x hx
      rw [hrest.queue] at hx
      cases hx
  · intro k hk
    rw [hnew] at hk ⊢
    injection hk with hk
    rw [← hk]
    exact held.shard
  · intro i k j
    rw [hnew, Demux.insert_entry]
    by_cases hi : i = cfg.shardOf w.message.key ∧ k = w.message.key
    · obtain ⟨rfl, rfl⟩ := hi
      rw [if_pos ⟨rfl, rfl⟩, absent]
      constructor
      · intro hj
        exact .inr ⟨(Option.some.inj hj).symm, held.shard, rfl⟩
      · intro hj
        rcases hj with ⟨_, hj⟩ | ⟨hj, _⟩
        · exact nomatch hj
        · rw [hj]
    · rw [if_neg hi]
      constructor
      · intro hj
        exact .inl ⟨fun he => hloose.map i k (he ▸ hj), hj⟩
      · intro hj
        rcases hj with ⟨_, hj⟩ | ⟨_, hshard, hplace⟩
        · exact hj
        · injection hplace with hplace
          exact absurd ⟨hshard.symm.trans held.shard, hplace.symm⟩ hi

/-- A worker in a map is in no pool and in nobody's hands. -/
theorem apart_of_serving (h : Layout cfg s) {id : Nat} {k : String}
    (place : (s.workers id).place = .serving k) :
    (∀ i, id ∉ (s.shards i).workerPool) ∧ (∀ i n, (s.shards i).pruner ≠ .closing id n) ∧
      ∀ i, id ∉ (s.shards i).warmup.warmed := by
  refine ⟨?_, ?_, ?_⟩
  · intro i hid
    exact nomatch place.symm.trans (h.pool i id hid).place
  · intro i n hid
    exact nomatch place.symm.trans (h.pruner i id n hid).place
  · intro i hid
    exact nomatch place.symm.trans (h.warmup i id hid).place

/-- A worker's only entry is the one under its own key in its own shard. -/
theorem entry_iff (h : Layout cfg s) {id i j : Nat} {k k' : String}
    (serving : s.At id i (.serving k)) {i' : Nat} (entry : (s.shards i').workers k' = some j) :
    j = id ↔ i' = i ∧ k' = k := by
  have hj := (h.mapped i' k' j).mp entry
  constructor
  · intro he
    subst he
    have hp := hj.place.symm.trans serving.place
    injection hp with hp
    exact ⟨hj.shard.symm.trans serving.shard, hp⟩
  · intro he
    obtain ⟨rfl, rfl⟩ := he
    exact Option.some.inj (entry.symm.trans ((h.mapped _ _ _).mpr serving))

/-- A worker with an empty channel leaves the map under its cached key. -/
theorem retire (h : Layout cfg s) {id : Nat} (made : id < s.created)
    (pc : (s.workers id).pc = .emptied) (empty : (s.workers id).workItems = []) :
    Layout cfg (s.retire id) := by
  obtain ⟨k, hk⟩ := (h.sound id made).serving_of_warm (pc ▸ trivial)
  obtain ⟨t, ht⟩ := (h.sound id made).serving hk
  obtain ⟨_, hkey, htoken⟩ := ht.warm (by rw [pc]; exact nofun)
  have hat : s.At id (s.workers id).shard (.serving k) := ⟨made, rfl, hk⟩
  have hnew := Demux.retire_worker (s := s) id
  have hmap := Demux.retire_mapOnly (s := s) id
  refine h.remap hmap rfl made (fun j hj => Demux.setWorker_other _ hj)
    (h.apart_of_serving hk) ?_ ?_ ?_
  · rw [hnew]
    exact Worker.Retires.mk empty ht.live (.inl ⟨rfl, htoken ▸ ht.token⟩)
  · intro k' hk'
    rw [hnew] at hk'
    exact nomatch hk'
  · intro i k' j
    rw [hnew, Demux.retire_entry, hkey]
    by_cases hi : i = (s.workers id).shard ∧ k' = k
    · rw [if_pos hi]
      constructor
      · intro hj
        exact nomatch hj
      · intro hj
        rcases hj with ⟨hne, hj⟩ | ⟨_, _, hj⟩
        · exact absurd ((h.entry_iff hat hj).mpr hi) hne
        · exact nomatch hj
    · rw [if_neg hi]
      constructor
      · intro hj
        exact .inl ⟨fun he => hi ((h.entry_iff hat hj).mp he), hj⟩
      · intro hj
        rcases hj with ⟨_, hj⟩ | ⟨_, _, hj⟩
        · exact hj
        · exact nomatch hj

end Layout

end LlingrDemux.Pipeline
