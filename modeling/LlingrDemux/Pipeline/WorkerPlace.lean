import LlingrDemux.Pipeline.DemuxSystem

/-!
# A worker and its place

Every worker is in one place: pooled, in a map under one key, on its way back, held by the
goroutine that took it, or stopped. `Sound` says what a worker in each place looks like,
and no step of the worker's own loop breaks it.
-/

namespace LlingrDemux.Pipeline

set_option autoImplicit false

variable {T : Type}

/-- The item a worker has taken from its channel and not yet disposed of. -/
def WorkerPc.item : WorkerPc T → Option (WorkItem T)
  | .received w | .cleared w | .processing w | .deadLettering w | .triggering w
  | .committing w => some w
  | .cold | .hot | .emptied | .releasing | .returning | .exited => none

/-- The goroutine is between its first receive for a key and leaving the map. -/
def WorkerPc.Warm : WorkerPc T → Prop
  | .received _ | .cleared _ | .processing _ | .deadLettering _ | .triggering _
  | .committing _ | .hot | .emptied => True
  | .cold | .releasing | .returning | .exited => False

theorem WorkerPc.warm_of_item {pc : WorkerPc T} {w : WorkItem T} (item : pc.item = some w) :
    pc.Warm := by
  cases pc with
  | received | cleared | processing | deadLettering | triggering | committing => trivial
  | cold | hot | emptied | releasing | returning | exited => cases item

namespace Worker

/-- A running worker with nothing to do. -/
structure Resting (w : Worker T) : Prop where
  pc : w.pc = .cold
  queue : w.workItems = []
  live : w.shutdown = false
  token : w.activatedBy = none

/-- A worker in the map under `k`, activated by an item that holds `t`. -/
structure Serves (w : Worker T) (k : String) (t : Token) : Prop where
  live : w.shutdown = false
  active : w.isActive = true
  token : w.activatedBy = some t
  queue : ∀ x ∈ w.workItems, x.message.key = k
  busy : ∀ x ∈ w.pc.item, x.message.key = k
  cached : w.pc = .cold ∧ (∀ x ∈ w.workItems.head?, Pipeline.token x = t) ∨
    w.pc.Warm ∧ w.partitionKey = k ∧ Token.ofOverflow w.usedOverflow = t

/-- A worker that has left the map and is not yet back in the pool. -/
structure Retires (w : Worker T) : Prop where
  queue : w.workItems = []
  live : w.shutdown = false
  token : w.pc = .releasing ∧ w.activatedBy = some (.ofOverflow w.usedOverflow) ∨
    (w.pc = .returning ∨ w.pc = .cold) ∧ w.activatedBy = none

structure Stopped (w : Worker T) : Prop where
  pc : w.pc = .cold ∨ w.pc = .exited
  queue : w.workItems = []
  token : w.activatedBy = none

def Sound (w : Worker T) : Prop :=
  match w.place with
  | .pooled | .held _ => w.Resting
  | .serving k => ∃ t, w.Serves k t
  | .retiring => w.Retires
  | .stopped => w.Stopped

/-- Put into the map and still without an item. -/
structure Unfed (w : Worker T) : Prop where
  serving : ∃ k, w.place = .serving k
  pc : w.pc = .cold
  queue : w.workItems = []

section Places
variable {w : Worker T}

theorem Sound.pooled (h : w.Sound) (place : w.place = .pooled) : w.Resting := by
  simpa only [Sound, place] using h

theorem Sound.held {holder : Holder} (h : w.Sound) (place : w.place = .held holder) :
    w.Resting := by
  simpa only [Sound, place] using h

theorem Sound.serving {k : String} (h : w.Sound) (place : w.place = .serving k) :
    ∃ t, w.Serves k t := by
  simpa only [Sound, place] using h

theorem Sound.retiring (h : w.Sound) (place : w.place = .retiring) : w.Retires := by
  simpa only [Sound, place] using h

theorem Sound.stopped (h : w.Sound) (place : w.place = .stopped) : w.Stopped := by
  simpa only [Sound, place] using h

/-- A worker outside the map is cold with an empty channel, has left the map, or has ended. -/
theorem Sound.idle_or_serving (h : w.Sound) :
    (∃ k, w.place = .serving k) ∨ (w.pc = .cold ∧ w.workItems = []) ∨
      (w.place = .retiring ∧ (w.pc = .releasing ∨ w.pc = .returning)) ∨ w.pc = .exited := by
  cases hp : w.place with
  | serving k => exact .inl ⟨k, rfl⟩
  | pooled => exact .inr (.inl ⟨(h.pooled hp).pc, (h.pooled hp).queue⟩)
  | held holder => exact .inr (.inl ⟨(h.held hp).pc, (h.held hp).queue⟩)
  | retiring =>
    rcases (h.retiring hp).token with ⟨hpc, _⟩ | ⟨hpc | hpc, _⟩
    · exact .inr (.inr (.inl ⟨rfl, .inl hpc⟩))
    · exact .inr (.inr (.inl ⟨rfl, .inr hpc⟩))
    · exact .inr (.inl ⟨hpc, (h.retiring hp).queue⟩)
  | stopped =>
    rcases (h.stopped hp).pc with hpc | hpc
    · exact .inr (.inl ⟨hpc, (h.stopped hp).queue⟩)
    · exact .inr (.inr (.inr hpc))

/-- Only a worker in the map is warm. -/
theorem Sound.serving_of_warm (h : w.Sound) (warm : w.pc.Warm) : ∃ k, w.place = .serving k := by
  rcases h.idle_or_serving with hk | ⟨hpc, _⟩ | ⟨_, hpc | hpc⟩ | hpc
  · exact hk
  all_goals
    rw [hpc] at warm
    exact warm.elim

theorem Serves.cold_or_warm {k : String} {t : Token} (h : w.Serves k t) :
    w.pc = .cold ∨ w.pc.Warm := h.cached.imp And.left And.left

/-- Only a worker that has left the map releases or returns. -/
theorem Sound.retiring_of_pc (h : w.Sound) (pc : w.pc = .releasing ∨ w.pc = .returning) :
    w.place = .retiring := by
  rcases h.idle_or_serving with ⟨k, hk⟩ | ⟨hcold, _⟩ | ⟨hplace, _⟩ | hexit
  · obtain ⟨t, ht⟩ := h.serving hk
    rcases ht.cold_or_warm with hcold | hwarm
    · rcases pc with hpc | hpc <;> exact nomatch hpc.symm.trans hcold
    · rcases pc with hpc | hpc
      all_goals
        rw [hpc] at hwarm
        exact hwarm.elim
  · rcases pc with hpc | hpc <;> exact nomatch hpc.symm.trans hcold
  · exact hplace
  · rcases pc with hpc | hpc <;> exact nomatch hpc.symm.trans hexit

theorem Serves.warm {k : String} {t : Token} (h : w.Serves k t) (pc : w.pc ≠ .cold) :
    w.pc.Warm ∧ w.partitionKey = k ∧ Token.ofOverflow w.usedOverflow = t :=
  h.cached.resolve_left fun hc => pc hc.1

end Places

end Worker

section WorkerSteps
variable {done : Bool} {w w' : Worker T} {e : Event T}

theorem WorkerStep.place (h : WorkerStep done w e w') : w'.place = w.place := by
  cases h <;> rfl

theorem WorkerStep.shard (h : WorkerStep done w e w') : w'.shard = w.shard := by
  cases h <;> rfl

theorem WorkerStep.activatedBy (h : WorkerStep done w e w') : w'.activatedBy = w.activatedBy := by
  cases h <;> rfl

theorem WorkerStep.not_cold (h : WorkerStep done w e w') : w'.pc ≠ .cold := by
  cases h <;> exact nofun

theorem WorkerStep.cold_or_warm (h : WorkerStep done w e w') : w.pc = .cold ∨ w.pc.Warm := by
  cases h with
  | receive _ _ pc | exit pc => exact .inl pc
  | receiveHot _ _ pc | fallThrough pc | skip _ pc | clear _ pc | invoke _ pc | succeed _ _ _ pc
  | fail _ _ _ _ pc | deadLetter _ _ pc | deadLetterFail _ _ pc | trigger _ pc | commit _ pc =>
    exact .inr (pc ▸ trivial)

/-- With nothing in its channel a cold worker can only end. -/
theorem WorkerStep.of_cold_empty (h : WorkerStep done w e w') (pc : w.pc = .cold)
    (queue : w.workItems = []) : w.shutdown = true ∧ e = .silent ∧ w' = { w with pc := .exited } := by
  cases h with
  | receive _ _ _ hq => exact nomatch hq.symm.trans queue
  | exit _ closed => exact ⟨closed, rfl, rfl⟩
  | receiveHot _ _ hpc | fallThrough hpc | skip _ hpc | clear _ hpc | invoke _ hpc
  | succeed _ _ _ hpc | fail _ _ _ _ hpc | deadLetter _ _ hpc | deadLetterFail _ _ hpc
  | trigger _ hpc | commit _ hpc => exact nomatch hpc.symm.trans pc

/-- A worker that waits for its first item takes no step. -/
theorem WorkerStep.not_unfed (h : WorkerStep done w e w') (sound : w.Sound) : ¬ w.Unfed := by
  intro hu
  obtain ⟨k, hk⟩ := hu.serving
  obtain ⟨t, ht⟩ := sound.serving hk
  have hclosed := (h.of_cold_empty hu.pc hu.queue).1
  exact nomatch hclosed.symm.trans ht.live

/-- Outside the map a worker takes no step but to end after its shutdown. -/
theorem WorkerStep.outside (h : WorkerStep done w e w') (sound : w.Sound)
    (outside : ∀ k, w.place ≠ .serving k) :
    w.place = .stopped ∧ e = .silent ∧ w' = { w with pc := .exited } := by
  have hpc := h.cold_or_warm.resolve_right fun hwarm =>
    (sound.serving_of_warm hwarm).elim outside
  rcases sound.idle_or_serving with ⟨k, hk⟩ | ⟨_, hqueue⟩ | ⟨_, hret | hret⟩ | hexit
  · exact absurd hk (outside k)
  · obtain ⟨hclosed, he, hw⟩ := h.of_cold_empty hpc hqueue
    refine ⟨?_, he, hw⟩
    cases hp : w.place with
    | stopped => rfl
    | serving k => exact absurd hp (outside k)
    | pooled => exact nomatch hclosed.symm.trans (sound.pooled hp).live
    | held holder => exact nomatch hclosed.symm.trans (sound.held hp).live
    | retiring => exact nomatch hclosed.symm.trans (sound.retiring hp).live
  · exact nomatch hpc.symm.trans hret
  · exact nomatch hpc.symm.trans hret
  · exact nomatch hpc.symm.trans hexit

theorem WorkerStep.serves {k : String} {t : Token} (h : WorkerStep done w e w')
    (serves : w.Serves k t) : w'.Serves k t := by
  obtain ⟨live, active, token, queue, busy, cached⟩ := serves
  cases h with
  | receive x rest pc hq =>
    rw [hq] at queue cached
    have htoken : Pipeline.token x = t := by
      rcases cached with ⟨_, ht⟩ | ⟨hwarm, _⟩
      · exact ht x rfl
      · rw [pc] at hwarm
        exact hwarm.elim
    have hkey := queue x List.mem_cons_self
    refine ⟨live, active, token, fun y hy => queue y (List.mem_cons_of_mem x hy), ?_, .inr ?_⟩
    · intro y hy
      cases hy
      exact hkey
    · exact ⟨trivial, hkey, htoken⟩
  | exit pc closed => exact nomatch closed.symm.trans live
  | receiveHot x rest pc hq =>
    rw [hq] at queue
    refine ⟨live, active, token, fun y hy => queue y (List.mem_cons_of_mem x hy), ?_, .inr ?_⟩
    · intro y hy
      cases hy
      exact queue x List.mem_cons_self
    · rcases cached with ⟨hcold, _⟩ | ⟨_, hc⟩
      · exact nomatch pc.symm.trans hcold
      · exact ⟨trivial, hc⟩
  | clear x pc | invoke x pc | succeed x _ _ pc | fail x _ _ _ pc | deadLetter x _ pc
  | deadLetterFail x _ pc =>
    rw [pc] at busy
    refine ⟨live, active, token, queue, ?_, .inr ?_⟩
    · intro y hy
      cases hy
      exact busy x rfl
    · rcases cached with ⟨hcold, _⟩ | ⟨_, hc⟩
      · exact nomatch pc.symm.trans hcold
      · exact ⟨trivial, hc⟩
  | fallThrough pc | skip x pc | trigger x pc | commit x pc =>
    refine ⟨live, active, token, queue, ?_, .inr ?_⟩
    · intro y hy
      cases hy
    · rcases cached with ⟨hcold, _⟩ | ⟨_, hc⟩
      · exact nomatch pc.symm.trans hcold
      · exact ⟨trivial, hc⟩

theorem WorkerStep.sound (h : WorkerStep done w e w') (sound : w.Sound) : w'.Sound := by
  by_cases hserving : ∃ k, w.place = .serving k
  · obtain ⟨k, hk⟩ := hserving
    obtain ⟨t, ht⟩ := sound.serving hk
    have hk' := h.place.trans hk
    unfold Worker.Sound
    rw [hk']
    exact ⟨t, h.serves ht⟩
  · obtain ⟨hplace, _, rfl⟩ := h.outside sound fun k hk => hserving ⟨k, hk⟩
    have hstopped := sound.stopped hplace
    unfold Worker.Sound
    rw [show ({ w with pc := .exited } : Worker T).place = .stopped from hplace]
    exact ⟨.inr rfl, hstopped.queue, hstopped.token⟩

end WorkerSteps

end LlingrDemux.Pipeline
