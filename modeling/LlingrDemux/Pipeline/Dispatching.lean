import LlingrDemux.Pipeline.Placement

/-!
# The dispatcher's critical section and its hand-over

While the dispatcher borrows a worker its key stays without one, and between putting the
worker into the map and sending it the first item that worker is the only one in a map
without an item.
-/

namespace LlingrDemux.Pipeline

set_option autoImplicit false

variable {T : Type} {cfg : Config} {s s' : Demux T}

/-- Outside the critical section and the hand-over. -/
def DispatcherPc.Quiet : DispatcherPc T → Prop
  | .borrowing _ | .inserting _ _ | .handing _ _ => False
  | .idle | .acquiring _ | .waiting _ | .locking _ | .stalled _ | .settling _ => True

structure Dispatching (cfg : Config) (s : Demux T) : Prop where
  absent : ∀ w, s.dispatcher = .borrowing w ∨ (∃ id, s.dispatcher = .inserting w id) →
    (s.shards (cfg.shardOf w.message.key)).workers w.message.key = none
  borrowed : ∀ w id, s.dispatcher = .inserting w id →
    s.At id (cfg.shardOf w.message.key) (.held .dispatcher)
  handing : ∀ w id, s.dispatcher = .handing w id →
    s.At id (cfg.shardOf w.message.key) (.serving w.message.key) ∧ (s.workers id).Unfed ∧
      (s.workers id).activatedBy = some (token w)
  fed : ∀ id < s.created, (s.workers id).Unfed → ∃ w, s.dispatcher = .handing w id

namespace Dispatching

theorem initial : Dispatching cfg (Demux.initial : Demux T) where
  absent w h := by
    rcases h with h | ⟨id, h⟩ <;> exact nomatch h
  borrowed w id h := nomatch h
  handing w id h := nomatch h
  fed id h := absurd h (Nat.not_lt_zero id)

/-- For a quiet dispatcher there is nothing to check but that every worker in a map has
had an item. -/
theorem of_quiet (quiet : s.dispatcher.Quiet) (fed : ∀ id < s.created, ¬ (s.workers id).Unfed) :
    Dispatching cfg s where
  absent w h := by
    rcases h with h | ⟨id, h⟩
    · exact (h ▸ quiet : (DispatcherPc.borrowing w).Quiet).elim
    · exact (h ▸ quiet : (DispatcherPc.inserting w id).Quiet).elim
  borrowed w id h := (h ▸ quiet : (DispatcherPc.inserting w id).Quiet).elim
  handing w id h := (h ▸ quiet : (DispatcherPc.handing w id).Quiet).elim
  fed id hid h := absurd h (fed id hid)

theorem all_fed (h : Dispatching cfg s) (quiet : ∀ w id, s.dispatcher ≠ .handing w id) :
    ∀ id < s.created, ¬ (s.workers id).Unfed := by
  intro id hid hu
  obtain ⟨w, hw⟩ := h.fed id hid hu
  exact quiet w id hw

theorem fed_of_quiet (h : Dispatching cfg s) (quiet : s.dispatcher.Quiet) :
    ∀ id < s.created, ¬ (s.workers id).Unfed :=
  h.all_fed fun w id he => (he ▸ quiet : (DispatcherPc.handing w id).Quiet)

/-- A step of another goroutine, that changes at most the worker `id`. -/
theorem frame (h : Dispatching cfg s) (id : Nat) (dispatcher : s'.dispatcher = s.dispatcher)
    (created : s.created ≤ s'.created) (made : ∀ j < s'.created, j ≠ id → j < s.created)
    (maps : ∀ i k, (s.shards i).workers k = none → (s'.shards i).workers k = none)
    (others : ∀ j, j ≠ id → s'.workers j = s.workers j)
    (before : id < s.created → (s.workers id).place ≠ .held .dispatcher ∧ ¬ (s.workers id).Unfed)
    (after : ¬ (s'.workers id).Unfed) : Dispatching cfg s' where
  absent w hw := by
    rw [dispatcher] at hw
    exact maps _ _ (h.absent w hw)
  borrowed w j hw := by
    rw [dispatcher] at hw
    have hj := h.borrowed w j hw
    have hne : j ≠ id := by
      intro he
      exact (before (he ▸ hj.made)).1 (he ▸ hj.place)
    have hsame := others j hne
    exact ⟨Nat.lt_of_lt_of_le hj.made created, hsame ▸ hj.shard, hsame ▸ hj.place⟩
  handing w j hw := by
    rw [dispatcher] at hw
    obtain ⟨hj, hunfed, htoken⟩ := h.handing w j hw
    have hne : j ≠ id := by
      intro he
      exact (before (he ▸ hj.made)).2 (he ▸ hunfed)
    have hsame := others j hne
    exact ⟨⟨Nat.lt_of_lt_of_le hj.made created, hsame ▸ hj.shard, hsame ▸ hj.place⟩,
      hsame ▸ hunfed, hsame ▸ htoken⟩
  fed j hj hunfed := by
    have hne : j ≠ id := fun he => after (he ▸ hunfed)
    rw [others j hne] at hunfed
    rw [dispatcher]
    exact h.fed j (made j hj hne) hunfed

/-- A step of another goroutine that leaves the workers alone. -/
theorem frame_workers (h : Dispatching cfg s) (dispatcher : s'.dispatcher = s.dispatcher)
    (created : s'.created = s.created) (workers : s'.workers = s.workers)
    (maps : ∀ i, (s'.shards i).workers = (s.shards i).workers) : Dispatching cfg s' where
  absent w hw := by
    rw [maps]
    exact h.absent w (dispatcher ▸ hw)
  borrowed w j hw := by
    obtain ⟨hmade, hshard, hplace⟩ := h.borrowed w j (dispatcher ▸ hw)
    exact ⟨created ▸ hmade, workers ▸ hshard, workers ▸ hplace⟩
  handing w j hw := by
    obtain ⟨⟨hmade, hshard, hplace⟩, hrest⟩ := h.handing w j (dispatcher ▸ hw)
    exact ⟨⟨created ▸ hmade, workers ▸ hshard, workers ▸ hplace⟩, workers ▸ hrest⟩
  fed j hj hunfed := by
    rw [dispatcher]
    exact h.fed j (created ▸ hj) (workers ▸ hunfed)

end Dispatching

/-- Nothing `Layout` speaks of changes. -/
theorem Layout.of_same (h : Layout cfg s) (workers : s'.workers = s.workers)
    (created : s'.created = s.created) (shards : s'.shards = s.shards) : Layout cfg s' := by
  refine h.relist workers created ?_ ?_ ?_ ?_ ?_ ?_
  all_goals rw [shards]
  · exact fun _ => rfl
  · exact h.pool_nodup
  · exact h.pool
  · exact h.pruner
  · exact h.warmup_nodup
  · exact h.warmup

theorem Worker.not_unfed_of_place {w : Worker T} (place : ∀ k, w.place ≠ .serving k) :
    ¬ w.Unfed := fun h => h.serving.elim place

theorem Worker.not_unfed_of_pc {w : Worker T} (pc : w.pc ≠ .cold) : ¬ w.Unfed :=
  fun h => pc h.pc

end LlingrDemux.Pipeline
