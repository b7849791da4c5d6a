import LlingrDemux.Pipeline.Placed

/-!
# The work items in the pipeline

From `Process` to `CollectAndCommit` a work item is with the dispatcher, in a worker's channel
or with a worker. On its way its metrics and its message's traits are written, but not what it
was stamped with nor its key, and only `Process` brings in a new one.
-/

namespace LlingrDemux.Pipeline

open Shared
set_option autoImplicit false

variable {T : Type} {cfg : Config} {s s' : Demux T} {x : WorkItem T}

/-- What the pipeline does not write to. -/
structure Label where
  stamp : WorkItem.Stamp
  key : String
  orphaned : Bool
  deriving DecidableEq

def label (w : WorkItem T) : Label := ⟨w.stamp, w.message.key, w.metrics.traits.orphaned⟩

@[simp] theorem label_processed (w : WorkItem T) (r : ProcessResult) (start duration : Int) :
    label (processed w r start duration) = label w := rfl

@[simp] theorem label_deadLettered (w : WorkItem T) (duration : Int) :
    label (deadLettered w duration) = label w := rfl

theorem ident_of_label {v w : WorkItem T} (h : label v = label w) : ident v = ident w := by
  have hptr : v.ptr = w.ptr := congrArg (fun l => l.stamp.ptr) h
  have hkey : v.message.key = w.message.key := congrArg Label.key h
  rw [ident, ident, hptr, hkey]

theorem clean_of_label {v w : WorkItem T} (h : label v = label w) (clean : v.Clean) : w.Clean :=
  (congrArg Label.orphaned h).symm.trans clean

/-- The work item the dispatcher has and no worker. -/
def DispatcherPc.item : DispatcherPc T → Option (WorkItem T)
  | .acquiring w | .waiting w | .locking w | .borrowing w | .inserting w _ | .handing w _
  | .stalled w => some w
  | .idle | .settling _ => none

/-- The work item that `Process` holds before it has a token. -/
def DispatcherPc.undispatched : DispatcherPc T → Option (WorkItem T)
  | .acquiring w | .waiting w => some w
  | .idle | .locking _ | .borrowing _ | .inserting _ _ | .handing _ _ | .stalled _ | .settling _ => none

/-- The worker has the item, in its channel or at hand. -/
def Worker.Has (w : Worker T) (x : WorkItem T) : Prop := x ∈ w.workItems ∨ w.pc.item = some x

theorem Worker.Has.of_queue {w w' : Worker T} (queue : w'.workItems = w.workItems)
    (pc : w'.pc.item = none) (h : w'.Has x) : w.Has x := by
  rcases h with h | h
  · exact .inl (queue ▸ h)
  · rw [pc] at h
    cases h

namespace Demux

/-- The item is on its way to the committer or has been handed to it. -/
structure Carries (s : Demux T) (x : WorkItem T) : Prop where
  at_some : s.dispatcher.item = some x ∨ (∃ id, (s.workers id).Has x) ∨ x ∈ s.log.collected

namespace Carries

theorem dispatcher (h : s.dispatcher.item = some x) : s.Carries x := ⟨.inl h⟩

theorem worker {id : Nat} (h : (s.workers id).Has x) : s.Carries x := ⟨.inr (.inl ⟨id, h⟩)⟩

theorem collected (h : x ∈ s.log.collected) : s.Carries x := ⟨.inr (.inr h)⟩

end Carries

/-- Some item of the same label was in the pipeline. -/
def Known (s : Demux T) (x : WorkItem T) : Prop := ∃ y, s.Carries y ∧ label y = label x

theorem Carries.known (h : s.Carries x) : s.Known x := ⟨x, h, rfl⟩

/-- The rule for a step: what is with the dispatcher, with a worker or collected afterwards was
known before. -/
theorem Carries.known_of (h : s'.Carries x) (hd : ∀ x, s'.dispatcher.item = some x → s.Known x)
    (hw : ∀ id x, (s'.workers id).Has x → s.Known x)
    (hc : ∀ x ∈ s'.log.collected, s.Known x) : s.Known x := by
  rcases h.at_some with h | ⟨id, h⟩ | h
  · exact hd x h
  · exact hw id x h
  · exact hc x h

theorem known_of_same (hd : s'.dispatcher = s.dispatcher) :
    ∀ x, s'.dispatcher.item = some x → s.Known x :=
  fun _ hx => (Carries.dispatcher (hd ▸ hx)).known

end Demux

/-- What a worker's step leaves it with, it had, up to what is written to the item. -/
theorem WorkerStep.has {done : Bool} {w w' : Worker T} {e : Event T} (step : WorkerStep done w e w')
    (h : w'.Has x) : ∃ y, w.Has y ∧ label y = label x := by
  cases step with
  | receive y rest pc queue | receiveHot y rest pc queue =>
    rcases h with h | h
    · exact ⟨x, .inl (queue ▸ List.mem_cons_of_mem y h), rfl⟩
    · obtain rfl : y = x := Option.some.inj h
      exact ⟨y, .inl (queue ▸ List.mem_cons_self), rfl⟩
  | exit pc closed | fallThrough pc queue | skip y pc tripped | trigger y pc | commit y pc =>
    rcases h with h | h
    · exact ⟨x, .inl h, rfl⟩
    · cases h
  | clear y pc live | invoke y pc | succeed y start duration pc | fail y r start duration pc failed
  | deadLetter y duration pc | deadLetterFail y duration pc =>
    rcases h with h | h
    · exact ⟨x, .inl h, rfl⟩
    · obtain rfl := Option.some.inj h
      exact ⟨y, .inr (by rw [pc]; rfl), rfl⟩

namespace Demux

/-- Writing back a worker that has no other items than before. -/
theorem has_setWorker {id j : Nat} {w : Worker T} (h : ((s.setWorker id w).workers j).Has x)
    (keeps : w.Has x → (s.workers id).Has x) : (s.workers j).Has x := by
  by_cases hj : j = id
  · subst hj
    rw [setWorker_same] at h
    exact keeps h
  · rwa [setWorker_other w hj] at h

theorem has_returnWorker {i id j : Nat} (h : ((s.returnWorker cfg i id).workers j).Has x) :
    (s.workers j).Has x := by
  unfold returnWorker at h
  split at h
  all_goals exact has_setWorker (s := s) h fun hx => hx

/-- A new worker has no items. -/
theorem has_borrowWorker {i j : Nat} {holder : Holder}
    (h : ((s.borrowWorker i holder).2.workers j).Has x) : (s.workers j).Has x := by
  unfold borrowWorker at h
  split at h
  · exact has_setWorker (s := s) h fun hx => hx
  · refine has_setWorker (s := s) h ?_
    intro hx
    rcases hx with hx | hx <;> cases hx

/-- A step that gives no worker a new item. -/
theorem Carries.known_of_has (h : s'.Carries x) (hd : ∀ x, s'.dispatcher.item = some x → s.Known x)
    (hw : ∀ id x, (s'.workers id).Has x → (s.workers id).Has x)
    (hc : s'.log.collected = s.log.collected) : s.Known x :=
  h.known_of hd (fun id x hx => (Carries.worker (hw id x hx)).known)
    (fun _ hx => (Carries.collected (hc ▸ hx)).known)

theorem PoolStep.known (step : s.PoolStep cfg s') (h : s'.Carries x) : s.Known x := by
  have hpools := step.poolsOnly
  refine h.known_of_has (known_of_same hpools.dispatcher) ?_ (congrArg Log.collected hpools.log)
  intro j x hx
  cases step with
  | tick i prevLen pc => exact hx
  | take i n id rest pc pool => exact has_setWorker (s := s) hx fun hx => hx
  | miss i n pc pool => exact hx
  | close i n id pc => exact has_setWorker (s := s) hx fun hx => hx
  | warm i warmed pc more => exact has_borrowWorker hx
  | turn i warmed pc enough => exact hx
  | return_ i id warmed pc =>
    exact has_returnWorker (s := s.setWarmup i (.returning warmed)) hx
  | ready i pc => exact hx

theorem WorkStep.known (step : s.WorkStep cfg s') (h : s'.Carries x) : s.Known x := by
  cases step with
  | work id e w made step =>
    refine h.known_of (known_of_same rfl) (fun j x hx => ?_) (fun x hx => ?_)
    · by_cases hj : j = id
      · subst hj
        rw [show ((s.setWorker j w).record e).workers j = w from setWorker_same ..] at hx
        obtain ⟨y, hy, hl⟩ := step.has hx
        exact ⟨y, .worker hy, hl⟩
      · rw [show ((s.setWorker id w).record e).workers j = s.workers j from setWorker_other w hj] at hx
        exact (Carries.worker hx).known
    · cases e with
      | collected y =>
        rcases List.mem_append.mp hx with hx | hx
        · exact (Carries.collected (s := s) hx).known
        · obtain rfl := List.mem_singleton.mp hx
          cases step with
          | commit _ pc => exact (Carries.worker (.inr (by rw [pc]; rfl))).known
      | silent | skipped | invoked | finished | triggered =>
        exact (Carries.collected (s := s) hx).known
  | resume id made pc arrived free =>
    refine h.known_of_has (known_of_same rfl) (fun j x hx => ?_) rfl
    exact has_setWorker hx (.of_queue rfl rfl)
  | retire id made pc empty free =>
    refine h.known_of_has (known_of_same rfl) (fun j x hx => ?_) rfl
    exact has_setWorker (s := s) hx (.of_queue rfl rfl)
  | release id made pc filled =>
    have hsame := release_tokensOnly (s := s.setWorker id { s.workers id with
      pc := .returning, partitionKey := "", activatedBy := none })
        (.ofOverflow (s.workers id).usedOverflow)
    refine h.known_of_has (known_of_same hsame.dispatcher) (fun j x hx => ?_)
      (congrArg Log.collected hsame.log)
    rw [releaseWorker, hsame.workers] at hx
    exact has_setWorker hx (.of_queue rfl rfl)
  | giveBack id made pc =>
    have hpools := giveBack_poolsOnly (s := s) cfg id
    refine h.known_of_has (known_of_same hpools.dispatcher) (fun j x hx => ?_)
      (congrArg Log.collected hpools.log)
    exact has_setWorker (has_returnWorker hx) (.of_queue rfl rfl)

theorem EnvStep.known (step : s.EnvStep cfg s') (h : s'.Carries x) : s.Known x := by
  cases step <;> exact h.known_of_has (known_of_same rfl) (fun _ _ hx => hx) rfl

theorem DrainStep.known (step : s.DrainStep cfg s') (h : s'.Carries x) : s.Known x := by
  cases step <;> exact h.known_of_has (known_of_same rfl) (fun _ _ hx => hx) rfl

/-- The dispatcher goes on with the item it has, or without one. -/
theorem known_of_item {w : WorkItem T} {d : DispatcherPc T} (before : s.dispatcher.item = some w)
    (after : ∀ l ∈ d.item.map label, label w = l) : ∀ x, d.item = some x → s.Known x :=
  fun x hx => ⟨w, .dispatcher before, after _ (by rw [hx]; rfl)⟩

/-- An item put into a worker's channel. -/
theorem known_of_put {w : WorkItem T} {id j : Nat} {u : Worker T}
    (before : s.dispatcher.item = some w)
    (put : ∀ x, u.Has x → (s.workers id).Has x ∨ label w = label x)
    (h : ((s.setWorker id u).workers j).Has x) : s.Known x := by
  by_cases hj : j = id
  · subst hj
    rw [setWorker_same] at h
    rcases put x h with h | h
    · exact (Carries.worker h).known
    · exact ⟨w, .dispatcher before, h⟩
  · rw [setWorker_other u hj] at h
    exact (Carries.worker h).known

theorem has_append {u : Worker T} {w : WorkItem T} {x : WorkItem T}
    (h : ({ u with workItems := u.workItems ++ [w] } : Worker T).Has x) : u.Has x ∨ w = x := by
  rcases h with h | h
  · rcases List.mem_append.mp h with h | h
    · exact .inl (.inl h)
    · exact .inr (List.mem_singleton.mp h).symm
  · exact .inl (.inr h)

/-- Every item in the pipeline was there before the step or is the one `Process` starts with. -/
theorem DispatchStep.known (step : s.DispatchStep cfg .process s') (h : s'.Carries x) :
    s.Known x ∨ s.dispatcher = .idle ∧ s'.dispatcher = .acquiring x := by
  cases step with
  | poll w caller ready pc clean =>
    rcases h.at_some with h | h | h
    · right
      exact ⟨pc, congrArg _ (Option.some.inj h)⟩
    · obtain ⟨id, h⟩ := h
      exact .inl (Carries.worker (s := s) h).known
    · exact .inl (Carries.collected (s := s) h).known
  | takeGuard w pc room | takeGuardLate w pc room | takeOverflow w pc room | guardFull w pc full
  | stall w id pc found full | stallRetry w timeout pc live | missing w pc absent =>
    have before : s.dispatcher.item = some w := by rw [pc]; rfl
    exact .inl (h.known_of_has (known_of_item before fun _ => Option.some.inj) (fun _ _ hx => hx) rfl)
  | acquireTimeout w pc | stallExit w pc done =>
    exact .inl (h.known_of_has (fun x hx => by cases hx) (fun _ _ hx => hx) rfl)
  | call w caller => cases caller
  | deposit t caller => cases caller
  | pipeline w id pc found room =>
    have before : s.dispatcher.item = some w := by rw [pc]; rfl
    refine .inl (h.known_of (fun x hx => by cases hx) (fun j x hx => ?_)
      fun x hx => (Carries.collected (s := s) hx).known)
    refine known_of_put before (fun x hx => ?_) hx
    exact (has_append hx).imp_right fun he => by rw [← he]; rfl
  | borrow w pc =>
    have before : s.dispatcher.item = some w := by rw [pc]; rfl
    have hpools := borrowWorker_poolsOnly (s := s) (cfg.shardOf w.message.key) .dispatcher
    exact .inl (h.known_of_has (known_of_item before fun _ => Option.some.inj)
      (fun id x hx => has_borrowWorker hx) (congrArg Log.collected hpools.log))
  | insert w id pc =>
    have before : s.dispatcher.item = some w := by rw [pc]; rfl
    exact .inl (h.known_of_has (known_of_item before fun _ => Option.some.inj)
      (fun j x hx => has_setWorker (s := s) hx fun hx => hx) rfl)
  | hand w id pc room =>
    have before : s.dispatcher.item = some w := by rw [pc]; rfl
    refine .inl (h.known_of (fun x hx => by cases hx) (fun j x hx => ?_)
      fun x hx => (Carries.collected (s := s) hx).known)
    refine known_of_put before (fun x hx => ?_) hx
    exact (has_append hx).imp_right (congrArg label)
  | settle t pc filled =>
    have hsame := release_tokensOnly (s := s) t
    refine .inl (h.known_of_has (fun x hx => by cases hx) (fun id x hx => ?_)
      (congrArg Log.collected hsame.log))
    rw [show ({ s.release t with dispatcher := .idle } : Demux T).workers = _ from hsame.workers] at hx
    exact hx

/-- A step of the demultiplexer brings in at most the item that `Process` starts with. -/
theorem Step.known (step : Step cfg .process s s') (h : s'.Carries x) :
    s.Known x ∨ s.dispatcher = .idle ∧ s'.dispatcher = .acquiring x := by
  cases step with
  | dispatch step => exact step.known h
  | work step => exact .inl (step.known h)
  | pool step => exact .inl (step.known h)
  | env step => exact .inl (step.known h)
  | drain step => exact .inl (step.known h)

/-- What `CollectAndCommit` delivers in a step comes behind what it delivered before. -/
theorem Step.collected_extends {c : Caller} (step : Step cfg c s s') :
    s.log.collected <+: s'.log.collected := by
  have hsame : ∀ {l : Log T}, l = s.log → s.log.collected <+: l.collected :=
    fun he => he ▸ List.prefix_rfl
  cases step with
  | dispatch step =>
    cases step with
    | poll | takeGuard | guardFull | takeGuardLate | takeOverflow | acquireTimeout | call | pipeline
    | stall | stallExit | stallRetry | missing | insert | hand => exact List.prefix_rfl
    | deposit t caller room => exact hsame (acquire_tokensOnly t).log
    | borrow w pc => exact hsame (borrowWorker_poolsOnly (cfg.shardOf w.message.key) .dispatcher).log
    | settle t pc filled => exact hsame (release_tokensOnly (s := s) t).log
  | work step =>
    cases step with
    | work id e w made step =>
      cases e with
      | collected y => exact List.prefix_append _ _
      | silent | skipped | invoked | finished | triggered => exact List.prefix_rfl
    | resume | retire => exact List.prefix_rfl
    | release id made pc filled => exact hsame (release_tokensOnly _).log
    | giveBack id made pc => exact hsame (giveBack_poolsOnly cfg id).log
  | pool step => exact hsame step.poolsOnly.log
  | env step => cases step <;> exact List.prefix_rfl
  | drain step => cases step <;> exact List.prefix_rfl

/-- A step dispatches the item that waits for its token, or no item. -/
theorem Step.dispatched (step : Step cfg .process s s') :
    (∃ w, s.dispatcher.undispatched = some w ∧
      s'.log.dispatched = s.log.dispatched ++ [ident w] ∧ s'.dispatcher.undispatched = none) ∨
    s'.log.dispatched = s.log.dispatched ∧ ∀ w, s'.dispatcher.undispatched = some w →
      s.dispatcher.undispatched = some w ∨ s.dispatcher = .idle ∧ s'.dispatcher = .acquiring w := by
  have hsame : ∀ {t : Demux T}, t.log = s.log → t.dispatcher = s.dispatcher →
      t.log.dispatched = s.log.dispatched ∧ ∀ w, t.dispatcher.undispatched = some w →
        s.dispatcher.undispatched = some w ∨ s.dispatcher = .idle ∧ t.dispatcher = .acquiring w :=
    fun hlog hd => ⟨congrArg Log.dispatched hlog, fun w hw => .inl (hd ▸ hw)⟩
  cases step with
  | dispatch step =>
    cases step with
    | poll w caller ready pc clean =>
      refine .inr ⟨rfl, fun w' hw' => .inr ⟨pc, ?_⟩⟩
      exact congrArg _ (Option.some.inj hw')
    | takeGuard w pc room | takeGuardLate w pc room | takeOverflow w pc room =>
      exact .inl ⟨w, by rw [pc]; rfl, rfl, rfl⟩
    | guardFull w pc full =>
      refine .inr ⟨rfl, fun w' hw' => .inl ?_⟩
      rw [pc]
      exact hw'
    | call w caller | deposit t caller => cases caller
    | acquireTimeout | pipeline | stall | stallExit | stallRetry | missing | insert | hand =>
      exact .inr ⟨rfl, fun w hw => by cases hw⟩
    | borrow w pc =>
      have hpools := borrowWorker_poolsOnly (s := s) (cfg.shardOf w.message.key) .dispatcher
      exact .inr ⟨congrArg Log.dispatched hpools.log, fun w hw => by cases hw⟩
    | settle t pc filled =>
      have hrelease := release_tokensOnly (s := s) t
      exact .inr ⟨congrArg Log.dispatched hrelease.log, fun w hw => by cases hw⟩
  | work step =>
    right
    cases step with
    | work id e w made step =>
      refine ⟨?_, fun w hw => .inl hw⟩
      cases e <;> rfl
    | resume | retire => exact hsame rfl rfl
    | release id made pc filled => exact hsame (release_tokensOnly _).log (release_tokensOnly _).dispatcher
    | giveBack id made pc =>
      exact hsame (giveBack_poolsOnly cfg id).log (giveBack_poolsOnly cfg id).dispatcher
  | pool step => exact .inr (hsame step.poolsOnly.log step.poolsOnly.dispatcher)
  | env step =>
    right
    cases step <;> exact hsame rfl rfl
  | drain step =>
    right
    cases step <;> exact hsame rfl rfl

end Demux

end LlingrDemux.Pipeline
