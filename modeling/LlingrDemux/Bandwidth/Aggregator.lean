import LlingrDemux.Shared.System
import Mathlib.Data.List.Count
import Mathlib.Data.List.Nodup
import Mathlib.Data.List.Perm.Basic
import Mathlib.Logic.Function.Basic

/-!
# The bandwidth aggregator

Adapter goroutines hand packets to `Receive`, which buffers them; the one that fills the buffer
flushes it, and so do the timer loop and `Stop`. A flush takes the whole buffer under the mutex
and delivers outside of it, so that any number of flushes run side by side. The options and the
texts of the log lines are left out.
-/

namespace LlingrDemux.Bandwidth

open Shared
set_option autoImplicit false

variable {P S : Type}

/-- A packet with the field that `WithService` stamps. -/
structure Packet (P S : Type) where
  body : P
  service : Option S := none
  deriving DecidableEq, Repr

def Packet.stamp (service : Option S) (p : Packet P S) : Packet P S :=
  match service with
  | some v => { p with service := some v }
  | none => p

/-- The goroutines: callers of `Receive`, flush loops that `Start` spawns, callers of `Stop`. -/
inductive Goroutine where
  | receiver (n : Nat)
  | loop (n : Nat)
  | stopper (n : Nat)
  deriving DecidableEq, Repr

/-- `waiting` is the select of the flush loop and `joining` the `wg.Wait` of `Stop`; `flushing`
is before the mutex in `flush`, and `warning` and `delivering` are behind it with packets in
hand. -/
inductive Pc where
  | idle
  | waiting
  | joining
  | flushing
  | warning
  | delivering
  | finished
  deriving DecidableEq, Repr

/-- Where a goroutine goes on when its `flush` returns. -/
def Goroutine.afterFlush : Goroutine → Pc
  | .receiver _ => .idle
  | .loop _ => .waiting
  | .stopper _ => .finished

/-- Behind `wg.Wait`. -/
def Pc.Joined : Pc → Prop
  | .flushing | .warning | .delivering | .finished => True
  | .idle | .waiting | .joining => False

/-- Behind the critical section of `flush`. -/
def Pc.Taken : Pc → Prop
  | .warning | .delivering | .finished => True
  | .idle | .waiting | .joining | .flushing => False

/-- `flushes` has the packets that each running flush still has to deliver. `received` and
`delivered` record what came in and what the sink was called with, and whether it succeeded. -/
structure Aggregator (P S : Type) where
  service : Option S := none
  maxBuffer : Nat := 50
  buffer : List (Packet P S) := []
  quit : Bool := false
  pcs : Goroutine → Pc := fun _ => .idle
  flushes : List (Goroutine × List (Packet P S)) := []
  flushedCount : Nat := 0
  droppedCount : Nat := 0
  warnings : Nat := 0
  received : List (Packet P S) := []
  delivered : List (Packet P S × Bool) := []

namespace Aggregator

def setPc (a : Aggregator P S) (g : Goroutine) (pc : Pc) : Aggregator P S :=
  { a with pcs := Function.update a.pcs g pc }

/-- The packet enters the buffer; the caller that finds it full goes on to flush. -/
def receive (a : Aggregator P S) (n : Nat) (p : Packet P S) : Aggregator P S :=
  let buffer := a.buffer ++ [p.stamp a.service]
  { a.setPc (.receiver n) (if a.maxBuffer ≤ buffer.length then .flushing else .idle) with
    buffer := buffer
    received := a.received ++ [p.stamp a.service] }

/-- A flush takes the buffer. -/
def take (a : Aggregator P S) (g : Goroutine) : Aggregator P S :=
  { a.setPc g .warning with buffer := [], flushes := a.flushes ++ [(g, a.buffer)] }

/-- `warnOnce`. -/
def warn (a : Aggregator P S) (g : Goroutine) : Aggregator P S :=
  { a.setPc g .delivering with
    warnings := if a.service.isNone ∧ a.warnings = 0 then 1 else a.warnings }

/-- One call of the sink. -/
def deliver (a : Aggregator P S) (flushes : List (Goroutine × List (Packet P S)))
    (p : Packet P S) (ok : Bool) : Aggregator P S :=
  { a with
    flushes := flushes
    flushedCount := if ok then a.flushedCount + 1 else a.flushedCount
    droppedCount := if ok then a.droppedCount else a.droppedCount + 1
    delivered := a.delivered ++ [(p, ok)] }

inductive Step : Aggregator P S → Aggregator P S → Prop where
  | receive (a : Aggregator P S) (n : Nat) (p : Packet P S) (pc : a.pcs (.receiver n) = .idle) :
      Step a (a.receive n p)
  | start (a : Aggregator P S) (n : Nat) (pc : a.pcs (.loop n) = .idle) :
      Step a (a.setPc (.loop n) .waiting)
  | tick (a : Aggregator P S) (n : Nat) (pc : a.pcs (.loop n) = .waiting) :
      Step a (a.setPc (.loop n) .flushing)
  | exit (a : Aggregator P S) (n : Nat) (pc : a.pcs (.loop n) = .waiting) (quit : a.quit = true) :
      Step a (a.setPc (.loop n) .finished)
  | stop (a : Aggregator P S) (n : Nat) (pc : a.pcs (.stopper n) = .idle) :
      Step a { a.setPc (.stopper n) .joining with quit := true }
  | join (a : Aggregator P S) (n : Nat) (pc : a.pcs (.stopper n) = .joining)
      (ended : ∀ m, a.pcs (.loop m) = .idle ∨ a.pcs (.loop m) = .finished) :
      Step a (a.setPc (.stopper n) .flushing)
  | skip (a : Aggregator P S) (g : Goroutine) (pc : a.pcs g = .flushing) (empty : a.buffer = []) :
      Step a (a.setPc g g.afterFlush)
  | take (a : Aggregator P S) (g : Goroutine) (pc : a.pcs g = .flushing) (some : a.buffer ≠ []) :
      Step a (a.take g)
  | warn (a : Aggregator P S) (g : Goroutine) (pc : a.pcs g = .warning) : Step a (a.warn g)
  | deliver (a : Aggregator P S) (g : Goroutine)
      (before after : List (Goroutine × List (Packet P S))) (p : Packet P S)
      (rest : List (Packet P S)) (ok : Bool) (pc : a.pcs g = .delivering)
      (hand : a.flushes = before ++ (g, p :: rest) :: after) :
      Step a (a.deliver (before ++ (g, rest) :: after) p ok)
  | done (a : Aggregator P S) (g : Goroutine)
      (before after : List (Goroutine × List (Packet P S))) (pc : a.pcs g = .delivering)
      (hand : a.flushes = before ++ (g, []) :: after) :
      Step a { a.setPc g g.afterFlush with flushes := before ++ after }

end Aggregator

def aggregatorSystem (P S : Type) : System (Aggregator P S) where
  init a := ∃ service, a = { service := service }
  step := Aggregator.Step

namespace Aggregator

variable {a b : Aggregator P S}

/-- The packets that running flushes have in hand. -/
def inFlushes (a : Aggregator P S) : List (Packet P S) := a.flushes.flatMap Prod.snd

structure Inv (a : Aggregator P S) : Prop where
  conserved : a.received.Perm (a.delivered.map Prod.fst ++ (a.inFlushes ++ a.buffer))
  flushed : a.flushedCount = a.delivered.countP Prod.snd
  dropped : a.droppedCount = a.delivered.countP fun x => !x.2
  hands : ∀ x ∈ a.flushes, a.pcs x.1 = .warning ∨ a.pcs x.1 = .delivering
  single : (a.flushes.map Prod.fst).Nodup
  size : a.maxBuffer = 50
  full : a.maxBuffer ≤ a.buffer.length → ∃ n, a.pcs (.receiver n) = .flushing
  stamped : ∀ p ∈ a.received, a.service.isSome → p.service = a.service
  warned : a.warnings ≤ 1 ∧ (0 < a.warnings → a.service = none)

theorem setPc_same (g : Goroutine) (pc : Pc) : (a.setPc g pc).pcs g = pc := Function.update_self ..

theorem setPc_other {g g' : Goroutine} (pc : Pc) (h : g' ≠ g) :
    (a.setPc g pc).pcs g' = a.pcs g' := Function.update_of_ne h ..

/-- A goroutine that has no packets in hand moves on. -/
theorem hands_setPc {g : Goroutine} {pc : Pc}
    (hands : ∀ x ∈ a.flushes, a.pcs x.1 = .warning ∨ a.pcs x.1 = .delivering)
    (before : a.pcs g ≠ .warning ∧ a.pcs g ≠ .delivering) :
    ∀ x ∈ a.flushes, (a.setPc g pc).pcs x.1 = .warning ∨ (a.setPc g pc).pcs x.1 = .delivering := by
  intro x hx
  have hne : x.1 ≠ g := by
    intro he
    rcases hands x hx with h | h
    · exact before.1 (he ▸ h)
    · exact before.2 (he ▸ h)
  rw [setPc_other pc hne]
  exact hands x hx

/-- A receiver that flushes leaves no full buffer behind. -/
theorem full_setPc {g : Goroutine} {pc : Pc} (size : a.maxBuffer = 50)
    (full : a.maxBuffer ≤ a.buffer.length → ∃ n, a.pcs (.receiver n) = .flushing)
    (before : a.pcs g ≠ .flushing ∨ a.buffer = []) :
    a.maxBuffer ≤ a.buffer.length → ∃ n, (a.setPc g pc).pcs (.receiver n) = .flushing := by
  intro hlen
  obtain ⟨n, hn⟩ := full hlen
  rcases before with hne | hempty
  · have hother : .receiver n ≠ g := fun he => hne (he ▸ hn)
    exact ⟨n, (setPc_other pc hother).trans hn⟩
  · rw [size, hempty] at hlen
    exact absurd hlen (Nat.not_succ_le_zero 49)

theorem Inv.move (h : a.Inv) {g : Goroutine} {pc : Pc}
    (before : a.pcs g ≠ .warning ∧ a.pcs g ≠ .delivering)
    (flushed : a.pcs g ≠ .flushing ∨ a.buffer = []) : (a.setPc g pc).Inv :=
  ⟨h.conserved, h.flushed, h.dropped, hands_setPc h.hands before, h.single, h.size,
    full_setPc h.size h.full flushed, h.stamped, h.warned⟩

theorem Inv.receive (h : a.Inv) {n : Nat} (p : Packet P S) (pc : a.pcs (.receiver n) = .idle) :
    (a.receive n p).Inv := by
  refine ⟨?_, h.flushed, h.dropped, hands_setPc h.hands (pc ▸ ⟨nofun, nofun⟩), h.single, h.size, ?_,
    ?_, h.warned⟩
  · have hsnoc := h.conserved.append_right [p.stamp a.service]
    rwa [List.append_assoc, List.append_assoc] at hsnoc
  · intro hlen
    refine ⟨n, (setPc_same _ _).trans ?_⟩
    exact if_pos hlen
  · intro q hq hsome
    rcases List.mem_append.mp hq with hq | hq
    · exact h.stamped q hq hsome
    · obtain rfl := List.mem_singleton.mp hq
      obtain ⟨v, hv⟩ := Option.isSome_iff_exists.mp hsome
      have hservice : a.service = some v := hv
      show (p.stamp a.service).service = a.service
      rw [hservice]
      rfl

theorem Inv.take (h : a.Inv) {g : Goroutine} (pc : a.pcs g = .flushing) : (a.take g).Inv := by
  have hfresh : ∀ x ∈ a.flushes, x.1 ≠ g := by
    intro x hx he
    rcases h.hands x hx with hpc | hpc <;> rw [he, pc] at hpc <;> exact nomatch hpc
  refine ⟨?_, h.flushed, h.dropped, ?_, ?_, h.size, ?_, h.stamped, h.warned⟩
  · have hmoved : (a.take g).inFlushes = a.inFlushes ++ a.buffer := by
      simp [Aggregator.take, inFlushes, List.flatMap_append]
    show a.received.Perm (a.delivered.map Prod.fst ++ ((a.take g).inFlushes ++ []))
    rw [hmoved, List.append_nil]
    exact h.conserved
  · intro x hx
    rcases List.mem_append.mp hx with hx | hx
    · rw [show (a.take g).pcs x.1 = a.pcs x.1 from setPc_other _ (hfresh x hx)]
      exact h.hands x hx
    · obtain rfl := List.mem_singleton.mp hx
      exact .inl (setPc_same _ _)
  · show ((a.flushes ++ [(g, a.buffer)]).map Prod.fst).Nodup
    rw [List.map_append, List.nodup_append]
    refine ⟨h.single, List.nodup_singleton _, ?_⟩
    intro k hk k' hk' he
    obtain ⟨x, hx, rfl⟩ := List.mem_map.mp hk
    exact hfresh x hx (he.trans (List.mem_singleton.mp hk'))
  · intro hlen
    rw [show (a.take g).maxBuffer = 50 from h.size] at hlen
    exact absurd hlen (Nat.not_succ_le_zero 49)

theorem Inv.warn (h : a.Inv) {g : Goroutine} (pc : a.pcs g = .warning) : (a.warn g).Inv := by
  refine ⟨h.conserved, h.flushed, h.dropped, ?_, h.single, h.size,
    full_setPc h.size h.full (.inl (pc ▸ nofun)), h.stamped, ?_⟩
  · intro x hx
    by_cases hg : x.1 = g
    · exact .inr (hg ▸ setPc_same _ _)
    · rw [show (a.warn g).pcs x.1 = a.pcs x.1 from setPc_other _ hg]
      exact h.hands x hx
  · obtain ⟨hle, hnone⟩ := h.warned
    show (if a.service.isNone ∧ a.warnings = 0 then 1 else a.warnings) ≤ 1 ∧
      (0 < (if a.service.isNone ∧ a.warnings = 0 then 1 else a.warnings) → a.service = none)
    split
    · rename_i hfirst
      exact ⟨Nat.le_refl 1, fun _ => Option.isNone_iff_eq_none.mp hfirst.1⟩
    · exact ⟨hle, hnone⟩

theorem Inv.deliver (h : a.Inv) {g : Goroutine} {before after : List (Goroutine × List (Packet P S))}
    {p : Packet P S} {rest : List (Packet P S)} (ok : Bool) (pc : a.pcs g = .delivering)
    (hand : a.flushes = before ++ (g, p :: rest) :: after) :
    (a.deliver (before ++ (g, rest) :: after) p ok).Inv := by
  have hconserved := h.conserved
  have hhands := h.hands
  have hsingle := h.single
  rw [hand] at hhands hsingle
  refine ⟨?_, ?_, ?_, ?_, ?_, h.size, h.full, h.stamped, h.warned⟩
  · -- the delivered packet moves from the hand to the end of the deliveries
    rw [inFlushes, hand, List.flatMap_append, List.flatMap_cons] at hconserved
    refine hconserved.trans ?_
    simp only [Aggregator.deliver, inFlushes, List.map_append, List.map_cons, List.map_nil,
      List.flatMap_append, List.flatMap_cons, List.append_assoc, List.cons_append, List.nil_append]
    exact List.Perm.append_left _ List.perm_middle
  · show (if ok then a.flushedCount + 1 else a.flushedCount) = _
    rw [h.flushed, Aggregator.deliver, List.countP_append]
    cases ok <;> rfl
  · show (if ok then a.droppedCount else a.droppedCount + 1) = _
    rw [h.dropped, Aggregator.deliver, List.countP_append]
    cases ok <;> rfl
  · intro x hx
    rcases List.mem_append.mp hx with hx | hx
    · exact hhands x (List.mem_append_left _ hx)
    · rcases List.mem_cons.mp hx with rfl | hx
      · exact .inr pc
      · exact hhands x (List.mem_append_right _ (List.mem_cons_of_mem _ hx))
  · rw [List.map_append, List.map_cons] at hsingle
    show ((before ++ (g, rest) :: after).map Prod.fst).Nodup
    rw [List.map_append, List.map_cons]
    exact hsingle

theorem Inv.done (h : a.Inv) {g : Goroutine} {before after : List (Goroutine × List (Packet P S))}
    (pc : a.pcs g = .delivering) (hand : a.flushes = before ++ (g, []) :: after) :
    ({ a.setPc g g.afterFlush with flushes := before ++ after } : Aggregator P S).Inv := by
  have hhands := h.hands
  have hsingle := h.single
  rw [hand] at hhands hsingle
  rw [List.map_append, List.map_cons] at hsingle
  refine ⟨?_, h.flushed, h.dropped, ?_, ?_, h.size, full_setPc h.size h.full (.inl (pc ▸ nofun)),
    h.stamped, h.warned⟩
  · have hsame : a.inFlushes = (before ++ after).flatMap Prod.snd := by
      rw [inFlushes, hand, List.flatMap_append, List.flatMap_cons, List.nil_append,
        List.flatMap_append]
    have hconserved := h.conserved
    rw [hsame] at hconserved
    exact hconserved
  · intro x hx
    have hne : x.1 ≠ g := by
      intro he
      have hrest := (List.nodup_cons.mp (List.nodup_middle.mp hsingle)).1
      rw [← List.map_append] at hrest
      exact hrest (List.mem_map.mpr ⟨x, hx, he⟩)
    rw [show ({ a.setPc g g.afterFlush with flushes := before ++ after } : Aggregator P S).pcs x.1 =
      a.pcs x.1 from setPc_other _ hne]
    rcases List.mem_append.mp hx with hx | hx
    · exact hhands x (List.mem_append_left _ hx)
    · exact hhands x (List.mem_append_right _ (List.mem_cons_of_mem _ hx))
  · rw [List.map_append]
    exact (List.nodup_middle.mp hsingle).of_cons

theorem Inv.step (h : a.Inv) (step : Step a b) : b.Inv := by
  cases step with
  | receive n p pc => exact h.receive p pc
  | start n pc | tick n pc | exit n pc | join n pc =>
    exact h.move (pc ▸ ⟨nofun, nofun⟩) (.inl (pc ▸ nofun))
  | stop n pc =>
    have hmove : (a.setPc (.stopper n) .joining).Inv :=
      h.move (pc ▸ ⟨nofun, nofun⟩) (.inl (pc ▸ nofun))
    exact ⟨hmove.conserved, hmove.flushed, hmove.dropped, hmove.hands, hmove.single, hmove.size,
      hmove.full, hmove.stamped, hmove.warned⟩
  | skip g pc empty => exact h.move (pc ▸ ⟨nofun, nofun⟩) (.inr empty)
  | take g pc some => exact h.take pc
  | warn g pc => exact h.warn pc
  | deliver g before after p rest ok pc hand => exact h.deliver ok pc hand
  | done g before after pc hand => exact h.done pc hand

theorem inv_of_reachable (h : (aggregatorSystem P S).Reachable a) : a.Inv := by
  refine System.invariant (P := Inv) ?_ ?_ a h
  · intro a ha
    obtain ⟨service, rfl⟩ := ha
    refine ⟨.nil, rfl, rfl, nofun, .nil, rfl, ?_, nofun, Nat.zero_le 1, nofun⟩
    exact fun hlen => absurd hlen (Nat.not_succ_le_zero 49)
  · exact fun a b _ hinv step => hinv.step step

/-- In every state of every run: each packet received is in the buffer, in the hand of one flush
or was given to the sink once, stamped with the configured service; the counters are the numbers
of successes and failures; a full buffer has a receiver on its way to flush it; and the missing
service is warned about at most once. -/
theorem packets_conserved (a : Aggregator P S) (h : (aggregatorSystem P S).Reachable a) :
    a.received.Perm (a.delivered.map Prod.fst ++ (a.inFlushes ++ a.buffer)) ∧
    a.flushedCount = a.delivered.countP Prod.snd ∧
    a.droppedCount = a.delivered.countP (fun x => !x.2) ∧
    (∀ p ∈ a.received, a.service.isSome → p.service = a.service) ∧
    (50 ≤ a.buffer.length → ∃ n, a.pcs (.receiver n) = .flushing) ∧
    a.warnings ≤ 1 ∧ (0 < a.warnings → a.service = none) := by
  have hinv := inv_of_reachable h
  refine ⟨hinv.conserved, hinv.flushed, hinv.dropped, hinv.stamped, ?_, hinv.warned⟩
  rw [← hinv.size]
  exact hinv.full

/-- Of three packets one was delivered, one is in the hand of the flush loop and one came in
after it had taken the buffer. -/
theorem packets_conserved_sample : ∃ a : Aggregator Nat Nat,
    a.delivered = [(⟨7, some 1⟩, true)] ∧ a.inFlushes = [⟨8, some 1⟩] ∧
      a.buffer = [⟨9, some 1⟩] ∧ a.flushedCount = a.delivered.countP Prod.snd ∧
      ∀ p ∈ a.received, a.service.isSome → p.service = a.service := by
  have hinit : (aggregatorSystem Nat Nat).Reachable { service := some 1 } := .init ⟨_, rfl⟩
  have hseven := hinit.step (Step.receive _ 0 ⟨7, none⟩ rfl)
  have height := hseven.step (Step.receive _ 1 ⟨8, none⟩ rfl)
  have hstart := height.step (Step.start _ 0 rfl)
  have htick := hstart.step (Step.tick _ 0 rfl)
  have htake := htick.step (Step.take _ (.loop 0) rfl (List.cons_ne_nil _ _))
  have hwarn := htake.step (Step.warn _ (.loop 0) rfl)
  have hnine := hwarn.step (Step.receive _ 0 ⟨9, none⟩ rfl)
  have hdeliver := hnine.step
    (Step.deliver _ (.loop 0) [] [] ⟨7, some 1⟩ [⟨8, some 1⟩] true rfl rfl)
  obtain ⟨_, hflushed, _, hstamped, _⟩ := packets_conserved _ hdeliver
  exact ⟨_, rfl, rfl, rfl, hflushed, hstamped⟩

/-! ## After `Stop` -/

/-- A step in which no packet comes in and no further flush loop is started. -/
structure Closing (a b : Aggregator P S) : Prop where
  step : Step a b
  received : b.received = a.received
  loops : ∀ m, a.pcs (.loop m) = .idle → b.pcs (.loop m) = .idle

/-- What the call `n` of `Stop` has made sure of, once no more packets come in. -/
structure Stopping (n : Nat) (a : Aggregator P S) : Prop where
  receivers : ∀ m, a.pcs (.receiver m) = .idle
  ended : (a.pcs (.stopper n)).Joined → ∀ m, a.pcs (.loop m) = .idle ∨ a.pcs (.loop m) = .finished
  taken : (a.pcs (.stopper n)).Taken → a.buffer = []

/-- One goroutine moves on and puts nothing into the buffer. -/
theorem Stopping.move {n : Nat} (h : a.Stopping n) {g : Goroutine} {pc : Pc}
    (pcs : b.pcs = Function.update a.pcs g pc) (buffer : a.buffer = [] → b.buffer = [])
    (outside : ∀ m, g ≠ .receiver m)
    (loop : ∀ m, g = .loop m → a.pcs g ≠ .idle ∧ a.pcs g ≠ .finished)
    (joined : g = .stopper n → pc.Joined →
      ∀ m, a.pcs (.loop m) = .idle ∨ a.pcs (.loop m) = .finished)
    (taken : g = .stopper n → pc.Taken → b.buffer = []) : b.Stopping n := by
  have hother : ∀ g', g' ≠ g → b.pcs g' = a.pcs g' := by
    intro g' hne
    rw [pcs]
    exact Function.update_of_ne hne ..
  have hmine : g = .stopper n → b.pcs (.stopper n) = pc := by
    intro hg
    rw [pcs, ← hg]
    exact Function.update_self ..
  refine ⟨?_, ?_, ?_⟩
  · intro m
    rw [hother _ (outside m).symm]
    exact h.receivers m
  · intro hjoined m
    by_cases hg : g = .stopper n
    · rw [hother _ (by rw [hg]; exact nofun)]
      exact joined hg (hmine hg ▸ hjoined) m
    · rw [hother _ (Ne.symm hg)] at hjoined
      have hended := h.ended hjoined m
      -- a flush loop that moves has not ended
      have hne : .loop m ≠ g := by
        intro he
        rw [he] at hended
        exact hended.elim (loop m he.symm).1 (loop m he.symm).2
      rw [hother _ hne]
      exact hended
  · intro htaken
    by_cases hg : g = .stopper n
    · exact taken hg (hmine hg ▸ htaken)
    · rw [hother _ (Ne.symm hg)] at htaken
      exact buffer (h.taken htaken)

theorem Closing.stopping {n : Nat} (c : Closing a b) (h : a.Stopping n) : b.Stopping n := by
  obtain ⟨step, hreceived, hloops⟩ := c
  have hreceiver : ∀ {g : Goroutine}, a.pcs g ≠ .idle → ∀ m, g ≠ .receiver m := by
    intro g hg m he
    exact hg (he ▸ h.receivers m)
  have hpast : ∀ {g : Goroutine}, (a.pcs g).Joined → g = .stopper n →
      ∀ m, a.pcs (.loop m) = .idle ∨ a.pcs (.loop m) = .finished := by
    intro g hg he
    exact h.ended (he ▸ hg)
  cases step with
  | receive m p pc =>
    have hlonger : (a.received ++ [p.stamp a.service]).length = a.received.length :=
      congrArg List.length hreceived
    rw [List.length_append, List.length_singleton] at hlonger
    exact absurd hlonger (Nat.succ_ne_self _)
  | start m pc =>
    exact nomatch (setPc_same (a := a) (.loop m) .waiting).symm.trans (hloops m pc)
  | tick m pc | exit m pc quit =>
    exact h.move rfl id nofun (fun _ _ => pc ▸ ⟨nofun, nofun⟩) nofun nofun
  | stop m pc => exact h.move rfl id nofun nofun (fun _ hj => hj.elim) (fun _ ht => ht.elim)
  | join m pc ended => exact h.move rfl id nofun nofun (fun _ _ => ended) (fun _ ht => ht.elim)
  | skip g pc empty =>
    exact h.move rfl id (hreceiver (pc ▸ nofun)) (fun _ _ => pc ▸ ⟨nofun, nofun⟩)
      (fun hg _ => hpast (pc ▸ trivial) hg) (fun _ _ => empty)
  | take g pc some =>
    exact h.move rfl (fun _ => rfl) (hreceiver (pc ▸ nofun)) (fun _ _ => pc ▸ ⟨nofun, nofun⟩)
      (fun hg _ => hpast (pc ▸ trivial) hg) (fun _ _ => rfl)
  | warn g pc =>
    exact h.move rfl id (hreceiver (pc ▸ nofun)) (fun _ _ => pc ▸ ⟨nofun, nofun⟩)
      (fun hg _ => hpast (pc ▸ trivial) hg) (fun hg _ => h.taken (by rw [← hg, pc]; trivial))
  | deliver g before after p rest ok pc hand => exact ⟨h.receivers, h.ended, h.taken⟩
  | done g before after pc hand =>
    exact h.move rfl id (hreceiver (pc ▸ nofun)) (fun _ _ => pc ▸ ⟨nofun, nofun⟩)
      (fun hg _ => hpast (pc ▸ trivial) hg) (fun hg _ => h.taken (by rw [← hg, pc]; trivial))

/-- A `Stop` that is called when no `Receive` runs, and along which none starts: when it and all
other calls of `Stop` have returned, every packet received was given to the sink, once, and the
counters add up to them. -/
theorem stop_delivers_all {a₀ a : Aggregator P S} (n : Nat)
    (h : (aggregatorSystem P S).Reachable a₀) (receivers : ∀ m, a₀.pcs (.receiver m) = .idle)
    (idle : a₀.pcs (.stopper n) = .idle) (run : Relation.ReflTransGen Closing a₀ a)
    (returned : a.pcs (.stopper n) = .finished)
    (others : ∀ m, a.pcs (.stopper m) = .idle ∨ a.pcs (.stopper m) = .finished) :
    a.received = a₀.received ∧ a.received.Perm (a.delivered.map Prod.fst) ∧
      a.flushedCount + a.droppedCount = a.received.length := by
  have hrun : (aggregatorSystem P S).Reachable a ∧ a.received = a₀.received ∧ a.Stopping n := by
    clear returned others
    induction run with
    | refl =>
      refine ⟨h, rfl, receivers, ?_, ?_⟩
      · rw [idle]
        exact False.elim
      · rw [idle]
        exact False.elim
    | tail _ c ih => exact ⟨ih.1.step c.step, c.received.trans ih.2.1, c.stopping ih.2.2⟩
  obtain ⟨hreach, hreceived, hstopping⟩ := hrun
  have hinv := inv_of_reachable hreach
  have hbuffer := hstopping.taken (by rw [returned]; trivial)
  -- the goroutines with packets in hand would be receivers, loops or other calls of `Stop`
  have hflushes : a.flushes = [] := by
    apply List.eq_nil_iff_forall_not_mem.mpr
    intro x hx
    have hpc := hinv.hands x hx
    cases hg : x.1 with
    | receiver m =>
      rw [hg, hstopping.receivers m] at hpc
      rcases hpc with hpc | hpc <;> exact nomatch hpc
    | loop m =>
      have hended := hstopping.ended (by rw [returned]; trivial) m
      rw [hg] at hpc
      rcases hended with he | he <;> rw [he] at hpc <;> rcases hpc with hpc | hpc <;>
        exact nomatch hpc
    | stopper m =>
      have hended := others m
      rw [hg] at hpc
      rcases hended with he | he <;> rw [he] at hpc <;> rcases hpc with hpc | hpc <;>
        exact nomatch hpc
  have hconserved := hinv.conserved
  rw [inFlushes, hflushes, hbuffer, List.flatMap_nil, List.nil_append, List.append_nil] at hconserved
  refine ⟨hreceived, hconserved, ?_⟩
  rw [hinv.flushed, hinv.dropped, hconserved.length_eq, List.length_map]
  have hfailed : a.delivered.countP (fun x => !x.2) = a.delivered.countP fun x => ¬x.2 := by
    apply List.countP_congr
    simp
  rw [hfailed]
  exact (List.length_eq_countP_add_countP Prod.snd).symm

/-- A packet comes in, `Stop` is called and the sink fails. -/
theorem stop_delivers_all_sample :
    ∃ a : Aggregator Nat Nat, a.delivered = [(⟨7, some 1⟩, false)] ∧
      a.received.Perm (a.delivered.map Prod.fst) ∧
      a.flushedCount + a.droppedCount = a.received.length := by
  have hinit : (aggregatorSystem Nat Nat).Reachable { service := some 1 } := .init ⟨_, rfl⟩
  have hreach := hinit.step (Step.receive _ 0 ⟨7, none⟩ rfl)
  have hrun := Relation.ReflTransGen.single (r := Closing)
    ⟨Step.stop (Aggregator.receive { service := some 1 } 0 ⟨7, none⟩) 0 rfl, rfl, fun _ => id⟩
  have hjoin := hrun.tail ⟨Step.join _ 0 rfl (fun _ => .inl rfl), rfl, fun _ => id⟩
  have htake := hjoin.tail ⟨Step.take _ (.stopper 0) rfl (List.cons_ne_nil _ _), rfl, fun _ => id⟩
  have hwarn := htake.tail ⟨Step.warn _ (.stopper 0) rfl, rfl, fun _ => id⟩
  have hdeliver := hwarn.tail
    ⟨Step.deliver _ (.stopper 0) [] [] ⟨7, some 1⟩ [] false rfl rfl, rfl, fun _ => id⟩
  have hdone := hdeliver.tail ⟨Step.done _ (.stopper 0) [] [] rfl rfl, rfl, fun _ => id⟩
  refine ⟨_, ?_, (stop_delivers_all 0 hreach ?_ rfl hdone rfl ?_).2⟩
  · rfl
  · intro m
    cases m with
    | zero => rfl
    | succ m => rfl
  · intro m
    cases m with
    | zero => exact .inr rfl
    | succ m => exact .inl rfl

end Aggregator

end LlingrDemux.Bandwidth
