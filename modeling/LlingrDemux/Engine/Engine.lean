import LlingrDemux.Offset.DrainHandshake
import LlingrDemux.Offset.InFlight
import LlingrDemux.Pipeline.Items
import LlingrDemux.Pipeline.KeyOrder

/-!
# The engine from a poll to the broker's position

One partition of the broker with the committer on one side, the demultiplexer with all its
workers on the other. A polled record of the partition is fetched and enters `Process` in one
step; what `CollectAndCommit` delivers goes into the ingest channel, from where the ingest
goroutine takes it to `processCommit`. Records of other partitions take the same way through the
same workers and the same committer.
-/

namespace LlingrDemux

open Shared Pipeline Offset
set_option autoImplicit false

variable {T : Type}

/-- `polled` lists the calls of `Process`, each with a work item of its own, and `ingested` the
calls of `processCommit`. -/
structure Engine (T : Type) where
  demux : Demux T := .initial
  commitsIn : List (WorkItem T) := []
  world : World T := {}
  polled : List Ident := []
  ingested : List (WorkItem T) := []
  ingest : IngestPc T := .idle

namespace Engine

/-- What has been collected and has not reached `processCommit`. -/
def line (e : Engine T) : List (WorkItem T) := e.ingest.inHand ++ e.commitsIn

/-- `Process` is called with a new work item. -/
def enter (e : Engine T) (item : WorkItem T) : Engine T :=
  { e with
    demux := { e.demux with dispatcher := .acquiring item }
    polled := e.polled ++ [ident item] }

/-- The polling goroutine is in no other call and the item is a fresh one. -/
structure Enters (cfg : Config) (e : Engine T) (item : WorkItem T) : Prop where
  ready : e.demux.Ready cfg
  idle : e.demux.dispatcher = .idle
  clean : item.metrics.traits = {}
  fresh : item.ptr ∉ e.polled.map Ident.ptr

/-- What `CollectAndCommit` delivers in a step of the demultiplexer goes into the channel. -/
def collect (e : Engine T) (s : Demux T) : Engine T :=
  { e with
    demux := s
    commitsIn := e.commitsIn ++ s.log.collected.drop e.demux.log.collected.length }

/-- What an action of the ingest goroutine does to the committer. The condition on a `First` of an
earlier epoch is the one of the partition's own system. Who waits for the token is none of the
engine's parties. -/
inductive Effect (slices : SortFunc (WorkItem T)) (p : Int) (v : World T) :
    IngestAction T → World T → Prop where
  | silent : Effect slices p v .silent v
  | own (w : WorkItem T) (now : Int) (partition : w.partition = p)
      (known : v.phase ≠ .closed → v.unknownBaseline = true → w.first = true →
        ∀ f ∈ v.inFlight, f.item.ptr = w.ptr → f.epoch = v.epoch) :
      Effect slices p v (.processCommit w now) (v.arrive w now)
  | other (w : WorkItem T) (now : Int) (partition : w.partition ≠ p) :
      Effect slices p v (.processCommit w now) (v.otherCall slices (.processCommit w now))
  | flush (order : List Int) (now : Int) (iterates : v.committer.Iterates order) :
      Effect slices p v (.flushGapBuffers order now) (v.flush slices order now)
  | offer : Effect slices p v .offer v

def ingests (e : Engine T) (a : IngestAction T) (pc : IngestPc T) (queue : List (WorkItem T))
    (v : World T) : Engine T :=
  { e with
    commitsIn := queue
    world := v
    ingested := e.ingested ++ a.processed
    ingest := pc }

/-- One step. `broker` is a step of the partition that concerns no work item in flight: the log,
other owners, resets and marks, flushes and ticks. What changes the committer waits for the mutex
that the ingest goroutine holds during a batch. -/
inductive Step (slices : SortFunc (WorkItem T)) (p : Int) (cfg : Config)
    (commitIngestChannelLen : Nat) : Engine T → Engine T → Prop where
  | poll (e : Engine T) (item : WorkItem T) (prev : Prev.PartitionOffsets)
      (enters : e.Enters cfg item) (owned : e.world.phase = .assigned)
      (next : e.world.NextRecord item.offset) (partition : item.partition = p)
      (stamped : e.world.prev.getPrevious p item.offset =
        (prev, .ok (item.previousOffset, item.first))) :
      Step slices p cfg commitIngestChannelLen e
        { e.enter item with world := e.world.fetch item prev }
  | pollOther (e : Engine T) (item : WorkItem T) (enters : e.Enters cfg item)
      (partition : item.partition ≠ p) :
      Step slices p cfg commitIngestChannelLen e (e.enter item)
  | pipeline (e : Engine T) (s : Demux T) (step : Demux.Step cfg .process e.demux s)
      (inside : ∀ w, s.dispatcher = .acquiring w → e.demux.dispatcher = .acquiring w)
      (room : s.log.collected = e.demux.log.collected ∨
        e.commitsIn.length ≤ commitIngestChannelLen) :
      Step slices p cfg commitIngestChannelLen e (e.collect s)
  | ingest (e : Engine T) (a : IngestAction T) (pc : IngestPc T) (queue : List (WorkItem T))
      (v : World T) (move : IngestMove e.ingest e.commitsIn a pc queue)
      (effect : Effect slices p e.world a v) :
      Step slices p cfg commitIngestChannelLen e (e.ingests a pc queue v)
  | broker (e : Engine T) (w : World T) (step : World.Step slices p e.world w)
      (flying : w.inFlight = e.world.inFlight)
      (free : w.committer = e.world.committer ∨ ¬ e.ingest.InLock) :
      Step slices p cfg commitIngestChannelLen e { e with world := w }
  | rebalanceOther (e : Engine T) (call : Call T) (legal : call.Legal e.world.committer)
      (away : call.Avoids p) (none : call.ingested = []) (free : ¬ e.ingest.InLock) :
      Step slices p cfg commitIngestChannelLen e { e with world := e.world.otherCall slices call }

end Engine

def engineSystem (slices : SortFunc (WorkItem T)) (p : Int) (cfg : Config)
    (commitIngestChannelLen : Nat) : System (Engine T) where
  init e := e = {}
  step := Engine.Step slices p cfg commitIngestChannelLen

namespace Engine

/-- A work item of the partition stands for the fetched record behind its pointer; one of
another partition for none. -/
structure Traced (p : Int) (e : Engine T) (x : WorkItem T) : Prop where
  polled : ident x ∈ e.polled
  own : x.partition = p → ∃ f ∈ e.world.history, label f.item = label x
  other : x.partition ≠ p → ∀ f ∈ e.world.history, f.item.ptr ≠ x.ptr

structure Inv (slices : SortFunc (WorkItem T)) (p : Int) (cfg : Config) (e : Engine T) : Prop where
  demux : (demuxSystem T cfg .process).Reachable e.demux
  world : (sharedSystem slices p).Reachable e.world
  channel : e.demux.log.collected = e.ingested ++ e.line
  carried : ∀ x, e.demux.Carries x → Traced p e x
  pointers : (e.polled.map Ident.ptr).Nodup
  fetched : (e.world.history.map fun f => ident f.item).Sublist e.polled
  dispatched : (e.demux.log.dispatched ++
    (e.demux.dispatcher.undispatched.map ident).toList).Sublist e.polled
  completed : e.world.completed.map Fetched.item = e.ingested.filter fun w => w.partition = p
  clean : ∀ f ∈ e.world.history, f.item.Clean

section
variable {slices : SortFunc (WorkItem T)} {p : Int} {cfg : Config} {commitIngestChannelLen : Nat}
  {e : Engine T} {x w : WorkItem T}

theorem Inv.initial : Inv slices p cfg ({} : Engine T) where
  demux := .init rfl
  world := .init rfl
  channel := rfl
  carried x h := by
    rcases h.at_some with h | ⟨id, h | h⟩ | h <;> cases h
  pointers := List.nodup_nil
  fetched := List.Sublist.refl _
  dispatched := List.Sublist.refl _
  completed := rfl
  clean _ hf := absurd hf List.not_mem_nil

/-- The demultiplexer sees distinct work items. -/
theorem Inv.dispatched_nodup (h : Inv slices p cfg e) : e.demux.log.dispatched.Nodup :=
  (h.dispatched.nodup h.pointers.of_map).sublist (List.sublist_append_left _ _)

/-- A pointer stands for one fetched record. -/
theorem Inv.eq_of_ptr (h : Inv slices p cfg e) {f g : Fetched T} (hf : f ∈ e.world.history)
    (hg : g ∈ e.world.history) (ptr : f.item.ptr = g.item.ptr) : f = g := by
  have hnodup := h.pointers.sublist (h.fetched.map Ident.ptr)
  rw [List.map_map] at hnodup
  exact List.inj_on_of_nodup_map hnodup hf hg ptr

theorem Inv.ptr_polled (h : Inv slices p cfg e) {f : Fetched T} (hf : f ∈ e.world.history) :
    f.item.ptr ∈ e.polled.map Ident.ptr := by
  have hident : ident f.item ∈ e.polled := h.fetched.subset (List.mem_map_of_mem hf)
  exact List.mem_map_of_mem hident

theorem Traced.of_label {y : WorkItem T} (h : Traced p e y) (hl : label y = label x) :
    Traced p e x := by
  have hptr : y.ptr = x.ptr := congrArg (fun l => l.stamp.ptr) hl
  have hpart : y.partition = x.partition := congrArg (fun l => l.stamp.partition) hl
  refine ⟨ident_of_label hl ▸ h.polled, fun hp => ?_, fun hp => ?_⟩
  · obtain ⟨f, hf, hfl⟩ := h.own (hpart.trans hp)
    exact ⟨f, hf, hfl.trans hl⟩
  · rw [← hptr]
    exact h.other (hpart ▸ hp)

/-- The items after a step that does not start a call were traced before. -/
theorem Inv.carried_step (h : Inv slices p cfg e) {s : Demux T}
    (step : Demux.Step cfg .process e.demux s)
    (inside : ∀ w, s.dispatcher = .acquiring w → e.demux.dispatcher = .acquiring w)
    (hx : s.Carries x) : Traced p e x := by
  rcases step.known hx with ⟨y, hy, hl⟩ | ⟨hidle, hacq⟩
  · exact (h.carried y hy).of_label hl
  · exact nomatch hidle.symm.trans (inside x hacq)

theorem Inv.dispatched_step (h : Inv slices p cfg e) {s : Demux T}
    (step : Demux.Step cfg .process e.demux s)
    (inside : ∀ w, s.dispatcher = .acquiring w → e.demux.dispatcher = .acquiring w) :
    (s.log.dispatched ++ (s.dispatcher.undispatched.map ident).toList).Sublist e.polled := by
  have hd := h.dispatched
  rcases step.dispatched with ⟨w, hw, hlog, hnone⟩ | ⟨hlog, hkeep⟩
  · rw [hw] at hd
    rw [hlog, hnone]
    simpa using hd
  · rw [hlog]
    cases hu : s.dispatcher.undispatched with
    | none =>
      rw [Option.map_none, Option.toList_none, List.append_nil]
      exact (List.sublist_append_left _ _).trans hd
    | some w =>
      rcases hkeep w hu with hw | ⟨hidle, hacq⟩
      · rwa [hw] at hd
      · exact nomatch hidle.symm.trans (inside w hacq)

/-- The first item in line is traced. -/
theorem Inv.traced_head (h : Inv slices p cfg e) {rest : List (WorkItem T)}
    (queue : e.line = w :: rest) : Traced p e w := by
  apply h.carried w
  apply Demux.Carries.collected
  rw [h.channel, queue]
  exact List.mem_append_right _ List.mem_cons_self

/-- The item was not ingested before: each work item is collected once. -/
theorem Inv.ident_notMem_ingested (h : Inv slices p cfg e) {rest : List (WorkItem T)}
    (queue : e.line = w :: rest) : ∀ g ∈ e.ingested, ident g ≠ ident w := by
  have hinorder := InOrder.of_lane (Placed.of_reachable h.demux).layout
    (Demux.lane_inv h.demux w.message.key)
  have honce := (hinorder.once h.dispatched_nodup).2
  rw [h.channel, queue, List.map_append, onKey_append] at honce
  intro g hg heq
  have hw : ident w ∈ onKey w.message.key (List.map ident (w :: rest)) :=
    List.mem_filter.mpr ⟨List.mem_cons_self, decide_eq_true rfl⟩
  have hg' : ident w ∈ onKey w.message.key (e.ingested.map ident) :=
    List.mem_filter.mpr ⟨heq ▸ List.mem_map_of_mem hg, decide_eq_true rfl⟩
  exact (List.nodup_append.mp honce).2.2 _ hg' _ hw rfl

/-- The item is in flight, with the stamp it was fetched with. -/
theorem Inv.writable_head (h : Inv slices p cfg e) {rest : List (WorkItem T)}
    (queue : e.line = w :: rest) (partition : w.partition = p) :
    e.world.Writable w ∧ (∀ f ∈ e.world.history, f.item.ptr = w.ptr → label f.item = label w) ∧
      ∃ f ∈ e.world.inFlight, f.item.ptr = w.ptr := by
  obtain ⟨f, hf, hlabel⟩ := (h.traced_head queue).own partition
  have hptr : f.item.ptr = w.ptr := congrArg (fun l => l.stamp.ptr) hlabel
  have hall : ∀ g ∈ e.world.history, g.item.ptr = w.ptr → label g.item = label w :=
    fun g hg hgp => h.eq_of_ptr hg hf (hgp.trans hptr.symm) ▸ hlabel
  have hpending : ∀ g ∈ e.world.completed, g.item.ptr ≠ w.ptr := by
    intro g hg hgp
    have hg' : g.item ∈ e.world.completed.map Fetched.item := List.mem_map_of_mem hg
    rw [h.completed] at hg'
    apply h.ident_notMem_ingested queue g.item (List.mem_filter.mp hg').1
    exact ident_of_label (hall g (World.completed_fetched h.world g hg) hgp)
  refine ⟨⟨fun g hg hgp => congrArg Label.stamp (hall g hg hgp), hpending⟩, hall, f, ?_, hptr⟩
  rcases World.fetched_flying_or_completed h.world f hf with hfly | hdone
  · exact hfly
  · exact absurd hptr (hpending f hdone)

/-- A step of the partition that leaves the items in flight alone fetches and completes none. -/
theorem broker_history {v v' : World T} (step : World.Step slices p v v')
    (flying : v'.inFlight = v.inFlight) : v'.history = v.history ∧ v'.completed = v.completed := by
  cases step with
  | fetch item prev owned next partition stamped fresh =>
    exact absurd (congrArg List.length flying) (by simp [World.fetch])
  | complete before f after now split known =>
    rw [split] at flying
    exact absurd (congrArg List.length flying) (by simp [World.complete])
  | _ => exact ⟨rfl, rfl⟩

/-- The records fetched with the call: the one of the item, or none for another partition. -/
structure Fetches (p : Int) (e : Engine T) (item : WorkItem T) (v : World T) : Prop where
  history : ∃ new : List (Fetched T), v.history = e.world.history ++ new ∧
    (item.partition = p ∧ new.map Fetched.item = [item] ∨ item.partition ≠ p ∧ new = [])
  completed : v.completed = e.world.completed

theorem Traced.enter {item : WorkItem T} {v : World T} (h : Traced p e x)
    (fresh : item.ptr ∉ e.polled.map Ident.ptr) (fetches : Fetches p e item v) :
    Traced p { e.enter item with world := v } x := by
  obtain ⟨new, hnew, hitem⟩ := fetches.history
  refine ⟨List.mem_append_left _ h.polled, fun hp => ?_, fun hp f hf => ?_⟩
  · obtain ⟨f, hf, hl⟩ := h.own hp
    exact ⟨f, hnew ▸ List.mem_append_left _ hf, hl⟩
  · rcases List.mem_append.mp (hnew ▸ hf : f ∈ e.world.history ++ new) with hf | hf
    · exact h.other hp f hf
    · rcases hitem with ⟨_, hitem⟩ | ⟨_, rfl⟩
      · have hf' : f.item ∈ new.map Fetched.item := List.mem_map_of_mem hf
        rw [hitem] at hf'
        rw [List.mem_singleton.mp hf']
        exact fun he => fresh (he ▸ List.mem_map_of_mem (f := Ident.ptr) h.polled)
      · cases hf

theorem Inv.traced_entered (h : Inv slices p cfg e) {item : WorkItem T} {v : World T}
    (fresh : item.ptr ∉ e.polled.map Ident.ptr) (fetches : Fetches p e item v) :
    Traced p { e.enter item with world := v } item := by
  obtain ⟨new, hnew, hitem⟩ := fetches.history
  refine ⟨List.mem_append_right _ List.mem_cons_self, fun hp => ?_, fun hp f hf => ?_⟩
  · rcases hitem with ⟨_, hitem⟩ | ⟨hne, _⟩
    · obtain ⟨f, hf, rfl⟩ := List.mem_map.mp (hitem ▸ List.mem_cons_self : item ∈ new.map Fetched.item)
      exact ⟨f, hnew ▸ List.mem_append_right _ hf, rfl⟩
    · exact absurd hp hne
  · rcases hitem with ⟨heq, _⟩ | ⟨_, rfl⟩
    · exact absurd heq hp
    · rw [List.append_nil] at hnew
      exact fun he => fresh (he ▸ h.ptr_polled (hnew ▸ hf))

theorem Inv.enter (h : Inv slices p cfg e) {item : WorkItem T} (enters : e.Enters cfg item)
    {v : World T} (world : (sharedSystem slices p).Reachable v) (fetches : Fetches p e item v) :
    Inv slices p cfg { e.enter item with world := v } := by
  have hstep : Demux.Step cfg .process e.demux { e.demux with dispatcher := .acquiring item } :=
    .dispatch (.poll e.demux item rfl enters.ready enters.idle (by rw [enters.clean]))
  refine ⟨h.demux.step hstep, world, h.channel, fun x hx => ?_, ?_, ?_, ?_, ?_, ?_⟩
  · rcases hstep.known hx with ⟨y, hy, hl⟩ | ⟨_, hacq⟩
    · exact ((h.carried y hy).of_label hl).enter enters.fresh fetches
    · obtain rfl : item = x := by injection hacq
      exact h.traced_entered enters.fresh fetches
  · show ((e.polled ++ [ident item]).map Ident.ptr).Nodup
    rw [List.map_append]
    apply h.pointers.append (List.nodup_singleton _)
    intro q hq hq'
    obtain rfl := List.mem_singleton.mp hq'
    exact enters.fresh hq
  · obtain ⟨new, hnew, hitem⟩ := fetches.history
    show (v.history.map fun f => ident f.item).Sublist (e.polled ++ [ident item])
    rw [hnew, List.map_append]
    apply h.fetched.append
    rcases hitem with ⟨_, hitem⟩ | ⟨_, rfl⟩
    · rw [show (new.map fun f => ident f.item) = (new.map Fetched.item).map ident by simp, hitem]
      exact List.Sublist.refl _
    · exact List.nil_sublist _
  · have hd := h.dispatched
    rw [enters.idle] at hd
    exact (List.append_nil _ ▸ hd).append (List.Sublist.refl [ident item])
  · exact fetches.completed ▸ h.completed
  · obtain ⟨new, hnew, hitem⟩ := fetches.history
    intro f hf
    rcases List.mem_append.mp (hnew ▸ hf : f ∈ e.world.history ++ new) with hf | hf
    · exact h.clean f hf
    · rcases hitem with ⟨_, hitem⟩ | ⟨_, rfl⟩
      · have hf' : f.item ∈ new.map Fetched.item := List.mem_map_of_mem hf
        rw [hitem, List.mem_singleton] at hf'
        show f.item.metrics.traits.orphaned = false
        rw [hf', enters.clean]
      · cases hf

/-- A step of the demultiplexer inside the calls that have started. -/
theorem Inv.pipeline (h : Inv slices p cfg e) {s : Demux T}
    (step : Demux.Step cfg .process e.demux s)
    (inside : ∀ w, s.dispatcher = .acquiring w → e.demux.dispatcher = .acquiring w) :
    Inv slices p cfg (e.collect s) where
  demux := h.demux.step step
  world := h.world
  channel := by
    have hdrop := List.prefix_iff_eq_append.mp step.collected_extends
    show s.log.collected = e.ingested ++ (e.ingest.inHand ++ (e.commitsIn ++ _))
    rw [← List.append_assoc e.ingest.inHand, ← List.append_assoc, ← line, ← h.channel]
    exact hdrop.symm
  carried x hx := by
    obtain ⟨hpolled, hown, hother⟩ := h.carried_step step inside hx
    exact ⟨hpolled, hown, hother⟩
  pointers := h.pointers
  fetched := h.fetched
  dispatched := h.dispatched_step step inside
  completed := h.completed
  clean := h.clean

/-- A step of the committer's side that neither fetches nor completes. -/
theorem Inv.frame (h : Inv slices p cfg e) {v : World T} (world : (sharedSystem slices p).Reachable v)
    (history : v.history = e.world.history) (completed : v.completed = e.world.completed) :
    Inv slices p cfg { e with world := v } where
  demux := h.demux
  world := world
  channel := h.channel
  carried x hx := by
    obtain ⟨hpolled, hown, hother⟩ := h.carried x hx
    exact ⟨hpolled, history ▸ hown, history ▸ hother⟩
  pointers := h.pointers
  fetched := history ▸ h.fetched
  dispatched := h.dispatched
  completed := completed ▸ h.completed
  clean := history ▸ h.clean

section Ingest
variable {pc : IngestPc T} {queue : List (WorkItem T)} {now : Int}

/-- A step of the ingest goroutine moves along the line. -/
theorem Inv.channel_ingests (h : Inv slices p cfg e) {a : IngestAction T} (v : World T)
    (move : IngestMove e.ingest e.commitsIn a pc queue) :
    e.demux.log.collected = (e.ingests a pc queue v).ingested ++ (e.ingests a pc queue v).line := by
  rw [h.channel, line, move.line, ← List.append_assoc]
  rfl

/-- One that calls `processCommit` takes the first item. -/
theorem line_of_move (move : IngestMove e.ingest e.commitsIn (.processCommit w now) pc queue) :
    e.line = w :: (pc.inHand ++ queue) :=
  move.line

/-- One that does not. -/
theorem Inv.ingestFrame (h : Inv slices p cfg e) {a : IngestAction T} {v : World T}
    (move : IngestMove e.ingest e.commitsIn a pc queue) (none : a.processed = [])
    (world : (sharedSystem slices p).Reachable v) (history : v.history = e.world.history)
    (completed : v.completed = e.world.completed) :
    Inv slices p cfg (e.ingests a pc queue v) where
  demux := h.demux
  world := world
  channel := h.channel_ingests v move
  carried x hx := by
    obtain ⟨hpolled, hown, hother⟩ := h.carried x hx
    exact ⟨hpolled, history ▸ hown, history ▸ hother⟩
  pointers := h.pointers
  fetched := history ▸ h.fetched
  dispatched := h.dispatched
  completed := by
    show v.completed.map Fetched.item = (e.ingested ++ a.processed).filter _
    rw [none, List.append_nil, completed, h.completed]
  clean := history ▸ h.clean

theorem Inv.ingestOther (h : Inv slices p cfg e)
    (move : IngestMove e.ingest e.commitsIn (.processCommit w now) pc queue)
    (partition : w.partition ≠ p) :
    Inv slices p cfg (e.ingests (.processCommit w now) pc queue
      (e.world.otherCall slices (.processCommit w now))) where
  demux := h.demux
  world := h.world.step (.other e.world (.processCommit w now) trivial partition)
  channel := h.channel_ingests _ move
  carried x hx := by
    obtain ⟨hpolled, hown, hother⟩ := h.carried x hx
    exact ⟨hpolled, hown, hother⟩
  pointers := h.pointers
  fetched := h.fetched
  dispatched := h.dispatched
  completed := by
    have hw : [w].filter (fun w => w.partition = p) = [] := by simp [partition]
    show e.world.completed.map Fetched.item = (e.ingested ++ [w]).filter _
    rw [List.filter_append, hw, List.append_nil]
    exact h.completed
  clean := h.clean

/-- The arrival of an item is the completion of its record, as the pipeline left it. -/
theorem Inv.arrive_eq (h : Inv slices p cfg e) {rest : List (WorkItem T)} (now : Int)
    (queue : e.line = w :: rest) (partition : w.partition = p) :
    ∃ f ∈ e.world.inFlight, f.item.ptr = w.ptr ∧ ∃ before after,
      (e.world.write w).inFlight = before ++ ⟨f.epoch, w⟩ :: after ∧
      e.world.arrive w now = (e.world.write w).complete before ⟨f.epoch, w⟩ after now := by
  obtain ⟨_, _, f, hf, hptr⟩ := h.writable_head queue partition
  have hflying : (e.world.inFlight.map fun f => f.item.ptr).Nodup := by
    have hnodup := h.pointers.sublist (h.fetched.map Ident.ptr)
    rw [List.map_map] at hnodup
    exact hnodup.sublist ((World.flying_sublist h.world).map _)
  exact ⟨f, hf, hptr, World.arrive_eq_complete hflying hf hptr now⟩

theorem Inv.arrive_step (h : Inv slices p cfg e) {rest : List (WorkItem T)} (now : Int)
    (queue : e.line = w :: rest) (partition : w.partition = p)
    (known : e.world.phase ≠ .closed → e.world.unknownBaseline = true → w.first = true →
      ∀ f ∈ e.world.inFlight, f.item.ptr = w.ptr → f.epoch = e.world.epoch) :
    World.SharedStep slices p (e.world.write w) (e.world.arrive w now) := by
  obtain ⟨f, hf, hptr, before, after, hsplit, harrive⟩ := h.arrive_eq now queue partition
  rw [harrive]
  exact .own (.complete (e.world.write w) before _ after now hsplit
    fun hphase hbase hfirst => known hphase hbase hfirst f hf hptr)

theorem Inv.ingestOwn (h : Inv slices p cfg e)
    (move : IngestMove e.ingest e.commitsIn (.processCommit w now) pc queue)
    (partition : w.partition = p)
    (known : e.world.phase ≠ .closed → e.world.unknownBaseline = true → w.first = true →
      ∀ f ∈ e.world.inFlight, f.item.ptr = w.ptr → f.epoch = e.world.epoch) :
    Inv slices p cfg (e.ingests (.processCommit w now) pc queue (e.world.arrive w now)) := by
  have hline := line_of_move move
  obtain ⟨hwritable, hlabel, _⟩ := h.writable_head hline partition
  -- what is written to the item is none of what the engine traces
  have hwrite : ∀ g ∈ e.world.history, label (g.write w).item = label g.item := by
    intro g hg
    by_cases hgp : g.item.ptr = w.ptr
    · rw [Fetched.write, afterWrite, if_pos hgp, hlabel g hg hgp]
    · rw [Fetched.write_other hgp]
  refine ⟨h.demux, ?_, ?_, fun x hx => ?_, h.pointers, ?_, h.dispatched, ?_, ?_⟩
  · exact (World.reachable_write h.world hwritable).step (h.arrive_step now hline partition known)
  · exact h.channel_ingests _ move
  · obtain ⟨hpolled, hown, hother⟩ := h.carried x hx
    refine ⟨hpolled, fun hp => ?_, fun hp g hg => ?_⟩
    · obtain ⟨g, hg, hl⟩ := hown hp
      exact ⟨g.write w, List.mem_map_of_mem hg, (hwrite g hg).trans hl⟩
    · obtain ⟨g', hg', rfl⟩ := List.mem_map.mp hg
      exact fun he => hother hp g' hg' (afterWrite_ptr.symm.trans he)
  · have hsame : ((e.world.history.map (Fetched.write w)).map fun g => ident g.item) =
        e.world.history.map fun g => ident g.item := by
      rw [List.map_map]
      exact List.map_congr_left fun g hg => ident_of_label (hwrite g hg)
    exact hsame ▸ h.fetched
  · show (e.world.arrive w now).completed.map Fetched.item = (e.ingested ++ [w]).filter _
    obtain ⟨_, _, _, _, _, _, harrive⟩ := h.arrive_eq now hline partition
    have hw : [w].filter (fun w => w.partition = p) = [w] := by simp [partition]
    rw [harrive, List.filter_append, hw, ← h.completed]
    exact List.map_append
  · intro g hg
    obtain ⟨g', hg', rfl⟩ := List.mem_map.mp hg
    exact clean_of_label (hwrite g' hg').symm (h.clean g' hg')

theorem Inv.ingests (h : Inv slices p cfg e) {a : IngestAction T} {v : World T}
    (move : IngestMove e.ingest e.commitsIn a pc queue) (effect : Effect slices p e.world a v) :
    Inv slices p cfg (e.ingests a pc queue v) := by
  cases effect with
  | silent => exact h.ingestFrame move rfl h.world rfl rfl
  | own w now partition known => exact h.ingestOwn move partition known
  | other w now partition => exact h.ingestOther move partition
  | flush order now iterates =>
    exact h.ingestFrame move rfl (h.world.step (.own (.flush e.world order now iterates))) rfl rfl
  | offer => exact h.ingestFrame move rfl h.world rfl rfl

end Ingest

/-- A poll fetches with a work item that nothing else points to. -/
theorem Inv.fetch_step (h : Inv slices p cfg e) {item : WorkItem T} {prev : Prev.PartitionOffsets}
    (enters : e.Enters cfg item) (owned : e.world.phase = .assigned)
    (next : e.world.NextRecord item.offset) (partition : item.partition = p)
    (stamped : e.world.prev.getPrevious p item.offset =
      (prev, .ok (item.previousOffset, item.first))) :
    World.SharedStep slices p e.world (e.world.fetch item prev) := by
  apply World.SharedStep.own
  apply World.Step.fetch e.world item prev owned next partition stamped
  intro g hg he
  obtain ⟨f, hf, hfg⟩ := World.holds_fetched h.world owned hg
  exact enters.fresh (he ▸ hfg ▸ h.ptr_polled hf)

theorem Inv.step (h : Inv slices p cfg e) {e' : Engine T}
    (step : Step slices p cfg commitIngestChannelLen e e') : Inv slices p cfg e' := by
  cases step with
  | poll item prev enters owned next partition stamped =>
    apply h.enter enters
    · exact h.world.step (h.fetch_step enters owned next partition stamped)
    · exact ⟨⟨[⟨e.world.epoch, item⟩], rfl, .inl ⟨partition, rfl⟩⟩, rfl⟩
  | pollOther item enters partition =>
    exact h.enter enters h.world ⟨⟨[], (List.append_nil _).symm, .inr ⟨partition, rfl⟩⟩, rfl⟩
  | pipeline s step inside room => exact h.pipeline step inside
  | ingest a pc queue v move effect => exact h.ingests move effect
  | broker v step flying free =>
    obtain ⟨hhistory, hcompleted⟩ := broker_history step flying
    exact h.frame (h.world.step (.own step)) hhistory hcompleted
  | rebalanceOther call legal away none free =>
    exact h.frame (h.world.step (.other e.world call legal away)) rfl rfl

theorem inv_of_reachable (h : (engineSystem slices p cfg commitIngestChannelLen).Reachable e) :
    Inv slices p cfg e := by
  refine System.invariant (M := engineSystem slices p cfg commitIngestChannelLen)
    (P := Inv slices p cfg) ?_ (fun e e' _ he hstep => he.step hstep) e h
  rintro e rfl
  exact .initial

end

/-! ## A run with two records -/

/-- The first record of partition `0`, of key `a`. -/
def sampleItem : WorkItem Unit :=
  { ptr := 0, message := { partition := 0, offset := 0, key := "a" }, previousOffset := -1,
    first := true }

def sampleDone : WorkItem Unit := processed sampleItem .ok 1 1

/-- The only worker serves the key, with nothing in its channel. -/
def servingA (pc : WorkerPc Unit) : Worker Unit :=
  { shard := 0, partitionKey := "a", pc := pc, place := .serving "a", activatedBy := some .guard }

def demuxA (pc : WorkerPc Unit) (log : Log Unit) : Demux Unit where
  workers := Function.update (fun _ => { shard := 0, place := .stopped }) 0 (servingA pc)
  created := 1
  shards := Function.update (fun _ => {}) 0
    { workers := Function.update (fun _ => none) "a" (some 0), warmup := .ready }
  guard := 1
  log := log

theorem demuxA_step (pc pc' : WorkerPc Unit) (e : Event Unit) {log : Log Unit}
    (step : WorkerStep false (servingA pc) e (servingA pc')) (live : ∀ x, e ≠ .triggered x) :
    Demux.Step .small .process (demuxA pc log) (demuxA pc' (log.record e)) := by
  have hstep : Demux.WorkStep .small (demuxA pc log)
      (((demuxA pc log).setWorker 0 (servingA pc')).record e) :=
    .work (demuxA pc log) 0 e (servingA pc') Nat.zero_lt_one step
  have hsame : ((demuxA pc log).setWorker 0 (servingA pc')).record e = demuxA pc' (log.record e) := by
    apply Demux.ext
    case workers => exact Function.update_idem ..
    case tripped =>
      cases e with
      | triggered x => exact absurd rfl (live x)
      | _ => rfl
    all_goals rfl
  exact hsame ▸ .work hstep

/-- A step of the demultiplexer that delivers nothing to the channel. -/
theorem reachable_quiet {slices : SortFunc (WorkItem T)} {p : Int} {cfg : Config} {n : Nat}
    {d s : Demux T} {commitsIn ingested : List (WorkItem T)} {world : World T} {polled : List Ident}
    {pc : IngestPc T}
    (h : (engineSystem slices p cfg n).Reachable ⟨d, commitsIn, world, polled, ingested, pc⟩)
    (step : Demux.Step cfg .process d s)
    (inside : ∀ w, s.dispatcher = .acquiring w → d.dispatcher = .acquiring w)
    (same : s.log.collected = d.log.collected) :
    (engineSystem slices p cfg n).Reachable ⟨s, commitsIn, world, polled, ingested, pc⟩ := by
  have hstep := h.step (.pipeline _ s step inside (.inl same))
  rw [collect, same, List.drop_length, List.append_nil] at hstep
  exact hstep

def sampleLog : World Unit := (({} : World Unit).append 0).append 1

def sampleReset : World Unit := sampleLog.reset 0 0

def sampleOpened : World Unit := sampleReset.markAssigned 0

theorem sampleOpened_reachable : (engineSystem (SortFunc.insertion _) 0 .small 1).Reachable
    ({ world := sampleOpened } : Engine Unit) := by
  have h0 : (engineSystem (SortFunc.insertion _) 0 .small 1).Reachable ({} : Engine Unit) := .init rfl
  have hfirst := h0.step (.broker _ _ (.append {} 0 le_rfl (by simp)) rfl (.inl rfl))
  have hsecond := hfirst.step (.broker _ sampleLog
    (.append (({} : World Unit).append 0) 1 (by decide) (by decide)) rfl (.inl rfl))
  have hreset := hsecond.step (.broker _ sampleReset (.reset sampleLog 0 rfl (.inl rfl)) rfl (.inr id))
  exact hreset.step (.broker _ sampleOpened (.markAssigned sampleReset rfl) rfl (.inr id))

def sampleFetched : World Unit := sampleOpened.fetch sampleItem (sampleOpened.prev.getPrevious 0 0).1

theorem sampleReceived_reachable :
    (engineSystem (SortFunc.insertion (WorkItem Unit)) 0 .small 1).Reachable
      ⟨demuxA (.received sampleItem) { dispatched := [ident sampleItem] }, [], sampleFetched,
        [ident sampleItem], [], .idle⟩ := by
  have hturn := reachable_quiet sampleOpened_reachable (.pool (.turn _ 0 [] rfl rfl))
    (fun _ hw => hw) rfl
  have hready := reachable_quiet hturn (.pool (.ready _ 0 rfl)) (fun _ hw => hw) rfl
  have hpoll : (engineSystem (SortFunc.insertion (WorkItem Unit)) 0 .small 1).Reachable
      ⟨{ (Demux.initial.setWarmup 0 (.returning [])).setWarmup 0 .ready with
        dispatcher := .acquiring sampleItem }, [], sampleFetched, [ident sampleItem], [], .idle⟩ :=
    hready.step (.poll _ sampleItem _ ⟨Demux.ready_small rfl, rfl, rfl, List.not_mem_nil⟩ rfl
      ⟨by decide, by decide, by decide⟩ rfl rfl)
  have hguard := reachable_quiet hpoll
    (.dispatch (.takeGuard _ _ rfl (show (0 : Int) < 2 by decide))) (fun _ hw => nomatch hw) rfl
  have hmissing := reachable_quiet hguard (.dispatch (.missing _ _ rfl rfl))
    (fun _ hw => nomatch hw) rfl
  have hborrow := reachable_quiet hmissing (.dispatch (.borrow _ _ rfl)) (fun _ hw => nomatch hw) rfl
  have hinsert := reachable_quiet hborrow (.dispatch (.insert _ _ _ rfl))
    (fun _ hw => nomatch hw) rfl
  have hhand := reachable_quiet hinsert (.dispatch (.hand _ _ _ rfl (by decide)))
    (fun _ hw => nomatch hw) rfl
  have hreceive := reachable_quiet hhand
    (.work (.work _ 0 .silent _ (by decide) (.receive _ _ _ rfl rfl))) (fun _ hw => hw) rfl
  have hcast : ∀ {d d' : Demux Unit},
      (engineSystem (SortFunc.insertion (WorkItem Unit)) 0 .small 1).Reachable
        ⟨d, [], sampleFetched, [ident sampleItem], [], .idle⟩ → d = d' →
      (engineSystem (SortFunc.insertion (WorkItem Unit)) 0 .small 1).Reachable
        ⟨d', [], sampleFetched, [ident sampleItem], [], .idle⟩ := fun h he => he ▸ h
  apply hcast hreceive
  apply Demux.ext
  case workers =>
    funext j
    cases j <;> rfl
  case shards =>
    funext j
    cases j <;> rfl
  all_goals rfl

def sampleHandled : Log Unit :=
  { dispatched := [ident sampleItem], invoked := [ident sampleItem],
    outcomes := [(ident sampleItem, true)], collected := [sampleDone] }

/-- `CollectAndCommit` has delivered the item. -/
theorem sampleCollected_reachable :
    (engineSystem (SortFunc.insertion (WorkItem Unit)) 0 .small 1).Reachable
      ⟨demuxA .hot sampleHandled, [sampleDone], sampleFetched, [ident sampleItem], [], .idle⟩ := by
  have hclear := reachable_quiet sampleReceived_reachable
    (demuxA_step (.received sampleItem) (.cleared sampleItem) .silent (.clear _ _ rfl rfl)
      (fun _ he => nomatch he)) (fun _ hw => hw) rfl
  have hinvoke := reachable_quiet hclear
    (demuxA_step (.cleared sampleItem) (.processing sampleItem) (.invoked sampleItem)
      (.invoke _ _ rfl) (fun _ he => nomatch he)) (fun _ hw => hw) rfl
  have hsucceed := reachable_quiet hinvoke
    (demuxA_step (.processing sampleItem) (.committing sampleDone) (.finished sampleItem true)
      (.succeed _ _ 1 1 rfl) (fun _ he => nomatch he)) (fun _ hw => hw) rfl
  exact hsucceed.step (.pipeline _ _
    (demuxA_step (.committing sampleDone) .hot (.collected sampleDone) (.commit _ _ rfl)
      (fun _ he => nomatch he)) (fun _ hw => hw) (.inr (Nat.zero_le 1)))

def sampleArrived : World Unit := sampleFetched.arrive sampleDone 0

theorem sampleArrived_other {q : Int} (hq : q ≠ 0) : sampleArrived.committer.partitionMap q = none := by
  simp [hq, sampleArrived, sampleFetched, sampleOpened, sampleReset, sampleLog, World.arrive,
    World.fetch, World.markAssigned, World.reset, World.append, Committer.markPartitionAssigned,
    Committer.resetCommittedOffsets, Committer.resetPartition, Committer.processCommit, sampleDone,
    sampleItem, processed, WorkItem.partition]

theorem sampleArrived_keyed : sampleArrived.committer.Keyed := by
  have hempty : ({} : Committer Unit).Keyed := by
    intro p t ht
    cases ht
  exact ((hempty.resetCommittedOffsets [(0, 0)]).markPartitionAssigned 0).processCommit sampleDone 0

theorem sampleArrived_iterates : sampleArrived.committer.Iterates [0] :=
  Committer.iterates_singleton (by decide) fun _ => sampleArrived_other

/-- The batch of the one item has been flushed. -/
def sampleCompleted : World Unit := sampleArrived.flush (SortFunc.insertion _) [0] 0

theorem sampleCompleted_iterates : sampleCompleted.committer.Iterates [0] := by
  apply Committer.iterates_singleton
  · decide
  · intro q hq
    refine (Committer.preserves_flushGapBuffers _ sampleArrived_keyed sampleArrived_iterates 0).absent
      q ?_
    exact sampleArrived_other hq

/-- The item has been processed and the ingest goroutine has taken it to `processCommit`. -/
theorem sampleIngested_reachable :
    (engineSystem (SortFunc.insertion (WorkItem Unit)) 0 .small 1).Reachable
      ⟨demuxA .hot sampleHandled, [], sampleCompleted, [ident sampleItem], [sampleDone], .idle⟩ := by
  have hreceive := sampleCollected_reachable.step (.ingest _ _ _ _ _ (.receive _ []) .silent)
  have htick := hreceive.step (.ingest _ _ _ _ _ (.tick _ _) .silent)
  have hlock := htick.step (.ingest _ _ _ _ _ (.lock _ _) .silent)
  have hfirst := hlock.step (.ingest _ _ _ _ _ (.first _ _ 0) (.own sampleDone 0 rfl ?_))
  · have hend := hfirst.step (.ingest _ _ _ _ _ (.endBatch _ _ (.inl rfl)) .silent)
    have hflush := hend.step (.ingest _ _ _ _ _ (.flush _ [0] 0)
      (.flush _ _ sampleArrived_iterates))
    have htest := hflush.step (.ingest _ _ _ _ _ .testEmpty .silent)
    have hoffer := htest.step (.ingest _ _ _ _ _ (.offer _) .offer)
    exact hoffer.step (.ingest _ _ _ _ _ (.unlock _) .silent)
  · intro _ _ _ f hf _
    obtain rfl := List.mem_singleton.mp hf
    rfl

def sampleSecond : WorkItem Unit :=
  { ptr := 1, message := { partition := 0, offset := 1, key := "a" }, previousOffset := 0 }

def sampleFetchedTwo : World Unit :=
  sampleCompleted.fetch sampleSecond (sampleCompleted.prev.getPrevious 0 1).1

/-- The second record is being processed. -/
theorem sampleSecond_reachable :
    (engineSystem (SortFunc.insertion (WorkItem Unit)) 0 .small 1).Reachable
      ⟨demuxA (.processing sampleSecond)
        { sampleHandled with
          dispatched := [ident sampleItem, ident sampleSecond]
          invoked := [ident sampleItem, ident sampleSecond] },
        [], sampleFetchedTwo, [ident sampleItem, ident sampleSecond], [sampleDone], .idle⟩ := by
  have hpoll : (engineSystem (SortFunc.insertion (WorkItem Unit)) 0 .small 1).Reachable
      ⟨{ demuxA .hot sampleHandled with dispatcher := .acquiring sampleSecond }, [], sampleFetchedTwo,
        [ident sampleItem, ident sampleSecond], [sampleDone], .idle⟩ :=
    sampleIngested_reachable.step (.poll _ sampleSecond _
      ⟨Demux.ready_small rfl, rfl, rfl, by decide⟩ rfl ⟨by decide, by decide, by decide⟩ rfl rfl)
  have hguard := reachable_quiet hpoll
    (.dispatch (.takeGuard _ _ rfl (show (1 : Int) < 2 by decide))) (fun _ hw => nomatch hw) rfl
  have hpipeline := reachable_quiet hguard (.dispatch (.pipeline _ _ 0 rfl rfl (by decide)))
    (fun _ hw => nomatch hw) rfl
  have hsettle := reachable_quiet hpipeline
    (.dispatch (.settle _ _ rfl (show (0 : Int) < 2 by decide))) (fun _ hw => nomatch hw) rfl
  have hreceive := reachable_quiet hsettle
    (.work (.work _ 0 .silent _ (by decide) (.receiveHot _ _ _ rfl rfl))) (fun _ hw => hw) rfl
  have hcast : ∀ {d d' : Demux Unit},
      (engineSystem (SortFunc.insertion (WorkItem Unit)) 0 .small 1).Reachable
        ⟨d, [], sampleFetchedTwo, [ident sampleItem, ident sampleSecond], [sampleDone], .idle⟩ → d = d' →
      (engineSystem (SortFunc.insertion (WorkItem Unit)) 0 .small 1).Reachable
        ⟨d', [], sampleFetchedTwo, [ident sampleItem, ident sampleSecond], [sampleDone], .idle⟩ :=
    fun h he => he ▸ h
  have hreceived : (engineSystem (SortFunc.insertion (WorkItem Unit)) 0 .small 1).Reachable
      ⟨demuxA (.received sampleSecond)
        { sampleHandled with dispatched := [ident sampleItem, ident sampleSecond] },
        [], sampleFetchedTwo, [ident sampleItem, ident sampleSecond], [sampleDone], .idle⟩ := by
    apply hcast hreceive
    apply Demux.ext
    case workers =>
      funext j
      cases j <;> rfl
    all_goals rfl
  have hclear := reachable_quiet hreceived
    (demuxA_step (.received sampleSecond) (.cleared sampleSecond) .silent (.clear _ _ rfl rfl)
      (fun _ he => nomatch he)) (fun _ hw => hw) rfl
  exact reachable_quiet hclear
    (demuxA_step (.cleared sampleSecond) (.processing sampleSecond) (.invoked sampleSecond)
      (.invoke _ _ rfl) (fun _ he => nomatch he)) (fun _ hw => hw) rfl

/-- The worker has left the map. -/
theorem sampleRetired_reachable :
    (engineSystem (SortFunc.insertion (WorkItem Unit)) 0 .small 1).Reachable
      ⟨(demuxA .emptied sampleHandled).retire 0, [], sampleCompleted, [ident sampleItem],
        [sampleDone], .idle⟩ := by
  have hempty := reachable_quiet sampleIngested_reachable
    (demuxA_step .hot .emptied .silent (.fallThrough _ rfl rfl) (fun _ he => nomatch he))
    (fun _ hw => hw) rfl
  exact reachable_quiet hempty (.work (.retire _ 0 Nat.zero_lt_one rfl rfl id)) (fun _ hw => hw) rfl

theorem sampleRetired_maps : ∀ i < Config.small.workerShardsCount, ∀ k,
    (((demuxA .emptied sampleHandled).retire 0).shards i).workers k = none := by
  intro i hi k
  rw [show i = 0 from Nat.lt_one_iff.mp hi, Demux.retire_entry]
  by_cases hk : k = "a"
  · rw [if_pos ⟨rfl, hk⟩]
  · rw [if_neg fun hand => hk hand.2]
    show Function.update (fun _ => none) "a" (some 0) k = none
    exact Function.update_of_ne hk _ _

theorem sampleCompleted_commits : World.Commits (SortFunc.insertion _) 0 sampleCompleted
    (sampleCompleted.tick (SortFunc.insertion _) 0 World.sampleTick) :=
  ⟨World.sampleTick, sampleCompleted_iterates, sampleCompleted_iterates, by decide, rfl⟩

end Engine

end LlingrDemux
