import LlingrDemux.Pipeline.Prev
import Mathlib.Data.List.Chain

/-!
# The predecessor chain

Any sequence of `GetPrevious` and `Reset` calls, with the answers the callers got. For each
partition the answers fall into epochs, a new one at every reset that names the partition
or all of them. The accepted offsets of an epoch form a chain: each is stamped with the one
accepted before it.
-/

namespace LlingrDemux.Prev

set_option autoImplicit false

inductive Call where
  | getPrevious (partition partitionOffset : Int)
  | reset (partitions : List Int)
  deriving DecidableEq, Repr

/-- The reset of a partition: by its name, or of all partitions when none is named. -/
def Affects (partitions : List Int) (p : Int) : Prop := partitions = [] ∨ p ∈ partitions

instance (partitions : List Int) (p : Int) : Decidable (Affects partitions p) :=
  inferInstanceAs (Decidable (_ ∨ _))

/-- A call with the answer its caller got; a reset answers nothing. -/
structure Answered where
  call : Call
  answer : Option (Except OffsetError (Int × Bool))

def PartitionOffsets.answer (s : PartitionOffsets) : Call → PartitionOffsets × Answered
  | .getPrevious partition partitionOffset =>
    let r := s.getPrevious partition partitionOffset
    (r.1, ⟨.getPrevious partition partitionOffset, some r.2⟩)
  | .reset partitions => (s.reset partitions, ⟨.reset partitions, none⟩)

/-- A tracker with everything its callers saw. -/
structure Session where
  tracker : PartitionOffsets := {}
  log : List Answered := []

def Session.call (s : Session) (c : Call) : Session where
  tracker := (s.tracker.answer c).1
  log := s.log ++ [(s.tracker.answer c).2]

/-- The calls on a new tracker. -/
def Session.of (calls : List Call) : Session := calls.foldl Session.call {}

/-! ## What the callers see of one partition -/

/-- An accepted offset with its stamps. -/
structure Accepted where
  offset : Int
  previousOffset : Int
  first : Bool
  deriving DecidableEq, Repr

/-- The accepted offsets of a partition, by the resets that affect it. -/
structure Epochs where
  past : List (List Accepted) := []
  current : List Accepted := []
  deriving DecidableEq, Repr

def Epochs.all (e : Epochs) : List (List Accepted) := e.past ++ [e.current]

def Epochs.note (p : Int) (e : Epochs) (a : Answered) : Epochs :=
  match a with
  | ⟨.getPrevious partition offset, some (.ok (previousOffset, first))⟩ =>
    if partition = p then { e with current := e.current ++ [⟨offset, previousOffset, first⟩] } else e
  | ⟨.reset partitions, _⟩ =>
    if Affects partitions p then ⟨e.past ++ [e.current], []⟩ else e
  | ⟨.getPrevious _ _, _⟩ => e

def epochs (p : Int) (log : List Answered) : Epochs := log.foldl (Epochs.note p) {}

/-- The chain of one epoch: its first offset is marked, every later one is stamped with the
one before it. -/
structure Chained (epoch : List Accepted) : Prop where
  nonneg : ∀ a ∈ epoch, 0 ≤ a.offset
  increasing : epoch.Pairwise fun a b => a.offset < b.offset
  head : ∀ a ∈ epoch.head?, a.first = true ∧ a.previousOffset = a.offset - 1
  links : epoch.IsChain fun a b => b.first = false ∧ b.previousOffset = a.offset

namespace Chained
variable {epoch : List Accepted} {a : Accepted}

theorem nil : Chained [] := ⟨by simp, .nil, by simp, .nil⟩

theorem singleton (hoffset : 0 ≤ a.offset) (hfirst : a.first = true)
    (hprevious : a.previousOffset = a.offset - 1) : Chained [a] :=
  ⟨List.forall_mem_singleton.mpr hoffset, List.pairwise_singleton _ _,
    by simp [hfirst, hprevious], .singleton a⟩

/-- The last offset is the highest. -/
theorem le_last (h : Chained epoch) {l : Accepted} (hlast : epoch.getLast? = some l) :
    ∀ b ∈ epoch, b.offset ≤ l.offset := by
  obtain ⟨pre, rfl⟩ := List.getLast?_eq_some_iff.mp hlast
  intro b hb
  rcases List.mem_append.mp hb with hb | hb
  · exact Int.le_of_lt ((List.pairwise_append.mp h.increasing).2.2 b hb l (List.mem_singleton_self l))
  · obtain rfl := List.mem_singleton.mp hb
    exact Int.le_refl _

theorem append (h : Chained epoch) {l : Accepted} (hlast : epoch.getLast? = some l)
    (hlt : l.offset < a.offset) (hfirst : a.first = false)
    (hprevious : a.previousOffset = l.offset) : Chained (epoch ++ [a]) := by
  have hbound := h.le_last hlast
  have hl := h.nonneg l (List.mem_of_getLast? hlast)
  refine ⟨?_, ?_, ?_, ?_⟩
  · intro b hb
    rcases List.mem_append.mp hb with hb | hb
    · exact h.nonneg b hb
    · rw [List.mem_singleton.mp hb]
      omega
  · apply List.pairwise_append.mpr
    refine ⟨h.increasing, List.pairwise_singleton _ _, ?_⟩
    intro b hb c hc
    rw [List.mem_singleton.mp hc]
    exact Int.lt_of_le_of_lt (hbound b hb) hlt
  · have hne : epoch ≠ [] := by
      intro hnil
      simp [hnil] at hlast
    rw [List.head?_append_of_ne_nil _ hne]
    exact h.head
  · apply List.isChain_append.mpr
    refine ⟨h.links, .singleton a, ?_⟩
    intro b hb c hc
    rw [hlast, Option.mem_some_iff] at hb
    simp only [List.head?_cons, Option.mem_some_iff] at hc
    subst hb hc
    exact ⟨hfirst, hprevious⟩

end Chained

/-! ## One call -/

section Calls
variable {s : PartitionOffsets} {partition offset : Int}

/-- A call is rejected for a negative offset or one that is not above the last. -/
theorem PartitionOffsets.getPrevious_error_iff :
    (∃ e, (s.getPrevious partition offset).2 = .error e) ↔
      offset < 0 ∨ ∃ last, s.prevOffsets partition = some last ∧ offset ≤ last := by
  unfold getPrevious
  split_ifs with hneg
  · simp [hneg]
  · cases hlast : s.prevOffsets partition with
    | none => simp [hneg]
    | some last =>
      simp only [hneg, Option.some.injEq, exists_eq_left', false_or]
      split_ifs with hgt heq
      · simp [Int.not_le.mpr hgt]
      · simp [Int.not_lt.mp hgt]
      · simp [Int.not_lt.mp hgt]

/-- A rejected call changes nothing. -/
theorem PartitionOffsets.getPrevious_error {e : OffsetError}
    (h : (s.getPrevious partition offset).2 = .error e) :
    (s.getPrevious partition offset).1 = s := by
  unfold getPrevious at h ⊢
  split_ifs at h ⊢ with hneg
  · rfl
  · cases hlast : s.prevOffsets partition with
    | none => simp [hlast] at h
    | some last =>
      simp only [hlast] at h ⊢
      split_ifs at h ⊢ <;> rfl

end Calls

/-! ## Every sequence of calls -/

/-- The tracker holds the last offset of the partition's current epoch, and all its epochs
are chains. -/
structure Tracks (s : Session) (p : Int) : Prop where
  last : s.tracker.prevOffsets p = (epochs p s.log).current.getLast?.map Accepted.offset
  chained : ∀ epoch ∈ (epochs p s.log).all, Chained epoch

theorem epochs_append (p : Int) (log : List Answered) (a : Answered) :
    epochs p (log ++ [a]) = (epochs p log).note p a := by
  rw [epochs, List.foldl_append, List.foldl_cons, List.foldl_nil, ← epochs]

namespace Tracks
variable {s : Session} {p : Int}

/-- A call that neither moves the partition's tracking nor adds to its epochs. -/
theorem same (h : Tracks s p) {s' : Session}
    (tracker : s'.tracker.prevOffsets p = s.tracker.prevOffsets p)
    (log : epochs p s'.log = epochs p s.log) : Tracks s' p := by
  refine ⟨?_, ?_⟩
  · rw [tracker, log]
    exact h.last
  · rw [log]
    exact h.chained

/-- An accepted offset extends the current epoch. -/
theorem accept (h : Tracks s p) {s' : Session} {a : Accepted} (hoffset : 0 ≤ a.offset)
    (tracker : s'.tracker.prevOffsets p = some a.offset)
    (log : epochs p s'.log = { epochs p s.log with current := (epochs p s.log).current ++ [a] })
    (stamp : (s.tracker.prevOffsets p = none ∧ a.previousOffset = a.offset - 1 ∧ a.first = true) ∨
      (s.tracker.prevOffsets p = some a.previousOffset ∧ a.previousOffset < a.offset ∧
        a.first = false)) : Tracks s' p := by
  have hcurrent : Chained (epochs p s.log).current :=
    h.chained _ (List.mem_append_right _ (List.mem_singleton_self _))
  refine ⟨?_, ?_⟩
  · rw [tracker, log, List.getLast?_append, List.getLast?_singleton, Option.some_or, Option.map_some]
  · rw [log]
    intro epoch hepoch
    rcases List.mem_append.mp hepoch with hpast | hnew
    · exact h.chained epoch (List.mem_append_left _ hpast)
    · rw [List.mem_singleton.mp hnew]
      rcases stamp with ⟨hnone, hprevious, hfirst⟩ | ⟨hsome, hlt, hfirst⟩
      · rw [h.last, Option.map_eq_none_iff, List.getLast?_eq_none_iff] at hnone
        rw [hnone, List.nil_append]
        exact Chained.singleton hoffset hfirst hprevious
      · rw [h.last, Option.map_eq_some_iff] at hsome
        obtain ⟨l, hlast, heq⟩ := hsome
        exact hcurrent.append hlast (by omega) hfirst heq.symm

theorem getPrevious (h : Tracks s p) (partition offset : Int) :
    Tracks (s.call (.getPrevious partition offset)) p := by
  cases hr : (s.tracker.getPrevious partition offset).2 with
  | error e =>
    have hsame := PartitionOffsets.getPrevious_error hr
    apply h.same
    · simp only [Session.call, PartitionOffsets.answer, hsame]
    · simp only [Session.call, PartitionOffsets.answer, hr, epochs_append, Epochs.note]
  | ok r =>
    obtain ⟨previousOffset, first⟩ := r
    obtain ⟨hoffset, htracker, hstamp⟩ := PartitionOffsets.getPrevious_ok (Prod.ext rfl hr)
    by_cases hp : partition = p
    · subst hp
      apply h.accept (a := ⟨offset, previousOffset, first⟩) hoffset
      · simp only [Session.call, PartitionOffsets.answer, htracker, Function.update_self]
      · simp only [Session.call, PartitionOffsets.answer, hr, epochs_append, Epochs.note, if_true]
      · exact hstamp
    · apply h.same
      · simp only [Session.call, PartitionOffsets.answer, htracker,
          Function.update_of_ne (Ne.symm hp)]
      · simp only [Session.call, PartitionOffsets.answer, hr, epochs_append, Epochs.note, if_neg hp]

theorem reset (h : Tracks s p) (partitions : List Int) :
    Tracks (s.call (.reset partitions)) p := by
  by_cases haffects : Affects partitions p
  · have hlog : epochs p (s.call (.reset partitions)).log =
        ⟨(epochs p s.log).past ++ [(epochs p s.log).current], []⟩ := by
      simp only [Session.call, PartitionOffsets.answer, epochs_append, Epochs.note,
        if_pos haffects]
    have htracker : (s.call (.reset partitions)).tracker.prevOffsets p = none := by
      simp only [Session.call, PartitionOffsets.answer, PartitionOffsets.reset]
      rcases haffects with hall | hmem
      · simp [hall]
      · rw [if_neg (List.ne_nil_of_mem hmem)]
        exact if_pos hmem
    refine ⟨?_, ?_⟩
    · rw [htracker, hlog]
      rfl
    · rw [hlog]
      intro epoch hepoch
      rcases List.mem_append.mp hepoch with hpast | hnew
      · exact h.chained epoch hpast
      · rw [List.mem_singleton.mp hnew]
        exact Chained.nil
  · obtain ⟨hne, hmem⟩ := not_or.mp haffects
    apply h.same
    · simp only [Session.call, PartitionOffsets.answer, PartitionOffsets.reset, if_neg hne,
        if_neg hmem]
    · simp only [Session.call, PartitionOffsets.answer, epochs_append, Epochs.note,
        if_neg haffects]

theorem of_calls (calls : List Call) (p : Int) : Tracks (Session.of calls) p := by
  have hrun : ∀ s : Session, Tracks s p → Tracks (calls.foldl Session.call s) p := by
    induction calls with
    | nil => exact fun s h => h
    | cons c calls ih =>
      intro s h
      apply ih
      cases c with
      | getPrevious partition offset => exact h.getPrevious partition offset
      | reset partitions => exact h.reset partitions
  apply hrun
  refine ⟨rfl, ?_⟩
  intro epoch hepoch
  rw [List.mem_singleton.mp hepoch]
  exact Chained.nil

end Tracks

/-- The predecessor chain of every partition over every sequence of calls: its epochs are
chains, and the next call is rejected exactly for an offset that is negative or not above the
last one accepted since the reset, without a trace on any partition. -/
theorem predecessor_chain (calls : List Call) (p : Int) :
    (∀ epoch ∈ (epochs p (Session.of calls).log).all, Chained epoch) ∧
    ∀ offset,
      ((∃ e, ((Session.of calls).tracker.getPrevious p offset).2 = .error e) ↔
        offset < 0 ∨ ∃ last ∈ (epochs p (Session.of calls).log).current.getLast?,
          offset ≤ last.offset) ∧
      ((∃ e, ((Session.of calls).tracker.getPrevious p offset).2 = .error e) →
        ((Session.of calls).tracker.getPrevious p offset).1 = (Session.of calls).tracker) := by
  have h := Tracks.of_calls calls p
  refine ⟨h.chained, ?_⟩
  intro offset
  refine ⟨?_, ?_⟩
  · rw [PartitionOffsets.getPrevious_error_iff, h.last]
    simp only [Option.map_eq_some_iff, Option.mem_def]
    constructor
    · intro hrejected
      apply hrejected.imp_right
      intro ⟨last, ⟨l, hl, heq⟩, hle⟩
      exact ⟨l, hl, heq ▸ hle⟩
    · intro hrejected
      apply hrejected.imp_right
      intro ⟨l, hl, hle⟩
      exact ⟨l.offset, ⟨l, hl, rfl⟩, hle⟩
  · intro ⟨e, he⟩
    exact PartitionOffsets.getPrevious_error he

/-- Two partitions, a duplicate and a reset of one of them. -/
example : epochs 0 (Session.of [.getPrevious 0 5, .getPrevious 1 3, .getPrevious 0 9,
    .getPrevious 0 9, .reset [0], .getPrevious 0 7, .getPrevious 1 4]).log =
    ⟨[[⟨5, 4, true⟩, ⟨9, 5, false⟩]], [⟨7, 6, true⟩]⟩ := by
  decide

end LlingrDemux.Prev
