import LlingrDemux.Offset.Committer
import LlingrDemux.Offset.TrackerSpec

/-!
# The capacity of the gap buffers

`flushGapBuffers` cuts the front off a gap buffer and resizes what is left. The loop that
looks for the next capacity has no bound in its header, so it runs on fuel here: with a
`gapBufferSize` of at least one the length of the buffer is enough of it. The tracker's own
model leaves the capacities out; the flush with capacities returns the same trackers.
-/

namespace LlingrDemux.Offset

open Shared
set_option autoImplicit false

/-- A Go slice: its elements and its capacity. -/
structure GoSlice (α : Type) where
  items : List α
  cap : Nat
  fits : items.length ≤ cap

/-- `slices.Grow` promises room for `n` more elements; how much more is up to the runtime. -/
structure GrowFunc where
  run : Nat → Nat → Nat → Nat
  room : ∀ len cap n, len + n ≤ run len cap n

namespace GoSlice
variable {α : Type}

def grow (slices : GrowFunc) (s : GoSlice α) (n : Nat) : GoSlice α where
  items := s.items
  cap := slices.run s.items.length s.cap n
  fits := (Nat.le_add_right _ n).trans (slices.room s.items.length s.cap n)

/-- `s[n:]`. -/
def drop (s : GoSlice α) (n : Nat) : GoSlice α where
  items := s.items.drop n
  cap := s.cap - n
  fits := by
    have := s.fits
    rw [List.length_drop]
    omega

/-- The loop of `resizeGapBuffer` from `i` on. -/
def nextCapacity (gapBufferSize len : Nat) : Nat → Nat → Option { c // len < c }
  | 0, _ => none
  | fuel + 1, i =>
    if h : len < gapBufferSize * i then some ⟨gapBufferSize * i, h⟩
    else nextCapacity gapBufferSize len fuel (i + 1)

def resizeGapBuffer (slices : GrowFunc) (gapBufferSize fuel : Nat) (s : GoSlice α) :
    Option (GoSlice α) :=
  let gapBufferSize70Pct := gapBufferSize * 70 / 100
  if s.cap < gapBufferSize70Pct then some (s.grow slices gapBufferSize)
  else if s.cap > gapBufferSize * 3 then
    -- `make` with the length of the old slice, then `copy`
    (nextCapacity gapBufferSize s.items.length fuel 4).map fun c =>
      ⟨s.items, c.1, Nat.le_of_lt c.2⟩
  else some s

section Loop
variable {gapBufferSize len : Nat}

theorem nextCapacity_spec {fuel i : Nat} {c : { c // len < c }}
    (h : nextCapacity gapBufferSize len fuel i = some c) :
    ∃ j, i ≤ j ∧ c.1 = gapBufferSize * j ∧ ∀ k, i ≤ k → len < gapBufferSize * k → j ≤ k := by
  induction fuel generalizing i with
  | zero => simp [nextCapacity] at h
  | succ fuel ih =>
    rw [nextCapacity] at h
    split at h
    · cases h
      exact ⟨i, le_rfl, rfl, fun k hk _ => hk⟩
    · rename_i hlen
      obtain ⟨j, hij, hc, hleast⟩ := ih h
      refine ⟨j, by omega, hc, ?_⟩
      intro k hik hk
      have hne : k ≠ i := by
        intro heq
        exact hlen (heq ▸ hk)
      exact hleast k (by omega) hk

/-- With a positive step the loop ends before its counter passes the length. -/
theorem nextCapacity_isSome (hsize : 1 ≤ gapBufferSize) (fuel i : Nat) (hfuel : len < i + fuel) :
    ∃ c, nextCapacity gapBufferSize len (fuel + 1) i = some c := by
  induction fuel generalizing i with
  | zero =>
    have hlt : len < gapBufferSize * i := by
      have := Nat.le_mul_of_pos_left i hsize
      omega
    exact ⟨⟨_, hlt⟩, by rw [nextCapacity, dif_pos hlt]⟩
  | succ fuel ih =>
    rw [nextCapacity]
    by_cases hlt : len < gapBufferSize * i
    · exact ⟨⟨_, hlt⟩, by rw [dif_pos hlt]⟩
    · rw [dif_neg hlt]
      exact ih (i + 1) (by omega)

end Loop

/-- What resizing does to a slice. -/
structure Resized (gapBufferSize : Nat) (s s' : GoSlice α) : Prop where
  items : s'.items = s.items
  grown : s.cap < gapBufferSize * 70 / 100 → s.items.length + gapBufferSize ≤ s'.cap
  reallocated : s.cap > gapBufferSize * 3 →
    (∃ i, 4 ≤ i ∧ s.items.length < gapBufferSize * i ∧ s'.cap = gapBufferSize * i ∧
      ∀ k, 4 ≤ k → s.items.length < gapBufferSize * k → i ≤ k) ∧
    s.items.length < s'.cap ∧
    s'.cap ≤ max (4 * gapBufferSize) (s.items.length + gapBufferSize)
  kept : gapBufferSize * 70 / 100 ≤ s.cap → s.cap ≤ gapBufferSize * 3 → s'.cap = s.cap

theorem resizeGapBuffer_resized (slices : GrowFunc) {gapBufferSize : Nat}
    (hsize : 1 ≤ gapBufferSize) (s : GoSlice α) {fuel : Nat} (hfuel : s.items.length < fuel) :
    ∃ s', resizeGapBuffer slices gapBufferSize fuel s = some s' ∧ Resized gapBufferSize s s' := by
  unfold resizeGapBuffer
  by_cases hsmall : s.cap < gapBufferSize * 70 / 100
  · refine ⟨_, if_pos hsmall, rfl, fun _ => slices.room _ _ _, ?_, ?_⟩
    · intro hlarge
      omega
    · intro hnot
      omega
  by_cases hlarge : s.cap > gapBufferSize * 3
  · obtain ⟨n, rfl⟩ := Nat.exists_eq_add_of_lt hfuel
    obtain ⟨c, hc⟩ := nextCapacity_isSome hsize (s.items.length + n) 4
      (show s.items.length < _ by omega)
    obtain ⟨i, hi, hcap, hleast⟩ := nextCapacity_spec hc
    have hlen : s.items.length < gapBufferSize * i := hcap ▸ c.2
    have hbound : c.1 ≤ max (4 * gapBufferSize) (s.items.length + gapBufferSize) := by
      rcases Nat.eq_or_lt_of_le hi with heq | hlt
      · rw [hcap, ← heq, Nat.mul_comm]
        exact le_max_left _ _
      · -- the capacity before this one was too small
        have hprev : gapBufferSize * (i - 1) ≤ s.items.length := by
          by_contra hnot
          have := hleast (i - 1) (by omega) (by omega)
          omega
        have hstep : gapBufferSize * i = gapBufferSize * (i - 1) + gapBufferSize := by
          rw [← Nat.mul_succ]
          congr 1
          omega
        rw [hcap, hstep]
        exact (Nat.add_le_add_right hprev _).trans (le_max_right _ _)
    refine ⟨⟨s.items, c.1, Nat.le_of_lt c.2⟩, ?_, rfl, ?_, ?_, ?_⟩
    · simp only [if_neg hsmall, if_pos hlarge, hc, Option.map_some]
    · exact fun h => absurd h hsmall
    · exact fun _ => ⟨⟨i, hi, hlen, hcap, hleast⟩, c.2, hbound⟩
    · intro _ hle
      omega
  · refine ⟨s, by simp only [if_neg hsmall, if_neg hlarge], rfl, ?_, ?_, fun _ _ => rfl⟩
    · exact fun h => absurd h hsmall
    · exact fun h => absurd h hlarge

/-- The end of `flushGapBuffers`: `advanced` is `advancedOffsetIndex + 1`. -/
def cutFront (slices : GrowFunc) (gapBufferSize fuel : Nat) (s : GoSlice α) (advanced : Nat) :
    Option (GoSlice α) :=
  if advanced = 0 then some s
  else if s.items.length = advanced then some ⟨[], gapBufferSize, Nat.zero_le _⟩
  else (s.drop advanced).resizeGapBuffer slices gapBufferSize fuel

theorem cutFront_items (slices : GrowFunc) {gapBufferSize : Nat} (hsize : 1 ≤ gapBufferSize)
    (s : GoSlice α) (advanced : Nat) {fuel : Nat} (hfuel : s.items.length < fuel) :
    ∃ s', s.cutFront slices gapBufferSize fuel advanced = some s' ∧
      s'.items = s.items.drop advanced := by
  unfold cutFront
  split_ifs with hnone hall
  · exact ⟨s, rfl, by rw [hnone, List.drop_zero]⟩
  · refine ⟨_, rfl, ?_⟩
    rw [← hall, List.drop_length]
  · have hdrop : (s.drop advanced).items.length < fuel := by
      have := List.length_drop (i := advanced) (l := s.items)
      simp only [drop]
      omega
    obtain ⟨s', hs', hresized⟩ := resizeGapBuffer_resized slices hsize (s.drop advanced) hdrop
    exact ⟨s', hs', hresized.items⟩

end GoSlice

variable {T : Type}

/-! ## The flush with capacities -/

/-- A tracker with the capacity of its gap buffer. -/
structure SizedTracker (T : Type) where
  tracker : OffsetsTracker T
  cap : Nat
  fits : tracker.gapBuffer.length ≤ cap

namespace SizedTracker
open OffsetsTracker

/-- Sorting and compacting work in place. -/
def sorted (slices : SortFunc (WorkItem T)) (t : SizedTracker T) : GoSlice (WorkItem T) where
  items := sortGapBuffer slices t.tracker.gapBuffer
  cap := t.cap
  fits := (sortGapBuffer_length_le slices _).trans t.fits

/-- After the walk. -/
def walked (t : SizedTracker T) (ready : Option (WorkItem T)) (s : GoSlice (WorkItem T)) :
    SizedTracker T where
  tracker := { t.tracker with ready := ready, gapBuffer := s.items, needsGapAdvance := false }
  cap := s.cap
  fits := s.fits

/-- One iteration of `flushGapBuffers`. -/
def flush (slices : SortFunc (WorkItem T)) (grow : GrowFunc) (gapBufferSize fuel : Nat)
    (t : SizedTracker T) (now : Int) : Option (SizedTracker T × List (WorkItem T)) :=
  if !t.tracker.needsGapAdvance then some (t, [])
  else if t.tracker.gapBuffer = [] then
    some (⟨{ t.tracker with needsGapAdvance := false }, t.cap, t.fits⟩, [])
  else
    let buffer := t.sorted slices
    let q := walk t.tracker.committedPlusOne t.tracker.lastCommittedOffset now t.tracker.ready
      buffer.items
    (buffer.cutFront grow gapBufferSize fuel (buffer.items.length - q.rest.length)).map fun s =>
      (t.walked q.ready s, q.retired)

variable (slices : SortFunc (WorkItem T)) (grow : GrowFunc) {gapBufferSize : Nat}

/-- The flush ends, with the tracker and the retired items of the model without capacities. -/
theorem flush_eq (hsize : 1 ≤ gapBufferSize) (t : SizedTracker T) (now : Int) {fuel : Nat}
    (hfuel : t.tracker.gapBuffer.length < fuel) :
    ∃ t', t.flush slices grow gapBufferSize fuel now =
        some (t', (t.tracker.flush slices now).2) ∧
      t'.tracker = (t.tracker.flush slices now).1 := by
  unfold flush OffsetsTracker.flush
  split_ifs with hflag hempty
  · exact ⟨t, rfl, rfl⟩
  · exact ⟨_, rfl, rfl⟩
  · have hlength := sortGapBuffer_length_le slices t.tracker.gapBuffer
    have hfuel' : (t.sorted slices).items.length < fuel := lt_of_le_of_lt hlength hfuel
    obtain ⟨s, hs, hitems⟩ := GoSlice.cutFront_items grow hsize (t.sorted slices)
      ((t.sorted slices).items.length - (walk t.tracker.committedPlusOne
        t.tracker.lastCommittedOffset now t.tracker.ready (t.sorted slices).items).rest.length) hfuel'
    rw [← List.suffix_iff_eq_drop.mp (walk_rest_suffix _ _ _ _ _)] at hitems
    refine ⟨t.walked (t.tracker.sortAndWalk slices now).1.ready s, ?_, ?_⟩
    · simp only [hs, Option.map_some]
      rfl
    · simp only [walked, hitems]
      rfl

/-- A flush never makes the buffer longer. -/
theorem flush_length_le (t : OffsetsTracker T) (now : Int) :
    (t.flush slices now).1.gapBuffer.length ≤ t.gapBuffer.length := by
  unfold OffsetsTracker.flush
  split_ifs
  · exact le_rfl
  · exact le_rfl
  · have hrest := (walk_rest_suffix t.committedPlusOne t.lastCommittedOffset now t.ready
      (sortGapBuffer slices t.gapBuffer)).length_le
    exact hrest.trans (sortGapBuffer_length_le slices _)

end SizedTracker

/-- A committer with the capacities of its gap buffers. -/
structure SizedCommitter (T : Type) where
  committer : Committer T
  cap : Int → Nat
  fits : ∀ p t, committer.partitionMap p = some t → t.gapBuffer.length ≤ cap p

namespace SizedCommitter

def store (c : SizedCommitter T) (p : Int) (r : SizedTracker T × List (WorkItem T)) :
    SizedCommitter T where
  committer := c.committer.store p (r.1.tracker, r.2)
  cap := Function.update c.cap p r.1.cap
  fits := by
    intro q t ht
    rw [Committer.store_partitionMap] at ht
    by_cases hq : q = p
    · subst hq
      rw [Function.update_self, Option.some.injEq] at ht
      rw [Function.update_self, ← ht]
      exact r.1.fits
    · rw [Function.update_of_ne hq] at ht ⊢
      exact c.fits q t ht

@[simp] theorem store_committer (c : SizedCommitter T) (p : Int)
    (r : SizedTracker T × List (WorkItem T)) :
    (c.store p r).committer = c.committer.store p (r.1.tracker, r.2) := rfl

def flushPartition (slices : SortFunc (WorkItem T)) (grow : GrowFunc) (gapBufferSize fuel : Nat)
    (now : Int) (c : SizedCommitter T) (p : Int) : Option (SizedCommitter T) :=
  match h : c.committer.partitionMap p with
  | none => some c
  | some t =>
    (SizedTracker.flush slices grow gapBufferSize fuel ⟨t, c.cap p, c.fits p t h⟩ now).map (c.store p)

def flushGapBuffers (slices : SortFunc (WorkItem T)) (grow : GrowFunc) (gapBufferSize fuel : Nat)
    (order : List Int) (now : Int) (c : SizedCommitter T) : Option (SizedCommitter T) :=
  order.foldlM (flushPartition slices grow gapBufferSize fuel now) c

variable (slices : SortFunc (WorkItem T)) (grow : GrowFunc) {gapBufferSize : Nat}

theorem flushPartition_eq (hsize : 1 ≤ gapBufferSize) (c : SizedCommitter T) (p now : Int)
    {fuel : Nat}
    (hfuel : ∀ t, c.committer.partitionMap p = some t → t.gapBuffer.length < fuel) :
    ∃ c', c.flushPartition slices grow gapBufferSize fuel now p = some c' ∧
      c'.committer = c.committer.flushPartition slices now p := by
  unfold flushPartition Committer.flushPartition
  split
  · rename_i hnone
    exact ⟨c, rfl, by rw [hnone]⟩
  · rename_i t ht
    obtain ⟨t', hflush, htracker⟩ :=
      SizedTracker.flush_eq slices grow hsize ⟨t, c.cap p, c.fits p t ht⟩ now (hfuel t ht)
    refine ⟨_, by rw [hflush, Option.map_some], ?_⟩
    rw [ht, store_committer, htracker]

theorem flushPartition_length_le {c : Committer T} {now p q : Int} {t : OffsetsTracker T}
    (h : (c.flushPartition slices now p).partitionMap q = some t) :
    ∃ t₀, c.partitionMap q = some t₀ ∧ t.gapBuffer.length ≤ t₀.gapBuffer.length := by
  unfold Committer.flushPartition at h
  cases hp : c.partitionMap p with
  | none =>
    rw [hp] at h
    exact ⟨t, h, le_rfl⟩
  | some t₀ =>
    rw [hp] at h
    dsimp only at h
    rw [Committer.store_partitionMap] at h
    by_cases hq : q = p
    · subst hq
      rw [Function.update_self, Option.some.injEq] at h
      exact ⟨t₀, hp, h ▸ SizedTracker.flush_length_le slices t₀ now⟩
    · rw [Function.update_of_ne hq] at h
      exact ⟨t, h, le_rfl⟩

/-- The flush of all partitions ends when the fuel covers the longest buffer. -/
theorem flushGapBuffers_eq (hsize : 1 ≤ gapBufferSize) (order : List Int) (now : Int) {fuel : Nat}
    (c : SizedCommitter T) (hfuel : ∀ p ∈ order, ∀ t, c.committer.partitionMap p = some t →
      t.gapBuffer.length < fuel) :
    ∃ c', c.flushGapBuffers slices grow gapBufferSize fuel order now = some c' ∧
      c'.committer = c.committer.flushGapBuffers slices order now := by
  induction order generalizing c with
  | nil => exact ⟨c, rfl, rfl⟩
  | cons p order ih =>
    obtain ⟨c₁, hc₁, hfirst⟩ := flushPartition_eq slices grow hsize c p now
      (hfuel p List.mem_cons_self)
    have hrest : ∀ q ∈ order, ∀ t, c₁.committer.partitionMap q = some t →
        t.gapBuffer.length < fuel := by
      intro q hq t ht
      rw [hfirst] at ht
      obtain ⟨t₀, ht₀, hle⟩ := flushPartition_length_le slices ht
      exact lt_of_le_of_lt hle (hfuel q (List.mem_cons_of_mem p hq) t₀ ht₀)
    obtain ⟨c', hc', heq⟩ := ih c₁ hrest
    refine ⟨c', ?_, ?_⟩
    · rw [flushGapBuffers, List.foldlM_cons, hc₁]
      exact hc'
    · rw [heq, hfirst]
      rfl

/-- The longest gap buffer among the partitions. -/
theorem exists_fuel (c : Committer T) (order : List Int) :
    ∃ bound, ∀ p ∈ order, ∀ t, c.partitionMap p = some t → t.gapBuffer.length < bound := by
  induction order with
  | nil => exact ⟨0, by simp⟩
  | cons p order ih =>
    obtain ⟨bound, hbound⟩ := ih
    refine ⟨max ((c.partitionMap p).elim 0 (·.gapBuffer.length) + 1) bound, ?_⟩
    intro q hq t ht
    rcases List.mem_cons.mp hq with rfl | hq
    · rw [ht]
      exact lt_of_lt_of_le (Nat.lt_succ_self _) (le_max_left _ _)
    · exact lt_of_lt_of_le (hbound q hq t ht) (le_max_right _ _)

end SizedCommitter

/-- Resizing ends, keeps the items and chooses the stated capacity; so the flush of all gap
buffers ends in every state, with the trackers of the model without capacities. -/
theorem gapBuffer_resizing_terminates (slices : SortFunc (WorkItem T)) (grow : GrowFunc)
    {gapBufferSize : Nat} (hsize : 1 ≤ gapBufferSize) :
    (∀ s : GoSlice (WorkItem T), ∀ fuel > s.items.length,
      ∃ s', s.resizeGapBuffer grow gapBufferSize fuel = some s' ∧
        GoSlice.Resized gapBufferSize s s') ∧
    ∀ (c : SizedCommitter T) (order : List Int) (now : Int), ∃ bound, ∀ fuel ≥ bound,
      ∃ c', c.flushGapBuffers slices grow gapBufferSize fuel order now = some c' ∧
        c'.committer = c.committer.flushGapBuffers slices order now := by
  refine ⟨?_, ?_⟩
  · intro s fuel hfuel
    exact GoSlice.resizeGapBuffer_resized grow hsize s hfuel
  · intro c order now
    obtain ⟨bound, hbound⟩ := SizedCommitter.exists_fuel c.committer order
    refine ⟨bound, ?_⟩
    intro fuel hfuel
    apply SizedCommitter.flushGapBuffers_eq slices grow hsize order now c
    intro p hp t ht
    exact lt_of_lt_of_le (hbound p hp t ht) hfuel

/-- A buffer of twelve items and a `gapBufferSize` of three: twelve is an exact multiple, so the
fourth capacity is skipped. -/
theorem gapBuffer_resizing_multiple :
    ∃ s' : GoSlice (WorkItem Unit), (GoSlice.mk (List.replicate 12
        (⟨0, { partition := 0, offset := 0 }, {}, -1, false, 0⟩ : WorkItem Unit)) 20
        (by decide)).resizeGapBuffer ⟨fun len _ n => len + n, fun _ _ _ => le_rfl⟩ 3 13 = some s' ∧
      s'.cap = 15 := by
  obtain ⟨s', hs', hresized⟩ := (gapBuffer_resizing_terminates
    (SortFunc.insertion (WorkItem Unit)) ⟨fun len _ n => len + n, fun _ _ _ => le_rfl⟩
    (by decide : 1 ≤ 3)).1 (GoSlice.mk (List.replicate 12
        (⟨0, { partition := 0, offset := 0 }, {}, -1, false, 0⟩ : WorkItem Unit)) 20
        (by decide)) 13 (by decide)
  obtain ⟨⟨i, hi, hlen, hcap, hleast⟩, _⟩ := hresized.reallocated (by decide)
  refine ⟨s', hs', ?_⟩
  have hle := hleast 5 (by decide) (by decide)
  rw [hcap]
  rw [List.length_replicate] at hlen
  omega

end LlingrDemux.Offset
