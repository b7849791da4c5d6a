import LlingrDemux.Offset.Exactness

/-!
# Streams with a given beginning

An epoch has fetched finitely many records. They are the beginning of a stream, with any records
above them for the rest, and what is exact for one such stream is exact for every other: the
watermark looks at the records that have arrived only.
-/

namespace LlingrDemux.Offset.Stream

open Prev
set_option autoImplicit false

variable {T : Type} {p : Int}

/-- What `GetPrevious` has noted of the partition before each record. -/
def marks (p : Int) (item : Nat → WorkItem T) : Nat → PartitionOffsets
  | 0 => {}
  | i + 1 => ⟨Function.update (marks p item i).prevOffsets p (some (item i).offset)⟩

/-- The stamps of the records after a reset. -/
structure Links (item : Nat → WorkItem T) : Prop where
  nonneg : ∀ i, 0 ≤ (item i).offset
  head : (item 0).previousOffset = (item 0).offset - 1 ∧ (item 0).first = true
  next : ∀ i, (item (i + 1)).previousOffset = (item i).offset ∧
    (item i).offset < (item (i + 1)).offset ∧ (item (i + 1)).first = false

theorem marks_stamped {item : Nat → WorkItem T} (links : Links item) (i : Nat) :
    (marks p item i).getPrevious p (item i).offset =
      (marks p item (i + 1), .ok ((item i).previousOffset, (item i).first)) := by
  rw [PartitionOffsets.getPrevious, if_neg (Int.not_lt.mpr (links.nonneg i))]
  cases i with
  | zero =>
    obtain ⟨hprevious, hfirst⟩ := links.head
    rw [hprevious, hfirst]
    rfl
  | succ i =>
    obtain ⟨hprevious, hlt, hfirst⟩ := links.next i
    rw [hprevious, hfirst]
    simp only [marks, Function.update_self]
    rw [if_pos hlt]

def ofLinks (item : Nat → WorkItem T) (links : Links item)
    (partition : ∀ i, (item i).partition = p) (clean : ∀ i, (item i).Clean) : Stream T p where
  item := item
  prev := marks p item
  opened := rfl
  stamped := marks_stamped links
  partition := partition
  clean := clean

theorem links (S : Stream T p) : Links S.item where
  nonneg := S.offset_nonneg
  head := by
    rcases (PartitionOffsets.getPrevious_ok (S.stamped 0)).2.2 with ⟨_, hhead⟩ | ⟨hs, _, _⟩
    · exact hhead
    · rw [S.opened] at hs
      cases hs
  next := S.stamp_succ

/-- The record and the offsets right above it. -/
def followed (item : WorkItem T) : Nat → WorkItem T
  | 0 => item
  | k + 1 =>
    { ptr := 0
      message := { partition := item.partition, offset := item.offset + (k + 1) }
      previousOffset := item.offset + k }

theorem followed_offset (item : WorkItem T) (k : Nat) : (followed item k).offset = item.offset + k := by
  cases k with
  | zero => exact (Int.add_zero _).symm
  | succ k => rfl

theorem followed_next (item : WorkItem T) (k : Nat) :
    (followed item (k + 1)).previousOffset = (followed item k).offset ∧
      (followed item k).offset < (followed item (k + 1)).offset ∧
      (followed item (k + 1)).first = false := by
  rw [followed_offset, followed_offset]
  exact ⟨rfl, by omega, rfl⟩

/-- The first `n` records, then the given one and the offsets above it. -/
def continued (before : Nat → WorkItem T) (n : Nat) (item : WorkItem T) (i : Nat) : WorkItem T :=
  if i < n then before i else followed item (i - n)

section
variable {before : Nat → WorkItem T} {n : Nat} {item : WorkItem T}

theorem continued_before {i : Nat} (h : i < n) : continued before n item i = before i := if_pos h

theorem continued_self : continued before n item n = item := by
  rw [continued, if_neg (Nat.lt_irrefl n), Nat.sub_self]
  rfl

/-- The record is stamped as the one after the first `n`. -/
structure Next (before : Nat → WorkItem T) (n : Nat) (item : WorkItem T) : Prop where
  nonneg : 0 ≤ item.offset
  head : n = 0 → item.previousOffset = item.offset - 1 ∧ item.first = true
  next : ∀ k, n = k + 1 → item.previousOffset = (before k).offset ∧
    (before k).offset < item.offset ∧ item.first = false

theorem links_continued (links : 0 < n → Links before) (next : Next before n item) :
    Links (continued before n item) where
  nonneg i := by
    by_cases hi : i < n
    · rw [continued_before hi]
      exact (links (by omega)).nonneg i
    · have hnonneg := next.nonneg
      rw [continued, if_neg hi, followed_offset]
      omega
  head := by
    by_cases hn : n = 0
    · subst hn
      rw [continued_self]
      exact next.head rfl
    · rw [continued_before (Nat.pos_of_ne_zero hn)]
      exact (links (Nat.pos_of_ne_zero hn)).head
  next i := by
    rcases Nat.lt_trichotomy (i + 1) n with hlt | heq | hgt
    · rw [continued_before hlt, continued_before (Nat.lt_of_succ_lt hlt)]
      exact (links (Nat.zero_lt_of_lt hlt)).next i
    · rw [heq, continued_self, continued_before (heq ▸ Nat.lt_succ_self i)]
      exact next.next i heq.symm
    · have hsub : i + 1 - n = i - n + 1 := by omega
      rw [continued, if_neg (by omega), continued, if_neg (by omega), hsub]
      exact followed_next item (i - n)

theorem exists_continued (links : 0 < n → Links before) (next : Next before n item)
    (partition : ∀ i < n, (before i).partition = p) (own : item.partition = p)
    (clean : ∀ i < n, (before i).Clean) (fresh : item.Clean) :
    ∃ S : Stream T p, (∀ i < n, S.item i = before i) ∧ S.item n = item := by
  refine ⟨ofLinks (continued before n item) (links_continued links next) ?_ ?_,
    fun i hi => continued_before hi, continued_self⟩
  · intro i
    rw [continued]
    split
    · exact partition i ‹_›
    · cases i - n with
      | zero => exact own
      | succ k => exact own
  · intro i
    rw [continued]
    split
    · exact clean i ‹_›
    · cases i - n with
      | zero => exact fresh
      | succ k => rfl

/-- A stream that starts at the given offset. -/
theorem exists_first {x : Int} (nonneg : 0 ≤ x) : ∃ S : Stream T p, S.offset 0 = x := by
  let item : WorkItem T :=
    { ptr := 0, message := { partition := p, offset := x }, previousOffset := x - 1, first := true }
  have hnext : Next (fun _ => item) 0 item := ⟨nonneg, fun _ => ⟨rfl, rfl⟩, fun _ hk => nomatch hk⟩
  obtain ⟨S, _, hS⟩ := exists_continued (p := p) (fun h => absurd h (Nat.lt_irrefl 0)) hnext
    (fun _ _ => rfl) rfl (fun _ _ => rfl) rfl
  exact ⟨S, congrArg WorkItem.offset hS⟩

end

section
variable {S S' : Stream T p} {baseline : Int} {arrived : List Nat} {m : Nat} {t : OffsetsTracker T}

/-- Exactness is about the records that have arrived. -/
theorem Exact.congr (same : ∀ i ∈ arrived, S'.item i = S.item i)
    (h : S.Exact baseline arrived m t) : S'.Exact baseline arrived m t where
  upTo := h.upTo
  zero := h.zero
  at_ := by
    have hat := h.at_
    cases m with
    | zero => exact hat
    | succ n =>
      have hitem := same n (h.upTo n (Nat.lt_succ_self n))
      have hoffset : S'.offset n = S.offset n := congrArg WorkItem.offset hitem
      simp only [At] at hat ⊢
      rw [hitem, hoffset]
      exact hat
  holds := by
    refine ⟨?_, ?_, h.holds.once, h.holds.clean⟩
    · intro g hg
      obtain ⟨i, hi, hmi, hstamp⟩ := h.holds.mem g hg
      exact ⟨i, hi, hmi, (same i hi).symm ▸ hstamp⟩
    · intro i hi hmi
      rw [same i hi]
      exact h.holds.all i hi hmi
  flag := h.flag
  clean := h.clean

/-- Before any record has arrived. -/
theorem Exact.opened (S : Stream T p) (ready : t.ready = none) (buffer : t.gapBuffer = [])
    (last : t.lastCommittedOffset = -1) (base : t.committedPlusOne = baseline) :
    S.Exact baseline [] 0 t where
  upTo i hi := absurd hi (Nat.not_lt_zero i)
  zero _ := List.not_mem_nil
  at_ := ⟨ready, last, base⟩
  holds := by
    rw [buffer]
    exact ⟨fun g hg => absurd hg List.not_mem_nil, fun i hi => absurd hi List.not_mem_nil,
      List.nodup_nil, fun g hg => absurd hg List.not_mem_nil⟩
  flag h := absurd h (Nat.lt_irrefl 0)
  clean r hr := by
    rw [ready] at hr
    cases hr

/-- With nothing arrived the tracker is empty. -/
theorem Exact.empty (h : S.Exact baseline [] m t) : t.ready = none ∧ t.gapBuffer = [] := by
  obtain rfl : m = 0 := by
    by_contra hm
    exact absurd (h.upTo 0 (Nat.pos_of_ne_zero hm)) List.not_mem_nil
  refine ⟨h.at_.1, List.eq_nil_iff_forall_not_mem.mpr fun g hg => ?_⟩
  obtain ⟨i, hi, _⟩ := h.holds.mem g hg
  exact absurd hi List.not_mem_nil

/-- A tick of a partition that is not assigned yet finds nothing to discard. -/
theorem Exact.tick_unassigned (h : S.Exact baseline [] m t) (hbase : baseline ≤ S.offset 0)
    (slices : Shared.SortFunc (WorkItem T)) (k : PartitionTick) :
    ∃ m', S.Exact baseline [] m' (t.tick slices false k).1 := by
  obtain ⟨m', hflush, _, _⟩ := h.flush slices hbase k.flushTime
  obtain ⟨hready, hbuffer⟩ := hflush.empty
  refine ⟨m', ?_⟩
  have hcollect : (t.flush slices k.flushTime).1.collectCommit false k.repairTime =
      ((t.flush slices k.flushTime).1, [], none) := by
    simp [OffsetsTracker.collectCommit, OffsetsTracker.discardOrphanedTracker, hready, hbuffer]
  rw [OffsetsTracker.tick_of_none slices k t (congrArg (fun q => q.2.2) hcollect), hcollect]
  exact hflush

end

end LlingrDemux.Offset.Stream
