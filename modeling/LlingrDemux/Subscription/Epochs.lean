import LlingrDemux.Offset.Preserved
import LlingrDemux.Subscription.Assign

/-!
# Ownership and epoch isolation

A partition that was handed back is not assigned, so no tick commits it. What a tracker
holds was ingested in the partition's current epoch: the revoke mark makes the next reset
discard the leftovers. Before a partition's first assign there is no mark, and its first
epoch inherits what was ingested until then.
-/

namespace LlingrDemux.Rebalance

open Offset OffsetsTracker Shared
set_option autoImplicit false

variable {T : Type}

/-! ## The order of the sections -/

/-- The place of a section in its call. -/
def Action.rank : Action → Nat
  | .offerAssigned | .takeAssigned => 0
  | .resetFirstSeen _ | .drain => 1
  | .resetCommittedOffsets _ => 2
  | .markPartitionAssigned _ | .markPartitionRevoked _ => 3
  | .ackRebalance _ _ => 4
  | .acknowledged => 5

/-- Only the marks of one call share a place. -/
def Action.Precedes (a b : Action) : Prop := a.rank < b.rank ∨ (a.rank = b.rank ∧ a.rank = 3)

theorem marks_ordered {mark : Int → Action} (hmark : ∀ p, (mark p).rank = 3) (ps : List Int) :
    (ps.map mark).Pairwise Action.Precedes := by
  rw [List.pairwise_map]
  apply List.pairwise_of_forall
  intro p q
  exact .inr ⟨(hmark p).trans (hmark q).symm, hmark p⟩

theorem sections_ordered (t : RebalanceType) (info : List RebalanceInfo) :
    (sections t info).Pairwise Action.Precedes := by
  cases t with
  | assign =>
    simp only [sections, List.pairwise_append]
    refine ⟨⟨by simp [Action.Precedes, Action.rank], marks_ordered (fun _ => rfl) _, ?_⟩,
      by simp [Action.Precedes, Action.rank], ?_⟩
    · intro a ha b hb
      obtain ⟨p, _, rfl⟩ := List.mem_map.mp hb
      left
      simp only [List.mem_cons, List.not_mem_nil, or_false] at ha
      rcases ha with rfl | rfl | rfl <;> simp [Action.rank]
    · intro a ha b hb
      left
      simp only [List.mem_append, List.mem_cons, List.not_mem_nil, or_false, List.mem_map] at ha hb
      rcases ha with (rfl | rfl | rfl) | ⟨p, _, rfl⟩ <;> rcases hb with rfl | rfl <;>
        simp [Action.rank]
  | revoke =>
    simp only [sections, List.pairwise_append]
    refine ⟨⟨by simp [Action.Precedes, Action.rank], marks_ordered (fun _ => rfl) _, ?_⟩,
      by simp [Action.Precedes, Action.rank], ?_⟩
    · intro a ha b hb
      obtain ⟨p, _, rfl⟩ := List.mem_map.mp hb
      left
      simp only [List.mem_cons, List.not_mem_nil, or_false] at ha
      rcases ha with rfl | rfl <;> simp [Action.rank]
    · intro a ha b hb
      left
      simp only [List.mem_append, List.mem_cons, List.not_mem_nil, or_false, List.mem_map] at ha hb
      rcases ha with (rfl | rfl) | ⟨p, _, rfl⟩ <;> rcases hb with rfl | rfl <;>
        simp [Action.rank]
  | unsupported code => exact .nil

/-! ## The invariant -/

namespace Session

/-- Never opened, or marked as revoked: the next reset starts from an empty tracker. -/
def Sealed (s : Session T) (p : Int) : Prop :=
  s.epoch p = 0 ∨ ∃ t, s.committer.partitionMap p = some t ∧ t.assignment = .revoke

/-- Ingested in the partition's current epoch, or before its first one. -/
def Current (s : Session T) (p : Int) (st : WorkItem.Stamp) : Prop :=
  (∃ x ∈ s.ingested, x.2.ptr = st.ptr) ∧
    ∀ x ∈ s.ingested, x.2.ptr = st.ptr → x.1 = s.epoch p ∨ (x.1 = 0 ∧ s.epoch p = 1)

/-- What holds of a call in progress. -/
structure Sound (s : Session T) (c : Call) : Prop where
  kind : c.rebalanceType = .assign ∨ c.rebalanceType = .revoke
  listed : ∀ a ∈ c.todo, a ∈ sections c.rebalanceType c.rebalanceInfo
  ordered : c.todo.Pairwise Action.Precedes
  busy : ∀ p ∈ partitions c.rebalanceInfo, s.ownership p = .assigning ∨ s.ownership p = .revoking
  opening : .resetCommittedOffsets c.rebalanceInfo ∈ c.todo →
    ∀ p ∈ partitions c.rebalanceInfo, s.Sealed p
  closing : c.rebalanceType = .revoke → ∀ p ∈ partitions c.rebalanceInfo,
    .markPartitionRevoked p ∉ c.todo → s.Sealed p ∧ s.committer.assigned p = false

structure Inv (s : Session T) : Prop where
  keyed : s.committer.Keyed
  calls : ∀ c ∈ s.calls, s.Sound c
  apart : s.calls.Pairwise fun c d =>
    ∀ p ∈ partitions c.rebalanceInfo, p ∉ partitions d.rebalanceInfo
  resting : ∀ p, s.ownership p = .revoked → s.Sealed p
  released : ∀ p, s.released p = true → s.committer.assigned p = false
  opened : ∀ p, 0 < s.epoch p → (s.committer.partitionMap p).isSome
  current : ∀ p t, s.committer.partitionMap p = some t → AllItems (s.Current p) t

theorem inv_init (topicName : String) : ({ topicName := topicName } : Session T).Inv where
  keyed := by simp [Committer.Keyed]
  calls := by simp
  apart := .nil
  resting := fun _ _ => .inl rfl
  released := by simp
  opened := by simp
  current := by simp

variable {s s' : Session T} {c : Call} {p : Int}

theorem Sound.frame (h : s.Sound c)
    (hown : ∀ p ∈ partitions c.rebalanceInfo, s'.ownership p = s.ownership p)
    (hseal : ∀ p ∈ partitions c.rebalanceInfo, s.Sealed p → s'.Sealed p)
    (hassigned : ∀ p ∈ partitions c.rebalanceInfo, s.committer.assigned p = false →
      s'.committer.assigned p = false) : s'.Sound c where
  kind := h.kind
  listed := h.listed
  ordered := h.ordered
  busy := by
    intro p hp
    rw [hown p hp]
    exact h.busy p hp
  opening := fun hmem p hp => hseal p hp (h.opening hmem p hp)
  closing := by
    intro hrevoke p hp hmem
    obtain ⟨hsealed, hfalse⟩ := h.closing hrevoke p hp hmem
    exact ⟨hseal p hp hsealed, hassigned p hp hfalse⟩

/-- A running call names no resting partition. -/
theorem Inv.not_resting (h : s.Inv) (hc : c ∈ s.calls) {p : Int}
    (hp : p ∈ partitions c.rebalanceInfo) : s.ownership p ≠ .revoked ∧ s.ownership p ≠ .assigned := by
  rcases (h.calls c hc).busy p hp with hb | hb <;> simp [hb]

/-! ## Steps outside a call -/

theorem Inv.begin (h : s.Inv) {t : RebalanceType} {info : List RebalanceInfo} {busy : Ownership}
    (hkind : t = .assign ∨ t = .revoke) (hbusy : busy = .assigning ∨ busy = .revoking)
    (hrest : ∀ p ∈ partitions info, s.ownership p = .revoked ∨ s.ownership p = .assigned)
    (hopening : t = .assign → ∀ p ∈ partitions info, s.ownership p = .revoked) :
    (s.begin t info busy).Inv := by
  have hfresh : ∀ c ∈ s.calls, ∀ p ∈ partitions c.rebalanceInfo, p ∉ partitions info := by
    intro c hc p hp hp'
    obtain ⟨hne, hne'⟩ := h.not_resting hc hp
    rcases hrest p hp' with hr | hr
    · exact hne hr
    · exact hne' hr
  refine ⟨h.keyed, ?_, ?_, ?_, h.released, h.opened, h.current⟩
  · intro c hc
    rcases List.mem_append.mp hc with hc | hc
    · apply (h.calls c hc).frame
      · intro p hp
        exact if_neg (hfresh c hc p hp)
      · exact fun p _ hs => hs
      · exact fun p _ hs => hs
    · rw [List.mem_singleton.mp hc]
      refine ⟨hkind, fun a ha => ha, sections_ordered t info, ?_, ?_, ?_⟩
      · intro p hp
        have hown : (s.begin t info busy).ownership p = busy := if_pos hp
        rw [hown]
        exact hbusy
      · intro hmem p hp
        have hassign : t = .assign := by
          rcases hkind with hk | hk
          · exact hk
          · subst hk
            simp [sections] at hmem
        exact h.resting p (hopening hassign p hp)
      · intro hrevoke p hp hmem
        change t = .revoke at hrevoke
        subst hrevoke
        exact absurd (by simpa [sections] using hp) hmem
  · refine List.pairwise_append.mpr ⟨h.apart, List.pairwise_singleton _ _, ?_⟩
    intro c hc d hd p hp
    rw [List.mem_singleton.mp hd]
    exact hfresh c hc p hp
  · intro p hp
    by_cases hmem : p ∈ partitions info
    · have hown : (s.begin t info busy).ownership p = busy := if_pos hmem
      rw [hown] at hp
      rcases hbusy with hb | hb <;> simp [hb] at hp
    · have hown : (s.begin t info busy).ownership p = s.ownership p := if_neg hmem
      exact h.resting p (hown ▸ hp)

theorem Inv.finish (h : s.Inv) {before after : List Call} (running : s.calls = before ++ c :: after)
    (done : c.todo = []) : (s.finish before c after).Inv := by
  have hc : c ∈ s.calls := by simp [running]
  have hsub : (before ++ after).Sublist s.calls := by
    rw [running]
    exact (List.Sublist.refl before).append (List.sublist_cons_self c after)
  have hapart := h.apart
  rw [running, List.pairwise_append, List.pairwise_cons] at hapart
  obtain ⟨_, ⟨hafter, _⟩, hbefore⟩ := hapart
  have hfresh : ∀ d ∈ before ++ after, ∀ p ∈ partitions d.rebalanceInfo,
      p ∉ partitions c.rebalanceInfo := by
    intro d hd p hp hp'
    rcases List.mem_append.mp hd with hd | hd
    · exact hbefore d hd c List.mem_cons_self p hp hp'
    · exact hafter d hd p hp' hp
  refine ⟨h.keyed, ?_, h.apart.sublist hsub, ?_, h.released, h.opened, h.current⟩
  · intro d hd
    apply (h.calls d (hsub.subset hd)).frame
    · intro p hp
      exact if_neg (hfresh d hd p hp)
    · exact fun p _ hs => hs
    · exact fun p _ hs => hs
  · intro p hp
    by_cases hmem : p ∈ partitions c.rebalanceInfo
    · have hown : (s.finish before c after).ownership p =
          if c.rebalanceType = .assign then .assigned else .revoked := if_pos hmem
      rw [hown] at hp
      rcases (h.calls c hc).kind with hk | hk
      · simp [hk] at hp
      · exact ((h.calls c hc).closing hk p hmem (by simp [done])).1
    · have hown : (s.finish before c after).ownership p = s.ownership p := if_neg hmem
      exact h.resting p (hown ▸ hp)

theorem Sealed.preserves (h : s.Sealed p) (hepoch : s'.epoch p = s.epoch p)
    (htracker : ∀ t, s.committer.partitionMap p = some t →
      ∃ t', s'.committer.partitionMap p = some t' ∧ t'.assignment = t.assignment) : s'.Sealed p := by
  rcases h with h0 | ⟨t, ht, hrev⟩
  · exact .inl (hepoch.trans h0)
  · obtain ⟨t', ht', ha⟩ := htracker t ht
    exact .inr ⟨t', ht', ha.trans hrev⟩

section Preserved
variable (hp : s.committer.Preserves s'.committer) (hepoch : s'.epoch = s.epoch)
include hp hepoch

theorem Sealed.of_preserves (h : s.Sealed p) : s'.Sealed p := by
  apply h.preserves
  · rw [hepoch]
  · intro t ht
    obtain ⟨t', ht', ha, _⟩ := hp.tracker p t ht
    exact ⟨t', ht', ha⟩

theorem Inv.opened_of_preserves (h : s.Inv) :
    ∀ p, 0 < s'.epoch p → (s'.committer.partitionMap p).isSome := by
  intro p hpos
  rw [hepoch] at hpos
  obtain ⟨t, ht⟩ := Option.isSome_iff_exists.mp (h.opened p hpos)
  obtain ⟨t', ht', _⟩ := hp.tracker p t ht
  simp [ht']

theorem Inv.current_of_preserves (h : s.Inv) (hing : s'.ingested = s.ingested) :
    ∀ p t, s'.committer.partitionMap p = some t → AllItems (s'.Current p) t := by
  intro p t' ht'
  have hsame : s'.Current p = s.Current p := by
    unfold Current
    rw [hing, hepoch]
  rw [hsame]
  cases ht : s.committer.partitionMap p with
  | none =>
    rw [hp.absent p ht] at ht'
    cases ht'
  | some t =>
    obtain ⟨t'', ht'', _, hitems⟩ := hp.tracker p t ht
    rw [ht'', Option.some.injEq] at ht'
    subst ht'
    exact hitems _ (h.current p t ht)

end Preserved

/-- Work of the committer under an unchanged record. -/
theorem Inv.preserves (h : s.Inv) (hp : s.committer.Preserves s'.committer)
    (hrecord : s'.toRecord = s.toRecord) (hcalls : s'.calls = s.calls) : s'.Inv := by
  have hepoch : s'.epoch = s.epoch := by rw [hrecord]
  refine ⟨hp.keyed, ?_, ?_, ?_, ?_, h.opened_of_preserves hp hepoch,
    h.current_of_preserves hp hepoch (by rw [hrecord])⟩
  · intro c hc
    rw [hcalls] at hc
    apply (h.calls c hc).frame
    · intro p _
      rw [hrecord]
    · exact fun p _ hs => hs.of_preserves hp hepoch
    · intro p _ hf
      rw [hp.assigned]
      exact hf
  · rw [hcalls]
    exact h.apart
  · intro p hown
    rw [hrecord] at hown
    exact (h.resting p hown).of_preserves hp hepoch
  · intro p hr
    rw [hp.assigned]
    rw [hrecord] at hr
    exact h.released p hr

/-! ## Ingest -/

section Ingest
variable {batch : List (WorkItem T)} (now : WorkItem T → Int)

/-- A batch puts its own items into the trackers and no others. -/
theorem foldl_processCommit_items {Q : Int → WorkItem.Stamp → Prop} (batch : List (WorkItem T))
    (c : Committer T) (hc : ∀ p t, c.partitionMap p = some t → AllItems (Q p) t)
    (hbatch : ∀ w ∈ batch, Q w.partition w.stamp) :
    ∀ p t, (batch.foldl (fun c w => c.processCommit w (now w)) c).partitionMap p = some t →
      AllItems (Q p) t := by
  induction batch generalizing c with
  | nil => exact hc
  | cons w batch ih =>
    apply ih
    · intro p t ht
      by_cases hp : p = w.partition
      · subst hp
        rw [Committer.processCommit_partitionMap_same, Option.some.injEq] at ht
        subst ht
        exact (processCommit_keeps _ (hc w.partition) (hbatch w List.mem_cons_self) (now w)).items
      · rw [Committer.processCommit_partitionMap_other c w (now w) hp] at ht
        exact hc p t ht
    · exact fun v hv => hbatch v (List.mem_cons_of_mem w hv)

theorem foldl_processCommit_tracker (batch : List (WorkItem T)) (c : Committer T) {p : Int}
    {t : OffsetsTracker T} (ht : c.partitionMap p = some t) :
    ∃ t', (batch.foldl (fun c w => c.processCommit w (now w)) c).partitionMap p = some t' ∧
      t'.assignment = t.assignment := by
  induction batch generalizing c t with
  | nil => exact ⟨t, ht, rfl⟩
  | cons w batch ih =>
    by_cases hp : p = w.partition
    · subst hp
      have hsame := Committer.processCommit_partitionMap_same c w (now w)
      rw [ht] at hsame
      obtain ⟨t', ht', ha⟩ := ih (c.processCommit w (now w)) hsame
      exact ⟨t', ht', ha.trans (processCommit_assignment t w (now w))⟩
    · apply ih (c.processCommit w (now w))
      rw [Committer.processCommit_partitionMap_other c w (now w) hp]
      exact ht

theorem foldl_processCommit_keyed (batch : List (WorkItem T)) {c : Committer T} (hc : c.Keyed) :
    (batch.foldl (fun c w => c.processCommit w (now w)) c).Keyed ∧
      (batch.foldl (fun c w => c.processCommit w (now w)) c).assigned = c.assigned := by
  induction batch generalizing c with
  | nil => exact ⟨hc, rfl⟩
  | cons w batch ih =>
    obtain ⟨hk, ha⟩ := ih (hc.processCommit w (now w))
    exact ⟨hk, ha.trans (Committer.processCommit_assigned c w (now w))⟩

/-- The session after the `processCommit` calls of a batch, before its flush. -/
def collect (s : Session T) (batch : List (WorkItem T)) (now : WorkItem T → Int) : Session T :=
  { s with
    committer := batch.foldl (fun c w => c.processCommit w (now w)) s.committer
    ingested := s.ingested ++ batch.map fun w => (s.epoch w.partition, w) }

theorem Current.collect {st : WorkItem.Stamp} (h : s.Current p st)
    (once : ((s.ingested.map fun x => x.2.ptr) ++ batch.map WorkItem.ptr).Nodup) :
    (s.collect batch now).Current p st := by
  obtain ⟨⟨y, hy, hptr⟩, hall⟩ := h
  refine ⟨⟨y, List.mem_append_left _ hy, hptr⟩, ?_⟩
  intro x hx hxp
  rcases List.mem_append.mp hx with hx | hx
  · exact hall x hx hxp
  · -- an old item is not ingested again
    obtain ⟨w, hw, rfl⟩ := List.mem_map.mp hx
    have hold : w.ptr ∈ s.ingested.map fun x => x.2.ptr :=
      List.mem_map.mpr ⟨y, hy, hptr.trans hxp.symm⟩
    exact absurd rfl ((List.nodup_append.mp once).2.2 _ hold _ (List.mem_map_of_mem hw))

theorem current_of_mem_batch
    (once : ((s.ingested.map fun x => x.2.ptr) ++ batch.map WorkItem.ptr).Nodup)
    {w : WorkItem T} (hw : w ∈ batch) : (s.collect batch now).Current w.partition w.stamp := by
  obtain ⟨_, hnodup, hdisjoint⟩ := List.nodup_append.mp once
  refine ⟨⟨(s.epoch w.partition, w),
    List.mem_append_right _ (List.mem_map.mpr ⟨w, hw, rfl⟩), rfl⟩, ?_⟩
  intro x hx hxp
  rcases List.mem_append.mp hx with hx | hx
  · exact absurd hxp (hdisjoint _ (List.mem_map.mpr ⟨x, hx, rfl⟩) _ (List.mem_map_of_mem hw))
  · obtain ⟨v, hv, rfl⟩ := List.mem_map.mp hx
    obtain rfl : v = w := List.inj_on_of_nodup_map hnodup hv hw hxp
    exact .inl rfl

theorem Inv.collect (h : s.Inv)
    (once : ((s.ingested.map fun x => x.2.ptr) ++ batch.map WorkItem.ptr).Nodup) :
    (s.collect batch now).Inv := by
  obtain ⟨hkeyed, hassigned⟩ := foldl_processCommit_keyed now batch h.keyed
  have hseal : ∀ p, s.Sealed p → (s.collect batch now).Sealed p := by
    intro p hs
    exact hs.preserves rfl fun t ht => foldl_processCommit_tracker now batch s.committer ht
  have hfalse : ∀ p, s.committer.assigned p = false →
      (s.collect batch now).committer.assigned p = false := by
    intro p hf
    exact (congrFun hassigned p).trans hf
  refine ⟨hkeyed, ?_, h.apart, fun p hp => hseal p (h.resting p hp),
    fun p hp => hfalse p (h.released p hp), ?_, ?_⟩
  · intro c hc
    exact (h.calls c hc).frame (fun _ _ => rfl) (fun p _ => hseal p) (fun p _ => hfalse p)
  · intro p hpos
    obtain ⟨t, ht⟩ := Option.isSome_iff_exists.mp (h.opened p hpos)
    obtain ⟨t', ht', _⟩ := foldl_processCommit_tracker now batch s.committer ht
    change ((batch.foldl (fun c w => c.processCommit w (now w)) s.committer).partitionMap p).isSome
    rw [ht']
    rfl
  · apply foldl_processCommit_items now batch s.committer
    · intro p t ht
      have hcur := h.current p t ht
      exact ⟨fun r hr => (hcur.ready r hr).collect now once,
        fun g hg => (hcur.buffer g hg).collect now once⟩
    · intro w hw
      exact current_of_mem_batch now once hw

theorem Inv.ingest (h : s.Inv) (slices : SortFunc (WorkItem T)) {flushTime : Int} {order : List Int}
    (once : ((s.ingested.map fun x => x.2.ptr) ++ batch.map WorkItem.ptr).Nodup)
    (iterates : (batch.foldl (fun c w => c.processCommit w (now w)) s.committer).Iterates order) :
    (s.ingest slices batch now flushTime order).Inv := by
  have hcollect := h.collect now once
  exact hcollect.preserves
    (Committer.preserves_flushGapBuffers slices hcollect.keyed iterates flushTime) rfl rfl

end Ingest

end Session

end LlingrDemux.Rebalance
