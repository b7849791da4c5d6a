import LlingrDemux.Subscription.Epochs

/-!
# Commits stay within ownership and epoch

The sections of a rebalance call keep the invariant of a session, one by one and between
any steps of the other goroutines, so every commit call finds it.
-/

namespace LlingrDemux.Rebalance

open Offset OffsetsTracker Shared
set_option autoImplicit false

variable {T : Type}

namespace Session

variable {s s' : Session T} {c : Call} {p : Int}

/-! ## Sections of a call -/

section Sections
variable {before after : List Call} {a : Action} {rest : List Action}

/-- A section concerns the partitions of its own call only. -/
theorem Inv.advance (h : s.Inv) (running : s.calls = before ++ c :: after) (next : c.todo = a :: rest)
    (hcalls : s'.calls = before ++ { c with todo := rest } :: after)
    (hown : s'.ownership = s.ownership) (keyed : s'.committer.Keyed)
    (outside : ∀ p, p ∉ partitions c.rebalanceInfo → (s.Sealed p → s'.Sealed p) ∧
      s'.committer.assigned p = s.committer.assigned p)
    (opening : .resetCommittedOffsets c.rebalanceInfo ∈ rest →
      ∀ p ∈ partitions c.rebalanceInfo, s'.Sealed p)
    (closing : c.rebalanceType = .revoke → ∀ p ∈ partitions c.rebalanceInfo,
      .markPartitionRevoked p ∉ rest → s'.Sealed p ∧ s'.committer.assigned p = false)
    (released : ∀ p, s'.released p = true → s'.committer.assigned p = false)
    (opened : ∀ p, 0 < s'.epoch p → (s'.committer.partitionMap p).isSome)
    (current : ∀ p t, s'.committer.partitionMap p = some t → AllItems (s'.Current p) t) :
    s'.Inv := by
  have hc : c ∈ s.calls := by simp [running]
  have hsound := h.calls c hc
  have hapart := h.apart
  rw [running, List.pairwise_append, List.pairwise_cons] at hapart
  obtain ⟨hpre, ⟨hafter, hpost⟩, hbefore⟩ := hapart
  have hother : ∀ d ∈ s.calls, (∀ p ∈ partitions d.rebalanceInfo, p ∉ partitions c.rebalanceInfo) →
      s'.Sound d := by
    intro d hd hdisjoint
    apply (h.calls d hd).frame
    · intro p _
      rw [hown]
    · intro p hp
      exact (outside p (hdisjoint p hp)).1
    · intro p hp hf
      rw [(outside p (hdisjoint p hp)).2]
      exact hf
  refine ⟨keyed, ?_, ?_, ?_, released, opened, current⟩
  · intro d hd
    rw [hcalls, List.mem_append, List.mem_cons] at hd
    rcases hd with hd | rfl | hd
    · apply hother d (by simp [running, hd])
      intro p hp hp'
      exact hbefore d hd c List.mem_cons_self p hp hp'
    · refine ⟨hsound.kind, ?_, ?_, ?_, opening, closing⟩
      · intro b hb
        exact hsound.listed b (by rw [next]; exact List.mem_cons_of_mem a hb)
      · have hordered := hsound.ordered
        rw [next, List.pairwise_cons] at hordered
        exact hordered.2
      · intro p hp
        rw [hown]
        exact hsound.busy p hp
    · apply hother d (by simp [running, hd])
      intro p hp hp'
      exact hafter d hd p hp' hp
  · rw [hcalls, List.pairwise_append, List.pairwise_cons]
    refine ⟨hpre, ⟨hafter, hpost⟩, ?_⟩
    intro d hd e he
    rcases List.mem_cons.mp he with rfl | he
    · exact hbefore d hd c List.mem_cons_self
    · exact hbefore d hd e (List.mem_cons_of_mem c he)
  · intro p hp
    rw [hown] at hp
    have hout : p ∉ partitions c.rebalanceInfo := fun hmem => (h.not_resting hc hmem).1 hp
    exact (outside p hout).1 (h.resting p hp)

/-- A section that marks and resets nothing. -/
theorem Inv.quiet (h : s.Inv) (running : s.calls = before ++ c :: after) (next : c.todo = a :: rest)
    (hcalls : s'.calls = before ++ { c with todo := rest } :: after)
    (hmark : ∀ p, a ≠ .markPartitionRevoked p) (hp : s.committer.Preserves s'.committer)
    (hown : s'.ownership = s.ownership) (hepoch : s'.epoch = s.epoch)
    (hing : s'.ingested = s.ingested)
    (hrel : ∀ p, s'.released p = true → s.committer.assigned p = false) : s'.Inv := by
  have hsound := h.calls c (by simp [running])
  apply h.advance running next hcalls hown hp.keyed
  · intro p _
    exact ⟨fun hs => hs.of_preserves hp hepoch, by rw [hp.assigned]⟩
  · intro hmem p hpp
    exact (hsound.opening (by rw [next]; exact List.mem_cons_of_mem a hmem) p hpp).of_preserves
      hp hepoch
  · intro hrevoke p hpp hmem
    have hnot : .markPartitionRevoked p ∉ c.todo := by
      rw [next, List.mem_cons, not_or]
      exact ⟨fun he => hmark p he.symm, hmem⟩
    obtain ⟨hs, hf⟩ := hsound.closing hrevoke p hpp hnot
    exact ⟨hs.of_preserves hp hepoch, by rw [hp.assigned]; exact hf⟩
  · intro p hr
    rw [hp.assigned]
    exact hrel p hr
  · exact h.opened_of_preserves hp hepoch
  · exact h.current_of_preserves hp hepoch hing

theorem Inv.markPartitionAssigned (h : s.Inv) (slices : SortFunc (WorkItem T)) (choice : Choice)
    (running : s.calls = before ++ c :: after) {q : Int}
    (next : c.todo = .markPartitionAssigned q :: rest) (hassign : c.rebalanceType = .assign)
    (hq : q ∈ partitions c.rebalanceInfo) :
    (s.act slices choice before c after (.markPartitionAssigned q) rest).Inv := by
  have hsound := h.calls c (by simp [running])
  refine h.advance running next rfl rfl (h.keyed.markPartitionAssigned q) ?_ ?_ ?_ ?_ ?_ ?_
  · intro p hp
    have hne : p ≠ q := fun he => hp (he ▸ hq)
    exact ⟨fun hs => hs, Function.update_of_ne hne _ _⟩
  · intro hmem p hp
    exact hsound.opening (by rw [next]; exact List.mem_cons_of_mem _ hmem) p hp
  · intro hrevoke
    rw [hassign] at hrevoke
    cases hrevoke
  · -- the mark ends the release
    intro p hr
    by_cases hp : p = q
    · subst hp
      simp [act, Record.note] at hr
    · simp only [act, Record.note, Function.update_of_ne hp] at hr
      exact (Function.update_of_ne hp _ _).trans (h.released p hr)
  · exact h.opened
  · exact h.current

theorem markPartitionRevoked_partitionMap (c : Committer T) (p q : Int) :
    (c.markPartitionRevoked q).partitionMap p =
      (c.partitionMap p).map fun t => if p = q then { t with assignment := .revoke } else t := by
  by_cases hp : p = q
  · subst hp
    simp [Committer.markPartitionRevoked]
  · simp [Committer.markPartitionRevoked, hp]

theorem markPartitionRevoked_assigned {c : Committer T} {p : Int} (hf : c.assigned p = false)
    (q : Int) : (c.markPartitionRevoked q).assigned p = false := by
  by_cases hp : p = q
  · subst hp
    simp [Committer.markPartitionRevoked]
  · simpa [Committer.markPartitionRevoked, Function.update_of_ne hp] using hf

theorem Sealed.markPartitionRevoked (hs : s.Sealed p) {q : Int}
    (hcommitter : s'.committer = s.committer.markPartitionRevoked q)
    (hepoch : s'.epoch p = s.epoch p) : s'.Sealed p := by
  rcases hs with h0 | ⟨t, ht, hrev⟩
  · exact .inl (hepoch.trans h0)
  · right
    rw [hcommitter, markPartitionRevoked_partitionMap, ht]
    refine ⟨_, rfl, ?_⟩
    split
    · rfl
    · exact hrev

/-- An opened partition has a tracker that takes the mark. -/
theorem Inv.sealed_of_mark (h : s.Inv)
    (hcommitter : s'.committer = s.committer.markPartitionRevoked p)
    (hepoch : s'.epoch p = s.epoch p) : s'.Sealed p := by
  rcases Nat.eq_zero_or_pos (s.epoch p) with h0 | hpos
  · exact .inl (hepoch.trans h0)
  · obtain ⟨t, ht⟩ := Option.isSome_iff_exists.mp (h.opened p hpos)
    right
    rw [hcommitter, markPartitionRevoked_partitionMap, ht]
    exact ⟨_, rfl, by simp⟩

theorem Inv.markPartitionRevoked (h : s.Inv) (slices : SortFunc (WorkItem T)) (choice : Choice)
    (running : s.calls = before ++ c :: after) {q : Int}
    (next : c.todo = .markPartitionRevoked q :: rest) :
    (s.act slices choice before c after (.markPartitionRevoked q) rest).Inv := by
  have hsound := h.calls c (by simp [running])
  have hseal : ∀ p, s.Sealed p →
      (s.act slices choice before c after (.markPartitionRevoked q) rest).Sealed p :=
    fun p hs => hs.markPartitionRevoked rfl rfl
  have hq : q ∈ partitions c.rebalanceInfo := by
    have hlisted := hsound.listed _ (by rw [next]; exact List.mem_cons_self)
    rcases hsound.kind with hk | hk
    · simp [hk, sections] at hlisted
    · simpa [hk, sections] using hlisted
  refine h.advance running next rfl rfl (h.keyed.markPartitionRevoked q) ?_ ?_ ?_ ?_ ?_ ?_
  · intro p hp
    have hne : p ≠ q := fun he => hp (he ▸ hq)
    exact ⟨hseal p, Function.update_of_ne hne _ _⟩
  · intro hmem p hp
    exact hseal p (hsound.opening (by rw [next]; exact List.mem_cons_of_mem _ hmem) p hp)
  · intro hrevoke p hp hmem
    by_cases hpq : p = q
    · subst hpq
      exact ⟨h.sealed_of_mark rfl rfl,
        by simp [act, Subscription.perform, Committer.markPartitionRevoked]⟩
    · have hnot : .markPartitionRevoked p ∉ c.todo := by
        rw [next, List.mem_cons, not_or]
        exact ⟨by simpa using hpq, hmem⟩
      obtain ⟨hs, hf⟩ := hsound.closing hrevoke p hp hnot
      exact ⟨hseal p hs, markPartitionRevoked_assigned hf q⟩
  · intro p hr
    exact markPartitionRevoked_assigned (h.released p hr) q
  · intro p hpos
    change ((s.committer.markPartitionRevoked q).partitionMap p).isSome
    rw [markPartitionRevoked_partitionMap, Option.isSome_map]
    exact h.opened p hpos
  · intro p t' ht'
    change (s.committer.markPartitionRevoked q).partitionMap p = some t' at ht'
    rw [markPartitionRevoked_partitionMap] at ht'
    obtain ⟨t, ht, rfl⟩ := Option.map_eq_some_iff.mp ht'
    have hcur := h.current p t ht
    split
    · exact ⟨hcur.ready, hcur.buffer⟩
    · exact hcur

theorem partitionOffsets_keys {info : List RebalanceInfo} {order : List Int}
    (hnodup : order.Nodup) : ((partitionOffsets info order).map Prod.fst).Nodup := by
  rw [partitionOffsets, List.map_filterMap]
  apply hnodup.filterMap
  intro p q x hp hq
  obtain ⟨y, hy, hpx⟩ := Option.map_eq_some_iff.mp hp
  obtain ⟨z, hz, hqx⟩ := Option.map_eq_some_iff.mp hq
  obtain ⟨_, _, rfl⟩ := Option.map_eq_some_iff.mp hy
  obtain ⟨_, _, rfl⟩ := Option.map_eq_some_iff.mp hz
  exact hpx.trans hqx.symm

theorem mem_partitionOffsets_of_mem {info : List RebalanceInfo} {order : List Int} {p : Int}
    (hp : p ∈ partitions info) (horder : p ∈ order) :
    ∃ x, (p, x) ∈ partitionOffsets info order := by
  obtain ⟨r, hr, hrp⟩ := List.mem_map.mp hp
  have hsome : (info.reverse.find? fun r => r.partition == p).isSome := by
    rw [List.find?_isSome]
    exact ⟨r, List.mem_reverse.mpr hr, by simp [hrp]⟩
  obtain ⟨r', hr'⟩ := Option.isSome_iff_exists.mp hsome
  refine ⟨r'.committedOffset, List.mem_filterMap.mpr ⟨p, horder, ?_⟩⟩
  simp [committedOffsetOf, hr']

/-- A reset of a sealed partition keeps nothing of an earlier epoch. -/
theorem Inv.reset_current (h : s.Inv) (hseal : s.Sealed p) (hepoch : s'.epoch p = s.epoch p + 1)
    (hing : s'.ingested = s.ingested) (x : Int) :
    AllItems (s'.Current p) (resetCommittedOffset (s.committer.partitionMap p) x).1 := by
  rcases hseal with h0 | ⟨t, ht, hrev⟩
  · apply (resetCommittedOffset_keeps _ _ x).items
    intro t ht
    have hcur := h.current p t ht
    -- what was ingested before the first epoch carries epoch `0`
    have hmono : ∀ st, s.Current p st → s'.Current p st := by
      intro st hst
      refine ⟨by rw [hing]; exact hst.1, ?_⟩
      intro y hy hptr
      rw [hing] at hy
      have := hst.2 y hy hptr
      omega
    exact ⟨fun r hr => hmono _ (hcur.ready r hr), fun g hg => hmono _ (hcur.buffer g hg)⟩
  · rw [ht]
    exact ⟨by simp [resetCommittedOffset, hrev], by simp [resetCommittedOffset, hrev]⟩

section Reset
variable {choice : Choice}

theorem Inv.reset_entry_in (h : s.Inv)
    (fits : choice.Fits s.toSubscription (.resetCommittedOffsets c.rebalanceInfo)) {p : Int}
    (hp : p ∈ partitions c.rebalanceInfo) :
    ∃ x, (s.committer.resetCommittedOffsets
        (partitionOffsets c.rebalanceInfo choice.order)).entry p =
      (some (resetCommittedOffset (s.committer.partitionMap p) x).1, s.committer.assigned p) := by
  obtain ⟨x, hx⟩ := mem_partitionOffsets_of_mem hp ((fits.2 p).mpr hp)
  exact ⟨x, Committer.resetCommittedOffsets_entry_same h.keyed (partitionOffsets_keys fits.1) hx⟩

theorem reset_entry_out {p : Int} (hp : p ∉ partitions c.rebalanceInfo) :
    (s.committer.resetCommittedOffsets
      (partitionOffsets c.rebalanceInfo choice.order)).entry p = s.committer.entry p := by
  apply resetCommittedOffsets_entry_other
  exact fun hmem => hp (mem_partitionOffsets hmem).1

theorem Inv.reset_assigned (h : s.Inv)
    (fits : choice.Fits s.toSubscription (.resetCommittedOffsets c.rebalanceInfo)) (p : Int) :
    (s.committer.resetCommittedOffsets
      (partitionOffsets c.rebalanceInfo choice.order)).assigned p = s.committer.assigned p := by
  by_cases hp : p ∈ partitions c.rebalanceInfo
  · obtain ⟨x, hx⟩ := h.reset_entry_in fits hp
    exact congrArg Prod.snd hx
  · exact congrArg Prod.snd (reset_entry_out hp)

end Reset

theorem Inv.resetCommittedOffsets (h : s.Inv) (slices : SortFunc (WorkItem T)) (choice : Choice)
    (running : s.calls = before ++ c :: after)
    (next : c.todo = .resetCommittedOffsets c.rebalanceInfo :: rest)
    (fits : choice.Fits s.toSubscription (.resetCommittedOffsets c.rebalanceInfo)) :
    (s.act slices choice before c after (.resetCommittedOffsets c.rebalanceInfo) rest).Inv := by
  have hsound := h.calls c (by simp [running])
  have hsealed := hsound.opening (by rw [next]; exact List.mem_cons_self)
  have hkept : ∀ p, p ∉ partitions c.rebalanceInfo →
      (s.act slices choice before c after (.resetCommittedOffsets c.rebalanceInfo)
        rest).committer.partitionMap p = s.committer.partitionMap p ∧
      (s.act slices choice before c after (.resetCommittedOffsets c.rebalanceInfo)
        rest).epoch p = s.epoch p := by
    intro p hp
    exact ⟨congrArg Prod.fst (reset_entry_out hp), if_neg hp⟩
  refine h.advance running next rfl rfl (h.keyed.resetCommittedOffsets _) ?_ ?_ ?_ ?_ ?_ ?_
  · intro p hp
    refine ⟨?_, h.reset_assigned fits p⟩
    intro hs
    obtain ⟨hmap, hepoch⟩ := hkept p hp
    exact hs.preserves hepoch fun t ht => ⟨t, hmap.trans ht, rfl⟩
  · -- a call resets once
    intro hmem
    have hordered := hsound.ordered
    rw [next, List.pairwise_cons] at hordered
    rcases hordered.1 _ hmem with hlt | ⟨_, hmark⟩
    · exact absurd hlt (lt_irrefl _)
    · cases hmark
  · intro hrevoke
    have hlisted := hsound.listed _ (by rw [next]; exact List.mem_cons_self)
    simp [hrevoke, sections] at hlisted
  · intro p hr
    exact (h.reset_assigned fits p).trans (h.released p hr)
  · intro p hpos
    by_cases hp : p ∈ partitions c.rebalanceInfo
    · obtain ⟨x, hx⟩ := h.reset_entry_in fits hp
      exact congrArg Option.isSome (congrArg Prod.fst hx)
    · obtain ⟨hmap, hepoch⟩ := hkept p hp
      rw [hepoch] at hpos
      rw [hmap]
      exact h.opened p hpos
  · intro p t ht
    by_cases hp : p ∈ partitions c.rebalanceInfo
    · obtain ⟨x, hx⟩ := h.reset_entry_in fits hp
      have hteq : some (resetCommittedOffset (s.committer.partitionMap p) x).1 = some t :=
        (congrArg Prod.fst hx).symm.trans ht
      have hepoch : (s.act slices choice before c after (.resetCommittedOffsets c.rebalanceInfo)
          rest).epoch p = s.epoch p + 1 := if_pos hp
      rw [← Option.some.inj hteq]
      exact h.reset_current (hsealed p hp) hepoch rfl x
    · obtain ⟨hmap, hepoch⟩ := hkept p hp
      have hsame : (s.act slices choice before c after (.resetCommittedOffsets c.rebalanceInfo)
          rest).Current p = s.Current p := by
        unfold Current
        rw [hepoch]
        rfl
      rw [hsame]
      exact h.current p t (hmap.symm.trans ht)

end Sections

/-! ## Every step -/

theorem Inv.act (h : s.Inv) (slices : SortFunc (WorkItem T)) {choice : Choice}
    {before after : List Call} {a : Action} {rest : List Action}
    (running : s.calls = before ++ c :: after) (next : c.todo = a :: rest)
    (fits : choice.Fits s.toSubscription a) : (s.act slices choice before c after a rest).Inv := by
  have hsound := h.calls c (by simp [running])
  have hlisted := hsound.listed a (by rw [next]; exact List.mem_cons_self)
  have hsame : s.committer.Preserves s.committer :=
    ⟨h.keyed, rfl, fun p t ht => ⟨t, ht, rfl, fun _ hQ => hQ⟩, fun _ hp => hp⟩
  cases a with
  | offerAssigned => exact h.quiet running next rfl (by simp) hsame rfl rfl rfl h.released
  | takeAssigned => exact h.quiet running next rfl (by simp) hsame rfl rfl rfl h.released
  | resetFirstSeen info => exact h.quiet running next rfl (by simp) hsame rfl rfl rfl h.released
  | resetCommittedOffsets info =>
    have hinfo : info = c.rebalanceInfo := by
      rcases hsound.kind with hk | hk
      · simpa [hk, sections] using hlisted
      · simp [hk, sections] at hlisted
    subst hinfo
    exact h.resetCommittedOffsets slices choice running next fits
  | markPartitionAssigned p =>
    rcases hsound.kind with hk | hk
    · apply h.markPartitionAssigned slices choice running next hk
      simpa [hk, sections] using hlisted
    · simp [hk, sections] at hlisted
  | drain =>
    refine h.quiet running next rfl (by simp) ?_ rfl rfl rfl h.released
    cases hk : choice.commit with
    | none => simpa [Session.act, Subscription.perform, hk] using hsame
    | some k =>
      obtain ⟨hf, hc⟩ := fits k hk
      simpa [Session.act, Subscription.perform, hk] using
        Committer.preserves_commitOffsets slices h.keyed hf hc
  | markPartitionRevoked p => exact h.markPartitionRevoked slices choice running next
  | ackRebalance t info =>
    refine h.quiet running next rfl (by simp) hsame ?_ ?_ ?_ ?_
    · cases t <;> rfl
    · cases t <;> rfl
    · cases t <;> rfl
    · intro p hr
      cases t with
      | assign => exact h.released p hr
      | unsupported code => exact h.released p hr
      | revoke =>
        obtain ⟨hk, hinfo⟩ : c.rebalanceType = .revoke ∧ info = c.rebalanceInfo := by
          rcases hsound.kind with hk | hk
          · simp [hk, sections] at hlisted
          · exact ⟨hk, by simpa [hk, sections] using hlisted⟩
        subst hinfo
        by_cases hp : p ∈ partitions c.rebalanceInfo
        · -- the marks of the call are behind its acknowledgement
          refine (hsound.closing hk p hp ?_).2
          intro hmem
          have hordered := hsound.ordered
          rw [next, List.mem_cons] at hmem
          rw [next, List.pairwise_cons] at hordered
          rcases hmem with hmem | hmem
          · cases hmem
          · rcases hordered.1 _ hmem with hlt | ⟨_, hmark⟩
            · simp [Action.rank] at hlt
            · cases hmark
        · have hold : s.released p = true := by simpa [Session.act, Record.note, hp] using hr
          exact h.released p hold
  | acknowledged => exact h.quiet running next rfl (by simp) hsame rfl rfl rfl h.released

theorem Inv.step {slices : SortFunc (WorkItem T)} (h : s.Inv) (hstep : Step slices s s') : s'.Inv := by
  cases hstep with
  | assign info accepted away =>
    exact h.begin (.inl rfl) (.inl rfl) (fun p hp => .inl (away p hp)) (fun _ => away)
  | revoke info accepted owned =>
    exact h.begin (.inr rfl) (.inr rfl) (fun p hp => .inr (owned p hp)) (by simp)
  | act choice before c after a rest running next fits => exact h.act slices running next fits
  | finish before c after running done => exact h.finish running done
  | ingest batch now flushTime order once iterates => exact h.ingest now slices once iterates
  | tick k flushes commits =>
    exact h.preserves (Committer.preserves_commitOffsets slices h.keyed flushes commits) rfl rfl
  | poll partition offset => exact ⟨h.keyed, fun c hc => (h.calls c hc).frame (fun _ _ => rfl)
      (fun _ _ hs => hs) (fun _ _ hf => hf), h.apart, h.resting, h.released, h.opened, h.current⟩

theorem inv_of_reachable {slices : SortFunc (WorkItem T)} {topicName : String}
    (h : (sessionSystem slices topicName).Reachable s) : s.Inv := by
  refine System.invariant (P := fun s => s.Inv) ?_ ?_ s h
  · intro s hs
    rw [show s = { topicName := topicName } from hs]
    exact inv_init topicName
  · intro s s' _ hs hstep
    exact hs.step hstep

/-- A commit call holds no partition that was handed back and not yet marked as assigned
again. Each of its work items was ingested, and in no earlier epoch than the partition's current
one, except that a partition's first epoch may commit what was ingested before it. -/
theorem commit_owned_and_current (slices : SortFunc (WorkItem T)) (topicName : String)
    (s : Session T) (h : (sessionSystem slices topicName).Reachable s) (k : Tick)
    (flushes : s.committer.Iterates k.flushOrder) (commits : s.committer.Iterates k.commitOrder)
    (m : WorkItem T) (hm : m ∈ (s.committer.commitOffsets slices k).sent) :
    s.released m.partition = false ∧ (∃ x ∈ s.ingested, x.2.ptr = m.ptr) ∧
      ∀ x ∈ s.ingested, x.2.ptr = m.ptr →
        x.1 = s.epoch m.partition ∨ (x.1 = 0 ∧ s.epoch m.partition = 1) := by
  have hinv := inv_of_reachable h
  obtain ⟨hassigned, t, ht, hitems⟩ := Committer.sent_of_tick slices hinv.keyed flushes commits hm
  constructor
  · cases hr : s.released m.partition with
    | false => rfl
    | true =>
      rw [hinv.released m.partition hr] at hassigned
      cases hassigned
  · exact hitems _ (hinv.current m.partition t ht)

/-! ## Two short sessions -/

/-- Record `5` of partition `0`, the first of its stream. -/
def firstItem : WorkItem Unit where
  ptr := 0
  message := { partition := 0, offset := 5 }
  previousOffset := 4
  first := true

def sessionTick : Tick where
  flushOrder := [0]
  commitOrder := [0]

/-- Ingest of the record into a session that has no tracker yet, or only its own. -/
theorem reachable_ingest_firstItem (slices : SortFunc (WorkItem Unit)) (topicName : String)
    {s : Session Unit} (hs : (sessionSystem slices topicName).Reachable s)
    (hing : s.ingested = []) (hother : ∀ q, q ≠ 0 → s.committer.partitionMap q = none) :
    (sessionSystem slices topicName).Reachable (s.ingest slices [firstItem] (fun _ => 0) 0 [0]) ∧
      ∀ q, q ≠ 0 →
        (s.ingest slices [firstItem] (fun _ => 0) 0 [0]).committer.partitionMap q = none := by
  have hnone : ∀ q, q ≠ 0 → ([firstItem].foldl (fun c w => c.processCommit w 0)
      s.committer).partitionMap q = none := by
    intro q hq
    exact (Committer.processCommit_partitionMap_other _ _ _ hq).trans (hother q hq)
  have hiter : ([firstItem].foldl (fun c w => c.processCommit w 0) s.committer).Iterates [0] := by
    apply Committer.iterates_singleton
    · exact congrArg Option.isSome (Committer.processCommit_partitionMap_same s.committer firstItem 0)
    · exact hnone
  refine ⟨hs.step (Step.ingest s [firstItem] (fun _ => 0) 0 [0] (by simp [hing]) hiter), ?_⟩
  intro q hq
  have hkeyed := (foldl_processCommit_keyed (fun _ => 0) [firstItem] (inv_of_reachable hs).keyed).1
  exact (Committer.preserves_flushGapBuffers slices hkeyed hiter 0).absent q (hnone q hq)

/-- A record of the current epoch is committed. -/
theorem commit_owned_and_current_sample :
    ∃ s : Session Unit, ∃ m ∈ (s.committer.commitOffsets (SortFunc.insertion _) sessionTick).sent,
      m.offset = 5 ∧ s.released m.partition = false ∧ (∃ x ∈ s.ingested, x.2.ptr = m.ptr) ∧
        ∀ x ∈ s.ingested, x.2.ptr = m.ptr →
          x.1 = s.epoch m.partition ∨ (x.1 = 0 ∧ s.epoch m.partition = 1) := by
  obtain ⟨s, hs, _, hsub, hkept, _, hing⟩ := reachable_assign (SortFunc.insertion (WorkItem Unit))
    "orders" { order := [0] } [{ partition := 0, committedOffset := -1 }]
    (s := { topicName := "orders" }) (System.Reachable.init rfl) rfl rfl (by simp)
    (by simp [partitions])
  have hother : ∀ q, q ≠ 0 → s.committer.partitionMap q = none := by
    intro q hq
    exact hkept q (by simpa [partitions] using hq)
  obtain ⟨hreach, hnone⟩ := reachable_ingest_firstItem _ _ hs hing hother
  have hiter : (s.ingest (SortFunc.insertion _) [firstItem] (fun _ => 0) 0
      [0]).committer.Iterates [0] := by
    apply Committer.iterates_singleton _ hnone
    simp only [ingest, hsub]
    decide
  have hsent : ∃ m ∈ ((s.ingest (SortFunc.insertion _) [firstItem] (fun _ => 0) 0
      [0]).committer.commitOffsets (SortFunc.insertion _) sessionTick).sent, m.offset = 5 := by
    simp only [ingest, hsub]
    decide
  obtain ⟨m, hm, hoffset⟩ := hsent
  exact ⟨_, m, hm, hoffset, commit_owned_and_current _ _ _ hreach sessionTick hiter hiter m hm⟩

/-- A record ingested before the partition's first assign is committed in the epoch that
the assign opens. -/
theorem commit_of_item_before_first_assign :
    ∃ s : Session Unit, (sessionSystem (SortFunc.insertion _) "orders").Reachable s ∧
      s.committer.Iterates sessionTick.flushOrder ∧ s.committer.Iterates sessionTick.commitOrder ∧
      ∃ m ∈ (s.committer.commitOffsets (SortFunc.insertion _) sessionTick).sent,
        ∃ x ∈ s.ingested, x.2.ptr = m.ptr ∧ x.1 < s.epoch m.partition := by
  obtain ⟨hreach, hnone⟩ := reachable_ingest_firstItem (SortFunc.insertion (WorkItem Unit))
    "orders" (s := { topicName := "orders" }) (System.Reachable.init rfl) rfl
    (fun _ _ => rfl)
  obtain ⟨s, hs, _, hsub, hkept, hepoch, hing⟩ := reachable_assign (SortFunc.insertion (WorkItem Unit))
    "orders" { order := [0] } [{ partition := 0, committedOffset := -1 }] hreach rfl rfl (by
      intro p _
      rfl) (by simp [partitions])
  have hiter : s.committer.Iterates [0] := by
    apply Committer.iterates_singleton
    · rw [hsub]
      decide
    · intro q hq
      exact (hkept q (by simpa [partitions] using hq)).trans (hnone q hq)
  refine ⟨s, hs, hiter, hiter, ?_⟩
  rw [hsub, hepoch, hing]
  decide

end Session

end LlingrDemux.Rebalance
