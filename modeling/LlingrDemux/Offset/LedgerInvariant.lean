import LlingrDemux.Offset.StepSystem

/-!
# What the stamps and the log say together

A record is live when it is still in the log or was fetched in the current epoch.
The stamp of every fetched record names an interval that holds no live record, and
keeps doing so: the log grows only above what was ever appended. A `First` record
leaves no live record between the committed position and itself.
-/

namespace LlingrDemux.Offset.Ledger

open Prev
set_option autoImplicit false

variable {T : Type}

def Live (l : Ledger T) (x : Int) : Prop :=
  x ∈ l.log ∨ ∃ f ∈ l.history, f.epoch = l.epoch ∧ f.offset = x

/-- Given to `processCommit`, or below a position that another owner committed. -/
def Done (l : Ledger T) (x : Int) : Prop :=
  (∃ f ∈ l.completed, f.offset = x) ∨ x < l.otherCommitted

structure Inv (p : Int) (l : Ledger T) : Prop where
  nonneg : 0 ≤ l.committed
  other_le : l.otherCommitted ≤ l.committed
  appended_nonneg : ∀ x ∈ l.appended, 0 ≤ x
  log_appended : ∀ x ∈ l.log, x ∈ l.appended
  beyond : ∀ x, 0 ≤ x → (∀ y ∈ l.appended, y < x) → x < l.committed → x < l.otherCommitted
  opened : l.openedAt ≤ l.committed
  partition : ∀ f ∈ l.history, f.item.partition = p
  offset_appended : ∀ f ∈ l.history, f.offset ∈ l.appended
  stamp_below : ∀ f ∈ l.history, f.item.previousOffset < f.offset
  epoch_le : ∀ f ∈ l.history, f.epoch ≤ l.epoch
  current_opened : ∀ f ∈ l.history, f.epoch = l.epoch → l.openedAt ≤ f.offset
  gap : ∀ f ∈ l.history, ∀ x, l.Live x → f.item.previousOffset < x → f.offset ≤ x
  first : ∀ f ∈ l.history, f.item.first = true → ∀ x, l.Live x → l.committed ≤ x → f.offset ≤ x
  completed_history : ∀ f ∈ l.completed, f ∈ l.history
  position : (l.prev.prevOffsets p = none ∧ l.fetchPosition = l.openedAt ∧
      ∀ f ∈ l.history, f.epoch ≠ l.epoch) ∨
    ∃ last ∈ l.history, last.epoch = l.epoch ∧ l.prev.prevOffsets p = some last.offset ∧
      l.fetchPosition = last.offset + 1 ∧ ∀ f ∈ l.history, f.epoch = l.epoch → f.offset ≤ last.offset
  safe : ∀ x, l.Live x → x < l.committed → l.Done x
  accepted_below : ∀ a ∈ l.accepted, a.1 ≤ l.epoch ∧ a.2 < l.committed
  accepted_increasing : l.accepted.Pairwise fun a b => a.1 = b.1 → a.2 < b.2

section
variable {p : Int} {l : Ledger T}

theorem Inv.offset_nonneg (h : l.Inv p) {f : Fetched T} (hf : f ∈ l.history) : 0 ≤ f.offset :=
  h.appended_nonneg _ (h.offset_appended f hf)

theorem inv_init : ({} : Ledger T).Inv p := by
  constructor <;> simp [Live]

/-! ## The log -/

theorem Inv.append (h : l.Inv p) {x : Int} (nonneg : 0 ≤ x) (above : ∀ y ∈ l.appended, y < x) :
    Inv p { l with log := x :: l.log, appended := x :: l.appended } := by
  have hlive : ∀ y, Live { l with log := x :: l.log, appended := x :: l.appended } y →
      y = x ∨ l.Live y := by
    rintro y (hy | hy)
    · exact (List.mem_cons.mp hy).imp_right Or.inl
    · exact .inr (.inr hy)
  exact {
    nonneg := h.nonneg
    other_le := h.other_le
    appended_nonneg := by
      intro y hy
      rcases List.mem_cons.mp hy with rfl | hy
      · exact nonneg
      · exact h.appended_nonneg y hy
    log_appended := by
      intro y hy
      rcases List.mem_cons.mp hy with rfl | hy
      · exact List.mem_cons_self
      · exact List.mem_cons_of_mem x (h.log_appended y hy)
    beyond := by
      intro y hy hall
      exact h.beyond y hy fun z hz => hall z (List.mem_cons_of_mem x hz)
    opened := h.opened
    partition := h.partition
    offset_appended := fun f hf => List.mem_cons_of_mem x (h.offset_appended f hf)
    stamp_below := h.stamp_below
    epoch_le := h.epoch_le
    current_opened := h.current_opened
    gap := by
      intro f hf y hy hlt
      rcases hlive y hy with rfl | hy
      · exact (above _ (h.offset_appended f hf)).le
      · exact h.gap f hf y hy hlt
    first := by
      intro f hf hfirst y hy hle
      rcases hlive y hy with rfl | hy
      · exact (above _ (h.offset_appended f hf)).le
      · exact h.first f hf hfirst y hy hle
    completed_history := h.completed_history
    position := h.position
    safe := by
      intro y hy hlt
      rcases hlive y hy with rfl | hy
      · exact .inr (h.beyond y nonneg above hlt)
      · exact h.safe y hy hlt
    accepted_below := h.accepted_below
    accepted_increasing := h.accepted_increasing }

theorem Inv.remove (h : l.Inv p) (kept : Int → Bool) : Inv p { l with log := l.log.filter kept } := by
  have hlive : ∀ y, Live { l with log := l.log.filter kept } y → l.Live y := by
    rintro y (hy | hy)
    · exact .inl (List.mem_of_mem_filter hy)
    · exact .inr hy
  exact { h with
    log_appended := fun y hy => h.log_appended y (List.mem_of_mem_filter hy)
    gap := fun f hf y hy => h.gap f hf y (hlive y hy)
    first := fun f hf hfirst y hy => h.first f hf hfirst y (hlive y hy)
    safe := fun y hy => h.safe y (hlive y hy) }

/-! ## The committed position -/

/-- The position moves forward over records that are done. -/
theorem Inv.advance (h : l.Inv p) {position other : Int} (forward : l.committed ≤ position)
    (hle : other ≤ position)
    (beyond : ∀ x, 0 ≤ x → (∀ y ∈ l.appended, y < x) → x < position → x < other)
    (safe : ∀ x, l.Live x → x < position →
      Done { l with committed := position, otherCommitted := other } x)
    {accepted : List (Nat × Int)}
    (below : ∀ a ∈ accepted, a.1 ≤ l.epoch ∧ a.2 < position)
    (increasing : accepted.Pairwise fun a b => a.1 = b.1 → a.2 < b.2) :
    Inv p { l with committed := position, otherCommitted := other, accepted := accepted } :=
  { h with
    nonneg := h.nonneg.trans forward
    other_le := hle
    beyond := beyond
    opened := h.opened.trans forward
    first := fun f hf hfirst x hx hc => h.first f hf hfirst x hx (forward.trans hc)
    safe := safe
    accepted_below := below
    accepted_increasing := increasing }

theorem Inv.otherOwner (h : l.Inv p) {position : Int} (forward : l.committed ≤ position) :
    Inv p { l with committed := position, otherCommitted := position } :=
  h.advance forward le_rfl (fun _ _ _ hx => hx)
    (fun _ _ hx => .inr hx)
    (fun a ha => ⟨(h.accepted_below a ha).1, (h.accepted_below a ha).2.trans_le forward⟩)
    h.accepted_increasing

/-! ## Epochs -/

theorem Inv.reset (h : l.Inv p) (unknown : Bool) :
    Inv p { l with
      epoch := l.epoch + 1
      unknownBaseline := unknown
      openedAt := l.committed
      fetchPosition := l.committed
      prev := l.prev.reset [p] } := by
  have hold : ∀ f ∈ l.history, f.epoch ≠ l.epoch + 1 := by
    intro f hf heq
    have := h.epoch_le f hf
    omega
  have hlive : ∀ y, Live { l with
      epoch := l.epoch + 1
      unknownBaseline := unknown
      openedAt := l.committed
      fetchPosition := l.committed
      prev := l.prev.reset [p] } y → l.Live y := by
    rintro y (hy | ⟨f, hf, he, _⟩)
    · exact .inl hy
    · exact absurd he (hold f hf)
  exact { h with
    opened := le_rfl
    epoch_le := fun f hf => (h.epoch_le f hf).trans (Nat.le_succ _)
    current_opened := fun f hf he => absurd he (hold f hf)
    gap := fun f hf y hy => h.gap f hf y (hlive y hy)
    first := fun f hf hfirst y hy => h.first f hf hfirst y (hlive y hy)
    position := .inl ⟨PartitionOffsets.reset_singleton_same _ p, rfl, hold⟩
    safe := fun y hy => h.safe y (hlive y hy)
    accepted_below := fun a ha =>
      ⟨(h.accepted_below a ha).1.trans (Nat.le_succ _), (h.accepted_below a ha).2⟩ }

/-! ## Fetches and completions -/

theorem Inv.complete (h : l.Inv p) {f : Fetched T} (hf : f ∈ l.history) :
    Inv p { l with completed := l.completed ++ [f] } :=
  { h with
    completed_history := by
      intro g hg
      rcases List.mem_append.mp hg with hg | hg
      · exact h.completed_history g hg
      · rwa [List.mem_singleton.mp hg]
    safe := by
      intro x hx hlt
      rcases h.safe x hx hlt with ⟨g, hg, he⟩ | ho
      · exact .inl ⟨g, List.mem_append_left _ hg, he⟩
      · exact .inr ho }

section Fetch
variable {item : WorkItem T} {prev : PartitionOffsets}

theorem Inv.fetch_opened (h : l.Inv p) (hpos : l.fetchPosition ≤ item.offset) :
    l.openedAt ≤ item.offset := by
  rcases h.position with ⟨_, hfp, _⟩ | ⟨last, hl, he, _, hfp, _⟩
  · omega
  · have := h.current_opened last hl he
    omega

/-- Live records above the stamp are in the log at or above the fetch position. -/
theorem Inv.fetch_gap (h : l.Inv p) (lowest : ∀ y ∈ l.log, l.fetchPosition ≤ y → item.offset ≤ y)
    (stamped : l.prev.getPrevious p item.offset = (prev, .ok (item.previousOffset, item.first)))
    {x : Int} (hx : l.Live x) (hlt : item.previousOffset < x) : item.offset ≤ x := by
  rcases (PartitionOffsets.getPrevious_ok stamped).2.2 with ⟨_, hp, _⟩ | ⟨hs, _, _⟩
  · omega
  · rcases h.position with ⟨hn, _⟩ | ⟨last, _, _, hprevlast, hfp, hle⟩
    · simp [hn] at hs
    · have hlast : item.previousOffset = last.offset := by simpa [hs] using hprevlast
      rcases hx with hx | ⟨f, hf, he, rfl⟩
      · exact lowest x hx (by omega)
      · have := hle f hf he
        omega

/-- A `First` record is fetched from the committed position of its epoch. -/
theorem Inv.fetch_first (h : l.Inv p)
    (lowest : ∀ y ∈ l.log, l.fetchPosition ≤ y → item.offset ≤ y)
    (stamped : l.prev.getPrevious p item.offset = (prev, .ok (item.previousOffset, item.first)))
    (hfirst : item.first = true) {x : Int} (hx : l.Live x) (hc : l.committed ≤ x) :
    item.offset ≤ x := by
  rcases (PartitionOffsets.getPrevious_ok stamped).2.2 with ⟨hn, _, _⟩ | ⟨_, _, hnot⟩
  · rcases h.position with ⟨_, hfp, hnone⟩ | ⟨last, _, _, hs, _⟩
    · rcases hx with hx | ⟨g, hg, he, _⟩
      · have := h.opened
        exact lowest x hx (by omega)
      · exact absurd he (hnone g hg)
    · simp [hn] at hs
  · simp [hnot] at hfirst

theorem Inv.fetch (h : l.Inv p) (hlog : item.offset ∈ l.log)
    (hpos : l.fetchPosition ≤ item.offset)
    (lowest : ∀ y ∈ l.log, l.fetchPosition ≤ y → item.offset ≤ y)
    (hpart : item.partition = p)
    (stamped : l.prev.getPrevious p item.offset = (prev, .ok (item.previousOffset, item.first))) :
    Inv p { l with
      fetchPosition := item.offset + 1
      prev := prev
      history := l.history ++ [⟨l.epoch, item⟩] } := by
  obtain ⟨_, hprev, hstamp⟩ := PartitionOffsets.getPrevious_ok stamped
  have hmem : ∀ f ∈ l.history ++ [⟨l.epoch, item⟩], f ∈ l.history ∨ f = ⟨l.epoch, item⟩ := by
    intro f hf
    simpa using hf
  -- the fetched record was in the log, so no record becomes live
  have hlive : ∀ y, Live { l with
      fetchPosition := item.offset + 1
      prev := prev
      history := l.history ++ [⟨l.epoch, item⟩] } y → l.Live y := by
    rintro y (hy | ⟨f, hf, he, ho⟩)
    · exact .inl hy
    · rcases hmem f hf with hf | rfl
      · exact .inr ⟨f, hf, he, ho⟩
      · exact .inl (ho ▸ hlog)
  have hbelow : item.previousOffset < item.offset := by
    rcases hstamp with ⟨_, hp, _⟩ | ⟨_, hlt, _⟩ <;> omega
  have hall : ∀ {P : Fetched T → Prop}, (∀ f ∈ l.history, P f) → P ⟨l.epoch, item⟩ →
      ∀ f ∈ l.history ++ [⟨l.epoch, item⟩], P f := by
    intro P hold hnew f hf
    rcases hmem f hf with hf | rfl
    · exact hold f hf
    · exact hnew
  exact { h with
    partition := hall h.partition hpart
    offset_appended := hall h.offset_appended (h.log_appended _ hlog)
    stamp_below := hall h.stamp_below hbelow
    epoch_le := hall h.epoch_le le_rfl
    current_opened := hall h.current_opened fun _ => h.fetch_opened hpos
    gap := by
      apply hall
      · exact fun f hf x hx => h.gap f hf x (hlive x hx)
      · exact fun x hx => h.fetch_gap lowest stamped (hlive x hx)
    first := by
      apply hall
      · exact fun f hf hfirst x hx => h.first f hf hfirst x (hlive x hx)
      · exact fun hfirst x hx => h.fetch_first lowest stamped hfirst (hlive x hx)
    completed_history := fun f hf => List.mem_append_left _ (h.completed_history f hf)
    position := by
      refine .inr ⟨⟨l.epoch, item⟩, by simp, rfl, by simp [hprev, Fetched.offset], rfl, ?_⟩
      intro f hf he
      rcases hmem f hf with hf | rfl
      · rcases h.position with ⟨_, _, hnone⟩ | ⟨last, _, _, _, hfp, hle⟩
        · exact absurd he (hnone f hf)
        · have := hle f hf he
          change f.offset ≤ item.offset
          omega
      · exact le_rfl
    safe := fun x hx => h.safe x (hlive x hx) }

end Fetch

end

end LlingrDemux.Offset.Ledger
