import LlingrDemux.Offset.SharedCommitter

/-!
# Work items in flight

Between its fetch and its completion a work item is in the hands of the pipeline, which writes
to its metrics and its message's traits. The committer does not look at it before then, so a run
with the item as it was fetched is as good as one with the item as it comes back.
-/

namespace LlingrDemux.Offset

open Shared
set_option autoImplicit false

variable {T : Type} {slices : SortFunc (WorkItem T)} {p : Int}

/-- The work item behind the pointer of `g` once `x` has been written to its own. -/
def afterWrite (x g : WorkItem T) : WorkItem T := if g.ptr = x.ptr then x else g

def Fetched.write (x : WorkItem T) (f : Fetched T) : Fetched T :=
  ⟨f.epoch, afterWrite x f.item⟩

section
variable {x g : WorkItem T} {f : Fetched T}

@[simp] theorem afterWrite_ptr : (afterWrite x g).ptr = g.ptr := by
  unfold afterWrite
  split
  · rename_i h
    exact h.symm
  · rfl

theorem afterWrite_stamp (h : g.ptr = x.ptr → g.stamp = x.stamp) :
    (afterWrite x g).stamp = g.stamp := by
  unfold afterWrite
  split
  · rename_i hptr
    exact (h hptr).symm
  · rfl

theorem Fetched.write_other (h : f.item.ptr ≠ x.ptr) : f.write x = f := by
  rw [write, afterWrite, if_neg h]

end

namespace World

/-- What the pipeline wrote to the item is seen through every pointer to it. -/
def write (w : World T) (x : WorkItem T) : World T :=
  { w with
    inFlight := w.inFlight.map (Fetched.write x)
    history := w.history.map (Fetched.write x) }

/-- `x` is an item in flight with the stamp it was fetched with. -/
structure Writable (w : World T) (x : WorkItem T) : Prop where
  stamp : ∀ f ∈ w.history, f.item.ptr = x.ptr → f.item.stamp = x.stamp
  pending : ∀ f ∈ w.completed, f.item.ptr ≠ x.ptr

section
variable {w w' : World T} {x : WorkItem T}

theorem holds_write {g : WorkItem T} (h : (w.write x).Holds p g) :
    ∃ g', w.Holds p g' ∧ g'.ptr = g.ptr := by
  rcases h with ⟨f, hf, rfl⟩ | ht
  · obtain ⟨f', hf', rfl⟩ := List.mem_map.mp hf
    exact ⟨f'.item, .inl ⟨f', hf', rfl⟩, afterWrite_ptr.symm⟩
  · exact ⟨g, .inr ht, rfl⟩

theorem write_fetch {item : WorkItem T} (prev : Prev.PartitionOffsets)
    (offset : (afterWrite x item).offset = item.offset) :
    (w.fetch item prev).write x = (w.write x).fetch (afterWrite x item) prev := by
  simp only [fetch, write, List.map_append, List.map_cons, List.map_nil, offset]
  rfl

theorem write_complete {before after : List (Fetched T)} {f : Fetched T} {now : Int} :
    (w.complete before f after now).write x =
      (w.write x).complete (before.map (Fetched.write x)) f (after.map (Fetched.write x)) now := by
  simp only [complete, write, List.map_append]

/-- A step of the partition with the item as it comes back. -/
theorem Step.write (step : Step slices p w w') (h : w'.Writable x) :
    w.Writable x ∧ Step slices p (w.write x) (w'.write x) := by
  cases step with
  | append y nonneg above => exact ⟨⟨h.stamp, h.pending⟩, .append (w.write x) y nonneg above⟩
  | remove kept => exact ⟨⟨h.stamp, h.pending⟩, .remove (w.write x) kept⟩
  | otherOwner position away forward =>
    exact ⟨⟨h.stamp, h.pending⟩, .otherOwner (w.write x) position away forward⟩
  | reset baseline away value => exact ⟨⟨h.stamp, h.pending⟩, .reset (w.write x) baseline away value⟩
  | markAssigned opening => exact ⟨⟨h.stamp, h.pending⟩, .markAssigned (w.write x) opening⟩
  | markRevoked owned => exact ⟨⟨h.stamp, h.pending⟩, .markRevoked (w.write x) owned⟩
  | flush order now iterates => exact ⟨⟨h.stamp, h.pending⟩, .flush (w.write x) order now iterates⟩
  | tick k flushes commits =>
    exact ⟨⟨h.stamp, h.pending⟩, .tick (w.write x) k flushes commits⟩
  | fetch item prev owned next partition stamped fresh =>
    have hstamp : (afterWrite x item).stamp = item.stamp :=
      afterWrite_stamp (h.stamp ⟨w.epoch, item⟩ (List.mem_append_right _ List.mem_cons_self))
    have hoffset := WorkItem.offset_of_stamp hstamp
    refine ⟨⟨fun f hf => h.stamp f (List.mem_append_left _ hf), h.pending⟩, ?_⟩
    rw [write_fetch prev hoffset]
    apply Step.fetch (w.write x) _ prev owned
    · rw [hoffset]
      exact next
    · exact (congrArg WorkItem.Stamp.partition hstamp).trans partition
    · rw [hoffset, WorkItem.previousOffset_of_stamp hstamp,
        show (afterWrite x item).first = item.first from congrArg WorkItem.Stamp.first hstamp]
      exact stamped
    · intro g hg hptr
      obtain ⟨g', hg', hptr'⟩ := holds_write hg
      exact fresh g' hg' (hptr'.trans (hptr.trans afterWrite_ptr))
  | complete before f after now flying known =>
    -- an item that completes is not the one that is still in flight
    have hf : f.write x = f :=
      Fetched.write_other (h.pending f (List.mem_append_right _ List.mem_cons_self))
    refine ⟨⟨h.stamp, fun g hg => h.pending g (List.mem_append_left _ hg)⟩, ?_⟩
    rw [write_complete]
    apply Step.complete (w.write x) _ f _ now _ known
    simp only [World.write, flying, List.map_append, List.map_cons, hf]

theorem SharedStep.write (step : SharedStep slices p w w') (h : w'.Writable x) :
    w.Writable x ∧ SharedStep slices p (w.write x) (w'.write x) := by
  cases step with
  | own step =>
    obtain ⟨hw, hstep⟩ := step.write h
    exact ⟨hw, .own hstep⟩
  | other call legal away => exact ⟨⟨h.stamp, h.pending⟩, .other (w.write x) call legal away⟩

/-- The world with an item in flight as the pipeline left it is a world of another run. -/
theorem reachable_write (h : (sharedSystem slices p).Reachable w) (hx : w.Writable x) :
    (sharedSystem slices p).Reachable (w.write x) := by
  refine System.invariant (M := sharedSystem slices p)
    (P := fun w => w.Writable x → (sharedSystem slices p).Reachable (w.write x)) ?_ ?_ w h hx
  · rintro w rfl _
    exact .init rfl
  · intro w w' _ hw hstep hx'
    obtain ⟨hx, hstep'⟩ := hstep.write hx'
    exact (hw hx).step hstep'

/-- The fetched items are those in flight and those that have completed. -/
theorem flying_completed_perm (h : (sharedSystem slices p).Reachable w) :
    (w.inFlight ++ w.completed).Perm w.history := by
  refine System.invariant (M := sharedSystem slices p)
    (P := fun w => (w.inFlight ++ w.completed).Perm w.history) ?_ ?_ w h
  · rintro w rfl
    exact .refl _
  · intro w w' _ hw hstep
    cases hstep with
    | other call legal away => exact hw
    | own step =>
      cases step with
      | fetch item prev owned next partition stamped fresh =>
        refine List.Perm.trans ?_ (hw.append_right [⟨w.epoch, item⟩])
        show ((w.inFlight ++ [_]) ++ w.completed).Perm _
        rw [List.append_assoc, List.append_assoc]
        exact List.perm_append_comm.append_left w.inFlight
      | complete before f after now flying known =>
        rw [flying] at hw
        refine List.Perm.trans ?_ hw
        show ((before ++ after) ++ (w.completed ++ [f])).Perm _
        have hmiddle : (before ++ f :: (after ++ w.completed)).Perm
            (f :: (before ++ (after ++ w.completed))) := List.perm_middle
        rw [← List.append_assoc]
        refine List.perm_append_comm.trans ?_
        rw [List.append_assoc before, List.append_assoc before]
        exact hmiddle.symm
      | _ => exact hw

/-- A fetched item is in flight or has completed. -/
theorem fetched_flying_or_completed (h : (sharedSystem slices p).Reachable w) :
    ∀ f ∈ w.history, f ∈ w.inFlight ∨ f ∈ w.completed := by
  intro f hf
  exact List.mem_append.mp ((flying_completed_perm h).mem_iff.mpr hf)

/-- The items in flight stand in the order in which they were fetched. -/
theorem flying_sublist (h : (sharedSystem slices p).Reachable w) :
    w.inFlight.Sublist w.history := by
  refine System.invariant (M := sharedSystem slices p)
    (P := fun w => w.inFlight.Sublist w.history) ?_ ?_ w h
  · rintro w rfl
    exact List.Sublist.refl _
  · intro w w' _ hw hstep
    cases hstep with
    | other call legal away => exact hw
    | own step =>
      cases step with
      | fetch item prev owned next partition stamped fresh =>
        exact hw.append (List.Sublist.refl _)
      | complete before f after now flying known =>
        have hdrop : (before ++ after).Sublist (before ++ f :: after) :=
          (List.Sublist.refl before).append (List.sublist_cons_self f after)
        exact hdrop.trans (flying ▸ hw)
      | _ => exact hw

theorem completed_fetched (h : (sharedSystem slices p).Reachable w) :
    ∀ f ∈ w.completed, f ∈ w.history :=
  (ledger_inv h).completed_history

/-- An epoch fetches its records with increasing offsets. -/
theorem fetched_increasing (h : (sharedSystem slices p).Reachable w) :
    w.history.Pairwise fun f g => f.epoch = g.epoch → f.offset < g.offset := by
  refine System.invariant (M := sharedSystem slices p)
    (P := fun w => w.history.Pairwise fun f g => f.epoch = g.epoch → f.offset < g.offset) ?_ ?_ w h
  · rintro w rfl
    exact List.Pairwise.nil
  · intro w w' hw hinv hstep
    cases hstep with
    | other call legal away => exact hinv
    | own step =>
      cases step with
      | fetch item prev owned next partition stamped fresh =>
        refine List.pairwise_append.mpr ⟨hinv, List.pairwise_singleton _ _, ?_⟩
        intro f hf g hg hepoch
        obtain rfl := List.mem_singleton.mp hg
        have hnext : w.fetchPosition ≤ item.offset := next.2.1
        rcases (ledger_inv hw).position with ⟨_, _, hnone⟩ | ⟨last, _, _, _, hlast, hall⟩
        · exact absurd hepoch (hnone f hf)
        · have hle := hall f hf hepoch
          show f.offset < item.offset
          omega
      | _ => exact hinv

/-- What an owned partition's tracker holds has been fetched. -/
theorem holds_fetched (h : (sharedSystem slices p).Reachable w) (owned : w.phase = .assigned)
    {g : WorkItem T} (hg : w.Holds p g) : ∃ f ∈ w.history, f.item.ptr = g.ptr := by
  rcases hg with ⟨f, hf, rfl⟩ | ⟨t, ht, hg⟩
  · exact ⟨f, (flying_sublist h).subset hf, rfl⟩
  · have hinv := shared_inv h
    obtain ⟨t', ht', hopen⟩ := hinv.opened (show w.phase ≠ .closed by rw [owned]; decide)
    rw [ht] at ht'
    obtain rfl := Option.some.inj ht'
    have harrived : w.toLedger.Arrived g.stamp := by
      rcases hg with hg | hg
      · exact hopen.items.ready g hg
      · exact hopen.items.buffer g hg
    obtain ⟨f, hf, hstamp⟩ := harrived
    exact ⟨f, hinv.ledger.completed_history f hf, congrArg WorkItem.Stamp.ptr hstamp⟩

end

/-- `processCommit` on the item behind a pointer, which is in flight no longer. -/
def arrive (w : World T) (x : WorkItem T) (now : Int) : World T :=
  { w.write x with
    inFlight := (w.write x).inFlight.filter fun f => f.item.ptr ≠ x.ptr
    completed := w.completed ++ (w.write x).inFlight.filter fun f => f.item.ptr = x.ptr
    committer := w.committer.processCommit x now }

theorem filter_ne_of_notMem {l : List (Fetched T)} {q : Nat}
    (h : q ∉ l.map fun f => f.item.ptr) :
    (l.filter fun f => f.item.ptr ≠ q) = l ∧ (l.filter fun f => f.item.ptr = q) = [] := by
  constructor
  · apply List.filter_eq_self.mpr
    intro f hf
    exact decide_eq_true fun he => h (he ▸ List.mem_map_of_mem hf)
  · apply List.filter_eq_nil_iff.mpr
    intro f hf
    simp only [decide_eq_true_eq]
    exact fun he => h (he ▸ List.mem_map_of_mem hf)

/-- With one item in flight behind the pointer, its arrival is its completion as written. -/
theorem arrive_eq_complete {w : World T} {x : WorkItem T} {f : Fetched T}
    (pointers : (w.inFlight.map fun f => f.item.ptr).Nodup) (hf : f ∈ w.inFlight)
    (ptr : f.item.ptr = x.ptr) (now : Int) :
    ∃ before after, (w.write x).inFlight = before ++ ⟨f.epoch, x⟩ :: after ∧
      w.arrive x now = (w.write x).complete before ⟨f.epoch, x⟩ after now := by
  obtain ⟨b, a, hsplit⟩ := List.append_of_mem hf
  have hwrite : (w.write x).inFlight =
      b.map (Fetched.write x) ++ ⟨f.epoch, x⟩ :: a.map (Fetched.write x) := by
    simp [write, hsplit, Fetched.write, afterWrite, ptr]
  have hptrs : (w.write x).inFlight.map (fun f => f.item.ptr) =
      w.inFlight.map fun f => f.item.ptr := by
    simp [write, Fetched.write]
  have hnodup := hptrs ▸ pointers
  rw [hwrite, List.map_append, List.map_cons] at hnodup
  obtain ⟨_, hcons, hapart⟩ := List.nodup_append.mp hnodup
  obtain ⟨hbefore, hbefore'⟩ := filter_ne_of_notMem (q := x.ptr)
    fun hb => hapart _ hb _ List.mem_cons_self rfl
  obtain ⟨hafter, hafter'⟩ := filter_ne_of_notMem (q := x.ptr) (List.nodup_cons.mp hcons).1
  refine ⟨_, _, hwrite, ?_⟩
  unfold arrive complete
  rw [hwrite, List.filter_append, List.filter_cons, List.filter_append, List.filter_cons, hbefore,
    hbefore', hafter, hafter']
  simp [write]

end World

end LlingrDemux.Offset
