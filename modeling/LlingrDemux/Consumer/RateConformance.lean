import LlingrDemux.Consumer.RateLimit
import Mathlib.Tactic.Common

/-!
# How often `Await` returns

A token bucket next to a clock in nanoseconds. The ticker fires no earlier than it is due, any
time later, and then aims at the next multiple of its interval, as `time.Ticker` does; a tick
that finds the last one unread is lost. The refill goroutine, callers of `Await` and `Stop` take
turns at single channel operations.
-/

namespace LlingrDemux.Throttle

open Shared
set_option autoImplicit false

/-- `time.Second / time.Duration(ratePerSec)`. -/
def tickInterval (ratePerSec : Int) : Nat := (1000000000 / ratePerSec).toNat

/-- `next` is when the ticker is due; `fired` and `awaited` count the ticks and the calls of
`Await` that have returned. -/
structure Clocked where
  bucket : TokenBucket
  now : Nat := 0
  next : Nat
  fired : Nat := 0
  awaited : Nat := 0
  deriving DecidableEq, Repr

namespace Clocked

inductive Step (burst interval : Nat) : Clocked → Clocked → Prop where
  | pass (c : Clocked) (d : Nat) : Step burst interval c { c with now := c.now + d }
  | fire (c : Clocked) (due : c.next ≤ c.now) (running : c.bucket.cancelled = false) :
      Step burst interval c { c with
        bucket := { c.bucket with ticked := true }
        next := c.next + interval * (1 + (c.now - c.next) / interval)
        fired := c.fired + 1 }
  | refill (c : Clocked) (b : TokenBucket) (move : (tokenBucket burst).background c.bucket b)
      (noTick : b.ticked = true → c.bucket.ticked = true) :
      Step burst interval c { c with bucket := b }
  | await (c : Clocked) (b : TokenBucket) (move : (tokenBucket burst).await c.bucket b) :
      Step burst interval c { c with bucket := b, awaited := c.awaited + 1 }
  | stop (c : Clocked) :
      Step burst interval c { c with bucket := (tokenBucket burst).stop c.bucket }

end Clocked

/-- A new token bucket with the ticker that `NewTokenBucket` starts. -/
def clockedSystem (ratePerSec burst : Int) : System Clocked where
  init c := c = { bucket := (tokenBucket burst.toNat).new, next := tickInterval ratePerSec }
  step := Clocked.Step burst.toNat (tickInterval ratePerSec)

/-- The tokens in the bucket and the ticks on their way to it. -/
def TokenBucket.credit (b : TokenBucket) : Nat :=
  b.tokens + (if b.ticked then 1 else 0) + (if b.refill = .offering then 1 else 0)

theorem TokenBucket.credit_le (b : TokenBucket) : b.credit ≤ b.tokens + 2 := by
  unfold TokenBucket.credit
  split <;> split <;> omega

theorem TokenBucket.credit_tick (b : TokenBucket) :
    { b with ticked := true : TokenBucket }.credit ≤ b.credit + 1 := by
  simp only [TokenBucket.credit, if_true]
  omega

theorem TokenBucket.credit_stop (burst : Nat) (b : TokenBucket) :
    TokenBucket.credit ((tokenBucket burst).stop b) ≤ b.credit := by
  show b.tokens + 0 + (if b.refill = .offering then 1 else 0) ≤ b.credit
  unfold TokenBucket.credit
  omega

theorem Refill.credit {burst : Nat} {b b' : TokenBucket} (h : Refill burst b b')
    (noTick : b'.ticked = true → b.ticked = true) : b'.credit ≤ b.credit := by
  cases h with
  | tick running =>
    have hticked := noTick rfl
    simp [TokenBucket.credit, hticked]
  | receive pc ticked => simp [TokenBucket.credit, pc, ticked]
  | send pc room => simp [TokenBucket.credit, pc]; omega
  | exit pc done => simp [TokenBucket.credit, pc]

theorem Refill.tokens {burst : Nat} {b b' : TokenBucket} (h : Refill burst b b')
    (le : b.tokens ≤ burst) : b'.tokens ≤ burst := by
  cases h with
  | tick running | receive pc ticked | exit pc done => exact le
  | send pc room => exact room

theorem Refill.cancelled {burst : Nat} {b b' : TokenBucket} (h : Refill burst b b') :
    b'.cancelled = b.cancelled := by
  cases h <;> rfl

theorem Take.credit {b b' : TokenBucket} (h : Take b b') : b'.credit + 1 = b.credit := by
  cases h with
  | receive token => simp only [TokenBucket.credit]; omega

namespace Clocked
variable {burst interval : Nat} {c c' : Clocked}

/-- A tick adds at most one token, and only an `Await` takes one. -/
def Spends (c c' : Clocked) : Prop :=
  c'.awaited + c'.bucket.credit + c.fired ≤ c.awaited + c.bucket.credit + c'.fired

theorem Step.spends (step : Step burst interval c c') : Spends c c' := by
  cases step with
  | pass d => exact Nat.le_refl _
  | fire due running =>
    have hcredit := c.bucket.credit_tick
    dsimp only [Spends]
    omega
  | refill b move noTick =>
    have hcredit := Refill.credit move noTick
    dsimp only [Spends]
    omega
  | await b move =>
    have hcredit := Take.credit move
    dsimp only [Spends]
    omega
  | stop =>
    have hcredit := TokenBucket.credit_stop burst c.bucket
    dsimp only [Spends]
    omega

structure Inv (burst interval : Nat) (c : Clocked) : Prop where
  halted : c.bucket.cancelled = true → c.bucket.ticked = false
  spent : c.awaited + c.bucket.credit ≤ burst + c.fired
  rounds : interval * (c.fired + 1) ≤ c.next
  soon : c.next ≤ c.now + interval
  tokens : c.bucket.tokens ≤ burst

theorem Inv.step (h : Inv burst interval c)
    (step : Step burst interval c c') : Inv burst interval c' := by
  obtain ⟨hhalted, hspent, hrounds, hsoon, htokens⟩ := h
  have hspends := step.spends
  simp only [Spends] at hspends
  refine ⟨?_, by omega, ?_, ?_, ?_⟩
  · cases step with
    | pass d => exact hhalted
    | fire due running => exact fun hcancelled => nomatch running.symm.trans hcancelled
    | refill b move noTick =>
      intro hcancelled
      have hticked := hhalted (Refill.cancelled move ▸ hcancelled)
      exact Bool.eq_false_iff.mpr fun hnew => nomatch hticked.symm.trans (noTick hnew)
    | await b move =>
      cases move with
      | receive token => exact hhalted
    | stop => exact fun _ => rfl
  · cases step with
    | pass | refill | await | stop => exact hrounds
    | fire due running =>
      show interval * (c.fired + 1 + 1) ≤ c.next + interval * (1 + (c.now - c.next) / interval)
      have hone : interval ≤ interval * (1 + (c.now - c.next) / interval) :=
        Nat.le_mul_of_pos_right _ (Nat.add_pos_left Nat.zero_lt_one _)
      rw [Nat.mul_succ]
      omega
  · cases step with
    | pass d =>
      show c.next ≤ c.now + d + interval
      omega
    | refill | await | stop => exact hsoon
    | fire due running =>
      show c.next + interval * (1 + (c.now - c.next) / interval) ≤ c.now + interval
      have hfloor := Nat.mul_div_le (c.now - c.next) interval
      rw [Nat.mul_add, Nat.mul_one]
      omega
  · cases step with
    | pass | fire | stop => exact htokens
    | refill b move noTick => exact Refill.tokens move htokens
    | await b move =>
      cases move with
      | receive token => exact Nat.le_trans (Nat.sub_le _ _) htokens

theorem inv_of_reachable {ratePerSec burst : Int} (h : (clockedSystem ratePerSec burst).Reachable c) :
    Inv burst.toNat (tickInterval ratePerSec) c := by
  refine System.invariant (P := Inv burst.toNat (tickInterval ratePerSec)) ?_ ?_ c h
  · intro c hc
    obtain rfl := hc
    refine ⟨nofun, ?_, Nat.le_of_eq (Nat.mul_one _), Nat.le_of_eq (Nat.zero_add _).symm,
      Nat.le_refl _⟩
    exact Nat.le_of_eq (Nat.zero_add _)
  · exact fun c c' _ hinv step => hinv.step step

/-- The ticks since `c`: a late one, and then one for every interval. -/
def Since (interval : Nat) (c c' : Clocked) : Prop :=
  (c'.fired = c.fired ∧ c'.next = c.next) ∨
    ∃ k, c'.fired = c.fired + 1 + k ∧ c.now + interval * k < c'.next

theorem Since.step {c₀ : Clocked} (h : Since interval c₀ c) (later : c₀.now ≤ c.now)
    (positive : 0 < interval) (step : Step burst interval c c') : Since interval c₀ c' := by
  cases step with
  | pass | refill | await | stop => exact h
  | fire due running =>
    have hdiv := Nat.lt_mul_div_succ (c.now - c.next) positive
    rw [Nat.add_comm] at hdiv
    rcases h with ⟨hfired, _⟩ | ⟨k, hfired, hnext⟩
    · refine .inr ⟨0, congrArg (· + 1) hfired, ?_⟩
      show c₀.now + interval * 0 < c.next + interval * (1 + (c.now - c.next) / interval)
      omega
    · refine .inr ⟨k + 1, congrArg (· + 1) hfired, ?_⟩
      have hone : interval ≤ interval * (1 + (c.now - c.next) / interval) :=
        Nat.le_mul_of_pos_right _ (Nat.add_pos_left Nat.zero_lt_one _)
      show c₀.now + interval * (k + 1) < c.next + interval * (1 + (c.now - c.next) / interval)
      rw [Nat.mul_succ]
      omega

theorem Step.now_le (step : Step burst interval c c') : c.now ≤ c'.now := by
  cases step with
  | pass d => exact Nat.le_add_right _ _
  | fire | refill | await | stop => exact Nat.le_refl _

/-- After `Stop` the ticker does not fire again. -/
theorem Step.stopped (step : Step burst interval c c') (cancelled : c.bucket.cancelled = true) :
    c'.bucket.cancelled = true ∧ c'.fired = c.fired := by
  cases step with
  | pass d => exact ⟨cancelled, rfl⟩
  | fire due running => exact nomatch running.symm.trans cancelled
  | refill b move noTick => exact ⟨(Refill.cancelled move).trans cancelled, rfl⟩
  | await b move =>
    cases move with
    | receive token => exact ⟨cancelled, rfl⟩
  | stop => exact ⟨rfl, rfl⟩

section Run
variable {ratePerSec burst : Int} (run : (clockedSystem ratePerSec burst).Run c c')
include run

theorem run_spends : Spends c c' := by
  induction run with
  | refl => exact Nat.le_refl _
  | tail _ step ih =>
    have hstep := Step.spends step
    simp only [Spends] at ih hstep ⊢
    omega

theorem run_since (positive : 0 < tickInterval ratePerSec) :
    c.now ≤ c'.now ∧ Since (tickInterval ratePerSec) c c' := by
  induction run with
  | refl => exact ⟨Nat.le_refl _, .inl ⟨rfl, rfl⟩⟩
  | tail _ step ih => exact ⟨Nat.le_trans ih.1 (Step.now_le step), ih.2.step ih.1 positive step⟩

theorem run_stopped (cancelled : c.bucket.cancelled = true) : c'.fired = c.fired := by
  have hboth : c'.bucket.cancelled = true ∧ c'.fired = c.fired := by
    induction run with
    | refl => exact ⟨cancelled, rfl⟩
    | tail _ step ih =>
      obtain ⟨hcancelled, hfired⟩ := Step.stopped step ih.1
      exact ⟨hcancelled, hfired.trans ih.2⟩
  exact hboth.2

end Run

/-- The ticks between two states of a run. -/
theorem fired_le {interval : Nat} (positive : 0 < interval) (since : Since interval c c')
    (later : c.now ≤ c'.now) (soon : c'.next ≤ c'.now + interval) :
    c'.fired ≤ c.fired + 2 + (c'.now - c.now) / interval := by
  rcases since with ⟨hfired, _⟩ | ⟨k, hfired, hnext⟩
  · rw [hfired, Nat.add_assoc]
    exact Nat.le_add_right _ _
  · cases k with
    | zero =>
      rw [hfired]
      exact Nat.le_add_right_of_le (Nat.le_succ _)
    | succ k =>
      rw [Nat.mul_succ] at hnext
      have hwhole : k ≤ (c'.now - c.now) / interval := by
        rw [Nat.le_div_iff_mul_le positive, Nat.mul_comm]
        omega
      omega

theorem tickInterval_pos {ratePerSec : Int} (least : 1 ≤ ratePerSec) (greatest : ratePerSec ≤ 5000) :
    0 < tickInterval ratePerSec := by
  have hone : (1 : Int) ≤ 1000000000 / ratePerSec := by
    rw [Int.le_ediv_iff_mul_le (by omega)]
    omega
  unfold tickInterval
  omega

/-- A token bucket lets no more callers through than its burst and the rate allow: at most
`burst` and one for every interval since it was made; between any two moments at most four more
than `burst` and the intervals between them, for the tokens on their way and a late tick; and
after `Stop` at most `burst` and the one token the refill goroutine has in hand. -/
theorem await_rate (ratePerSec burst : Int) {limiter : RateLimiter}
    (built : newTokenBucket ratePerSec burst = .ok limiter)
    (h : (clockedSystem ratePerSec burst).Reachable c)
    (run : (clockedSystem ratePerSec burst).Run c c') :
    c'.awaited ≤ burst.toNat + c'.now / tickInterval ratePerSec ∧
    c'.awaited ≤ c.awaited + burst.toNat + 4 + (c'.now - c.now) / tickInterval ratePerSec ∧
    (c.bucket.cancelled = true → c'.awaited ≤ c.awaited + burst.toNat + 1) := by
  have hrate : 1 ≤ ratePerSec ∧ ratePerSec ≤ 5000 := by
    unfold newTokenBucket at built
    split at built
    · exact nomatch built
    · omega
  have hpositive := tickInterval_pos hrate.1 hrate.2
  have hinv := inv_of_reachable h
  have hinv' := inv_of_reachable (h.run run)
  have hspends := run_spends run
  simp only [Spends] at hspends
  refine ⟨?_, ?_, ?_⟩
  · -- the next tick is due after as many intervals as there were ticks, and at most one from now
    have hrounds := hinv'.rounds
    rw [Nat.mul_succ] at hrounds
    have hfired : c'.fired ≤ c'.now / tickInterval ratePerSec := by
      rw [Nat.le_div_iff_mul_le hpositive, Nat.mul_comm]
      have hsoon := hinv'.soon
      omega
    have hspent := hinv'.spent
    omega
  · obtain ⟨hlater, hsince⟩ := run_since run hpositive
    have hfired := fired_le hpositive hsince hlater hinv'.soon
    have hcredit := c.bucket.credit_le
    have htokens := hinv.tokens
    omega
  · intro hcancelled
    have hfired := run_stopped run hcancelled
    have hcredit : c.bucket.credit ≤ c.bucket.tokens + 1 := by
      simp only [TokenBucket.credit, hinv.halted hcancelled, Bool.false_eq_true, if_false]
      split <;> omega
    have htokens := hinv.tokens
    omega

/-- The burst of a full bucket. -/
theorem await_rate_sample : ∃ c : Clocked, c.awaited = 2 ∧ c.now = 0 ∧
    c.awaited ≤ 2 + c.now / tickInterval 100 := by
  have h0 : (clockedSystem 100 2).Reachable _ := .init rfl
  have h1 : (clockedSystem 100 2).step { bucket := { tokens := 2 }, next := tickInterval 100 } _ :=
    .await _ _ (.receive _ Nat.two_pos)
  have h2 := (Relation.ReflTransGen.single h1).tail (.await _ _ (.receive _ Nat.zero_lt_one))
  exact ⟨_, rfl, rfl, (await_rate 100 2 rfl h0 h2).1⟩

end Clocked

end LlingrDemux.Throttle
