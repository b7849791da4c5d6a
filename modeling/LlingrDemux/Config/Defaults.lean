import Mathlib.Algebra.Group.Nat.Defs
import Mathlib.Algebra.Ring.Int.Defs
import Mathlib.Data.List.Count
import Mathlib.Tactic.Common

/-!
# Defaults and validation of the configuration

`SetDemuxConfigDefaults`: thirteen fields, checked one after the other. A value below one
asks for the default; anything else has to be within the field's bounds unless validation
is skipped. Durations are in nanoseconds. A panic ends the call with its error; the fields
it has already filled in on the receiver are not kept.
-/

namespace LlingrDemux.Config

set_option autoImplicit false

structure DemuxConfig where
  concurrentKeys : Int := 0
  perKeyBufferLen : Int := 0
  pollTimeout : Int := 0
  autoCommitInterval : Int := 0
  drainTimeout : Int := 0
  awaitAssignmentsTimeout : Int := 0
  commitIngestChannelLen : Int := 0
  commitPartitionSliceLen : Int := 0
  queryTimeout : Int := 0
  acquireWorkerTimeoutCircuitBreaker : Int := 0
  workerShardsCount : Int := 0
  rebalancePausePollingTimeout : Int := 0
  acquireCommitGuardTimeout : Int := 0
  deriving DecidableEq, Repr

def millisecond : Int := 1000000

def second : Int := 1000 * millisecond

def minute : Int := 60 * second

/-- The error of a panic: the format and the values it prints. -/
structure ValidationError where
  format : String
  args : List Int
  deriving DecidableEq, Repr

/-- A field: its name, the verb its values are printed with, its default and its maximum,
which the default does not exceed. -/
structure Capped where
  name : String
  verb : String
  default : Int
  maximum : Int
  default_pos : 1 ≤ default := by decide
  default_max : default ≤ maximum := by decide

def Capped.tooHigh (f : Capped) (v : Int) : ValidationError :=
  { format := "invalid " ++ f.name ++ ": " ++ f.verb ++ ", should be no more than " ++ f.verb
    args := [v, f.maximum] }

/-- A field with a minimum as well. -/
structure Setting extends Capped where
  minimum : Int
  default_min : minimum ≤ default := by decide

namespace Setting

section
variable (f : Setting)

def tooLow (v : Int) : ValidationError :=
  { format := "invalid " ++ f.name ++ ": " ++ f.verb ++ ", should be no less than " ++ f.verb
    args := [v, f.minimum] }

/-- The switch over a field with both bounds. -/
def check (skipValidation : Bool) (v : Int) : Except ValidationError Int :=
  if v < 1 then .ok f.default
  else if v < f.minimum && !skipValidation then .error (f.tooLow v)
  else if v > f.maximum && !skipValidation then .error (f.tooHigh v)
  else .ok v

/-- The two fields whose default stands in for everything below the minimum. -/
def checkMaximum (skipValidation : Bool) (v : Int) : Except ValidationError Int :=
  if v < f.minimum then .ok f.default
  else if v > f.maximum && !skipValidation then .error (f.tooHigh v)
  else .ok v

end

def concurrentKeys : Setting where
  name := "ConcurrentKeys"
  verb := "%d"
  default := 250
  minimum := 1
  maximum := 5000

def perKeyBufferLen : Setting where
  name := "PerKeyBufferLen"
  verb := "%d"
  default := 16
  minimum := 1
  maximum := 64

def pollTimeout : Setting where
  name := "PollTimeout"
  verb := "%s"
  default := 100 * millisecond
  minimum := 20 * millisecond
  maximum := 2 * second

def commitInterval : Setting where
  name := "AutoCommitInterval"
  verb := "%s"
  default := 5 * second
  minimum := 250 * millisecond
  maximum := 15 * second

def queryTimeout : Setting where
  name := "QueryTimeout"
  verb := "%s"
  default := 5 * second
  minimum := 1 * second
  maximum := 10 * second

def drainTimeout : Setting where
  name := "DrainTimeout"
  verb := "%s"
  default := 20 * second
  minimum := 2 * second
  maximum := 55 * second

def awaitAssignmentsTimeout : Setting where
  name := "AwaitAssignmentsTimeout"
  verb := "%s"
  default := 50 * second
  minimum := 5 * second
  maximum := 5 * minute

def commitIngestChannelLenCalcMin : Int := 5000

def commitIngestChannelLenCalcMax : Int := 100000

/-- The default follows the keys, which have been checked before. -/
def calcCommitIngestChannelLen (keys : Int) : Int :=
  if keys < 50 then commitIngestChannelLenCalcMin
  else if keys > 1000 then commitIngestChannelLenCalcMax
  else keys * 100

theorem calcCommitIngestChannelLen_bounds (keys : Int) :
    5000 ≤ calcCommitIngestChannelLen keys ∧ calcCommitIngestChannelLen keys ≤ 100000 := by
  unfold calcCommitIngestChannelLen commitIngestChannelLenCalcMin commitIngestChannelLenCalcMax
  split
  · decide
  · split
    · decide
    · omega

def commitIngestChannelLen (keys : Int) : Setting where
  name := "CommitIngestChannelLen"
  verb := "%d"
  default := calcCommitIngestChannelLen keys
  minimum := 1000
  maximum := 200000
  default_pos := by have := calcCommitIngestChannelLen_bounds keys; omega
  default_min := by have := calcCommitIngestChannelLen_bounds keys; omega
  default_max := by have := calcCommitIngestChannelLen_bounds keys; omega

def commitPartitionSliceLen : Setting where
  name := "CommitPartitionSliceLen"
  verb := "%d"
  default := 400
  minimum := 50
  maximum := 2000

def acquireWorkerTimeoutCircuitBreaker : Setting where
  name := "AcquireWorkerTimeoutCircuitBreaker"
  verb := "%s"
  default := minute
  minimum := 15 * second
  maximum := 15 * minute

def workerShardsCount : Capped where
  name := "WorkerShardsCount"
  verb := "%d"
  default := 16
  maximum := 64

def rebalancePausePollingTimeout : Setting where
  name := "RebalancePausePollingTimeout"
  verb := "%s"
  default := 30 * second
  minimum := 10 * second
  maximum := 10 * minute

def acquireCommitGuardTimeout : Setting where
  name := "AcquireCommitGuardTimeout"
  verb := "%s"
  default := 10 * second
  minimum := 100 * millisecond
  maximum := 30 * second

end Setting

/-- `bits.OnesCount` of a 64-bit word. -/
def onesCount (n : Nat) : Nat := (List.range 64).countP n.testBit

def isPowerOfTwo (value : Int) : Bool := decide (value ≥ 2) && onesCount value.toNat == 1

def notPowerOfTwo (v : Int) : ValidationError :=
  { format := "invalid WorkerShardsCount: %d, must be a power of 2"
    args := [v] }

/-- The shards have no minimum; that they are not a power of two is an error even when
validation is skipped. -/
def checkWorkerShardsCount (skipValidation : Bool) (v : Int) : Except ValidationError Int :=
  if v < 1 then .ok Setting.workerShardsCount.default
  else if !isPowerOfTwo v then .error (notPowerOfTwo v)
  else if v > Setting.workerShardsCount.maximum && !skipValidation then
    .error (Setting.workerShardsCount.tooHigh v)
  else .ok v

namespace DemuxConfig

def setDemuxConfigDefaults (skipValidation : Bool) (c : DemuxConfig) :
    Except ValidationError DemuxConfig := do
  let keys ← Setting.concurrentKeys.checkMaximum skipValidation c.concurrentKeys
  let buffer ← Setting.perKeyBufferLen.checkMaximum skipValidation c.perKeyBufferLen
  let poll ← Setting.pollTimeout.check skipValidation c.pollTimeout
  let commit ← Setting.commitInterval.check skipValidation c.autoCommitInterval
  let query ← Setting.queryTimeout.check skipValidation c.queryTimeout
  let drain ← Setting.drainTimeout.check skipValidation c.drainTimeout
  let assignments ← Setting.awaitAssignmentsTimeout.check skipValidation c.awaitAssignmentsTimeout
  let ingest ← (Setting.commitIngestChannelLen keys).check skipValidation c.commitIngestChannelLen
  let slice ← Setting.commitPartitionSliceLen.check skipValidation c.commitPartitionSliceLen
  let acquire ← Setting.acquireWorkerTimeoutCircuitBreaker.check skipValidation
    c.acquireWorkerTimeoutCircuitBreaker
  let shards ← checkWorkerShardsCount skipValidation c.workerShardsCount
  let pause ← Setting.rebalancePausePollingTimeout.check skipValidation c.rebalancePausePollingTimeout
  let guardTimeout ← Setting.acquireCommitGuardTimeout.check skipValidation c.acquireCommitGuardTimeout
  return {
    concurrentKeys := keys
    perKeyBufferLen := buffer
    pollTimeout := poll
    autoCommitInterval := commit
    drainTimeout := drain
    awaitAssignmentsTimeout := assignments
    commitIngestChannelLen := ingest
    commitPartitionSliceLen := slice
    queryTimeout := query
    acquireWorkerTimeoutCircuitBreaker := acquire
    workerShardsCount := shards
    rebalancePausePollingTimeout := pause
    acquireCommitGuardTimeout := guardTimeout }

end DemuxConfig

/-- Integer division, which panics on zero. -/
def quotient (a b : Int) : Option Int := if b = 0 then none else some (a.tdiv b)

/-- `cmp.Or`: the first of the two that is not zero. -/
def cmpOr (a b : Int) : Int := if a ≠ 0 then a else b

namespace DemuxConfig

variable (c : DemuxConfig)

def calcWorkerChannelsMapSize : Option Int :=
  (quotient c.concurrentKeys c.workerShardsCount).map fun perShard =>
    let count := 2 * perShard
    if count ≤ 64 then 128
    else if count ≤ 128 then 256
    else if count ≤ 256 then 512
    else if count ≤ 512 then 1024
    else if count ≤ 1024 then 2048
    else 4096

def calcMinimumIdleWorkers : Option Int :=
  let shardsCount := cmpOr c.workerShardsCount Setting.workerShardsCount.default
  let keys := cmpOr c.concurrentKeys Setting.concurrentKeys.default
  quotient (shardsCount + keys - 1) shardsCount

/-- The capacity the committer starts its gap buffers with, in `NewOffsetCommitter`. -/
def gapBufferSize : Int := (c.concurrentKeys * 3).tdiv 2

end DemuxConfig

section Checks
variable {skipValidation : Bool} {f : Setting} {v w : Int}

theorem Setting.check_ok_iff : f.check skipValidation v = .ok w ↔
    v < 1 ∧ w = f.default ∨
      1 ≤ v ∧ w = v ∧ (skipValidation = false → f.minimum ≤ v ∧ v ≤ f.maximum) := by
  unfold Setting.check
  cases skipValidation <;> grind

theorem Setting.checkMaximum_ok_iff : f.checkMaximum skipValidation v = .ok w ↔
    v < f.minimum ∧ w = f.default ∨
      f.minimum ≤ v ∧ w = v ∧ (skipValidation = false → v ≤ f.maximum) := by
  unfold Setting.checkMaximum
  cases skipValidation <;> grind

theorem checkWorkerShardsCount_ok_iff : checkWorkerShardsCount skipValidation v = .ok w ↔
    v < 1 ∧ w = 16 ∨
      1 ≤ v ∧ w = v ∧ isPowerOfTwo v = true ∧ (skipValidation = false → v ≤ 64) := by
  unfold checkWorkerShardsCount
  cases skipValidation <;> simp only [Setting.workerShardsCount] <;> grind

/-- What a check lets through, and the default it puts in, it lets through again. -/
theorem Setting.check_fixed (h : f.check skipValidation v = .ok w) :
    f.check skipValidation w = .ok w := by
  have hpos := f.default_pos
  have hmin := f.default_min
  have hmax := f.default_max
  rw [check_ok_iff] at h ⊢
  rcases h with ⟨_, rfl⟩ | ⟨hv, rfl, hb⟩
  · exact .inr ⟨hpos, rfl, fun _ => ⟨hmin, hmax⟩⟩
  · exact .inr ⟨hv, rfl, hb⟩

theorem Setting.checkMaximum_fixed (h : f.checkMaximum skipValidation v = .ok w) :
    f.checkMaximum skipValidation w = .ok w := by
  have hmin := f.default_min
  have hmax := f.default_max
  rw [checkMaximum_ok_iff] at h ⊢
  rcases h with ⟨_, rfl⟩ | ⟨hv, rfl, hb⟩
  · exact .inr ⟨hmin, rfl, fun _ => hmax⟩
  · exact .inr ⟨hv, rfl, hb⟩

theorem checkWorkerShardsCount_fixed (h : checkWorkerShardsCount skipValidation v = .ok w) :
    checkWorkerShardsCount skipValidation w = .ok w := by
  rw [checkWorkerShardsCount_ok_iff] at h ⊢
  rcases h with ⟨_, rfl⟩ | ⟨hv, rfl, hb⟩
  · exact .inr ⟨by decide, rfl, by decide, fun _ => by decide⟩
  · exact .inr ⟨hv, rfl, hb⟩

end Checks

/-- Every field of the second configuration is what its check makes of the first's. -/
structure Checked (skipValidation : Bool) (c d : DemuxConfig) : Prop where
  concurrentKeys :
    Setting.concurrentKeys.checkMaximum skipValidation c.concurrentKeys = .ok d.concurrentKeys
  perKeyBufferLen :
    Setting.perKeyBufferLen.checkMaximum skipValidation c.perKeyBufferLen = .ok d.perKeyBufferLen
  pollTimeout : Setting.pollTimeout.check skipValidation c.pollTimeout = .ok d.pollTimeout
  autoCommitInterval :
    Setting.commitInterval.check skipValidation c.autoCommitInterval = .ok d.autoCommitInterval
  queryTimeout : Setting.queryTimeout.check skipValidation c.queryTimeout = .ok d.queryTimeout
  drainTimeout : Setting.drainTimeout.check skipValidation c.drainTimeout = .ok d.drainTimeout
  awaitAssignmentsTimeout :
    Setting.awaitAssignmentsTimeout.check skipValidation c.awaitAssignmentsTimeout =
      .ok d.awaitAssignmentsTimeout
  commitIngestChannelLen :
    (Setting.commitIngestChannelLen d.concurrentKeys).check skipValidation
      c.commitIngestChannelLen = .ok d.commitIngestChannelLen
  commitPartitionSliceLen :
    Setting.commitPartitionSliceLen.check skipValidation c.commitPartitionSliceLen =
      .ok d.commitPartitionSliceLen
  acquireWorkerTimeoutCircuitBreaker :
    Setting.acquireWorkerTimeoutCircuitBreaker.check skipValidation
      c.acquireWorkerTimeoutCircuitBreaker = .ok d.acquireWorkerTimeoutCircuitBreaker
  workerShardsCount :
    checkWorkerShardsCount skipValidation c.workerShardsCount = .ok d.workerShardsCount
  rebalancePausePollingTimeout :
    Setting.rebalancePausePollingTimeout.check skipValidation c.rebalancePausePollingTimeout =
      .ok d.rebalancePausePollingTimeout
  acquireCommitGuardTimeout :
    Setting.acquireCommitGuardTimeout.check skipValidation c.acquireCommitGuardTimeout =
      .ok d.acquireCommitGuardTimeout

theorem bind_ok_iff {α β : Type} {x : Except ValidationError α}
    {f : α → Except ValidationError β} {b : β} :
    (x >>= f) = .ok b ↔ ∃ a, x = .ok a ∧ f a = .ok b := by
  cases x with
  | error e => simp [bind, Except.bind]
  | ok a => simp [bind, Except.bind]

theorem setDemuxConfigDefaults_ok_iff {skipValidation : Bool} {c d : DemuxConfig} :
    c.setDemuxConfigDefaults skipValidation = .ok d ↔ Checked skipValidation c d := by
  unfold DemuxConfig.setDemuxConfigDefaults
  constructor
  · intro h
    simp only [bind_ok_iff] at h
    obtain ⟨keys, hkeys, buffer, hbuffer, poll, hpoll, commit, hcommit, query, hquery, drain,
      hdrain, assignments, hassignments, ingest, hingest, slice, hslice, acquire, hacquire, shards,
      hshards, pause, hpause, guardTimeout, hguardTimeout, h⟩ := h
    cases h
    exact ⟨hkeys, hbuffer, hpoll, hcommit, hquery, hdrain, hassignments, hingest, hslice, hacquire,
      hshards, hpause, hguardTimeout⟩
  · intro h
    obtain ⟨hkeys, hbuffer, hpoll, hcommit, hquery, hdrain, hassignments, hingest, hslice,
      hacquire, hshards, hpause, hguardTimeout⟩ := h
    simp only [bind_ok_iff]
    exact ⟨_, hkeys, _, hbuffer, _, hpoll, _, hcommit, _, hquery, _, hdrain, _, hassignments, _,
      hingest, _, hslice, _, hacquire, _, hshards, _, hpause, _, hguardTimeout, rfl⟩

/-- A configuration that was accepted is accepted as it is. -/
theorem setDemuxConfigDefaults_fixed {skipValidation : Bool} {c d : DemuxConfig}
    (h : c.setDemuxConfigDefaults skipValidation = .ok d) :
    d.setDemuxConfigDefaults skipValidation = .ok d := by
  rw [setDemuxConfigDefaults_ok_iff] at h ⊢
  exact {
    concurrentKeys := Setting.checkMaximum_fixed h.concurrentKeys
    perKeyBufferLen := Setting.checkMaximum_fixed h.perKeyBufferLen
    pollTimeout := Setting.check_fixed h.pollTimeout
    autoCommitInterval := Setting.check_fixed h.autoCommitInterval
    queryTimeout := Setting.check_fixed h.queryTimeout
    drainTimeout := Setting.check_fixed h.drainTimeout
    awaitAssignmentsTimeout := Setting.check_fixed h.awaitAssignmentsTimeout
    commitIngestChannelLen := Setting.check_fixed h.commitIngestChannelLen
    commitPartitionSliceLen := Setting.check_fixed h.commitPartitionSliceLen
    acquireWorkerTimeoutCircuitBreaker :=
      Setting.check_fixed h.acquireWorkerTimeoutCircuitBreaker
    workerShardsCount := checkWorkerShardsCount_fixed h.workerShardsCount
    rebalancePausePollingTimeout := Setting.check_fixed h.rebalancePausePollingTimeout
    acquireCommitGuardTimeout := Setting.check_fixed h.acquireCommitGuardTimeout }

/-- The only bit of a word with one bit set. -/
theorem testBit_of_onesCount {n : Nat} (h : onesCount n = 1) :
    ∃ k < 64, ∀ i < 64, n.testBit i = true ↔ i = k := by
  unfold onesCount at h
  rw [List.countP_eq_length_filter, List.length_eq_one_iff] at h
  obtain ⟨k, hk⟩ := h
  have hmem : ∀ i, i ∈ (List.range 64).filter n.testBit ↔ i = k := by
    intro i
    rw [hk, List.mem_singleton]
  simp only [List.mem_filter, List.mem_range] at hmem
  refine ⟨k, ((hmem k).mpr rfl).1, ?_⟩
  intro i hi
  rw [← hmem i]
  exact ⟨fun h => ⟨hi, h⟩, And.right⟩

theorem exists_of_isPowerOfTwo {value : Int} (h : isPowerOfTwo value = true)
    (range : value < 2 ^ 64) : ∃ k, 1 ≤ k ∧ value = 2 ^ k := by
  unfold isPowerOfTwo at h
  rw [Bool.and_eq_true, decide_eq_true_iff, beq_iff_eq] at h
  obtain ⟨hge, hones⟩ := h
  obtain ⟨k, hk, hbit⟩ := testBit_of_onesCount hones
  have hnat : value.toNat = 2 ^ k := by
    apply Nat.eq_of_testBit_eq
    intro i
    rw [Nat.testBit_two_pow, Bool.eq_iff_iff, decide_eq_true_iff]
    by_cases hi : i < 64
    · rw [hbit i hi]
      exact eq_comm
    · have hlt : value.toNat < 2 ^ i := Nat.lt_of_lt_of_le (show value.toNat < 2 ^ 64 by omega)
        (Nat.pow_le_pow_right (by decide) (Nat.le_of_not_lt hi))
      rw [Nat.testBit_lt_two_pow hlt]
      constructor
      · intro hf
        cases hf
      · intro he
        omega
  have hcast : value = ((2 ^ k : Nat) : Int) := by omega
  refine ⟨k, ?_, ?_⟩
  · rcases Nat.eq_zero_or_pos k with rfl | hpos
    · omega
    · exact hpos
  · rw [hcast]
    exact Int.natCast_pow 2 k

end LlingrDemux.Config
