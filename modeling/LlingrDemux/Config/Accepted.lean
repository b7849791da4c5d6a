import LlingrDemux.Config.Defaults
import LlingrDemux.Pipeline.Warmup

/-!
# Accepted configurations

What the engine takes for granted of a configuration that `SetDemuxConfigDefaults` has
returned: the mask of the shards as a modulus, divisors that are not zero, channels with
room for an item, and pools that the warm-up cannot overfill.
-/

namespace LlingrDemux.Config

open Pipeline Shared
set_option autoImplicit false

/-- The bounds that the rest of the engine relies on. -/
structure DemuxConfig.Accepted (c : DemuxConfig) : Prop where
  keys : 1 ≤ c.concurrentKeys
  buffer : 1 ≤ c.perKeyBufferLen
  shards : ∃ k : Nat, 1 ≤ k ∧ k < 32 ∧ c.workerShardsCount = 2 ^ k

section Bounds
variable {c d : DemuxConfig}

theorem exists_shards_pow {v w : Int} (h : checkWorkerShardsCount false v = .ok w) :
    ∃ k : Nat, 1 ≤ k ∧ k < 32 ∧ w = 2 ^ k := by
  rw [checkWorkerShardsCount_ok_iff] at h
  rcases h with ⟨_, rfl⟩ | ⟨_, rfl, hpow, hle⟩
  · exact ⟨4, by decide, by decide, rfl⟩
  · have hmax := hle rfl
    obtain ⟨k, hk, rfl⟩ := exists_of_isPowerOfTwo hpow (by omega)
    refine ⟨k, hk, ?_, rfl⟩
    rcases Nat.lt_or_ge k 32 with hlt | hge
    · exact hlt
    · have hnat : 2 ^ 32 ≤ 2 ^ k := Nat.pow_le_pow_right (by decide) hge
      have hcast : ((2 ^ k : Nat) : Int) = 2 ^ k := Int.natCast_pow 2 k
      omega

theorem accepted_of_ok (h : c.setDemuxConfigDefaults false = .ok d) : d.Accepted := by
  rw [setDemuxConfigDefaults_ok_iff] at h
  have hkeys := h.concurrentKeys
  have hbuffer := h.perKeyBufferLen
  rw [Setting.checkMaximum_ok_iff] at hkeys hbuffer
  simp only [Setting.concurrentKeys] at hkeys
  simp only [Setting.perKeyBufferLen] at hbuffer
  exact ⟨by omega, by omega, exists_shards_pow h.workerShardsCount⟩

namespace DemuxConfig.Accepted

theorem shards_pos (h : c.Accepted) : 0 < c.workerShardsCount := by
  obtain ⟨k, _, _, hk⟩ := h.shards
  rw [hk]
  exact Int.pow_pos (by decide)

theorem calcMinimumIdleWorkers_eq (h : c.Accepted) :
    c.calcMinimumIdleWorkers =
      some ((c.workerShardsCount + c.concurrentKeys - 1) / c.workerShardsCount) := by
  have hshards := h.shards_pos
  have hkeys := h.keys
  unfold calcMinimumIdleWorkers quotient cmpOr
  rw [if_pos (show c.workerShardsCount ≠ 0 by omega),
    if_pos (show c.concurrentKeys ≠ 0 by omega), if_neg (by omega),
    Int.tdiv_eq_ediv_of_nonneg (by omega)]

/-- The rounded-up share of the keys is at least one and at most all of them. -/
theorem calcMinimumIdleWorkers_bounds (h : c.Accepted) :
    ∃ m, c.calcMinimumIdleWorkers = some m ∧ 1 ≤ m ∧ m ≤ c.concurrentKeys := by
  have hshards := h.shards_pos
  have hkeys := h.keys
  refine ⟨_, h.calcMinimumIdleWorkers_eq, ?_, ?_⟩
  · rw [Int.le_ediv_iff_mul_le hshards]
    omega
  · apply Int.le_of_lt_add_one
    rw [Int.ediv_lt_iff_lt_mul hshards]
    have hprod : 0 ≤ c.concurrentKeys * (c.workerShardsCount - 1) :=
      Int.mul_nonneg (by omega) (by omega)
    rw [Int.mul_sub] at hprod
    rw [Int.add_mul]
    omega

end DemuxConfig.Accepted

end Bounds

/-- What `NewDemux` makes of an accepted configuration: a guard for the concurrent keys, and
an overflow guard of any capacity, shared or absent. -/
def DemuxConfig.pipeline (c : DemuxConfig) (h : c.Accepted) (overflowCap : Nat) :
    Pipeline.Config where
  workerShardsCount := c.workerShardsCount.toNat
  perKeyBufferLen := c.perKeyBufferLen.toNat
  guardCap := c.concurrentKeys.toNat
  overflowCap := overflowCap
  minIdleWorkers := (c.calcMinimumIdleWorkers.getD 0).toNat
  shards_pos := by have := h.shards_pos; omega
  buffer_pos := by have := h.buffer; omega

/-- The operations of the engine that a configuration could break. -/
structure DemuxConfig.Safe (d : DemuxConfig) (h : d.Accepted) : Prop where
  powerOfTwo : ∃ k : Nat, d.workerShardsCount = 2 ^ k
  hashIndex : ∀ key : String,
    (Fnv.hashIndex key (UInt32.ofNat (d.workerShardsCount.toNat - 1))).toNat =
      (Fnv.hash Fnv.offsetBasis key.toUTF8.data.toList).toNat % d.workerShardsCount.toNat
  hashBytes : ∀ bytes : List UInt8,
    (Fnv.hashIndexOf bytes (UInt32.ofNat (d.workerShardsCount.toNat - 1))).toNat =
      (Fnv.hash Fnv.offsetBasis bytes).toNat % d.workerShardsCount.toNat
  /-- The index is one of the `WorkerShardsCount` shards that `NewDemux` makes. -/
  indexed : ∀ bytes : List UInt8,
    (Fnv.hashIndexOf bytes (UInt32.ofNat (d.workerShardsCount.toNat - 1))).toNat <
      d.workerShardsCount.toNat
  divisors : 0 < d.workerShardsCount ∧
    0 < cmpOr d.workerShardsCount Setting.workerShardsCount.default
  mapSize : d.calcWorkerChannelsMapSize.isSome
  buffer : 1 ≤ d.perKeyBufferLen
  minimumIdle : ∃ m, d.calcMinimumIdleWorkers = some m ∧ 1 ≤ m ∧ m ≤ d.concurrentKeys
  /-- In no run does the warm-up return a worker to a full pool. -/
  warmup : ∀ (T : Type) (overflowCap : Nat) (caller : Caller) (s : Demux T),
    (demuxSystem T (d.pipeline h overflowCap) caller).Reachable s →
      ∀ i id warmed, (s.shards i).warmup = .returning (id :: warmed) →
        (s.shards i).workerPool.length < (d.pipeline h overflowCap).workerPoolSize
  gapBuffer : 1 ≤ d.gapBufferSize

namespace DemuxConfig.Accepted
variable {d : DemuxConfig}

theorem hashIndexOf_eq (h : d.Accepted) (bytes : List UInt8) :
    (Fnv.hashIndexOf bytes (UInt32.ofNat (d.workerShardsCount.toNat - 1))).toNat =
      (Fnv.hash Fnv.offsetBasis bytes).toNat % d.workerShardsCount.toNat := by
  obtain ⟨k, _, hk, hshards⟩ := h.shards
  have hnat : d.workerShardsCount.toNat = 2 ^ k := by
    have hcast : ((2 ^ k : Nat) : Int) = 2 ^ k := Int.natCast_pow 2 k
    rw [hshards, ← hcast]
    exact Int.toNat_natCast _
  rw [hnat]
  exact Fnv.hashIndexOf_two_pow bytes hk

theorem minIdleWorkers_le (h : d.Accepted) (overflowCap : Nat) :
    (d.pipeline h overflowCap).minIdleWorkers ≤ (d.pipeline h overflowCap).workerPoolSize := by
  obtain ⟨m, hm, _, hle⟩ := h.calcMinimumIdleWorkers_bounds
  have hidle : (d.pipeline h overflowCap).minIdleWorkers = m.toNat := by
    show (d.calcMinimumIdleWorkers.getD 0).toNat = _
    rw [hm, Option.getD_some]
  have hpool : (d.pipeline h overflowCap).workerPoolSize =
      d.concurrentKeys.toNat + overflowCap := rfl
  omega

theorem safe (h : d.Accepted) : d.Safe h where
  powerOfTwo := by
    obtain ⟨k, _, _, hk⟩ := h.shards
    exact ⟨k, hk⟩
  hashIndex key := h.hashIndexOf_eq _
  hashBytes := h.hashIndexOf_eq
  indexed bytes := by
    have hpos := h.shards_pos
    rw [h.hashIndexOf_eq]
    exact Nat.mod_lt _ (by omega)
  divisors := by
    have hpos := h.shards_pos
    refine ⟨hpos, ?_⟩
    rw [cmpOr, if_pos (by omega)]
    exact hpos
  mapSize := by
    have hpos := h.shards_pos
    unfold calcWorkerChannelsMapSize quotient
    rw [if_neg (by omega)]
    rfl
  buffer := h.buffer
  minimumIdle := h.calcMinimumIdleWorkers_bounds
  warmup T overflowCap caller s hs i id warmed pc :=
    (Warming.of_reachable hs).room (h.minIdleWorkers_le overflowCap) pc
  gapBuffer := by
    have hkeys := h.keys
    unfold gapBufferSize
    rw [Int.tdiv_eq_ediv_of_nonneg (by omega)]
    omega

end DemuxConfig.Accepted

/-- With validation enabled every configuration is rejected, or comes back as one that is
accepted unchanged and safe for the engine. -/
theorem setDemuxConfigDefaults_safe (c : DemuxConfig) :
    (∃ e, c.setDemuxConfigDefaults false = .error e) ∨
      ∃ (d : DemuxConfig) (h : d.Accepted), c.setDemuxConfigDefaults false = .ok d ∧
        d.setDemuxConfigDefaults false = .ok d ∧ d.Safe h := by
  cases hset : c.setDemuxConfigDefaults false with
  | error e => exact .inl ⟨e, rfl⟩
  | ok d =>
    have haccepted := accepted_of_ok hset
    exact .inr ⟨d, haccepted, rfl, setDemuxConfigDefaults_fixed hset, haccepted.safe⟩

/-- The zero configuration gets the defaults; three shards are refused. -/
example : (({} : DemuxConfig).setDemuxConfigDefaults false).toOption.map
    (fun d => (d.concurrentKeys, d.commitIngestChannelLen, d.workerShardsCount)) =
      some (250, 25000, 16) ∧
    ({ workerShardsCount := 3 } : DemuxConfig).setDemuxConfigDefaults false =
      .error ⟨"invalid WorkerShardsCount: %d, must be a power of 2", [3]⟩ := by
  decide

end LlingrDemux.Config
