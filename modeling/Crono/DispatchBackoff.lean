import Crono.ControlPlaneSchema
import Crono.MachineIntegers
import Crono.RunDomain
import Mathlib.Algebra.Order.Ring.Abs

/-! The delay before an outbox row whose publication failed is offered again, and the bounds that
the environment of the dispatcher is checked against. -/
namespace DispatchBackoff

open FallibleLists
open MachineIntegers
open RunDomain

abbrev Duration := ℤ

def Duration.fromSecs (seconds : ℤ) : Duration := seconds * 1000000000

def Duration.fromMillis (millis : ℤ) : Duration := millis * 1000000

def Duration.asSecs (d : Duration) : ℤ := d / 1000000000

def Duration.asMillis (d : Duration) : ℤ := d / 1000000

def u16 : Width := unsigned 16

def u64 : Width := unsigned 64

def i64 : Width := signed 64

structure DispatcherConfig where
  batchSize : ℤ
  maxInFlight : ℤ
  claimLease : Duration
  retryInitial : Duration
  retryMax : Duration
  deriving DecidableEq, Repr

def DispatcherConfig.default : DispatcherConfig :=
  ⟨100, 32, .fromSecs 60, .fromSecs 1, .fromSecs 60⟩

/-- A variable that is unset, or whose value is not Unicode, is absent. -/
abbrev Environment := String → Option String

def envValue (environment : Environment) (w : Width) (name : String) (default : ℤ) :
    Except String ℤ :=
  match environment name with
  | none => .ok default
  | some value =>
      match w.parse value with
      | some parsed => .ok parsed
      | none => .error ("invalid " ++ name)

def DispatcherConfig.fromEnv (environment : Environment) : Except String DispatcherConfig := do
  let defaults := DispatcherConfig.default
  let batchSize ← envValue environment u16 "CRONO_OUTBOX_BATCH_SIZE" defaults.batchSize
  let maxInFlight ← envValue environment u64 "CRONO_OUTBOX_MAX_IN_FLIGHT" defaults.maxInFlight
  let claimLeaseSeconds ←
    envValue environment u64 "CRONO_OUTBOX_CLAIM_LEASE_SECONDS" defaults.claimLease.asSecs
  let retryInitialMs ← envValue environment u64 "CRONO_OUTBOX_RETRY_INITIAL_MS"
    ((u64.checked defaults.retryInitial.asMillis).getD 1000)
  let retryMaxMs ← envValue environment u64 "CRONO_OUTBOX_RETRY_MAX_MS"
    ((u64.checked defaults.retryMax.asMillis).getD 60000)
  if ¬ (1 ≤ batchSize ∧ batchSize ≤ 1000) ∨ ¬ (1 ≤ maxInFlight ∧ maxInFlight ≤ 1024) ∨
      ¬ (10 ≤ claimLeaseSeconds ∧ claimLeaseSeconds ≤ 600) ∨
      ¬ (100 ≤ retryInitialMs ∧ retryInitialMs ≤ 60000) ∨
      retryMaxMs < retryInitialMs ∨ 3600000 < retryMaxMs then
    .error "outbox publisher configuration is outside safe bounds"
  else
    .ok ⟨batchSize, maxInFlight, .fromSecs claimLeaseSeconds, .fromMillis retryInitialMs,
      .fromMillis retryMaxMs⟩

/-- The sixteen bytes of an identifier, the most significant first. -/
def asBytes (id : Uuid) : List ℤ :=
  (List.range 16).map (fun k => ((id / 256 ^ (15 - k) % 256 : ℕ) : ℤ))

/-- Absent where the source would stop: on overflow, on a shift past the width, or on a clamp with
its bounds in the wrong order. -/
def retryDelay (record : OutboxRecord) (config : DispatcherConfig) : Option Duration := do
  let exponent := min record.attemptCount 6
  let multiplier ← u64.shiftLeft 1 exponent
  let base := min
    (u64.saturate ((u64.checked config.retryInitial.asMillis).getD 1000 * multiplier))
    ((u64.checked config.retryMax.asMillis).getD 60000)
  let jitterSeed := (asBytes record.id).getLast?.getD 20
  let jitterPercent ← i64.checked (jitterSeed % 41 - 20)
  let millis := (i64.checked base).getD 60000
  let jitter := (i64.saturate (millis * jitterPercent)).tdiv 100
  let fourfold ← i64.checked ((i64.checked config.retryInitial.asMillis).getD 1000 * 4)
  let minimum := fourfold.tdiv 5
  let maximum := (i64.checked config.retryMax.asMillis).getD 60000
  let total ← i64.checked (millis + jitter)
  let delay ← clamp total minimum maximum
  return .fromMillis delay

structure SafeBackoff (config : DispatcherConfig) (initial longest : ℤ) : Prop where
  retryInitial : config.retryInitial = .fromMillis initial
  retryMax : config.retryMax = .fromMillis longest
  atLeast : 100 ≤ initial
  atMost : initial ≤ 60000
  ordered : initial ≤ longest
  capped : longest ≤ 3600000

theorem fromEnv_safe {environment : Environment} {config : DispatcherConfig}
    (h : DispatcherConfig.fromEnv environment = .ok config) :
    ∃ initial longest, SafeBackoff config initial longest := by
  obtain ⟨batchSize, _, h⟩ := ok_of_bind h
  obtain ⟨maxInFlight, _, h⟩ := ok_of_bind h
  obtain ⟨claimLeaseSeconds, _, h⟩ := ok_of_bind h
  obtain ⟨initial, _, h⟩ := ok_of_bind h
  obtain ⟨longest, _, h⟩ := ok_of_bind h
  split at h
  · cases h
  · rename_i hsafe
    cases h
    refine ⟨initial, longest, ?_⟩
    constructor
    · rfl
    · rfl
    · omega
    · omega
    · omega
    · omega

@[simp] theorem asMillis_fromMillis (millis : ℤ) :
    (Duration.fromMillis millis).asMillis = millis := by
  unfold Duration.fromMillis Duration.asMillis
  omega

theorem u64_holds {value : ℤ} (h : 0 ≤ value) (hmax : value < 2 ^ 64) : u64.Holds value := by
  constructor
  · exact h
  · change value ≤ 2 ^ 64 - 1
    omega

theorem i64_holds {value : ℤ} (h : -2 ^ 63 ≤ value) (hmax : value < 2 ^ 63) : i64.Holds value := by
  constructor
  · exact h
  · change value ≤ 2 ^ 63 - 1
    omega

/-- The last byte of an identifier, brought into the range of the jitter. -/
def jitterPercent (id : Uuid) : ℤ := (id % 256 % 41 : ℕ) - 20

theorem jitterPercent_bounds (id : Uuid) : -20 ≤ jitterPercent id ∧ jitterPercent id ≤ 20 := by
  unfold jitterPercent
  omega

theorem last_byte (id : Uuid) : (asBytes id).getLast?.getD 20 = (id % 256 : ℕ) := by
  simp [asBytes, List.range_succ]

def baseMillis (initial longest : ℤ) (attemptCount : ℕ) : ℤ :=
  min (initial * 2 ^ min attemptCount 6) longest

theorem power_bounds (attemptCount : ℕ) :
    1 ≤ (2 : ℤ) ^ min attemptCount 6 ∧ (2 : ℤ) ^ min attemptCount 6 ≤ 64 := by
  have hcount : min attemptCount 6 ≤ 6 := by omega
  constructor
  · exact one_le_pow₀ (by decide)
  · exact (pow_le_pow_right₀ (by decide) hcount).trans (by decide)

theorem baseMillis_bounds {config : DispatcherConfig} {initial longest : ℤ}
    (h : SafeBackoff config initial longest) (attemptCount : ℕ) :
    initial ≤ baseMillis initial longest attemptCount ∧
      baseMillis initial longest attemptCount ≤ longest := by
  have hpower := (power_bounds attemptCount).1
  have hfirst := h.atLeast
  have hgrown : initial ≤ initial * 2 ^ min attemptCount 6 := by nlinarith
  exact ⟨le_min hgrown h.ordered, min_le_right _ _⟩

theorem baseMillis_mono {config : DispatcherConfig} {initial longest : ℤ}
    (h : SafeBackoff config initial longest) {attemptCount later : ℕ} (hle : attemptCount ≤ later) :
    baseMillis initial longest attemptCount ≤ baseMillis initial longest later := by
  have hfirst := h.atLeast
  have hcount : min attemptCount 6 ≤ min later 6 := by omega
  have hpower : (2 : ℤ) ^ min attemptCount 6 ≤ 2 ^ min later 6 :=
    pow_le_pow_right₀ (by decide) hcount
  exact min_le_min (Int.mul_le_mul_of_nonneg_left hpower (by omega)) le_rfl

/-- The delay in milliseconds: the jittered base, held between its two bounds. -/
def heldMillis (initial longest percent base : ℤ) : ℤ :=
  max (initial * 4 / 5) (min (moved percent base) longest)

theorem u64_getD {value : ℤ} (h : 0 ≤ value) (hmax : value < 2 ^ 64) (default : ℤ) :
    (u64.checked value).getD default = value := by
  rw [checked_of_holds (u64_holds h hmax), Option.getD_some]

theorem i64_getD {value : ℤ} (h : -2 ^ 63 ≤ value) (hmax : value < 2 ^ 63) (default : ℤ) :
    (i64.checked value).getD default = value := by
  rw [checked_of_holds (i64_holds h hmax), Option.getD_some]

theorem multiplier_eq (attemptCount : ℕ) :
    u64.shiftLeft 1 (min attemptCount 6) = some (2 ^ min attemptCount 6) := by
  have hpower := power_bounds attemptCount
  have hcount : min attemptCount 6 < u64.bits := by
    change min attemptCount 6 < 64
    omega
  unfold Width.shiftLeft
  rw [if_pos hcount, one_mul]
  congr 1
  exact Int.emod_eq_of_lt (by omega) (by change _ < (2 : ℤ) ^ 64; omega)

/-- Inside the safe bounds no operation overflows, and every conversion keeps its value. -/
theorem retryDelay_eq {config : DispatcherConfig} {initial longest : ℤ}
    (h : SafeBackoff config initial longest) (record : OutboxRecord) :
    retryDelay record config = some (.fromMillis (heldMillis initial longest
      (jitterPercent record.id) (baseMillis initial longest record.attemptCount))) := by
  obtain ⟨hlow, hhigh⟩ := baseMillis_bounds h record.attemptCount
  obtain ⟨hretryInitial, hretryMax, hatLeast, hatMost, hordered, hcapped⟩ := h
  obtain ⟨hpower, hpowerMax⟩ := power_bounds record.attemptCount
  obtain ⟨hpercent, hpercentMax⟩ := jitterPercent_bounds record.id
  have hgrown : 0 ≤ initial * 2 ^ min record.attemptCount 6 := by nlinarith
  have hgrownMax : initial * 2 ^ min record.attemptCount 6 ≤ 60000 * 64 := by nlinarith
  have hconverted : min (u64.saturate ((u64.checked initial).getD 1000 *
      2 ^ min record.attemptCount 6)) ((u64.checked longest).getD 60000) =
      baseMillis initial longest record.attemptCount := by
    rw [u64_getD (by omega) (by omega), u64_getD (by omega) (by omega),
      saturate_of_holds (u64_holds hgrown (by omega))]
    rfl
  have hseed : (asBytes record.id).getLast?.getD 20 % 41 - 20 = jitterPercent record.id := by
    rw [last_byte]
    unfold jitterPercent
    omega
  generalize baseMillis initial longest record.attemptCount = base at *
  generalize jitterPercent record.id = percent at *
  have hproduct : -72000000 ≤ base * percent := by nlinarith
  have hproductMax : base * percent ≤ 72000000 := by nlinarith
  have hnear := moved_near (show 0 ≤ base by omega) hpercent hpercentMax
  have hjitter : i64.saturate (base * percent) = base * percent :=
    saturate_of_holds (i64_holds (by omega) (by omega))
  have hminimum : (initial * 4).tdiv 5 = initial * 4 / 5 :=
    Int.tdiv_eq_ediv_of_nonneg (by omega)
  have htotal : i64.checked (moved percent base) = some (moved percent base) :=
    checked_of_holds (i64_holds (by omega) (by omega))
  have hclamp : clamp (moved percent base) (initial * 4 / 5) longest =
      some (heldMillis initial longest percent base) := clamp_of_ordered (by omega)
  unfold moved at htotal hclamp
  simp only [retryDelay, multiplier_eq, hretryInitial, hretryMax, asMillis_fromMillis,
    Option.bind_eq_bind, Option.bind_some, hconverted, hseed,
    checked_of_holds (i64_holds (show -2 ^ 63 ≤ percent by omega) (by omega)),
    i64_getD (show -2 ^ 63 ≤ base by omega) (by omega),
    i64_getD (show -2 ^ 63 ≤ initial by omega) (by omega),
    i64_getD (show -2 ^ 63 ≤ longest by omega) (by omega),
    checked_of_holds (i64_holds (show -2 ^ 63 ≤ initial * 4 by omega) (by omega)),
    hjitter, hminimum, htotal, hclamp]
  rfl

theorem heldMillis_bounds {initial longest percent base : ℤ} (hfirst : 0 ≤ initial)
    (hlow : -20 ≤ percent) (hhigh : percent ≤ 20) (hinitial : initial ≤ base)
    (hlongest : base ≤ longest) :
    4 * initial ≤ 5 * heldMillis initial longest percent base ∧
      heldMillis initial longest percent base ≤ longest ∧
      5 * |heldMillis initial longest percent base - base| ≤ base := by
  have hnear := moved_near (show 0 ≤ base by omega) hlow hhigh
  unfold heldMillis
  refine ⟨by omega, by omega, ?_⟩
  rcases abs_cases (max (initial * 4 / 5) (min (moved percent base) longest) - base) with h | h <;>
    omega

theorem heldMillis_mono {initial longest percent small large : ℤ} (hs : 0 ≤ small)
    (h : small ≤ large) (hlow : -100 ≤ percent) :
    heldMillis initial longest percent small ≤ heldMillis initial longest percent large := by
  have hmoved := moved_mono hs h hlow
  unfold heldMillis
  omega

/-- The delay that no jitter changes. -/
def plainDelay (record : OutboxRecord) (config : DispatcherConfig) : Duration :=
  min (config.retryInitial * 2 ^ min record.attemptCount 6) config.retryMax

theorem plainDelay_eq {config : DispatcherConfig} {initial longest : ℤ}
    (h : SafeBackoff config initial longest) (record : OutboxRecord) :
    plainDelay record config = .fromMillis (baseMillis initial longest record.attemptCount) := by
  unfold plainDelay baseMillis Duration.fromMillis
  rw [h.retryInitial, h.retryMax, min_mul_of_nonneg _ _ (by decide)]
  unfold Duration.fromMillis
  rw [mul_right_comm]

/-- The backoff of a dispatcher that started: no operation overflows, the delay lies between four
fifths of the first delay and the longest one, it grows with the number of failed attempts, and the
jitter moves it by at most a fifth. -/
theorem retry_delay_bounded_and_monotone {environment : Environment} {config : DispatcherConfig}
    (loaded : DispatcherConfig.fromEnv environment = .ok config) (record : OutboxRecord) :
    ∃ delay, retryDelay record config = some delay ∧
      4 * config.retryInitial ≤ 5 * delay ∧ delay ≤ config.retryMax ∧
      5 * |delay - plainDelay record config| ≤ plainDelay record config ∧
      ∀ later, record.attemptCount ≤ later → ∃ laterDelay,
        retryDelay { record with attemptCount := later } config = some laterDelay ∧
          delay ≤ laterDelay := by
  obtain ⟨initial, longest, hsafe⟩ := fromEnv_safe loaded
  obtain ⟨hlow, hhigh⟩ := baseMillis_bounds hsafe record.attemptCount
  obtain ⟨hpercent, hpercentMax⟩ := jitterPercent_bounds record.id
  have hfirst := hsafe.atLeast
  obtain ⟨hleast, hmost, hnear⟩ :=
    heldMillis_bounds (show 0 ≤ initial by omega) hpercent hpercentMax hlow hhigh
  refine ⟨_, retryDelay_eq hsafe record, ?_, ?_, ?_, ?_⟩
  · rw [hsafe.retryInitial]
    change (4 : ℤ) * (_ * 1000000) ≤ 5 * (_ * 1000000)
    omega
  · rw [hsafe.retryMax]
    change (_ : ℤ) * 1000000 ≤ _ * 1000000
    omega
  · rw [plainDelay_eq hsafe]
    change (5 : ℤ) * |_ * 1000000 - _ * 1000000| ≤ _ * 1000000
    rw [← sub_mul, abs_mul, abs_of_pos (show (0 : ℤ) < 1000000 by decide)]
    omega
  · intro later hlater
    refine ⟨_, retryDelay_eq hsafe _, ?_⟩
    have hmono : heldMillis initial longest (jitterPercent record.id)
        (baseMillis initial longest record.attemptCount) ≤ heldMillis initial longest
        (jitterPercent record.id) (baseMillis initial longest later) :=
      heldMillis_mono (by omega) (baseMillis_mono hsafe hlater) (by omega)
    exact Int.mul_le_mul_of_nonneg_right hmono (by decide)

def demoRecord : OutboxRecord := ⟨255, 1, 2, ⟨1⟩, ⟨255, 1, 2, 1⟩, 0⟩

theorem retry_delay_of_default :
    ∃ delay, retryDelay demoRecord .default = some delay ∧ 4 * Duration.fromSecs 1 ≤ 5 * delay ∧
      delay ≤ Duration.fromSecs 60 := by
  have hloaded : DispatcherConfig.fromEnv (fun _ => none) = .ok .default := rfl
  obtain ⟨delay, hdelay, hleast, hmost, _⟩ :=
    retry_delay_bounded_and_monotone hloaded demoRecord
  exact ⟨delay, hdelay, hleast, hmost⟩

end DispatchBackoff
