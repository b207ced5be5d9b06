import Mathlib.Tactic.LinearCombination
import Mathlib.Order.Monotone.Basic
import SatCat5Proofs.Ptp.PtpTime

/-! # The simulated PTP clock: no tick lost or counted twice

`SimulatedClock` (`hal_test`) stands in for a trimmable oscillator. `run(dt)` adds
`num_clocks * rate` ticks to a 128-bit accumulator `m_nco_accum`, moves its whole
subnanoseconds into the real-time clock `m_rtc` and keeps the leftover ticks; `clock_adjust`
steps `m_rtc`, `clock_rate` changes the rate offset and `clock_set` overwrites the clock.

What `run` reads besides the state is fixed when the clock is built or is defined outside the
sources: the rate conversion `m_scale_nominal.convert`, the cycle count
`round_u64(dt_secs * m_rate_actual)` (a floating-point computation) and `TICKS_PER_SUBNS`.
They form a `Config`.

A call can overflow in four places, each its own condition, and each result assumes only those
it needs: a negative `s64` rate read as a `u64` (`RateNonneg`), the 128-bit sum (`NoWrap`), the
`s64` quotient (`QuotFits`) and the `s64` seconds of `m_rtc` (`RtcFits`).

* `run_spec`: one `run` call in whole numbers, when its sum, quotient and clock fit;
* `exec_conserves`: each call other than `clock_set` keeps the tick account;
* `execAll_conserves`: over any sequence of such calls, every tick the accumulator was given
  is in the clock or in the leftover, and the leftover stays below `TICKS_PER_SUBNS`;
  `execAll_conserves_wraps`: without `RtcFits` two steps of `2 ^ 62` s break the account;
* `clockNow_monotone`: `run` and `clock_rate` never move the clock back;
* `execAll_div_mod`: dividing at every `run` is dividing once, at the end;
* `accumSum_lt`: when `TICKS_PER_SUBNS` fits in 64 bits the 128-bit accumulator never wraps. -/

namespace SatCat5Proofs.Ptp.SimClock

open SatCat5Proofs.Ptp.PtpTime

/-- **`SimulatedClock`**: the fields its `run` and `clock_*` methods read and write. -/
structure SimulatedClock where
  /-- `m_nco_rate`, an `s64`. -/
  ncoRate : BitVec 64
  /-- `m_offset`, an `s64`. -/
  offset : BitVec 64
  /-- `m_nco_accum`, a `uint128_t`. -/
  ncoAccum : BitVec 128
  /-- `m_count_coarse`. -/
  countCoarse : ℕ
  /-- `m_count_fine`. -/
  countFine : ℕ
  /-- `m_rtc`. -/
  rtc : Time
  deriving DecidableEq, Repr

/-- What `run` reads besides the state. -/
structure Config where
  /-- `m_scale_nominal.convert`: the offset as a change of rate. -/
  convert : BitVec 64 → BitVec 64
  /-- `round_u64(dt_secs * m_rate_actual)`: the oscillator cycles in `dt`. -/
  numClocks : Time → BitVec 64
  /-- `TICKS_PER_SUBNS`, as the `uint128_t scale` the code builds from it. -/
  ticksPerSubns : BitVec 128
  /-- `TICKS_PER_SUBNS` is a positive constant. -/
  ticksPerSubns_pos : 0 < ticksPerSubns.toNat

/-- `m_nco_rate + m_scale_nominal.convert(m_offset)`: the `s64` rate in effect. -/
def rate (K : Config) (c : SimulatedClock) : BitVec 64 := c.ncoRate + K.convert c.offset

/-- **`SimulatedClock::run`**. -/
def run (K : Config) (c : SimulatedClock) (dt : Time) : SimulatedClock :=
  let incr : BitVec 128 := (K.numClocks dt).setWidth 128
  let rate : BitVec 128 := (rate K c).setWidth 128
  let accum := c.ncoAccum + incr * rate
  { c with
    rtc := c.rtc.add (Time.ofSubns ((accum / K.ticksPerSubns).setWidth 64))
    ncoAccum := accum % K.ticksPerSubns }

/-- **`SimulatedClock::clock_now`**. -/
def clockNow (c : SimulatedClock) : Time := c.rtc

/-- **`SimulatedClock::clock_adjust`**: the new state and the returned `Time(0)`. -/
def clockAdjust (c : SimulatedClock) (amount : Time) : SimulatedClock × Time :=
  ({ c with countCoarse := c.countCoarse + 1, rtc := c.rtc.add amount }, Time.ofSubns 0)

/-- **`SimulatedClock::clock_set`**. -/
def clockSet (c : SimulatedClock) (t : Time) : SimulatedClock :=
  { c with countCoarse := c.countCoarse + 1, rtc := t }

/-- **`SimulatedClock::clock_rate`** (the statistics it also feeds are left out). -/
def clockRate (c : SimulatedClock) (offset : BitVec 64) : SimulatedClock :=
  { c with countFine := c.countFine + 1, offset := offset }

/-! ### Sequences of calls -/

/-- The calls that change the clock. -/
inductive Call
  | run (dt : Time)
  | clockAdjust (amount : Time)
  | clockSet (t : Time)
  | clockRate (offset : BitVec 64)
  deriving DecidableEq, Repr

/-- Is the call a `clock_set`? -/
def Call.isClockSet : Call → Bool
  | .clockSet _ => true
  | _ => false

/-- Is the call coarse, as `m_count_coarse` counts them: a `clock_adjust` or a `clock_set`? -/
def Call.isCoarse : Call → Bool
  | .clockAdjust _ | .clockSet _ => true
  | _ => false

/-- One call on the clock. -/
def exec (K : Config) (c : SimulatedClock) : Call → SimulatedClock
  | .run dt => run K c dt
  | .clockAdjust amount => (clockAdjust c amount).1
  | .clockSet t => clockSet c t
  | .clockRate offset => clockRate c offset

/-- A sequence of calls, in order. -/
def execAll (K : Config) (c : SimulatedClock) (cs : List Call) : SimulatedClock :=
  cs.foldl (exec K) c

/-- The sum a `run` call forms in `m_nco_accum`, in whole numbers. -/
def accumSum (K : Config) (c : SimulatedClock) (dt : Time) : ℕ :=
  c.ncoAccum.toNat + (K.numClocks dt).toNat * (rate K c).toNat

/-! ### Where a call can overflow -/

/-- For a `run`, the `s64` rate is non-negative, so `u64(m_nco_rate + delta)` is the rate. -/
def RateNonneg (K : Config) (c : SimulatedClock) : Call → Prop
  | .run _ => 0 ≤ (rate K c).toInt
  | _ => True

/-- For a `run`, the 128-bit sum `m_nco_accum + incr * rate` does not wrap. -/
def NoWrap (K : Config) (c : SimulatedClock) : Call → Prop
  | .run dt => accumSum K c dt < 2 ^ 128
  | _ => True

/-- For a `run`, the quotient `m_nco_accum / scale` fits in the `s64` it is cast to. -/
def QuotFits (K : Config) (c : SimulatedClock) : Call → Prop
  | .run dt => accumSum K c dt / K.ticksPerSubns.toNat < 2 ^ 63
  | _ => True

/-- `m_rtc +=` keeps the seconds of `m_rtc` within an `s64`: for a `run`, the clock plus the
whole subnanoseconds of the sum; for a `clock_adjust`, the clock plus the amount. -/
def RtcFits (K : Config) (c : SimulatedClock) : Call → Prop
  | .run dt => Time.InRange (c.rtc.total + (accumSum K c dt / K.ticksPerSubns.toNat : ℕ))
  | .clockAdjust amount => Time.InRange (c.rtc.total + amount.total)
  | _ => True

instance (K : Config) (c : SimulatedClock) : (call : Call) → Decidable (RateNonneg K c call)
  | .run _ => inferInstanceAs (Decidable (_ ≤ _))
  | .clockAdjust _ | .clockSet _ | .clockRate _ => isTrue trivial

instance (K : Config) (c : SimulatedClock) : (call : Call) → Decidable (NoWrap K c call)
  | .run _ => inferInstanceAs (Decidable (_ < _))
  | .clockAdjust _ | .clockSet _ | .clockRate _ => isTrue trivial

instance (K : Config) (c : SimulatedClock) : (call : Call) → Decidable (QuotFits K c call)
  | .run _ => inferInstanceAs (Decidable (_ < _))
  | .clockAdjust _ | .clockSet _ | .clockRate _ => isTrue trivial

instance (K : Config) (c : SimulatedClock) : (call : Call) → Decidable (RtcFits K c call)
  | .run _ | .clockAdjust _ => inferInstanceAs (Decidable (Time.InRange _))
  | .clockSet _ | .clockRate _ => isTrue trivial

/-- Every call of a sequence meets `P` in the state it meets. -/
def Along (K : Config) (P : SimulatedClock → Call → Prop) : SimulatedClock → List Call → Prop
  | _, [] => True
  | c, call :: cs => P c call ∧ Along K P (exec K c call) cs

instance decAlong (K : Config) (P : SimulatedClock → Call → Prop)
    [∀ c call, Decidable (P c call)] :
    (c : SimulatedClock) → (cs : List Call) → Decidable (Along K P c cs)
  | _, [] => isTrue trivial
  | c, call :: cs =>
    have := decAlong K P (exec K c call) cs
    inferInstanceAs (Decidable (_ ∧ _))

/-- The ticks a call gives the accumulator: `n_k * r_k` for a `run` call. -/
def callTicks (K : Config) (c : SimulatedClock) : Call → ℤ
  | .run dt => (K.numClocks dt).toNat * (rate K c).toInt
  | _ => 0

/-- The ticks of a sequence, each call's rate read in the state it meets. -/
def ticks (K : Config) : SimulatedClock → List Call → ℤ
  | _, [] => 0
  | c, call :: cs => callTicks K c call + ticks K (exec K c call) cs

/-- The step a call asks of the clock: the amount of a `clock_adjust`. -/
def callAdjust : Call → ℤ
  | .clockAdjust amount => amount.total
  | _ => 0

/-- The clock steps of a sequence. -/
def adjusted (cs : List Call) : ℤ := (cs.map callAdjust).sum

/-! ### A small clock -/

/-- A clock of three ticks per subnanosecond, at rate `5 + 2 - 4` and then `5 + 2 + 1`. -/
def demoConfig : Config := ⟨fun x => x + 2, fun dt => BitVec.ofInt 64 dt.total, 3, by decide⟩

/-- A clock at `5` subnanoseconds with `2` ticks left over, nominal rate `5`, offset `-4`. -/
def demoClock : SimulatedClock := ⟨5, -4, 2, 0, 0, Time.ofSubns 5⟩

/-- Two `run` calls with a rate change and a backward step between them. -/
def demoCalls : List Call :=
  [.run (Time.ofSubns 7), .clockRate 1, .clockAdjust (Time.ofSubns (-9)), .run (Time.ofSubns 4)]

/-! ### One call -/

/-- A word whose doubled value is below `2 ^ w` reads as itself in two's complement. -/
theorem toInt_of_two_mul_lt {w : ℕ} {x : BitVec w} (h : 2 * x.toNat < 2 ^ w) :
    x.toInt = x.toNat := by
  rw [BitVec.toInt_eq_toNat_cond, if_pos h]

variable (K : Config) {c : SimulatedClock} {dt : Time}

/-- The 128-bit sum of `run` is `accumSum` when that fits. -/
theorem accum_toNat (h : accumSum K c dt < 2 ^ 128) :
    (c.ncoAccum + (K.numClocks dt).setWidth 128 * (rate K c).setWidth 128).toNat =
      accumSum K c dt := by
  have hn := (K.numClocks dt).isLt
  have hr := (rate K c).isLt
  have hprod : (K.numClocks dt).toNat * (rate K c).toNat < 2 ^ 128 :=
    calc _ < 2 ^ 64 * 2 ^ 64 := Nat.mul_lt_mul_of_lt_of_lt hn hr
      _ = 2 ^ 128 := by norm_num
  rw [accumSum] at h ⊢
  simp only [BitVec.toNat_add, BitVec.toNat_mul, BitVec.toNat_setWidth]
  rw [Nat.mod_eq_of_lt (by omega : (K.numClocks dt).toNat < 2 ^ 128),
    Nat.mod_eq_of_lt (by omega : (rate K c).toNat < 2 ^ 128), Nat.mod_eq_of_lt hprod,
    Nat.mod_eq_of_lt h]

/-- **One `run` call in whole numbers**: when its sum does not wrap and its quotient and the
clock fit, the whole subnanoseconds of the sum go to the clock and the remainder stays in the
accumulator. -/
theorem run_spec (hs : accumSum K c dt < 2 ^ 128)
    (hq : accumSum K c dt / K.ticksPerSubns.toNat < 2 ^ 63)
    (ho : Time.InRange (c.rtc.total + (accumSum K c dt / K.ticksPerSubns.toNat : ℕ))) :
    (run K c dt).rtc.total = c.rtc.total + (accumSum K c dt / K.ticksPerSubns.toNat : ℕ) ∧
      (run K c dt).ncoAccum.toNat = accumSum K c dt % K.ticksPerSubns.toNat := by
  have e := accum_toNat K hs
  have hw : (Time.ofSubns (((c.ncoAccum + (K.numClocks dt).setWidth 128 *
      (rate K c).setWidth 128) / K.ticksPerSubns).setWidth 64)).total =
      (accumSum K c dt / K.ticksPerSubns.toNat : ℕ) := by
    rw [Time.total_ofSubns, toInt_of_two_mul_lt] <;>
      simp only [BitVec.toNat_setWidth, BitVec.toNat_udiv, e,
        Nat.mod_eq_of_lt (by omega : accumSum K c dt / K.ticksPerSubns.toNat < 2 ^ 64)]
    omega
  exact ⟨by rw [run, Time.total_add _ _ (hw ▸ ho), hw], by rw [run, BitVec.toNat_umod, e]⟩

/-- `run` leaves fewer than `TICKS_PER_SUBNS` ticks in the accumulator. -/
theorem run_ncoAccum_lt (c : SimulatedClock) (dt : Time) :
    (run K c dt).ncoAccum.toNat < K.ticksPerSubns.toNat := by
  rw [run, BitVec.toNat_umod]
  exact Nat.mod_lt _ K.ticksPerSubns_pos

/-- **Each call keeps the tick account**: `TICKS_PER_SUBNS` times the clock's advance beyond
the asked step, plus the accumulator, grows by the ticks the call gives. -/
theorem exec_conserves {call : Call} (hset : call.isClockSet = false)
    (hr : RateNonneg K c call) (hw : NoWrap K c call) (hq : QuotFits K c call)
    (ho : RtcFits K c call) :
    (K.ticksPerSubns.toNat : ℤ) * ((exec K c call).rtc.total - c.rtc.total - callAdjust call) +
        (exec K c call).ncoAccum.toNat = c.ncoAccum.toNat + callTicks K c call := by
  cases call with
  | run dt =>
    obtain ⟨e₁, e₂⟩ := run_spec K hw hq ho
    have hd : (K.ticksPerSubns.toNat : ℤ) * (accumSum K c dt / K.ticksPerSubns.toNat : ℕ) +
        (accumSum K c dt % K.ticksPerSubns.toNat : ℕ) = accumSum K c dt := by
      exact_mod_cast Nat.div_add_mod _ _
    have ha : (accumSum K c dt : ℤ) =
        c.ncoAccum.toNat + (K.numClocks dt).toNat * (rate K c).toInt := by
      rw [← toNat_of_toInt_nonneg hr, accumSum]; push_cast; rfl
    simp only [exec, callAdjust, callTicks, e₁, e₂]
    linear_combination hd + ha
  | clockAdjust amount =>
    simp [exec, clockAdjust, callAdjust, callTicks, Time.total_add _ _ ho]
  | clockSet t => simp [Call.isClockSet] at hset
  | clockRate offset => simp [exec, clockRate, callAdjust, callTicks]

/-- **The tick account over any sequence of calls without `clock_set`**: with `n_k * r_k` the
ticks of the `k`-th `run` call,
`TICKS_PER_SUBNS * (rtc - rtc₀ - Σ adjust) + m_nco_accum = m_nco_accum₀ + Σ n_k * r_k`,
and every `run` call leaves `0 ≤ m_nco_accum < TICKS_PER_SUBNS`; when every rate is
non-negative and neither the 128-bit sum, nor the `s64` quotient, nor the seconds of `m_rtc`
overflow. -/
theorem execAll_conserves (c : SimulatedClock) (cs : List Call)
    (hset : ∀ call ∈ cs, call.isClockSet = false) (hr : Along K (RateNonneg K) c cs)
    (hw : Along K (NoWrap K) c cs) (hq : Along K (QuotFits K) c cs)
    (ho : Along K (RtcFits K) c cs) :
    (K.ticksPerSubns.toNat : ℤ) * ((execAll K c cs).rtc.total - c.rtc.total - adjusted cs) +
        (execAll K c cs).ncoAccum.toNat = c.ncoAccum.toNat + ticks K c cs ∧
      ∀ d dt, (run K d dt).ncoAccum.toNat < K.ticksPerSubns.toNat := by
  refine ⟨?_, run_ncoAccum_lt K⟩
  induction cs generalizing c with
  | nil => simp [execAll, adjusted, ticks]
  | cons call cs ih =>
    have h₁ := exec_conserves K (hset call (List.mem_cons_self _ _)) hr.1 hw.1 hq.1 ho.1
    have h₂ := ih (exec K c call) (fun d hd => hset d (List.mem_cons_of_mem _ hd))
      hr.2 hw.2 hq.2 ho.2
    simp only [execAll, List.foldl_cons, adjusted, List.map_cons, List.sum_cons, ticks] at h₂ ⊢
    linear_combination h₁ + h₂

theorem execAll_conserves_demo :
    (∀ call ∈ demoCalls, call.isClockSet = false) ∧
      Along demoConfig (RateNonneg demoConfig) demoClock demoCalls ∧
      Along demoConfig (NoWrap demoConfig) demoClock demoCalls ∧
      Along demoConfig (QuotFits demoConfig) demoClock demoCalls ∧
      Along demoConfig (RtcFits demoConfig) demoClock demoCalls ∧
      (3 * ((execAll demoConfig demoClock demoCalls).rtc.total - demoClock.rtc.total -
          adjusted demoCalls) + (execAll demoConfig demoClock demoCalls).ncoAccum.toNat =
        demoClock.ncoAccum.toNat + ticks demoConfig demoClock demoCalls) :=
  ⟨by decide, by decide, by decide, by decide, by decide,
    (execAll_conserves demoConfig demoClock demoCalls (by decide) (by decide) (by decide)
      (by decide) (by decide)).1⟩

/-- Two steps of `2 ^ 62` seconds: every `run` condition holds (there is no `run`), but the
seconds of `m_rtc` pass `INT64_MAX` and wrap. -/
def wrapCalls : List Call :=
  [.clockAdjust ⟨4611686018427387904, 0, by decide⟩, .clockAdjust ⟨4611686018427387904, 0, by decide⟩]

/-- **Without `RtcFits` the tick account fails**: two `clock_adjust` steps of `2 ^ 62` s carry
`m_rtc` past the `s64` seconds, and the clock ends `2 ^ 64` s short of the steps asked. -/
theorem execAll_conserves_wraps :
    (∀ call ∈ wrapCalls, call.isClockSet = false) ∧
      Along demoConfig (RateNonneg demoConfig) demoClock wrapCalls ∧
      Along demoConfig (NoWrap demoConfig) demoClock wrapCalls ∧
      Along demoConfig (QuotFits demoConfig) demoClock wrapCalls ∧
      ¬ (3 * ((execAll demoConfig demoClock wrapCalls).rtc.total - demoClock.rtc.total -
          adjusted wrapCalls) + (execAll demoConfig demoClock wrapCalls).ncoAccum.toNat =
        demoClock.ncoAccum.toNat + ticks demoConfig demoClock wrapCalls) := by
  decide

/-- Every call keeps the leftover below `TICKS_PER_SUBNS`: `run` leaves a remainder, the others
do not touch it. -/
theorem exec_ncoAccum_lt {c : SimulatedClock} (hc : c.ncoAccum.toNat < K.ticksPerSubns.toNat)
    (call : Call) : (exec K c call).ncoAccum.toNat < K.ticksPerSubns.toNat := by
  cases call with
  | run dt => exact run_ncoAccum_lt K c dt
  | clockAdjust _ | clockSet _ | clockRate _ => exact hc

/-! ### Runs -/

theorem execAll_append (c : SimulatedClock) (xs ys : List Call) :
    execAll K c (xs ++ ys) = execAll K (execAll K c xs) ys :=
  List.foldl_append _ _ _ _

theorem along_append (P : SimulatedClock → Call → Prop) (c : SimulatedClock) (xs ys : List Call) :
    Along K P c (xs ++ ys) ↔ Along K P c xs ∧ Along K P (execAll K c xs) ys := by
  induction xs generalizing c with
  | nil => simp [Along, execAll]
  | cons call xs ih =>
    simp only [List.cons_append, Along, List.append_eq, ih, execAll, List.foldl_cons, and_assoc]

/-- What every call of a sequence meets, every call of a prefix meets. -/
theorem along_take {P : SimulatedClock → Call → Prop} {c : SimulatedClock} {cs : List Call}
    (h : Along K P c cs) (i : ℕ) : Along K P c (cs.take i) :=
  ((along_append K P c _ _).mp (by rwa [List.take_append_drop])).1

/-- A fine call never moves the clock back: `run` adds the whole subnanoseconds of its sum, and
`clock_rate` leaves the clock alone. -/
theorem exec_rtc_le {call : Call} (hfine : call.isCoarse = false) (hw : NoWrap K c call)
    (hq : QuotFits K c call) (ho : RtcFits K c call) :
    c.rtc.total ≤ (exec K c call).rtc.total := by
  cases call with
  | run dt =>
    rw [exec, (run_spec K hw hq ho).1]
    exact le_add_of_nonneg_right (Nat.cast_nonneg _)
  | clockAdjust _ | clockSet _ => simp [Call.isCoarse] at hfine
  | clockRate _ => exact le_rfl

theorem le_execAll (c : SimulatedClock) (cs : List Call)
    (hfine : ∀ call ∈ cs, call.isCoarse = false) (hw : Along K (NoWrap K) c cs)
    (hq : Along K (QuotFits K) c cs) (ho : Along K (RtcFits K) c cs) :
    c.rtc.total ≤ (execAll K c cs).rtc.total := by
  induction cs generalizing c with
  | nil => exact le_rfl
  | cons call cs ih =>
    exact (exec_rtc_le K (hfine call (List.mem_cons_self _ _)) hw.1 hq.1 ho.1).trans
      (ih (exec K c call) (fun d hd => hfine d (List.mem_cons_of_mem _ hd)) hw.2 hq.2 ho.2)

/-- **`clock_now` never goes back along fine calls**: over any sequence of `run` and
`clock_rate` calls whose 128-bit sums do not wrap, whose quotients fit in an `s64` and whose
clock stays within the `s64` seconds, the clock after the first `i` calls is at most the clock
after the first `j`, for every `i ≤ j`; the sign of the rate plays no part. -/
theorem clockNow_monotone (c : SimulatedClock) (cs : List Call)
    (hfine : ∀ call ∈ cs, call.isCoarse = false) (hw : Along K (NoWrap K) c cs)
    (hq : Along K (QuotFits K) c cs) (ho : Along K (RtcFits K) c cs) :
    Monotone fun i => (clockNow (execAll K c (cs.take i))).total := by
  intro i j hij
  have e : cs.take j = cs.take i ++ (cs.drop i).take (j - i) := by
    rw [← List.take_add, Nat.add_sub_cancel' hij]
  have hseg {P : SimulatedClock → Call → Prop} (h : Along K P c cs) :
      Along K P (execAll K c (cs.take i)) ((cs.drop i).take (j - i)) :=
    ((along_append K P _ _ _).mp (by rw [← e]; exact along_take K h j)).2
  show (execAll K c (cs.take i)).rtc.total ≤ (execAll K c (cs.take j)).rtc.total
  rw [e, execAll_append]
  exact le_execAll K _ _ (fun d hd => hfine d (List.mem_of_mem_drop (List.mem_of_mem_take hd)))
    (hseg hw) (hseg hq) (hseg ho)

theorem clockNow_monotone_demo :
    (∀ call ∈ [.run (Time.ofSubns 7), .clockRate 1, .run (Time.ofSubns 4)],
        Call.isCoarse call = false) ∧
      Along demoConfig (NoWrap demoConfig) demoClock
        [.run (Time.ofSubns 7), .clockRate 1, .run (Time.ofSubns 4)] ∧
      Along demoConfig (QuotFits demoConfig) demoClock
        [.run (Time.ofSubns 7), .clockRate 1, .run (Time.ofSubns 4)] ∧
      Along demoConfig (RtcFits demoConfig) demoClock
        [.run (Time.ofSubns 7), .clockRate 1, .run (Time.ofSubns 4)] ∧
      Monotone fun i => (clockNow (execAll demoConfig demoClock
        ([.run (Time.ofSubns 7), .clockRate 1, .run (Time.ofSubns 4)].take i))).total :=
  ⟨by decide, by decide, by decide, by decide,
    clockNow_monotone demoConfig _ _ (by decide) (by decide) (by decide) (by decide)⟩

/-- **Dividing at every `run` is dividing once**: over any sequence of calls without
`clock_set`, from a leftover below `TICKS_PER_SUBNS`, when every rate is non-negative and
neither the 128-bit sum, nor the `s64` quotient, nor the seconds of `m_rtc` overflow, the clock
has moved by the asked steps plus the whole subnanoseconds in the first leftover and all the
ticks given, and the leftover is their remainder. -/
theorem execAll_div_mod (c : SimulatedClock) (hc : c.ncoAccum.toNat < K.ticksPerSubns.toNat)
    (cs : List Call) (hset : ∀ call ∈ cs, call.isClockSet = false)
    (hr : Along K (RateNonneg K) c cs) (hw : Along K (NoWrap K) c cs)
    (hq : Along K (QuotFits K) c cs) (ho : Along K (RtcFits K) c cs) :
    (execAll K c cs).rtc.total =
        c.rtc.total + adjusted cs + (c.ncoAccum.toNat + ticks K c cs) / K.ticksPerSubns.toNat ∧
      ((execAll K c cs).ncoAccum.toNat : ℤ) =
        (c.ncoAccum.toNat + ticks K c cs) % K.ticksPerSubns.toNat := by
  have hT : (0 : ℤ) < K.ticksPerSubns.toNat := by exact_mod_cast K.ticksPerSubns_pos
  induction cs generalizing c with
  | nil =>
    have hc' : (c.ncoAccum.toNat : ℤ) < K.ticksPerSubns.toNat := by exact_mod_cast hc
    simp [execAll, adjusted, ticks, Int.ediv_eq_zero_of_lt (Nat.cast_nonneg _) hc',
      Int.emod_eq_of_lt (Nat.cast_nonneg _) hc']
  | cons call cs ih =>
    have h₁ := exec_conserves K (hset call (List.mem_cons_self _ _)) hr.1 hw.1 hq.1 ho.1
    obtain ⟨e₁, e₂⟩ := ih (exec K c call) (exec_ncoAccum_lt K hc call)
      (fun d hd => hset d (List.mem_cons_of_mem _ hd)) hr.2 hw.2 hq.2 ho.2
    have key : (c.ncoAccum.toNat : ℤ) + (callTicks K c call + ticks K (exec K c call) cs) =
        ((exec K c call).ncoAccum.toNat + ticks K (exec K c call) cs) +
          K.ticksPerSubns.toNat * ((exec K c call).rtc.total - c.rtc.total - callAdjust call) := by
      linear_combination -h₁
    simp only [execAll, List.foldl_cons, adjusted, List.map_cons, List.sum_cons, ticks] at e₁ e₂ ⊢
    rw [key, Int.add_mul_ediv_left _ _ hT.ne', Int.add_mul_emod_self_left, e₁, ← e₂]
    exact ⟨by ring, rfl⟩

theorem execAll_div_mod_demo :
    demoClock.ncoAccum.toNat < demoConfig.ticksPerSubns.toNat ∧
      (∀ call ∈ demoCalls, call.isClockSet = false) ∧
      Along demoConfig (RateNonneg demoConfig) demoClock demoCalls ∧
      Along demoConfig (NoWrap demoConfig) demoClock demoCalls ∧
      Along demoConfig (QuotFits demoConfig) demoClock demoCalls ∧
      Along demoConfig (RtcFits demoConfig) demoClock demoCalls ∧
      (execAll demoConfig demoClock demoCalls).rtc.total = demoClock.rtc.total +
        adjusted demoCalls + (demoClock.ncoAccum.toNat + ticks demoConfig demoClock demoCalls) / 3 :=
  ⟨by decide, by decide, by decide, by decide, by decide, by decide,
    (execAll_div_mod demoConfig demoClock (by decide) demoCalls (by decide) (by decide)
      (by decide) (by decide) (by decide)).1⟩

/-! ### What the clock never does -/

/-- With `TICKS_PER_SUBNS` below `2 ^ 64` and the leftover below it, the 128-bit sum of `run`
cannot wrap: the leftover and the product of two 64-bit words stay below `2 ^ 128`. -/
theorem accumSum_lt_of_lt (hT : K.ticksPerSubns.toNat < 2 ^ 64)
    (hc : c.ncoAccum.toNat < K.ticksPerSubns.toNat) (dt : Time) : accumSum K c dt < 2 ^ 128 := by
  have hprod : (K.numClocks dt).toNat * (rate K c).toNat ≤ (2 ^ 64 - 1) * (2 ^ 64 - 1) :=
    Nat.mul_le_mul (Nat.le_sub_one_of_lt (K.numClocks dt).isLt)
      (Nat.le_sub_one_of_lt (rate K c).isLt)
  rw [accumSum]
  omega

/-- **`m_nco_accum` never wraps**: when `TICKS_PER_SUBNS` fits in 64 bits, from a leftover below
it (the constructor's zero), after any sequence of calls the sum `m_nco_accum + incr * rate` the
next `run` forms is below `2 ^ 128`, whatever its `dt` and whatever the rate. -/
theorem accumSum_lt (hT : K.ticksPerSubns.toNat < 2 ^ 64) {c : SimulatedClock}
    (hc : c.ncoAccum.toNat < K.ticksPerSubns.toNat) (cs : List Call) (dt : Time) :
    accumSum K (execAll K c cs) dt < 2 ^ 128 := by
  induction cs generalizing c with
  | nil => exact accumSum_lt_of_lt K hT hc dt
  | cons call cs ih => exact ih (exec_ncoAccum_lt K hc call)

theorem accumSum_lt_demo :
    demoConfig.ticksPerSubns.toNat < 2 ^ 64 ∧
      demoClock.ncoAccum.toNat < demoConfig.ticksPerSubns.toNat ∧
      accumSum demoConfig (execAll demoConfig demoClock demoCalls) (Time.ofSubns (-1)) < 2 ^ 128 :=
  ⟨by decide, by decide, accumSum_lt demoConfig (by decide) (by decide) _ _⟩

end SatCat5Proofs.Ptp.SimClock
