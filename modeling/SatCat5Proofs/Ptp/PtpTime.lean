import Mathlib.Data.Int.Defs
import Mathlib.Data.Int.Order.Basic
import Mathlib.Algebra.Group.Int
import Mathlib.Tactic.LinearCombination

/-! # PTP time: the subnanosecond timestamp

`satcat5::ptp::Time` holds seconds `m_secs` and subnanoseconds `m_subns` (units of `1/65536` ns),
both `s64`, and keeps the subnanoseconds in `[0, SUBNS_PER_SEC)`; `Time` carries that range, so a
time outside the canonical form cannot be built. The single-argument constructor splits a count
of subnanoseconds with `satcat5::util::divide` and `modulo`, and the PTP fields are read with
`div_floor` and `modulo`. These helpers and `operator+=` are not among the sources: they are
modelled from the spec's canonical form (the subnanoseconds non-negative, a negative time keeping
their positive complement), that is floor division and its non-negative remainder, and `s64`
addition of the fields with a carry, whose seconds wrap past `INT64_MAX`.

* `total_inRange`: a time's total lies in the range its `s64` seconds can hold (`InRange`);
* `total_ofSubns`: the constructor keeps the total;
* `fields_eq`: the nanosecond field and the correction split the subnanoseconds, with nothing cut
  by the `u32` and `u64` casts;
* `total_add`: `operator+=` adds totals whenever their sum is in range;
* `round_nearest`: `round_secs` and `round_nsec` give the nearest nanosecond, ties upward, for
  every time at least half a nanosecond below the largest. -/

namespace SatCat5Proofs.Ptp.PtpTime

/-- `SUBNS_PER_NSEC`. -/
def subnsPerNsec : ℤ := 65536

/-- `NSEC_PER_SEC`. -/
def nsecPerSec : ℤ := 1000000000

/-- `SUBNS_PER_SEC = SUBNS_PER_NSEC * NSEC_PER_SEC`. -/
def subnsPerSec : ℤ := subnsPerNsec * nsecPerSec

/-- Modelled from the spec: `satcat5::util::divide` is not among the sources. The canonical form
of a time (subnanoseconds non-negative, the positive complement for a negative time) makes it
floor division. -/
def divide (a b : ℤ) : ℤ := Int.fdiv a b

/-- Modelled from the spec: `satcat5::util::modulo` is not among the sources; the remainder of
floor division, non-negative for a positive divisor. -/
def modulo (a b : ℤ) : ℤ := Int.fmod a b

/-- Modelled from the spec: `satcat5::util::div_floor` is not among the sources; the field it
reads is the nanoseconds "rounding down". -/
def divFloor (a b : ℤ) : ℤ := Int.fdiv a b

theorem subnsPerSec_eq : subnsPerSec = 65536000000000 := rfl

/-! ### `s64` words -/

/-- A word read as an `s64` lies in `[-2 ^ 63, 2 ^ 63)`. -/
theorem toInt_range (x : BitVec 64) : -2 ^ 63 ≤ x.toInt ∧ x.toInt < 2 ^ 63 := by
  have := x.isLt
  rw [BitVec.toInt_eq_toNat_cond]
  split_ifs <;> omega

/-- Reducing a value of the `s64` range modulo `2 ^ 64` leaves it as it is. -/
theorem bmod_of_range {v : ℤ} (h₁ : -2 ^ 63 ≤ v) (h₂ : v < 2 ^ 63) : v.bmod (2 ^ 64) = v := by
  rw [Int.bmod_def]
  split_ifs <;> omega

/-- A word with a non-negative two's complement reading reads as the same unsigned value. -/
theorem toNat_of_toInt_nonneg {w : ℕ} {x : BitVec w} (h : 0 ≤ x.toInt) :
    (x.toNat : ℤ) = x.toInt := by
  have := x.isLt
  rw [BitVec.toInt_eq_toNat_cond] at h ⊢
  split_ifs at h ⊢ <;> omega

/-- Floor division by a positive constant leaves a canonical remainder and loses nothing. -/
theorem divide_modulo (x : ℤ) :
    0 ≤ modulo x subnsPerSec ∧ modulo x subnsPerSec < subnsPerSec ∧
      divide x subnsPerSec * subnsPerSec + modulo x subnsPerSec = x := by
  rw [divide, modulo, Int.fdiv_eq_ediv _ (by decide), Int.fmod_eq_emod _ (by decide),
    subnsPerSec_eq]
  omega

/-- The remainder by `SUBNS_PER_SEC` is written to an `s64` without loss. -/
theorem toInt_modulo (x : ℤ) :
    (BitVec.ofInt 64 (modulo x subnsPerSec)).toInt = modulo x subnsPerSec := by
  obtain ⟨h₀, h₁, -⟩ := divide_modulo x
  have hS := subnsPerSec_eq
  rw [BitVec.toInt_ofInt, bmod_of_range] <;> omega

/-- The remainder by `SUBNS_PER_SEC`, as an `s64`, is in the canonical range. -/
theorem ofInt_modulo_range (x : ℤ) :
    0 ≤ (BitVec.ofInt 64 (modulo x subnsPerSec)).toInt ∧
      (BitVec.ofInt 64 (modulo x subnsPerSec)).toInt < subnsPerSec := by
  rw [toInt_modulo]
  exact ⟨(divide_modulo x).1, (divide_modulo x).2.1⟩

/-- **`satcat5::ptp::Time`**: its `s64` fields `m_secs` and `m_subns`, the subnanoseconds in
their canonical range. -/
structure Time where
  /-- `m_secs`, an `s64`. -/
  secs : BitVec 64
  /-- `m_subns`, an `s64`. -/
  subns : BitVec 64
  /-- `m_subns` is in `[0, SUBNS_PER_SEC)`. -/
  subns_range : 0 ≤ subns.toInt ∧ subns.toInt < subnsPerSec
  deriving DecidableEq, Repr

namespace Time

/-- **`Time(s64 subnanoseconds)`**. -/
def ofSubns (subnanoseconds : BitVec 64) : Time where
  secs := BitVec.ofInt 64 (divide subnanoseconds.toInt subnsPerSec)
  subns := BitVec.ofInt 64 (modulo subnanoseconds.toInt subnsPerSec)
  subns_range := ofInt_modulo_range _

/-- `field_secs()`. -/
def fieldSecs (t : Time) : ℤ := t.secs.toInt

/-- `field_nsec()`: `(u32) div_floor(m_subns, SUBNS_PER_NSEC)`. -/
def fieldNsec (t : Time) : ℕ := (divFloor t.subns.toInt subnsPerNsec % 2 ^ 32).toNat

/-- `field_subns()`: `(u64) m_subns`. -/
def fieldSubns (t : Time) : ℕ := t.subns.toNat

/-- `correction()`: `(u64) modulo(m_subns, SUBNS_PER_NSEC)`. -/
def correction (t : Time) : ℕ := (modulo t.subns.toInt subnsPerNsec % 2 ^ 64).toNat

/-- Modelled from the spec: `Time::operator+=` and `operator+` are not among the sources. The
spec: add with a carry between seconds and subnanoseconds, and re-canonicalize; the fields are
`s64`, so the seconds wrap past `INT64_MAX`. -/
def add (t u : Time) : Time where
  secs := t.secs + u.secs + BitVec.ofInt 64 (divide (t.subns + u.subns).toInt subnsPerSec)
  subns := BitVec.ofInt 64 (modulo (t.subns + u.subns).toInt subnsPerSec)
  subns_range := ofInt_modulo_range _

/-- `round_secs()`: `(*this + Time(SUBNS_PER_NSEC / 2)).field_secs()`. -/
def roundSecs (t : Time) : ℤ := (t.add (ofSubns (BitVec.ofInt 64 (subnsPerNsec / 2)))).fieldSecs

/-- `round_nsec()`: `(*this + Time(SUBNS_PER_NSEC / 2)).field_nsec()`. -/
def roundNsec (t : Time) : ℕ := (t.add (ofSubns (BitVec.ofInt 64 (subnsPerNsec / 2)))).fieldNsec

/-- The canonical form: `m_subns` in `[0, SUBNS_PER_SEC)`, which every `Time` has. -/
def Canonical (t : Time) : Prop := 0 ≤ t.subns.toInt ∧ t.subns.toInt < subnsPerSec

/-- The time as a count of subnanoseconds. -/
def total (t : Time) : ℤ := t.secs.toInt * subnsPerSec + t.subns.toInt

/-- A count of subnanoseconds whose seconds fit in an `s64`: the totals a `Time` can hold. -/
def InRange (x : ℤ) : Prop := -2 ^ 63 * subnsPerSec ≤ x ∧ x < 2 ^ 63 * subnsPerSec

instance (x : ℤ) : Decidable (InRange x) := inferInstanceAs (Decidable (_ ∧ _))

theorem total_inRange (t : Time) : InRange t.total := by
  have := toInt_range t.secs
  have := t.subns_range
  simp only [InRange, total, subnsPerSec_eq] at *
  omega

/-- The seconds of a total in range fit in an `s64`: reducing them modulo `2 ^ 64` changes
nothing. -/
theorem bmod_secs {x c r : ℤ} (hr : 0 ≤ r ∧ r < subnsPerSec) (h : InRange x)
    (e : c * subnsPerSec + r = x) : c.bmod (2 ^ 64) * subnsPerSec + r = x := by
  simp only [InRange] at h
  rw [subnsPerSec_eq] at *
  rw [bmod_of_range] <;> omega

theorem total_ofSubns (s : BitVec 64) : (ofSubns s).total = s.toInt := by
  obtain ⟨h₀, h₁, e⟩ := divide_modulo s.toInt
  have hs : InRange s.toInt := by
    have := toInt_range s
    simp only [InRange, subnsPerSec_eq]
    omega
  simp only [total, ofSubns, toInt_modulo]
  rw [BitVec.toInt_ofInt]
  exact bmod_secs ⟨h₀, h₁⟩ hs e

/-- **The PTP fields of a time**: the nanoseconds and the correction split the subnanoseconds,
and the casts cut nothing. -/
theorem fields_eq (t : Time) :
    (t.fieldNsec : ℤ) = divFloor t.subns.toInt subnsPerNsec ∧ t.fieldNsec < 10 ^ 9 ∧
      t.correction < 65536 ∧ (t.fieldSubns : ℤ) = t.subns.toInt ∧
      t.subns.toInt = 65536 * t.fieldNsec + t.correction := by
  obtain ⟨h₀, h₁⟩ := t.subns_range
  rw [subnsPerSec_eq] at h₁
  simp only [fieldNsec, fieldSubns, correction, divFloor, modulo, subnsPerNsec,
    Int.fdiv_eq_ediv _ (by decide : (0 : ℤ) ≤ 65536),
    Int.fmod_eq_emod _ (by decide : (0 : ℤ) ≤ 65536)]
  have e₁ : ((t.subns.toInt / 65536 % 2 ^ 32).toNat : ℤ) = t.subns.toInt / 65536 := by
    rw [Int.toNat_of_nonneg (by omega)]; omega
  have e₂ : ((t.subns.toInt % 65536 % 2 ^ 64).toNat : ℤ) = t.subns.toInt % 65536 := by
    rw [Int.toNat_of_nonneg (by omega)]; omega
  refine ⟨e₁, ?_, ?_, toNat_of_toInt_nonneg h₀, ?_⟩ <;> omega

/-- **`operator+=` adds totals** whenever the sum is a total a `Time` can hold; past that, the
seconds wrap. -/
theorem total_add (t u : Time) (h : InRange (t.total + u.total)) :
    (t.add u).total = t.total + u.total := by
  obtain ⟨a₀, a₁⟩ := t.subns_range
  obtain ⟨b₀, b₁⟩ := u.subns_range
  have hS := subnsPerSec_eq
  have hab : (t.subns + u.subns).toInt = t.subns.toInt + u.subns.toInt := by
    rw [BitVec.toInt_add, bmod_of_range] <;> omega
  simp only [total, add, hab, toInt_modulo]
  rw [BitVec.toInt_add, BitVec.toInt_add, BitVec.toInt_ofInt, Int.add_bmod_bmod,
    Int.bmod_add_bmod_congr]
  obtain ⟨r₀, r₁, e⟩ := divide_modulo (t.subns.toInt + u.subns.toInt)
  exact bmod_secs ⟨r₀, r₁⟩ h (by linear_combination e)

/-- **`Time(s64)` for every `s64`**: canonical, and its PTP fields give back the count exactly,
the nanoseconds below `10 ^ 9` (so the `u32` cast drops nothing) and the correction below
`65536`. -/
theorem ofSubns_fields (s : BitVec 64) :
    (ofSubns s).Canonical ∧
      (ofSubns s).fieldSecs * subnsPerSec + 65536 * (ofSubns s).fieldNsec + (ofSubns s).correction
        = s.toInt ∧
      (ofSubns s).fieldSubns = 65536 * (ofSubns s).fieldNsec + (ofSubns s).correction ∧
      ((ofSubns s).fieldNsec : ℤ) = divFloor (ofSubns s).subns.toInt subnsPerNsec ∧
      (ofSubns s).fieldNsec < 10 ^ 9 ∧ (ofSubns s).correction < 65536 := by
  obtain ⟨e₁, h₁, h₂, e₃, e₄⟩ := fields_eq (ofSubns s)
  have ht := total_ofSubns s
  refine ⟨(ofSubns s).subns_range, ?_, by omega, e₁, h₁, h₂⟩
  rw [total] at ht
  rw [fieldSecs, ← ht]
  omega

/-- **`round_secs` and `round_nsec` round to the nearest nanosecond**, a tie upward, for every
time at least half a nanosecond below the largest (above it the seconds of the sum wrap): the
nanosecond count they give is within half a nanosecond of the time, and the nanoseconds stay
below `10 ^ 9`. -/
theorem round_nearest (t : Time) (h : t.total + 32768 < 2 ^ 63 * subnsPerSec) :
    t.roundNsec < 10 ^ 9 ∧
      -32768 ≤ t.total - 65536 * (t.roundSecs * 1000000000 + t.roundNsec) ∧
      t.total - 65536 * (t.roundSecs * 1000000000 + t.roundNsec) < 32768 := by
  have hh : (ofSubns (BitVec.ofInt 64 (subnsPerNsec / 2))).total = 32768 := total_ofSubns _
  have hr := (total_inRange t).1
  rw [roundNsec, roundSecs, fieldSecs]
  generalize ofSubns (BitVec.ofInt 64 (subnsPerNsec / 2)) = u at hh ⊢
  obtain ⟨-, h₁, h₂, -, e⟩ := fields_eq (t.add u)
  have ht := total_add t u (by rw [hh]; exact ⟨by omega, h⟩)
  rw [total, subnsPerSec_eq] at ht
  rw [subnsPerSec_eq] at h hr
  refine ⟨h₁, ?_, ?_⟩ <;> omega

/-- The latest time `round_nearest` covers: half a nanosecond and one subnanosecond below the end
of the largest second. -/
def lastRounded : Time :=
  ⟨BitVec.ofInt 64 (2 ^ 63 - 1), BitVec.ofInt 64 (subnsPerSec - 32769), by decide⟩

theorem round_nearest_top :
    lastRounded.total + 32768 < 2 ^ 63 * subnsPerSec ∧
      lastRounded.roundNsec < 10 ^ 9 ∧
      -32768 ≤ lastRounded.total -
        65536 * (lastRounded.roundSecs * 1000000000 + lastRounded.roundNsec) ∧
      lastRounded.total -
        65536 * (lastRounded.roundSecs * 1000000000 + lastRounded.roundNsec) < 32768 :=
  ⟨by decide, round_nearest _ (by decide)⟩

end Time

end SatCat5Proofs.Ptp.PtpTime
