import Mathlib.Data.Rat.Cast.Order
import Mathlib.Algebra.Order.Field.Power
import Mathlib.Tactic.FieldSimp
import Mathlib.Tactic.Ring
import Mathlib.Tactic.Linarith

/-!
# IEEE-754 binary64 at the level of values

A finite double is a rational of the form `m * 2 ^ e` with a 53-bit significand and the exponent
range of the format. The two zeros, the infinities and NaN are separate values. Only what programs
that copy, compare and convert doubles need is here: comparison, and the conversion of a 64-bit
integer with the rounding to nearest, ties to even.
-/

namespace TinyReactor.Data

/-- The rationals a finite binary64 number denotes. -/
def IsBinary64 (value : ℚ) : Prop :=
  ∃ significand exponent : ℤ, |significand| < 2 ^ 53 ∧ -1074 ≤ exponent ∧ exponent ≤ 971 ∧
    value = significand * 2 ^ exponent

inductive Binary64
  | nan
  | infinity (negative : Bool)
  | negativeZero
  | finite (value : ℚ) (representable : IsBinary64 value)

theorem isBinary64_neg {value : ℚ} (h : IsBinary64 value) : IsBinary64 (-value) := by
  obtain ⟨significand, exponent, hs, hlow, hhigh, rfl⟩ := h
  refine ⟨-significand, exponent, ?_, hlow, hhigh, ?_⟩
  · rwa [abs_neg]
  · push_cast
    ring

theorem isBinary64_scaled {significand shift : ℕ} (hs : significand < 2 ^ 53) (hshift : shift ≤ 971) :
    IsBinary64 ((significand * 2 ^ shift : ℕ) : ℚ) := by
  refine ⟨significand, shift, ?_, by omega, by omega, ?_⟩
  · rw [abs_of_nonneg (Int.natCast_nonneg significand)]
    exact_mod_cast hs
  · push_cast
    rw [zpow_natCast]

/-! ## Integers -/

/-- The natural number rounded to 53 significant bits, to nearest, ties to even. -/
def roundNat (n : ℕ) : ℕ :=
  let unit := 2 ^ (n.log2 - 52)
  if unit < 2 * (n % unit) ∨ unit = 2 * (n % unit) ∧ n / unit % 2 = 1 then (n / unit + 1) * unit
  else n / unit * unit

theorem roundNat_of_lt {n : ℕ} (h : n < 2 ^ 53) : roundNat n = n := by
  have hlog : n.log2 - 52 = 0 := by
    by_cases hn : n = 0
    · subst hn
      rfl
    · have := (Nat.log2_lt hn).mpr h
      omega
  simp [roundNat, hlog, Nat.mod_one]

theorem quotient_lt (n : ℕ) : n / 2 ^ (n.log2 - 52) < 2 ^ 53 := by
  rw [Nat.div_lt_iff_lt_mul (Nat.two_pow_pos _), ← pow_add]
  calc
    n < 2 ^ (n.log2 + 1) := Nat.lt_log2_self
    _ ≤ 2 ^ (53 + (n.log2 - 52)) := Nat.pow_le_pow_right (by decide) (by omega)

theorem isBinary64_roundNat {n : ℕ} (h : n < 2 ^ 64) : IsBinary64 (roundNat n : ℚ) := by
  have hshift : n.log2 - 52 ≤ 11 := by
    by_cases hn : n = 0
    · subst hn
      decide
    · have := (Nat.log2_lt hn).mpr h
      omega
  have hquotient := quotient_lt n
  simp only [roundNat]
  split
  · by_cases hcarry : n / 2 ^ (n.log2 - 52) + 1 = 2 ^ 53
    · -- the significand overflowed into the next binade
      rw [hcarry, show (2 ^ 53 * 2 ^ (n.log2 - 52) : ℕ) = 2 ^ 52 * 2 ^ (n.log2 - 52 + 1) by ring]
      exact isBinary64_scaled (by decide) (by omega)
    · exact isBinary64_scaled (by omega) (by omega)
  · exact isBinary64_scaled hquotient (by omega)

namespace Binary64

/-- Conversion of an integer of at most 64 bits. -/
def ofInt (value : ℤ) (h : value.natAbs < 2 ^ 64) : Binary64 :=
  if 0 ≤ value then .finite (roundNat value.natAbs : ℚ) (isBinary64_roundNat h)
  else .finite (-(roundNat value.natAbs : ℚ)) (isBinary64_neg (isBinary64_roundNat h))

/-- The rational a finite double denotes. -/
def toRat? : Binary64 → Option ℚ
  | .finite value _ => some value
  | .negativeZero => some 0
  | _ => none

/-- The comparison `==`: NaN equals nothing, the two zeros are equal. -/
def eq : Binary64 → Binary64 → Bool
  | .infinity left, .infinity right => left == right
  | left, right =>
      match left.toRat?, right.toRat? with
      | some a, some b => a == b
      | _, _ => false

/-- The comparison `<=`. -/
def le : Binary64 → Binary64 → Bool
  | .nan, _ | _, .nan => false
  | .infinity true, _ | _, .infinity false => true
  | .infinity false, _ | _, .infinity true => false
  | left, right =>
      match left.toRat?, right.toRat? with
      | some a, some b => decide (a ≤ b)
      | _, _ => false

/-- A finite double. -/
def IsFinite (d : Binary64) : Prop := d.toRat?.isSome

theorem eq_self_of_isFinite {d : Binary64} (h : d.IsFinite) : d.eq d = true := by
  cases d with
  | nan => cases h
  | infinity negative => cases h
  | negativeZero => simp [eq, toRat?]
  | finite value representable => simp [eq, toRat?]

theorem isFinite_ofInt (value : ℤ) (h : value.natAbs < 2 ^ 64) : (ofInt value h).IsFinite := by
  unfold ofInt
  split <;> rfl

/-- Integers below `2 ^ 53` are held exactly. -/
theorem toRat?_ofInt_of_lt {value : ℤ} (h : value.natAbs < 2 ^ 64) (hsmall : value.natAbs < 2 ^ 53) :
    (ofInt value h).toRat? = some (value : ℚ) := by
  unfold ofInt
  split
  · rename_i hnonneg
    simp only [toRat?, roundNat_of_lt hsmall, Option.some.injEq]
    rw [← Int.cast_natCast, Int.natAbs_of_nonneg hnonneg]
  · rename_i hneg
    simp only [toRat?, roundNat_of_lt hsmall, Option.some.injEq]
    have habs : (value.natAbs : ℤ) = -value := by omega
    rw [← Int.cast_natCast, habs, Int.cast_neg, neg_neg]

end Binary64

end TinyReactor.Data
