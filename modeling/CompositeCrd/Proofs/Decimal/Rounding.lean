import CompositeCrd.Decimal.Shortest
import Mathlib.Algebra.Order.Field.Power
import Mathlib.Data.Int.Log
import Mathlib.Data.Rat.Cast.Order
import Mathlib.Data.Rat.Floor
import Mathlib.Tactic.FieldSimp
import Mathlib.Tactic.Linarith
import Mathlib.Tactic.NormNum
import Mathlib.Tactic.Positivity
import Mathlib.Tactic.Ring

/-!
# Rounding to binary64

`Binary64.nearest` computes with numerators and denominators. Here its answer is described by
the rational value alone: every positive rational in the rounding interval of a canonical
number (`RoundsTo`) is rounded to that number (`nearest_eq`).

The interval reaches half a gap up and half a gap down, where the gap below a power of two is
half as wide as the one above it. Its ends belong to it when the mantissa is even. Two of the
three steps of `nearest` are determined by the interval:

* the exponent is the one of the number, or one less below a power of two
  (`exponentOf_eq`, `exponentOf_of_roundsTo`);
* the mantissa is rounded to the one of the number (`roundHalfEven_eq`), and carries into the
  next exponent in the second case.
-/

namespace CompositeCrd.Binary64

variable {x : Binary64} {num den m : ℕ} {q : ℚ}

/-- A number as reading makes it: the mantissa has at most 53 bits, and exactly 53 unless the
exponent is the least one. -/
structure Canonical (x : Binary64) : Prop where
  /-- The mantissa has at most 53 bits. -/
  mantissa_lt : x.mantissa < 2 * leastNormal
  /-- The exponent is not too small. -/
  le_exponent : minExponent ≤ x.exponent
  /-- The exponent is not too great. -/
  exponent_le : x.exponent ≤ maxExponent
  /-- The mantissa has 53 bits unless the exponent is the least one. -/
  normal : leastNormal ≤ x.mantissa ∨ x.exponent = minExponent

instance (x : Binary64) : Decidable x.Canonical :=
  decidable_of_iff
    (x.mantissa < 2 * leastNormal ∧ minExponent ≤ x.exponent ∧ x.exponent ≤ maxExponent
      ∧ (leastNormal ≤ x.mantissa ∨ x.exponent = minExponent))
    ⟨fun ⟨h₁, h₂, h₃, h₄⟩ => ⟨h₁, h₂, h₃, h₄⟩,
      fun h => ⟨h.mantissa_lt, h.le_exponent, h.exponent_le, h.normal⟩⟩

/-- The part of the gap below a number that still rounds up to it. -/
def reachBelow (x : Binary64) : ℚ :=
  if x.narrowBelow then 1 / 4 else 1 / 2

/-- **The rounding interval** of a number's magnitude. -/
structure RoundsTo (q : ℚ) (x : Binary64) : Prop where
  /-- The value is not below the interval. -/
  low : (x.mantissa - x.reachBelow) * 2 ^ x.exponent ≤ q
  /-- The value is not above the interval. -/
  high : q ≤ (x.mantissa + 1 / 2) * 2 ^ x.exponent
  /-- The ends belong to the interval of an even mantissa only. -/
  inside : x.mantissa % 2 = 1 →
    (x.mantissa - x.reachBelow) * 2 ^ x.exponent < q ∧ q < (x.mantissa + 1 / 2) * 2 ^ x.exponent

/-- A number is reached from below by something. -/
theorem reachBelow_pos : 0 < x.reachBelow := by
  unfold reachBelow
  split <;> norm_num

/-- By half a unit of its last place at most. -/
theorem reachBelow_le : x.reachBelow ≤ 1 / 2 := by
  unfold reachBelow
  split <;> norm_num

/-! ### Fractions -/

/-- What a scaled number is divided by is not zero. -/
theorem scaled_den_pos {n base : ℕ} {e : ℤ} (hb : 0 < base) : 0 < (scaled n base e).2 := by
  unfold scaled
  split
  · exact Nat.one_pos
  · exact Nat.pow_pos hb

/-- `scaled` is the fraction that it stands for. -/
theorem scaled_value {n base : ℕ} {e : ℤ} (hb : 0 < base) :
    ((scaled n base e).1 : ℚ) = n * (base : ℚ) ^ e * (scaled n base e).2 := by
  unfold scaled
  split
  · next h =>
    obtain ⟨k, rfl⟩ := Int.eq_ofNat_of_zero_le h
    simp [zpow_natCast]
  · next h =>
    obtain ⟨k, hk⟩ := Int.eq_ofNat_of_zero_le (show 0 ≤ -e by omega)
    obtain rfl : e = -(k : ℤ) := by omega
    have hne : (base : ℚ) ≠ 0 := by positivity
    simp [zpow_neg, zpow_natCast, hne]

theorem scaled_den_cast_pos {n base : ℕ} {e : ℤ} (hb : 0 < base) :
    (0 : ℚ) < (scaled n base e).2 :=
  Nat.cast_pos.mpr (scaled_den_pos hb)

/-- The two parts of a scaled number as the fraction that they stand for. -/
theorem scaled_div {n base : ℕ} {e : ℤ} (hb : 0 < base) :
    ((scaled n base e).1 : ℚ) / (scaled n base e).2 = n * (base : ℚ) ^ e := by
  rw [div_eq_iff (scaled_den_cast_pos hb).ne', scaled_value hb]

theorem scaled_one_value {base : ℕ} {e : ℤ} (hb : 0 < base) :
    ((scaled 1 base e).1 : ℚ) = (base : ℚ) ^ e * (scaled 1 base e).2 := by
  rw [scaled_value hb, Nat.cast_one, one_mul]

/-- The scale itself is not zero. -/
theorem scaled_one_num_pos {base : ℕ} {e : ℤ} (hb : 0 < base) : 0 < (scaled 1 base e).1 := by
  have hden : (0 : ℚ) < (scaled 1 base e).2 := scaled_den_cast_pos hb
  rw [← Nat.cast_pos (α := ℚ), scaled_one_value hb]
  positivity

/-! ### The mantissa -/

/-- Rounding gives `m` when the quotient is at most a half away from it, and exactly a half
only if `m` is even. -/
theorem roundHalfEven_eq (hd : 0 < den) (hlow : 2 * m * den ≤ 2 * num + den)
    (hhigh : 2 * num ≤ 2 * m * den + den)
    (hodd : m % 2 = 1 → 2 * m * den < 2 * num + den ∧ 2 * num < 2 * m * den + den) :
    roundHalfEven num den = m := by
  have hdiv := Nat.div_add_mod num den
  have hmod := Nat.mod_lt num hd
  -- The quotient and the remainder of the division are named, with the bounds for the latter.
  unfold roundHalfEven
  dsimp only
  generalize num / den = q at *
  generalize num % den = r at *
  subst hdiv
  -- The floor is `m` or the number before it.
  have hle : q ≤ m := by
    by_contra hlt
    have : den * (m + 1) ≤ den * q := Nat.mul_le_mul_left _ (by omega)
    nlinarith
  have hge : m ≤ q + 1 := by
    by_contra hlt
    have : den * (q + 2) ≤ den * m := Nat.mul_le_mul_left _ (by omega)
    nlinarith
  -- Rounding goes to one of the two neighbours, the floor and the number behind it.
  obtain rfl | rfl : m = q ∨ m = q + 1 := by omega
  · -- The floor is `m`: the remainder is a half at most, and a tie leaves an even `m` alone.
    have hr : 2 * r ≤ den := by nlinarith
    split
    · rfl
    · have htie : 2 * r = den := by omega
      rw [if_neg (by omega)]
      have heven : m % 2 = 0 := by
        by_contra hne
        have := hodd (by omega)
        nlinarith
      omega
  · -- The floor is the number before `m`, so the remainder is a half at least.
    have hr : den ≤ 2 * r := by nlinarith
    rw [if_neg (by omega)]
    split
    · rfl
    · have htie : 2 * r = den := by omega
      have heven : (q + 1) % 2 = 0 := by
        by_contra hne
        have := hodd (by omega)
        nlinarith
      omega

/-! ### The exponent -/

theorem zpow_two_pos (e : ℤ) : (0 : ℚ) < 2 ^ e :=
  zpow_pos (by norm_num) e

theorem zpow_two_lt {e e' : ℤ} : (2 : ℚ) ^ e < 2 ^ e' ↔ e < e' :=
  zpow_lt_zpow_iff_right₀ (by norm_num)

theorem zpow_two_add (e e' : ℤ) : (2 : ℚ) ^ (e + e') = 2 ^ e * 2 ^ e' :=
  zpow_add₀ (by norm_num) e e'

/-- The power of two at or below a positive fraction is unique. -/
theorem log_unique {t t' : ℤ} (h : 2 ^ t ≤ q) (h' : q < 2 ^ (t + 1)) (g : 2 ^ t' ≤ q)
    (g' : q < 2 ^ (t' + 1)) : t = t' := by
  have h₁ := zpow_two_lt.mp (h.trans_lt g')
  have h₂ := zpow_two_lt.mp (g.trans_lt h')
  omega

/-- A positive number between powers of two, by its bit length. -/
theorem log2_bounds {n : ℕ} (hn : 0 < n) :
    (2 : ℚ) ^ (n.log2 : ℤ) ≤ n ∧ (n : ℚ) < 2 ^ ((n.log2 : ℤ) + 1) := by
  rw [← Nat.cast_succ, zpow_natCast, zpow_natCast]
  exact ⟨by exact_mod_cast Nat.log2_self_le hn.ne', by exact_mod_cast Nat.lt_log2_self⟩

/-- The difference of the bit lengths is the logarithm of a fraction, or one more than it. -/
theorem log2_sub_bounds (hn : 0 < num) (hd : 0 < den) :
    (2 : ℚ) ^ ((num.log2 : ℤ) - den.log2 - 1) ≤ num / den
      ∧ (num : ℚ) / den < 2 ^ ((num.log2 : ℤ) - den.log2 + 1) := by
  have hd' : (0 : ℚ) < den := by exact_mod_cast hd
  obtain ⟨numLow, numHigh⟩ := log2_bounds hn
  obtain ⟨denLow, denHigh⟩ := log2_bounds hd
  -- Each of the two lies between neighbouring powers of two.
  set k : ℤ := num.log2 - den.log2 with hk
  refine ⟨?_, ?_⟩
  · rw [le_div_iff₀ hd']
    calc (2 : ℚ) ^ (k - 1) * den ≤ 2 ^ (k - 1) * 2 ^ ((den.log2 : ℤ) + 1) :=
          mul_le_mul_of_nonneg_left denHigh.le (zpow_two_pos _).le
      _ = 2 ^ (num.log2 : ℤ) := by rw [← zpow_two_add]; congr 1; omega
      _ ≤ num := numLow
  · rw [div_lt_iff₀ hd']
    calc (num : ℚ) < 2 ^ ((num.log2 : ℤ) + 1) := numHigh
      _ = 2 ^ (k + 1) * 2 ^ (den.log2 : ℤ) := by rw [← zpow_two_add]; congr 1; omega
      _ ≤ 2 ^ (k + 1) * den := mul_le_mul_of_nonneg_left denLow (zpow_two_pos _).le

/-- `exponentOf` leaves 53 bits for the mantissa, as far as the least exponent allows. -/
theorem exponentOf_eq (hn : 0 < num) (hd : 0 < den) {t : ℤ} (hlow : 2 ^ t ≤ (num : ℚ) / den)
    (hhigh : (num : ℚ) / den < 2 ^ (t + 1)) :
    exponentOf num den = max (t - 52) minExponent := by
  have hd' : (0 : ℚ) < den := by exact_mod_cast hd
  obtain ⟨below, above⟩ := log2_sub_bounds hn hd
  set k : ℤ := num.log2 - den.log2 with hk
  have hs : (0 : ℚ) < (scaled 1 2 k).2 := scaled_den_cast_pos (by norm_num)
  -- A comparison with a power of two tells the two apart.
  have compare : (scaled 1 2 k).2 * num < (scaled 1 2 k).1 * den ↔ (num : ℚ) / den < 2 ^ k := by
    rw [← Nat.cast_lt (α := ℚ), div_lt_iff₀ hd']
    push_cast
    rw [scaled_one_value (by norm_num)]
    push_cast
    rw [mul_right_comm, mul_comm _ (num : ℚ), mul_lt_mul_iff_left₀ hs]
  unfold exponentOf
  dsimp only
  rw [← hk]
  split
  · next h =>
    rw [compare] at h
    have heq : t = k - 1 := log_unique hlow hhigh below (by simpa using h)
    rw [heq]
  · next h =>
    rw [compare, not_lt] at h
    have heq : t = k := log_unique hlow hhigh h above
    rw [heq]

/-- A fraction that rounds up to a number with more bits lies in the narrow gap below a power
of two. -/
theorem RoundsTo.narrow (hx : x.Canonical) (h : RoundsTo q x) (hleast : x.exponent ≠ minExponent)
    (hlt : q < 2 ^ (x.exponent + 52)) : x.mantissa = leastNormal ∧ x.narrowBelow = true := by
  have hge : leastNormal ≤ x.mantissa := hx.normal.resolve_right hleast
  have hle : x.mantissa ≤ leastNormal := by
    by_contra hmore
    -- With a greater mantissa, even the lower end of the interval would have 53 bits.
    have hone : (2 : ℚ) ^ 52 + 1 ≤ x.mantissa := by
      simp only [leastNormal] at hmore
      exact_mod_cast (by omega : 2 ^ 52 + 1 ≤ x.mantissa)
    have hlow : (2 : ℚ) ^ 52 * 2 ^ x.exponent ≤ (x.mantissa - x.reachBelow) * 2 ^ x.exponent :=
      mul_le_mul_of_nonneg_right (by linarith [reachBelow_le (x := x)]) (zpow_two_pos _).le
    rw [add_comm, zpow_two_add] at hlt
    exact absurd (hlow.trans h.low) (not_le.mpr hlt)
  have heq : x.mantissa = leastNormal := le_antisymm hle hge
  have := hx.le_exponent
  exact ⟨heq, by simp [narrowBelow, heq, lt_iff_le_and_ne, this, Ne.symm hleast]⟩

/-- The exponent of a fraction that rounds to `x` is the one of `x`, or the one before it if the
fraction lies below a power of two. -/
theorem exponentOf_of_roundsTo (hx : x.Canonical) (hm : 0 < x.mantissa) (hn : 0 < num)
    (hd : 0 < den) (h : RoundsTo ((num : ℚ) / den) x) :
    exponentOf num den = x.exponent
      ∨ x.mantissa = leastNormal ∧ x.narrowBelow = true
        ∧ (num : ℚ) / den < leastNormal * 2 ^ x.exponent
        ∧ exponentOf num den = x.exponent - 1 := by
  set q : ℚ := num / den with hq
  have hpos : 0 < q := by positivity
  have hpow := zpow_two_pos x.exponent
  -- The fraction has 53 bits at most at the exponent of `x`.
  have hm53 : (x.mantissa : ℚ) + 1 / 2 < 2 ^ 53 := by
    have h53 := hx.mantissa_lt
    simp only [leastNormal] at h53
    have h53' : (x.mantissa : ℚ) + 1 ≤ 2 ^ 53 := by exact_mod_cast (by omega)
    linarith
  have hbelow : q < 2 ^ (x.exponent + 53) := by
    rw [add_comm, zpow_two_add]
    exact h.high.trans_lt (mul_lt_mul_of_pos_right hm53 hpow)
  -- It has exactly 53 bits, or `x` is subnormal, or it lies below a power of two.
  by_cases hnormal : (2 : ℚ) ^ (x.exponent + 52) ≤ q
  · left
    rw [exponentOf_eq hn hd hnormal (by rw [add_assoc]; exact hbelow)]
    have := hx.le_exponent
    omega
  rw [not_le] at hnormal
  by_cases hleast : x.exponent = minExponent
  · left
    have hlog := Int.zpow_log_le_self (b := 2) (by norm_num) hpos
    rw [exponentOf_eq hn hd hlog (Int.lt_zpow_succ_log_self (by norm_num) q)]
    have := zpow_two_lt.mp (hlog.trans_lt hnormal)
    omega
  right
  obtain ⟨heq, hnarrow⟩ := h.narrow hx hleast hnormal
  refine ⟨heq, hnarrow, ?_, ?_⟩
  · rw [add_comm, zpow_two_add] at hnormal
    norm_num [leastNormal] at hnormal ⊢
    exact hnormal
  have hlow : (2 : ℚ) ^ (x.exponent + 51) ≤ q := by
    refine le_trans ?_ h.low
    rw [add_comm, zpow_two_add]
    refine mul_le_mul_of_nonneg_right ?_ hpow.le
    rw [heq, reachBelow, if_pos hnarrow, leastNormal]
    norm_num
  rw [exponentOf_eq hn hd hlow (by rw [add_assoc]; exact hnormal)]
  have := hx.le_exponent
  omega

/-! ### The number -/

/-- The mantissa at exponent `e`, from the bounds on the value. -/
theorem roundHalfEven_scaled (hd : 0 < den) {e : ℤ}
    (hlow : (m - 1 / 2) * 2 ^ e ≤ (num : ℚ) / den) (hhigh : (num : ℚ) / den ≤ (m + 1 / 2) * 2 ^ e)
    (hodd : m % 2 = 1 →
      (m - 1 / 2) * 2 ^ e < (num : ℚ) / den ∧ (num : ℚ) / den < (m + 1 / 2) * 2 ^ e) :
    roundHalfEven (num * (scaled 1 2 e).2) (den * (scaled 1 2 e).1) = m := by
  have hd' : (0 : ℚ) < den := by exact_mod_cast hd
  have hs : (0 : ℚ) < (scaled 1 2 e).2 := scaled_den_cast_pos (by norm_num)
  have hvalue : ((scaled 1 2 e).1 : ℚ) = 2 ^ e * (scaled 1 2 e).2 := scaled_one_value (by norm_num)
  have hpos : 0 < (scaled 1 2 e).1 := scaled_one_num_pos (by norm_num)
  -- Clear the denominators: the bounds on the quotient become those that `roundHalfEven_eq` asks
  -- for.
  rw [le_div_iff₀ hd'] at hlow
  rw [div_le_iff₀ hd'] at hhigh
  rw [lt_div_iff₀ hd', div_lt_iff₀ hd'] at hodd
  refine roundHalfEven_eq (Nat.mul_pos hd hpos) ?_ ?_ fun hm => ?_
  · rw [← Nat.cast_le (α := ℚ)]
    push_cast
    rw [hvalue]
    nlinarith [mul_le_mul_of_nonneg_right hlow hs.le]
  · rw [← Nat.cast_le (α := ℚ)]
    push_cast
    rw [hvalue]
    nlinarith [mul_le_mul_of_nonneg_right hhigh hs.le]
  · rw [← Nat.cast_lt (α := ℚ), ← Nat.cast_lt (α := ℚ)]
    push_cast
    rw [hvalue]
    refine ⟨?_, ?_⟩
    · nlinarith [mul_lt_mul_of_pos_right (hodd hm).1 hs]
    · nlinarith [mul_lt_mul_of_pos_right (hodd hm).2 hs]

/-- **Rounding finds the number whose interval holds the value.** -/
theorem nearest_eq (hx : x.Canonical) (hm : 0 < x.mantissa) (hn : 0 < num) (hd : 0 < den)
    (h : RoundsTo ((num : ℚ) / den) x) : nearest x.negative num den = some x := by
  have hpow := zpow_two_pos x.exponent
  have hreach : (x.mantissa - 1 / 2) * 2 ^ x.exponent
      ≤ (x.mantissa - x.reachBelow) * (2 : ℚ) ^ x.exponent :=
    mul_le_mul_of_nonneg_right (by linarith [reachBelow_le (x := x)]) hpow.le
  unfold nearest
  rw [if_neg hn.ne']
  dsimp only
  -- The value has the exponent of `x`, unless it lies below the power of two that `x` is.
  obtain he | ⟨hleast, hnarrow, hlt, he⟩ := exponentOf_of_roundsTo hx hm hn hd h
  · rw [he, roundHalfEven_scaled hd (hreach.trans h.low) h.high
      fun hodd => ⟨hreach.trans_lt (h.inside hodd).1, (h.inside hodd).2⟩]
    -- The mantissa is that of `x`, which does not carry and is in range.
    rw [if_neg hx.mantissa_lt.ne]
    dsimp only
    rw [if_neg (not_lt.mpr hx.exponent_le)]
  · -- The mantissa rounds up to a power of two and carries.
    have hhalf : (2 : ℚ) ^ x.exponent = 2 * 2 ^ (x.exponent - 1) := by
      rw [show x.exponent = 1 + (x.exponent - 1) by ring, zpow_two_add]
      norm_num
    have hcarry : roundHalfEven (num * (scaled 1 2 (x.exponent - 1)).2)
        (den * (scaled 1 2 (x.exponent - 1)).1) = 2 * leastNormal := by
      refine roundHalfEven_scaled hd ?_ ?_ fun hodd => by simp [leastNormal] at hodd
      · refine le_trans (le_of_eq ?_) h.low
        rw [hleast, reachBelow, if_pos hnarrow, hhalf]
        push_cast
        ring
      · refine hlt.le.trans ?_
        rw [hhalf]
        push_cast
        nlinarith [zpow_two_pos (x.exponent - 1)]
    rw [he, hcarry, if_pos rfl]
    dsimp only
    rw [sub_add_cancel, if_neg (not_lt.mpr hx.exponent_le), ← hleast]

/-! ### Canonical numbers -/

theorem zero_canonical (negative : Bool) : (zero negative).Canonical :=
  ⟨by simp [zero, leastNormal], le_rfl, by simp [zero, minExponent, maxExponent], .inr rfl⟩

/-- There is one zero of either sign. -/
theorem Canonical.eq_zero (hx : x.Canonical) (hm : x.mantissa = 0) : x = zero x.negative := by
  have hexponent := hx.normal.resolve_left (by simp [hm, leastNormal])
  obtain ⟨negative, mantissa, exponent⟩ := x
  simp only at hm hexponent
  rw [hm, hexponent, zero]

/-- The rounded quotient is the floor or the number behind it. -/
theorem roundHalfEven_bounds (num den : ℕ) :
    num / den ≤ roundHalfEven num den ∧ roundHalfEven num den ≤ num / den + 1 := by
  unfold roundHalfEven
  dsimp only
  split
  · omega
  · split <;> omega

/-- The floor of a fraction at exponent `e`, between bounds on the value. -/
theorem floor_scaled_bounds (hd : 0 < den) {e : ℤ} {a b : ℕ} (hlow : a * 2 ^ e ≤ (num : ℚ) / den)
    (hhigh : (num : ℚ) / den < b * 2 ^ e) :
    a ≤ num * (scaled 1 2 e).2 / (den * (scaled 1 2 e).1)
      ∧ num * (scaled 1 2 e).2 / (den * (scaled 1 2 e).1) < b := by
  have hd' : (0 : ℚ) < den := by exact_mod_cast hd
  -- Both sides are multiplied by the denominators, which are positive.
  have hs : (0 : ℚ) < (scaled 1 2 e).2 := scaled_den_cast_pos (by norm_num)
  have hvalue : ((scaled 1 2 e).1 : ℚ) = 2 ^ e * (scaled 1 2 e).2 := scaled_one_value (by norm_num)
  have hpos : 0 < den * (scaled 1 2 e).1 := Nat.mul_pos hd (scaled_one_num_pos (by norm_num))
  rw [le_div_iff₀ hd'] at hlow
  rw [div_lt_iff₀ hd'] at hhigh
  refine ⟨?_, ?_⟩
  · rw [Nat.le_div_iff_mul_le hpos, ← Nat.cast_le (α := ℚ)]
    push_cast
    rw [hvalue]
    nlinarith [mul_le_mul_of_nonneg_right hlow hs.le]
  · rw [Nat.div_lt_iff_lt_mul hpos, ← Nat.cast_lt (α := ℚ)]
    push_cast
    rw [hvalue]
    nlinarith [mul_lt_mul_of_pos_right hhigh hs]

/-- At the exponent that is chosen, a fraction has 53 bits before the point at most, and exactly
53 above the least exponent. -/
theorem exponentOf_bounds (hn : 0 < num) (hd : 0 < den) :
    minExponent ≤ exponentOf num den
      ∧ (num : ℚ) / den < (2 * leastNormal : ℕ) * 2 ^ exponentOf num den
      ∧ (leastNormal * 2 ^ exponentOf num den ≤ (num : ℚ) / den
        ∨ exponentOf num den = minExponent) := by
  have hq : (0 : ℚ) < (num : ℚ) / den := by positivity
  have hlow : (2 : ℚ) ^ Int.log 2 ((num : ℚ) / den) ≤ num / den :=
    Int.zpow_log_le_self (by norm_num) hq
  have hhigh : (num : ℚ) / den < 2 ^ (Int.log 2 ((num : ℚ) / den) + 1) :=
    Int.lt_zpow_succ_log_self (by norm_num) _
  -- The exponent follows from the power of two below the value.
  have he := exponentOf_eq hn hd hlow hhigh
  set t := Int.log 2 ((num : ℚ) / den)
  set e := exponentOf num den
  refine ⟨by omega, hhigh.trans_le ?_, ?_⟩
  · calc (2 : ℚ) ^ (t + 1) ≤ 2 ^ (53 + e) := zpow_le_zpow_right₀ (by norm_num) (by omega)
      _ = (2 * leastNormal : ℕ) * 2 ^ e := by rw [zpow_two_add, leastNormal]; norm_num
  · -- Unless the exponent is the least one, the mantissa has all of its bits.
    by_cases hmin : e = minExponent
    · exact .inr hmin
    · left
      refine le_trans (le_of_eq ?_) hlow
      rw [show t = 52 + e by omega, zpow_two_add, leastNormal]
      norm_num

/-- **Rounding gives canonical numbers only.** -/
theorem nearest_canonical {negative : Bool} (hd : 0 < den)
    (h : nearest negative num den = some x) : x.Canonical := by
  unfold nearest at h
  split at h
  · exact Option.some.inj h ▸ zero_canonical negative
  next hn =>
  have hn : 0 < num := Nat.pos_of_ne_zero hn
  have hq : (0 : ℚ) ≤ (num : ℚ) / den := by positivity
  -- The exponent is in range and leaves room for the mantissa.
  obtain ⟨hmin, hhigh, hlow⟩ := exponentOf_bounds hn hd
  set e := exponentOf num den
  -- The mantissa is the floor or the number behind it.
  have hbounds := roundHalfEven_bounds (num * (scaled 1 2 e).2) (den * (scaled 1 2 e).1)
  have hlt := (floor_scaled_bounds hd (a := 0) (by simpa using hq) hhigh).2
  have hge : leastNormal ≤ roundHalfEven (num * (scaled 1 2 e).2) (den * (scaled 1 2 e).1)
      ∨ e = minExponent :=
    hlow.imp_left fun hlow => (floor_scaled_bounds hd hlow hhigh).1.trans hbounds.1
  dsimp only at h
  split at h
  · -- The mantissa has carried into a bit of its own.
    next hcarry =>
    dsimp only at h
    split at h
    · exact absurd h (by simp)
    · next hmax =>
      obtain rfl := Option.some.inj h
      exact ⟨by simp [leastNormal], by dsimp only; omega, not_lt.mp hmax, .inl le_rfl⟩
  · next hcarry =>
    dsimp only at h
    split at h
    · exact absurd h (by simp)
    · next hmax =>
      obtain rfl := Option.some.inj h
      exact ⟨by dsimp only; omega, hmin, not_lt.mp hmax, hge⟩

/-! ### Reading a decimal -/

/-- A number is below the power of ten with as many zeros as it has digits. -/
theorem lt_pow_digitCount (n : ℕ) : n < 10 ^ digitCount n :=
  (Nat.length_toDigits_le_iff (by norm_num) Nat.length_toDigits_pos).mp le_rfl

/-- It is not below the one with a zero less. -/
theorem pow_digitCount_le {n : ℕ} (hn : 0 < n) : 10 ^ (digitCount n - 1) ≤ n := by
  by_contra hlt
  obtain h1 | h1 : digitCount n - 1 = 0 ∨ 0 < digitCount n - 1 := by omega
  · rw [h1] at hlt
    omega
  · have := (Nat.length_toDigits_le_iff (by norm_num) h1).mpr (not_le.mp hlt)
    unfold digitCount at *
    omega

/-- The number of digits, moved by the exponent, is the order of magnitude of a decimal. -/
theorem magnitude_bounds {n : ℕ} (hn : 0 < n) (e : ℤ) :
    (10 : ℚ) ^ (digitCount n + e - 1) ≤ n * 10 ^ e
      ∧ (n : ℚ) * 10 ^ e < 10 ^ (digitCount n + e) := by
  -- The digits alone are between two powers of ten, and both sides are scaled.
  have hpow : (0 : ℚ) < 10 ^ e := zpow_pos (by norm_num) e
  have hpos : 0 < digitCount n := Nat.length_toDigits_pos
  refine ⟨?_, ?_⟩
  · rw [show (digitCount n + e - 1 : ℤ) = ((digitCount n - 1 : ℕ) : ℤ) + e by omega,
      zpow_add₀ (by norm_num), zpow_natCast]
    refine mul_le_mul_of_nonneg_right ?_ hpow.le
    exact_mod_cast pow_digitCount_le hn
  · rw [zpow_add₀ (by norm_num), zpow_natCast]
    refine mul_lt_mul_of_pos_right ?_ hpow
    exact_mod_cast lt_pow_digitCount n

theorem zpow_ten_lt {e e' : ℤ} : (10 : ℚ) ^ e < 10 ^ e' ↔ e < e' :=
  zpow_lt_zpow_iff_right₀ (by norm_num)

/-- What rounds to a number other than zero is no less than half of the least one. -/
theorem RoundsTo.lower_bound (hx : x.Canonical) (hm : 0 < x.mantissa) (h : RoundsTo q x) :
    (2 : ℚ) ^ (-1075 : ℤ) ≤ q := by
  refine le_trans ?_ h.low
  have hone : (1 : ℚ) ≤ x.mantissa := by exact_mod_cast hm
  calc (2 : ℚ) ^ (-1075 : ℤ) = 2 ^ (-1 + minExponent) := by rw [minExponent]; norm_num
    _ ≤ 2 ^ (-1 + x.exponent) :=
      zpow_le_zpow_right₀ (by norm_num) (by linarith [hx.le_exponent])
    _ = 1 / 2 * 2 ^ x.exponent := by rw [zpow_two_add]; norm_num
    _ ≤ (x.mantissa - x.reachBelow) * 2 ^ x.exponent :=
      mul_le_mul_of_nonneg_right (by linarith [reachBelow_le (x := x)]) (zpow_two_pos _).le

/-- What rounds to a number is bounded by the range of exponents. -/
theorem RoundsTo.upper_bound (hx : x.Canonical) (h : RoundsTo q x) : q ≤ (2 : ℚ) ^ (1025 : ℤ) := by
  refine h.high.trans ?_
  have hm := hx.mantissa_lt
  simp only [leastNormal] at hm
  -- The mantissa has 53 bits, and half a unit is not a bit more.
  have hone : (x.mantissa : ℚ) + 1 / 2 ≤ 2 ^ (54 : ℤ) := by
    have : (x.mantissa : ℚ) ≤ 9007199254740992 := by
      exact_mod_cast (by omega : x.mantissa ≤ 9007199254740992)
    norm_num
    linarith
  calc (x.mantissa + 1 / 2) * (2 : ℚ) ^ x.exponent ≤ 2 ^ (54 : ℤ) * 2 ^ maxExponent :=
        mul_le_mul hone (zpow_le_zpow_right₀ (by norm_num) hx.exponent_le)
          (zpow_two_pos _).le (zpow_two_pos _).le
    _ = 2 ^ (1025 : ℤ) := by rw [← zpow_two_add, maxExponent]; norm_num

/-- **Reading a decimal finds the number whose interval holds it.** -/
theorem ofDecimal_eq (hx : x.Canonical) (hm : 0 < x.mantissa) {digits : ℕ} {e : ℤ}
    (h : RoundsTo ((digits : ℚ) * 10 ^ e) x) : ofDecimal x.negative digits e = some x := by
  have hlow := h.lower_bound hx hm
  have hhigh := h.upper_bound hx
  -- Zero does not round to `x`.
  have hdigits : 0 < digits := by
    rw [Nat.pos_iff_ne_zero]
    rintro rfl
    rw [Nat.cast_zero, zero_mul] at hlow
    exact absurd hlow (not_le.mpr (zpow_two_pos _))
  obtain ⟨hmagLow, hmagHigh⟩ := magnitude_bounds hdigits e
  -- The value lies far inside the range in which the digits are looked at.
  have hmin : (-330 : ℤ) ≤ digitCount digits + e := by
    have hten : (10 : ℚ) ^ (-331 : ℤ) < 2 ^ (-1075 : ℤ) := by
      have hnat : 2 ^ 1075 < 10 ^ 331 := by decide +kernel
      rw [zpow_neg, zpow_neg, inv_lt_inv₀ (zpow_pos (by norm_num) _) (zpow_two_pos _)]
      exact_mod_cast hnat
    have := zpow_ten_lt.mp (hten.trans (hlow.trans_lt hmagHigh))
    omega
  have hmax : digitCount digits + e ≤ (310 : ℤ) := by
    have hten : (2 : ℚ) ^ (1025 : ℤ) < 10 ^ (310 : ℤ) := by
      have hnat : 2 ^ 1025 < 10 ^ 310 := by decide +kernel
      exact_mod_cast hnat
    have := zpow_ten_lt.mp (hmagLow.trans_lt (hhigh.trans_lt hten))
    omega
  -- It is therefore rounded as the fraction that it is.
  have hden : 0 < (scaled digits 10 e).2 := scaled_den_pos (by norm_num)
  have hden' : (0 : ℚ) < (scaled digits 10 e).2 := scaled_den_cast_pos (by norm_num)
  have hvalue : ((scaled digits 10 e).1 : ℚ) / (scaled digits 10 e).2 = digits * 10 ^ e :=
    scaled_div (by norm_num)
  unfold ofDecimal
  dsimp only
  rw [if_neg (by omega), if_neg (by omega)]
  refine nearest_eq hx hm ?_ hden (by rw [hvalue]; exact h)
  have hpos : (0 : ℚ) < (scaled digits 10 e).1 / (scaled digits 10 e).2 := by
    rw [hvalue]
    exact (zpow_two_pos _).trans_le hlow
  exact_mod_cast (div_pos_iff_of_pos_right hden').mp hpos

end CompositeCrd.Binary64
