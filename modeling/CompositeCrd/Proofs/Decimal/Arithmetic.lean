import CompositeCrd.Decimal.Arithmetic
import CompositeCrd.Proofs.Decimal.Shortest

/-!
# How far binary64 arithmetic goes

`Binary64.ofParts` reads a decimal with a handful of operations, each of which rounds. Three facts
about it are proved:

* it gives canonical numbers only (`ofParts_canonical`);
* it gives a number whenever the value, with an error of `2 ^ -53` for each of the two factors,
  stays below the end of the range (`magnitude?_isSome_of_lt`), and always for a negative exponent
  (`magnitude?_isSome_of_neg`), so that what a number is written as can be read (`ofParts_isSome`);
* it gives the nearest number for a decimal of few digits, whose factors are both exact
  (`ofParts_eq_ofDecimal`).

The first two rest on how far rounding moves a value (`nearest_magnitude_bounds`) and on when it
fails (`nearest_isSome`), the third on the fact that rounding leaves alone what is a number
(`nearest_magnitude`).
-/

namespace CompositeCrd.Binary64

variable {x y z : Binary64} {negative : Bool} {num den : ℕ} {q : ℚ}

/-! ### The error of rounding -/

/-- A quotient is rounded by a half at most. -/
theorem roundHalfEven_error (num : ℕ) (hd : 0 < den) :
    2 * (roundHalfEven num den * den) ≤ 2 * num + den
      ∧ 2 * num ≤ 2 * (roundHalfEven num den * den) + den := by
  have hdiv := Nat.div_add_mod num den
  have hmod := Nat.mod_lt num hd
  rw [Nat.mul_comm] at hdiv
  unfold roundHalfEven
  dsimp only
  generalize num / den = q at *
  generalize num % den = r at *
  subst hdiv
  have hsucc : (q + 1) * den = q * den + den := Nat.succ_mul q den
  -- Rounding down leaves less than a half, rounding up adds less than one.
  split
  · omega
  · split
    · omega
    · -- A tie goes to either side.
      rcases Nat.mod_two_eq_zero_or_one q with h | h
      · rw [h, Nat.add_zero]
        omega
      · rw [h]
        omega

/-- The mantissa that is computed at exponent `e`, times the power of two, is half of that power
away from the value at most. -/
theorem roundHalfEven_scaled_error (num : ℕ) (hd : 0 < den) (e : ℤ) :
    (roundHalfEven (num * (scaled 1 2 e).2) (den * (scaled 1 2 e).1) : ℚ) * 2 ^ e
        ≤ num / den + 2 ^ e / 2
      ∧ (num : ℚ) / den
        ≤ roundHalfEven (num * (scaled 1 2 e).2) (den * (scaled 1 2 e).1) * 2 ^ e + 2 ^ e / 2 := by
  have hd' : (0 : ℚ) < den := by exact_mod_cast hd
  have hs : (0 : ℚ) < (scaled 1 2 e).2 := scaled_den_cast_pos (by norm_num)
  have hvalue : ((scaled 1 2 e).1 : ℚ) = 2 ^ e * (scaled 1 2 e).2 := scaled_one_value (by norm_num)
  have hpos : 0 < den * (scaled 1 2 e).1 := Nat.mul_pos hd (scaled_one_num_pos (by norm_num))
  obtain ⟨hup, hdown⟩ := roundHalfEven_error (num * (scaled 1 2 e).2) hpos
  set m := roundHalfEven (num * (scaled 1 2 e).2) (den * (scaled 1 2 e).1)
  -- Both bounds are multiplied by the denominators.
  rw [← Nat.cast_le (α := ℚ)] at hup hdown
  push_cast at hup hdown
  rw [hvalue] at hup hdown
  have hscale : (0 : ℚ) < den * (scaled 1 2 e).2 := mul_pos hd' hs
  have hnum : (num : ℚ) / den * den = num := div_mul_cancel₀ _ hd'.ne'
  constructor
  · refine le_of_mul_le_mul_right ?_ hscale
    rw [add_mul, ← mul_assoc (num / den : ℚ), hnum]
    linarith
  · refine le_of_mul_le_mul_right ?_ hscale
    rw [add_mul, ← mul_assoc (num / den : ℚ), hnum]
    linarith

/-- **Rounding moves a value by half of a unit at most.** -/
theorem nearest_error (hn : 0 < num) (hd : 0 < den) (h : nearest negative num den = some y) :
    y.magnitude ≤ num / den + 2 ^ exponentOf num den / 2
      ∧ (num : ℚ) / den ≤ y.magnitude + 2 ^ exponentOf num den / 2 := by
  have herror := roundHalfEven_scaled_error num hd (exponentOf num den)
  unfold nearest at h
  rw [if_neg hn.ne'] at h
  dsimp only at h
  split at h
  · -- A carry changes the representation and not the value.
    next hcarry =>
    dsimp only at h
    split at h
    · exact absurd h (by simp)
    · obtain rfl := Option.some.inj h
      rw [hcarry] at herror
      have hvalue : magnitude ⟨negative, leastNormal, exponentOf num den + 1⟩
          = ((2 * leastNormal : ℕ) : ℚ) * 2 ^ exponentOf num den := by
        rw [magnitude, zpow_two_add]
        push_cast
        ring
      rw [hvalue]
      exact herror
  · dsimp only at h
    split at h
    · exact absurd h (by simp)
    · obtain rfl := Option.some.inj h
      exact herror

/-- A unit is a small part of the value, or the least one. -/
theorem unit_le (hn : 0 < num) (hd : 0 < den) :
    (2 : ℚ) ^ exponentOf num den ≤ num / den / 2 ^ 52
      ∨ exponentOf num den = minExponent := by
  obtain ⟨-, -, hlow⟩ := exponentOf_bounds hn hd
  refine hlow.imp_left fun hlow => ?_
  rw [le_div_iff₀ (by positivity)]
  norm_num [leastNormal] at hlow ⊢
  linarith

/-- Rounding moves a value by `2 ^ -53` of it, or by half of the least number. -/
theorem nearest_magnitude_le (hd : 0 < den) (h : nearest negative num den = some y) :
    y.magnitude ≤ num / den * (1 + 1 / 2 ^ 53) + 1 := by
  obtain rfl | hn := Nat.eq_zero_or_pos num
  · rw [nearest, if_pos rfl] at h
    obtain rfl := Option.some.inj h
    norm_num [magnitude, zero]
  obtain ⟨hup, -⟩ := nearest_error hn hd h
  have hq : (0 : ℚ) ≤ (num : ℚ) / den := by positivity
  -- The unit of the last place is small beside the value, or it is the least there is.
  rcases unit_le hn hd with hunit | hmin
  · linarith
  · have hone : (2 : ℚ) ^ minExponent ≤ 1 := zpow_le_one_of_nonpos₀ (by norm_num) (by decide)
    rw [hmin] at hup
    linarith

/-- From one on, a value has no least number to be rounded to. -/
theorem nearest_magnitude_bounds (hd : 0 < den) (hone : 1 ≤ (num : ℚ) / den)
    (h : nearest negative num den = some y) :
    y.magnitude ≤ num / den * (1 + 1 / 2 ^ 53) ∧ (num : ℚ) / den / 2 ≤ y.magnitude := by
  have hn : 0 < num := by
    rw [Nat.pos_iff_ne_zero]
    rintro rfl
    norm_num at hone
  obtain ⟨hup, hdown⟩ := nearest_error hn hd h
  have hunit : (2 : ℚ) ^ exponentOf num den ≤ num / den / 2 ^ 52 := by
    refine (unit_le hn hd).resolve_right fun hmin => ?_
    obtain ⟨-, hhigh, -⟩ := exponentOf_bounds hn hd
    -- At the least exponent the value would be far below one.
    have hsmall : ((2 * leastNormal : ℕ) : ℚ) * 2 ^ minExponent ≤ 1 := by
      have : ((2 * leastNormal : ℕ) : ℚ) = 2 ^ (53 : ℤ) := by norm_num [leastNormal]
      rw [this, ← zpow_two_add]
      exact zpow_le_one_of_nonpos₀ (by norm_num) (by decide)
    rw [hmin] at hhigh
    linarith
  constructor <;> linarith

/-- The end of the range: what is below it is rounded to a finite number. -/
def rangeEnd : ℚ :=
  (2 ^ 53 - 1 / 2) * 2 ^ maxExponent

/-- The powers of two up to the last are in range. -/
theorem two_pow_le_rangeEnd {k : ℕ} (hk : k ≤ 971) : (2 : ℚ) ^ k ≤ rangeEnd := by
  have hpow : (2 : ℚ) ^ k ≤ 2 ^ maxExponent := by
    rw [← zpow_natCast]
    exact zpow_le_zpow_right₀ (by norm_num) (by simp only [maxExponent]; omega)
  have hone : (2 : ℚ) ^ maxExponent ≤ rangeEnd :=
    le_mul_of_one_le_left (zpow_two_pos _).le (by norm_num)
  exact hpow.trans hone

/-- **Below the end of the range, rounding gives a number.** -/
theorem nearest_isSome (negative : Bool) (hd : 0 < den) (h : (num : ℚ) / den < rangeEnd) :
    (nearest negative num den).isSome := by
  rw [rangeEnd] at h
  unfold nearest
  split
  · rfl
  next hn =>
  have hn : 0 < num := Nat.pos_of_ne_zero hn
  have hpow := zpow_two_pos maxExponent
  obtain ⟨-, -, hlow⟩ := exponentOf_bounds hn hd
  obtain ⟨hup, -⟩ := roundHalfEven_scaled_error num hd (exponentOf num den)
  -- The exponent is not too great,
  have hle : exponentOf num den ≤ maxExponent := by
    by_contra hgt
    rw [not_le] at hgt
    have hge := hlow.resolve_right fun hmin => by simp only [minExponent, maxExponent] at *; omega
    have htop : (2 : ℚ) * 2 ^ maxExponent ≤ 2 ^ exponentOf num den := by
      rw [← zpow_one_add₀ (by norm_num)]
      exact zpow_le_zpow_right₀ (by norm_num) (by omega)
    norm_num [leastNormal] at hge h
    linarith
  -- and with the greatest exponent the mantissa does not carry.
  have hcarry : exponentOf num den = maxExponent →
      roundHalfEven (num * (scaled 1 2 (exponentOf num den)).2)
        (den * (scaled 1 2 (exponentOf num den)).1) ≠ 2 * leastNormal := by
    intro heq hm
    rw [hm, heq] at hup
    norm_num [leastNormal] at hup h
    linarith
  dsimp only
  split
  · next hm =>
    have hne : exponentOf num den ≠ maxExponent := fun heq => hcarry heq hm
    dsimp only
    rw [if_neg (by omega)]
    rfl
  · dsimp only
    rw [if_neg (by omega)]
    rfl

/-! ### The operations -/

theorem magnitude_nonneg (x : Binary64) : 0 ≤ x.magnitude :=
  mul_nonneg (Nat.cast_nonneg _) (zpow_two_pos _).le

/-- A number of positive magnitude has a positive mantissa. -/
theorem mantissa_pos (h : 0 < x.magnitude) : 0 < x.mantissa := by
  rw [Nat.pos_iff_ne_zero]
  intro hzero
  rw [magnitude, hzero, Nat.cast_zero, zero_mul] at h
  exact h.false

/-- The fraction of which `mul?` takes the nearest number. -/
theorem product_eq (x y : Binary64) :
    ((scaled (x.mantissa * y.mantissa) 2 (x.exponent + y.exponent)).1 : ℚ)
        / (scaled (x.mantissa * y.mantissa) 2 (x.exponent + y.exponent)).2
      = x.magnitude * y.magnitude := by
  rw [scaled_div (by norm_num), magnitude, magnitude, Nat.cast_ofNat, zpow_two_add]
  push_cast
  ring

/-- The fraction of which `div?` takes the nearest number. -/
theorem quotient_eq (x y : Binary64) :
    ((scaled x.mantissa 2 (x.exponent - y.exponent)).1 : ℚ)
        / ((scaled x.mantissa 2 (x.exponent - y.exponent)).2 * y.mantissa : ℕ)
      = x.magnitude / y.magnitude := by
  rw [Nat.cast_mul, ← div_div, scaled_div (by norm_num), magnitude, magnitude, Nat.cast_ofNat,
    zpow_sub₀ (by norm_num), mul_div_assoc', div_div, mul_comm (y.mantissa : ℚ)]

theorem mul?_canonical (h : x.mul? y = some z) : z.Canonical :=
  nearest_canonical (scaled_den_pos (by norm_num)) h

/-- A product exists when the exact one is in range. -/
theorem mul?_isSome (h : x.magnitude * y.magnitude < rangeEnd) : (x.mul? y).isSome := by
  rw [← product_eq] at h
  exact nearest_isSome false (scaled_den_pos (by norm_num)) h

theorem div?_canonical (hy : 0 < y.mantissa) (h : x.div? y = some z) : z.Canonical :=
  nearest_canonical (Nat.mul_pos (scaled_den_pos (by norm_num)) hy) h

/-- A quotient exists when the exact one is in range. -/
theorem div?_isSome (hy : 0 < y.mantissa) (h : x.magnitude / y.magnitude < rangeEnd) :
    (x.div? y).isSome := by
  rw [← quotient_eq] at h
  exact nearest_isSome false (Nat.mul_pos (scaled_den_pos (by norm_num)) hy) h

/-- A quotient is off by a half unit of its last place, at most. -/
theorem div?_magnitude_le (hy : 0 < y.mantissa) (h : x.div? y = some z) :
    z.magnitude ≤ x.magnitude / y.magnitude * (1 + 1 / 2 ^ 53) + 1 := by
  rw [← quotient_eq]
  exact nearest_magnitude_le (Nat.mul_pos (scaled_den_pos (by norm_num)) hy) h

/-- The greatest power of ten that is used is in the range. -/
theorem pow_maxPower_lt : (10 : ℚ) ^ maxPower < rangeEnd := by
  have hnat : 17 * 10 ^ 308 < 10 * 2 ^ 53 * 2 ^ 971 := by decide +kernel
  have hcast := Nat.cast_lt (α := ℚ).mpr hnat
  simp only [Nat.cast_mul, Nat.cast_pow, Nat.cast_ofNat] at hcast
  have hpow : (2 : ℚ) ^ maxExponent = 2 ^ 971 := zpow_natCast 2 971
  have hpos : (0 : ℚ) < 2 ^ 971 := pow_pos (by norm_num) _
  rw [rangeEnd, maxPower, hpow]
  -- The two powers are too great for arithmetic to spell out.
  generalize (2 : ℚ) ^ 971 = a, (10 : ℚ) ^ 308 = t at *
  linarith

/-- **Every power of ten in the range** is rounded to a number close to it. -/
theorem exists_power {k : ℕ} (hk : k ≤ maxPower) : ∃ p, power? k = some p ∧ 0 < p.mantissa
    ∧ p.magnitude ≤ 10 ^ k * (1 + 1 / 2 ^ 53) ∧ (10 : ℚ) ^ k / 2 ≤ p.magnitude := by
  have hcast : ((Nat.pow 10 k : ℕ) : ℚ) / (1 : ℕ) = 10 ^ k := by
    rw [Nat.cast_one, div_one, Nat.pow_eq]
    push_cast
    rfl
  have hone : (1 : ℚ) ≤ 10 ^ k := one_le_pow₀ (by norm_num)
  have hrange : (10 : ℚ) ^ k < rangeEnd :=
    (pow_le_pow_right₀ (by norm_num) hk).trans_lt pow_maxPower_lt
  -- The power is in range, and one or more.
  obtain ⟨p, hp⟩ := Option.isSome_iff_exists.mp
    (nearest_isSome false Nat.one_pos (by rw [hcast]; exact hrange))
  have hbounds := nearest_magnitude_bounds Nat.one_pos (by rw [hcast]; exact hone) hp
  rw [hcast] at hbounds
  refine ⟨p, hp, mantissa_pos ?_, hbounds⟩
  linarith [hbounds.2]

/-! ### Large denominators -/

/-- Dividing by the greatest power of ten leaves less than there was. -/
theorem exists_shrink (steps : ℕ) (hx : x.magnitude ≤ 2 ^ 65) :
    ∃ y, x.shrink? steps = some y ∧ y.magnitude ≤ 2 ^ 65 := by
  induction steps generalizing x with
  | zero => exact ⟨x, rfl, hx⟩
  | succ steps ih =>
    rw [shrink?]
    split
    · exact ⟨x, rfl, hx⟩
    · obtain ⟨p, hp, hpos, -, hlow⟩ := exists_power le_rfl
      have hten : (2 : ℚ) ^ 66 ≤ 10 ^ maxPower :=
        (show (2 : ℚ) ^ 66 ≤ 10 ^ 20 by norm_num).trans
          (pow_le_pow_right₀ (by norm_num) (by simp [maxPower]))
      have hsmall : x.magnitude / p.magnitude ≤ 1 :=
        (div_le_one (by linarith)).mpr (by linarith)
      -- A number of moderate size is less than one afterwards, and in range.
      obtain ⟨z, hz⟩ := Option.isSome_iff_exists.mp (div?_isSome hpos
        (hsmall.trans_lt (lt_of_lt_of_le (by norm_num) (two_pow_le_rangeEnd (k := 1) (by simp)))))
      have hle := div?_magnitude_le hpos hz
      simp only [hp, hz, Option.bind_eq_bind, Option.bind_some]
      refine ih ?_
      linarith

/-! ### Reading a decimal -/

/-- What is left of a negative exponent after the steps is within the table of powers. -/
theorem remaining_le (n : ℕ) : n - maxPower * ((n - 1) / maxPower) ≤ maxPower := by
  simp only [maxPower]
  omega

/-- The significand as a number of its own, which the error of one rounding makes greater. -/
theorem exists_significand {s : ℕ} (hs : s < 2 ^ 64) :
    ∃ x, nearest false s 1 = some x ∧ x.magnitude ≤ s * (1 + 1 / 2 ^ 53) := by
  have hs' : (s : ℚ) / (1 : ℕ) < 2 ^ 64 := by
    rw [Nat.cast_one, div_one]
    exact_mod_cast hs
  obtain ⟨x, hx⟩ := Option.isSome_iff_exists.mp (nearest_isSome false Nat.one_pos
    (hs'.trans_le (two_pow_le_rangeEnd (by simp))))
  refine ⟨x, hx, ?_⟩
  -- Zero is exact; any other whole number is one or more.
  obtain rfl | hpos := Nat.eq_zero_or_pos s
  · obtain rfl := Option.some.inj hx
    simp [magnitude, zero]
  · have hone : (1 : ℚ) ≤ (s : ℚ) / (1 : ℕ) := by
      rw [Nat.cast_one, div_one]
      exact_mod_cast hpos
    have hup := (nearest_magnitude_bounds Nat.one_pos hone hx).1
    rwa [Nat.cast_one, div_one] at hup

/-- A negative exponent leads to a quotient far from the end of the range. -/
theorem magnitude?_isSome_of_neg {s : ℕ} {e : ℤ} (hs : s < 2 ^ 64) (he : e < 0) :
    (magnitude? s e).isSome := by
  obtain ⟨x, hx, hup⟩ := exists_significand hs
  have hs' : (s : ℚ) < 2 ^ 64 := by exact_mod_cast hs
  -- The steps leave a number of moderate size, and the last power is one or more.
  obtain ⟨y, hy, hle⟩ := exists_shrink ((e.natAbs - 1) / maxPower)
    (show x.magnitude ≤ 2 ^ 65 by linarith)
  obtain ⟨p, hp, hpos, -, hlow⟩ := exists_power (remaining_le e.natAbs)
  have hone : (1 : ℚ) ≤ 10 ^ (e.natAbs - maxPower * ((e.natAbs - 1) / maxPower)) :=
    one_le_pow₀ (by norm_num)
  simp only [magnitude?, hx, if_neg (not_le.mpr he), hy, hp, Option.bind_eq_bind,
    Option.bind_some]
  refine div?_isSome hpos (lt_of_lt_of_le ?_ (two_pow_le_rangeEnd (k := 67) (by simp)))
  rw [div_lt_iff₀ (by linarith)]
  linarith

/-- A product is read if it is below the end of the range by the error of two factors. -/
theorem magnitude?_isSome_of_lt {s k : ℕ} (hs : s < 2 ^ 64) (hk : k ≤ maxPower)
    (hrange : (s : ℚ) * 10 ^ k * (1 + 1 / 2 ^ 53) ^ 2 < rangeEnd) :
    (magnitude? s k).isSome := by
  obtain ⟨x, hx, hup⟩ := exists_significand hs
  obtain ⟨p, hp, -, hup', -⟩ := exists_power hk
  simp only [magnitude?, hx, Int.natAbs_natCast, if_pos hk, if_pos (Int.natCast_nonneg k), hp,
    Option.bind_eq_bind, Option.bind_some]
  -- Each factor is too great by one rounding at most.
  refine mul?_isSome (lt_of_le_of_lt ?_ hrange)
  calc x.magnitude * p.magnitude
      ≤ (s * (1 + 1 / 2 ^ 53)) * (10 ^ k * (1 + 1 / 2 ^ 53)) :=
        mul_le_mul hup hup' p.magnitude_nonneg (by positivity)
    _ = s * 10 ^ k * (1 + 1 / 2 ^ 53) ^ 2 := by ring

/-- **A decimal in the rounding interval of a number is read**, if the number is not one of the two
greatest ones: both factors may be too great by the error of a rounding. -/
theorem ofParts_isSome (hx : x.Canonical) (hm : 0 < x.mantissa) {s : ℕ} {e : ℤ} (hs : s < 2 ^ 64)
    (h : RoundsTo ((s : ℚ) * 10 ^ e) x)
    (htop : x.mantissa + 2 < 2 * leastNormal ∨ x.exponent < maxExponent) :
    (ofParts negative s e).isSome := by
  rw [ofParts, Option.isSome_map]
  by_cases he : e < 0
  · exact magnitude?_isSome_of_neg hs he
  obtain ⟨k, rfl⟩ := Int.eq_ofNat_of_zero_le (not_lt.mp he)
  have hpos : 1 ≤ s := by
    have hlow := h.lower_bound hx hm
    rw [Nat.one_le_iff_ne_zero]
    rintro rfl
    rw [Nat.cast_zero, zero_mul] at hlow
    exact absurd hlow (not_le.mpr (zpow_two_pos _))
  -- The exponent is in the table of powers, because the significand is not zero,
  have hk : k ≤ maxPower := by
    have hone : (1 : ℚ) ≤ s := by exact_mod_cast hpos
    have hten : (2 : ℚ) ^ (1025 : ℤ) < 10 ^ (309 : ℤ) := by
      have hnat : 2 ^ 1025 < 10 ^ 309 := by decide +kernel
      exact_mod_cast hnat
    have hpow : (10 : ℚ) ^ (k : ℤ) ≤ s * 10 ^ (k : ℤ) :=
      le_mul_of_one_le_left (zpow_pos (by norm_num) _).le hone
    have := zpow_ten_lt.mp ((hpow.trans (h.upper_bound hx)).trans_lt hten)
    simp only [maxPower]
    omega
  refine magnitude?_isSome_of_lt hs hk ?_
  -- and the interval ends so early that there is room for the errors.
  have hhigh := h.high
  rw [zpow_natCast] at hhigh
  have hpow := zpow_two_pos maxExponent
  have hmantissa : (x.mantissa : ℚ) + 1 ≤ 2 ^ 53 := by
    have hlt := hx.mantissa_lt
    simp only [leastNormal] at hlt
    exact_mod_cast (by omega : x.mantissa + 1 ≤ 2 ^ 53)
  have hroom : ((x.mantissa : ℚ) + 1 / 2) * 2 ^ x.exponent
      ≤ (2 ^ 53 - 5 / 2) * 2 ^ maxExponent := by
    rcases htop with hlow | hexponent
    · have hle : (2 : ℚ) ^ x.exponent ≤ 2 ^ maxExponent :=
        zpow_le_zpow_right₀ (by norm_num) hx.exponent_le
      have hlow' : (x.mantissa : ℚ) + 3 ≤ 2 ^ 53 := by
        simp only [leastNormal] at hlow
        exact_mod_cast (by omega : x.mantissa + 3 ≤ 2 ^ 53)
      exact mul_le_mul (by linarith) hle (zpow_two_pos _).le (by norm_num)
    · have hhalf : (2 : ℚ) * 2 ^ x.exponent ≤ 2 ^ maxExponent := by
        rw [← zpow_one_add₀ (by norm_num)]
        exact zpow_le_zpow_right₀ (by norm_num) (by omega)
      have hle : ((x.mantissa : ℚ) + 1 / 2) * 2 ^ x.exponent ≤ 2 ^ 53 * 2 ^ x.exponent :=
        mul_le_mul_of_nonneg_right (by linarith) (zpow_two_pos _).le
      linarith
  rw [rangeEnd]
  linarith

/-- **Reading gives canonical numbers only.** -/
theorem ofParts_canonical {s : ℕ} {e : ℤ} (h : ofParts negative s e = some x) : x.Canonical := by
  obtain ⟨y, hy, rfl⟩ := Option.map_eq_some_iff.mp h
  have hcanonical : y.Canonical := by
    -- Every operation rounds, and rounding gives canonical numbers.
    obtain ⟨z, hz, hy⟩ := Option.bind_eq_some_iff.mp hy
    have hz := nearest_canonical Nat.one_pos hz
    dsimp only at hy
    split at hy
    · split at hy
      · obtain ⟨p, -, hy⟩ := Option.bind_eq_some_iff.mp hy
        exact mul?_canonical hy
      · split at hy
        · exact Option.some.inj hy ▸ hz
        · exact absurd hy (by simp)
    · obtain ⟨w, hw, hy⟩ := Option.bind_eq_some_iff.mp hy
      obtain ⟨p, hp, hpos, -⟩ := exists_power (remaining_le e.natAbs)
      rw [hp, Option.bind_eq_bind, Option.bind_some] at hy
      exact div?_canonical hpos hy
  exact ⟨hcanonical.mantissa_lt, hcanonical.le_exponent, hcanonical.exponent_le, hcanonical.normal⟩

/-! ### Exact operations -/

/-- Rounding a quotient depends on its value alone. -/
theorem roundHalfEven_congr {num' den' : ℕ} (hd : 0 < den) (hd' : 0 < den')
    (h : num * den' = num' * den) : roundHalfEven num den = roundHalfEven num' den' := by
  -- A common factor changes neither the quotient nor the comparison with a half.
  have hscale : ∀ {n d k : ℕ}, 0 < k → roundHalfEven (n * k) (d * k) = roundHalfEven n d := by
    intro n d k hk
    unfold roundHalfEven
    dsimp only
    rw [Nat.mul_div_mul_right n d hk, Nat.mul_mod_mul_right, ← Nat.mul_assoc]
    simp only [Nat.mul_lt_mul_right hk]
  rw [← hscale hd', h, Nat.mul_comm den, hscale hd]

/-- **The nearest number depends on the value alone.** -/
theorem nearest_congr {num' den' : ℕ} (hd : 0 < den) (hd' : 0 < den')
    (h : (num : ℚ) / den = num' / den') :
    nearest negative num den = nearest negative num' den' := by
  have hdq : (den : ℚ) ≠ 0 := by exact_mod_cast hd.ne'
  have hdq' : (den' : ℚ) ≠ 0 := by exact_mod_cast hd'.ne'
  have hcross : num * den' = num' * den := by
    have := (div_eq_div_iff hdq hdq').mp h
    exact_mod_cast this
  unfold nearest
  obtain rfl | hn := Nat.eq_zero_or_pos num
  · have hzero : num' = 0 := by
      rw [Nat.zero_mul, eq_comm, Nat.mul_eq_zero] at hcross
      exact hcross.resolve_right hd.ne'
    rw [hzero, if_pos rfl, if_pos rfl]
  have hn' : 0 < num' := by
    rw [Nat.pos_iff_ne_zero]
    rintro rfl
    rw [Nat.zero_mul, Nat.mul_eq_zero] at hcross
    omega
  -- The exponent depends on the value alone,
  have hexponent : exponentOf num den = exponentOf num' den' := by
    have hq : (0 : ℚ) < (num : ℚ) / den := by positivity
    have hlow := Int.zpow_log_le_self (b := 2) (by norm_num) hq
    have hhigh := Int.lt_zpow_succ_log_self (b := 2) (by norm_num) ((num : ℚ) / den)
    rw [exponentOf_eq hn hd hlow hhigh]
    rw [h] at hlow hhigh ⊢
    rw [exponentOf_eq hn' hd' hlow hhigh]
  have hpos : ∀ e, 0 < (scaled 1 2 e).1 := fun e => scaled_one_num_pos (by norm_num)
  -- and so does the mantissa for an exponent.
  have hmantissa : ∀ e, roundHalfEven (num * (scaled 1 2 e).2) (den * (scaled 1 2 e).1)
      = roundHalfEven (num' * (scaled 1 2 e).2) (den' * (scaled 1 2 e).1) := by
    intro e
    refine roundHalfEven_congr (Nat.mul_pos hd (hpos e)) (Nat.mul_pos hd' (hpos e)) ?_
    rw [Nat.mul_mul_mul_comm, hcross, Nat.mul_mul_mul_comm]
  dsimp only
  rw [if_neg hn.ne', if_neg hn'.ne', hexponent, hmantissa]

/-- A value in the middle of the interval of a number is rounded to it. -/
theorem nearest_magnitude (hx : x.Canonical) (hm : 0 < x.mantissa) (hd : 0 < den)
    (h : (num : ℚ) / den = x.magnitude) : nearest x.negative num den = some x := by
  have hpos : (0 : ℚ) < num / den := by
    rw [h]
    exact mul_pos (by exact_mod_cast hm) (zpow_two_pos _)
  have hd' : (0 : ℚ) < den := by exact_mod_cast hd
  refine nearest_eq hx hm (by exact_mod_cast (div_pos_iff_of_pos_right hd').mp hpos) hd ?_
  refine roundsTo_of_ge h.ge (h.trans_lt ?_)
  exact mul_lt_mul_of_pos_right (by linarith) (zpow_two_pos _)

/-- **A number of 53 bits is kept.** -/
theorem exists_exact_significand {s : ℕ} (hs : s < 2 ^ 53) :
    ∃ x, nearest false s 1 = some x ∧ x.magnitude = s := by
  obtain rfl | hpos := Nat.eq_zero_or_pos s
  · exact ⟨zero false, rfl, by simp [magnitude, zero]⟩
  -- Its bits are moved to the top of the mantissa.
  have hlog : s.log2 < 53 := (Nat.log2_lt hpos.ne').mpr hs
  have hlow : 2 ^ s.log2 ≤ s := Nat.log2_self_le hpos.ne'
  have hhigh : s < 2 ^ (s.log2 + 1) := Nat.lt_log2_self
  set k := 52 - s.log2 with hk
  have hlow' : 2 ^ 52 ≤ s * 2 ^ k := by
    calc 2 ^ 52 = 2 ^ s.log2 * 2 ^ k := by rw [← Nat.pow_add]; congr 1; omega
      _ ≤ s * 2 ^ k := Nat.mul_le_mul_right _ hlow
  have hhigh' : s * 2 ^ k < 2 ^ 53 := by
    calc s * 2 ^ k < 2 ^ (s.log2 + 1) * 2 ^ k :=
          Nat.mul_lt_mul_of_pos_right hhigh (Nat.two_pow_pos k)
      _ = 2 ^ 53 := by rw [← Nat.pow_add]; congr 1; omega
  -- Moving the bits leaves the value, so it is rounded to itself.
  have hvalue : magnitude ⟨false, s * 2 ^ k, -(k : ℤ)⟩ = s := by
    rw [magnitude, zpow_neg, zpow_natCast]
    push_cast
    field_simp
  refine ⟨⟨false, s * 2 ^ k, -(k : ℤ)⟩, nearest_magnitude (x := ⟨false, _, _⟩)
    ⟨?_, ?_, ?_, .inl ?_⟩ ?_ Nat.one_pos ?_, hvalue⟩
  · simpa [leastNormal] using hhigh'
  · simp only [minExponent]
    omega
  · simp only [maxExponent]
    omega
  · simpa [leastNormal] using hlow'
  · exact lt_of_lt_of_le (by norm_num) hlow'
  · rw [hvalue, Nat.cast_one, div_one]

/-- The greatest power of ten that is a binary64 number with all powers below it. -/
def exactPower : ℕ := 22

/-- **Small powers of ten are kept.** -/
theorem exists_exact_power {k : ℕ} (hk : k ≤ exactPower) :
    ∃ p, power? k = some p ∧ 0 < p.mantissa ∧ p.magnitude = 10 ^ k := by
  -- There are few enough of them to look at each.
  have hall : ∀ k < exactPower + 1, ∃ p ∈ power? k, 0 < p.mantissa
      ∧ (scaled p.mantissa 2 p.exponent).1 = 10 ^ k * (scaled p.mantissa 2 p.exponent).2 := by
    decide +kernel
  obtain ⟨p, hp, hpos, hvalue⟩ := hall k (Nat.lt_succ_of_le hk)
  refine ⟨p, hp, hpos, ?_⟩
  have hden : (0 : ℚ) < (scaled p.mantissa 2 p.exponent).2 := scaled_den_cast_pos (by norm_num)
  rw [← Nat.cast_inj (R := ℚ), p.scaled_magnitude] at hvalue
  push_cast at hvalue
  exact mul_right_cancel₀ hden.ne' hvalue

/-- The sign of the nearest number is put on at the beginning or at the end. -/
theorem map_nearest_sign (negative : Bool) (num den : ℕ) :
    (nearest false num den).map ({ · with negative }) = nearest negative num den := by
  unfold nearest
  dsimp only
  split
  · rfl
  · split <;> split <;> rfl

/-- **Short decimals are read as the nearest number**: with a significand of 53 bits and a small
exponent, only the last operation rounds. -/
theorem ofParts_eq_ofDecimal {s : ℕ} {e : ℤ} (hs : s < 2 ^ 53) (he : e.natAbs ≤ exactPower) :
    ofParts negative s e = ofDecimal negative s e := by
  obtain ⟨x, hx, hxs⟩ := exists_exact_significand hs
  obtain ⟨p, hp, hpos, hpe⟩ := exists_exact_power he
  have hmax : e.natAbs ≤ maxPower := he.trans (by decide)
  have hden : 0 < (scaled s 10 e).2 := scaled_den_pos (by norm_num)
  -- Either operation is applied to the exact value.
  have hmagnitude : magnitude? s e = nearest false (scaled s 10 e).1 (scaled s 10 e).2 := by
    simp only [magnitude?, hx, Option.bind_eq_bind, Option.bind_some]
    -- An exponent that is not negative multiplies, a negative one divides at once.
    by_cases h : 0 ≤ e
    · rw [if_pos h, if_pos hmax, hp, Option.bind_some]
      refine nearest_congr (scaled_den_pos (by norm_num)) hden ((product_eq x p).trans ?_)
      obtain ⟨k, rfl⟩ := Int.eq_ofNat_of_zero_le h
      rw [scaled_div (by norm_num), hxs, hpe, Int.natAbs_natCast, zpow_natCast,
        Nat.cast_ofNat]
    · have hsteps : (e.natAbs - 1) / maxPower = 0 := by
        simp only [maxPower] at *
        omega
      rw [if_neg h, hsteps, Nat.mul_zero, Nat.sub_zero, shrink?, Option.bind_some, hp,
        Option.bind_some]
      refine nearest_congr (Nat.mul_pos (scaled_den_pos (by norm_num)) hpos) hden
        ((quotient_eq x p).trans ?_)
      obtain ⟨k, hk⟩ := Int.eq_ofNat_of_zero_le (show 0 ≤ -e by omega)
      obtain rfl : e = -(k : ℤ) := by omega
      rw [scaled_div (by norm_num), hxs, hpe, Int.natAbs_neg, Int.natAbs_natCast,
        zpow_neg, zpow_natCast, Nat.cast_ofNat, div_eq_mul_inv]
  rw [ofParts, hmagnitude, map_nearest_sign]
  unfold ofDecimal
  dsimp only
  obtain rfl | hpos := Nat.eq_zero_or_pos s
  · rw [if_pos (.inl rfl)]
    have hzero : (scaled 0 10 e).1 = 0 := by
      unfold scaled
      split <;> simp
    rw [hzero, nearest, if_pos rfl]
  · -- Such a decimal is far from both ends of the range.
    have hcount : digitCount s ≤ 16 := by
      refine (Nat.length_toDigits_le_iff (by norm_num) (by norm_num)).mpr ?_
      exact hs.trans_le (by norm_num)
    simp only [exactPower] at he
    rw [if_neg (by omega), if_neg (by omega)]

end CompositeCrd.Binary64
