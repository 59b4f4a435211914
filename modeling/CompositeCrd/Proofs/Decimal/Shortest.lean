import CompositeCrd.Proofs.Decimal.Rounding

/-!
# The shortest digits read back

`Binary64.shortest` tries grids of powers of ten from coarse to fine and takes the first one
with a point in the rounding interval. Whatever it finds is in the interval, because it was
tested (`readsBack_iff`), so the one thing to prove is that the search does not come back with
empty hands. The grid of seventeen digits is fine enough (`onGrid_isSome`): its spacing is
less than the whole interval, and in the narrow case less than the upper half of it.

With `ofDecimal_eq` this gives `shortest_roundsTo`: the digits that are written for a number
read back to it.
-/

namespace CompositeCrd.Binary64

variable {x : Binary64}

/-- The rational value of a decimal. -/
def Decimal.value (d : Decimal) : ℚ :=
  d.digits * 10 ^ d.exponent

/-- The rational value of a number's magnitude. -/
def magnitude (x : Binary64) : ℚ :=
  x.mantissa * 2 ^ x.exponent

theorem scaled_magnitude (x : Binary64) : ((scaled x.mantissa 2 x.exponent).1 : ℚ)
    = x.magnitude * (scaled x.mantissa 2 x.exponent).2 :=
  scaled_value (by norm_num)

/-! ### The test for reading back -/

/-- The comparison is the one of the values. -/
theorem compareScaled_eq (a : ℕ) (i : ℤ) (b : ℕ) (j : ℤ) :
    compareScaled a i b j = compare ((a : ℚ) * 10 ^ i) ((b : ℚ) * 2 ^ j) := by
  have hs : (0 : ℚ) < (scaled a 10 i).2 := scaled_den_cast_pos (by norm_num)
  have hs' : (0 : ℚ) < (scaled b 2 j).2 := scaled_den_cast_pos (by norm_num)
  -- Both sides are brought to the product of the denominators.
  have hleft : ((scaled a 10 i).1 : ℚ) * (scaled b 2 j).2
      = a * 10 ^ i * ((scaled a 10 i).2 * (scaled b 2 j).2) := by
    rw [scaled_value (by norm_num)]
    push_cast
    ring
  have hright : ((scaled b 2 j).1 : ℚ) * (scaled a 10 i).2
      = b * 2 ^ j * ((scaled a 10 i).2 * (scaled b 2 j).2) := by
    rw [scaled_value (by norm_num)]
    push_cast
    ring
  unfold compareScaled
  dsimp only
  -- The comparison of the products is that of the values.
  obtain hlt | heq | hgt := lt_trichotomy ((a : ℚ) * 10 ^ i) (b * 2 ^ j)
  · rw [compare_lt_iff_lt.mpr hlt, compare_lt_iff_lt, ← Nat.cast_lt (α := ℚ)]
    push_cast
    rw [hleft, hright]
    exact mul_lt_mul_of_pos_right hlt (mul_pos hs hs')
  · rw [compare_eq_iff_eq.mpr heq, compare_eq_iff_eq, ← Nat.cast_inj (R := ℚ)]
    push_cast
    rw [hleft, hright, heq]
  · rw [compare_gt_iff_gt.mpr hgt, compare_gt_iff_gt, ← Nat.cast_lt (α := ℚ)]
    push_cast
    rw [hleft, hright]
    exact mul_lt_mul_of_pos_right hgt (mul_pos hs hs')

/-- The lower end of the rounding interval, in quarters of the gap. -/
theorem lowerEnd_eq (hm : 0 < x.mantissa) :
    ((4 * x.mantissa - (if x.narrowBelow then 1 else 2) : ℕ) : ℚ) * 2 ^ (x.exponent - 2)
      = (x.mantissa - x.reachBelow) * 2 ^ x.exponent := by
  rw [show x.exponent = x.exponent - 2 + 2 by ring, zpow_two_add, reachBelow]
  split
  · rw [Nat.cast_sub (by omega)]
    push_cast
    ring_nf
  · rw [Nat.cast_sub (by omega)]
    push_cast
    ring_nf

theorem upperEnd_eq (x : Binary64) : ((4 * x.mantissa + 2 : ℕ) : ℚ) * 2 ^ (x.exponent - 2)
    = (x.mantissa + 1 / 2) * 2 ^ x.exponent := by
  rw [show x.exponent = x.exponent - 2 + 2 by ring, zpow_two_add]
  push_cast
  ring_nf

/-- The test accepts exactly the decimals in the rounding interval. -/
theorem readsBack_iff (hm : 0 < x.mantissa) (d : Decimal) :
    x.readsBack d = true ↔ RoundsTo d.value x := by
  unfold readsBack
  dsimp only
  rw [compareScaled_eq, compareScaled_eq, lowerEnd_eq hm, upperEnd_eq]
  simp only [Bool.and_eq_true, Bool.or_eq_true, beq_iff_eq, compare_gt_iff_gt, compare_lt_iff_lt,
    compare_eq_iff_eq]
  refine ⟨?_, ?_⟩
  · rintro ⟨hl, hh⟩
    refine ⟨?_, ?_, fun hodd => ?_⟩
    · obtain hl | ⟨-, hl⟩ := hl
      · exact hl.le
      · exact hl.ge
    · obtain hh | ⟨-, hh⟩ := hh
      · exact hh.le
      · exact hh.le
    · exact ⟨hl.resolve_right fun h => by omega, hh.resolve_right fun h => by omega⟩
  · intro h
    -- An even mantissa admits the ends, and an odd one does not.
    obtain heven | hodd := Nat.mod_two_eq_zero_or_one x.mantissa
    · refine ⟨?_, ?_⟩
      · exact h.low.lt_or_eq.imp id fun he => ⟨heven, he.symm⟩
      · exact h.high.lt_or_eq.imp id fun he => ⟨heven, he⟩
    · exact ⟨.inl (h.inside hodd).1, .inl (h.inside hodd).2⟩

/-- A value between the number and the upper end of its interval rounds to it. -/
theorem roundsTo_of_ge {q : ℚ} (hge : x.magnitude ≤ q)
    (hlt : q < (x.mantissa + 1 / 2) * 2 ^ x.exponent) : RoundsTo q x := by
  have hlow : (x.mantissa - x.reachBelow) * 2 ^ x.exponent < q := by
    refine lt_of_lt_of_le ?_ hge
    exact mul_lt_mul_of_pos_right (by linarith [reachBelow_pos (x := x)]) (zpow_two_pos _)
  exact ⟨hlow.le, hlt.le, fun _ => ⟨hlow, hlt⟩⟩

/-- A value between the lower end of the interval and the number rounds to it. -/
theorem roundsTo_of_le {q : ℚ} (hle : q ≤ x.magnitude)
    (hlt : (x.mantissa - x.reachBelow) * 2 ^ x.exponent < q) : RoundsTo q x := by
  have hhigh : q < (x.mantissa + 1 / 2) * 2 ^ x.exponent := by
    refine lt_of_le_of_lt hle ?_
    exact mul_lt_mul_of_pos_right (by linarith) (zpow_two_pos _)
  exact ⟨hlt.le, hhigh.le, fun _ => ⟨hlt, hhigh⟩⟩

/-! ### Points on a grid -/

/-- What is found on a grid was tested. -/
theorem readsBack_of_onGrid {g : ℤ} {d : Decimal} (h : x.onGrid g = some d) :
    x.readsBack d = true := by
  unfold onGrid at h
  dsimp only at h
  -- Whichever of the two points was taken reads back.
  split at h
  · next hl hu =>
    rw [Option.some.injEq] at h
    subst h
    split
    · exact hl
    · exact hu
    · split
      · exact hl
      · exact hu
  · next hl _ => exact (Option.some.inj h) ▸ hl
  · next _ hu => exact (Option.some.inj h) ▸ hu
  · exact absurd h (by simp)

/-- The number lies between the two points of the grid that are tried. -/
theorem grid_floor (x : Binary64) (g : ℤ) :
    let below := (scaled x.mantissa 2 x.exponent).1 * (scaled 1 10 g).2
      / ((scaled x.mantissa 2 x.exponent).2 * (scaled 1 10 g).1)
    (below : ℚ) * 10 ^ g ≤ x.magnitude ∧ x.magnitude < (below + 1) * 10 ^ g := by
  intro below
  have hp' : ((scaled 1 10 g).1 : ℚ) = 10 ^ g * (scaled 1 10 g).2 := scaled_one_value (by norm_num)
  have hn' := x.scaled_magnitude
  have hpos : 0 < (scaled x.mantissa 2 x.exponent).2 * (scaled 1 10 g).1 :=
    Nat.mul_pos (scaled_den_pos (by norm_num)) (scaled_one_num_pos (by norm_num))
  have hscale : (0 : ℚ) < (scaled x.mantissa 2 x.exponent).2 * (scaled 1 10 g).2 :=
    mul_pos (scaled_den_cast_pos (by norm_num)) (scaled_den_cast_pos (by norm_num))
  refine ⟨?_, ?_⟩
  · -- The floor of a quotient, multiplied out.
    have hle : below * ((scaled x.mantissa 2 x.exponent).2 * (scaled 1 10 g).1)
        ≤ (scaled x.mantissa 2 x.exponent).1 * (scaled 1 10 g).2 := Nat.div_mul_le_self _ _
    rw [← Nat.cast_le (α := ℚ)] at hle
    push_cast at hle
    rw [hp', hn'] at hle
    refine le_of_mul_le_mul_right ?_ hscale
    linarith
  · have hlt : (scaled x.mantissa 2 x.exponent).1 * (scaled 1 10 g).2
        < (below + 1) * ((scaled x.mantissa 2 x.exponent).2 * (scaled 1 10 g).1) := by
      rw [Nat.add_mul, Nat.one_mul]
      exact Nat.lt_div_mul_add hpos
    rw [← Nat.cast_lt (α := ℚ)] at hlt
    push_cast at hlt
    rw [hp', hn'] at hlt
    refine lt_of_mul_lt_mul_right ?_ hscale.le
    linarith

/-- The spacing of seventeen digits is less than `0.91` of the gap above a number, and below a
power of two less than half of it. -/
theorem spacing_le (hx : x.Canonical) {g : ℤ} (hg : 10 ^ 16 * (10 : ℚ) ^ g ≤ x.magnitude) :
    (10 : ℚ) ^ g ≤ 0.91 * 2 ^ x.exponent
      ∧ (x.narrowBelow = true → (10 : ℚ) ^ g < 1 / 2 * 2 ^ x.exponent) := by
  have hpow := zpow_two_pos x.exponent
  refine ⟨?_, ?_⟩
  · -- A mantissa of 53 bits is less than seventeen digits, with a tenth to spare.
    have hmantissa : (x.mantissa : ℚ) ≤ 2 ^ 53 := by
      have := hx.mantissa_lt
      simp only [leastNormal] at this
      exact_mod_cast (by omega : x.mantissa ≤ 2 ^ 53)
    have hall : 10 ^ 16 * (10 : ℚ) ^ g ≤ 2 ^ 53 * 2 ^ x.exponent :=
      hg.trans (mul_le_mul_of_nonneg_right hmantissa hpow.le)
    norm_num at hall ⊢
    linarith
  · intro hnarrow
    -- At a power of two the lower half of the interval is halved again.
    have hleast : (x.mantissa : ℚ) = 2 ^ 52 := by
      simp only [narrowBelow, Bool.and_eq_true, beq_iff_eq] at hnarrow
      rw [hnarrow.1, leastNormal]
      norm_num
    have hhalf : 10 ^ 16 * (10 : ℚ) ^ g ≤ 2 ^ 52 * 2 ^ x.exponent := by
      rw [← hleast]
      exact hg
    norm_num at hhalf ⊢
    linarith

/-- Of two points of a fine enough grid on either side of a number, one rounds to it. -/
theorem neighbour_roundsTo (hx : x.Canonical) {g : ℤ} {below : ℕ}
    (hg : 10 ^ 16 * (10 : ℚ) ^ g ≤ x.magnitude) (hfloor : (below : ℚ) * 10 ^ g ≤ x.magnitude)
    (hceil : x.magnitude < ((below : ℚ) + 1) * 10 ^ g) :
    RoundsTo ((below : ℚ) * 10 ^ g) x ∨ RoundsTo (((below + 1 : ℕ) : ℚ) * 10 ^ g) x := by
  have hpow := zpow_two_pos x.exponent
  have hmag : x.magnitude = x.mantissa * 2 ^ x.exponent := rfl
  obtain ⟨hspacing, hnarrow⟩ := spacing_le hx hg
  push_cast
  -- Either the upper point is below the upper end, or the lower point is near enough.
  by_cases hupper : ((below : ℚ) + 1) * 10 ^ g < (x.mantissa + 1 / 2) * 2 ^ x.exponent
  · exact .inr (roundsTo_of_ge hceil.le hupper)
  rw [not_lt] at hupper
  refine .inl (roundsTo_of_le hfloor ?_)
  have hwide : x.reachBelow = 1 / 2 := by
    rw [reachBelow, if_neg]
    intro h
    -- In the narrow case the upper point fits.
    have := hnarrow h
    linarith
  rw [hwide]
  norm_num at hspacing
  linarith

/-- **A fine enough grid has a point in the interval.** -/
theorem onGrid_isSome (hx : x.Canonical) (hm : 0 < x.mantissa) {g : ℤ}
    (hg : 10 ^ 16 * (10 : ℚ) ^ g ≤ x.magnitude) : (x.onGrid g).isSome := by
  obtain ⟨hfloor, hceil⟩ := grid_floor x g
  -- One of the points on either side rounds to the number, and that one is found.
  have hneighbour := neighbour_roundsTo hx hg hfloor hceil
  unfold onGrid
  dsimp only
  rcases hneighbour with hl | hu
  · have hl' := (readsBack_iff hm ⟨_, g⟩).mpr hl
    rw [hl']
    split <;> simp_all
  · have hu' := (readsBack_iff hm ⟨_ + 1, g⟩).mpr hu
    rw [hu']
    split <;> simp_all

/-! ### The search -/

/-- A scale beyond the least number leaves a whole part. -/
theorem one_le_magnitude_mul (hx : x.Canonical) (hm : 0 < x.mantissa) {k : ℕ}
    (hk : 2 ^ 1074 ≤ 10 ^ k) : 1 ≤ x.magnitude * 10 ^ k := by
  -- The least number is a power of two, which the scale brings above one.
  have hleast : (2 : ℚ) ^ (-((1074 : ℕ) : ℤ)) ≤ x.magnitude := by
    have hone : (1 : ℚ) ≤ x.mantissa := by exact_mod_cast hm
    calc (2 : ℚ) ^ (-((1074 : ℕ) : ℤ)) ≤ 2 ^ x.exponent :=
          zpow_le_zpow_right₀ (by norm_num) hx.le_exponent
      _ = 1 * 2 ^ x.exponent := (one_mul _).symm
      _ ≤ x.magnitude := mul_le_mul_of_nonneg_right hone (zpow_two_pos _).le
  have hk' : (2 : ℚ) ^ ((1074 : ℕ) : ℤ) ≤ 10 ^ k := by
    rw [zpow_natCast]
    exact_mod_cast hk
  calc (1 : ℚ) = 2 ^ (-((1074 : ℕ) : ℤ)) * 2 ^ ((1074 : ℕ) : ℤ) := by
        rw [← zpow_two_add, neg_add_cancel, zpow_zero]
    _ ≤ x.magnitude * 10 ^ k :=
        mul_le_mul hleast hk' (zpow_two_pos _).le ((zpow_two_pos _).le.trans hleast)

/-- Counting the digits of a scaled number's whole part gives its order of magnitude, if the
scale `10 ^ k` leaves a whole part at all. -/
theorem magnitude_bounds_of_digitCount (hx : x.Canonical) (hm : 0 < x.mantissa) {k : ℕ}
    (hk : 2 ^ 1074 ≤ Nat.pow 10 k) :
    (10 : ℚ) ^ ((digitCount ((scaled x.mantissa 2 x.exponent).1 * Nat.pow 10 k
      / (scaled x.mantissa 2 x.exponent).2) : ℤ) - k - 1) ≤ x.magnitude
    ∧ x.magnitude < (10 : ℚ) ^ ((digitCount ((scaled x.mantissa 2 x.exponent).1 * Nat.pow 10 k
      / (scaled x.mantissa 2 x.exponent).2) : ℤ) - k) := by
  rw [Nat.pow_eq] at hk ⊢
  have hd : (0 : ℚ) < (scaled x.mantissa 2 x.exponent).2 := scaled_den_cast_pos (by norm_num)
  have hten : (0 : ℚ) < 10 ^ k := by positivity
  set n := (scaled x.mantissa 2 x.exponent).1 * 10 ^ k / (scaled x.mantissa 2 x.exponent).2 with hn
  -- The whole part that is counted is the floor of the scaled number.
  have hfloor : (n : ℚ) ≤ x.magnitude * 10 ^ k := by
    have hle : n * (scaled x.mantissa 2 x.exponent).2
        ≤ (scaled x.mantissa 2 x.exponent).1 * 10 ^ k := Nat.div_mul_le_self _ _
    rw [← Nat.cast_le (α := ℚ)] at hle
    push_cast at hle
    rw [x.scaled_magnitude] at hle
    refine le_of_mul_le_mul_right ?_ hd
    linarith
  have hceil : x.magnitude * 10 ^ k < n + 1 := by
    have hlt : (scaled x.mantissa 2 x.exponent).1 * 10 ^ k
        < (n + 1) * (scaled x.mantissa 2 x.exponent).2 := by
      rw [Nat.add_mul, Nat.one_mul]
      exact Nat.lt_div_mul_add (scaled_den_pos (by norm_num))
    rw [← Nat.cast_lt (α := ℚ)] at hlt
    push_cast at hlt
    rw [x.scaled_magnitude] at hlt
    refine lt_of_mul_lt_mul_right ?_ hd.le
    linarith
  have hpos : 0 < n := by
    refine Nat.div_pos ?_ (scaled_den_pos (by norm_num))
    rw [← Nat.cast_le (α := ℚ)]
    push_cast
    rw [x.scaled_magnitude, mul_right_comm]
    exact le_mul_of_one_le_left hd.le (one_le_magnitude_mul hx hm hk)
  -- The digits of the whole part give the bounds, and the scale is divided out again.
  have hcount : (n : ℚ) + 1 ≤ 10 ^ digitCount n := by exact_mod_cast lt_pow_digitCount n
  have hmag := (magnitude_bounds hpos 0).1
  rw [zpow_zero, mul_one, add_zero] at hmag
  constructor
  · refine le_of_mul_le_mul_right ?_ hten
    calc (10 : ℚ) ^ ((digitCount n : ℤ) - k - 1) * 10 ^ k
        = 10 ^ ((digitCount n : ℤ) - 1) := by
          rw [← zpow_natCast, ← zpow_add₀ (by norm_num)]
          congr 1
          ring
      _ ≤ n := hmag
      _ ≤ x.magnitude * 10 ^ k := hfloor
  · rw [zpow_sub₀ (by norm_num), zpow_natCast, zpow_natCast, lt_div_iff₀ hten]
    exact hceil.trans_le hcount

/-- The decimal point of a number is where its digits begin. -/
theorem decimalPoint_bounds (hx : x.Canonical) (hm : 0 < x.mantissa) :
    (10 : ℚ) ^ (x.decimalPoint - 1) ≤ x.magnitude ∧ x.magnitude < (10 : ℚ) ^ x.decimalPoint := by
  have hscale : 2 ^ 1074 ≤ Nat.pow 10 340 := by decide +kernel
  have key := magnitude_bounds_of_digitCount hx hm hscale
  rw [Nat.cast_ofNat] at key
  exact key

/-- Dropping trailing zeros keeps the value. -/
theorem stripZeros_value (fuel : ℕ) (d : Decimal) : (stripZeros fuel d).value = d.value := by
  induction fuel generalizing d with
  | zero => rfl
  | succ fuel ih =>
    unfold stripZeros
    split
    · -- A zero at the end is moved into the exponent.
      next h =>
      rw [ih, Decimal.value, Decimal.value, zpow_add₀ (by norm_num), zpow_one]
      have hdiv : (d.digits : ℚ) = (d.digits / 10 : ℕ) * 10 := by
        exact_mod_cast (by omega : d.digits = d.digits / 10 * 10)
      rw [hdiv]
      push_cast
      ring
    · rfl

/-- The search ends at the grid of seventeen digits at the latest. -/
theorem search_isSome (hx : x.Canonical) (hm : 0 < x.mantissa) {point : ℤ}
    (hpoint : (10 : ℚ) ^ (point - 1) ≤ x.magnitude) : (x.search point).isSome := by
  rw [search, List.findSome?_isSome_iff]
  -- Seventeen digits make a grid that is fine enough.
  refine ⟨16, by simp, onGrid_isSome hx hm ?_⟩
  rw [← zpow_natCast, ← zpow_add₀ (by norm_num)]
  refine le_trans (le_of_eq ?_) hpoint
  congr 1
  push_cast
  ring

/-! ### The number of digits -/

/-- What is found on a grid is one of the two points around the number. -/
theorem onGrid_digits {g : ℤ} {d : Decimal} (h : x.onGrid g = some d) :
    ∃ below : ℕ, (below : ℚ) * 10 ^ g ≤ x.magnitude ∧ d.digits ≤ below + 1 := by
  refine ⟨_, (grid_floor x g).1, ?_⟩
  unfold onGrid at h
  dsimp only at h
  -- What is found is the point below or the one above.
  split at h
  · obtain rfl := Option.some.inj h
    split
    · exact Nat.le_succ _
    · exact le_rfl
    · split
      · exact Nat.le_succ _
      · exact le_rfl
  · obtain rfl := Option.some.inj h
    exact Nat.le_succ _
  · obtain rfl := Option.some.inj h
    exact le_rfl
  · exact absurd h (by simp)

theorem stripZeros_digits_le (fuel : ℕ) (d : Decimal) :
    (stripZeros fuel d).digits ≤ d.digits := by
  induction fuel generalizing d with
  | zero => exact le_rfl
  | succ fuel ih =>
    unfold stripZeros
    split
    · exact (ih _).trans (Nat.div_le_self _ _)
    · exact le_rfl

/-- The search stops before it has more than seventeen digits. -/
theorem search_digits_le (hx : x.Canonical) (hm : 0 < x.mantissa) {d : Decimal}
    (h : x.search x.decimalPoint = some d) :
    d.digits ≤ 10 ^ 17 := by
  obtain ⟨i, hi, hgrid⟩ := List.exists_of_findSome?_eq_some h
  obtain ⟨below, hfloor, hle⟩ := onGrid_digits hgrid
  have hi : i < 17 := List.mem_range.mp hi
  have hg : (0 : ℚ) < 10 ^ (x.decimalPoint - (i + 1 : ℕ)) := zpow_pos (by norm_num) _
  -- The number is below `10 ^ decimalPoint`, so the grid has that many points below it.
  have hlt : (below : ℚ) < 10 ^ (i + 1) := by
    refine lt_of_mul_lt_mul_right ?_ hg.le
    calc (below : ℚ) * 10 ^ (x.decimalPoint - (i + 1 : ℕ)) ≤ x.magnitude := hfloor
      _ < 10 ^ x.decimalPoint := (decimalPoint_bounds hx hm).2
      _ = 10 ^ (i + 1) * 10 ^ (x.decimalPoint - (i + 1 : ℕ)) := by
        rw [← zpow_natCast, ← zpow_add₀ (by norm_num)]
        congr 1
        ring
  have hpow : 10 ^ (i + 1) ≤ 10 ^ 17 := Nat.pow_le_pow_right (by norm_num) (by omega)
  have hnat : below < 10 ^ (i + 1) := by exact_mod_cast hlt
  omega

/-- **The shortest digits are seventeen at most**, or a power of ten. -/
theorem shortest_digits_le (hx : x.Canonical) (hm : 0 < x.mantissa) :
    x.shortest.digits ≤ 10 ^ 17 := by
  rw [shortest]
  cases h : x.search x.decimalPoint with
  | none => exact Nat.zero_le _
  | some d => exact (stripZeros_digits_le 20 d).trans (search_digits_le hx hm h)

/-- **The shortest digits lie in the rounding interval.** -/
theorem shortest_roundsTo (hx : x.Canonical) (hm : 0 < x.mantissa) :
    RoundsTo x.shortest.value x := by
  obtain ⟨d, hd⟩ := Option.isSome_iff_exists.mp (search_isSome hx hm (decimalPoint_bounds hx hm).1)
  rw [shortest, hd, Option.map_some, Option.getD_some, stripZeros_value]
  obtain ⟨i, -, hi⟩ := List.exists_of_findSome?_eq_some hd
  exact (readsBack_iff hm d).mp (readsBack_of_onGrid hi)

/-- The digits of a number that is not zero are not zero. -/
theorem shortest_digits_pos (hx : x.Canonical) (hm : 0 < x.mantissa) : 0 < x.shortest.digits := by
  have hlow := (shortest_roundsTo hx hm).lower_bound hx hm
  rw [Nat.pos_iff_ne_zero]
  intro hzero
  rw [Decimal.value, hzero, Nat.cast_zero, zero_mul] at hlow
  exact absurd hlow (not_le.mpr (zpow_two_pos _))

end CompositeCrd.Binary64
