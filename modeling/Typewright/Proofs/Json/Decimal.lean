import Mathlib.Algebra.Order.Field.Power
import Mathlib.Data.Nat.Cast.Order.Field
import Mathlib.Data.Rat.Lemmas
import Mathlib.Tactic.FieldSimp
import Mathlib.Tactic.Linarith
import Mathlib.Tactic.NormNum
import Mathlib.Tactic.Ring
import Typewright.Json.Decimal

/-!
# The decimal text of a double

No rational rounds to two doubles (`eq_of_roundsTo`), and the digits that are written for a double
stand for a rational that rounds to it, because seventeen digits are always enough
(`exists_onGrid`). So distinct doubles have distinct texts.
-/

namespace Typewright

namespace Double

variable {x y : Double} {v : ℚ}

/-! ## Rounding -/

/-- What the ends of the rounding interval are counted in. -/
def quantum (x : Double) : ℚ := 2 ^ ((x.exponent : ℤ) - 1076)

/-- A rational that rounds to a positive double. -/
def RoundsTo (v : ℚ) (x : Double) : Prop :=
  if x.rounding.closed then
    x.rounding.lower * x.quantum ≤ v ∧ v ≤ x.rounding.upper * x.quantum
  else x.rounding.lower * x.quantum < v ∧ v < x.rounding.upper * x.quantum

theorem quantum_pos (x : Double) : 0 < x.quantum := zpow_pos (by norm_num) _

theorem RoundsTo.lower_le (h : RoundsTo v x) : x.rounding.lower * x.quantum ≤ v := by
  unfold RoundsTo at h
  split at h
  · exact h.1
  · exact h.1.le

theorem RoundsTo.le_upper (h : RoundsTo v x) : v ≤ x.rounding.upper * x.quantum := by
  unfold RoundsTo at h
  split at h
  · exact h.2
  · exact h.2.le

/-- At an odd significand the upper end rounds to the next double. -/
theorem RoundsTo.lt_upper (h : RoundsTo v x) (hodd : x.significand % 2 = 1) :
    v < x.rounding.upper * x.quantum := by
  have hclosed : x.rounding.closed = false := by simp [rounding, hodd]
  unfold RoundsTo at h
  rw [hclosed] at h
  exact h.2

theorem RoundsTo.lower_lt (h : RoundsTo v x) (hodd : x.significand % 2 = 1) :
    x.rounding.lower * x.quantum < v := by
  have hclosed : x.rounding.closed = false := by simp [rounding, hodd]
  unfold RoundsTo at h
  rw [hclosed] at h
  exact h.1

theorem four_mul_sub_two_le_lower (x : Double) : 4 * x.significand - 2 ≤ x.rounding.lower := by
  simp only [rounding]
  split <;> omega

theorem RoundsTo.pos (h : RoundsTo v x) (hpos : 0 < x.significand) : 0 < v := by
  have hlower : 0 < x.rounding.lower := by
    have := x.four_mul_sub_two_le_lower
    omega
  refine lt_of_lt_of_le (mul_pos ?_ x.quantum_pos) h.lower_le
  exact_mod_cast hlower

/-- A rational that rounds to a double lies below all that round to a greater one. -/
theorem not_roundsTo_of_lt (hx : x.Normal) (hy : y.Normal)
    (hlt : x.exponent < y.exponent ∨ x.exponent = y.exponent ∧ x.significand < y.significand)
    (hvx : RoundsTo v x) (hvy : RoundsTo v y) : False := by
  have hpos := x.quantum_pos
  have hupper : x.rounding.upper = 4 * x.significand + 2 := rfl
  rcases hlt with hlt | ⟨heq, hlt⟩
  · -- the greater double has all its bits and counts in units at least twice as large
    have hquantum : 2 * x.quantum ≤ y.quantum := by
      have hle : (x.exponent : ℤ) - 1076 + 1 ≤ (y.exponent : ℤ) - 1076 := by omega
      calc 2 * x.quantum = 2 ^ ((x.exponent : ℤ) - 1076 + 1) := by
            rw [quantum, zpow_add₀ (by norm_num), zpow_one, mul_comm]
        _ ≤ y.quantum := zpow_le_zpow_right₀ (by norm_num) hle
    have hfull : 2 ^ 52 ≤ y.significand := hy.2.2.resolve_left (by omega)
    have hlower : 2 ^ 54 - 1 ≤ y.rounding.lower := by
      simp only [rounding]
      split
      · omega
      · rename_i hregular
        have : y.significand ≠ 2 ^ 52 := by
          intro heq
          simp only [heq, Nat.pow_eq, beq_self_eq_true, Bool.true_and, decide_eq_true_eq,
            Nat.not_lt] at hregular
          omega
        omega
    have hlowerQ : (2 : ℚ) ^ 54 - 1 ≤ y.rounding.lower := by
      have : ((2 ^ 54 - 1 : ℕ) : ℚ) ≤ y.rounding.lower := by exact_mod_cast hlower
      norm_num at this ⊢
      exact this
    have hbelow : ((2 : ℚ) ^ 54 - 1) * (2 * x.quantum) ≤ v := by
      refine le_trans (mul_le_mul hlowerQ hquantum (by positivity) (by positivity)) hvy.lower_le
    have hsmall : x.significand < 2 ^ 53 := hx.1
    rcases Nat.mod_two_eq_zero_or_one x.significand with heven | hodd
    · have hsize : 4 * x.significand + 2 ≤ 2 ^ 55 - 3 := by omega
      have hsizeQ : ((4 * x.significand + 2 : ℕ) : ℚ) ≤ 2 ^ 55 - 3 := by
        have : ((4 * x.significand + 2 : ℕ) : ℚ) ≤ ((2 ^ 55 - 3 : ℕ) : ℚ) := by exact_mod_cast hsize
        norm_num at this ⊢
        exact this
      have := hvx.le_upper
      rw [hupper] at this
      nlinarith
    · have hsize : 4 * x.significand + 2 ≤ 2 ^ 55 - 2 := by omega
      have hsizeQ : ((4 * x.significand + 2 : ℕ) : ℚ) ≤ 2 ^ 55 - 2 := by
        have : ((4 * x.significand + 2 : ℕ) : ℚ) ≤ ((2 ^ 55 - 2 : ℕ) : ℚ) := by exact_mod_cast hsize
        norm_num at this ⊢
        exact this
      have := hvx.lt_upper hodd
      rw [hupper] at this
      nlinarith
  · have hquantum : x.quantum = y.quantum := by rw [quantum, quantum, heq]
    have hlower : x.rounding.upper ≤ y.rounding.lower := by
      have := y.four_mul_sub_two_le_lower
      omega
    have hends : x.rounding.upper * x.quantum ≤ y.rounding.lower * y.quantum := by
      rw [← hquantum]
      exact mul_le_mul_of_nonneg_right (by exact_mod_cast hlower) hpos.le
    rcases Nat.mod_two_eq_zero_or_one x.significand with heven | hodd
    · rcases Nat.mod_two_eq_zero_or_one y.significand with heven' | hodd'
      · have hstrict : x.rounding.upper < y.rounding.lower := by
          have := y.four_mul_sub_two_le_lower
          omega
        have : (x.rounding.upper : ℚ) * x.quantum < y.rounding.lower * y.quantum := by
          rw [← hquantum]
          exact mul_lt_mul_of_pos_right (by exact_mod_cast hstrict) hpos
        exact absurd (this.trans_le (hvy.lower_le.trans hvx.le_upper)) (lt_irrefl _)
      · exact absurd (hends.trans_lt ((hvy.lower_lt hodd').trans_le hvx.le_upper)) (lt_irrefl _)
    · exact absurd (hends.trans_lt (hvy.lower_le.trans_lt (hvx.lt_upper hodd))) (lt_irrefl _)

/-- No rational rounds to two doubles. -/
theorem eq_of_roundsTo (hx : x.Normal) (hy : y.Normal) (hsign : x.negative = y.negative)
    (hvx : RoundsTo v x) (hvy : RoundsTo v y) : x = y := by
  obtain ⟨s, m, e⟩ := x
  obtain ⟨s', m', e'⟩ := y
  obtain rfl : s = s' := hsign
  rcases Nat.lt_trichotomy e e' with hlt | rfl | hlt
  · exact (not_roundsTo_of_lt hx hy (.inl hlt) hvx hvy).elim
  · rcases Nat.lt_trichotomy m m' with hlt | rfl | hlt
    · exact (not_roundsTo_of_lt hx hy (.inr ⟨rfl, hlt⟩) hvx hvy).elim
    · rfl
    · exact (not_roundsTo_of_lt hy hx (.inr ⟨rfl, hlt⟩) hvy hvx).elim
  · exact (not_roundsTo_of_lt hy hx (.inl hlt) hvy hvx).elim

/-! ## The digits -/

theorem binaryUnit_eq (x : Double) : (x.binaryUnit.1 : ℚ) / x.binaryUnit.2 = x.quantum := by
  unfold binaryUnit quantum
  split
  · rename_i h
    have he : ((x.exponent : ℤ) - 1076) = ((x.exponent - 1076 : ℕ) : ℤ) := by omega
    rw [he, zpow_natCast]
    simp only [Nat.pow_eq, Nat.cast_pow, Nat.cast_ofNat, Nat.cast_one, div_one]
  · rename_i h
    have he : ((x.exponent : ℤ) - 1076) = -((1076 - x.exponent : ℕ) : ℤ) := by omega
    rw [he, zpow_neg, zpow_natCast]
    simp only [Nat.pow_eq, Nat.cast_pow, Nat.cast_ofNat, Nat.cast_one, one_div]

theorem binaryUnit_pos (x : Double) : 0 < x.binaryUnit.1 ∧ 0 < x.binaryUnit.2 := by
  unfold binaryUnit
  split
  · exact ⟨Nat.pow_pos (by decide), Nat.one_pos⟩
  · exact ⟨Nat.one_pos, Nat.pow_pos (by decide)⟩

theorem decimalUnit_eq (n : ℤ) : ((decimalUnit n).1 : ℚ) / (decimalUnit n).2 = 10 ^ n := by
  unfold decimalUnit
  split
  · rename_i h
    obtain ⟨m, rfl⟩ := Int.eq_ofNat_of_zero_le h
    simp
  · rename_i h
    obtain ⟨m, hm⟩ := Int.eq_ofNat_of_zero_le (a := -n) (by omega)
    obtain rfl : n = -(m : ℤ) := by omega
    simp

theorem decimalUnit_pos (n : ℤ) : 0 < (decimalUnit n).1 ∧ 0 < (decimalUnit n).2 := by
  unfold decimalUnit
  split
  · exact ⟨Nat.pow_pos (by decide), Nat.one_pos⟩
  · exact ⟨Nat.one_pos, Nat.pow_pos (by decide)⟩

/-- Comparing an end of the interval with a multiple of a decimal unit. -/
theorem scaled_le_iff (x : Double) (n : ℤ) (l k : ℕ) :
    l * x.binaryUnit.1 * (decimalUnit n).2 ≤ k * (decimalUnit n).1 * x.binaryUnit.2 ↔
      (l : ℚ) * x.quantum ≤ k * 10 ^ n := by
  obtain ⟨-, hb⟩ := x.binaryUnit_pos
  obtain ⟨-, hq⟩ := decimalUnit_pos n
  rw [← binaryUnit_eq, ← decimalUnit_eq, ← mul_div_assoc, ← mul_div_assoc,
    div_le_div_iff₀ (by exact_mod_cast hb) (by exact_mod_cast hq)]
  exact_mod_cast Iff.rfl

theorem le_scaled_iff (x : Double) (n : ℤ) (l k : ℕ) :
    k * (decimalUnit n).1 * x.binaryUnit.2 ≤ l * x.binaryUnit.1 * (decimalUnit n).2 ↔
      (k : ℚ) * 10 ^ n ≤ l * x.quantum := by
  obtain ⟨-, hb⟩ := x.binaryUnit_pos
  obtain ⟨-, hq⟩ := decimalUnit_pos n
  rw [← binaryUnit_eq, ← decimalUnit_eq, ← mul_div_assoc, ← mul_div_assoc,
    div_le_div_iff₀ (by exact_mod_cast hq) (by exact_mod_cast hb)]
  exact_mod_cast Iff.rfl

/-- Whether a multiple of a decimal unit rounds to `x`, by natural numbers. -/
def Inside (x : Double) (n : ℤ) (k : ℕ) : Bool :=
  if x.rounding.closed then
    x.rounding.lower * x.binaryUnit.1 * (decimalUnit n).2 ≤
        k * (decimalUnit n).1 * x.binaryUnit.2 &&
      k * (decimalUnit n).1 * x.binaryUnit.2 ≤
        x.rounding.upper * x.binaryUnit.1 * (decimalUnit n).2
  else
    x.rounding.lower * x.binaryUnit.1 * (decimalUnit n).2 <
        k * (decimalUnit n).1 * x.binaryUnit.2 &&
      k * (decimalUnit n).1 * x.binaryUnit.2 <
        x.rounding.upper * x.binaryUnit.1 * (decimalUnit n).2

theorem roundsTo_of_inside {n : ℤ} {k : ℕ} (h : x.Inside n k = true) : RoundsTo (k * 10 ^ n) x := by
  unfold Inside at h
  unfold RoundsTo
  split at h
  · rename_i hclosed
    simp only [Bool.and_eq_true, decide_eq_true_eq] at h
    rw [if_pos hclosed]
    exact ⟨(scaled_le_iff x n _ k).1 h.1, (le_scaled_iff x n _ k).1 h.2⟩
  · rename_i hclosed
    simp only [Bool.and_eq_true, decide_eq_true_eq] at h
    rw [if_neg hclosed]
    exact ⟨not_le.1 fun hle => absurd ((le_scaled_iff x n _ k).2 hle) (not_le.2 h.1),
      not_le.1 fun hle => absurd ((scaled_le_iff x n _ k).2 hle) (not_le.2 h.2)⟩

/-- The multiple of a unit that is the greatest up to a double. -/
def floorOn (x : Double) (n : ℤ) : ℕ :=
  x.rounding.value * x.binaryUnit.1 * (decimalUnit n).2 / ((decimalUnit n).1 * x.binaryUnit.2)

theorem inside_of_onGrid {n : ℤ} {k : ℕ} (h : x.onGrid n = some k) : x.Inside n k = true := by
  unfold onGrid at h
  dsimp only at h
  split at h
  · rename_i hhere hnext
    split at h
    · exact Option.some.inj h ▸ hhere
    · exact Option.some.inj h ▸ hnext
  · rename_i hhere _
    exact Option.some.inj h ▸ hhere
  · rename_i _ hnext
    exact Option.some.inj h ▸ hnext
  · cases h

theorem exists_onGrid_of_inside {n : ℤ}
    (h : x.Inside n (x.floorOn n) = true ∨ x.Inside n (x.floorOn n + 1) = true) :
    ∃ k, x.onGrid n = some k := by
  unfold onGrid
  dsimp only
  split
  · split <;> exact ⟨_, rfl⟩
  · exact ⟨_, rfl⟩
  · exact ⟨_, rfl⟩
  · rename_i hhere hnext
    have hhere : x.Inside n (x.floorOn n) = false := hhere
    have hnext : x.Inside n (x.floorOn n + 1) = false := hnext
    rw [hhere, hnext] at h
    exact absurd h (by decide)

theorem inside_of_lt {n : ℤ} {k : ℕ} (hl : x.rounding.lower * x.quantum < k * 10 ^ n)
    (hu : k * 10 ^ n < x.rounding.upper * x.quantum) : x.Inside n k = true := by
  have hl' := not_le.1 fun hle => absurd ((le_scaled_iff x n _ k).1 hle) (not_le.2 hl)
  have hu' := not_le.1 fun hle => absurd ((scaled_le_iff x n _ k).1 hle) (not_le.2 hu)
  unfold Inside
  split
  · simp only [Bool.and_eq_true, decide_eq_true_eq]
    exact ⟨hl'.le, hu'.le⟩
  · simp only [Bool.and_eq_true, decide_eq_true_eq]
    exact ⟨hl', hu'⟩

/-- A double lies between two neighbours on a grid. -/
theorem floorOn_bounds (x : Double) (n : ℤ) :
    (x.floorOn n : ℚ) * 10 ^ n ≤ (4 * x.significand : ℕ) * x.quantum ∧
      (4 * x.significand : ℕ) * x.quantum < ((x.floorOn n + 1 : ℕ) : ℚ) * 10 ^ n := by
  obtain ⟨-, hb⟩ := x.binaryUnit_pos
  obtain ⟨hp, -⟩ := decimalUnit_pos n
  constructor
  · rw [← le_scaled_iff, mul_assoc]
    exact Nat.div_mul_le_self _ _
  · refine not_le.1 fun hle => ?_
    rw [← le_scaled_iff, mul_assoc] at hle
    exact absurd hle (not_le.2 (Nat.lt_mul_of_div_lt (Nat.lt_succ_self _) (Nat.mul_pos hp hb)))

/-- The number of digits of a scaled quotient bounds the quotient from below. -/
theorem pow_length_le {m b n L : ℕ} (hL : L = (Nat.toDigits 10 (Nat.pow 10 n * m / b)).length)
    (hb : 0 < b) (hn : b ≤ Nat.pow 10 n) (hm : 0 < m) :
    (10 : ℚ) ^ ((L : ℤ) - n - 1) ≤ (m : ℚ) / b := by
  obtain ⟨N, hN⟩ : ∃ N, N = Nat.pow 10 n * m / b := ⟨_, rfl⟩
  rw [← hN] at hL
  have hL1 : 1 ≤ L := hL ▸ Nat.length_toDigits_pos
  have hlength : 10 ^ (L - 1) ≤ N := by
    rcases Nat.lt_or_ge 1 L with hlt | hle
    · by_contra hlt'
      have := (Nat.length_toDigits_le_iff (b := 10) (by decide) (Nat.sub_pos_of_lt hlt)).2
        (not_le.1 hlt')
      omega
    · rw [Nat.sub_eq_zero_of_le hle, hN]
      exact (Nat.one_le_div_iff hb).2 (hn.trans (Nat.le_mul_of_pos_right _ hm))
  have hscaled : (10 : ℚ) ^ (L - 1) ≤ 10 ^ n * ((m : ℚ) / b) := by
    calc (10 : ℚ) ^ (L - 1) ≤ N := by exact_mod_cast hlength
      _ ≤ ((Nat.pow 10 n * m : ℕ) : ℚ) / b := by
          rw [hN]
          exact Nat.cast_div_le
      _ = 10 ^ n * ((m : ℚ) / b) := by
          rw [Nat.pow_eq]
          push_cast
          ring
  have hexp : (L : ℤ) - n - 1 = ((L - 1 : ℕ) : ℤ) - n := by omega
  rw [hexp, zpow_sub₀ (by norm_num), zpow_natCast, zpow_natCast, div_le_iff₀ (by positivity)]
  rwa [mul_comm]

theorem binaryUnit_le (x : Double) {n : ℕ} (hn : 1076 ≤ 3 * n) : x.binaryUnit.2 ≤ Nat.pow 10 n := by
  unfold binaryUnit
  split
  · exact Nat.pow_pos (by decide)
  · calc Nat.pow 2 (1076 - x.exponent) ≤ 2 ^ (3 * n) := Nat.pow_le_pow_right (by decide) (by omega)
      _ = (2 ^ 3) ^ n := pow_mul 2 3 n
      _ ≤ Nat.pow 10 n := Nat.pow_le_pow_left (by decide) n

/-- A positive double is at least the power of ten of its first digit. -/
theorem pow_pointPosition_le (hpos : 0 < x.significand) :
    (10 : ℚ) ^ (x.pointPosition - 1) ≤ (4 * x.significand : ℕ) * x.quantum := by
  obtain ⟨ha, hb⟩ := x.binaryUnit_pos
  have hfactor : 0 < 4 * x.significand * x.binaryUnit.1 := Nat.mul_pos (by omega) ha
  have h := pow_length_le (n := places) rfl hb (x.binaryUnit_le (by decide)) hfactor
  rw [Nat.cast_mul, mul_div_assoc, binaryUnit_eq] at h
  exact h

/-- Seventeen digits are enough. -/
theorem exists_onGrid (hx : x.Normal) (hpos : 0 < x.significand) :
    ∃ k, x.onGrid (x.pointPosition - 17) = some k := by
  obtain ⟨n, hn⟩ : ∃ n, n = x.pointPosition - 17 := ⟨_, rfl⟩
  rw [← hn]
  have hQ := x.quantum_pos
  obtain ⟨hfloor, hnext⟩ := x.floorOn_bounds n
  obtain ⟨z, hz⟩ : ∃ z, z = (x.significand : ℚ) * x.quantum := ⟨_, rfl⟩
  have hz4 : ((4 * x.significand : ℕ) : ℚ) * x.quantum = 4 * z := by
    rw [hz]
    push_cast
    ring
  have hunit : (10 : ℚ) ^ 16 * 10 ^ n ≤ 4 * z := by
    have := pow_pointPosition_le hpos
    rw [hz4] at this
    have hexp : x.pointPosition - 1 = ((16 : ℕ) : ℤ) + n := by rw [hn]; push_cast; ring
    rwa [hexp, zpow_add₀ (by norm_num), zpow_natCast] at this
  have hbits : z < 2 ^ 53 * x.quantum := by
    rw [hz]
    refine mul_lt_mul_of_pos_right ?_ hQ
    have : x.significand < 2 ^ 53 := hx.1
    exact_mod_cast this
  rw [hz4] at hfloor hnext
  have hupper : (x.rounding.upper : ℚ) * x.quantum = 4 * z + 2 * x.quantum := by
    rw [hz, show x.rounding.upper = 4 * x.significand + 2 from rfl]
    push_cast
    ring
  push_cast at hnext
  rw [add_mul, one_mul] at hnext
  refine exists_onGrid_of_inside ?_
  by_cases hedge : x.significand = Nat.pow 2 52 ∧ 0 < x.exponent
  · -- at a power of two the interval reaches half as far down
    have hlower : (x.rounding.lower : ℚ) * x.quantum = 4 * z - x.quantum := by
      have : x.rounding.lower = 4 * x.significand - 1 := by simp [rounding, hedge]
      rw [this, hz, Nat.cast_sub (by omega)]
      push_cast
      ring
    have hpow : z = 2 ^ 52 * x.quantum := by
      rw [hz, hedge.1]
      norm_num
    refine .inr (inside_of_lt ?_ ?_)
    · push_cast
      linarith
    · push_cast
      linarith
  · have hlower : (x.rounding.lower : ℚ) * x.quantum = 4 * z - 2 * x.quantum := by
      have : x.rounding.lower = 4 * x.significand - 2 := by
        simp only [rounding]
        rw [if_neg]
        simpa using hedge
      rw [this, hz, Nat.cast_sub (by omega)]
      push_cast
      ring
    by_cases hnear : 4 * z - x.floorOn n * 10 ^ n < 2 * x.quantum
    · refine .inl (inside_of_lt ?_ ?_) <;> linarith
    · refine .inr (inside_of_lt ?_ ?_)
      · push_cast
        linarith
      · push_cast
        linarith

theorem roundsTo_shortestFrom {point : ℤ} {digits more : ℕ}
    (h : ∃ k, x.onGrid (point - (digits + more : ℕ)) = some k) :
    RoundsTo ((x.shortestFrom point digits (more + 1)).1 *
      10 ^ (x.shortestFrom point digits (more + 1)).2) x := by
  induction more generalizing digits with
  | zero =>
      obtain ⟨k, hk⟩ := h
      rw [Nat.add_zero] at hk
      rw [shortestFrom, hk]
      exact roundsTo_of_inside (inside_of_onGrid hk)
  | succ more ih =>
      rw [shortestFrom]
      split
      · rename_i k hk
        exact roundsTo_of_inside (inside_of_onGrid hk)
      · exact ih (by rwa [Nat.add_right_comm, Nat.add_assoc])

/-- The value of digits of which the last stands for units of a power of ten. -/
def digitsValue (digits : List Char) (unit : ℤ) : ℚ := (Nat.ofDigitChars 10 digits 0 : ℚ) * 10 ^ unit

theorem ofDigitChars_append_eq (cs ds : List Char) : Nat.ofDigitChars 10 (cs ++ ds) 0 =
    10 ^ ds.length * Nat.ofDigitChars 10 cs 0 + Nat.ofDigitChars 10 ds 0 := by
  rw [Nat.ofDigitChars_append, Nat.ofDigitChars_eq_ofDigitChars_zero]

theorem digitsValue_append_zeros (digits : List Char) (n : ℕ) (unit : ℤ) :
    digitsValue (digits ++ List.replicate n '0') unit = digitsValue digits (unit + n) := by
  unfold digitsValue
  rw [ofDigitChars_append_eq, Nat.ofDigitChars_replicate_zero, List.length_replicate,
    zpow_add₀ (by norm_num), zpow_natCast]
  push_cast
  ring

/-- Trailing zeros do not count. -/
theorem digitsValue_stripZeros (digits : List Char) (unit : ℤ) :
    digitsValue (stripZeros digits unit).1 (stripZeros digits unit).2 = digitsValue digits unit := by
  obtain ⟨zeros, hzeros⟩ : ∃ zeros, zeros = digits.reverse.takeWhile (· == '0') := ⟨_, rfl⟩
  have hall : zeros = List.replicate zeros.length '0' := by
    refine List.eq_replicate_iff.2 ⟨rfl, fun c hc => ?_⟩
    have := List.all_eq_true.1 List.all_takeWhile c (hzeros ▸ hc)
    simpa using this
  have hdigits : digits =
      (digits.reverse.dropWhile (· == '0')).reverse ++ List.replicate zeros.length '0' := by
    have := congrArg List.reverse (List.takeWhile_append_dropWhile (p := (· == '0')) (l := digits.reverse))
    rw [List.reverse_append, List.reverse_reverse, ← hzeros, hall, List.reverse_replicate] at this
    exact this.symm
  calc digitsValue (stripZeros digits unit).1 (stripZeros digits unit).2
      = digitsValue (digits.reverse.dropWhile (· == '0')).reverse (unit + zeros.length) := by
        rw [hzeros]; rfl
    _ = digitsValue digits unit := by rw [← digitsValue_append_zeros, ← hdigits]

/-- The digits that are written for a double stand for a rational that rounds to it. -/
theorem roundsTo_shortest (hx : x.Normal) (hpos : 0 < x.significand) :
    RoundsTo (digitsValue x.shortest.1 (x.shortest.2 + 1 - x.shortest.1.length)) x := by
  have hround : RoundsTo ((x.shortestFrom x.pointPosition 1 17).1 *
      10 ^ (x.shortestFrom x.pointPosition 1 17).2) x :=
    roundsTo_shortestFrom (exists_onGrid hx hpos)
  rcases hks : x.shortestFrom x.pointPosition 1 17 with ⟨k, unit⟩
  rcases hds : stripZeros (Nat.toDigits 10 k) unit with ⟨digits, unit'⟩
  have hshortest : x.shortest = (digits, unit' + digits.length - 1) := by
    rw [shortest, hks]
    simp only [hds]
  have hvalue := digitsValue_stripZeros (Nat.toDigits 10 k) unit
  rw [hds] at hvalue
  rw [hshortest]
  have hexp : unit' + digits.length - 1 + 1 - digits.length = unit' := by ring
  simp only [hexp]
  rw [hvalue, digitsValue, Nat.ofDigitChars_ten_toDigits]
  rw [hks] at hround
  exact hround

end Double

end Typewright
