import Mathlib.Data.Int.Log
import Mathlib.Data.Rat.Floor
import Mathlib.Algebra.Order.Ring.Abs
import Mathlib.Algebra.Ring.Int.Parity
import Mathlib.Tactic.Linarith
import Mathlib.Tactic.Positivity

/-!
Rounding to numbers with `p` significant binary digits: to the nearest one, and halfway
between two to the one with an even significand. Exponents are not bounded, so no number is
too large or too small. Rounding keeps the order and is off by a `2 ^ p`-th part at most.
-/
namespace BinaryRounding

/-- The nearest integer, the even one halfway between two. -/
def roundEven (x : ℚ) : ℤ :=
  if Int.fract x < 1 / 2 then ⌊x⌋
  else if 1 / 2 < Int.fract x then ⌊x⌋ + 1
  else if Even ⌊x⌋ then ⌊x⌋
  else ⌊x⌋ + 1

theorem abs_roundEven_sub_le (x : ℚ) : |(roundEven x : ℚ) - x| ≤ 1 / 2 := by
  have hfract := Int.self_sub_floor x
  have hnonneg := Int.fract_nonneg x
  have hlt := Int.fract_lt_one x
  unfold roundEven
  split_ifs <;> push_cast <;> rw [abs_le] <;> constructor <;> linarith

theorem roundEven_intCast (n : ℤ) : roundEven n = n := by
  rw [roundEven, Int.fract_intCast, Int.floor_intCast, if_pos (by norm_num)]

theorem floor_le_roundEven (x : ℚ) : ⌊x⌋ ≤ roundEven x := by
  unfold roundEven
  split_ifs <;> omega

theorem roundEven_le_floor_add_one (x : ℚ) : roundEven x ≤ ⌊x⌋ + 1 := by
  unfold roundEven
  split_ifs <;> omega

theorem roundEven_le_roundEven {x y : ℚ} (h : x ≤ y) : roundEven x ≤ roundEven y := by
  rcases (Int.floor_le_floor h).lt_or_eq with hlt | heq
  · calc roundEven x ≤ ⌊x⌋ + 1 := roundEven_le_floor_add_one x
      _ ≤ ⌊y⌋ := hlt
      _ ≤ roundEven y := floor_le_roundEven y
  · have hfract : Int.fract x ≤ Int.fract y := by
      rw [Int.fract, Int.fract, heq]
      linarith
    unfold roundEven
    rw [heq]
    split_ifs <;> first | omega | linarith

variable {p : ℕ}

/-- The distance between neighbours with `p` digits around `x`. -/
def spacing (p : ℕ) (x : ℚ) : ℚ := 2 ^ (Int.log 2 |x| + 1 - p)

def nearest (p : ℕ) (x : ℚ) : ℚ := roundEven (x / spacing p x) * spacing p x

theorem spacing_pos (p : ℕ) (x : ℚ) : 0 < spacing p x := zpow_pos two_pos _

theorem spacing_mul_two_pow (p : ℕ) (x : ℚ) :
    spacing p x * 2 ^ p = 2 ^ (Int.log 2 |x| + 1) := by
  rw [spacing, ← zpow_natCast, ← zpow_add₀ two_ne_zero, sub_add_cancel]

theorem spacing_le {x : ℚ} (hx : x ≠ 0) : spacing p x * 2 ^ p ≤ 2 * |x| := by
  have hlog : (2 : ℚ) ^ Int.log 2 |x| ≤ |x| :=
    Int.zpow_log_le_self one_lt_two (abs_pos.mpr hx)
  rw [spacing_mul_two_pow, zpow_add_one₀ two_ne_zero]
  linarith

theorem abs_nearest_sub_le (x : ℚ) : |nearest p x - x| ≤ |x| / 2 ^ p := by
  by_cases hx : x = 0
  · subst hx
    simp [nearest, roundEven]
  · have hpos := spacing_pos p x
    have herror : nearest p x - x =
        ((roundEven (x / spacing p x) : ℚ) - x / spacing p x) * spacing p x := by
      rw [nearest, sub_mul, div_mul_cancel₀ x hpos.ne']
    rw [herror, abs_mul, abs_of_pos hpos, le_div_iff₀ (by positivity)]
    calc |(roundEven (x / spacing p x) : ℚ) - x / spacing p x| * spacing p x * 2 ^ p
        = |(roundEven (x / spacing p x) : ℚ) - x / spacing p x| * (spacing p x * 2 ^ p) :=
          mul_assoc _ _ _
      _ ≤ 1 / 2 * (2 * |x|) :=
          mul_le_mul (abs_roundEven_sub_le _) (spacing_le hx) (by positivity) (by norm_num)
      _ = |x| := by ring

theorem nearest_nonneg {x : ℚ} (hx : 0 ≤ x) : 0 ≤ nearest p x := by
  have hround : roundEven 0 ≤ roundEven (x / spacing p x) :=
    roundEven_le_roundEven (div_nonneg hx (spacing_pos p x).le)
  have hzero : roundEven 0 = 0 := by exact_mod_cast roundEven_intCast 0
  rw [hzero] at hround
  exact mul_nonneg (by exact_mod_cast hround) (spacing_pos p x).le

theorem nearest_le_zpow {x : ℚ} (hx : 0 ≤ x) : nearest p x ≤ 2 ^ (Int.log 2 x + 1) := by
  have hpos := spacing_pos p x
  have hlog : x ≤ spacing p x * 2 ^ p := by
    rw [spacing_mul_two_pow, abs_of_nonneg hx]
    exact (Int.lt_zpow_succ_log_self one_lt_two x).le
  have hround : roundEven (x / spacing p x) ≤ 2 ^ p := by
    have hle : x / spacing p x ≤ ((2 ^ p : ℤ) : ℚ) := by
      rw [div_le_iff₀ hpos]
      push_cast
      linarith
    simpa only [roundEven_intCast] using roundEven_le_roundEven hle
  have hcast : ((roundEven (x / spacing p x) : ℤ) : ℚ) ≤ 2 ^ p := by exact_mod_cast hround
  have hpow := spacing_mul_two_pow p x
  rw [abs_of_nonneg hx] at hpow
  rw [nearest, ← hpow, mul_comm (spacing p x)]
  exact mul_le_mul_of_nonneg_right hcast hpos.le

theorem zpow_le_nearest (hp : 0 < p) {x : ℚ} (hx : 0 < x) : 2 ^ Int.log 2 x ≤ nearest p x := by
  have hpos := spacing_pos p x
  have hsplit : (2 : ℚ) ^ Int.log 2 x = ((2 ^ (p - 1) : ℤ) : ℚ) * spacing p x := by
    have hpow := spacing_mul_two_pow p x
    have hdouble : (2 : ℚ) ^ p = 2 ^ (p - 1) * 2 := by
      rw [← pow_succ, Nat.sub_add_cancel hp]
    rw [abs_of_pos hx, zpow_add_one₀ two_ne_zero, hdouble] at hpow
    push_cast
    linarith
  have hround : 2 ^ (p - 1) ≤ roundEven (x / spacing p x) := by
    have hle : ((2 ^ (p - 1) : ℤ) : ℚ) ≤ x / spacing p x := by
      rw [le_div_iff₀ hpos, ← hsplit]
      exact Int.zpow_log_le_self one_lt_two hx
    simpa only [roundEven_intCast] using roundEven_le_roundEven hle
  rw [hsplit, nearest]
  exact mul_le_mul_of_nonneg_right (by exact_mod_cast hround) hpos.le

theorem nearest_le_nearest (hp : 0 < p) {x y : ℚ} (hx : 0 ≤ x) (h : x ≤ y) :
    nearest p x ≤ nearest p y := by
  rcases hx.eq_or_lt with hzero | hpos
  · subst hzero
    have hzero : nearest p 0 = 0 := by simp [nearest, roundEven]
    rw [hzero]
    exact nearest_nonneg h
  · have hlog : Int.log 2 x ≤ Int.log 2 y := Int.log_mono_right hpos h
    rcases hlog.lt_or_eq with hlt | heq
    · calc nearest p x ≤ 2 ^ (Int.log 2 x + 1) := nearest_le_zpow hx
        _ ≤ 2 ^ Int.log 2 y := zpow_le_zpow_right₀ one_le_two hlt
        _ ≤ nearest p y := zpow_le_nearest hp (hpos.trans_le h)
    · have hspacing : spacing p x = spacing p y := by
        rw [spacing, spacing, abs_of_pos hpos, abs_of_pos (hpos.trans_le h), heq]
      have hspos := spacing_pos p y
      rw [nearest, nearest, hspacing]
      refine mul_le_mul_of_nonneg_right ?_ hspos.le
      exact_mod_cast roundEven_le_roundEven (div_le_div_of_nonneg_right h hspos.le)

end BinaryRounding
