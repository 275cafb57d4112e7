import EdgeCache.Time
import Mathlib.Algebra.Order.Round
import Mathlib.Tactic.GCongr
import Mathlib.Tactic.FieldSimp
import Mathlib.Tactic.Ring

/-!
Hit rates. A share is divided, scaled and rounded to two decimals in doubles, each operation
rounding its result. What comes out is a percentage next to the share: one of the two where it
lies halfway between them.
-/
namespace EdgeCache

/-- `Math.round(x) / 100` -/
def inHundredths (x : ℚ) : ℚ := double (round x / 100)

theorem round_le_round {x y : ℚ} (h : x ≤ y) : round x ≤ round y := by
  rw [round_eq, round_eq]
  gcongr

theorem double_le_double {x y : ℚ} (hx : 0 ≤ x) (h : x ≤ y) : double x ≤ double y :=
  BinaryRounding.nearest_le_nearest (by decide) hx h

theorem double_nonneg {x : ℚ} (hx : 0 ≤ x) : 0 ≤ double x := BinaryRounding.nearest_nonneg hx

theorem abs_double_sub_le {x bound : ℚ} (hx : 0 ≤ x) (hbound : x ≤ bound) :
    |double x - x| ≤ bound / 2 ^ 53 := by
  calc |double x - x| ≤ |x| / 2 ^ 53 := BinaryRounding.abs_nearest_sub_le x
    _ ≤ bound / 2 ^ 53 := by
      rw [abs_of_nonneg hx]
      gcongr

theorem double_hundredths_lt {m n : ℤ} (hm : 0 ≤ m) (h : m < n) (hn : n ≤ 10000) :
    double (m / 100) < double (n / 100) := by
  have hm' : (0 : ℚ) ≤ m := by exact_mod_cast hm
  have h' : (m : ℚ) + 1 ≤ n := by exact_mod_cast h
  have hn' : (n : ℚ) ≤ 10000 := by exact_mod_cast hn
  have hleft : |double ((m : ℚ) / 100) - m / 100| ≤ 100 / 2 ^ 53 :=
    abs_double_sub_le (by linarith) (by linarith)
  have hright : |double ((n : ℚ) / 100) - n / 100| ≤ 100 / 2 ^ 53 :=
    abs_double_sub_le (by linarith) (by linarith)
  rw [abs_le] at hleft hright
  norm_num at hleft hright ⊢
  linarith [hleft.2, hright.1]

/-- A greater number is rounded to the same hundredths exactly when it stays below the middle
between these and the next. -/
theorem inHundredths_eq_iff {x y : ℚ} (hx : 0 ≤ x) (h : x ≤ y) (hy : y ≤ 10000) :
    inHundredths x = inHundredths y ↔ y < round x + 1 / 2 := by
  have hle : round x ≤ round y := round_le_round h
  have hlow : 0 ≤ round x := by simpa only [round_zero] using round_le_round hx
  have hhigh : round y ≤ 10000 := by
    simpa only [round_ofNat] using round_le_round hy
  constructor
  · intro heq
    have hsame : round y = round x := by
      by_contra hne
      have hlt : round x < round y := lt_of_le_of_ne hle (Ne.symm hne)
      exact (double_hundredths_lt hlow hlt hhigh).ne heq
    have hnext : y < round y + 1 / 2 := by
      rw [round_eq]
      linarith [Int.lt_floor_add_one (y + 1 / 2)]
    rwa [hsame] at hnext
  · intro hlt
    have hnext : round y < round x + 1 := by
      rw [round_eq, Int.floor_lt]
      push_cast
      linarith
    have hsame : round x = round y := by omega
    rw [inHundredths, inHundredths, hsame]

/-! ### Percentages -/

/-- What the operations on doubles can add to half a hundredth. -/
def roundoff (whole : ℕ) : ℚ := if whole < 2 ^ 36 then 0 else 1 / 2 ^ 37

/-- The rate is that of the part in percent, rounded to two decimals. -/
def IsPercentage (rate : ℚ) (part whole : ℕ) : Prop :=
  if whole = 0 then rate = 0
  else ∃ n : ℤ, rate = double (n / 100) ∧ |n - (part : ℚ) / whole * 10000| ≤ 1 / 2 + roundoff whole

/-- Twice the distance is a multiple of one part in `whole`, so of a small whole nothing is
added. -/
theorem abs_sub_le_roundoff {n : ℤ} {part whole : ℕ} (hwhole : 0 < whole)
    (h : |n - (part : ℚ) / whole * 10000| ≤ 1 / 2 + 1 / 2 ^ 37) :
    |n - (part : ℚ) / whole * 10000| ≤ 1 / 2 + roundoff whole := by
  unfold roundoff
  split_ifs with hsmall
  · have hpos : (0 : ℚ) < whole := by exact_mod_cast hwhole
    have hsmall' : (whole : ℚ) < 2 ^ 36 := by exact_mod_cast hsmall
    have hscaled : |n - (part : ℚ) / whole * 10000| * whole = |(n : ℚ) * whole - part * 10000| := by
      rw [← abs_of_pos hpos, ← abs_mul, abs_of_pos hpos]
      congr 1
      field_simp
    have hcross : 2 * |(n : ℚ) * whole - part * 10000| < whole + 1 := by
      rw [← hscaled]
      calc 2 * (|n - (part : ℚ) / whole * 10000| * whole)
          ≤ 2 * ((1 / 2 + 1 / 2 ^ 37) * whole) := by gcongr
        _ = whole + whole / 2 ^ 36 := by ring
        _ < whole + 1 := by
          rw [add_lt_add_iff_left, div_lt_one (by norm_num)]
          exact hsmall'
    have hint : 2 * |n * whole - part * 10000| ≤ (whole : ℤ) := by
      have hlt : 2 * |n * whole - part * 10000| < (whole : ℤ) + 1 := by exact_mod_cast hcross
      omega
    have hle : 2 * |(n : ℚ) * whole - part * 10000| ≤ whole := by exact_mod_cast hint
    rw [← hscaled] at hle
    have hhalf : |n - (part : ℚ) / whole * 10000| * whole ≤ 1 / 2 * whole := by linarith
    linarith [le_of_mul_le_mul_right hhalf hpos]
  · exact h

/-- A share scaled in doubles is rounded to its percentage. -/
theorem isPercentage_inHundredths {part whole : ℕ} (hwhole : whole ≠ 0) {x : ℚ}
    (hx : |x - (part : ℚ) / whole * 10000| ≤ 1 / 2 ^ 37) :
    IsPercentage (inHundredths x) part whole := by
  rw [IsPercentage, if_neg hwhole]
  refine ⟨round x, rfl, abs_sub_le_roundoff (Nat.pos_of_ne_zero hwhole) ?_⟩
  calc |(round x : ℚ) - (part : ℚ) / whole * 10000|
      ≤ |(round x : ℚ) - x| + |x - (part : ℚ) / whole * 10000| := abs_sub_le _ _ _
    _ ≤ 1 / 2 + 1 / 2 ^ 37 := by
      gcongr
      rw [abs_sub_comm]
      exact abs_sub_round x

/-- `x` is next to a share, and both are at most `bound`. -/
structure Near (x share bound error : ℚ) : Prop where
  nonneg : 0 ≤ x
  le : x ≤ bound
  close : |x - share| ≤ error

/-- A share is at most 1, and so is its quotient. -/
theorem near_div {part whole : ℕ} (h : part ≤ whole) :
    Near (double (part / whole)) (part / whole) 1 (1 / 2 ^ 53) := by
  have hnonneg : (0 : ℚ) ≤ part / whole := by positivity
  have hone : (part : ℚ) / whole ≤ 1 := by
    apply div_le_one_of_le₀
    · exact_mod_cast h
    · positivity
  refine ⟨double_nonneg hnonneg, ?_, abs_double_sub_le hnonneg hone⟩
  calc double ((part : ℚ) / whole) ≤ double 1 := double_le_double hnonneg hone
    _ = 1 := by decide +kernel

theorem Near.scale {x share bound error : ℚ} (h : Near x share bound error) (scale : ℚ)
    (hscale : 0 ≤ scale) (hexact : double (bound * scale) = bound * scale) :
    Near (double (x * scale)) (share * scale) (bound * scale)
      (error * scale + bound * scale / 2 ^ 53) := by
  have hle : x * scale ≤ bound * scale := mul_le_mul_of_nonneg_right h.le hscale
  have hnonneg : 0 ≤ x * scale := mul_nonneg h.nonneg hscale
  refine ⟨double_nonneg hnonneg, hexact ▸ double_le_double hnonneg hle, ?_⟩
  have hround : |double (x * scale) - x * scale| ≤ bound * scale / 2 ^ 53 :=
    abs_double_sub_le hnonneg hle
  have hscaled : |x * scale - share * scale| ≤ error * scale := by
    rw [← sub_mul, abs_mul, abs_of_nonneg hscale]
    exact mul_le_mul_of_nonneg_right h.close hscale
  calc |double (x * scale) - share * scale|
      ≤ |double (x * scale) - x * scale| + |x * scale - share * scale| := abs_sub_le _ _ _
    _ ≤ error * scale + bound * scale / 2 ^ 53 := by linarith

end EdgeCache
