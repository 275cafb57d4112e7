import EdgeCache.Library.BinaryRounding
import Mathlib.Data.Int.ConditionallyCompleteOrder
import Mathlib.Data.Rat.Floor
import Mathlib.Tactic.NormNum

/-!
JavaScript numbers and dates as the cache computes with them. Numbers are exact: the
rounding of fractions is not modelled but in the rates that are reported, and no integer
that ends up in a valid date is large enough to be rounded. A `Date` holds a time value in
milliseconds or is invalid, and comparing with an invalid date is false. A reading of the
clock is a valid date after the epoch.
-/
namespace EdgeCache

inductive JsNumber where
  | nan
  | infinity
  | negInfinity
  | finite (q : ℚ)
  deriving DecidableEq

/-- The number next to a fraction that is far from the greatest and the least of them: it has 53
significant bits. -/
def double (x : ℚ) : ℚ := BinaryRounding.nearest 53 x

/-- The largest time value of a valid `Date`. -/
def maxTime : ℤ := 8640000000000000

/-- What `new Date()` and `Date.now()` read. -/
abbrev Time := {t : ℤ // 0 < t ∧ t ≤ maxTime}

/-- The readings of the clock one call makes, in order. -/
abbrev Clock := ℕ → Time

/-- The time value of a `Date`; `none` is an invalid one. -/
abbrev Date := Option ℤ

namespace JsNumber

def ofNat (n : ℕ) : JsNumber := .finite n

theorem ofNat_inj {m n : ℕ} (h : ofNat m = ofNat n) : m = n := Nat.cast_injective (finite.inj h)

/-- `new Date(x)`: out of range is invalid, a fraction is cut towards zero. -/
def toDate : JsNumber → Date
  | .finite q => if |q| ≤ maxTime then some (if 0 ≤ q then ⌊q⌋ else ⌈q⌉) else none
  | _ => none

/-- `now.getTime() + ttl * 1000` -/
def after (now : Time) : JsNumber → JsNumber
  | .finite q => .finite ((now.val : ℚ) + q * 1000)
  | x => x

theorem toDate_after_ofNat (now : Time) (n : ℕ) :
    (after now (ofNat n)).toDate =
      if now.val + n * 1000 ≤ maxTime then some (now.val + n * 1000) else none := by
  have hcast : ((now.val : ℚ) + (n : ℚ) * 1000) = ((now.val + n * 1000 : ℤ) : ℚ) := by
    push_cast
    rfl
  have hpos : 0 ≤ now.val + (n : ℤ) * 1000 := by
    have hnow := now.property.1
    omega
  simp only [after, ofNat, toDate, hcast]
  have habs : |((now.val + n * 1000 : ℤ) : ℚ)| = ((now.val + n * 1000 : ℤ) : ℚ) :=
    abs_of_nonneg (by exact_mod_cast hpos)
  rw [habs]
  have hnonneg : (0 : ℚ) ≤ ((now.val + n * 1000 : ℤ) : ℚ) := by exact_mod_cast hpos
  simp only [Int.cast_le, hnonneg, ↓reduceIte, Int.floor_intCast]

end JsNumber

/-- `now > date`, which is false of an invalid date. -/
def Date.isBefore (date : Date) (now : Time) : Bool :=
  match date with
  | some t => t < now.val
  | none => false

/-- `Math.max(0, Math.floor((date.getTime() - now) / 1000))` -/
def Date.secondsFrom (date : Date) (now : Time) : JsNumber :=
  match date with
  | some t => .ofNat ((t - now.val) / 1000).toNat
  | none => .nan

/-- What `JSON.stringify` writes for a date: an ISO string, or null when invalid. -/
abbrev DateJson := Option ℤ

def Date.toJson (date : Date) : DateJson := date

/-- `new Date(json)`: null reads as the epoch. -/
def Date.ofJson (json : DateJson) : Date := some (json.getD 0)

end EdgeCache
