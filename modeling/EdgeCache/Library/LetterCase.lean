import Mathlib.Data.List.DropRight
import Mathlib.Data.Nat.Notation

/-!
Text in either case of the 26 letters of ASCII. A function on characters that ignores the
case cuts a text at the same places whichever case it is in.
-/
namespace LetterCase

/-- Only the 26 capital letters change. -/
theorem toLower_cases (c : Char) : c.toLower = c ∨ ∃ n < 26, c = Char.ofNat (n + 65) := by
  unfold Char.toLower
  split
  · next h =>
    obtain ⟨hlow, hhigh⟩ := h
    have hlow' : 65 ≤ c.toNat := hlow
    have hhigh' : c.toNat ≤ 90 := hhigh
    refine Or.inr ⟨c.toNat - 65, by omega, ?_⟩
    rw [Nat.sub_add_cancel hlow', Char.ofNat_toNat]
  · exact Or.inl rfl

theorem toUpper_cases (c : Char) : c.toUpper = c ∨ ∃ n < 26, c.toUpper = Char.ofNat (n + 65) := by
  by_cases h : c.val ≥ 'a'.val ∧ c.val ≤ 'z'.val
  · obtain ⟨hlow, hhigh⟩ := h
    have hlow' : 97 ≤ c.toNat := hlow
    have hhigh' : c.toNat ≤ 122 := hhigh
    have hletter : ∀ n < 26, (Char.ofNat (n + 97)).toUpper = Char.ofNat (n + 65) := by decide
    refine Or.inr ⟨c.toNat - 97, by omega, ?_⟩
    rw [← hletter (c.toNat - 97) (by omega), Nat.sub_add_cancel hlow', Char.ofNat_toNat]
  · exact Or.inl (dif_neg h)

/-- It does not tell a capital letter from its small one. -/
def IgnoresCase {α : Type} (p : Char → α) : Prop :=
  ∀ n < 26, p (Char.ofNat (n + 65)).toLower = p (Char.ofNat (n + 65))

instance {α : Type} [DecidableEq α] (p : Char → α) : Decidable (IgnoresCase p) :=
  inferInstanceAs (Decidable (∀ n < 26, _))

namespace IgnoresCase

theorem comp {α : Type} {p : Char → α} (h : IgnoresCase p) : p ∘ Char.toLower = p := by
  funext c
  rcases toLower_cases c with hsame | ⟨n, hn, rfl⟩
  · exact congrArg p hsame
  · exact h n hn

section Lower

variable {p : Char → Bool}

theorem takeWhile_toLower (hp : IgnoresCase p) (l : List Char) :
    (l.map Char.toLower).takeWhile p = (l.takeWhile p).map Char.toLower := by
  rw [List.takeWhile_map, hp.comp]

theorem dropWhile_toLower (hp : IgnoresCase p) (l : List Char) :
    (l.map Char.toLower).dropWhile p = (l.dropWhile p).map Char.toLower := by
  rw [List.dropWhile_map, hp.comp]

theorem rdropWhile_toLower (hp : IgnoresCase p) (l : List Char) :
    (l.map Char.toLower).rdropWhile p = (l.rdropWhile p).map Char.toLower := by
  rw [List.rdropWhile, ← List.map_reverse, dropWhile_toLower hp, ← List.map_reverse]
  rfl

theorem rtakeWhile_toLower (hp : IgnoresCase p) (l : List Char) :
    (l.map Char.toLower).rtakeWhile p = (l.rtakeWhile p).map Char.toLower := by
  rw [List.rtakeWhile, ← List.map_reverse, takeWhile_toLower hp, ← List.map_reverse]
  rfl

theorem filter_toLower (hp : IgnoresCase p) (l : List Char) :
    (l.map Char.toLower).filter p = (l.filter p).map Char.toLower := by
  rw [List.filter_map, hp.comp]

theorem all_toLower (hp : IgnoresCase p) (l : List Char) :
    (l.map Char.toLower).all p = l.all p := by
  rw [List.all_map, hp.comp]

theorem any_toLower (hp : IgnoresCase p) (l : List Char) :
    (l.map Char.toLower).any p = l.any p := by
  rw [List.any_map, hp.comp]

end Lower

theorem map_toLower_toLower (l : List Char) :
    (l.map Char.toLower).map Char.toLower = l.map Char.toLower := by
  have hidem : IgnoresCase Char.toLower := by decide
  rw [List.map_map, hidem.comp]

end IgnoresCase

end LetterCase
