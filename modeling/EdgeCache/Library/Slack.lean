import Mathlib.Data.List.Basic
import Mathlib.Data.List.Count

/-!
A list and one that has it as a sublist, and few elements besides. Filtering both, putting an
element in front of both and dropping the last of both keep them so; the shorter one may even
drop its last element alone while there is room. These are the lists of two caches of
different sizes that take the same calls and both give up what is used least recently.
-/
namespace Slack

variable {α : Type*} {slack : ℕ} {short long : List α}

/-- The elements of the longer list that the shorter one lacks are at most `slack`. -/
structure Lags (slack : ℕ) (short long : List α) : Prop where
  sublist : short.Sublist long
  length_le : long.length ≤ short.length + slack

theorem Lags.nil (slack : ℕ) : Lags slack ([] : List α) [] := ⟨List.Sublist.refl [], Nat.zero_le _⟩

theorem dropLast_sublist_dropLast (h : short.Sublist long) :
    short.dropLast.Sublist long.dropLast := by
  rcases List.eq_nil_or_concat' long with rfl | ⟨before, last, rfl⟩
  · rw [List.sublist_nil.mp h]
  · rw [List.dropLast_concat]
    obtain ⟨kept, rest, rfl, hkept, hrest⟩ := List.sublist_append_iff.mp h
    rcases List.sublist_cons_iff.mp hrest with hnil | ⟨tail, rfl, htail⟩
    · rw [List.sublist_nil.mp hnil, List.append_nil]
      exact (List.dropLast_sublist kept).trans hkept
    · rw [List.sublist_nil.mp htail, List.dropLast_concat]
      exact hkept

namespace Lags

variable (h : Lags slack short long)
include h

theorem filter (p : α → Bool) : Lags slack (short.filter p) (long.filter p) where
  sublist := h.sublist.filter p
  length_le := by
    have hrest : (short.filter fun a => !p a).length ≤ (long.filter fun a => !p a).length :=
      (h.sublist.filter _).length_le
    have hshort := List.length_eq_length_filter_add (l := short) p
    have hlong := List.length_eq_length_filter_add (l := long) p
    have hle := h.length_le
    omega

theorem cons (a : α) : Lags slack (a :: short) (a :: long) where
  sublist := h.sublist.cons_cons a
  length_le := by
    have hle := h.length_le
    rw [List.length_cons, List.length_cons]
    omega

theorem dropLast : Lags slack short.dropLast long.dropLast where
  sublist := dropLast_sublist_dropLast h.sublist
  length_le := by
    have hle := h.length_le
    rw [List.length_dropLast, List.length_dropLast]
    omega

theorem dropLast_left (hroom : long.length < short.length + slack) :
    Lags slack short.dropLast long where
  sublist := (List.dropLast_sublist short).trans h.sublist
  length_le := by
    rw [List.length_dropLast]
    omega

end Lags

end Slack
