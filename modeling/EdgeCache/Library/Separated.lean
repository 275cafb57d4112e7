import Mathlib.Data.List.Infix

/-!
Lists cut into parts at a separator. One list ends with another at a boundary of its parts
exactly when its parts end with the parts of the other.
-/
namespace Separated

variable {α : Type*} {sep : α}

theorem intercalate_append {init last : List (List α)} (hinit : init ≠ []) (hlast : last ≠ []) :
    [sep].intercalate (init ++ last) =
      [sep].intercalate init ++ sep :: [sep].intercalate last := by
  induction init with
  | nil => exact absurd rfl hinit
  | cons part rest ih =>
    obtain ⟨first, more, rfl⟩ := List.exists_cons_of_ne_nil hlast
    cases rest with
    | nil => simp [List.intercalate]
    | cons next rest =>
      have htail := ih (List.cons_ne_nil next rest)
      simp only [List.intercalate, List.cons_append, List.intersperse_cons_cons,
        List.flatten_cons] at htail ⊢
      rw [htail]
      simp only [List.append_assoc, List.cons_append, List.nil_append]

variable [BEq α] [LawfulBEq α]

theorem splitOn_injective (sep : α) : Function.Injective fun l : List α => l.splitOn sep := by
  intro l l' h
  calc l = [sep].intercalate (l.splitOn sep) := (List.intercalate_splitOn sep).symm
    _ = [sep].intercalate (l'.splitOn sep) := congrArg _ h
    _ = l' := List.intercalate_splitOn sep

/-- The parts of a list end with those of another exactly when the list is the other one, or
ends with it after a separator. -/
theorem splitOn_suffix_iff {l ending : List α} :
    ending.splitOn sep <:+ l.splitOn sep ↔ l = ending ∨ sep :: ending <:+ l := by
  constructor
  · rintro ⟨init, hinit⟩
    by_cases hnil : init = []
    · rw [hnil, List.nil_append] at hinit
      exact Or.inl (splitOn_injective sep hinit.symm)
    · right
      refine ⟨[sep].intercalate init, ?_⟩
      calc [sep].intercalate init ++ sep :: ending
          = [sep].intercalate init ++ sep :: [sep].intercalate (ending.splitOn sep) := by
            rw [List.intercalate_splitOn]
        _ = [sep].intercalate (init ++ ending.splitOn sep) :=
            (intercalate_append hnil (List.splitOn_ne_nil sep ending)).symm
        _ = [sep].intercalate (l.splitOn sep) := by rw [hinit]
        _ = l := List.intercalate_splitOn sep
  · rintro (rfl | ⟨init, rfl⟩)
    · exact List.suffix_rfl
    · rw [List.splitOn_append_cons_self]
      exact List.suffix_append _ _

/-- A list has no part but empty ones exactly when it is made of separators. -/
theorem splitOn_all_nil_iff {l : List α} :
    (∀ part ∈ l.splitOn sep, part = []) ↔ ∀ a ∈ l, a = sep := by
  induction l with
  | nil => simp [List.splitOn_nil]
  | cons a rest ih =>
    rw [List.splitOn_cons_eq_if_modifyHead]
    by_cases ha : a = sep
    · simp [ha, ih]
    · obtain ⟨first, more, hparts⟩ := List.exists_cons_of_ne_nil (List.splitOn_ne_nil sep rest)
      simp [ha, hparts]

end Separated
