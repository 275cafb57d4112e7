import Mathlib.Data.List.Basic

/-!
Patterns with wildcards: letters, a wildcard for one letter and one for any number of them.
A word can match a pattern as a whole, or some part of it can; a matcher decides either, given
what it has to accept after the pattern. `dot` are the letters that wildcards stand for.
-/
namespace Wildcards

variable {α : Type}

inductive Term (α : Type) where
  | one (a : α)
  | any
  | star
  deriving DecidableEq

def Term.Accepts (dot : α → Bool) : Term α → List α → Prop
  | one a, part => part = [a]
  | any, part => ∃ a, dot a = true ∧ part = [a]
  | star, part => ∀ a ∈ part, dot a = true

/-- The word is put together of parts that the terms stand for, one after the other. -/
def Matches (dot : α → Bool) : List (Term α) → List α → Prop
  | [], word => word = []
  | t :: ts, word => ∃ part rest, word = part ++ rest ∧ t.Accepts dot part ∧ Matches dot ts rest

/-- Some part of the word matches. -/
def Occurs (dot : α → Bool) (ts : List (Term α)) (word : List α) : Prop :=
  ∃ before part after, word = before ++ (part ++ after) ∧ Matches dot ts part

theorem Matches.occurs {dot : α → Bool} {ts : List (Term α)} {word : List α}
    (h : Matches dot ts word) : Occurs dot ts word := ⟨[], word, [], by simp, h⟩

/-! ### Comparing patterns -/

theorem matches_congr {dot dot' : α → Bool} {ts : List (Term α)} {word : List α}
    (h : ∀ a ∈ word, dot a = dot' a) (hmatches : Matches dot ts word) : Matches dot' ts word := by
  induction ts generalizing word with
  | nil => exact hmatches
  | cons t ts ih =>
    obtain ⟨part, rest, rfl, haccepts, hrest⟩ := hmatches
    have hpart : ∀ a ∈ part, dot a = dot' a := fun a ha => h a (List.mem_append_left rest ha)
    refine ⟨part, rest, rfl, ?_, ih (fun a ha => h a (List.mem_append_right part ha)) hrest⟩
    cases t with
    | one a => exact haccepts
    | any =>
      obtain ⟨a, ha, rfl⟩ := haccepts
      exact ⟨a, hpart a (List.mem_singleton_self a) ▸ ha, rfl⟩
    | star => exact fun a ha => hpart a ha ▸ haccepts a ha

theorem occurs_congr {dot dot' : α → Bool} {ts : List (Term α)} {word : List α}
    (h : ∀ a ∈ word, dot a = dot' a) (hoccurs : Occurs dot ts word) : Occurs dot' ts word := by
  obtain ⟨before, part, after, rfl, hpart⟩ := hoccurs
  refine ⟨before, part, after, rfl, matches_congr (fun a ha => h a ?_) hpart⟩
  exact List.mem_append_right before (List.mem_append_left after ha)

/-- Terms that stand for more match more. -/
theorem Matches.map {dot : α → Bool} {f : Term α → Term α}
    (hf : ∀ t part, t.Accepts dot part → (f t).Accepts dot part) {ts : List (Term α)}
    {word : List α} (h : Matches dot ts word) : Matches dot (ts.map f) word := by
  induction ts generalizing word with
  | nil => exact h
  | cons t ts ih =>
    obtain ⟨part, rest, rfl, haccepts, hrest⟩ := h
    exact ⟨part, rest, rfl, hf t part haccepts, ih hrest⟩

/-! ### Matchers -/

/-- Pass over letters that wildcards stand for until the rest is accepted. -/
def skip (dot : α → Bool) (accept : List α → Bool) : List α → Bool
  | [] => accept []
  | a :: word => accept (a :: word) || (dot a && skip dot accept word)

/-- Match terms one after the other, and then the rest of the word. -/
def run [DecidableEq α] (dot : α → Bool) (accept : List α → Bool) :
    List (Term α) → List α → Bool
  | [], word => accept word
  | .one _ :: _, [] => false
  | .one a :: ts, b :: word => decide (b = a) && run dot accept ts word
  | .any :: _, [] => false
  | .any :: ts, a :: word => dot a && run dot accept ts word
  | .star :: ts, word => skip dot (run dot accept ts) word

/-- Does the whole word match? -/
def check [DecidableEq α] (dot : α → Bool) (ts : List (Term α)) (word : List α) : Bool :=
  run dot List.isEmpty ts word

/-- Does some part of the word match? -/
def search [DecidableEq α] (dot : α → Bool) (ts : List (Term α)) (word : List α) : Bool :=
  skip (fun _ => true) (run dot (fun _ => true) ts) word

theorem skip_iff (dot : α → Bool) (accept : List α → Bool) (word : List α) :
    skip dot accept word = true ↔ ∃ part rest, word = part ++ rest ∧
      (∀ a ∈ part, dot a = true) ∧ accept rest = true := by
  induction word with
  | nil =>
    constructor
    · exact fun h => ⟨[], [], rfl, by simp, h⟩
    · intro h
      obtain ⟨part, rest, hword, -, hrest⟩ := h
      obtain ⟨-, rfl⟩ := List.append_eq_nil_iff.mp hword.symm
      exact hrest
  | cons a word ih =>
    rw [skip, Bool.or_eq_true, Bool.and_eq_true, ih]
    constructor
    · intro h
      rcases h with haccept | ⟨ha, part, rest, rfl, hpart, hrest⟩
      · exact ⟨[], a :: word, rfl, by simp, haccept⟩
      · exact ⟨a :: part, rest, rfl, List.forall_mem_cons.mpr ⟨ha, hpart⟩, hrest⟩
    · intro h
      obtain ⟨part, rest, hword, hpart, hrest⟩ := h
      cases part with
      | nil => exact Or.inl (hword ▸ hrest)
      | cons b part =>
        obtain ⟨rfl, rfl⟩ := List.cons.inj hword
        obtain ⟨ha, hpart⟩ := List.forall_mem_cons.mp hpart
        exact Or.inr ⟨ha, part, rest, rfl, hpart, hrest⟩

/-- A matcher decides whether the word begins with a match before what is accepted. -/
theorem run_iff [DecidableEq α] (dot : α → Bool) (accept : List α → Bool) (ts : List (Term α))
    (word : List α) : run dot accept ts word = true ↔
      ∃ part rest, word = part ++ rest ∧ Matches dot ts part ∧ accept rest = true := by
  have hcons : ∀ (t : Term α) (ts : List (Term α)) (word : List α),
      (∃ part rest, word = part ++ rest ∧ Matches dot (t :: ts) part ∧ accept rest = true) ↔
        ∃ first word', word = first ++ word' ∧ t.Accepts dot first ∧
          ∃ part rest, word' = part ++ rest ∧ Matches dot ts part ∧ accept rest = true := by
    intro t ts word
    constructor
    · intro h
      obtain ⟨part, rest, rfl, ⟨first, part', rfl, hfirst, hpart'⟩, hrest⟩ := h
      exact ⟨first, part' ++ rest, by simp, hfirst, part', rest, rfl, hpart', hrest⟩
    · intro h
      obtain ⟨first, word', rfl, hfirst, part, rest, rfl, hpart, hrest⟩ := h
      exact ⟨first ++ part, rest, by simp, ⟨first, part, rfl, hfirst, hpart⟩, hrest⟩
  induction ts generalizing word with
  | nil =>
    constructor
    · exact fun h => ⟨[], word, rfl, rfl, h⟩
    · intro h
      obtain ⟨part, rest, rfl, rfl, hrest⟩ := h
      exact hrest
  | cons t ts ih =>
    rw [hcons]
    simp only [← ih]
    cases t with
    | one a =>
      cases word with
      | nil => simp [run, Term.Accepts]
      | cons b word => simp [run, Term.Accepts]
    | any =>
      cases word with
      | nil => simp [run, Term.Accepts]
      | cons b word =>
        rw [run, Bool.and_eq_true]
        constructor
        · exact fun h => ⟨[b], word, rfl, ⟨b, h.1, rfl⟩, h.2⟩
        · intro h
          obtain ⟨first, word', hword, ⟨a, ha, rfl⟩, hrest⟩ := h
          obtain ⟨rfl, rfl⟩ := List.cons.inj hword
          exact ⟨ha, hrest⟩
    | star => exact skip_iff dot _ word

theorem check_iff [DecidableEq α] (dot : α → Bool) (ts : List (Term α)) (word : List α) :
    check dot ts word = true ↔ Matches dot ts word := by
  rw [check, run_iff]
  constructor
  · intro h
    obtain ⟨part, rest, rfl, hpart, hrest⟩ := h
    rw [List.isEmpty_iff.mp hrest, List.append_nil]
    exact hpart
  · exact fun h => ⟨word, [], (List.append_nil word).symm, h, rfl⟩

theorem search_iff [DecidableEq α] (dot : α → Bool) (ts : List (Term α)) (word : List α) :
    search dot ts word = true ↔ Occurs dot ts word := by
  rw [search, skip_iff]
  simp only [run_iff]
  constructor
  · intro h
    obtain ⟨before, rest, rfl, -, part, after, rfl, hpart, -⟩ := h
    exact ⟨before, part, after, rfl, hpart⟩
  · intro h
    obtain ⟨before, part, after, rfl, hpart⟩ := h
    exact ⟨before, part ++ after, rfl, fun _ _ => trivial, part, after, rfl, hpart, trivial⟩

instance [DecidableEq α] (dot : α → Bool) (ts : List (Term α)) (word : List α) :
    Decidable (Matches dot ts word) := decidable_of_iff _ (check_iff dot ts word)

instance [DecidableEq α] (dot : α → Bool) (ts : List (Term α)) (word : List α) :
    Decidable (Occurs dot ts word) := decidable_of_iff _ (search_iff dot ts word)

end Wildcards
