import Mathlib.Data.List.Nodup
import Mathlib.Data.List.Basic
import Mathlib.Logic.Function.Basic

/-!
Doubly linked lists in a heap, read through the pointers alone. `IsList` says
that a head, a tail and two pointer maps spell out a given list of addresses:
every address points back to what precedes it and forward to what follows it.
Unlinking, pushing to the front and moving to the front are the splices such
lists are edited with; each is shown to spell out the expected list again.
`Visits` is what a reader of the pointers sees.
-/
namespace LinkedList

abbrev Ref := ℕ

structure Links where
  prev : Ref → Option Ref
  next : Ref → Option Ref
  head : Option Ref
  tail : Option Ref

/-- The pointers spell out the list `l`, each address once. -/
structure IsList (L : Links) (l : List Ref) : Prop where
  nodup : l.Nodup
  head_eq : L.head = l.head?
  tail_eq : L.tail = l.getLast?
  prev_eq : ∀ before r after, l = before ++ r :: after → L.prev r = before.getLast?
  next_eq : ∀ before r after, l = before ++ r :: after → L.next r = after.head?

/-- Following `step` from `start` passes exactly through `l` and then stops. -/
def Visits (step : Ref → Option Ref) : Option Ref → List Ref → Prop
  | start, [] => start = none
  | start, r :: rest => start = some r ∧ Visits step (step r) rest

/-- What is visited is determined by the pointers. -/
theorem Visits.unique {step : Ref → Option Ref} {start : Option Ref} {l l' : List Ref}
    (h : Visits step start l) (h' : Visits step start l') : l = l' := by
  induction l generalizing start l' with
  | nil =>
    cases l' with
    | nil => rfl
    | cons r rest => cases (h : start = none).symm.trans h'.1
  | cons r rest ih =>
    cases l' with
    | nil => cases h.1.symm.trans (h' : start = none)
    | cons r' rest' =>
      obtain rfl : r = r' := Option.some.inj (h.1.symm.trans h'.1)
      rw [ih h.2 h'.2]

theorem isList_nil (L : Links) (hhead : L.head = none) (htail : L.tail = none) :
    IsList L [] where
  nodup := List.nodup_nil
  head_eq := hhead
  tail_eq := htail
  prev_eq before r after h := by simp at h
  next_eq before r after h := by simp at h

namespace IsList

variable {L : Links} {l : List Ref}

private theorem visits_suffix (h : IsList L l) (before after : List Ref)
    (hl : l = before ++ after) : Visits L.next after.head? after := by
  induction after generalizing before with
  | nil => rfl
  | cons r rest ih =>
    refine ⟨rfl, ?_⟩
    rw [h.next_eq before r rest hl]
    exact ih (before ++ [r]) (by simp [hl])

/-- From the head, `next` passes through the list and ends at the tail. -/
theorem visits_next (h : IsList L l) : Visits L.next L.head l := by
  rw [h.head_eq]
  exact visits_suffix h [] l rfl

private theorem visits_prefix (h : IsList L l) (before after : List Ref)
    (hl : l = before.reverse ++ after) : Visits L.prev before.head? before := by
  induction before generalizing after with
  | nil => rfl
  | cons r rest ih =>
    have hsplit : l = rest.reverse ++ r :: after := by simpa using hl
    refine ⟨rfl, ?_⟩
    rw [h.prev_eq rest.reverse r after hsplit, List.getLast?_reverse]
    exact ih (r :: after) hsplit

/-- From the tail, `prev` passes through the same list backwards. -/
theorem visits_prev (h : IsList L l) : Visits L.prev L.tail l.reverse := by
  have hv := visits_prefix h l.reverse [] (by simp)
  rwa [List.head?_reverse, ← h.tail_eq] at hv

theorem prev_head (h : IsList L l) {r : Ref} (hr : L.head = some r) : L.prev r = none := by
  rw [h.head_eq] at hr
  obtain ⟨rest, rfl⟩ := List.head?_eq_some_iff.mp hr
  simpa using h.prev_eq [] r rest rfl

theorem next_tail (h : IsList L l) {r : Ref} (hr : L.tail = some r) : L.next r = none := by
  rw [h.tail_eq] at hr
  obtain ⟨rest, rfl⟩ := List.getLast?_eq_some_iff.mp hr
  simpa using h.next_eq rest r [] rfl

theorem head_eq_none_iff (h : IsList L l) : L.head = none ↔ l = [] := by
  rw [h.head_eq, List.head?_eq_none_iff]

theorem tail_eq_none_iff (h : IsList L l) : L.tail = none ↔ l = [] := by
  rw [h.tail_eq, List.getLast?_eq_none_iff]

theorem tail_mem (h : IsList L l) {r : Ref} (hr : L.tail = some r) : r ∈ l := by
  rw [h.tail_eq] at hr
  exact List.mem_of_getLast? hr

end IsList

/-! ### Unlinking -/

/-- Take `r` out: its neighbours point at each other and `r` points nowhere. -/
def unlink (L : Links) (r : Ref) : Links where
  prev x := if x = r then none else if L.next r = some x then L.prev r else L.prev x
  next x := if x = r then none else if L.prev r = some x then L.next r else L.next x
  head := if L.prev r = none then L.next r else L.head
  tail := if L.next r = none then L.prev r else L.tail

private theorem split_two {before after m n : List Ref} {x : Ref}
    (h : before ++ after = m ++ x :: n) :
    (∃ c, before = m ++ x :: c ∧ n = c ++ after) ∨
      (∃ c, m = before ++ c ∧ after = c ++ x :: n) := by
  rcases List.append_eq_append_iff.mp h with ⟨c, hm, hafter⟩ | ⟨c, hbefore, hn⟩
  · exact Or.inr ⟨c, hm, hafter⟩
  · cases c with
    | nil => exact Or.inr ⟨[], by simpa using hbefore.symm, by simpa using hn.symm⟩
    | cons y c =>
      simp only [List.cons_append, List.cons.injEq] at hn
      obtain ⟨rfl, rfl⟩ := hn
      exact Or.inl ⟨c, hbefore, rfl⟩

variable {L : Links} {l : List Ref}

/-- Unlinking a listed address removes it from the spelled list. -/
theorem IsList.unlink (h : IsList L l) {r : Ref} (hr : r ∈ l) :
    IsList (LinkedList.unlink L r) (l.erase r) := by
  obtain ⟨before, after, hl⟩ := List.append_of_mem hr
  have hnodup := h.nodup
  rw [hl] at hnodup
  have hprev := h.prev_eq before r after hl
  have hnext := h.next_eq before r after hl
  have hb : r ∉ before := fun hm => by
    have := List.disjoint_of_nodup_append hnodup hm
    simp at this
  have herase : l.erase r = before ++ after := by
    rw [hl, List.erase_append_right _ hb, List.erase_cons_head]
  have hdis : ∀ x ∈ before, x ∉ after := fun x hx hx' =>
    List.disjoint_of_nodup_append hnodup hx (List.mem_cons_of_mem r hx')
  have ha : r ∉ after := (List.nodup_cons.mp (List.Nodup.of_append_right hnodup)).1
  rw [herase]
  constructor
  · exact hnodup.sublist (by simp)
  · simp only [LinkedList.unlink, hprev, hnext]
    cases before with
    | nil => simp
    | cons b rest => simp [h.head_eq, hl]
  · simp only [LinkedList.unlink, hprev, hnext]
    cases after with
    | nil => simp
    | cons a rest => simp [h.tail_eq, hl]
  · intro m x n hsplit
    rcases split_two hsplit with ⟨c, rfl, rfl⟩ | ⟨c, rfl, rfl⟩
    · have hxr : x ≠ r := by rintro rfl; simp at hb
      have hhead : after.head? ≠ some x := fun hx =>
        hdis x (by simp) (List.mem_of_head? hx)
      simp only [LinkedList.unlink, hxr, hnext, hhead, ↓reduceIte]
      exact h.prev_eq m x (c ++ r :: after) (by simp [hl])
    · have hxr : x ≠ r := by rintro rfl; simp at ha
      simp only [LinkedList.unlink, hxr, hnext, hprev, ↓reduceIte]
      cases c with
      | nil => simp
      | cons d c =>
        have hdx : d ≠ x := by
          intro heq
          subst heq
          have := (List.nodup_cons.mp (List.Nodup.of_append_right hnodup)).2
          simp at this
        simp only [List.cons_append, List.head?_cons, Option.some.injEq, hdx, ↓reduceIte]
        rw [h.prev_eq (before ++ r :: d :: c) x n (by simp [hl])]
        simp [List.getLast?_append]
  · intro m x n hsplit
    rcases split_two hsplit with ⟨c, rfl, rfl⟩ | ⟨c, rfl, rfl⟩
    · have hxr : x ≠ r := by rintro rfl; simp at hb
      simp only [LinkedList.unlink, hxr, hnext, hprev, ↓reduceIte]
      rcases List.eq_nil_or_concat c with rfl | ⟨c, d, rfl⟩
      · simp
      · have hdx : d ≠ x := by
          intro heq
          subst heq
          have := List.Nodup.of_append_left hnodup
          simp [List.nodup_append] at this
        have hlast : (m ++ x :: c.concat d).getLast? = some d := by
          simp [List.getLast?_cons, List.getLast?_append]
        simp only [hlast, Option.some.injEq, hdx, ↓reduceIte]
        rw [h.next_eq m x (c.concat d ++ r :: after) (by simp [hl])]
        cases c <;> simp
    · have hxr : x ≠ r := by rintro rfl; simp at ha
      have hlast : before.getLast? ≠ some x := fun hx =>
        hdis x (List.mem_of_getLast? hx) (by simp)
      simp only [LinkedList.unlink, hxr, hprev, hlast, ↓reduceIte]
      exact h.next_eq (before ++ r :: c) x n (by simp [hl])

/-! ### Pushing to the front -/

/-- Put the unlisted address `r` before the head. -/
def pushFront (L : Links) (r : Ref) : Links where
  prev x := if x = r then none else if L.head = some x then some r else L.prev x
  next x := if x = r then L.head else L.next x
  head := some r
  tail := if L.tail = none then some r else L.tail

theorem IsList.pushFront (h : IsList L l) {r : Ref} (hr : r ∉ l) :
    IsList (LinkedList.pushFront L r) (r :: l) := by
  constructor
  · exact List.nodup_cons.mpr ⟨hr, h.nodup⟩
  · rfl
  · simp only [LinkedList.pushFront, h.tail_eq]
    cases l with
    | nil => simp
    | cons b rest => simp [List.getLast?_cons]
  · intro m x n hsplit
    cases m with
    | nil =>
      simp only [List.nil_append, List.cons.injEq] at hsplit
      simp [LinkedList.pushFront, hsplit.1]
    | cons b m =>
      simp only [List.cons_append, List.cons.injEq] at hsplit
      obtain ⟨rfl, rfl⟩ := hsplit
      have hxr : x ≠ r := by rintro rfl; simp at hr
      simp only [LinkedList.pushFront, hxr, ↓reduceIte, h.head_eq]
      cases m with
      | nil => simp
      | cons b m =>
        have hbx : b ≠ x := by
          intro heq
          subst heq
          have := h.nodup
          simp at this
        simp [hbx, h.prev_eq (b :: m) x n rfl]
  · intro m x n hsplit
    cases m with
    | nil =>
      simp only [List.nil_append, List.cons.injEq] at hsplit
      simp [LinkedList.pushFront, hsplit.1, hsplit.2, h.head_eq]
    | cons b m =>
      simp only [List.cons_append, List.cons.injEq] at hsplit
      obtain ⟨rfl, rfl⟩ := hsplit
      have hxr : x ≠ r := by rintro rfl; simp at hr
      simp only [LinkedList.pushFront, hxr, ↓reduceIte]
      exact h.next_eq m x n rfl

theorem IsList.front_eq (h : IsList L l) {r : Ref} (hr : L.head = some r) :
    r :: l.erase r = l := by
  rw [h.head_eq] at hr
  obtain ⟨rest, rfl⟩ := List.head?_eq_some_iff.mp hr
  simp

end LinkedList
