import Mathlib.Algebra.Order.Group.Defs
import Mathlib.Algebra.Order.Monoid.Unbundled.Basic
import Mathlib.Data.List.Infix

/-!
Events in a window that slides over time. They are bounded by `n` when no closed interval of
the window's width holds more than `n` of them. Over events in the order of time that is
settled event by event: the one that comes last ends the fullest interval it lies in.
-/
namespace Windows

variable {α K : Type*} [AddCommGroup K] [LinearOrder K]

/-- No interval of length `width` holds more than `n` of the events. -/
def Bounded (moment : α → K) (width : K) (n : ℕ) (events : List α) : Prop :=
  ∀ start, events.countP (fun e => start ≤ moment e ∧ moment e ≤ start + width) ≤ n

/-- The events that are not yet older than `width`. -/
def recent (moment : α → K) (width now : K) (events : List α) : ℕ :=
  events.countP (fun e => now ≤ moment e + width)

variable {moment : α → K} {width : K} {n : ℕ} {events : List α}

theorem bounded_nil : Bounded moment width n [] := fun _ => Nat.zero_le n

theorem Bounded.of_sublist {events' : List α} (h : Bounded moment width n events)
    (hsub : events'.Sublist events) : Bounded moment width n events' :=
  fun start => (hsub.countP_le).trans (h start)

theorem countP_le_add {p q r : α → Bool} (h : ∀ e ∈ events, p e = true → q e = true ∨ r e = true) :
    events.countP p ≤ events.countP q + events.countP r := by
  induction events with
  | nil => exact Nat.zero_le _
  | cons e rest ih =>
    have hrest := ih fun e he => h e (List.mem_cons_of_mem _ he)
    have hfirst : (if p e = true then 1 else 0) ≤
        (if q e = true then 1 else 0) + if r e = true then 1 else 0 := by
      by_cases he : p e = true
      · rcases h e List.mem_cons_self he with hq | hr
        · rw [if_pos he, if_pos hq]
          exact Nat.le_add_right 1 _
        · rw [if_pos he, if_pos hr]
          exact Nat.le_add_left 1 _
      · rw [if_neg he]
        exact Nat.zero_le _
    rw [List.countP_cons, List.countP_cons, List.countP_cons]
    omega

variable [IsOrderedAddMonoid K]

theorem count_le_recent {start now : K} (hnow : now ≤ start + width) :
    events.countP (fun e => start ≤ moment e ∧ moment e ≤ start + width) ≤
      recent moment width now events := by
  refine List.countP_mono_left fun e _ he => ?_
  simp only [decide_eq_true_eq] at he ⊢
  calc now ≤ start + width := hnow
    _ ≤ moment e + width := by gcongr; exact he.1

/-- The interval that ends at `now` holds exactly the recent events. -/
theorem count_ending_at {now : K} (hpast : ∀ e ∈ events, moment e ≤ now) :
    events.countP (fun e => now - width ≤ moment e ∧ moment e ≤ now - width + width) =
      recent moment width now events := by
  refine List.countP_congr fun e he => ?_
  simp only [decide_eq_true_eq, sub_add_cancel, sub_le_iff_le_add]
  exact and_iff_left (hpast e he)

theorem bounded_concat_iff {e : α} (hwidth : 0 ≤ width)
    (hpast : ∀ e' ∈ events, moment e' ≤ moment e) :
    Bounded moment width n (events ++ [e]) ↔
      Bounded moment width n events ∧ recent moment width (moment e) events < n := by
  constructor
  · intro h
    refine ⟨h.of_sublist (List.sublist_append_left events [e]), ?_⟩
    have hend := h (moment e - width)
    have hin : moment e - width ≤ moment e ∧ moment e ≤ moment e - width + width :=
      ⟨sub_le_self _ hwidth, (sub_add_cancel _ _).ge⟩
    rw [List.countP_append, List.countP_singleton, if_pos (decide_eq_true hin),
      count_ending_at hpast] at hend
    omega
  · rintro ⟨hbefore, hfew⟩ start
    rw [List.countP_append, List.countP_singleton]
    split
    · next hin =>
      have hcount : events.countP _ ≤ recent moment width (moment e) events :=
        count_le_recent (of_decide_eq_true hin).2
      omega
    · exact hbefore start

end Windows
