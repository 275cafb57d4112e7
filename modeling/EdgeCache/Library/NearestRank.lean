import Mathlib.Data.List.Sort

/-!
The nearest-rank element of a list: at least `rank` of its elements are not above it, and
fewer than `rank` are below it. In a sorted list it stands at index `rank - 1`.
-/
namespace NearestRank

variable {α : Type*} [LinearOrder α]

structure IsRank (rank : ℕ) (l : List α) (v : α) : Prop where
  mem : v ∈ l
  le_count : rank ≤ l.countP (· ≤ v)
  count_lt : l.countP (· < v) < rank

variable {l l' : List α} {rank rank' : ℕ} {v v' : α}

theorem IsRank.perm (h : IsRank rank l v) (hperm : l.Perm l') : IsRank rank l' v where
  mem := hperm.mem_iff.mp h.mem
  le_count := hperm.countP_eq (· ≤ v) ▸ h.le_count
  count_lt := hperm.countP_eq (· < v) ▸ h.count_lt

theorem IsRank.mono (h : IsRank rank l v) (h' : IsRank rank' l v') (hrank : rank ≤ rank') :
    v ≤ v' := by
  by_contra hlt
  have hbelow : l.countP (· ≤ v') ≤ l.countP (· < v) := by
    refine List.countP_mono_left fun x _ hx => ?_
    simp only [decide_eq_true_eq] at hx ⊢
    exact lt_of_le_of_lt hx (not_le.mp hlt)
  have hmany := h'.le_count
  have hfew := h.count_lt
  omega

/-- In a sorted list, what holds of everything smaller too holds exactly at the indices
below its count. -/
theorem getElem_iff_lt_countP {P : α → Bool} (hsorted : l.Pairwise (· ≤ ·))
    (hP : ∀ x y, x ≤ y → P y = true → P x = true) (i : ℕ) (hi : i < l.length) :
    P l[i] = true ↔ i < l.countP P := by
  induction l generalizing i with
  | nil => exact absurd hi (Nat.not_lt_zero i)
  | cons x rest ih =>
    obtain ⟨hhead, hrest⟩ := List.pairwise_cons.mp hsorted
    rw [List.countP_cons]
    by_cases hx : P x = true
    · rw [if_pos hx]
      cases i with
      | zero => exact iff_of_true hx (Nat.succ_pos _)
      | succ i =>
        have hi' : i < rest.length := Nat.lt_of_succ_lt_succ hi
        have hsame := ih hrest i hi'
        rw [List.getElem_cons_succ, hsame]
        omega
    · have hnone : rest.countP P = 0 :=
        List.countP_eq_zero.mpr fun y hy hPy => hx (hP x y (hhead y hy) hPy)
      rw [if_neg hx, hnone]
      refine iff_of_false (fun hPi => ?_) (Nat.not_lt_zero i)
      rcases List.mem_cons.mp (List.getElem_mem hi) with heq | hmem
      · exact hx (heq ▸ hPi)
      · exact hx (hP x _ (hhead _ hmem) hPi)

theorem isRank_getElem (hsorted : l.Pairwise (· ≤ ·)) {i : ℕ} (hi : i < l.length) :
    IsRank (i + 1) l l[i] where
  mem := List.getElem_mem hi
  le_count := by
    have hbelow := getElem_iff_lt_countP (P := (· ≤ l[i])) hsorted
      (fun x y hxy hy => by
        simp only [decide_eq_true_eq] at hy ⊢
        exact hxy.trans hy) i hi
    exact hbelow.mp (decide_eq_true le_rfl)
  count_lt := by
    have hbelow := getElem_iff_lt_countP (P := (· < l[i])) hsorted
      (fun x y hxy hy => by
        simp only [decide_eq_true_eq] at hy ⊢
        exact lt_of_le_of_lt hxy hy) i hi
    have hnot : ¬ i < l.countP (· < l[i]) := fun hlt =>
      lt_irrefl _ (of_decide_eq_true (hbelow.mpr hlt))
    omega

end NearestRank
