import Mathlib.Data.Finset.Card
import Mathlib.Data.List.Count
import Mathlib.Tactic.Ring

/-!
Requests for pages, of which a bounded number is resident. One policy keeps a list, with the
page requested last in front, and gives up the page at its end; it is compared with any other
policy, which keeps a set and may know the requests to come. A page that only the list has
weighs the more, the nearer it is to the front. Each fault of the list takes weight away, and
only a fault of the other policy can add some, so that the faults of the list are bounded by
those of the other.
-/
namespace Paging

variable {α : Type*} [DecidableEq α]

/-! ### The list and its competitors -/

/-- A page comes to the front; a new one may drive out the last of `k`. -/
def request (k : ℕ) (pages : List α) (page : α) : List α :=
  if page ∈ pages then page :: pages.erase page
  else page :: if k ≤ pages.length then pages.dropLast else pages

/-- How many of the requests do not find their page in the list. -/
def faults (k : ℕ) : List α → List α → ℕ
  | _, [] => 0
  | pages, page :: rest =>
    (if page ∈ pages then 0 else 1) + faults k (request k pages page) rest

/-- Any way to serve the requests with `h` places and a number of faults: a fault brings in its
page, and may give up one other. -/
inductive Serves (h : ℕ) : Finset α → List α → ℕ → Prop where
  | nil (resident : Finset α) : Serves h resident [] 0
  | hit {resident : Finset α} {page : α} {rest : List α} {n : ℕ} (hmem : page ∈ resident)
      (hrest : Serves h resident rest n) : Serves h resident (page :: rest) n
  | fault {resident : Finset α} {page : α} {rest : List α} {n : ℕ} (victim : α)
      (hnew : page ∉ resident) (hfits : (insert page (resident.erase victim)).card ≤ h)
      (hrest : Serves h (insert page (resident.erase victim)) rest n) :
      Serves h resident (page :: rest) (n + 1)

/-! ### Weights -/

/-- The weight of the pages that are not resident elsewhere: `k` at the front, and one less at
each place behind it. -/
def weight (resident : Finset α) : ℕ → List α → ℕ
  | _, [] => 0
  | k, page :: rest => (if page ∈ resident then 0 else k) + weight resident (k - 1) rest

/-- How many of the pages are not resident elsewhere. -/
def strays (resident : Finset α) (pages : List α) : ℕ := pages.countP fun page => page ∉ resident

variable {resident resident' : Finset α} {page : α}

theorem strays_cons (resident : Finset α) (page : α) (rest : List α) :
    strays resident (page :: rest) =
      strays resident rest + if page ∈ resident then 0 else 1 := by
  rw [strays, List.countP_cons, ← strays]
  by_cases hmem : page ∈ resident
  · simp [hmem]
  · simp [hmem]

theorem weight_back (resident : Finset α) {k : ℕ} {pages : List α} (hlength : pages.length ≤ k) :
    weight resident (k - 1) pages + strays resident pages ≤ weight resident k pages := by
  induction pages generalizing k with
  | nil => exact le_rfl
  | cons page rest ih =>
    rw [List.length_cons] at hlength
    have hrest := ih (k := k - 1) (by omega)
    rw [weight, weight, strays_cons]
    split
    · omega
    · omega

theorem weight_erase (resident : Finset α) (page : α) (k : ℕ) (pages : List α) :
    weight resident (k - 1) (pages.erase page) ≤ weight resident k pages := by
  induction pages generalizing k with
  | nil => exact le_rfl
  | cons first rest ih =>
    by_cases hfirst : first = page
    · subst hfirst
      rw [List.erase_cons_head, weight]
      omega
    · have hrest := ih (k - 1)
      rw [List.erase_cons_tail (by simpa using hfirst), weight, weight]
      split
      · omega
      · omega

theorem weight_dropLast (resident : Finset α) (k : ℕ) (pages : List α) :
    weight resident k pages.dropLast ≤ weight resident k pages := by
  induction pages generalizing k with
  | nil => exact le_rfl
  | cons page rest ih =>
    cases rest with
    | nil => exact Nat.zero_le _
    | cons second rest =>
      rw [List.dropLast_cons_cons, weight, weight]
      exact Nat.add_le_add_left (ih (k - 1)) _

theorem weight_anti {k : ℕ} {pages : List α}
    (h : ∀ page ∈ pages, page ∈ resident → page ∈ resident') :
    weight resident' k pages ≤ weight resident k pages := by
  induction pages generalizing k with
  | nil => exact le_rfl
  | cons page rest ih =>
    have hrest := ih (k := k - 1) fun page' hmem => h page' (List.mem_cons_of_mem page hmem)
    rw [weight, weight]
    by_cases hmem : page ∈ resident
    · rw [if_pos hmem, if_pos (h page List.mem_cons_self hmem)]
      omega
    · rw [if_neg hmem]
      split
      · omega
      · omega

theorem weight_give_up (k : ℕ) (victim : α) {pages : List α} (hnodup : pages.Nodup)
    (h : ∀ page ∈ pages, page ≠ victim → page ∈ resident → page ∈ resident') :
    weight resident' k pages ≤ weight resident k pages + k := by
  induction pages generalizing k with
  | nil => exact Nat.zero_le _
  | cons page rest ih =>
    obtain ⟨hnotMem, hnodup'⟩ := List.nodup_cons.mp hnodup
    rw [weight, weight]
    by_cases hvictim : page = victim
    · -- the only page whose weight can rise
      have hrest : weight resident' (k - 1) rest ≤ weight resident (k - 1) rest := by
        refine weight_anti fun page' hmem hresident => ?_
        have hne : page' ≠ victim := by
          rintro rfl
          exact hnotMem (hvictim ▸ hmem)
        exact h page' (List.mem_cons_of_mem page hmem) hne hresident
      split
      · omega
      · omega
    · have hrest := ih (k - 1) hnodup' fun page' hmem => h page' (List.mem_cons_of_mem page hmem)
      by_cases hmem : page ∈ resident
      · rw [if_pos hmem, if_pos (h page List.mem_cons_self hvictim hmem)]
        omega
      · rw [if_neg hmem]
        split
        · omega
        · omega

/-- A full list without a page that is resident elsewhere has strays: elsewhere there is only
room for so many of its pages. -/
theorem le_strays {h : ℕ} {pages : List α} (hnodup : pages.Nodup) (hnew : page ∉ pages)
    (hmem : page ∈ resident) (hcard : resident.card ≤ h) :
    pages.length + 1 - h ≤ strays resident pages := by
  have hsplit := pages.length_eq_countP_add_countP fun page => page ∈ resident
  have hshared : pages.countP (fun page => page ∈ resident) ≤ (resident.erase page).card := by
    rw [List.countP_eq_length_filter, ← List.toFinset_card_of_nodup (hnodup.filter _)]
    refine Finset.card_le_card fun page' hpage' => ?_
    obtain ⟨hlist, hresident⟩ := List.mem_filter.mp (List.mem_toFinset.mp hpage')
    refine Finset.mem_erase.mpr ⟨fun heq => hnew (heq ▸ hlist), ?_⟩
    exact of_decide_eq_true hresident
  rw [Finset.card_erase_of_mem hmem] at hshared
  have hpos : 0 < resident.card := Finset.card_pos.mpr ⟨page, hmem⟩
  have hstrays : strays resident pages =
      pages.countP (fun page => ¬ decide (page ∈ resident) = true) := by
    rw [strays]
    simp only [decide_eq_true_eq]
  omega

/-! ### Requests -/

theorem length_request {k : ℕ} (hk : 0 < k) {pages : List α} (hlength : pages.length ≤ k)
    (page : α) : (request k pages page).length ≤ k := by
  unfold request
  split
  · next hmem =>
    have hpos := List.length_pos_of_mem hmem
    rw [List.length_cons, List.length_erase_of_mem hmem]
    omega
  · split
    · rw [List.length_cons, List.length_dropLast]
      omega
    · rw [List.length_cons]
      omega

theorem nodup_request {k : ℕ} {pages : List α} (hnodup : pages.Nodup) (page : α) :
    (request k pages page).Nodup := by
  unfold request
  split
  · exact List.nodup_cons.mpr ⟨hnodup.not_mem_erase, hnodup.erase page⟩
  · next hnew =>
    split
    · refine List.nodup_cons.mpr ⟨fun hmem => hnew (List.dropLast_subset pages hmem), ?_⟩
      exact hnodup.sublist (List.dropLast_sublist pages)
    · exact List.nodup_cons.mpr ⟨hnew, hnodup⟩

/-- The weight of the list, and what its empty places still allow. -/
def credit (h k : ℕ) (resident : Finset α) (pages : List α) : ℕ :=
  weight resident k pages + (k + 1 - h) * (k - pages.length)

/-- A fault of the list is paid out of the credit. -/
theorem credit_request {h k : ℕ} (hk : 0 < k) {pages : List α} (hnodup : pages.Nodup)
    (hlength : pages.length ≤ k) (hmem : page ∈ resident) (hcard : resident.card ≤ h) :
    (k + 1 - h) * (if page ∈ pages then 0 else 1) + credit h k resident (request k pages page) ≤
      credit h k resident pages := by
  unfold credit request
  by_cases hfound : page ∈ pages
  · have hfront := weight_erase resident page k pages
    have hpos := List.length_pos_of_mem hfound
    have hsame : (page :: pages.erase page).length = pages.length := by
      rw [List.length_cons, List.length_erase_of_mem hfound]
      omega
    rw [if_pos hfound, if_pos hfound, hsame, weight, if_pos hmem]
    omega
  · have hback := weight_back resident hlength
    rw [if_neg hfound, if_neg hfound]
    by_cases hfull : k ≤ pages.length
    · have hlast := weight_dropLast resident (k - 1) pages
      have hstrays := le_strays hnodup hfound hmem hcard
      have hsame : (page :: pages.dropLast).length = pages.length := by
        rw [List.length_cons, List.length_dropLast]
        omega
      have hexact : pages.length = k := by omega
      rw [if_pos hfull, hsame, weight, if_pos hmem]
      rw [hexact] at hstrays
      omega
    · have hplace : k - pages.length = k - (pages.length + 1) + 1 := by omega
      rw [if_neg hfull, List.length_cons, weight, if_pos hmem, hplace]
      calc (k + 1 - h) * 1 + (0 + weight resident (k - 1) pages +
              (k + 1 - h) * (k - (pages.length + 1)))
          = weight resident (k - 1) pages + (k + 1 - h) * (k - (pages.length + 1) + 1) := by ring
        _ ≤ weight resident k pages + (k + 1 - h) * (k - (pages.length + 1) + 1) := by
          refine Nat.add_le_add_right ?_ _
          omega

/-- However the requests are served elsewhere, the faults there pay for those of the list. -/
theorem faults_le_credit {h k : ℕ} (hk : 0 < k) {requests : List α} {n : ℕ}
    (hserves : Serves h resident requests n) (hcard : resident.card ≤ h) {pages : List α}
    (hnodup : pages.Nodup) (hlength : pages.length ≤ k) :
    (k + 1 - h) * faults k pages requests ≤ k * n + credit h k resident pages := by
  induction hserves generalizing pages with
  | nil resident => exact Nat.zero_le _
  | @hit resident page rest n hmem hrest ih =>
    have hstep := credit_request hk hnodup hlength hmem hcard
    have hlater := ih hcard (nodup_request hnodup page) (length_request hk hlength page)
    rw [faults, Nat.mul_add]
    omega
  | @fault resident page rest n victim hnew hfits hrest ih =>
    have hmem : page ∈ insert page (resident.erase victim) := Finset.mem_insert_self _ _
    have hstep := credit_request hk hnodup hlength hmem hfits
    have hlater := ih hfits (nodup_request hnodup page) (length_request hk hlength page)
    have hraised : credit h k (insert page (resident.erase victim)) pages ≤
        credit h k resident pages + k := by
      have hweight : weight (insert page (resident.erase victim)) k pages ≤
          weight resident k pages + k :=
        weight_give_up k victim hnodup fun page' _ hne hresident =>
          Finset.mem_insert_of_mem (Finset.mem_erase.mpr ⟨hne, hresident⟩)
      unfold credit
      omega
    rw [faults, Nat.mul_add, Nat.mul_succ]
    omega

/-- From an empty list on, with as many faults allowed as it has places. -/
theorem faults_le {h k : ℕ} (hk : 0 < k) {requests : List α} {n : ℕ}
    (hserves : Serves h ∅ requests n) :
    (k + 1 - h) * faults k [] requests ≤ k * n + (k + 1 - h) * k := by
  have hfaults := faults_le_credit hk hserves (Nat.zero_le h) List.nodup_nil (Nat.zero_le k)
  have hstart : credit h k (∅ : Finset α) [] = (k + 1 - h) * k := by
    rw [credit, weight, List.length_nil, Nat.sub_zero, Nat.zero_add]
  rwa [hstart] at hfaults

end Paging
