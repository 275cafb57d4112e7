import Mathlib.Data.List.Chain

/-!
Runs of a deterministic machine: a step function folded over a list of actions.
A run can be guarded, when each of its steps meets a condition on the state it
starts from. An invariant kept by every guarded step holds after every guarded
run, and in every state on the way. What is observed of a run is a list; successive
observations are related once the steps between them keep what the earlier one leaves behind.
-/
namespace Runs

variable {σ α : Type*} (step : σ → α → σ)

def run (s : σ) (actions : List α) : σ := actions.foldl step s

@[simp] theorem run_nil (s : σ) : run step s [] = s := rfl

@[simp] theorem run_cons (s : σ) (a : α) (rest : List α) :
    run step s (a :: rest) = run step (step s a) rest := rfl

theorem run_append (s : σ) (before after : List α) :
    run step s (before ++ after) = run step (run step s before) after :=
  List.foldl_append

/-- Every action of the run meets `guard` in the state it is taken in. -/
def Guarded (guard : σ → α → Prop) : σ → List α → Prop
  | _, [] => True
  | s, a :: rest => guard s a ∧ Guarded guard (step s a) rest

variable {step}

instance {guard : σ → α → Prop} [∀ s a, Decidable (guard s a)] :
    ∀ (s : σ) (actions : List α), Decidable (Guarded step guard s actions)
  | _, [] => isTrue trivial
  | s, a :: rest =>
    have : Decidable (Guarded step guard (step s a) rest) := instDecidableGuarded (step s a) rest
    inferInstanceAs (Decidable (guard s a ∧ Guarded step guard (step s a) rest))

theorem Guarded.mono {guard guard' : σ → α → Prop} (h : ∀ s a, guard s a → guard' s a) {s : σ}
    {actions : List α} (hrun : Guarded step guard s actions) : Guarded step guard' s actions := by
  induction actions generalizing s with
  | nil => trivial
  | cons a rest ih => exact ⟨h s a hrun.1, ih hrun.2⟩

theorem Guarded.and {guard guard' : σ → α → Prop} {s : σ} {actions : List α}
    (h : Guarded step guard s actions) (h' : Guarded step guard' s actions) :
    Guarded step (fun s a => guard s a ∧ guard' s a) s actions := by
  induction actions generalizing s with
  | nil => trivial
  | cons a rest ih => exact ⟨⟨h.1, h'.1⟩, ih h.2 h'.2⟩

theorem Guarded.append {guard : σ → α → Prop} {s : σ} {before after : List α}
    (h : Guarded step guard s before) (h' : Guarded step guard (run step s before) after) :
    Guarded step guard s (before ++ after) := by
  induction before generalizing s with
  | nil => exact h'
  | cons a rest ih => exact ⟨h.1, ih h.2 h'⟩

theorem Guarded.of_append {guard : σ → α → Prop} {s : σ} {before after : List α}
    (h : Guarded step guard s (before ++ after)) :
    Guarded step guard s before ∧ Guarded step guard (run step s before) after := by
  induction before generalizing s with
  | nil => exact ⟨trivial, h⟩
  | cons a rest ih =>
    obtain ⟨hrest, hafter⟩ := ih h.2
    exact ⟨⟨h.1, hrest⟩, hafter⟩

theorem guarded_of_forall {Q : α → Prop} {actions : List α} (h : ∀ a ∈ actions, Q a) (s : σ) :
    Guarded step (fun _ a => Q a) s actions := by
  induction actions generalizing s with
  | nil => trivial
  | cons a rest ih =>
    exact ⟨h a List.mem_cons_self, ih (fun b hb => h b (List.mem_cons_of_mem a hb)) _⟩

/-- An invariant of guarded steps holds after every guarded run. -/
theorem Guarded.invariant {guard : σ → α → Prop} {I : σ → Prop}
    (hstep : ∀ s a, I s → guard s a → I (step s a)) {s : σ} {actions : List α}
    (hrun : Guarded step guard s actions) (hs : I s) : I (run step s actions) := by
  induction actions generalizing s with
  | nil => exact hs
  | cons a rest ih => exact ih hrun.2 (hstep s a hs hrun.1)

/-- When the guard is exactly what keeps `P`, a run is guarded exactly when `P` holds in
every state it passes; `J` is what the states satisfy anyway. -/
theorem guarded_iff_forall_prefix {guard : σ → α → Prop} {J P : σ → Prop} {Q : α → Prop}
    (hJ : ∀ s a, Q a → J s → J (step s a))
    (hP : ∀ s a, Q a → J s → P s → (P (step s a) ↔ guard s a)) {s : σ} {actions : List α}
    (hQ : ∀ a ∈ actions, Q a) (hJs : J s) (hPs : P s) :
    Guarded step guard s actions ↔ ∀ before, before <+: actions → P (run step s before) := by
  induction actions generalizing s with
  | nil =>
    refine ⟨fun _ before hbefore => ?_, fun _ => trivial⟩
    rw [List.prefix_nil.mp hbefore]
    exact hPs
  | cons a rest ih =>
    have hQa := hQ a List.mem_cons_self
    have hrest := ih (s := step s a) (fun b hb => hQ b (List.mem_cons_of_mem a hb)) (hJ s a hQa hJs)
    constructor
    · intro hboth before hbefore
      obtain ⟨hguard, hguarded⟩ := hboth
      have hPa := (hP s a hQa hJs hPs).mpr hguard
      cases before with
      | nil => exact hPs
      | cons b before =>
        obtain ⟨rfl, hrestBefore⟩ := List.cons_prefix_cons.mp hbefore
        exact (hrest hPa).mp hguarded before hrestBefore
    · intro hall
      have hPa := hall [a] (List.cons_prefix_cons.mpr ⟨rfl, List.nil_prefix⟩)
      refine ⟨(hP s a hQa hJs hPs).mp hPa, (hrest hPa).mpr fun before hbefore => ?_⟩
      exact hall (a :: before) (List.cons_prefix_cons.mpr ⟨rfl, hbefore⟩)

/-- When the guard is exactly what two machines take alike, in each state, a run of the first is
guarded exactly when the two do not part on the way. -/
theorem guarded_iff_agree {step' : σ → α → σ} {guard : σ → α → Prop} {R : σ → σ → Prop}
    (hrefl : ∀ s, R s s) (heq : ∀ s a, guard s a → step' s a = step s a)
    (hguard : ∀ s a, R (step s a) (step' s a) → guard s a) (s : σ) (actions : List α) :
    Guarded step guard s actions ↔
      ∀ before, before <+: actions → R (run step s before) (run step' s before) := by
  induction actions generalizing s with
  | nil =>
    refine ⟨fun _ before hbefore => ?_, fun _ => trivial⟩
    rw [List.prefix_nil.mp hbefore]
    exact hrefl s
  | cons a rest ih =>
    constructor
    · intro hboth before hbefore
      cases before with
      | nil => exact hrefl s
      | cons b before =>
        obtain ⟨rfl, hrest⟩ := List.cons_prefix_cons.mp hbefore
        rw [run_cons, run_cons, heq s b hboth.1]
        exact (ih (step s b)).mp hboth.2 before hrest
    · intro hall
      have hone := hguard s a (hall [a] (List.cons_prefix_cons.mpr ⟨rfl, List.nil_prefix⟩))
      refine ⟨hone, (ih (step s a)).mpr fun before hbefore => ?_⟩
      have hrest := hall (a :: before) (List.cons_prefix_cons.mpr ⟨rfl, hbefore⟩)
      rwa [run_cons, run_cons, heq s a hone] at hrest

/-- An invariant of all steps is met in every state on the way. -/
theorem guarded_of_invariant {I : σ → Prop} (hstep : ∀ s a, I s → I (step s a)) {s : σ} (hs : I s)
    (actions : List α) : Guarded step (fun s _ => I s) s actions := by
  induction actions generalizing s with
  | nil => trivial
  | cons a rest ih => exact ⟨hs, ih (hstep s a hs)⟩

theorem run_invariant {I : σ → Prop} (hstep : ∀ s a, I s → I (step s a)) {s : σ}
    (hs : I s) (actions : List α) : I (run step s actions) := by
  induction actions generalizing s with
  | nil => exact hs
  | cons a rest ih => exact ih (hstep s a hs)

/-- Running the expansion of each action in turn is the run of all expansions. -/
theorem run_flatMap {β : Type*} {step' : σ → β → σ} (expand : β → List α)
    (h : ∀ s b, step' s b = run step s (expand b)) (s : σ) (actions : List β) :
    run step' s actions = run step s (actions.flatMap expand) := by
  induction actions generalizing s with
  | nil => rfl
  | cons b rest ih =>
    rw [List.flatMap_cons, run_append, run_cons, h, ih]

/-! ### What adds up along a run -/

/-- The sum of an amount over the actions of a run, each taken in its state. -/
def total (step : σ → α → σ) (amount : σ → α → ℕ) : σ → List α → ℕ
  | _, [] => 0
  | s, a :: rest => amount s a + total step amount (step s a) rest

theorem total_add (amount amount' : σ → α → ℕ) (s : σ) (actions : List α) :
    total step (fun s a => amount s a + amount' s a) s actions =
      total step amount s actions + total step amount' s actions := by
  induction actions generalizing s with
  | nil => rfl
  | cons a rest ih =>
    simp only [total, ih]
    omega

theorem total_eq_zero_iff (amount : σ → α → ℕ) (s : σ) (actions : List α) :
    total step amount s actions = 0 ↔
      Guarded step (fun s a => amount s a = 0) s actions := by
  induction actions generalizing s with
  | nil => exact iff_of_true rfl trivial
  | cons a rest ih => rw [total, Nat.add_eq_zero_iff, ih, Guarded]

/-- A counter that each step raises by an amount has been raised by the total. -/
theorem counter_run {I : σ → Prop} {counter : σ → ℕ} {amount : σ → α → ℕ}
    (hI : ∀ s a, I s → I (step s a))
    (hstep : ∀ s a, I s → counter (step s a) = counter s + amount s a) {s : σ} (hs : I s)
    (actions : List α) :
    counter (run step s actions) = counter s + total step amount s actions := by
  induction actions generalizing s with
  | nil => rfl
  | cons a rest ih =>
    rw [run_cons, ih (hI s a hs), hstep s a hs, total]
    omega

/-! ### What is observed of a run -/

section Observed

variable {ω : Type*}

/-- What is observed of the actions of a run, in order; of some of them nothing is. -/
def observed (step : σ → α → σ) (observe : σ → α → Option ω) : σ → List α → List ω
  | _, [] => []
  | s, a :: rest => (observe s a).toList ++ observed step observe (step s a) rest

variable {observe : σ → α → Option ω}

theorem observed_cons_of_none {s : σ} {a : α} (h : observe s a = none) (rest : List α) :
    observed step observe s (a :: rest) = observed step observe (step s a) rest := by
  rw [observed, h, Option.toList_none, List.nil_append]

theorem observed_cons_of_some {s : σ} {a : α} {o : ω} (h : observe s a = some o)
    (rest : List α) :
    observed step observe s (a :: rest) = o :: observed step observe (step s a) rest := by
  rw [observed, h, Option.toList_some, List.singleton_append]

/-- What an observation shows of its action is shown in the order of the actions. -/
theorem map_observed_sublist {τ : Type*} {f : ω → τ} {g : α → τ}
    (h : ∀ s a o, observe s a = some o → f o = g a) (s : σ) (actions : List α) :
    ((observed step observe s actions).map f).Sublist (actions.map g) := by
  induction actions generalizing s with
  | nil => exact List.Sublist.refl []
  | cons a rest ih =>
    cases hseen : observe s a with
    | none =>
      rw [observed_cons_of_none hseen, List.map_cons]
      exact (ih (step s a)).cons (g a)
    | some o =>
      rw [observed_cons_of_some hseen, List.map_cons, List.map_cons, h s a o hseen]
      exact (ih (step s a)).cons_cons (g a)

/-- When the guard is exactly what keeps `P` of the state and of what has been observed so far,
a run is guarded exactly when `P` holds all along it. -/
theorem guarded_iff_observed {guard : σ → α → Prop} {P : σ → List ω → Prop}
    (hP : ∀ s a seen, P s seen → (P (step s a) (seen ++ (observe s a).toList) ↔ guard s a))
    {s : σ} {seen : List ω} (hs : P s seen) (actions : List α) :
    Guarded step guard s actions ↔ ∀ before, before <+: actions →
      P (run step s before) (seen ++ observed step observe s before) := by
  induction actions generalizing s seen with
  | nil =>
    refine ⟨fun _ before hbefore => ?_, fun _ => trivial⟩
    rw [List.prefix_nil.mp hbefore, observed, List.append_nil]
    exact hs
  | cons a rest ih =>
    have hfirst : ∀ before, seen ++ observed step observe s (a :: before) =
        seen ++ (observe s a).toList ++ observed step observe (step s a) before := by
      intro before
      rw [observed, List.append_assoc]
    constructor
    · intro hboth before hbefore
      obtain ⟨hguard, hguarded⟩ := hboth
      cases before with
      | nil =>
        rw [observed, List.append_nil]
        exact hs
      | cons b before =>
        obtain ⟨rfl, hrest⟩ := List.cons_prefix_cons.mp hbefore
        rw [hfirst]
        exact (ih ((hP s b seen hs).mpr hguard)).mp hguarded before hrest
    · intro hall
      have hPa : P (step s a) (seen ++ (observe s a).toList) := by
        have hone := hall [a] (List.cons_prefix_cons.mpr ⟨rfl, List.nil_prefix⟩)
        rw [hfirst, observed, List.append_nil] at hone
        exact hone
      refine ⟨(hP s a seen hs).mp hPa, (ih hPa).mpr fun before hbefore => ?_⟩
      rw [← hfirst]
      exact hall (a :: before) (List.cons_prefix_cons.mpr ⟨rfl, hbefore⟩)

/-- An observation leaves `K` behind, which the actions keep of which nothing is observed;
the next observation is related to it. `J` holds in every state, `Q` of every action. -/
structure Links (step : σ → α → σ) (observe : σ → α → Option ω) (Q : α → Prop) (J : σ → Prop)
    (K : ω → σ → Prop) (R : ω → ω → Prop) : Prop where
  keeps : ∀ s a, Q a → J s → J (step s a)
  leaves : ∀ s a o, Q a → J s → observe s a = some o → K o (step s a)
  unseen : ∀ s a o, Q a → J s → K o s → observe s a = none → K o (step s a)
  related : ∀ s a o o', Q a → J s → K o s → observe s a = some o' → R o o'

variable {Q : α → Prop} {J : σ → Prop} {K : ω → σ → Prop} {R : ω → ω → Prop}

theorem Links.head (h : Links step observe Q J K R) {s : σ} {actions : List α} {o o' : ω}
    (hQ : ∀ a ∈ actions, Q a) (hs : J s) (hK : K o s)
    (ho' : o' ∈ (observed step observe s actions).head?) : R o o' := by
  induction actions generalizing s with
  | nil => cases ho'
  | cons a rest ih =>
    have hQa := hQ a List.mem_cons_self
    cases hseen : observe s a with
    | none =>
      rw [observed_cons_of_none hseen] at ho'
      exact ih (fun b hb => hQ b (List.mem_cons_of_mem a hb)) (h.keeps s a hQa hs)
        (h.unseen s a o hQa hs hK hseen) ho'
    | some first =>
      rw [observed_cons_of_some hseen, List.head?_cons, Option.mem_some_iff] at ho'
      exact h.related s a o o' hQa hs hK (ho' ▸ hseen)

theorem Links.isChain (h : Links step observe Q J K R) {s : σ} {actions : List α}
    (hQ : ∀ a ∈ actions, Q a) (hs : J s) : (observed step observe s actions).IsChain R := by
  induction actions generalizing s with
  | nil => exact List.IsChain.nil
  | cons a rest ih =>
    have hQa := hQ a List.mem_cons_self
    have hrest := fun b hb => hQ b (List.mem_cons_of_mem a hb)
    have hchain := ih hrest (h.keeps s a hQa hs)
    cases hseen : observe s a with
    | none => exact (observed_cons_of_none hseen rest).symm ▸ hchain
    | some o =>
      rw [observed_cons_of_some hseen, List.isChain_cons]
      exact ⟨fun o' ho' => h.head hrest (h.keeps s a hQa hs) (h.leaves s a o hQa hs hseen) ho',
        hchain⟩

/-- Where two relations agree on neighbours, a list is a chain of one exactly when it is one
of the other. -/
theorem isChain_congr {T S : ω → ω → Prop} {l : List ω}
    (hT : l.IsChain T) (h : l.IsChain fun o o' => T o o' → (R o o' ↔ S o o')) :
    l.IsChain R ↔ l.IsChain S := by
  rw [List.isChain_iff_getElem] at hT h
  rw [List.isChain_iff_getElem, List.isChain_iff_getElem]
  exact forall₂_congr fun i hi => h i hi (hT i hi)

end Observed

end Runs
