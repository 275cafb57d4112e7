import EdgeCache.Library.Runs

/-!
A machine that drives another one: each of its actions makes at most one step of the driven
machine, or several, and its state shows that of the driven one. A run then shows the run of
the steps it makes, so that what is known of the runs of the driven machine is known of it.
-/
namespace Runs

variable {σ τ α ω : Type*} {step : σ → α → σ} {step' : τ → ω → τ} {observe : σ → α → Option ω}
  {project : σ → τ}

/-- The driven machine takes the step that is observed, or none. -/
def Drives (step : σ → α → σ) (step' : τ → ω → τ) (observe : σ → α → Option ω)
    (project : σ → τ) : Prop :=
  ∀ s a, project (step s a) = (observe s a).elim (project s) (step' (project s))

theorem observed_append (s : σ) (before after : List α) :
    observed step observe s (before ++ after) =
      observed step observe s before ++ observed step observe (run step s before) after := by
  induction before generalizing s with
  | nil => rfl
  | cons a rest ih =>
    rw [List.cons_append, observed, observed, ih, List.append_assoc, run_cons]

/-- Every step that is observed is made by an action of the run. -/
theorem exists_of_observed_eq {s : σ} {actions : List α} {before after : List ω} {o : ω}
    (h : observed step observe s actions = before ++ o :: after) :
    ∃ earlier a later, actions = earlier ++ a :: later ∧
      observed step observe s earlier = before ∧ observe (run step s earlier) a = some o ∧
      observed step observe (run step s (earlier ++ [a])) later = after := by
  induction actions generalizing s before with
  | nil => exact absurd h.symm (List.append_ne_nil_of_right_ne_nil _ (List.cons_ne_nil _ _))
  | cons a rest ih =>
    cases hseen : observe s a with
    | none =>
      rw [observed_cons_of_none hseen] at h
      obtain ⟨earlier, b, later, rfl, hbefore, hb, hafter⟩ := ih h
      exact ⟨a :: earlier, b, later, rfl, (observed_cons_of_none hseen _).trans hbefore, hb, hafter⟩
    | some first =>
      rw [observed_cons_of_some hseen] at h
      cases before with
      | nil =>
        obtain ⟨rfl, hafter⟩ := List.cons.inj h
        exact ⟨[], a, rest, rfl, rfl, hseen, hafter⟩
      | cons first' before =>
        obtain ⟨rfl, hrest⟩ := List.cons.inj h
        obtain ⟨earlier, b, later, rfl, hbefore, hb, hafter⟩ := ih hrest
        refine ⟨a :: earlier, b, later, rfl, ?_, hb, hafter⟩
        rw [observed_cons_of_some hseen, hbefore]

namespace Drives

variable (h : Drives step step' observe project)
include h

theorem run (s : σ) (actions : List α) :
    project (Runs.run step s actions) =
      Runs.run step' (project s) (observed step observe s actions) := by
  induction actions generalizing s with
  | nil => rfl
  | cons a rest ih =>
    rw [run_cons, ih, h s a]
    cases hseen : observe s a with
    | none => rw [observed_cons_of_none hseen, Option.elim_none]
    | some o => rw [observed_cons_of_some hseen, Option.elim_some, run_cons]

/-- A guard of the driven machine is one on the steps that are observed. -/
theorem guarded_iff {guard : τ → ω → Prop} (s : σ) (actions : List α) :
    Guarded step' guard (project s) (observed step observe s actions) ↔
      Guarded step (fun s a => ∀ o, observe s a = some o → guard (project s) o) s actions := by
  induction actions generalizing s with
  | nil => exact Iff.rfl
  | cons a rest ih =>
    rw [Guarded, ← ih, h s a]
    cases hseen : observe s a with
    | none =>
      rw [observed_cons_of_none hseen, Option.elim_none]
      exact ⟨fun hrest => ⟨fun o ho => (by cases ho), hrest⟩, And.right⟩
    | some o =>
      rw [observed_cons_of_some hseen, Option.elim_some, Guarded]
      refine and_congr_left fun _ => ⟨fun ho o' ho' => ?_, fun hall => hall o rfl⟩
      exact Option.some.inj ho' ▸ ho

end Drives

/-- Actions that the driven machine takes, too, each as a step of its own or not at all. -/
theorem run_filterMap {f : α → Option ω} {Q : α → Prop}
    (h : ∀ s a, Q a → project (step s a) = (f a).elim (project s) (step' (project s)))
    {actions : List α} (hQ : ∀ a ∈ actions, Q a) (s : σ) :
    project (run step s actions) = run step' (project s) (actions.filterMap f) := by
  induction actions generalizing s with
  | nil => rfl
  | cons a rest ih =>
    rw [run_cons, ih (fun b hb => hQ b (List.mem_cons_of_mem a hb)),
      h s a (hQ a List.mem_cons_self), List.filterMap_cons]
    cases f a with
    | none => rfl
    | some o => rfl

/-! ### Several steps at a time -/

section Emits

variable {emit : σ → α → List ω}

/-- The driven machine takes the steps that the action makes, in their order. -/
def Emits (step : σ → α → σ) (step' : τ → ω → τ) (emit : σ → α → List ω) (project : σ → τ) : Prop :=
  ∀ s a, project (step s a) = Runs.run step' (project s) (emit s a)

/-- The steps that the actions of a run make. -/
def emitted (step : σ → α → σ) (emit : σ → α → List ω) : σ → List α → List ω
  | _, [] => []
  | s, a :: rest => emit s a ++ emitted step emit (step s a) rest

theorem emitted_append (s : σ) (before after : List α) :
    emitted step emit s (before ++ after) =
      emitted step emit s before ++ emitted step emit (Runs.run step s before) after := by
  induction before generalizing s with
  | nil => rfl
  | cons a rest ih =>
    rw [List.cons_append, emitted, emitted, ih, List.append_assoc, run_cons]

theorem emitted_concat (s : σ) (before : List α) (a : α) :
    emitted step emit s (before ++ [a]) =
      emitted step emit s before ++ emit (Runs.run step s before) a := by
  rw [emitted_append, emitted, emitted, List.append_nil]

theorem exists_of_mem_emitted {s : σ} {actions : List α} {o : ω}
    (h : o ∈ emitted step emit s actions) : ∃ s' a, o ∈ emit s' a := by
  induction actions generalizing s with
  | nil => exact absurd h List.not_mem_nil
  | cons a rest ih =>
    rcases List.mem_append.mp h with hfirst | hrest
    · exact ⟨s, a, hfirst⟩
    · exact ih hrest

theorem Emits.run (h : Emits step step' emit project) (s : σ) (actions : List α) :
    project (Runs.run step s actions) =
      Runs.run step' (project s) (emitted step emit s actions) := by
  induction actions generalizing s with
  | nil => rfl
  | cons a rest ih => rw [run_cons, ih, h s a, emitted, run_append]

end Emits

end Runs
