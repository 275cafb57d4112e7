import EdgeCache.Library.Programs

/-!
Programs in flight on one server. Any number of calls are under way, each somewhere in its
program; the server carries out one command at a time, of whichever call, while its clock
goes on. A step changes the state of the server by the one command it carries out, and the
program of the one call that the command is part of. What a program will do whatever it is
answered is owed until it has been sent.
-/
namespace Programs

variable {C R T D Q α : Type}

namespace Program

def ended : Program C R T α → Bool
  | ret _ => true
  | throw => true
  | _ => false

/-- The program issues the command sooner or later, whatever it is answered. -/
def Will (command : C) : Program C R T α → Prop
  | ret _ => False
  | throw => False
  | now k => ∀ t, (k t).Will command
  | call c k => c = command ∨ ∀ r, (k r).Will command

theorem will_each {commands : List C} {c : C} (hc : c ∈ commands) (p : Program C R T α) :
    (each commands p).Will c := by
  induction commands with
  | nil => cases hc
  | cons c' rest ih =>
    rcases List.mem_cons.mp hc with rfl | hrest
    · exact Or.inl rfl
    · exact Or.inr fun _ => ih hrest

theorem not_will_of_ended {p : Program C R T α} (hp : p.ended = true) (c : C) : ¬ p.Will c := by
  cases p with
  | ret a => exact id
  | throw => exact id
  | now k => cases hp
  | call c' k => cases hp

end Program

/-- Calls are numbered in the order they start. -/
structure InFlight (C R T D Q : Type) where
  state : D
  now : T
  calls : List (Q × Program C R T Unit)

namespace InFlight

/-- A call starts, a call in flight goes on by one effect, or time passes. -/
inductive Action (T Q : Type) where
  | start (request : Q)
  | advance (i : ℕ) (fault : Fault)
  | tick (t : T)

/-- The command that is sent in a step. -/
def pending (s : InFlight C R T D Q) : Action T Q → Option C
  | .advance i _ => s.calls[i]?.bind fun call => call.2.pending
  | _ => none

/-- The command that the server carries out in a step. -/
def executed (s : InFlight C R T D Q) : Action T Q → Option C
  | .advance i fault => if fault = .lost then none else s.pending (.advance i fault)
  | _ => none

def idle (state : D) (now : T) : InFlight C R T D Q := ⟨state, now, []⟩

def Settled (s : InFlight C R T D Q) : Prop := ∀ call ∈ s.calls, call.2.ended = true

def Owes (s : InFlight C R T D Q) (c : C) : Prop := ∃ call ∈ s.calls, call.2.Will c

theorem Settled.not_owes {s : InFlight C R T D Q} (h : s.Settled) (c : C) : ¬ s.Owes c :=
  fun ⟨call, hcall, hwill⟩ => Program.not_will_of_ended (h call hcall) c hwill

variable [Max T] (exec : T → D → C → D × Option R) (program : Q → Program C R T Unit)

def step (s : InFlight C R T D Q) : Action T Q → InFlight C R T D Q
  | .start request => { s with calls := s.calls ++ [(request, program request)] }
  | .advance i fault =>
    match s.calls[i]? with
    | none => s
    | some (request, p) =>
      let (state, p) := Programs.advance exec fault s.now s.state p
      { s with state := state, calls := s.calls.set i (request, p) }
  | .tick t => { s with now := max s.now t }

variable {exec program} {s : InFlight C R T D Q} {a : Action T Q}

omit [Max T] in
theorem exists_call_of_pending {c : C} (h : s.pending a = some c) :
    ∃ call ∈ s.calls, ∃ k, call.2 = .call c k := by
  cases a with
  | advance i fault =>
    obtain ⟨⟨request, p⟩, hcall, hc⟩ := Option.bind_eq_some_iff.mp h
    refine ⟨(request, p), List.mem_of_getElem? hcall, ?_⟩
    cases p with
    | call c' k =>
      obtain rfl : c' = c := Option.some.inj hc
      exact ⟨k, rfl⟩
    | _ => cases hc
  | _ => cases h

theorem state_step (a : Action T Q) :
    (step exec program s a).state =
      (s.executed a).elim s.state fun c => (exec s.now s.state c).1 := by
  cases a with
  | start request => rfl
  | tick t => rfl
  | advance i fault =>
    cases hcall : s.calls[i]? with
    | none => cases fault <;> simp [step, executed, pending, hcall]
    | some call =>
      obtain ⟨request, p⟩ := call
      cases p with
      | call c k =>
        cases fault <;>
          simp [step, executed, pending, hcall, Programs.advance, attempt, Program.pending]
      | _ =>
        cases fault <;> simp [step, executed, pending, hcall, Programs.advance, Program.pending]

/-- What is so of all calls is so after a step, if it is of a new call, and of one that goes
on. -/
theorem forall_calls_step {P : Program C R T Unit → Prop}
    (hstart : ∀ request, a = .start request → P (program request))
    (hnow : ∀ k, P (.now k) → P (k s.now))
    (hcall : ∀ i fault c k, a = .advance i fault → s.pending a = some c → P (.call c k) →
      P (k (attempt exec fault s.now s.state c).2))
    (h : ∀ call ∈ s.calls, P call.2) : ∀ call ∈ (step exec program s a).calls, P call.2 := by
  intro call hmem
  cases a with
  | start request =>
    rcases List.mem_append.mp hmem with hold | hnew
    · exact h call hold
    · rw [List.mem_singleton.mp hnew]
      exact hstart request rfl
  | tick t => exact h call hmem
  | advance i fault =>
    cases hi : s.calls[i]? with
    | none =>
      simp only [step, hi] at hmem
      exact h call hmem
    | some old =>
      obtain ⟨request, p⟩ := old
      have hp : P p := h _ (List.mem_of_getElem? hi)
      simp only [step, hi] at hmem
      rcases List.mem_or_eq_of_mem_set hmem with hold | rfl
      · exact h call hold
      · cases p with
        | ret a => exact hp
        | throw => exact hp
        | now k => exact hnow k hp
        | call c k =>
          exact hcall i fault c k rfl (by simp [pending, hi, Program.pending]) hp

theorem Owes.step {c : C} (h : s.Owes c) (hsent : s.pending a ≠ some c) :
    (InFlight.step exec program s a).Owes c := by
  obtain ⟨call, hmem, hwill⟩ := h
  cases a with
  | start request => exact ⟨call, List.mem_append_left _ hmem, hwill⟩
  | tick t => exact ⟨call, hmem, hwill⟩
  | advance i fault =>
    cases hi : s.calls[i]? with
    | none =>
      simp only [InFlight.step, hi]
      exact ⟨call, hmem, hwill⟩
    | some old =>
      obtain ⟨request, p⟩ := old
      obtain ⟨j, hj⟩ := List.mem_iff_getElem?.mp hmem
      simp only [InFlight.step, hi]
      have hi' : i < s.calls.length := (List.getElem?_eq_some_iff.mp hi).1
      by_cases hij : i = j
      · subst hij
        obtain rfl : call = (request, p) := Option.some.inj (hj.symm.trans hi)
        refine ⟨_, List.mem_iff_getElem?.mpr ⟨i, List.getElem?_set_self hi'⟩, ?_⟩
        cases p with
        | ret a => exact hwill
        | throw => exact hwill
        | now k => exact hwill s.now
        | call c' k =>
          rcases hwill with rfl | hrest
          · exact absurd (by simp [pending, hi, Program.pending]) hsent
          · exact hrest _
      · exact ⟨call, List.mem_iff_getElem?.mpr ⟨j, (List.getElem?_set_ne hij).trans hj⟩, hwill⟩

end InFlight

end Programs
