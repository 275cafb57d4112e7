import Mathlib.Data.Nat.Notation

/-!
Programs that talk to a server. A program issues commands of a type `C`, gets a reply
of a type `R` or a failure for each, reads a clock, and ends with a result or by
throwing. It is run against any server, given as a step on the server's state, under
faults that lose a command or only its reply. `Meets` is what a program promises when
the replies and the readings are as expected, and `run_meets` the rule that puts such
a promise together with an invariant of the server.
-/
namespace Programs

inductive Program (C R T α : Type) where
  | ret (a : α)
  | throw
  | now (k : T → Program C R T α)
  | call (c : C) (k : Option R → Program C R T α)

/-- A command is carried out and answered, lost, or carried out with its reply lost. -/
inductive Fault where
  | none
  | lost
  | late
  deriving DecidableEq

variable {C R T α β D : Type}

namespace Program

def map (f : α → β) : Program C R T α → Program C R T β
  | ret a => ret (f a)
  | throw => throw
  | now k => now fun t => (k t).map f
  | call c k => call c fun r => (k r).map f

/-- The same program for another server; a reply that cannot be told is none. -/
def embed {C' R' T' : Type} (command : C → C') (reply : R' → Option R) (time : T' → T) :
    Program C R T α → Program C' R' T' α
  | ret a => ret a
  | throw => throw
  | now k => now fun t => (k (time t)).embed command reply time
  | call c k => call (command c) fun r => (k (r.bind reply)).embed command reply time

/-- Issue the commands one after the other, whatever becomes of them, and go on. -/
def each : List C → Program C R T α → Program C R T α
  | [], p => p
  | c :: rest, p => call c fun _ => each rest p

theorem each_append (commands commands' : List C) (p : Program C R T α) :
    each (commands ++ commands') p = each commands (each commands' p) := by
  induction commands with
  | nil => rfl
  | cons c rest ih =>
    rw [List.cons_append, each, each, ih]

def pending : Program C R T α → Option C
  | call c _ => some c
  | _ => none

/-- What a program promises: to issue only commands in `issue` and to return only
results in `post`, as long as it reads times in `read` and is replied to in `reply`. -/
def Meets (read : T → Prop) (reply : C → R → Prop) (issue : C → Prop) (post : α → Prop) :
    Program C R T α → Prop
  | ret a => post a
  | throw => True
  | now k => ∀ t, read t → (k t).Meets read reply issue post
  | call c k => issue c ∧
      ∀ r, (∀ a, r = some a → reply c a) → (k r).Meets read reply issue post

/-- Whatever it is answered, the program issues only commands in `issue`. -/
def OnlyCalls (issue : C → Prop) (p : Program C R T α) : Prop :=
  p.Meets (fun _ => True) (fun _ _ => True) issue (fun _ => True)

variable {read : T → Prop} {reply : C → R → Prop} {issue : C → Prop} {post : α → Prop}

theorem Meets.mono {read' : T → Prop} {reply' : C → R → Prop} {issue' : C → Prop}
    {post' : α → Prop} {p : Program C R T α} (hp : p.Meets read reply issue post)
    (hread : ∀ t, read' t → read t) (hreply : ∀ c a, reply' c a → reply c a)
    (hissue : ∀ c, issue c → issue' c) (hpost : ∀ a, post a → post' a) :
    p.Meets read' reply' issue' post' := by
  induction p with
  | ret a => exact hpost a hp
  | throw => trivial
  | now k ih => exact fun t ht => ih t (hp t (hread t ht))
  | call c k ih =>
    exact ⟨hissue c hp.1, fun r hr => ih r (hp.2 r fun a ha => hreply c a (hr a ha))⟩

theorem OnlyCalls.meets {p : Program C R T α} (hp : p.OnlyCalls issue) :
    p.Meets read reply issue fun _ => True :=
  Meets.mono hp (fun _ _ => trivial) (fun _ _ _ => trivial) (fun _ h => h) fun _ h => h

theorem Meets.each {commands : List C} {p : Program C R T α}
    (hcommands : ∀ c ∈ commands, issue c) (hp : p.Meets read reply issue post) :
    (Program.each commands p).Meets read reply issue post := by
  induction commands with
  | nil => exact hp
  | cons c rest ih =>
    refine ⟨hcommands c List.mem_cons_self, fun _ _ => ?_⟩
    exact ih fun c' hc' => hcommands c' (List.mem_cons_of_mem c hc')

theorem OnlyCalls.map (f : α → β) {p : Program C R T α} (h : p.OnlyCalls issue) :
    (p.map f).OnlyCalls issue := by
  induction p with
  | ret a => trivial
  | throw => trivial
  | now k ih => exact fun t ht => ih t (h t ht)
  | call c k ih => exact ⟨h.1, fun r hr => ih r (h.2 r hr)⟩

theorem OnlyCalls.embed {C' R' T' : Type} {issue' : C' → Prop} {command : C → C'}
    (hissue : ∀ c, issue c → issue' (command c)) (reply : R' → Option R) (time : T' → T)
    {p : Program C R T α} (h : p.OnlyCalls issue) :
    (p.embed command reply time).OnlyCalls issue' := by
  induction p with
  | ret a => trivial
  | throw => trivial
  | now k ih => exact fun t _ => ih (time t) (h (time t) trivial)
  | call c k ih => exact ⟨hissue c h.1, fun r _ => ih _ (h.2 _ fun _ _ => trivial)⟩

/-- What the program ends with when every command fails, nothing if it throws. -/
def Unanswered (post : Option α → Prop) : Program C R T α → Prop
  | ret a => post (some a)
  | throw => post none
  | now k => ∀ t, (k t).Unanswered post
  | call _ k => (k none).Unanswered post

theorem unanswered_of_forall {post : Option α → Prop} (hpost : ∀ result, post result)
    (p : Program C R T α) : p.Unanswered post := by
  induction p with
  | ret a => exact hpost (some a)
  | throw => exact hpost none
  | now k ih => exact ih
  | call c k ih => exact ih none

theorem Unanswered.mono {post post' : Option α → Prop} {p : Program C R T α}
    (hp : p.Unanswered post) (h : ∀ result, post result → post' result) : p.Unanswered post' := by
  induction p with
  | ret a => exact h _ hp
  | throw => exact h _ hp
  | now k ih => exact fun t => ih t (hp t)
  | call c k ih => exact ih none hp

end Program

/-- One command under a fault. -/
def attempt (exec : T → D → C → D × Option R) (fault : Fault) (t : T) (d : D) (c : C) :
    D × Option R :=
  match fault with
  | .none => exec t d c
  | .lost => (d, none)
  | .late => ((exec t d c).1, none)

/-- One effect of a program: a command, or a reading of the clock. -/
def advance (exec : T → D → C → D × Option R) (fault : Fault) (t : T) (d : D) :
    Program C R T α → D × Program C R T α
  | .now k => (d, k t)
  | .call c k =>
    let (d, r) := attempt exec fault t d c
    (d, k r)
  | p => (d, p)

/-- Run a program; effect `i` happens at `clock i` and under `fault i`. -/
def run (exec : T → D → C → D × Option R) (clock : ℕ → T) (fault : ℕ → Fault) :
    ℕ → Program C R T α → D → D × Option α
  | _, .ret a, d => (d, some a)
  | _, .throw, d => (d, none)
  | i, .now k, d => run exec clock fault (i + 1) (k (clock i)) d
  | i, .call c k, d =>
    let (d, r) := attempt exec (fault i) (clock i) d c
    run exec clock fault (i + 1) (k r) d

/-- A command with the moment and the state it is sent in. -/
structure Sent (C T D : Type) where
  moment : T
  state : D
  command : C

def sent (exec : T → D → C → D × Option R) (clock : ℕ → T) (fault : ℕ → Fault) :
    ℕ → Program C R T α → D → List (Sent C T D)
  | i, .now k, d => sent exec clock fault (i + 1) (k (clock i)) d
  | i, .call c k, d =>
    let (d', r) := attempt exec (fault i) (clock i) d c
    ⟨clock i, d, c⟩ :: sent exec clock fault (i + 1) (k r) d'
  | _, _, _ => []

section Outage

variable {exec : T → D → C → D × Option R} {post : Option α → Prop}

theorem attempt_of_ne_none {fault : Fault} (hfault : fault ≠ .none) (t : T) (d : D) (c : C) :
    (attempt exec fault t d c).2 = none := by
  cases fault with
  | none => exact absurd rfl hfault
  | lost => rfl
  | late => rfl

/-- A program none of whose commands is answered ends as it does without a server. -/
theorem run_unanswered {p : Program C R T α} (hp : p.Unanswered post) {fault : ℕ → Fault}
    (hfault : ∀ i, fault i ≠ .none) (clock : ℕ → T) (i : ℕ) (d : D) :
    post (run exec clock fault i p d).2 := by
  induction p generalizing i d with
  | ret a => exact hp
  | throw => exact hp
  | now k ih => exact ih (clock i) (hp (clock i)) (i + 1) d
  | call c k ih =>
    simp only [run, attempt_of_ne_none (hfault i)]
    exact ih none hp (i + 1) _

theorem advance_unanswered {p : Program C R T α} (hp : p.Unanswered post) {fault : Fault}
    (hfault : fault ≠ .none) (t : T) (d : D) : (advance exec fault t d p).2.Unanswered post := by
  cases p with
  | ret a => exact hp
  | throw => exact hp
  | now k => exact hp t
  | call c k =>
    simp only [advance, attempt_of_ne_none hfault]
    exact hp

end Outage

theorem attempt_fst_of_ne_lost {fault : Fault} (hfault : fault ≠ .lost)
    (exec : T → D → C → D × Option R) (t : T) (d : D) (c : C) :
    (attempt exec fault t d c).1 = (exec t d c).1 := by
  cases fault with
  | none => rfl
  | lost => exact absurd rfl hfault
  | late => rfl

/-- No command is lost, and no reply. -/
def faultless : ℕ → Fault := fun _ => .none

/-- Every command of a run meets `P` in the state it is sent in. -/
def Along (exec : T → D → C → D × Option R) (clock : ℕ → T) (fault : ℕ → Fault)
    (P : T → D → C → Prop) : ℕ → Program C R T α → D → Prop
  | i, .now k, d => Along exec clock fault P (i + 1) (k (clock i)) d
  | i, .call c k, d => P (clock i) d c ∧
      let (d, r) := attempt exec (fault i) (clock i) d c
      Along exec clock fault P (i + 1) (k r) d
  | _, _, _ => True

theorem Along.mono {exec : T → D → C → D × Option R} {clock : ℕ → T} {fault : ℕ → Fault}
    {P Q : T → D → C → Prop} (h : ∀ t d c, P t d c → Q t d c) {i : ℕ} {p : Program C R T α} {d : D}
    (hp : Along exec clock fault P i p d) : Along exec clock fault Q i p d := by
  induction p generalizing i d with
  | ret a => trivial
  | throw => trivial
  | now k ih => exact ih (clock i) hp
  | call c k ih => exact ⟨h _ d c hp.1, ih _ hp.2⟩

theorem Along.and {exec : T → D → C → D × Option R} {clock : ℕ → T} {fault : ℕ → Fault}
    {P Q : T → D → C → Prop} {i : ℕ} {p : Program C R T α} {d : D}
    (hp : Along exec clock fault P i p d) (hq : Along exec clock fault Q i p d) :
    Along exec clock fault (fun t d c => P t d c ∧ Q t d c) i p d := by
  induction p generalizing i d with
  | ret a => trivial
  | throw => trivial
  | now k ih => exact ih (clock i) hp hq
  | call c k ih => exact ⟨⟨hp.1, hq.1⟩, ih _ hp.2 hq.2⟩

instance {exec : T → D → C → D × Option R} {clock : ℕ → T} {fault : ℕ → Fault}
    {P : T → D → C → Prop} [∀ t d c, Decidable (P t d c)] :
    ∀ (i : ℕ) (p : Program C R T α) (d : D), Decidable (Along exec clock fault P i p d)
  | _, .ret _, _ => isTrue trivial
  | _, .throw, _ => isTrue trivial
  | i, .now k, d => instDecidableAlong (i + 1) (k (clock i)) d
  | i, .call c k, d =>
    have : Decidable (Along exec clock fault P (i + 1)
        (k (attempt exec (fault i) (clock i) d c).2) (attempt exec (fault i) (clock i) d c).1) :=
      instDecidableAlong _ _ _
    inferInstanceAs (Decidable (P (clock i) d c ∧ Along exec clock fault P (i + 1)
      (k (attempt exec (fault i) (clock i) d c).2) (attempt exec (fault i) (clock i) d c).1))

/-- The run issues the command, and the server carries it out. -/
def CarriesOut (exec : T → D → C → D × Option R) (clock : ℕ → T) (fault : ℕ → Fault) (c : C) :
    ℕ → Program C R T α → D → Prop
  | i, .now k, d => CarriesOut exec clock fault c (i + 1) (k (clock i)) d
  | i, .call c' k, d => c' = c ∧ fault i ≠ .lost ∧ (exec (clock i) d c').2.isSome ∨
      let (d, r) := attempt exec (fault i) (clock i) d c'
      CarriesOut exec clock fault c (i + 1) (k r) d
  | _, _, _ => False

theorem not_carriesOut {exec : T → D → C → D × Option R} {clock : ℕ → T} {fault : ℕ → Fault} {c : C}
    {i : ℕ} {p : Program C R T α} (hp : p.OnlyCalls (· ≠ c)) {d : D} :
    ¬ CarriesOut exec clock fault c i p d := by
  induction p generalizing i d with
  | ret a => exact id
  | throw => exact id
  | now k ih => exact ih (clock i) (hp (clock i) trivial)
  | call c' k ih =>
    intro h
    rcases h with ⟨heq, -⟩ | hrest
    · exact hp.1 heq
    · exact ih _ (hp.2 _ fun _ _ => trivial) hrest

/-- A pipeline ends with its result whatever becomes of its commands. -/
theorem run_each_snd {exec : T → D → C → D × Option R} {clock : ℕ → T} {fault : ℕ → Fault}
    (commands : List C) (a : α) (i : ℕ) (d : D) :
    (run exec clock fault i (Program.each commands (.ret a)) d).2 = some a := by
  induction commands generalizing i d with
  | nil => rfl
  | cons c rest ih => exact ih _ _

/-- At one time and without faults a pipeline carries out its commands one after the other. -/
theorem run_each_fst (exec : T → D → C → D × Option R) (t : T) (commands : List C) (a : α) (i : ℕ)
    (d : D) : (run exec (fun _ => t) faultless i (Program.each commands (.ret a)) d).1 =
      commands.foldl (fun d c => (exec t d c).1) d := by
  induction commands generalizing i d with
  | nil => rfl
  | cons c rest ih => exact ih _ _

theorem run_map_fst (f : α → β) (exec : T → D → C → D × Option R) (clock : ℕ → T)
    (fault : ℕ → Fault) (i : ℕ) (p : Program C R T α) (d : D) :
    (run exec clock fault i (p.map f) d).1 = (run exec clock fault i p d).1 := by
  induction p generalizing i d with
  | ret a => rfl
  | throw => rfl
  | now k ih => exact ih (clock i) (i + 1) d
  | call c k ih => exact ih _ (i + 1) _

theorem run_map_snd (f : α → β) (exec : T → D → C → D × Option R) (clock : ℕ → T)
    (fault : ℕ → Fault) (i : ℕ) (p : Program C R T α) (d : D) :
    (run exec clock fault i (p.map f) d).2 = (run exec clock fault i p d).2.map f := by
  induction p generalizing i d with
  | ret a => rfl
  | throw => rfl
  | now k ih => exact ih (clock i) (i + 1) d
  | call c k ih => exact ih _ (i + 1) _

theorem along_map {f : α → β} {exec : T → D → C → D × Option R} {clock : ℕ → T}
    {fault : ℕ → Fault} {P : T → D → C → Prop} {i : ℕ} {p : Program C R T α} {d : D} :
    Along exec clock fault P i (p.map f) d ↔ Along exec clock fault P i p d := by
  induction p generalizing i d with
  | ret a => exact Iff.rfl
  | throw => exact Iff.rfl
  | now k ih => exact ih (clock i)
  | call c k ih => exact and_congr_right fun _ => ih _

section Views

variable {E : Type} {exec : T → D → C → D × Option R} {exec' : T → E → C → E × Option R}
  {view : D → E}

theorem attempt_view (h : ∀ t d c, view (exec t d c).1 = (exec' t (view d) c).1 ∧
      (exec t d c).2 = (exec' t (view d) c).2) (fault : Fault) (t : T) (d : D) (c : C) :
    view (attempt exec fault t d c).1 = (attempt exec' fault t (view d) c).1 ∧
      (attempt exec fault t d c).2 = (attempt exec' fault t (view d) c).2 := by
  cases fault with
  | none => exact h t d c
  | lost => exact ⟨rfl, rfl⟩
  | late => exact ⟨(h t d c).1, rfl⟩

/-- A program does to a server what it does to a view that determines its replies. -/
theorem run_view (h : ∀ t d c, view (exec t d c).1 = (exec' t (view d) c).1 ∧
      (exec t d c).2 = (exec' t (view d) c).2) (clock : ℕ → T) (fault : ℕ → Fault) (i : ℕ)
    (p : Program C R T α) (d : D) :
    view (run exec clock fault i p d).1 = (run exec' clock fault i p (view d)).1 ∧
      (run exec clock fault i p d).2 = (run exec' clock fault i p (view d)).2 := by
  induction p generalizing i d with
  | ret a => exact ⟨rfl, rfl⟩
  | throw => exact ⟨rfl, rfl⟩
  | now k ih => exact ih (clock i) (i + 1) d
  | call c k ih =>
    obtain ⟨hview, hreply⟩ := attempt_view h (fault i) (clock i) d c
    simp only [run]
    rw [← hview, ← hreply]
    exact ih _ (i + 1) _

theorem along_view (h : ∀ t d c, view (exec t d c).1 = (exec' t (view d) c).1 ∧
      (exec t d c).2 = (exec' t (view d) c).2) {clock : ℕ → T} {fault : ℕ → Fault}
    {P : T → E → C → Prop} {i : ℕ} {p : Program C R T α} {d : D} :
    Along exec clock fault (fun t d c => P t (view d) c) i p d ↔
      Along exec' clock fault P i p (view d) := by
  induction p generalizing i d with
  | ret a => exact Iff.rfl
  | throw => exact Iff.rfl
  | now k ih => exact ih (clock i)
  | call c k ih =>
    obtain ⟨hview, hreply⟩ := attempt_view h (fault i) (clock i) d c
    simp only [Along]
    rw [← hview, ← hreply, ih]

theorem carriesOut_view (h : ∀ t d c, view (exec t d c).1 = (exec' t (view d) c).1 ∧
      (exec t d c).2 = (exec' t (view d) c).2) {clock : ℕ → T} {fault : ℕ → Fault} {c : C} {i : ℕ}
    {p : Program C R T α} {d : D} :
    CarriesOut exec clock fault c i p d ↔ CarriesOut exec' clock fault c i p (view d) := by
  induction p generalizing i d with
  | ret a => exact Iff.rfl
  | throw => exact Iff.rfl
  | now k ih => exact ih (clock i)
  | call c' k ih =>
    obtain ⟨hview, hreply⟩ := attempt_view h (fault i) (clock i) d c'
    simp only [CarriesOut]
    rw [← hview, ← hreply, ih, (h (clock i) d c').2]

end Views

/-- The server keeps `I` and replies as expected to the commands in `issue`. -/
def Serves (exec : T → D → C → D × Option R) (read : T → Prop) (reply : C → R → Prop)
    (issue : C → Prop) (I : D → Prop) : Prop :=
  ∀ t d c, read t → I d → issue c →
    I (exec t d c).1 ∧ ∀ a, (exec t d c).2 = some a → reply c a

section Rules

variable {exec : T → D → C → D × Option R} {read : T → Prop} {reply : C → R → Prop}
  {issue : C → Prop} {post : α → Prop} {I : D → Prop}

theorem Serves.mono {read' : T → Prop} (h : Serves exec read reply issue I)
    (hread : ∀ t, read' t → read t) : Serves exec read' reply issue I :=
  fun t d c ht => h t d c (hread t ht)

theorem Serves.attempt (h : Serves exec read reply issue I) (fault : Fault) {t : T} {d : D} {c : C}
    (ht : read t) (hd : I d) (hc : issue c) :
    I (attempt exec fault t d c).1 ∧
      ∀ a, (Programs.attempt exec fault t d c).2 = some a → reply c a := by
  obtain ⟨hkept, hreply⟩ := h t d c ht hd hc
  cases fault with
  | none => exact ⟨hkept, hreply⟩
  | lost => exact ⟨hd, fun a ha => by simp [Programs.attempt] at ha⟩
  | late => exact ⟨hkept, fun a ha => by simp [Programs.attempt] at ha⟩

/-- A program that meets its promise, run on a server that serves it under whatever
faults, keeps the invariant and returns what it promised. -/
theorem run_meets (hserves : Serves exec read reply issue I) (fault : ℕ → Fault) {clock : ℕ → T}
    (hclock : ∀ i, read (clock i)) {p : Program C R T α} (hp : p.Meets read reply issue post)
    (i : ℕ) {d : D} (hd : I d) :
    I (run exec clock fault i p d).1 ∧ ∀ a, (run exec clock fault i p d).2 = some a → post a := by
  induction p generalizing i d with
  | ret a =>
    refine ⟨hd, fun b hb => ?_⟩
    obtain rfl : a = b := Option.some.inj hb
    exact hp
  | throw => exact ⟨hd, fun a ha => by simp [run] at ha⟩
  | now k ih => exact ih (clock i) (hp (clock i) (hclock i)) (i + 1) hd
  | call c k ih =>
    obtain ⟨hkept, hreply⟩ := hserves.attempt (fault i) (hclock i) hd hp.1
    exact ih _ (hp.2 _ hreply) (i + 1) hkept

/-- One effect of a program keeps the invariant, and what the program promises. -/
theorem advance_meets (hserves : Serves exec read reply issue I) (fault : Fault) {t : T}
    (ht : read t) {p : Program C R T α} (hp : p.Meets read reply issue post) {d : D} (hd : I d) :
    I (advance exec fault t d p).1 ∧ (advance exec fault t d p).2.Meets read reply issue post := by
  cases p with
  | ret a => exact ⟨hd, hp⟩
  | throw => exact ⟨hd, trivial⟩
  | now k => exact ⟨hd, hp t ht⟩
  | call c k =>
    obtain ⟨hkept, hreply⟩ := hserves.attempt fault ht hd hp.1
    exact ⟨hkept, hp.2 _ hreply⟩

end Rules

end Programs
