import EdgeCache.Library.Runs

/-!
The connection to Redis that a process keeps in `redisClient`. Clients are made when there is
none, and given up when they have been quit; both wait for the library, and other calls come in
between. A client that is neither kept nor quit has been lost: that happens exactly when a quit
is answered after the client it was for has been replaced, and never while only one call at a
time is closing the connection.
-/
namespace EdgeCache

/-- A call that waits for its client, or what became of it. -/
inductive ConnectionCall where
  | connecting (client : ℕ)
  | quitting (client : ℕ)
  | returned (client : Option ℕ)
  | closed
  | thrown
  deriving DecidableEq

/-- Clients are numbered in the order they are made; `ended` are those whose quit was answered. -/
structure RedisConnection where
  redisClient : Option ℕ
  created : ℕ
  ended : List ℕ
  calls : List ConnectionCall

namespace RedisConnection

/-- A call begins, or the library answers the one that waits. -/
inductive Action where
  | getRedisClient
  | closeRedisConnection
  | settle (i : ℕ) (resolved : Bool)

def new : RedisConnection := ⟨none, 0, [], []⟩

def createRedisClient (s : RedisConnection) : RedisConnection :=
  { s with redisClient := some s.created, created := s.created + 1 }

/-- A call that has connected returns the variable as it is then. -/
def step (s : RedisConnection) : Action → RedisConnection
  | .getRedisClient =>
    match s.redisClient with
    | none =>
      { s.createRedisClient with calls := s.calls ++ [.connecting s.created] }
    | some client => { s with calls := s.calls ++ [.returned client] }
  | .closeRedisConnection =>
    match s.redisClient with
    | none => { s with calls := s.calls ++ [.closed] }
    | some client => { s with calls := s.calls ++ [.quitting client] }
  | .settle i resolved =>
    match s.calls[i]? with
    | some (.connecting _) =>
      let outcome := if resolved then .returned s.redisClient else .thrown
      { s with calls := s.calls.set i outcome }
    | some (.quitting client) =>
      if resolved then
        { s with
          redisClient := none
          ended := client :: s.ended
          calls := s.calls.set i .closed }
      else { s with calls := s.calls.set i .thrown }
    | _ => s

def reach (actions : List Action) : RedisConnection := Runs.run step new actions

/-- No client has been lost. -/
def Tidy (s : RedisConnection) : Prop :=
  ∀ client < s.created, client ∈ s.ended ∨ s.redisClient = some client

def Quits (s : RedisConnection) (i client : ℕ) : Prop := s.calls[i]? = some (.quitting client)

/-- The action does not answer a quit once the client it was for has been replaced. -/
def Timely (s : RedisConnection) (a : Action) : Prop :=
  ∀ i client, a = .settle i true → s.Quits i client →
    s.redisClient = some client ∨ s.redisClient = none

/-- The action does not begin to close the connection while another call does. -/
def ClosesApart (s : RedisConnection) (a : Action) : Prop :=
  a = .closeRedisConnection → ∀ i client, ¬ s.Quits i client

/-! ### What an action does -/

variable {s : RedisConnection} {a : Action}

theorem quits_of_append {call : ConnectionCall} (hcall : ∀ client, call ≠ .quitting client)
    {i client : ℕ} (h : (s.calls ++ [call])[i]? = some (.quitting client)) : s.Quits i client := by
  rw [List.getElem?_append] at h
  split at h
  · exact h
  · have hmem := List.mem_of_getElem? h
    exact absurd (List.mem_singleton.mp hmem).symm (hcall client)

theorem quits_of_set {outcome : ConnectionCall} (houtcome : ∀ client, outcome ≠ .quitting client)
    {i j client : ℕ} (h : (s.calls.set i outcome)[j]? = some (.quitting client)) :
    s.Quits j client ∧ j ≠ i := by
  rw [List.getElem?_set] at h
  split at h
  · split at h
    · exact absurd (Option.some.inj h) (houtcome client)
    · cases h
  · next hne => exact ⟨h, Ne.symm hne⟩

/-- The client is the same, and no call has begun to quit it. -/
structure SameClient (s s' : RedisConnection) : Prop where
  redisClient_eq : s'.redisClient = s.redisClient
  created_eq : s'.created = s.created
  ended_eq : s'.ended = s.ended
  quits : ∀ i client, s'.Quits i client → s.Quits i client

theorem SameClient.set {outcome : ConnectionCall} (houtcome : ∀ client, outcome ≠ .quitting client)
    (i : ℕ) : SameClient s { s with calls := s.calls.set i outcome } :=
  ⟨rfl, rfl, rfl, fun _ _ h => (quits_of_set houtcome h).1⟩

theorem step_settle {i client : ℕ} (h : s.Quits i client) :
    s.step (.settle i true) = { s with
      redisClient := none
      ended := client :: s.ended
      calls := s.calls.set i .closed } := by
  have hcall : s.calls[i]? = some (.quitting client) := h
  simp only [step, hcall, ↓reduceIte]

/-- An action leaves the client as it is, or makes one, or begins to quit it, or a quit is
answered. -/
theorem step_cases (s : RedisConnection) (a : Action) :
    SameClient s (step s a) ∨
    (s.redisClient = none ∧ SameClient s.createRedisClient (step s a)) ∨
    (∃ client, a = .closeRedisConnection ∧ s.redisClient = some client ∧
      step s a = { s with calls := s.calls ++ [.quitting client] }) ∨
    (∃ i client, a = .settle i true ∧ s.Quits i client ∧
      step s a = { s with
        redisClient := none
        ended := client :: s.ended
        calls := s.calls.set i .closed }) := by
  cases a with
  | getRedisClient =>
    cases hclient : s.redisClient with
    | none =>
      refine Or.inr (Or.inl ⟨rfl, ?_⟩)
      simp only [step, hclient]
      exact ⟨rfl, rfl, rfl, fun _ _ h => quits_of_append (fun _ => ConnectionCall.noConfusion) h⟩
    | some client =>
      refine Or.inl ?_
      simp only [step, hclient]
      exact ⟨hclient.symm, rfl, rfl,
        fun _ _ h => quits_of_append (fun _ => ConnectionCall.noConfusion) h⟩
  | closeRedisConnection =>
    cases hclient : s.redisClient with
    | none =>
      refine Or.inl ?_
      simp only [step, hclient]
      exact ⟨hclient.symm, rfl, rfl,
        fun _ _ h => quits_of_append (fun _ => ConnectionCall.noConfusion) h⟩
    | some client =>
      refine Or.inr (Or.inr (Or.inl ⟨client, rfl, rfl, ?_⟩))
      simp only [step, hclient]
  | settle i resolved =>
    have hsame : SameClient s s := ⟨rfl, rfl, rfl, fun _ _ h => h⟩
    rcases hcall : s.calls[i]? with _ | (_ | client | _ | _ | _)
    case some.connecting =>
      refine Or.inl ?_
      simp only [step, hcall]
      refine .set (fun client => ?_) i
      split
      · exact ConnectionCall.noConfusion
      · exact ConnectionCall.noConfusion
    case some.quitting =>
      cases resolved with
      | false =>
        refine Or.inl ?_
        simp only [step, hcall, Bool.false_eq_true, ↓reduceIte]
        exact .set (fun _ => ConnectionCall.noConfusion) i
      | true =>
        exact Or.inr (Or.inr (Or.inr ⟨i, client, rfl, hcall, step_settle hcall⟩))
    all_goals
      refine Or.inl ?_
      simp only [step, hcall]
      exact hsame

/-! ### What holds of all states -/

/-- The client that is kept is the last one made, and has not been quit. -/
structure Numbered (s : RedisConnection) : Prop where
  kept : ∀ client, s.redisClient = some client → client + 1 = s.created ∧ client ∉ s.ended
  ended : ∀ client ∈ s.ended, client < s.created
  quits : ∀ i client, s.Quits i client → client < s.created

theorem numbered_new : Numbered new where
  kept := fun _ h => (by cases h)
  ended := fun _ h => (by cases h)
  quits := fun _ _ h => (by cases h)

theorem SameClient.numbered {s' : RedisConnection} (h : SameClient s s') (hs : Numbered s) :
    Numbered s' where
  kept := by
    rw [h.redisClient_eq, h.created_eq, h.ended_eq]
    exact hs.kept
  ended := by
    rw [h.created_eq, h.ended_eq]
    exact hs.ended
  quits := by
    rw [h.created_eq]
    exact fun i client hquits => hs.quits i client (h.quits i client hquits)

theorem Numbered.createRedisClient (hs : Numbered s) : Numbered s.createRedisClient where
  kept := by
    intro client hclient
    obtain rfl : s.created = client := Option.some.inj hclient
    exact ⟨rfl, fun hmem => (hs.ended _ hmem).false⟩
  ended := fun client hmem => Nat.lt_succ_of_lt (hs.ended client hmem)
  quits := fun i client hquits => Nat.lt_succ_of_lt (hs.quits i client hquits)

theorem Numbered.step (hs : Numbered s) (a : Action) : Numbered (s.step a) := by
  rcases step_cases s a with hsame | ⟨-, hsame⟩ | ⟨client, -, hclient, heq⟩ |
    ⟨i, client, -, hquits, heq⟩
  · exact hsame.numbered hs
  · exact hsame.numbered hs.createRedisClient
  · rw [heq]
    refine ⟨hs.kept, hs.ended, fun j client' hquits => ?_⟩
    have hmem := List.mem_of_getElem? hquits
    rcases List.mem_append.mp hmem with hold | hnew
    · obtain ⟨j', hj'⟩ := List.getElem?_of_mem hold
      exact hs.quits j' client' hj'
    · obtain rfl := ConnectionCall.quitting.inj (List.mem_singleton.mp hnew)
      have hlast := (hs.kept client' hclient).1
      show client' < s.created
      omega
  · rw [heq]
    refine ⟨fun _ h => (by cases h), fun client' hmem => ?_, fun j client' h => ?_⟩
    · rcases List.mem_cons.mp hmem with rfl | hold
      · exact hs.quits i _ hquits
      · exact hs.ended client' hold
    · exact hs.quits j client' (quits_of_set (fun _ => ConnectionCall.noConfusion) h).1

/-! ### When a client is lost -/

/-- A client that is kept when the quit of another one is answered is lost. -/
theorem timely_of_tidy (hs : Numbered s) (h : Tidy (s.step a)) : Timely s a := by
  rintro i client rfl hquits
  rw [step_settle hquits] at h
  cases hclient : s.redisClient with
  | none => exact Or.inr rfl
  | some kept =>
    obtain ⟨hlast, hnot⟩ := hs.kept kept hclient
    rcases h kept (show kept < s.created by omega) with hended | hkept
    · rcases List.mem_cons.mp hended with rfl | hold
      · exact Or.inl rfl
      · exact absurd hold hnot
    · cases hkept

theorem SameClient.tidy {s' : RedisConnection} (h : SameClient s s') (hs : Tidy s) : Tidy s' := by
  intro client hclient
  rw [h.created_eq] at hclient
  rw [h.ended_eq, h.redisClient_eq]
  exact hs client hclient

theorem Tidy.createRedisClient (hs : Tidy s) (hnone : s.redisClient = none) :
    Tidy s.createRedisClient := by
  intro client hclient
  rcases Nat.lt_succ_iff_lt_or_eq.mp hclient with hold | rfl
  · rcases hs client hold with hended | hkept
    · exact Or.inl hended
    · rw [hnone] at hkept
      cases hkept
  · exact Or.inr rfl

theorem Tidy.step (hs : Tidy s) (ha : Timely s a) : Tidy (s.step a) := by
  rcases step_cases s a with hsame | ⟨hnone, hsame⟩ | ⟨client, -, -, heq⟩ |
    ⟨i, client, rfl, hquits, heq⟩
  · exact hsame.tidy hs
  · exact hsame.tidy (hs.createRedisClient hnone)
  · rw [heq]
    exact hs
  · rw [heq]
    intro client' hclient'
    rcases hs client' hclient' with hended | hkept
    · exact Or.inl (List.mem_cons_of_mem client hended)
    · -- the client that is kept is the one that has been quit
      rcases ha i client rfl hquits with hsome | hnone
      · obtain rfl := Option.some.inj (hkept.symm.trans hsome)
        exact Or.inl List.mem_cons_self
      · rw [hnone] at hkept
        cases hkept

/-- On the way of a run no client is lost exactly when no quit is answered after the client it
was for has been replaced. -/
theorem tidy_iff_timely (actions : List Action) :
    (∀ before, before <+: actions → Tidy (reach before)) ↔
      Runs.Guarded step Timely new actions := by
  have hiff : Runs.Guarded step Timely new actions ↔
      ∀ before, before <+: actions → Tidy (Runs.run step new before) :=
    Runs.guarded_iff_forall_prefix (J := Numbered) (Q := fun _ => True)
      (fun _ a _ hs => hs.step a)
      (fun _ _ _ hs htidy => ⟨fun h => timely_of_tidy hs h, fun ha => htidy.step ha⟩)
      (fun _ _ => trivial) numbered_new fun _ h => absurd h (Nat.not_lt_zero _)
  exact hiff.symm

/-! ### One call at a time that closes -/

/-- At most one call waits for a quit, and it is for the client that is kept. -/
structure Single (s : RedisConnection) : Prop where
  unique : ∀ i j client client', s.Quits i client → s.Quits j client' → i = j
  kept : ∀ i client, s.Quits i client → s.redisClient = some client

theorem single_of_none (h : ∀ i client, ¬ s.Quits i client) : Single s where
  unique := fun i _ client _ hquits => absurd hquits (h i client)
  kept := fun i client hquits => absurd hquits (h i client)

theorem Single.step (hs : Single s) (ha : ClosesApart s a) : Single (s.step a) := by
  rcases step_cases s a with hsame | ⟨hnone, hsame⟩ | ⟨client, rfl, hclient, heq⟩ |
    ⟨i, client, rfl, hquits, heq⟩
  · refine ⟨fun i j client client' h h' => ?_, fun i client h => ?_⟩
    · exact hs.unique i j client client' (hsame.quits i client h) (hsame.quits j client' h')
    · rw [hsame.redisClient_eq]
      exact hs.kept i client (hsame.quits i client h)
  · refine single_of_none fun i client h => ?_
    have hkept := hs.kept i client (hsame.quits i client h)
    rw [hnone] at hkept
    cases hkept
  · have hnew : ∀ j client', (s.step .closeRedisConnection).Quits j client' →
        j = s.calls.length ∧ client' = client := by
      intro j client' h
      rw [heq, Quits, List.getElem?_append] at h
      split at h
      · exact absurd h (ha rfl j client')
      · next hlast =>
        obtain ⟨hj, hcall⟩ := List.getElem?_eq_some_iff.mp h
        rw [List.length_singleton] at hj
        refine ⟨by omega, ?_⟩
        have hmem := List.mem_of_getElem? h
        exact ConnectionCall.quitting.inj (List.mem_singleton.mp hmem)
    refine ⟨fun i j _ _ h h' => (hnew i _ h).1.trans (hnew j _ h').1.symm, fun i client' h => ?_⟩
    rw [(hnew i client' h).2, heq]
    exact hclient
  · refine single_of_none fun j client' h => ?_
    rw [heq] at h
    obtain ⟨hold, hne⟩ := quits_of_set (fun _ => ConnectionCall.noConfusion) h
    exact hne (hs.unique j i client' client hold hquits)

/-- No client is ever lost while only one call at a time is closing the connection, whatever
other calls come in between and however the library answers. -/
theorem tidy_of_closesApart {actions : List Action}
    (hactions : Runs.Guarded step ClosesApart new actions) : Tidy (reach actions) := by
  have hstart : Tidy new ∧ Single new :=
    ⟨fun _ h => absurd h (Nat.not_lt_zero _), single_of_none fun _ _ h => (by cases h)⟩
  refine (hactions.invariant (I := fun s => Tidy s ∧ Single s) (fun s a hs ha => ?_) hstart).1
  refine ⟨hs.1.step fun i client _ hquits => ?_, hs.2.step ha⟩
  exact Or.inl (hs.2.kept i client hquits)

/-- A call that comes while the connection is being closed, and one that opens it again. -/
theorem tidy_of_closesApart_reopened :
    Tidy (reach [.getRedisClient, .settle 0 true, .closeRedisConnection, .getRedisClient,
      .settle 1 true, .getRedisClient]) := by
  have hclose : ClosesApart (reach [.getRedisClient, .settle 0 true]) .closeRedisConnection := by
    intro _ i client h
    have hmem := List.mem_of_getElem? h
    exact ConnectionCall.noConfusion (List.mem_singleton.mp hmem)
  have hother : ∀ {a : Action} {s : RedisConnection}, a ≠ .closeRedisConnection → ClosesApart s a :=
    fun hne heq => absurd heq hne
  refine tidy_of_closesApart ⟨hother ?_, hother ?_, hclose, hother ?_, hother ?_, hother ?_, trivial⟩
  all_goals exact Action.noConfusion

end RedisConnection

end EdgeCache
