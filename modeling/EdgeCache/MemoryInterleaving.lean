import EdgeCache.MemoryRefinement

/-!
The memory tier with calls that interleave. A call runs up to its next `await` and is
then suspended, with its iterator where it stands, while others go on; the set or map it
iterates over may change or be dropped in the meantime. Only `deleteByTags`,
`deleteByPattern` and `exists` suspend: every other method, and the eviction interval,
runs through. An action starts a call or resumes one, so the states after the actions of
a run are the states at the await points.
-/
namespace EdgeCache

open LinkedList (Ref Visits)

variable {V : Type}

namespace MemoryCacheRepository

/-- What a suspended call has yet to do. -/
inductive Suspended where
  | deleteByTags (keys : SetRef) (cursor : ℕ) (tag : String) (rest : List String) (count : ℕ)
  | deleteByPattern (test : String → Bool) (cursor : ℕ) (count : ℕ)
  | exists_

/-- How a segment of a call ends: at an `await`, or with the call. -/
inductive Outcome where
  | awaits (call : Suspended)
  | returns

/-- `for (const key of keys)` up to the `await` of its next deletion. -/
def deleteNext (keys : SetRef) (cursor : ℕ) (state : MemoryCacheRepository V × ℕ) :
    Option ((MemoryCacheRepository V × ℕ) × ℕ) :=
  (SlotMap.seek (fun _ => true) (setSlots keys state.1) cursor).map fun (e, cursor) =>
    (deleteCounting state e.1, cursor)

/-- The loop over the tags, from the start of one of its turns. -/
def runTags : List String → MemoryCacheRepository V × ℕ → MemoryCacheRepository V × Outcome
  | [], state => (state.1, .returns)
  | tag :: rest, state =>
    match state.1.tagIndex.get tag with
    | none => runTags rest state
    | some keys =>
      match deleteNext keys 0 state with
      | some ((s, count), cursor) => (s, .awaits (.deleteByTags keys cursor tag rest count))
      | none => runTags rest ({ state.1 with tagIndex := state.1.tagIndex.delete tag }, state.2)

/-- `for (const key of this.map.keys())` up to the `await` of its next deletion. -/
def runPattern (test : String → Bool) (cursor : ℕ) (state : MemoryCacheRepository V × ℕ) :
    MemoryCacheRepository V × Outcome :=
  match SlotMap.seek (fun e => test e.1) state.1.map.slots cursor with
  | some (e, cursor) =>
    let (s, count) := deleteCounting state e.1
    (s, .awaits (.deleteByPattern test cursor count))
  | none => (state.1, .returns)

def begin_ (regExp : RegExp) (e : Event V) (s : MemoryCacheRepository V) :
    MemoryCacheRepository V × Outcome :=
  match e.op with
  | .deleteByTags tags => runTags tags (s, 0)
  | .deleteByPattern pattern =>
    match regExp (globSource pattern) with
    | none => (s, .returns)
    | some test => runPattern test 0 (s, 0)
  | .exists_ key =>
    ((s.exists_ e.clock key).1,
      if (s.entryAt key).any fun entry => entry.isExpired (e.clock 0) then .awaits .exists_
      else .returns)
  | _ => (s.step regExp e, .returns)

def resume (call : Suspended) (s : MemoryCacheRepository V) : MemoryCacheRepository V × Outcome :=
  match call with
  | .deleteByTags keys cursor tag rest count =>
    match deleteNext keys cursor (s, count) with
    | some ((s, count), cursor) => (s, .awaits (.deleteByTags keys cursor tag rest count))
    | none => runTags rest ({ s with tagIndex := s.tagIndex.delete tag }, count)
  | .deleteByPattern test cursor count => runPattern test cursor (s, count)
  | .exists_ => (s, .returns)

/-- The repository and the calls suspended on it. -/
structure System (V : Type) where
  repo : MemoryCacheRepository V
  calls : List Suspended

inductive Action (V : Type) where
  | start (e : Event V)
  | resume (call : ℕ)

namespace System

/-- What is scheduled next is up to the event loop; resuming a call that is not there
does nothing. -/
def perform (regExp : RegExp) (sys : System V) : Action V → System V
  | .start e =>
    match sys.repo.begin_ regExp e with
    | (s, .awaits call) => ⟨s, sys.calls ++ [call]⟩
    | (s, .returns) => ⟨s, sys.calls⟩
  | .resume i =>
    match sys.calls[i]? with
    | none => sys
    | some call =>
      match sys.repo.resume call with
      | (s, .awaits call) => ⟨s, sys.calls.set i call⟩
      | (s, .returns) => ⟨s, sys.calls.eraseIdx i⟩

def reach (regExp : RegExp) (config : Config) (actions : List (Action V)) : System V :=
  Runs.run (perform regExp) ⟨new config, []⟩ actions

end System

/-! ### The representation invariant -/

/-- What the pointers and the map look like to a reader of the fields. -/
structure Represents (maxEntries : ℕ) (s : MemoryCacheRepository V) : Prop where
  linked : ∃ l : List Ref, l.Nodup ∧ Visits s.nextOf s.head l ∧ l.getLast? = s.tail ∧
    Visits s.prevOf s.tail l.reverse ∧ ∀ r, r ∈ l ↔ ∃ key, s.map.get key = some r
  prev_head : ∀ r, s.head = some r → s.prevOf r = none
  next_tail : ∀ r, s.tail = some r → s.nextOf r = none
  keyed : ∀ key r, s.map.get key = some r → ∃ n, s.nodes[r]? = some n ∧ n.key = key
  head_iff_tail : s.head = none ↔ s.tail = none
  head_iff_map : s.head = none ↔ s.map.keys = []
  bounded : s.map.size ≤ maxEntries

theorem Shows.represents {config : Config} {s : MemoryCacheRepository V} {v : MemoryView V}
    (h : Shows config s v) : Represents config.cacheMaxMemoryEntries s := by
  obtain ⟨l, hl⟩ := h.list
  have hempty : l = [] ↔ s.map.keys = [] := by
    rw [← List.length_eq_zero_iff, ← List.length_eq_zero_iff, SlotMap.length_keys, hl.size_eq,
      hl.shown.length_eq, AList.keys, List.keys, List.length_map]
  constructor
  · exact ⟨l, hl.spelled.nodup, hl.spelled.visits_next, hl.spelled.tail_eq.symm,
      hl.spelled.visits_prev, hl.stored⟩
  · exact fun r hr => hl.spelled.prev_head hr
  · exact fun r hr => hl.spelled.next_tail hr
  · intro key r hkey
    obtain ⟨entry, hitem⟩ := hl.keyed key r hkey
    obtain ⟨n, hn, hnkey, -⟩ := item_eq_some s r _ hitem
    exact ⟨n, hn, hnkey⟩
  · exact hl.spelled.head_eq_none_iff.trans hl.spelled.tail_eq_none_iff.symm
  · exact hl.spelled.head_eq_none_iff.trans hempty
  · rw [h.size_eq]
    exact h.bounded

/-! ### Segments of calls -/

namespace System

/-- The tag that resuming a call drops because the set it walks has no more keys. -/
def droppedTag (sys : System V) : Action V → Option String
  | .start _ => none
  | .resume i =>
    match sys.calls[i]? with
    | some (.deleteByTags keys cursor tag _ count) =>
      if (deleteNext keys cursor (sys.repo, count)).isNone then some tag else none
    | _ => none

end System

def Sound (config : Config) (s : MemoryCacheRepository V) : Prop := ∃ v, Shows config s v

def ShowsWith (config : Config) (P : MemoryView V → Prop) (s : MemoryCacheRepository V) : Prop :=
  ∃ v, Shows config s v ∧ P v

/-- The property is kept by whole calls, and by forgetting a tag that may be forgotten, as
one without keys always may. -/
structure Segmental (config : Config) (regExp : RegExp) (P : MemoryView V → Prop)
    (Droppable : MemoryView V → String → Prop) : Prop where
  step : ∀ {v v' e}, MemoryView.Step config regExp v e v' → P v → P v'
  droppable : ∀ {v tag}, P v → v.index tag = some [] → Droppable v tag
  drop : ∀ {v tag}, P v → Droppable v tag → P ⟨v.recency, Function.update v.index tag none⟩

namespace Segmental

variable {config : Config} {regExp : RegExp} {P : MemoryView V → Prop}
  {Droppable : MemoryView V → String → Prop}

theorem deleteCounting (hP : Segmental config regExp P Droppable)
    {state : MemoryCacheRepository V × ℕ} (h : ShowsWith config P state.1) (key : String) :
    ShowsWith config P (MemoryCacheRepository.deleteCounting state key).1 := by
  obtain ⟨v, hv, hPv⟩ := h
  exact ⟨_, (hv.deleteCounting key).1, hP.step (.delete v key fun _ => ⟨1, by decide⟩) hPv⟩

theorem dropTag (hP : Segmental config regExp P Droppable) {s : MemoryCacheRepository V}
    {v : MemoryView V} (hv : Shows config s v) (hPv : P v) {tag : String}
    (hdrop : Droppable v tag) :
    ShowsWith config P { s with tagIndex := s.tagIndex.delete tag } := by
  obtain ⟨l, hl⟩ := hv.list
  exact ⟨⟨v.recency, Function.update v.index tag none⟩, {
    list := ⟨l, hl.frame rfl rfl rfl rfl⟩
    index := hv.index.dropTag tag
    bounded := hv.bounded
    maxEntries_eq := hv.maxEntries_eq
    defaultTtl_eq := hv.defaultTtl_eq
  }, hP.drop hPv hdrop⟩

theorem deleteNext (hP : Segmental config regExp P Droppable)
    {state state' : MemoryCacheRepository V × ℕ} {keys : SetRef} {cursor cursor' : ℕ}
    (h : ShowsWith config P state.1)
    (hnext : MemoryCacheRepository.deleteNext keys cursor state = some (state', cursor')) :
    ShowsWith config P state'.1 := by
  obtain ⟨p, -, hp⟩ := Option.map_eq_some_iff.mp hnext
  have hstate : MemoryCacheRepository.deleteCounting state p.1.1 = state' := congrArg Prod.fst hp
  exact hstate ▸ hP.deleteCounting h p.1.1

theorem runTags (hP : Segmental config regExp P Droppable) (tags : List String)
    (state : MemoryCacheRepository V × ℕ) (h : ShowsWith config P state.1) :
    ShowsWith config P (runTags tags state).1 := by
  induction tags generalizing state with
  | nil => exact h
  | cons tag rest ih =>
    unfold MemoryCacheRepository.runTags
    split
    · exact ih state h
    · next keys hget =>
      split
      · next hnext => exact hP.deleteNext h hnext
      · next hnext =>
        obtain ⟨v, hv, hPv⟩ := h
        obtain ⟨set, hset, hindex⟩ := hv.index.set_of_get hget
        have hslots : setSlots keys state.1 = set.slots := by simp [setSlots, hset]
        have hseek := Option.map_eq_none_iff.mp hnext
        rw [hslots] at hseek
        rw [set.keys_eq_nil_of_seek hseek] at hindex
        exact ih _ (hP.dropTag hv hPv (hP.droppable hPv hindex))

theorem runPattern (hP : Segmental config regExp P Droppable) (test : String → Bool)
    (cursor : ℕ) (state : MemoryCacheRepository V × ℕ) (h : ShowsWith config P state.1) :
    ShowsWith config P (runPattern test cursor state).1 := by
  unfold MemoryCacheRepository.runPattern
  split
  · exact hP.deleteCounting h _
  · exact h

theorem wholeStep (hP : Segmental config regExp P Droppable) {s : MemoryCacheRepository V}
    (h : ShowsWith config P s) (e : Event V) : ShowsWith config P (s.step regExp e) := by
  rw [step_eq_run]
  have hsingle : ∀ e' ∈ e.expand, e'.expand = [e'] := fun e' he' => Event.expand_of_mem he'
  generalize e.expand = events at hsingle
  induction events generalizing s with
  | nil => exact h
  | cons e' rest ih =>
    obtain ⟨v, hv, hPv⟩ := h
    obtain ⟨v', hstep, hv'⟩ := hv.step regExp (hsingle e' List.mem_cons_self)
    exact ih ⟨v', hv', hP.step hstep hPv⟩ fun e'' he'' =>
      hsingle e'' (List.mem_cons_of_mem e' he'')

theorem begin_ (hP : Segmental config regExp P Droppable) (e : Event V)
    {s : MemoryCacheRepository V} (h : ShowsWith config P s) :
    ShowsWith config P (s.begin_ regExp e).1 := by
  have hstep := hP.wholeStep h e
  obtain ⟨op, clock⟩ := e
  unfold MemoryCacheRepository.begin_
  cases op with
  | deleteByTags tags => exact hP.runTags tags (s, 0) h
  | deleteByPattern pattern =>
    simp only
    split
    · exact h
    · exact hP.runPattern _ 0 (s, 0) h
  | _ => exact hstep

/-- No segment of a call takes the property away, if a tag that a resumed loop drops may be
dropped. -/
theorem perform (hP : Segmental config regExp P Droppable) (sys : System V) (a : Action V)
    (h : ShowsWith config P sys.repo)
    (hdrop : ∀ v, Shows config sys.repo v → ∀ tag ∈ sys.droppedTag a, Droppable v tag) :
    ShowsWith config P (sys.perform regExp a).repo := by
  unfold System.perform
  cases a with
  | start e =>
    have hbegin := hP.begin_ e h
    cases hseg : sys.repo.begin_ regExp e with
    | mk s outcome =>
      rw [hseg] at hbegin
      cases outcome <;> simpa only [hseg] using hbegin
  | resume i =>
    cases hcall : sys.calls[i]? with
    | none => simpa only [hcall] using h
    | some call =>
      have hresume : ShowsWith config P (sys.repo.resume call).1 := by
        unfold MemoryCacheRepository.resume
        cases call with
        | deleteByTags keys cursor tag rest count =>
          simp only
          split
          · next hnext =>
            have hstart : ShowsWith config P (sys.repo, count).1 := h
            exact hP.deleteNext hstart hnext
          · next hnext =>
            obtain ⟨v, hv, hPv⟩ := h
            refine hP.runTags rest _ (hP.dropTag hv hPv (hdrop v hv tag ?_))
            simp [System.droppedTag, hcall, hnext]
        | deleteByPattern test cursor count => exact hP.runPattern test cursor (sys.repo, count) h
        | exists_ => exact h
      cases hseg : sys.repo.resume call with
      | mk s outcome =>
        rw [hseg] at hresume
        cases outcome <;> simpa only [hcall, hseg] using hresume

end Segmental

/-- No segment of a call breaks the list, the map or the index. -/
theorem Sound.perform {config : Config} (regExp : RegExp) (sys : System V) (a : Action V)
    (h : Sound config sys.repo) : Sound config (sys.perform regExp a).repo := by
  have hP : Segmental config regExp (fun _ : MemoryView V => True) (fun _ _ => True) :=
    ⟨fun _ _ => trivial, fun _ _ => trivial, fun _ _ => trivial⟩
  obtain ⟨v, hv⟩ := h
  obtain ⟨v', hv', -⟩ := hP.perform sys a ⟨v, hv, trivial⟩ fun _ _ _ _ => trivial
  exact ⟨v', hv'⟩

theorem sound_new (config : Config) : Sound config (new config : MemoryCacheRepository V) :=
  ⟨_, Shows.new config⟩

theorem sound_of_reach (regExp : RegExp) (config : Config) (actions : List (Action V)) :
    Sound config (System.reach regExp config actions).repo :=
  Runs.run_invariant (I := fun sys : System V => Sound config sys.repo)
    (fun sys a h => Sound.perform regExp sys a h) (sound_new config) actions

/-- However calls and sweeps interleave, at every await point the pointers spell out the
stored nodes in both directions and the map is in step with them. -/
theorem represents_of_reach (regExp : RegExp) (config : Config) (actions : List (Action V)) :
    Represents config.cacheMaxMemoryEntries (System.reach regExp config actions).repo := by
  obtain ⟨v, hv⟩ := sound_of_reach regExp config actions
  exact hv.represents

/-! ### Calls that nothing interrupts -/

section Uninterrupted

variable (regExp : RegExp)

def Outcome.calls : Outcome → List Suspended
  | .awaits call => [call]
  | .returns => []

/-- Resumed again and again with nothing in between, the segment leads to `final`. -/
def Completes (segment : MemoryCacheRepository V × Outcome) (final : MemoryCacheRepository V) :
    Prop :=
  ∃ n, Runs.run (System.perform regExp) ⟨segment.1, segment.2.calls⟩
    (List.replicate n (.resume 0)) = ⟨final, []⟩

variable {regExp}

theorem completes_returns (s : MemoryCacheRepository V) : Completes regExp (s, .returns) s :=
  ⟨0, rfl⟩

theorem Completes.await {call : Suspended} {s final : MemoryCacheRepository V}
    (h : Completes regExp (s.resume call) final) : Completes regExp (s, .awaits call) final := by
  obtain ⟨n, hn⟩ := h
  refine ⟨n + 1, ?_⟩
  have hperform : System.perform regExp ⟨s, [call]⟩ (.resume 0) =
      ⟨(s.resume call).1, (s.resume call).2.calls⟩ := by
    unfold System.perform
    cases hseg : s.resume call with
    | mk s' outcome => cases outcome <;> simp [hseg, Outcome.calls]
  rw [List.replicate_succ, Runs.run_cons]
  exact hperform ▸ hn

theorem completes_runPattern (test : String → Bool) (cursor : ℕ)
    (state : MemoryCacheRepository V × ℕ) :
    Completes regExp (runPattern test cursor state)
      (SlotMap.visitFrom (fun state => state.1.map.slots)
        (fun _ state e => if test e.1 then deleteCounting state e.1 else state) cursor state).1 := by
  have hlength : ∀ (state : MemoryCacheRepository V × ℕ) (key : String),
      (deleteCounting state key).1.map.slots.length = state.1.map.slots.length := by
    intro state key
    rcases map_delete state.1 key with hmap | hmap <;> simp [deleteCounting, hmap]
  rw [SlotMap.visitFrom_seek (p := fun e => test e.1) (fun state e he => by simp [he])
    (fun state e => by split <;> simp [hlength]), runPattern]
  cases hseek : SlotMap.seek (fun e => test e.1) state.1.map.slots cursor with
  | none => exact completes_returns state.1
  | some p =>
    obtain ⟨e, cursor'⟩ := p
    obtain ⟨htest, hlt, hle⟩ := SlotMap.seek_spec _ _ hseek
    simp only [htest, ↓reduceIte]
    have hkept := hlength state e.1
    exact (completes_runPattern test cursor' (deleteCounting state e.1)).await
  termination_by state.1.map.slots.length - cursor

private def afterKeys (keys : SetRef) (cursor : ℕ) (tag : String)
    (state : MemoryCacheRepository V × ℕ) : MemoryCacheRepository V × ℕ :=
  let (s, count) := SlotMap.visitFrom (fun state => setSlots keys state.1)
    (fun _ state e => deleteCounting state e.1) cursor state
  ({ s with tagIndex := s.tagIndex.delete tag }, count)

private theorem completes_keys (keys : SetRef) (cursor : ℕ) (tag : String) (rest : List String)
    (state : MemoryCacheRepository V × ℕ) {final : MemoryCacheRepository V}
    (hrest : Completes regExp (runTags rest (afterKeys keys cursor tag state)) final) :
    Completes regExp (state.1.resume (.deleteByTags keys cursor tag rest state.2)) final := by
  have hslots : ∀ (state : MemoryCacheRepository V × ℕ) (key : String),
      setSlots keys (deleteCounting state key).1 = setSlots keys state.1 :=
    fun state key => setSlots_eq (sameIndex_delete state.1 key) keys
  rw [afterKeys, SlotMap.visitFrom_seek (p := fun _ => true) (fun state e he => by simp at he)
    (fun state e => congrArg List.length (hslots state e.1))] at hrest
  simp only [resume, deleteNext]
  cases hseek : SlotMap.seek (fun _ => true) (setSlots keys state.1) cursor with
  | none =>
    simp only [hseek] at hrest
    exact hrest
  | some p =>
    obtain ⟨e, cursor'⟩ := p
    obtain ⟨-, hlt, hle⟩ := SlotMap.seek_spec _ _ hseek
    simp only [hseek] at hrest
    have hkept := congrArg List.length (hslots state e.1)
    exact (completes_keys keys cursor' tag rest (deleteCounting state e.1) hrest).await
  termination_by (setSlots keys state.1).length - cursor

theorem completes_runTags (tags : List String) (state : MemoryCacheRepository V × ℕ) :
    Completes regExp (runTags tags state) (tags.foldl deleteByTag state).1 := by
  induction tags generalizing state with
  | nil => exact completes_returns state.1
  | cons tag rest ih =>
    rw [List.foldl_cons, runTags, deleteByTag]
    cases hget : state.1.tagIndex.get tag with
    | none => exact ih state
    | some keys =>
      refine completes_keys keys 0 tag rest state ?_
      simp only [SlotMap.visit_eq_visitFrom]
      exact ih (afterKeys keys 0 tag state)

variable (regExp)

/-- With nothing in between, the segments of a call add up to the method. -/
theorem completes_step (e : Event V) (s : MemoryCacheRepository V) :
    Completes regExp (s.begin_ regExp e) (s.step regExp e) := by
  have hplain : Completes regExp (s.step regExp e, .returns) (s.step regExp e) :=
    completes_returns (s.step regExp e)
  obtain ⟨op, clock⟩ := e
  unfold begin_
  cases op with
  | deleteByTags tags => exact completes_runTags tags (s, 0)
  | deleteByPattern pattern =>
    simp only [step, deleteByPattern]
    cases regExp (globSource pattern) with
    | none => exact completes_returns s
    | some test =>
      simp only [SlotMap.visit_eq_visitFrom]
      exact completes_runPattern test 0 (s, 0)
  | exists_ key =>
    simp only
    split
    · exact Completes.await hplain
    · exact hplain
  | _ => exact hplain

/-- Calls made one after another are one way to interleave them. -/
theorem exists_reach_eq (config : Config) (events : List (Event V)) :
    ∃ actions, System.reach regExp config actions = ⟨reach regExp config events, []⟩ := by
  refine Runs.run_invariant (I := fun s : MemoryCacheRepository V =>
    ∃ actions, System.reach regExp config actions = ⟨s, []⟩) (fun s e h => ?_) ⟨[], rfl⟩ events
  obtain ⟨actions, hactions⟩ := h
  obtain ⟨n, hn⟩ := completes_step regExp e s
  refine ⟨actions ++ .start e :: List.replicate n (.resume 0), ?_⟩
  have hstart : System.perform regExp ⟨s, []⟩ (.start e) =
      ⟨(s.begin_ regExp e).1, (s.begin_ regExp e).2.calls⟩ := by
    unfold System.perform
    cases hseg : s.begin_ regExp e with
    | mk s' outcome => cases outcome <;> simp [hseg, Outcome.calls]
  rw [System.reach] at hactions ⊢
  rw [Runs.run_append, hactions, Runs.run_cons, hstart, hn]

end Uninterrupted

/-- The states that calls and sweeps lead to, however they interleave. -/
def Reached (regExp : RegExp) (config : Config) (s : MemoryCacheRepository V) : Prop :=
  ∃ actions, (System.reach regExp config actions).repo = s

theorem reached_reach (regExp : RegExp) (config : Config) (events : List (Event V)) :
    Reached regExp config (reach regExp config events) := by
  obtain ⟨actions, hactions⟩ := exists_reach_eq regExp config events
  exact ⟨actions, congrArg System.repo hactions⟩

end MemoryCacheRepository

end EdgeCache
