import EdgeCache.LayeredCoherence

/-!
Calls of one `LayeredCacheRepository` in flight together. A call does its work on the memory
tier when it starts, and waits for Redis; a read that finds something there waits once
more, and only then writes it to the memory tier. What it writes may have been replaced or
deleted meanwhile. The ledger of a key says which write started last, whether it had the
key to itself, and which reads went to Redis when no write was under way; as long as the
other reads promote nothing else, the tiers end up with the last write.
-/
namespace EdgeCache

variable {V : Type}

/-! ### Calls in flight -/

/-- What a call is waiting to do. -/
inductive Stage (V : Type) where
  | getL2 (key : String)
  | promote (key : String) (entry : CacheEntry V)
  | setL2 (key : String) (value : V) (options : SetOptions)
  | deleteL2 (key : String)
  | done

instance : ∀ stage : Stage V, Decidable (stage = .done)
  | .getL2 _ => isFalse fun h => by cases h
  | .promote _ _ => isFalse fun h => by cases h
  | .setL2 _ _ _ => isFalse fun h => by cases h
  | .deleteL2 _ => isFalse fun h => by cases h
  | .done => isTrue rfl

def Stage.afterL2 (key : String) : Option (Option (CacheEntry V)) → Stage V
  | some (some entry) => .promote key entry
  | _ => .done

/-- Calls are numbered in the order they start. -/
structure LayeredSystem (V : Type) where
  tiers : Tiers V
  now : Time
  calls : List (Stage V)

namespace LayeredSystem

inductive Action (V : Type) where
  | get (key : String)
  | set (key : String) (value : V) (options : SetOptions)
  | delete (key : String)
  | advance (i : ℕ)
  | sweep
  | tick (t : Time)

/-- A call goes on; a call of the second tier is one step. -/
def resume (client : Client) (config : Config) (now : Time) (s : Tiers V) :
    Stage V → Tiers V × Stage V
  | .getL2 key =>
    let (redis, found) := LayeredCacheRepository.callL2 client (.good now)
      (RedisCacheRepository.get key) s.redis
    (⟨s.l1, redis⟩, .afterL2 key found)
  | .promote key entry =>
    (⟨LayeredCacheRepository.promote (fun _ => now) key entry s.l1, s.redis⟩, .done)
  | .setL2 key value options =>
    (⟨s.l1, (LayeredCacheRepository.callL2 client (.good now)
      (RedisCacheRepository.set config key value options) s.redis).1⟩, .done)
  | .deleteL2 key =>
    (⟨s.l1, (LayeredCacheRepository.callL2 client (.good now)
      (RedisCacheRepository.delete key) s.redis).1⟩, .done)
  | .done => (s, .done)

def step (client : Client) (config : Config) (s : LayeredSystem V) : Action V → LayeredSystem V
  | .get key =>
    let (l1, found) := s.tiers.l1.get (fun _ => s.now) key
    { s with
      tiers := ⟨l1, s.tiers.redis⟩
      calls := s.calls ++ [if found.isSome then .done else .getL2 key] }
  | .set key value options =>
    { s with
      tiers := ⟨s.tiers.l1.set (fun _ => s.now) key value options, s.tiers.redis⟩
      calls := s.calls ++ [.setL2 key value options] }
  | .delete key =>
    { s with
      tiers := ⟨(s.tiers.l1.delete key).1, s.tiers.redis⟩
      calls := s.calls ++ [.deleteL2 key] }
  | .advance i =>
    match s.calls[i]? with
    | none => s
    | some stage =>
      let (tiers, stage) := resume client config s.now s.tiers stage
      { s with tiers := tiers, calls := s.calls.set i stage }
  | .sweep => { s with tiers := ⟨s.tiers.l1.sweep fun _ => s.now, s.tiers.redis⟩ }
  | .tick t => { s with now := max s.now t }

end LayeredSystem

/-! ### The ledger of a key -/

/-- The call is about to write the key in Redis. -/
def Stage.Writes (key : String) : Stage V → Prop
  | .setL2 key' _ _ => key' = key
  | .deleteL2 key' => key' = key
  | _ => False

instance (key : String) : ∀ stage : Stage V, Decidable (stage.Writes key)
  | .setL2 key' _ _ => inferInstanceAs (Decidable (key' = key))
  | .deleteL2 key' => inferInstanceAs (Decidable (key' = key))
  | .getL2 _ => isFalse id
  | .promote _ _ => isFalse id
  | .done => isFalse id

/-- No set or delete of the key is under way. -/
def Quiet (key : String) (calls : List (Stage V)) : Prop := ∀ stage ∈ calls, ¬ stage.Writes key

instance (key : String) (calls : List (Stage V)) : Decidable (Quiet key calls) :=
  inferInstanceAs (Decidable (∀ stage ∈ calls, ¬ stage.Writes key))

/-- The write of the key that started last, none if it is a delete; its call; whether it
started with no other write of the key under way; and the calls that have read the key in
Redis with none under way and none started since. -/
structure Ledger (V : Type) where
  last : Option (V × SetOptions × Time)
  call : ℕ
  alone : Bool
  fresh : ℕ → Bool

namespace Ledger

def start : Ledger V := ⟨none, 0, false, fun _ => false⟩

def next (key : String) (s : LayeredSystem V) (ledger : Ledger V) :
    LayeredSystem.Action V → Ledger V
  | .set key' value options =>
    if key' = key then
      ⟨some (value, options, s.now), s.calls.length, Quiet key s.calls, fun _ => false⟩
    else ledger
  | .delete key' =>
    if key' = key then ⟨none, s.calls.length, Quiet key s.calls, fun _ => false⟩ else ledger
  | .advance i =>
    match s.calls[i]? with
    | some (.getL2 _) => { ledger with fresh := Function.update ledger.fresh i (Quiet key s.calls) }
    | _ => ledger
  | _ => ledger

end Ledger

/-- A system and the ledger of one of its keys. -/
structure Audited (V : Type) where
  system : LayeredSystem V
  ledger : Ledger V

namespace Audited

def step (client : Client) (config : Config) (key : String) (a : Audited V)
    (action : LayeredSystem.Action V) : Audited V :=
  ⟨a.system.step client config action, a.ledger.next key a.system action⟩

/-- While the last write had the key to itself: a read that was not fresh promotes nothing
but the value last written, and a set of the key ends on a date. No set is conditional, or
has a tag whose set is kept under the key. -/
def Undisturbed (config : Config) (key : String) (a : Audited V) :
    LayeredSystem.Action V → Prop
  | .set _ _ options =>
    options.ifNotExists = false ∧ ∀ tag ∈ options.tagList, tagKey tag ≠ key
  | .advance i =>
    match a.system.calls[i]? with
    | some (.promote key' entry) => key' = key → a.ledger.alone = true →
        a.ledger.fresh i = false → a.ledger.last.map (·.1) = some entry.value
    | some (.setL2 key' _ options) => key' = key → a.ledger.alone = true →
        ∃ n, Lasting config options a.system.now n
    | _ => True
  | _ => True

end Audited

/-! ### One call alone -/

theorem LayeredSystem.step_alone (client : Client) (config : Config) (now : Time)
    (s : Tiers V) (op : LayeredSystem.Action V) (e : LayeredOp V)
    (hop : (∃ key, op = .get key ∧ e = .get key) ∨
      (∃ key value options, op = .set key value options ∧ e = .set key value options) ∨
      ∃ key, op = .delete key ∧ e = .delete key) :
    (Runs.run (step client config) ⟨s, now, []⟩ [op, .advance 0, .advance 0]).tiers =
      LayeredCacheRepository.step client config s ⟨e, .good now⟩ := by
  rcases hop with ⟨key, rfl, rfl⟩ | ⟨key, value, options, rfl, rfl⟩ | ⟨key, rfl, rfl⟩
  · simp only [Runs.run_cons, Runs.run_nil, step, LayeredCacheRepository.step,
      LayeredCacheRepository.get, List.nil_append]
    cases hget : s.l1.get (fun _ => now) key with
    | mk l1 found =>
      have hget' : s.l1.get (Conditions.good now).clock key = (l1, found) := hget
      have havailable : (Conditions.good now).redisAvailable = true := rfl
      cases found with
      | some entry => simp [hget', resume]
      | none =>
        cases hcall : LayeredCacheRepository.callL2 client (.good now)
            (RedisCacheRepository.get key) s.redis with
        | mk redis result =>
          rcases result with _ | _ | entry
          · simp [hget', havailable, resume, hcall, Stage.afterL2]
          · simp [hget', havailable, resume, hcall, Stage.afterL2]
          · simp [hget', havailable, resume, hcall, Stage.afterL2]
            rfl
  · simp [step, resume, LayeredCacheRepository.step, LayeredCacheRepository.set, Conditions.good]
    rfl
  · simp [step, resume, LayeredCacheRepository.step, LayeredCacheRepository.delete,
      Conditions.good]

/-! ### What the tiers keep of the last write -/

def Postponed : Option (V × SetOptions × Time) → Option (V × SetOptions × Time) → Prop
  | none, last => last = none
  | some (value, options, start), last =>
    ∃ start', start ≤ start' ∧ last = some (value, options, start')

theorem Postponed.value_eq {last last' : Option (V × SetOptions × Time)}
    (h : Postponed last last') : last'.map (·.1) = last.map (·.1) := by
  cases last with
  | none =>
    rw [show last' = none from h]
  | some set =>
    obtain ⟨start', -, rfl⟩ := h
    rfl

/-- Redis has the last write, wherever it stands now. -/
def RedisHasLast (client : Client) (config : Config) (key : String) (redis : Database V)
    (last : Option (V × SetOptions × Time)) : Prop :=
  ∃ last', RedisReflects client config key redis last' ∧ Postponed last last'

/-- The call of the last write, before it goes to Redis. -/
def Ledger.stage (key : String) (ledger : Ledger V) : Stage V :=
  match ledger.last with
  | some (value, options, _) => .setL2 key value options
  | none => .deleteL2 key

/-- While the last write had the key to itself, it is the only one that may be under way,
the memory tier has what it wrote or nothing, and so does Redis once it is over; a fresh
read is about to promote what it wrote. -/
structure Settled (client : Client) (config : Config) (key : String) (a : Audited V) :
    Prop where
  l1 : HoldsAt config key (fun entry => a.ledger.alone = true →
    a.ledger.last.map (·.1) = some entry.value) a.system.tiers.l1
  started : ∀ value options start, a.ledger.last = some (value, options, start) →
    start ≤ a.system.now
  tags : ∀ stage ∈ a.system.calls, ∀ key' value options, stage = .setL2 key' value options →
    options.ifNotExists = false ∧ ∀ tag ∈ options.tagList, tagKey tag ≠ key
  writer : a.ledger.alone = true → ∀ i stage, a.system.calls[i]? = some stage →
    stage.Writes key → i = a.ledger.call ∧ stage = a.ledger.stage key
  redis : a.ledger.alone = true → Quiet key a.system.calls →
    RedisHasLast client config key a.system.tiers.redis a.ledger.last
  fresh : a.ledger.alone = true → ∀ i entry, a.system.calls[i]? = some (.promote key entry) →
    a.ledger.fresh i = true → a.ledger.last.map (·.1) = some entry.value

namespace RedisHasLast

variable {client : Client} {config : Config} {key : String} {redis : Database V}
  {last : Option (V × SetOptions × Time)}

theorem frame {α : Type} (h : RedisHasLast client config key redis last)
    {p : RedisProgram V α} (hp : p.OnlyCalls fun c => ¬ Redis.Writes key c) (now : Time) :
    RedisHasLast client config key
      (LayeredCacheRepository.callL2 client (.good now) p redis).1 last := by
  obtain ⟨last', hreflects, hpostponed⟩ := h
  exact ⟨last', hreflects.frame hp now, hpostponed⟩

/-- A read leaves the last write in Redis, and finds nothing else under the key. -/
theorem get (h : RedisHasLast client config key redis last) (now : Time) (key' : String) :
    RedisHasLast client config key (LayeredCacheRepository.callL2 client (.good now)
      (RedisCacheRepository.get key') redis).1 last ∧
    ∀ entry, (LayeredCacheRepository.callL2 client (.good now)
      (RedisCacheRepository.get key') redis).2 = some (some entry) → key' = key →
      last.map (·.1) = some entry.value := by
  by_cases hk : key' = key
  · subst hk
    obtain ⟨last', hreflects, hpostponed⟩ := h
    refine ⟨⟨last', (hreflects.get now).1, hpostponed⟩, fun entry hentry _ => ?_⟩
    rw [← hpostponed.value_eq]
    have hfound := (callL2_at (.good now) (get_meets_at (portable_value config key'
      (last'.map (·.1))) key' now) hreflects.documentAt).2
    exact (hfound _ hentry rfl entry rfl).1
  · exact ⟨h.frame (RedisCacheRepository.get_onlyCalls_of_ne hk) now, fun _ _ heq => absurd heq hk⟩

end RedisHasLast

theorem quiet_of_set {key : String} {calls : List (Stage V)} {i : ℕ} {stage stage' : Stage V}
    (hi : calls[i]? = some stage) (hwrites : ¬ stage.Writes key)
    (h : Quiet key (calls.set i stage')) : Quiet key calls := by
  intro other hmem
  obtain ⟨j, hj⟩ := List.mem_iff_getElem?.mp hmem
  by_cases hij : i = j
  · subst hij
    rw [hi, Option.some.injEq] at hj
    exact hj ▸ hwrites
  · rw [← List.getElem?_set_ne hij] at hj
    exact h other (List.mem_of_getElem? hj)

namespace Settled

variable {client : Client} {config : Config} {key : String} {s : LayeredSystem V}
  {ledger : Ledger V}

theorem start (client : Client) (config : Config) (key : String) (redis : Database V)
    (now : Time) :
    Settled client config key (⟨⟨⟨.new config, redis⟩, now, []⟩, .start⟩ : Audited V) where
  l1 := HoldsAt.new config key _
  started := fun _ _ _ h => by cases h
  tags := fun _ h => by cases h
  writer := fun h => by cases h
  redis := fun h => by cases h
  fresh := fun h => by cases h

/-! ### Calls that start -/

theorem begin (h : Settled client config key ⟨s, ledger⟩) {l1 : MemoryCacheRepository V}
    {stage : Stage V}
    (hl1 : HoldsAt config key (fun entry => ledger.alone = true →
      ledger.last.map (·.1) = some entry.value) l1)
    (hwrites : ¬ stage.Writes key) (hpromote : ∀ entry, stage ≠ .promote key entry)
    (htags : ∀ key' value options, stage = .setL2 key' value options →
      options.ifNotExists = false ∧ ∀ tag ∈ options.tagList, tagKey tag ≠ key) :
    Settled client config key
      ⟨{ s with tiers := ⟨l1, s.tiers.redis⟩, calls := s.calls ++ [stage] }, ledger⟩ := by
  have hcalls : ∀ {i : ℕ} {stage'}, (s.calls ++ [stage])[i]? = some stage' →
      s.calls[i]? = some stage' ∨ stage' = stage := by
    intro i stage' hi
    rw [List.getElem?_append] at hi
    split at hi
    · exact Or.inl hi
    · exact Or.inr (List.mem_singleton.mp (List.mem_of_getElem? hi))
  refine ⟨hl1, h.started, fun stage' hmem => ?_, fun halone i stage' hi hw => ?_,
    fun halone hquiet => ?_, fun halone i entry hi hfresh => ?_⟩
  · rcases List.mem_append.mp hmem with hold | hnew
    · exact h.tags stage' hold
    · simp only [List.mem_singleton] at hnew
      subst hnew
      exact htags
  · rcases hcalls hi with hold | rfl
    · exact h.writer halone i stage' hold hw
    · exact absurd hw hwrites
  · exact h.redis halone fun stage' hmem => hquiet stage' (List.mem_append_left _ hmem)
  · rcases hcalls hi with hold | hnew
    · exact h.fresh halone i entry hold hfresh
    · exact absurd hnew.symm (hpromote entry)

theorem write (h : Settled client config key ⟨s, ledger⟩) {l1 : MemoryCacheRepository V}
    {last : Option (V × SetOptions × Time)} {stage : Stage V}
    (hl1 : HoldsAt config key (fun entry => last.map (·.1) = some entry.value) l1)
    (hstarted : ∀ value options start, last = some (value, options, start) → start ≤ s.now)
    (hstage : stage = (⟨last, s.calls.length, Quiet key s.calls, fun _ => false⟩ :
      Ledger V).stage key)
    (htags : ∀ key' value options, stage = .setL2 key' value options →
      options.ifNotExists = false ∧ ∀ tag ∈ options.tagList, tagKey tag ≠ key) :
    Settled client config key
      ⟨{ s with tiers := ⟨l1, s.tiers.redis⟩, calls := s.calls ++ [stage] },
        ⟨last, s.calls.length, Quiet key s.calls, fun _ => false⟩⟩ := by
  have hwrites : stage.Writes key := by
    rw [hstage]
    cases last <;> rfl
  refine ⟨hl1.mono fun entry hentry _ => hentry, hstarted, fun stage' hmem => ?_,
    fun halone i stage' hi hw => ?_, fun _ hquiet => ?_, fun _ i entry _ hfresh => by cases hfresh⟩
  · rcases List.mem_append.mp hmem with hold | hnew
    · exact h.tags stage' hold
    · simp only [List.mem_singleton] at hnew
      subst hnew
      exact htags
  · simp only [decide_eq_true_eq] at halone
    rw [List.getElem?_append] at hi
    split at hi
    · exact absurd hw (halone stage' (List.mem_of_getElem? hi))
    · next hle =>
      have hnew := List.mem_singleton.mp (List.mem_of_getElem? hi)
      have hlt := (List.getElem?_eq_some_iff.mp hi).1
      simp only [List.length_singleton] at hlt
      exact ⟨show i = s.calls.length by omega, hnew.trans hstage⟩
  · exact absurd hwrites (hquiet stage (List.mem_append_right _ (List.mem_singleton.mpr rfl)))

/-! ### Calls that go on -/

/-- A call goes on. It was not a write of the key that is left half done: what it leaves in
the tiers, and what it is about to promote, is of the last write. -/
theorem progress (h : Settled client config key ⟨s, ledger⟩) {i : ℕ} {tiers : Tiers V}
    {stage : Stage V} {fresh : ℕ → Bool}
    (hl1 : HoldsAt config key (fun entry => ledger.alone = true →
      ledger.last.map (·.1) = some entry.value) tiers.l1)
    (hstage : stage = .done ∨ ∃ key' entry, stage = .promote key' entry)
    (hredis : ledger.alone = true → Quiet key (s.calls.set i stage) →
      RedisHasLast client config key tiers.redis ledger.last)
    (hother : ∀ i', i' ≠ i → fresh i' = ledger.fresh i')
    (hfresh : ledger.alone = true → ∀ entry, stage = .promote key entry → fresh i = true →
      ledger.last.map (·.1) = some entry.value) :
    Settled client config key
      ⟨{ s with tiers := tiers, calls := s.calls.set i stage }, { ledger with fresh := fresh }⟩ := by
  have hcalls : ∀ {i' : ℕ} {stage'}, (s.calls.set i stage)[i']? = some stage' →
      i' ≠ i ∧ s.calls[i']? = some stage' ∨ i' = i ∧ stage' = stage := by
    intro i' stage' hi
    by_cases hii : i' = i
    · subst hii
      have hlt := (List.getElem?_eq_some_iff.mp hi).1
      rw [List.length_set] at hlt
      rw [List.getElem?_set_self hlt, Option.some.injEq] at hi
      exact Or.inr ⟨rfl, hi.symm⟩
    · rw [List.getElem?_set_ne (Ne.symm hii)] at hi
      exact Or.inl ⟨hii, hi⟩
  refine ⟨hl1, h.started, fun stage' hmem => ?_, fun halone i' stage' hi hw => ?_, hredis,
    fun halone i' entry hi hf => ?_⟩
  · rcases List.mem_or_eq_of_mem_set hmem with hold | rfl
    · exact h.tags stage' hold
    · intro key' value options heq
      rcases hstage with rfl | ⟨_, _, rfl⟩ <;> cases heq
  · rcases hcalls hi with ⟨-, hold⟩ | ⟨-, rfl⟩
    · exact h.writer halone i' stage' hold hw
    · rcases hstage with rfl | ⟨_, _, rfl⟩ <;> exact absurd hw id
  · rcases hcalls hi with ⟨hne, hold⟩ | ⟨rfl, hnew⟩
    · exact h.fresh halone i' entry hold (hother i' hne ▸ hf)
    · exact hfresh halone entry hnew.symm hf

theorem getL2 (h : Settled client config key ⟨s, ledger⟩) {i : ℕ} {key' : String}
    (hi : s.calls[i]? = some (.getL2 key')) :
    Settled client config key (Audited.step client config key ⟨s, ledger⟩ (.advance i)) := by
  have hread : ledger.alone = true → Quiet key s.calls →
      RedisHasLast client config key s.tiers.redis ledger.last := h.redis
  simp only [Audited.step, LayeredSystem.step, LayeredSystem.resume, Ledger.next, hi]
  refine h.progress h.l1 ?_ (fun halone hquiet => ?_)
    (fun i' hne => Function.update_of_ne hne _ _) (fun halone entry hstage hfresh => ?_)
  · unfold Stage.afterL2
    split
    · exact Or.inr ⟨_, _, rfl⟩
    · exact Or.inl rfl
  · exact ((hread halone (quiet_of_set hi id hquiet)).get s.now key').1
  · rw [Function.update_self, decide_eq_true_eq] at hfresh
    unfold Stage.afterL2 at hstage
    split at hstage
    · next hfound =>
      simp only [Stage.promote.injEq] at hstage
      obtain ⟨rfl, rfl⟩ := hstage
      exact ((hread halone hfresh).get s.now key').2 _ hfound rfl
    · cases hstage

/-- A read promotes what it has found. -/
theorem promote (h : Settled client config key ⟨s, ledger⟩) {i : ℕ} {key' : String}
    {entry : CacheEntry V} (hi : s.calls[i]? = some (.promote key' entry))
    (hguard : key' = key → ledger.alone = true → ledger.fresh i = false →
      ledger.last.map (·.1) = some entry.value) :
    Settled client config key (Audited.step client config key ⟨s, ledger⟩ (.advance i)) := by
  have hl1 : HoldsAt config key (fun entry => ledger.alone = true →
      ledger.last.map (·.1) = some entry.value)
      (LayeredCacheRepository.promote (fun _ => s.now) key' entry s.tiers.l1) := by
    apply h.l1.promote
    intro hk halone
    subst hk
    cases hfresh : ledger.fresh i with
    | true => exact h.fresh halone i entry hi hfresh
    | false => exact hguard rfl halone hfresh
  simp only [Audited.step, LayeredSystem.step, LayeredSystem.resume, Ledger.next, hi]
  exact h.progress hl1 (Or.inl rfl)
    (fun halone hquiet => h.redis halone (quiet_of_set hi id hquiet)) (fun _ _ => rfl)
    (fun _ _ hstage => by cases hstage)

theorem setL2 (h : Settled client config key ⟨s, ledger⟩) {i : ℕ} {key' : String} {value : V}
    {options : SetOptions} (hi : s.calls[i]? = some (.setL2 key' value options))
    (hguard : key' = key → ledger.alone = true → ∃ n, Lasting config options s.now n) :
    Settled client config key (Audited.step client config key ⟨s, ledger⟩ (.advance i)) := by
  obtain ⟨-, htags⟩ := h.tags _ (List.mem_of_getElem? hi) key' value options rfl
  simp only [Audited.step, LayeredSystem.step, LayeredSystem.resume, Ledger.next, hi]
  refine h.progress h.l1 (Or.inl rfl) (fun halone hquiet => ?_) (fun _ _ => rfl)
    (fun _ _ hstage => by cases hstage)
  by_cases hk : key' = key
  · subst hk
    obtain ⟨n, hlasting⟩ := hguard rfl halone
    obtain ⟨-, hstage⟩ := h.writer halone i _ hi rfl
    unfold Ledger.stage at hstage
    split at hstage
    · next value' options' start hlast =>
      simp only [Stage.setL2.injEq, true_and] at hstage
      obtain ⟨rfl, rfl⟩ := hstage
      refine ⟨_, redisReflects_set value hlasting htags, ?_⟩
      simp only at hlast
      rw [hlast]
      exact ⟨s.now, h.started _ _ _ hlast, rfl⟩
    · cases hstage
  · exact (h.redis halone (quiet_of_set hi hk hquiet)).frame
      (RedisCacheRepository.set_onlyCalls_of_ne config value hk htags) s.now

theorem deleteL2 (h : Settled client config key ⟨s, ledger⟩) {i : ℕ} {key' : String}
    (hi : s.calls[i]? = some (.deleteL2 key')) :
    Settled client config key (Audited.step client config key ⟨s, ledger⟩ (.advance i)) := by
  simp only [Audited.step, LayeredSystem.step, LayeredSystem.resume, Ledger.next, hi]
  refine h.progress h.l1 (Or.inl rfl) (fun halone hquiet => ?_) (fun _ _ => rfl)
    (fun _ _ hstage => by cases hstage)
  by_cases hk : key' = key
  · subst hk
    obtain ⟨-, hstage⟩ := h.writer halone i _ hi rfl
    unfold Ledger.stage at hstage
    split at hstage
    · cases hstage
    · next hlast =>
      simp only at hlast
      rw [hlast]
      refine ⟨none, ?_, rfl⟩
      exact (congrFun (LayeredCacheRepository.callL2_good client s.now _ s.tiers.redis).1 key').trans
        RedisCacheRepository.run_delete_self
  · exact (h.redis halone (quiet_of_set hi hk hquiet)).frame
      (RedisCacheRepository.delete_onlyCalls_of_ne hk) s.now

theorem advance (h : Settled client config key ⟨s, ledger⟩) (i : ℕ)
    (hguard : Audited.Undisturbed config key ⟨s, ledger⟩ (.advance i)) :
    Settled client config key (Audited.step client config key ⟨s, ledger⟩ (.advance i)) := by
  cases hi : s.calls[i]? with
  | none =>
    simp only [Audited.step, LayeredSystem.step, Ledger.next, hi]
    exact h
  | some stage =>
    simp only [Audited.Undisturbed, hi] at hguard
    cases stage with
    | getL2 key' => exact h.getL2 hi
    | promote key' entry => exact h.promote hi hguard
    | setL2 key' value options => exact h.setL2 hi hguard
    | deleteL2 key' => exact h.deleteL2 hi
    | done =>
      simp only [Audited.step, LayeredSystem.step, LayeredSystem.resume, Ledger.next, hi]
      exact h.progress h.l1 (Or.inl rfl)
        (fun halone hquiet => h.redis halone (quiet_of_set hi id hquiet)) (fun _ _ => rfl)
        (fun _ _ hstage => by cases hstage)

/-! ### Whole runs -/

theorem step {a : Audited V} (h : Settled client config key a)
    (action : LayeredSystem.Action V) (hguard : a.Undisturbed config key action) :
    Settled client config key (a.step client config key action) := by
  obtain ⟨s, ledger⟩ := a
  cases action with
  | get key' =>
    obtain ⟨hl1, -⟩ := h.l1.get (fun entry hentry halone => hentry halone) (fun _ => s.now) key'
    simp only [Audited.step, LayeredSystem.step, Ledger.next]
    apply h.begin hl1
    · split <;> exact id
    · split <;> exact fun _ heq => by cases heq
    · split <;> exact fun _ _ _ heq => by cases heq
  | set key' value options =>
    obtain ⟨hnx, htags⟩ := hguard
    have hset : ∀ key'' value' options', Stage.setL2 key' value options =
        .setL2 key'' value' options' → options'.ifNotExists = false ∧
          ∀ tag ∈ options'.tagList, tagKey tag ≠ key := by
      intro key'' value' options' heq
      simp only [Stage.setL2.injEq] at heq
      obtain ⟨-, -, rfl⟩ := heq
      exact ⟨hnx, htags⟩
    by_cases hk : key' = key
    · subst hk
      simp only [Audited.step, LayeredSystem.step, Ledger.next, ↓reduceIte]
      refine h.write (h.l1.set_self _ value hnx rfl) (fun _ _ start heq => ?_) rfl hset
      simp only [Option.some.injEq, Prod.mk.injEq] at heq
      exact heq.2.2.ge
    · simp only [Audited.step, LayeredSystem.step, Ledger.next, hk, ↓reduceIte]
      exact h.begin (h.l1.set _ key' value options fun heq => absurd heq hk) hk
        (fun _ heq => by cases heq) hset
  | delete key' =>
    by_cases hk : key' = key
    · subst hk
      simp only [Audited.step, LayeredSystem.step, Ledger.next, ↓reduceIte]
      exact h.write h.l1.delete_self (fun _ _ _ heq => by cases heq) rfl
        (fun _ _ _ heq => by cases heq)
    · simp only [Audited.step, LayeredSystem.step, Ledger.next, hk, ↓reduceIte]
      exact h.begin (h.l1.delete key') hk (fun _ heq => by cases heq)
        (fun _ _ _ heq => by cases heq)
  | advance i => exact h.advance i hguard
  | sweep => exact ⟨h.l1.sweep _, h.started, h.tags, h.writer, h.redis, h.fresh⟩
  | tick t =>
    exact ⟨h.l1, fun value options start hlast =>
      (h.started value options start hlast).trans (le_max_left _ _), h.tags, h.writer, h.redis,
      h.fresh⟩

/-- Once nothing is under way, the tiers are one map with the last write in it. -/
theorem coherent {a : Audited V} (h : Settled client config key a)
    (halone : a.ledger.alone = true) (hquiet : Quiet key a.system.calls) :
    ∃ last, Coherent client config key last a.system.tiers ∧ Postponed a.ledger.last last := by
  obtain ⟨last, hreflects, hpostponed⟩ := h.redis halone hquiet
  refine ⟨last, ⟨h.l1.mono fun entry hentry => ?_, hreflects⟩, hpostponed⟩
  rw [hpostponed.value_eq]
  exact hentry halone

end Settled

/-- However the calls in flight went on, once all have finished a key reads as its last
write: what a set wrote, until its time is over, or nothing, after a delete. The last write
had the key to itself when it started, and no read from before it promoted anything else. -/
theorem LayeredCacheRepository.get_of_lastWrite (client : Client) (config : Config) (key : String)
    (redis : Database V) (now : Time) (actions : List (LayeredSystem.Action V))
    (hrun : Runs.Guarded (Audited.step client config key) (Audited.Undisturbed config key)
      ⟨⟨⟨.new config, redis⟩, now, []⟩, .start⟩ actions) :
    let a := Runs.run (Audited.step client config key) ⟨⟨⟨.new config, redis⟩, now, []⟩, .start⟩
      actions
    a.ledger.alone = true → (∀ stage ∈ a.system.calls, stage = .done) → ∀ later : Time,
      (∀ entry, (get client (.good later) key a.system.tiers).2 = some entry →
        ∃ options start, a.ledger.last = some (entry.value, options, start)) ∧
      ∀ value options start, a.ledger.last = some (value, options, start) → ∀ n : ℕ,
        options.ttlOr (.ofNat config.cacheDefaultTtl) = .ofNat n →
        later.val ≤ start.val + n * 1000 →
        (get client (.good later) key a.system.tiers).2.map (·.value) = some value := by
  intro a halone hdone later
  have hsettled : Settled client config key a := hrun.invariant
    (fun _ action h hguard => h.step action hguard) (Settled.start client config key redis now)
  have hquiet : Quiet key a.system.calls := by
    intro stage hmem
    rw [hdone stage hmem]
    exact id
  obtain ⟨last, hcoherent, hpostponed⟩ := hsettled.coherent halone hquiet
  refine ⟨fun entry hentry => ?_, fun value options start hlast n hseconds htime => ?_⟩
  · have hvalue := hcoherent.value_of_get hentry
    rw [hpostponed.value_eq] at hvalue
    obtain ⟨⟨value, options, start⟩, hlast, hread⟩ := Option.map_eq_some_iff.mp hvalue
    exact ⟨options, start, by rw [hlast, ← hread]⟩
  · rw [hlast] at hpostponed
    obtain ⟨start', hle, hlast'⟩ := hpostponed
    apply hcoherent.map_value_get hlast' hseconds
    have hle' : start.val ≤ start'.val := hle
    omega

/-- Only fresh reads go on to promote, and sets are for so many seconds. -/
def Stage.Prompt (config : Config) (seconds : ℕ) (now : Time) (fresh : Bool) : Stage V → Prop
  | .promote _ _ => fresh = true
  | .setL2 _ _ options => Lasting config options now seconds
  | _ => True

instance (config : Config) (seconds : ℕ) (now : Time) (fresh : Bool) :
    ∀ stage : Stage V, Decidable (stage.Prompt config seconds now fresh)
  | .promote _ _ => inferInstanceAs (Decidable (fresh = true))
  | .setL2 _ _ options =>
    inferInstanceAs (Decidable (options.ifNotExists = false ∧
      options.ttlOr (.ofNat config.cacheDefaultTtl) = .ofNat seconds ∧ 0 < seconds ∧
      now.val + seconds * 1000 ≤ maxTime))
  | .getL2 _ => isTrue trivial
  | .deleteL2 _ => isTrue trivial
  | .done => isTrue trivial

def Audited.Prompt (config : Config) (key : String) (seconds : ℕ) (a : Audited V) :
    LayeredSystem.Action V → Prop
  | .set _ _ options =>
    options.ifNotExists = false ∧ ∀ tag ∈ options.tagList, tagKey tag ≠ key
  | .advance i => ∀ stage ∈ a.system.calls[i]?,
      stage.Prompt config seconds a.system.now (a.ledger.fresh i)
  | _ => True

instance (config : Config) (key : String) (seconds : ℕ) (a : Audited V) :
    ∀ action : LayeredSystem.Action V, Decidable (a.Prompt config key seconds action)
  | .set _ _ options =>
    inferInstanceAs (Decidable (options.ifNotExists = false ∧
      ∀ tag ∈ options.tagList, tagKey tag ≠ key))
  | .advance i =>
    inferInstanceAs (Decidable (∀ stage ∈ a.system.calls[i]?,
      stage.Prompt config seconds a.system.now (a.ledger.fresh i)))
  | .get _ => isTrue trivial
  | .delete _ => isTrue trivial
  | .sweep => isTrue trivial
  | .tick _ => isTrue trivial

theorem Audited.Prompt.undisturbed {config : Config} {key : String} (seconds : ℕ) {a : Audited V}
    {action : LayeredSystem.Action V} (h : a.Prompt config key seconds action) :
    a.Undisturbed config key action := by
  cases action with
  | advance i =>
    simp only [Undisturbed]
    split
    · next hi =>
      intro _ _ hfresh
      have hprompt : a.ledger.fresh i = true := h _ hi
      rw [hfresh] at hprompt
      cases hprompt
    · next hi => exact fun _ _ => ⟨seconds, h _ hi⟩
    · trivial
  | set key' value options => exact h
  | get key' => trivial
  | delete key' => trivial
  | sweep => trivial
  | tick t => trivial

/-- Two keys take turns in a memory tier for one, and a read of each is promoted. -/
theorem LayeredCacheRepository.get_of_lastWrite_promoted :
    (get ⟨"edgecache:"⟩ (.good ⟨40000, by decide⟩) "a" (Runs.run
      (Audited.step ⟨"edgecache:"⟩ ⟨1, 60, by decide, by decide⟩ "a")
      ⟨⟨⟨.new ⟨1, 60, by decide, by decide⟩, fun _ => none⟩, ⟨1000, by decide⟩, []⟩, .start⟩
      [.set "a" 1 (.ofTtl 60), .advance 0, .set "b" 2 (.ofTtl 60), .get "a", .advance 2,
        .advance 1, .get "b", .advance 2, .get "b", .advance 4, .advance 4, .sweep,
        .tick ⟨20000, by decide⟩] : Audited ℕ).system.tiers).2.map (·.value) = some 1 := by
  have hrun : Runs.Guarded (Audited.step ⟨"edgecache:"⟩ ⟨1, 60, by decide, by decide⟩ "a")
      (Audited.Undisturbed ⟨1, 60, by decide, by decide⟩ "a")
      (⟨⟨⟨.new ⟨1, 60, by decide, by decide⟩, fun _ => none⟩, ⟨1000, by decide⟩, []⟩, .start⟩ :
        Audited ℕ)
      [.set "a" 1 (.ofTtl 60), .advance 0, .set "b" 2 (.ofTtl 60), .get "a", .advance 2,
        .advance 1, .get "b", .advance 2, .get "b", .advance 4, .advance 4, .sweep,
        .tick ⟨20000, by decide⟩] := by
    apply Runs.Guarded.mono fun _ _ => Audited.Prompt.undisturbed 60
    decide +kernel
  have hread := get_of_lastWrite ⟨"edgecache:"⟩ ⟨1, 60, by decide, by decide⟩ "a" (fun _ => none)
    ⟨1000, by decide⟩ _ hrun
  refine (hread (by decide +kernel) ?_ ⟨40000, by decide⟩).2 1 (.ofTtl 60) ⟨1000, by decide⟩ ?_ 60
    rfl (by decide)
  · decide +kernel
  · decide +kernel

/-- A delete overtakes a read that has come back from Redis and has not promoted yet. -/
def Audited.afterOvertakenRead : Audited ℕ :=
  Runs.run (Audited.step ⟨"edgecache:"⟩ ⟨1, 60, by decide, by decide⟩ "a")
    ⟨⟨⟨.new ⟨1, 60, by decide, by decide⟩, fun _ => none⟩, ⟨1000, by decide⟩, []⟩, .start⟩
    [.set "a" 1 (.ofTtl 60), .advance 0, .set "b" 2 (.ofTtl 60), .advance 1, .get "a",
      .advance 2, .delete "a", .advance 3, .advance 2]

/-- What was deleted is in the memory tier again, with nothing left to remove it. -/
theorem LayeredCacheRepository.found_of_overtakenRead :
    ¬ (Audited.afterOvertakenRead.ledger.alone = true →
      (∀ stage ∈ Audited.afterOvertakenRead.system.calls, stage = .done) →
      ∀ entry, (get ⟨"edgecache:"⟩ (.good ⟨2000, by decide⟩) "a"
          Audited.afterOvertakenRead.system.tiers).2 = some entry →
        ∃ options start, Audited.afterOvertakenRead.ledger.last =
          some (entry.value, options, start)) := by
  intro hall
  have hread := hall (by decide +kernel) (by decide +kernel)
  have hfound : (get ⟨"edgecache:"⟩ (.good ⟨2000, by decide⟩) "a"
      Audited.afterOvertakenRead.system.tiers).2.isSome = true := by
    decide +kernel
  have hlast : Audited.afterOvertakenRead.ledger.last = none := by
    decide +kernel
  obtain ⟨entry, hentry⟩ := Option.isSome_iff_exists.mp hfound
  obtain ⟨options, start, hset⟩ := hread entry hentry
  rw [hlast] at hset
  cases hset

end EdgeCache
