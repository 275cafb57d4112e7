import EdgeCache.LayeredRules

/-!
Conditional sets of one instance. `ifNotExists` is tested by each tier for itself: the first
tier does not look at Redis, and a key that Redis has and the first tier has not is set in the
first tier alone. That is where a conditional set replaces what a read would have returned.
-/
namespace EdgeCache

open Programs (Program faultless)

variable {V : Type}

/-- Redis is there for single calls, and answers. -/
structure Surroundings.Sound (env : Surroundings) : Prop where
  available : env.redisAvailable 0 = true
  answered : ∀ i, env.fault i = .none

/-- No command of a call is answered with an error. -/
def ErrorFree {α : Type} (client : Client) (env : Surroundings) (p : RedisProgram V α)
    (redis : Database V) : Prop :=
  ∀ e ∈ Programs.sent client.send env.clock env.fault 0 p redis,
    (client.send e.moment e.state e.command).2.isSome = true

/-! ### What a read returns -/

def servedFrom (now : Time) : Option (Record V) → Option (CacheEntry V)
  | some ⟨.string json, _⟩ =>
    if json.restore.isExpired now then none else some json.restore.registerHit
  | _ => none

section Reads

variable {client : Client} {env : Surroundings}

theorem snd_callL2In_get (client : Client) (hanswered : ∀ i, env.fault i = .none)
    (key : String) (redis : Database V) :
    (LayeredCacheRepository.callL2In client env (RedisCacheRepository.get key) redis).2 =
      some (servedFrom (env.clock 1)
        (Redis.find (client.view redis) (env.clock 0) key)) := by
  have hfault : env.fault = faultless := funext hanswered
  rw [Client.find_view]
  simp only [LayeredCacheRepository.callL2In, hfault, RedisCacheRepository.get, Programs.run,
    Programs.attempt, faultless, Client.send, Command.prefixed, Redis.exec]
  cases Redis.find redis (env.clock 0) (client.keyPrefix ++ key) with
  | none => rfl
  | some record =>
    obtain ⟨json | members, t⟩ := record
    · simp only [RedisCacheRepository.serve, Programs.run, servedFrom]
      split <;> rfl
    · rfl

/-- The first tier is asked first. -/
theorem snd_getIn (hsound : env.Sound) (key : String) (s : Tiers V) :
    (LayeredCacheRepository.getIn client env key s).2 = (s.l1.get env.l1 key).2.or
      (servedFrom (env.clock 1) (Redis.find (client.view s.redis) (env.clock 0) key)) := by
  have hserved := snd_callL2In_get client hsound.answered key s.redis
  unfold LayeredCacheRepository.getIn
  cases hfirst : s.l1.get env.l1 key with
  | mk l1 found =>
    cases found with
    | some entry => rfl
    | none =>
      simp only [hsound.available, ↓reduceIte, Option.none_or]
      cases hsecond : LayeredCacheRepository.callL2In client env
          (RedisCacheRepository.get key) s.redis with
      | mk redis found =>
        rw [hsecond] at hserved
        obtain rfl : found = some (servedFrom (env.clock 1)
            (Redis.find (client.view s.redis) (env.clock 0) key)) := hserved
        cases servedFrom (env.clock 1)
            (Redis.find (client.view s.redis) (env.clock 0) key) <;> rfl

theorem servedFrom_eq_some {now : Time} {record : Option (Record V)} {entry : CacheEntry V}
    (h : servedFrom now record = some entry) :
    ∃ json t, record = some ⟨.string json, t⟩ := by
  unfold servedFrom at h
  split at h
  · exact ⟨_, _, rfl⟩
  · cases h

end Reads

/-! ### A conditional set of a key that Redis has -/

section Kept

variable {client : Client} {config : Config} {env : Surroundings} {key : String} {now : Time}

/-- The tag sets of an error-free set: none of them has the name of the key, which holds a
document, and the document stays as it is. -/
theorem view_tags {json : EntryJson V} {expireAt : Option ℤ} (member : String) (seconds : JsNumber)
    (hclock : ∀ i, env.clock i ≤ now) (tags : List String) (i : ℕ) {redis : Database V}
    (hlive : Redis.find (client.view redis) now key = some ⟨.string json, expireAt⟩)
    (hfree : ∀ e ∈ Programs.sent client.send env.clock faultless i (Program.each
      (tags.flatMap fun tag => [.sadd (tagKey tag) member, .expire (tagKey tag) seconds])
      (.ret ()) : RedisProgram V Unit) redis,
      (client.send e.moment e.state e.command).2.isSome = true) :
    client.view (Programs.run client.send env.clock faultless i (Program.each
      (tags.flatMap fun tag => [.sadd (tagKey tag) member, .expire (tagKey tag) seconds])
      (.ret ()) : RedisProgram V Unit) redis).1 key = client.view redis key := by
  induction tags generalizing i redis with
  | nil => rfl
  | cons tag rest ih =>
    obtain ⟨hdb, hthere⟩ := Redis.find_eq_some_iff.mp hlive
    have hearlier : Redis.find (client.view redis) (env.clock i) key =
        some ⟨.string json, expireAt⟩ :=
      Redis.find_eq_some_iff.mpr ⟨hdb, Redis.isLive_of_le (hclock i) hthere⟩
    have hne : tagKey tag ≠ key := by
      intro hk
      have hadd := hfree _ List.mem_cons_self
      simp only [(client.view_send _ _ _).2, Redis.exec] at hadd
      rw [hk, hearlier] at hadd
      cases hadd
    have hsadd : client.view (client.send (env.clock i) redis (.sadd (tagKey tag) member)).1 key =
        client.view redis key := by
      rw [(client.view_send _ _ _).1]
      exact Redis.exec_frame _ _ hne
    have hspared : ¬ Redis.Writes key (.expire (tagKey tag) seconds : Command V) := hne
    have hexpire : client.view (client.send (env.clock (i + 1))
        (client.send (env.clock i) redis (.sadd (tagKey tag) member)).1
        (.expire (tagKey tag) seconds)).1 key = client.view redis key := by
      rw [(client.view_send _ _ _).1]
      exact (Redis.exec_frame _ _ hspared).trans hsadd
    have hrest := ih (i + 2) ((Redis.find_congr hexpire).trans hlive)
      fun e he => hfree e (List.mem_cons_of_mem _ (List.mem_cons_of_mem _ he))
    exact hrest.trans hexpire

theorem view_callL2In_set {json : EntryJson V} {expireAt : Option ℤ} {value : V}
    {options : SetOptions} (hnx : options.ifNotExists = true)
    (hanswered : ∀ i, env.fault i = .none) (hclock : ∀ i, env.clock i ≤ now)
    {redis : Database V}
    (hlive : Redis.find (client.view redis) now key = some ⟨.string json, expireAt⟩)
    (hfree : ErrorFree client env (RedisCacheRepository.set config key value options) redis) :
    client.view (LayeredCacheRepository.callL2In client env
      (RedisCacheRepository.set config key value options) redis).1 key =
        client.view redis key := by
  have hfault : env.fault = faultless := funext hanswered
  obtain ⟨hdb, hthere⟩ := Redis.find_eq_some_iff.mp hlive
  have hearlier : Redis.find (client.view redis) (env.clock 1) key =
      some ⟨.string json, expireAt⟩ :=
    Redis.find_eq_some_iff.mpr ⟨hdb, Redis.isLive_of_le (hclock 1) hthere⟩
  have hset : ∀ json' seconds, (client.send (env.clock 1) redis
      (.set key json' (.exNx seconds))).1 = redis := by
    intro json' seconds
    rw [Client.find_view] at hearlier
    simp only [Client.send, Command.prefixed, Redis.exec, hearlier, Option.isSome_some, ↓reduceIte]
    split <;> rfl
  unfold ErrorFree at hfree
  simp only [LayeredCacheRepository.callL2In, hfault, RedisCacheRepository.set,
    RedisCacheRepository.setCommands, hnx, ↓reduceIte, Program.each, Programs.run, Programs.sent,
    Programs.attempt, faultless] at hfree ⊢
  rw [hset] at hfree ⊢
  exact view_tags key _ hclock options.tagList 2 hlive
    fun e he => hfree e (List.mem_cons_of_mem _ he)

end Kept

/-! ### One instance -/

section Instance

open LayeredCacheRepository (getIn setIn callL2In)

variable {client : Client} {config : Config} {env env' : Surroundings} {key : String} {now : Time}
  {s : Tiers V} {v : MemoryView V} {value : V} {options : SetOptions}

/-- The first tier has an entry under the key that has not expired. -/
def HeldIn (now : Time) (key : String) (l1 : MemoryCacheRepository V) : Prop :=
  ∃ held, l1.entryAt key = some held ∧ held.isExpired now = false

theorem suppressed_iff {l1 : MemoryCacheRepository V} (hnx : options.ifNotExists = true)
    (clock : Clock) : l1.suppressed clock key options = true ↔ HeldIn (clock 0) key l1 := by
  unfold MemoryCacheRepository.suppressed HeldIn
  rw [hnx, Bool.true_and]
  cases l1.entryAt key with
  | none => simp
  | some held => simp

theorem get_of_not_heldIn {l1 : MemoryCacheRepository V}
    (hs : MemoryCacheRepository.Shows config l1 v) {clock : Clock}
    (h : ¬ HeldIn (clock 0) key l1) : (l1.get clock key).2 = none := by
  rw [MemoryCacheRepository.snd_get hs, Option.map_eq_none_iff, Option.filter_eq_none_iff]
  intro held hheld hfresh
  exact h ⟨held, hheld, (Bool.not_eq_true' _).mp hfresh⟩

theorem setIn_of_sound (hsound : env.Sound) :
    setIn client config env key value options s =
      ⟨s.l1.set env.l1 key value options,
        (callL2In client env (RedisCacheRepository.set config key value options) s.redis).1⟩ := by
  unfold setIn
  rw [if_pos hsound.available]

theorem servedFrom_setIn (hsound : env.Sound) (henv : env.Reads (· ≤ now))
    (henv' : env'.Reads (now ≤ ·)) (hnx : options.ifNotExists = true)
    (hfree : ErrorFree client env (RedisCacheRepository.set config key value options) s.redis)
    {entry : CacheEntry V}
    (hserved : servedFrom (env'.clock 1)
      (Redis.find (client.view s.redis) (env'.clock 0) key) = some entry) :
    servedFrom (env'.clock 1) (Redis.find (client.view (callL2In client env
      (RedisCacheRepository.set config key value options) s.redis).1) (env'.clock 0) key) =
        some entry := by
  obtain ⟨json, t, hfind⟩ := servedFrom_eq_some hserved
  have hview := view_callL2In_set hnx hsound.answered
    (fun i => (henv.l2 i).trans (henv'.l2 0)) hfind hfree
  rw [Redis.find_congr hview]
  exact hserved

/-- A conditional set leaves what a read returns as it was exactly when the first tier has
the key, or the set brings the same content, or what it brings has expired at the read. -/
theorem content_getIn_setIn_iff (hs : MemoryCacheRepository.Shows config s.l1 v)
    (hsound : env.Sound) (hsound' : env'.Sound) (henv : env.Reads (· ≤ now))
    (henv' : env'.Reads (now ≤ ·)) (hnx : options.ifNotExists = true)
    (hfree : ErrorFree client env (RedisCacheRepository.set config key value options) s.redis)
    {entry : CacheEntry V} (hentry : (getIn client env' key s).2 = some entry) :
    (∃ entry', (getIn client env' key (setIn client config env key value options s)).2 =
        some entry' ∧ entry'.content = entry.content) ↔
      HeldIn (env.l1 0) key s.l1 ∨ options.content value = entry.content ∨
        (MemoryView.newEntry config (env.l1 1) key value options).isExpired (env'.l1 0) =
          true := by
  have hs' := hs.set env.l1 key value options
  rw [snd_getIn hsound'] at hentry
  rw [setIn_of_sound hsound, snd_getIn hsound', ← suppressed_iff hnx]
  dsimp only
  by_cases hheld : s.l1.suppressed env.l1 key options = true
  · -- the set does nothing in the first tier, and nothing that a read sees in Redis
    have hset : s.l1.set env.l1 key value options = s.l1 := if_pos hheld
    simp only [hheld, true_or, iff_true]
    rw [hset]
    cases hfirst : (s.l1.get env'.l1 key).2 with
    | some found =>
      rw [hfirst, Option.some_or, Option.some.injEq] at hentry
      exact ⟨entry, by rw [Option.some_or, hentry], rfl⟩
    | none =>
      rw [hfirst, Option.none_or] at hentry
      exact ⟨entry, by rw [Option.none_or, servedFrom_setIn hsound henv henv' hnx hfree hentry],
        rfl⟩
  · -- the set stores its entry in the first tier; the read without it came from Redis
    have hnone := get_of_not_heldIn hs (mt (suppressed_iff hnx env.l1).mpr hheld)
    have hmissed : (s.l1.get env'.l1 key).2 = none :=
      MemoryCacheRepository.get_eq_none_of_le hs ((henv.l1 0).trans (henv'.l1 0)) hnone
    rw [hmissed, Option.none_or] at hentry
    have hstored := MemoryCacheRepository.entryAt_set hs env.l1 key value options
      (Bool.not_eq_true _ ▸ hheld)
    simp only [hheld, Bool.false_eq_true, false_or]
    by_cases hexpired :
        (MemoryView.newEntry config (env.l1 1) key value options).isExpired (env'.l1 0) = true
    · have hdropped := MemoryCacheRepository.get_of_expired hs' hstored hexpired
      simp only [hexpired, or_true, iff_true]
      exact ⟨entry, by rw [hdropped, Option.none_or,
        servedFrom_setIn hsound henv henv' hnx hfree hentry], rfl⟩
    · have hfound := MemoryCacheRepository.get_of_fresh hs' hstored (Bool.not_eq_true _ ▸ hexpired)
      simp only [hfound, Option.some_or, hexpired, Bool.false_eq_true, or_false, Option.some.injEq,
        exists_eq_left']
      exact Iff.rfl

end Instance

end EdgeCache
