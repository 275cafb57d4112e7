import EdgeCache.LayeredOperations

/-!
What the tiers have under one key, as far as callers can tell: the value, the tags and the
metadata. A call that reads, writes or drops single keys brings nothing else under a key
than what was in one of the tiers or what it was given, whatever becomes of Redis; and a
write that Redis carries out leaves nothing else there.
-/
namespace EdgeCache

variable {V : Type}

/-! ### Writes and reads of a key -/

/-- The calls that read or write one key, or drop all of them, and the eviction interval. -/
def Op.IsSingle : Op V → Prop
  | .get _ | .set _ _ _ | .delete _ | .flush | .sweep => True
  | _ => False

/-- What the key had before is not to be read again. A conditional set may do nothing. -/
def Op.Overwrites (key : String) : Op V → Prop
  | .set key' _ options => key' = key ∧ options.ifNotExists = false
  | .delete key' => key' = key
  | .flush => True
  | _ => False

/-- Redis was available and carried out the command that writes the key; a `SET` also has
to have a time that Redis takes. -/
def LayeredCall.ReachesRedis (config : Config) (e : LayeredCall V) : Prop :=
  e.env.redisAvailable 0 = true ∧
    match e.op with
    | .set _ _ options => e.env.fault 1 ≠ .lost ∧ (Redis.setDeadline (e.env.clock 1)
        (options.ttlOr (.ofNat config.cacheDefaultTtl))).isSome = true
    | .delete _ => e.env.fault 0 ≠ .lost
    | .flush => e.env.fault 0 ≠ .lost
    | _ => False

namespace LayeredCacheRepository

variable {client : Client} {config : Config} {regExp : RegExp} {env : Surroundings}

/-- A read misses the first tier and finds the key in Redis. -/
def readsRedis (client : Client) (env : Surroundings) (key : String) (s : Tiers V) : Bool :=
  (s.l1.get env.l1 key).2.isNone && (getIn client env key s).2.isSome

/-! ### One call -/

theorem callL2In_at {α : Type} {key : String} {J : EntryJson V → Prop} {p : RedisProgram V α}
    (env : Surroundings) {post : α → Prop}
    (hp : p.Meets (fun _ => True) (RepliesAt key J) (IssuesAt key J) post)
    {redis : Database V} (hredis : DocumentAt client key J redis) :
    DocumentAt client key J (callL2In client env p redis).1 ∧
      ∀ a, (callL2In client env p redis).2 = some a → post a :=
  Programs.run_meets (serves_at client key J) env.fault (fun _ => trivial) hp 0 hredis

theorem callL2In_get {key : String} {K : Content V → Prop} (client : Client) (env : Surroundings)
    (key' : String) {redis : Database V}
    (hredis : DocumentAt client key (fun json => K json.content) redis) :
    DocumentAt client key (fun json => K json.content)
        (callL2In client env (RedisCacheRepository.get key') redis).1 ∧
      ∀ found, (callL2In client env (RedisCacheRepository.get key') redis).2 = some found →
        key' = key → ∀ entry : CacheEntry V, found = some entry → K entry.content := by
  refine callL2In_at env ?_ hredis
  refine RedisCacheRepository.get_meets trivial trivial (fun _ entry h => by cases h) ?_
  intro json now _ hreply _
  refine ⟨fun hk => hreply hk, fun hk entry hentry => ?_⟩
  obtain rfl : json.restore.registerHit = entry := Option.some.inj hentry
  exact hreply hk

section Contents

variable {key : String} {K N : Content V → Prop} {s : Tiers V}

theorem holds_getIn (env : Surroundings) {L : Content V → Prop}
    (hl1 : HoldsAt config key (fun entry => K entry.content) s.l1)
    (hredis : DocumentAt client key (fun json => N json.content) s.redis) (key' : String)
    (hK : ∀ c, K c → L c)
    (hN : key' = key → readsRedis client env key s = true → ∀ c, N c → L c) :
    HoldsAt config key (fun entry => L entry.content) (getIn client env key' s).1.l1 ∧
      DocumentAt client key (fun json => N json.content) (getIn client env key' s).1.redis ∧
      (key' = key → ∀ entry, (getIn client env key' s).2 = some entry → L entry.content) := by
  obtain ⟨hl1', hfound⟩ := (hl1.mono fun entry => hK entry.content).get (fun _ h => h) env.l1 key'
  obtain ⟨hredis', hfound'⟩ := callL2In_get client env key' hredis
  unfold readsRedis at hN
  unfold getIn at hN ⊢
  cases hresult : s.l1.get env.l1 key' with
  | mk l1 found =>
    rw [hresult] at hl1' hfound
    cases found with
    | some entry =>
      refine ⟨hl1', hredis, fun hk entry' hentry => ?_⟩
      exact (hfound hk entry' hentry).1
    | none =>
      simp only
      split
      · next havailable =>
        cases hresult' : callL2In client env (RedisCacheRepository.get key') s.redis with
        | mk redis found' =>
          rw [hresult'] at hredis' hfound'
          rcases found' with _ | _ | entry
          · exact ⟨hl1', hredis', fun _ entry hentry => by cases hentry⟩
          · exact ⟨hl1', hredis', fun _ entry hentry => by cases hentry⟩
          · have hL : key' = key → L entry.content := by
              intro hk
              subst hk
              refine hN rfl ?_ entry.content (hfound' (some entry) rfl rfl entry rfl)
              simp [hresult, havailable, hresult']
            refine ⟨hl1'.promote env.promotion key' entry fun hk => hL hk, hredis', ?_⟩
            intro hk entry' hentry
            obtain rfl := Option.some.inj hentry
            exact hL hk
      · exact ⟨hl1', hredis, fun _ entry hentry => by cases hentry⟩

/-- A command that is carried out does to the client's view what it does to a Redis of its
own, whether or not its reply arrives. -/
theorem view_attempt {fault : Programs.Fault} (hfault : fault ≠ .lost) (now : Time)
    (redis : Database V) (c : Command V) :
    client.view (Programs.attempt client.send fault now redis c).1 =
      (Redis.exec now (client.view redis) c).1 := by
  have hsend := (client.view_send now redis c).1
  cases fault with
  | none => exact hsend
  | lost => exact absurd rfl hfault
  | late => exact hsend

/-- A set whose `SET` is carried out leaves its own document under the key or none. -/
theorem documentAt_setIn {value : V} {options : SetOptions} (hnx : options.ifNotExists = false)
    (hfault : env.fault 1 ≠ .lost) (hdeadline : (Redis.setDeadline (env.clock 1)
      (options.ttlOr (.ofNat config.cacheDefaultTtl))).isSome = true) (redis : Database V) :
    DocumentAt client key (fun json => json.content = options.content value)
      (callL2In client env (RedisCacheRepository.set config key value options) redis).1 := by
  obtain ⟨t, ht⟩ := Option.isSome_iff_exists.mp hdeadline
  set entry : CacheEntry V := CacheEntry.create (env.clock 0) key value
    (options.ttlOr (.ofNat config.cacheDefaultTtl)) options.tagList options.metadataList
    with hentry
  have hwritten : DocumentAt client key (fun json => json.content = options.content value)
      (Programs.attempt client.send (env.fault 1) (env.clock 1) redis
        (.set key (.stringify entry) (.ex entry.ttl))).1 := by
    have httl : Redis.setDeadline (env.clock 1) entry.ttl = some t := ht
    intro json expireAt hjson
    rw [view_attempt hfault] at hjson
    simp only [Redis.exec, httl, Redis.insert_self] at hjson
    obtain rfl := Stored.string.inj (Record.mk.inj (Option.some.inj hjson)).1
    rfl
  have hrest : (Programs.Program.each (entry.tags.flatMap fun tag =>
      [.sadd (tagKey tag) key, .expire (tagKey tag) (entry.ttl.plus 60)])
      (.ret ()) : RedisProgram V Unit).Meets (fun _ => True)
      (RepliesAt key fun json => json.content = options.content value)
      (IssuesAt key fun json => json.content = options.content value) (fun _ => True) := by
    refine Programs.Program.Meets.each (fun c hc => ?_) trivial
    obtain ⟨tag, -, hc⟩ := List.mem_flatMap.mp hc
    simp only [List.mem_cons, List.not_mem_nil, or_false] at hc
    rcases hc with rfl | rfl <;> trivial
  simp only [callL2In, RedisCacheRepository.set, RedisCacheRepository.setCommands, hnx,
    Bool.false_eq_true, ↓reduceIte, Programs.Program.each, Programs.run]
  exact (Programs.run_meets (serves_at client key fun json =>
    json.content = options.content value) env.fault (fun _ => trivial) hrest 2 hwritten).1

theorem holds_setIn (env : Surroundings) {L M : Content V → Prop}
    (hl1 : HoldsAt config key (fun entry => K entry.content) s.l1)
    (hredis : DocumentAt client key (fun json => N json.content) s.redis)
    (key' : String) (value : V) (options : SetOptions)
    (hnew : key' = key → L (options.content value))
    (hnew' : key' = key → M (options.content value))
    (hK : (key' = key → options.ifNotExists = true) → ∀ c, K c → L c)
    (hN : ¬ (Op.Overwrites key (.set key' value options) ∧
      LayeredCall.ReachesRedis config ⟨.set key' value options, env⟩) → ∀ c, N c → M c) :
    HoldsAt config key (fun entry => L entry.content)
        (setIn client config env key' value options s).l1 ∧
      DocumentAt client key (fun json => M json.content)
        (setIn client config env key' value options s).redis := by
  have hfirst : HoldsAt config key (fun entry => L entry.content)
      (s.l1.set env.l1 key' value options) := by
    by_cases hself : key' = key ∧ options.ifNotExists = false
    · obtain ⟨rfl, hnx⟩ := hself
      exact hl1.set_self env.l1 value hnx (hnew rfl)
    · refine (hl1.mono fun entry => hK (fun hk => ?_) entry.content).set env.l1 key' value options
        fun hk _ => hnew hk
      exact Bool.not_eq_false _ ▸ fun hnx => hself ⟨hk, hnx⟩
  have hsecond : DocumentAt client key (fun json => M json.content)
      (setIn client config env key' value options s).redis := by
    unfold setIn
    simp only
    split
    · next havailable =>
      by_cases hreach : Op.Overwrites key (.set key' value options) ∧
          LayeredCall.ReachesRedis config ⟨.set key' value options, env⟩
      · obtain ⟨⟨rfl, hnx⟩, -, hfault, hdeadline⟩ := hreach
        intro json expireAt hjson
        have hcontent : json.content = options.content value :=
          documentAt_setIn hnx hfault hdeadline s.redis json expireAt hjson
        exact hcontent ▸ hnew' rfl
      · have hbefore : DocumentAt client key (fun json => M json.content) s.redis :=
          fun json expireAt hjson => hN hreach json.content (hredis json expireAt hjson)
        have hmeets : (RedisCacheRepository.set config key' value options).Meets (fun _ => True)
            (RepliesAt key fun json => M json.content) (IssuesAt key fun json => M json.content)
            (fun _ => True) :=
          RedisCacheRepository.set_meets trivial (fun now _ mode _ hk => hnew' hk)
            fun tag _ => ⟨trivial, fun _ => trivial⟩
        exact (callL2In_at env hmeets hbefore).1
    · next havailable =>
      refine fun json expireAt hjson => hN ?_ json.content (hredis json expireAt hjson)
      exact fun hreach => havailable hreach.2.1
  refine ⟨?_, hsecond⟩
  unfold setIn
  simp only
  split
  · exact hfirst
  · exact hfirst

theorem redis_deleteIn (key : String) (redis : Database V) :
    (callL2In client env (RedisCacheRepository.delete key) redis).1 =
      (Programs.attempt client.send (env.fault 0) (env.clock 0) redis (.del [key])).1 := by
  simp only [callL2In, RedisCacheRepository.delete, Programs.run]
  generalize Programs.attempt client.send (env.fault 0) (env.clock 0) redis (.del [key]) = answered
  obtain ⟨redis', r⟩ := answered
  rcases r with _ | (_ | _ | _ | _ | _ | _) <;> rfl

theorem redis_flushIn (redis : Database V) :
    (callL2In client env RedisCacheRepository.flush redis).1 =
      (Programs.attempt client.send (env.fault 0) (env.clock 0) redis .flushdb).1 := by
  simp only [callL2In, RedisCacheRepository.flush, Programs.run]
  generalize Programs.attempt client.send (env.fault 0) (env.clock 0) redis .flushdb = answered
  obtain ⟨redis', r⟩ := answered
  cases r <;> rfl

theorem holds_deleteIn (env : Surroundings) {L M : Content V → Prop}
    (hl1 : HoldsAt config key (fun entry => K entry.content) s.l1)
    (hredis : DocumentAt client key (fun json => N json.content) s.redis) (key' : String)
    (hK : key' ≠ key → ∀ c, K c → L c)
    (hN : ¬ (key' = key ∧ LayeredCall.ReachesRedis config (⟨.delete key', env⟩ : LayeredCall V)) →
      ∀ c, N c → M c) :
    HoldsAt config key (fun entry => L entry.content) (deleteIn client env key' s).1.l1 ∧
      DocumentAt client key (fun json => M json.content) (deleteIn client env key' s).1.redis := by
  have hfirst : HoldsAt config key (fun entry => L entry.content) (s.l1.delete key').1 := by
    by_cases hk : key' = key
    · subst hk
      exact hl1.delete_self
    · exact (hl1.mono fun entry => hK hk entry.content).delete key'
  unfold deleteIn
  simp only
  split
  · next havailable =>
    refine ⟨hfirst, ?_⟩
    by_cases hreach : key' = key ∧ env.fault 0 ≠ .lost
    · obtain ⟨rfl, hfault⟩ := hreach
      intro json expireAt hjson
      rw [redis_deleteIn, view_attempt hfault, Redis.exec_del,
        if_pos (List.mem_singleton_self key')] at hjson
      cases hjson
    · have hbefore : DocumentAt client key (fun json => M json.content) s.redis :=
        fun json expireAt hjson => hN (fun h => hreach ⟨h.1, h.2.2⟩) json.content
          (hredis json expireAt hjson)
      have hmeets : (RedisCacheRepository.delete key').Meets (fun _ => True)
          (RepliesAt key fun json => M json.content) (IssuesAt key fun json => M json.content)
          (fun _ => True) := RedisCacheRepository.delete_meets trivial fun _ => trivial
      exact (callL2In_at env hmeets hbefore).1
  · next havailable =>
    exact ⟨hfirst, fun json expireAt hjson => hN (fun h => havailable h.2.1) json.content
      (hredis json expireAt hjson)⟩

theorem holds_flushIn (env : Surroundings) {L M : Content V → Prop}
    (hl1 : HoldsAt config key (fun entry => K entry.content) s.l1)
    (hredis : DocumentAt client key (fun json => N json.content) s.redis)
    (hN : ¬ LayeredCall.ReachesRedis config (⟨.flush, env⟩ : LayeredCall V) →
      ∀ c, N c → M c) :
    HoldsAt config key (fun entry => L entry.content) (flushIn client env s).l1 ∧
      DocumentAt client key (fun json => M json.content) (flushIn client env s).redis := by
  have hfirst : HoldsAt config key (fun entry => L entry.content) s.l1.flush := hl1.flush
  unfold flushIn
  simp only
  split
  · next havailable =>
    refine ⟨hfirst, ?_⟩
    by_cases hfault : env.fault 0 = .lost
    · have hbefore : DocumentAt client key (fun json => M json.content) s.redis :=
        fun json expireAt hjson => hN (fun h => h.2 hfault) json.content
          (hredis json expireAt hjson)
      have hmeets : (RedisCacheRepository.flush : RedisProgram V Unit).Meets (fun _ => True)
          (RepliesAt key fun json => M json.content) (IssuesAt key fun json => M json.content)
          (fun _ => True) := by
        refine ⟨trivial, fun r _ => ?_⟩
        cases r <;> trivial
      exact (callL2In_at env hmeets hbefore).1
    · intro json expireAt hjson
      rw [redis_flushIn, view_attempt hfault] at hjson
      cases hjson
  · next havailable =>
    exact ⟨hfirst, fun json expireAt hjson => hN (fun h => havailable h.1) json.content
      (hredis json expireAt hjson)⟩

end Contents

end LayeredCacheRepository

end EdgeCache
