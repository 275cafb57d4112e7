import EdgeCache.LayeredOperations

/-!
The rule for what all calls of the layered repository keep. `P` is said of the first tier's
entry under a key, `I` of Redis, and `Q` of an entry that Redis gives for the key. Once Redis
keeps `I` through the commands of a call, and what it gives may be promoted, each call keeps
both, the bulk calls with whatever order their parts take.
-/
namespace EdgeCache

open Programs (Program)

variable {V : Type}

/-- Every reading of the clock is one of these. -/
structure Surroundings.Reads (read : Time → Prop) (env : Surroundings) : Prop where
  l1 : ∀ i, read (env.l1 i)
  l2 : ∀ i, read (env.l2 i).now
  promotion : ∀ i, read (env.promotion i)
  turns : ∀ turn ∈ env.turns, read turn.now ∧ ∀ i, read (turn.promotion i)

theorem Conditions.reads_surroundings {read : Time → Prop} {c : Conditions} (h : read c.now) :
    c.surroundings.Reads read :=
  ⟨fun _ => h, fun _ => h, fun _ => h, fun _ hturn => absurd hturn List.not_mem_nil⟩

/-- The commands on given keys are among these. -/
def ServerCommand.Within (issue : Command V → Prop) : ServerCommand V → Prop
  | .keyed c => issue c
  | _ => True

structure TierRule (client : Client) (config : Config) (key : String) (read : Time → Prop)
    (reply : Command V → Reply V → Prop) (issue : Command V → Prop) (P Q : CacheEntry V → Prop)
    (I : Database V → Prop) : Prop where
  serves : Programs.Serves client.send read reply issue I
  hit : ∀ entry, P entry → P entry.registerHit
  get : ∀ key', (RedisCacheRepository.get key' : RedisProgram V _).Meets read reply issue
    fun found => key' = key → ∀ entry, found = some entry → Q entry
  promoted : ∀ entry, Q entry → ∀ now later, read now → read later →
    P (MemoryView.newEntry config later key entry.value
      (LayeredCacheRepository.promotion entry now))

/-! ### What the programs issue -/

namespace RedisCacheRepository

section Meets

variable {read : Time → Prop} {reply : Command V → Reply V → Prop} {issue : Command V → Prop}

theorem deleteTurn_meets {read : Moment → Prop} {reply : ServerCommand V → ServerReply V → Prop}
    {issue : ServerCommand V → Prop} {pattern cursor : String} {count : ℕ}
    {next : String → ℕ → ServerProgram V (Option ℕ)} (hscan : issue (.scan cursor pattern))
    (hdel : ∀ cursor' keys, reply (.scan cursor pattern) (.page cursor' keys) →
      issue (.keyed (.del keys)))
    (hnext : ∀ cursor count, (next cursor count).Meets read reply issue fun _ => True) :
    (deleteTurn pattern cursor count next).Meets read reply issue fun _ => True := by
  refine ⟨hscan, fun r hr => ?_⟩
  rcases r with _ | (_ | ⟨cursor', keys⟩ | _ | _)
  case some.page =>
    dsimp only
    split
    · refine ⟨hdel cursor' keys (hr _ rfl), fun r _ => ?_⟩
      rcases r with _ | ((_ | _ | _ | n | _ | _) | _ | _ | _)
      case some.keyed.integer => exact hnext cursor' _
      all_goals trivial
    · exact hnext cursor' _
  all_goals trivial

theorem deleteScanned_meets {read : Moment → Prop}
    {reply : ServerCommand V → ServerReply V → Prop} {issue : ServerCommand V → Prop}
    {pattern : String} (hscan : ∀ cursor, issue (.scan cursor pattern))
    (hdel : ∀ cursor cursor' keys, reply (.scan cursor pattern) (.page cursor' keys) →
      issue (.keyed (.del keys))) (scans : ℕ) (cursor : String) (count : ℕ) :
    (deleteScanned pattern scans cursor count).Meets read reply issue fun _ => True := by
  induction scans generalizing cursor count with
  | zero =>
    rw [deleteScanned_zero]
    refine deleteTurn_meets (hscan cursor) (hdel cursor) fun cursor' count' => ?_
    split <;> trivial
  | succ scans ih =>
    rw [deleteScanned_succ]
    refine deleteTurn_meets (hscan cursor) (hdel cursor) fun cursor' count' => ?_
    split
    · trivial
    · exact ih cursor' count'

theorem deleteScanned_onlyCalls (hdel : ∀ keys, issue (.del keys)) (pattern : String) (scans : ℕ)
    (cursor : String) (count : ℕ) :
    (deleteScanned pattern scans cursor count).OnlyCalls (ServerCommand.Within issue) :=
  deleteScanned_meets (fun _ => trivial) (fun _ _ keys _ => hdel keys) scans cursor count

theorem keysScanned_onlyCalls (pattern : String) (scans : ℕ) (cursor : String)
    (keys : List String) : (keysScanned pattern scans cursor keys : ServerProgram V _).OnlyCalls
      (ServerCommand.Within issue) := by
  induction scans generalizing cursor keys with
  | zero =>
    unfold keysScanned
    refine ⟨trivial, fun r _ => ?_⟩
    rcases r with _ | (_ | ⟨cursor', batch⟩ | _ | _)
    case some.page =>
      dsimp only
      split <;> trivial
    all_goals trivial
  | succ scans ih =>
    unfold keysScanned
    refine ⟨trivial, fun r _ => ?_⟩
    rcases r with _ | (_ | ⟨cursor', batch⟩ | _ | _)
    case some.page =>
      dsimp only
      split
      · trivial
      · exact ih cursor' _
    all_goals trivial

theorem getStats_onlyCalls (hget : issue (.get statsKey)) :
    (getStats : ServerProgram V _).OnlyCalls (ServerCommand.Within issue) := by
  refine ⟨trivial, fun r _ => ?_⟩
  rcases r with _ | (_ | _ | info | _)
  case some.text =>
    refine ⟨hget, fun r _ => ?_⟩
    cases r with
    | none => trivial
    | some _ =>
      refine ⟨trivial, fun r _ => ?_⟩
      rcases r with _ | (_ | _ | memInfo | _)
      case text =>
        refine ⟨trivial, fun r _ => ?_⟩
        rcases r with _ | (_ | _ | _ | n) <;> trivial
      all_goals trivial
  all_goals trivial

end Meets

end RedisCacheRepository

namespace TierRule

open LayeredCacheRepository

variable {client : Client} {config : Config} {key : String} {read : Time → Prop}
  {reply : Command V → Reply V → Prop} {issue : Command V → Prop} {P Q : CacheEntry V → Prop}
  {I : Database V → Prop}

/-! ### Calls of the second tier -/

theorem callL2In (h : TierRule client config key read reply issue P Q I) {env : Surroundings}
    (henv : env.Reads read) {α : Type} {p : RedisProgram V α} {post : α → Prop}
    (hp : p.Meets read reply issue post) {redis : Database V} (hI : I redis) :
    I (callL2In client env p redis).1 ∧
      ∀ a, (LayeredCacheRepository.callL2In client env p redis).2 = some a → post a :=
  Programs.run_meets h.serves env.fault henv.l2 hp 0 hI

theorem serve_serves (h : Programs.Serves client.send read reply issue I) :
    Programs.Serves client.serve (fun m => read m.now) (fun _ _ => True)
      (ServerCommand.Within issue) I := by
  intro m db c hm hdb hc
  cases c with
  | keyed c => exact ⟨(h m.now db c hm hdb hc).1, fun _ _ => trivial⟩
  | scan cursor pattern => exact ⟨hdb, fun _ _ => trivial⟩
  | info section_ => exact ⟨hdb, fun _ _ => trivial⟩
  | dbsize => exact ⟨hdb, fun _ _ => trivial⟩

theorem scanL2In (h : TierRule client config key read reply issue P Q I) {env : Surroundings}
    (henv : env.Reads read) {α : Type} {p : ServerProgram V α}
    (hp : p.OnlyCalls (ServerCommand.Within issue)) {redis : Database V} (hI : I redis) :
    I (scanL2In client env p redis).1 := by
  exact (Programs.run_meets (serve_serves h.serves) env.fault henv.l2 hp.meets 0 hI).1

/-! ### Single calls -/

variable {env : Surroundings} {s : Tiers V}

/-- A read keeps both, and finds an entry of the first tier that has not expired or what
Redis gives. -/
theorem getIn (h : TierRule client config key read reply issue P Q I) (henv : env.Reads read)
    (hl1 : HoldsAt config key P s.l1) (hI : I s.redis) (key' : String) :
    HoldsAt config key P (getIn client env key' s).1.l1 ∧ I (getIn client env key' s).1.redis ∧
      (key' = key → ∀ entry, (LayeredCacheRepository.getIn client env key' s).2 = some entry →
        P entry ∧ entry.isExpired (env.l1 0) = false ∨ Q entry) := by
  obtain ⟨hl1', hfound⟩ := hl1.get h.hit env.l1 key'
  obtain ⟨hI', hfound'⟩ := h.callL2In henv (h.get key') hI
  unfold LayeredCacheRepository.getIn
  cases hresult : s.l1.get env.l1 key' with
  | mk l1 found =>
    rw [hresult] at hl1' hfound
    cases found with
    | some entry =>
      refine ⟨hl1', hI, fun hk entry' hentry => Or.inl ?_⟩
      exact hfound hk entry' hentry
    | none =>
      by_cases havailable : env.redisAvailable 0 = true
      · simp only [havailable, ↓reduceIte]
        cases hresult' : LayeredCacheRepository.callL2In client env
            (RedisCacheRepository.get key') s.redis with
        | mk redis found' =>
          rw [hresult'] at hI' hfound'
          rcases found' with _ | _ | entry
          · exact ⟨hl1', hI', fun _ entry hentry => by cases hentry⟩
          · exact ⟨hl1', hI', fun _ entry hentry => by cases hentry⟩
          · refine ⟨hl1'.promote env.promotion key' entry fun hk => ?_, hI',
              fun hk entry' hentry => Or.inr ?_⟩
            · exact h.promoted entry (hfound' _ rfl hk entry rfl) _ _ (henv.promotion 0)
                (henv.promotion 2)
            · exact hfound' _ rfl hk entry' hentry
      · simp only [havailable, Bool.false_eq_true, ↓reduceIte]
        exact ⟨hl1', hI, fun _ entry hentry => by cases hentry⟩

theorem setIn (h : TierRule client config key read reply issue P Q I) (henv : env.Reads read)
    (hl1 : HoldsAt config key P s.l1) (hI : I s.redis) {key' : String} {value : V}
    {options : SetOptions}
    (hnew : key' = key → (s.l1.set env.l1 key' value options).entryAt key =
        some (MemoryView.newEntry config (env.l1 1) key value options) →
      P (MemoryView.newEntry config (env.l1 1) key value options))
    (hset : (RedisCacheRepository.set config key' value options).Meets read reply issue
      fun _ => True) :
    HoldsAt config key P (setIn client config env key' value options s).l1 ∧
      I (setIn client config env key' value options s).redis := by
  have hfirst := hl1.set env.l1 key' value options hnew
  have hsecond := (h.callL2In henv hset hI).1
  unfold LayeredCacheRepository.setIn
  simp only
  split
  · exact ⟨hfirst, hsecond⟩
  · exact ⟨hfirst, hI⟩

theorem deleteIn (h : TierRule client config key read reply issue P Q I) (henv : env.Reads read)
    (hl1 : HoldsAt config key P s.l1) (hI : I s.redis) {key' : String}
    (hdel : issue (.del [key'])) :
    HoldsAt config key P (deleteIn client env key' s).1.l1 ∧
      I (deleteIn client env key' s).1.redis := by
  have hfirst := hl1.delete key'
  have hmeets : (RedisCacheRepository.delete key' : RedisProgram V _).Meets read reply issue
      fun _ => True := RedisCacheRepository.delete_meets hdel fun _ => trivial
  have hsecond := (h.callL2In henv hmeets hI).1
  unfold LayeredCacheRepository.deleteIn
  simp only
  split
  · exact ⟨hfirst, hsecond⟩
  · exact ⟨hfirst, hI⟩

theorem deleteByTagsIn (h : TierRule client config key read reply issue P Q I)
    (henv : env.Reads read) (hl1 : HoldsAt config key P s.l1) (hI : I s.redis)
    (hmembers : ∀ tag, issue (.smembers (tagKey tag))) (hdel : ∀ keys, issue (.del keys))
    (tags : List String) :
    HoldsAt config key P (deleteByTagsIn client env tags s).1.l1 ∧
      I (deleteByTagsIn client env tags s).1.redis := by
  have hfirst := hl1.deleteByTags tags
  have hsecond := (h.callL2In henv
    (RedisCacheRepository.deleteTags_meets hmembers hdel tags 0) hI).1
  unfold LayeredCacheRepository.deleteByTagsIn
  simp only
  split
  · exact ⟨hfirst, hsecond⟩
  · exact ⟨hfirst, hI⟩

theorem deleteByPatternIn (h : TierRule client config key read reply issue P Q I)
    (henv : env.Reads read) (hl1 : HoldsAt config key P s.l1) (hI : I s.redis)
    (hdel : ∀ keys, issue (.del keys)) (regExp : RegExp) (pattern : String) :
    HoldsAt config key P (deleteByPatternIn client regExp env pattern s).1.l1 ∧
      I (deleteByPatternIn client regExp env pattern s).1.redis := by
  have hfirst := hl1.deleteByPattern regExp pattern
  have hsecond : I (LayeredCacheRepository.scanL2In client env
      (RedisCacheRepository.deleteByPattern env.scans pattern) s.redis).1 :=
    h.scanL2In henv (RedisCacheRepository.deleteScanned_onlyCalls hdel pattern env.scans "0" 0) hI
  unfold LayeredCacheRepository.deleteByPatternIn
  split
  · next hcompiles =>
    rw [hcompiles] at hfirst
    exact ⟨hfirst, hI⟩
  · next hcompiles =>
    rw [hcompiles] at hfirst
    split
    · split
      all_goals next hscan =>
        rw [hscan] at hsecond
        exact ⟨hfirst, hsecond⟩
    · exact ⟨hfirst, hI⟩

theorem existsIn (h : TierRule client config key read reply issue P Q I) (henv : env.Reads read)
    (hl1 : HoldsAt config key P s.l1) (hI : I s.redis) {key' : String}
    (hexists : issue (.exists_ key')) :
    HoldsAt config key P (existsIn client env key' s).1.l1 ∧
      I (existsIn client env key' s).1.redis := by
  have hfirst := hl1.exists_ env.l1 key'
  have hmeets : (RedisCacheRepository.exists_ key' : RedisProgram V _).Meets read reply issue
      fun _ => True := by
    refine ⟨hexists, fun r _ => ?_⟩
    rcases r with _ | (_ | _ | _ | n | _ | _) <;> trivial
  have hsecond := (h.callL2In henv hmeets hI).1
  unfold LayeredCacheRepository.existsIn
  split
  · next hfound =>
    rw [hfound] at hfirst
    exact ⟨hfirst, hI⟩
  · next hfound =>
    rw [hfound] at hfirst
    split
    · exact ⟨hfirst, hsecond⟩
    · exact ⟨hfirst, hI⟩

theorem getStatsIn (h : TierRule client config key read reply issue P Q I)
    (henv : env.Reads read) (hl1 : HoldsAt config key P s.l1) (hI : I s.redis)
    (hget : issue (.get RedisCacheRepository.statsKey)) (memoryUsageMb : ℚ) :
    HoldsAt config key P (getStatsIn client env memoryUsageMb s).1.l1 ∧
      I (getStatsIn client env memoryUsageMb s).1.redis := by
  have hsecond : I (LayeredCacheRepository.scanL2In client env RedisCacheRepository.getStats
      s.redis).1 := h.scanL2In henv (RedisCacheRepository.getStats_onlyCalls hget) hI
  unfold LayeredCacheRepository.getStatsIn
  simp only
  split
  · split
    all_goals next hscan =>
      rw [hscan] at hsecond
      exact ⟨hl1, hsecond⟩
  · exact ⟨hl1, hI⟩

theorem flushIn (h : TierRule client config key read reply issue P Q I) (henv : env.Reads read)
    (hl1 : HoldsAt config key P s.l1) (hI : I s.redis) (hflush : issue .flushdb) :
    HoldsAt config key P (flushIn client env s).l1 ∧ I (flushIn client env s).redis := by
  have hfirst : HoldsAt config key P s.l1.flush := hl1.flush
  have hmeets : (RedisCacheRepository.flush : RedisProgram V _).Meets read reply issue
      fun _ => True := by
    refine ⟨hflush, fun r _ => ?_⟩
    cases r <;> trivial
  have hsecond := (h.callL2In henv hmeets hI).1
  unfold LayeredCacheRepository.flushIn
  simp only
  split
  · exact ⟨hfirst, hsecond⟩
  · exact ⟨hfirst, hI⟩

theorem keysIn (h : TierRule client config key read reply issue P Q I) (henv : env.Reads read)
    (hl1 : HoldsAt config key P s.l1) (hI : I s.redis) (regExp : RegExp)
    (pattern : Option String) :
    HoldsAt config key P (keysIn client regExp env pattern s).1.l1 ∧
      I (keysIn client regExp env pattern s).1.redis := by
  have hsecond : I (LayeredCacheRepository.scanL2In client env
      (RedisCacheRepository.keys env.scans pattern) s.redis).1 :=
    h.scanL2In henv
      (RedisCacheRepository.keysScanned_onlyCalls (pattern.getD "*") env.scans "0" []) hI
  unfold LayeredCacheRepository.keysIn
  split
  · exact ⟨hl1, hI⟩
  · split
    · split
      all_goals next hscan =>
        rw [hscan] at hsecond
        exact ⟨hl1, hsecond⟩
    · exact ⟨hl1, hI⟩

/-! ### Bulk calls -/

section Bulk

variable {α : Type}
  {onReturn : Clock → String → α → MemoryCacheRepository V → MemoryCacheRepository V}
  {post : String → α → Prop}

/-- Both hold, and what is under way promises to keep them. -/
structure Ongoing (config : Config) (key : String) (read : Time → Prop)
    (reply : Command V → Reply V → Prop) (issue : Command V → Prop) (P : CacheEntry V → Prop)
    (I : Database V → Prop) (post : String → α → Prop) (s : Bulk V α) : Prop where
  l1 : HoldsAt config key P s.tiers.l1
  redis : I s.tiers.redis
  meets : ∀ (i : ℕ) (key' : String) (p : RedisProgram V α), s.threads[i]? = some (key', p) →
    Bulk.isOver p = false → p.Meets read reply issue (post key')

def Settles (config : Config) (key : String) (read : Time → Prop) (P : CacheEntry V → Prop)
    (post : String → α → Prop)
    (onReturn : Clock → String → α → MemoryCacheRepository V → MemoryCacheRepository V) : Prop :=
  ∀ promotion key' a l1, (∀ i, read (promotion i)) → post key' a → HoldsAt config key P l1 →
    HoldsAt config key P (onReturn promotion key' a l1)

variable {s : Bulk V α}

theorem Ongoing.replace (hs : Ongoing config key read reply issue P I post s)
    (hreturn : Settles config key read P post onReturn) {promotion : Clock}
    (hpromotion : ∀ i, read (promotion i)) {i : ℕ} {key' : String} {p : RedisProgram V α}
    (hp : p.Meets read reply issue (post key')) {redis : Database V} (hI : I redis) :
    Ongoing config key read reply issue P I post
      ⟨⟨Bulk.settle onReturn promotion key' p s.tiers.l1, redis⟩, s.threads.set i (key', p)⟩ where
  l1 := by
    cases p with
    | ret a => exact hreturn promotion key' a _ hpromotion hp hs.l1
    | _ => exact hs.l1
  redis := hI
  meets := by
    intro j key'' p' hj hover
    rcases Bulk.getElem?_set_cases hj with ⟨rfl, heq⟩ | hold
    · obtain ⟨rfl, rfl⟩ := Prod.mk.inj heq
      exact hp
    · exact hs.meets j key'' p' hold hover

theorem Ongoing.takeTurn (hs : Ongoing config key read reply issue P I post s)
    (h : TierRule client config key read reply issue P Q I)
    (hreturn : Settles config key read P post onReturn) {turn : Turn}
    (hturn : read turn.now ∧ ∀ i, read (turn.promotion i)) :
    Ongoing config key read reply issue P I post (Bulk.takeTurn client onReturn s turn) := by
  unfold Bulk.takeTurn
  split
  · exact hs
  · next key' p hthread =>
    split
    · exact hs
    · next hover =>
      obtain ⟨hI, hp⟩ := Programs.advance_meets h.serves turn.fault hturn.1
        (hs.meets _ key' p hthread (Bool.not_eq_true _ ▸ hover)) hs.redis
      exact hs.replace hreturn hturn.2 hp hI

theorem Ongoing.complete (hs : Ongoing config key read reply issue P I post s)
    (h : TierRule client config key read reply issue P Q I)
    (hreturn : Settles config key read P post onReturn) (henv : env.Reads read) (i : ℕ) :
    Ongoing config key read reply issue P I post (Bulk.complete client onReturn env s i) := by
  unfold Bulk.complete
  split
  · exact hs
  · next key' p hthread =>
    split
    · exact hs
    · next hover =>
      obtain ⟨hI, hresult⟩ := h.callL2In henv
        (hs.meets _ key' p hthread (Bool.not_eq_true _ ▸ hover)) hs.redis
      refine hs.replace hreturn henv.promotion ?_ hI
      cases hreturned : (Programs.run client.send env.clock env.fault 0 p s.tiers.redis).2 with
      | none => trivial
      | some a => exact hresult a hreturned

theorem Ongoing.run (hs : Ongoing config key read reply issue P I post s)
    (h : TierRule client config key read reply issue P Q I)
    (hreturn : Settles config key read P post onReturn) (henv : env.Reads read) :
    Ongoing config key read reply issue P I post (Bulk.run client onReturn env s) := by
  unfold Bulk.run
  refine List.foldlRecOn (motive := Ongoing config key read reply issue P I post) _ _ ?_
    fun s hs i _ => hs.complete h hreturn henv i
  exact List.foldlRecOn (motive := Ongoing config key read reply issue P I post) _ _ hs
    fun s hs turn hturn => hs.takeTurn h hreturn (henv.turns turn hturn)

end Bulk

theorem mgetIn (h : TierRule client config key read reply issue P Q I) (henv : env.Reads read)
    (hl1 : HoldsAt config key P s.l1) (hI : I s.redis) (keys : List String) :
    HoldsAt config key P (mgetIn client env keys s).1.l1 ∧
      I (mgetIn client env keys s).1.redis := by
  have hstart : Ongoing config key read reply issue P I
      (fun key' found => key' = key → ∀ entry, found = some entry → Q entry)
      (⟨⟨(s.l1.mget env.l1 keys).1, s.redis⟩, mgetThreads env keys (s.l1.mget env.l1 keys).2⟩ :
        Bulk V (Option (CacheEntry V))) := by
    refine ⟨hl1.mget h.hit env.l1 keys, hI, fun i key' p hi hover => ?_⟩
    obtain ⟨entry, -, rfl⟩ := mem_mgetThreads hi
    unfold getThread at hover ⊢
    cases entry with
    | some entry => cases hover
    | none =>
      simp only at hover ⊢
      split
      · exact h.get key'
      · exact fun _ entry hentry => by cases hentry
  have hreturn : Settles config key read P
      (fun key' found => key' = key → ∀ entry : CacheEntry V, found = some entry → Q entry)
      promoteFound := by
    intro promotion key' found l1 hpromotion hfound hl1
    cases found with
    | none => exact hl1
    | some entry =>
      exact hl1.promote promotion key' entry fun hk =>
        h.promoted entry (hfound hk entry rfl) _ _ (hpromotion 0) (hpromotion 2)
  rw [mgetIn_eq]
  exact ⟨(hstart.run h hreturn henv).l1, (hstart.run h hreturn henv).redis⟩

theorem msetIn (h : TierRule client config key read reply issue P Q I) (henv : env.Reads read)
    (hl1 : HoldsAt config key P s.l1) (hI : I s.redis)
    {entries : List (String × V × SetOptions)} (hnew : ∀ value options,
      (key, value, options) ∈ entries → ∀ now, read now →
        P (MemoryView.newEntry config now key value options))
    (hset : ∀ p ∈ entries, (RedisCacheRepository.set config p.1 p.2.1 p.2.2).Meets read reply
      issue fun _ => True) :
    HoldsAt config key P (msetIn client config env entries s).l1 ∧
      I (msetIn client config env entries s).redis := by
  have hstart : Ongoing config key read reply issue P I (fun _ _ => True)
      (⟨⟨s.l1.mset env.l1 entries, s.redis⟩, msetThreads config env entries⟩ : Bulk V Unit) := by
    refine ⟨hl1.mset env.l1 fun value options hmem i => hnew value options hmem _ (henv.l1 i), hI,
      fun i key' p hi _ => ?_⟩
    obtain ⟨value, options, hmem, rfl⟩ := mem_msetThreads hi
    unfold setThread
    split
    · exact hset _ hmem
    · trivial
  have hreturn : Settles config key read P (fun (_ : String) (_ : Unit) => True)
      fun _ _ _ l1 => l1 := fun _ _ _ _ _ _ hl1 => hl1
  rw [msetIn_eq]
  exact ⟨(hstart.run h hreturn henv).l1, (hstart.run h hreturn henv).redis⟩

/-! ### Any call -/

/-- What a call brings: the entries it makes for the key, and the commands it issues
besides those of a read. -/
def Brings (config : Config) (key : String) (read : Time → Prop)
    (reply : Command V → Reply V → Prop) (issue : Command V → Prop) (P : CacheEntry V → Prop)
    (env : Surroundings) (s : Tiers V) : Op V → Prop
  | .get _ | .keys _ | .mget _ | .sweep => True
  | .set key' value options =>
    (key' = key → (s.l1.set env.l1 key' value options).entryAt key =
        some (MemoryView.newEntry config (env.l1 1) key value options) →
      P (MemoryView.newEntry config (env.l1 1) key value options)) ∧
    (RedisCacheRepository.set config key' value options).Meets read reply issue fun _ => True
  | .delete key' => issue (.del [key'])
  | .deleteByTags _ => (∀ tag, issue (.smembers (tagKey tag))) ∧ ∀ keys, issue (.del keys)
  | .deleteByPattern _ => ∀ keys, issue (.del keys)
  | .exists_ key' => issue (.exists_ key')
  | .getStats _ => issue (.get RedisCacheRepository.statsKey)
  | .flush => issue .flushdb
  | .mset entries =>
    (∀ value options, (key, value, options) ∈ entries → ∀ now, read now →
      P (MemoryView.newEntry config now key value options)) ∧
    ∀ p ∈ entries, (RedisCacheRepository.set config p.1 p.2.1 p.2.2).Meets read reply issue
      fun _ => True

/-- One call keeps what is said of both tiers. -/
theorem callIn (h : TierRule client config key read reply issue P Q I) (henv : env.Reads read)
    (hl1 : HoldsAt config key P s.l1) (hI : I s.redis) (regExp : RegExp) {op : Op V}
    (hop : Brings config key read reply issue P env s op) :
    HoldsAt config key P (callIn client config regExp env op s).1.l1 ∧
      I (callIn client config regExp env op s).1.redis := by
  cases op with
  | get key' =>
    obtain ⟨hl1', hI', -⟩ := h.getIn henv hl1 hI key'
    exact ⟨hl1', hI'⟩
  | set key' value options => exact h.setIn henv hl1 hI hop.1 hop.2
  | delete key' => exact h.deleteIn henv hl1 hI hop
  | deleteByTags tags => exact h.deleteByTagsIn henv hl1 hI hop.1 hop.2 tags
  | deleteByPattern pattern => exact h.deleteByPatternIn henv hl1 hI hop regExp pattern
  | exists_ key' => exact h.existsIn henv hl1 hI hop
  | getStats memoryUsageMb => exact h.getStatsIn henv hl1 hI hop memoryUsageMb
  | flush => exact h.flushIn henv hl1 hI hop
  | keys pattern => exact h.keysIn henv hl1 hI regExp pattern
  | mget keys => exact h.mgetIn henv hl1 hI keys
  | mset entries => exact h.msetIn henv hl1 hI hop.1 hop.2
  | sweep => exact ⟨hl1.sweep env.l1, hI⟩

end TierRule

/-! ### Runs -/

/-- What hits keep and all new entries have is kept, whatever Redis holds. -/
theorem tierRule_of_new (client : Client) {config : Config} {key : String}
    {P : CacheEntry V → Prop} (hhit : ∀ entry, P entry → P entry.registerHit)
    (hnew : ∀ now value options, P (MemoryView.newEntry config now key value options)) :
    TierRule client config key (fun _ => True) (fun _ _ => True) (fun _ => True) P
      (fun _ => True) (fun _ => True) where
  serves := fun _ _ _ _ _ _ => ⟨trivial, fun _ _ => trivial⟩
  hit := hhit
  get := fun _ => RedisCacheRepository.get_meets trivial trivial (fun _ _ _ => trivial)
    fun _ _ _ _ _ => ⟨trivial, fun _ _ _ => trivial⟩
  promoted := fun entry _ _ later _ _ => hnew later entry.value _

theorem brings_of_new {config : Config} {key : String} {P : CacheEntry V → Prop}
    (hnew : ∀ now value options, P (MemoryView.newEntry config now key value options))
    (env : Surroundings) (s : Tiers V) (op : Op V) :
    TierRule.Brings config key (fun _ => True) (fun _ _ => True) (fun _ => True) P env s op := by
  have hset : ∀ key' value options, (RedisCacheRepository.set config key' value options).Meets
      (fun _ => True) (fun (_ : Command V) (_ : Reply V) => True) (fun _ => True)
      fun _ => True := fun key' value options =>
    RedisCacheRepository.set_meets trivial (fun _ _ _ _ => trivial)
      fun _ _ => ⟨trivial, fun _ => trivial⟩
  cases op with
  | set key' value options => exact ⟨fun _ _ => hnew _ value options, hset key' value options⟩
  | deleteByTags tags => exact ⟨fun _ => trivial, fun _ => trivial⟩
  | deleteByPattern pattern => exact fun _ => trivial
  | mset entries =>
    exact ⟨fun value options _ now _ => hnew now value options, fun p _ => hset p.1 p.2.1 p.2.2⟩
  | _ => trivial

theorem Surroundings.reads_true (env : Surroundings) : env.Reads fun _ => True :=
  ⟨fun _ => trivial, fun _ => trivial, fun _ => trivial, fun _ _ => ⟨trivial, fun _ => trivial⟩⟩

namespace LayeredCacheRepository

theorem holds_stepIn_of_new (client : Client) {config : Config} (regExp : RegExp) {key : String}
    {P : CacheEntry V → Prop} (hhit : ∀ entry, P entry → P entry.registerHit)
    (hnew : ∀ now value options, P (MemoryView.newEntry config now key value options))
    {s : Tiers V} (hs : HoldsAt config key P s.l1) (e : LayeredCall V) :
    HoldsAt config key P (stepIn client config regExp s e).l1 :=
  ((tierRule_of_new client hhit hnew).callIn e.env.reads_true hs trivial regExp
    (brings_of_new hnew e.env s e.op)).1

theorem holds_reachIn_of_new (client : Client) {config : Config} (regExp : RegExp) {key : String}
    {P : CacheEntry V → Prop} (hhit : ∀ entry, P entry → P entry.registerHit)
    (hnew : ∀ now value options, P (MemoryView.newEntry config now key value options))
    (redis : Database V) (calls : List (LayeredCall V)) :
    HoldsAt config key P (reachIn client config regExp redis calls).l1 :=
  Runs.run_invariant (I := fun s : Tiers V => HoldsAt config key P s.l1)
    (fun _ e hs => holds_stepIn_of_new client regExp hhit hnew hs e) (HoldsAt.new config key _)
    calls

/-- Whatever becomes of Redis, the first tier stays in order. -/
theorem holds_stepIn (client : Client) (config : Config) (regExp : RegExp) (key : String)
    {s : Tiers V} (hs : HoldsAt config key (fun _ => True) s.l1) (e : LayeredCall V) :
    HoldsAt config key (fun _ => True) (stepIn client config regExp s e).l1 :=
  holds_stepIn_of_new client regExp (fun _ _ => trivial) (fun _ _ _ => trivial) hs e

theorem holds_reachIn (client : Client) (config : Config) (regExp : RegExp) (key : String)
    (redis : Database V) (calls : List (LayeredCall V)) :
    HoldsAt config key (fun _ => True) (reachIn client config regExp redis calls).l1 :=
  holds_reachIn_of_new client regExp (fun _ _ => trivial) (fun _ _ _ => trivial) redis calls

end LayeredCacheRepository

end EdgeCache
