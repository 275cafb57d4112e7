import EdgeCache.MemoryRefinement
import EdgeCache.RedisCache

/-!
`LayeredCacheRepository`: a memory tier over Redis. Reads fall through to Redis and what
they find there is promoted; writes go to both tiers. A call is taken at one reading of
the clock, with what `redisAvailable()` says then and what becomes of each command; a
call of the second tier that throws is caught, and the first tier serves alone. What a
tier may hold under a key is said of the entry; the rules say which calls keep it.
-/
namespace EdgeCache

open Programs (Program Fault faultless)

variable {V : Type}

structure Tiers (V : Type) where
  l1 : MemoryCacheRepository V
  redis : Database V

/-- The reading of the clock, the answer of `redisAvailable()`, and the faults of the
commands sent. -/
structure Conditions where
  now : Time
  redisAvailable : Bool
  fault : ℕ → Fault

namespace Conditions

def clock (c : Conditions) : Clock := fun _ => c.now

def good (now : Time) : Conditions := ⟨now, true, faultless⟩

end Conditions

namespace LayeredCacheRepository

/-- `{ ttl: l2Result.remainingTtl(), tags: l2Result.tags, metadata: l2Result.metadata }` -/
def promotion (entry : CacheEntry V) (now : Time) : SetOptions :=
  ⟨some (entry.remainingTtl now), some entry.tags, some entry.metadata, false⟩

def promote (clock : Clock) (key : String) (entry : CacheEntry V) (l1 : MemoryCacheRepository V) :
    MemoryCacheRepository V :=
  l1.set (fun i => clock (i + 1)) key entry.value (promotion entry (clock 0))

/-- A call of the second tier; it has no result when it throws. -/
def callL2 {α : Type} (client : Client) (c : Conditions) (p : RedisProgram V α)
    (redis : Database V) : Database V × Option α :=
  Programs.run client.send c.clock c.fault 0 p redis

def get (client : Client) (c : Conditions) (key : String) (s : Tiers V) :
    Tiers V × Option (CacheEntry V) :=
  match s.l1.get c.clock key with
  | (l1, some entry) => (⟨l1, s.redis⟩, some entry)
  | (l1, none) =>
    if c.redisAvailable then
      match callL2 client c (RedisCacheRepository.get key) s.redis with
      | (redis, some (some entry)) => (⟨promote c.clock key entry l1, redis⟩, some entry)
      | (redis, _) => (⟨l1, redis⟩, none)
    else (⟨l1, s.redis⟩, none)

def set (client : Client) (config : Config) (c : Conditions) (key : String) (value : V)
    (options : SetOptions) (s : Tiers V) : Tiers V :=
  let l1 := s.l1.set c.clock key value options
  if c.redisAvailable then
    ⟨l1, (callL2 client c (RedisCacheRepository.set config key value options) s.redis).1⟩
  else ⟨l1, s.redis⟩

def delete (client : Client) (c : Conditions) (key : String) (s : Tiers V) : Tiers V × Bool :=
  let (l1, deleted) := s.l1.delete key
  if c.redisAvailable then
    (⟨l1, (callL2 client c (RedisCacheRepository.delete key) s.redis).1⟩, deleted)
  else (⟨l1, s.redis⟩, deleted)

def flush (client : Client) (c : Conditions) (s : Tiers V) : Tiers V :=
  let l1 := s.l1.flush
  if c.redisAvailable then ⟨l1, (callL2 client c RedisCacheRepository.flush s.redis).1⟩
  else ⟨l1, s.redis⟩

end LayeredCacheRepository

/-- A call of the repository, or a firing of its first tier's eviction interval. -/
inductive LayeredOp (V : Type) where
  | get (key : String)
  | set (key : String) (value : V) (options : SetOptions)
  | delete (key : String)
  | flush
  | sweep

structure LayeredEvent (V : Type) where
  op : LayeredOp V
  conditions : Conditions

def LayeredCacheRepository.step (client : Client) (config : Config) (s : Tiers V)
    (e : LayeredEvent V) : Tiers V :=
  match e.op with
  | .get key => (get client e.conditions key s).1
  | .set key value options => set client config e.conditions key value options s
  | .delete key => (delete client e.conditions key s).1
  | .flush => flush client e.conditions s
  | .sweep => ⟨s.l1.sweep e.conditions.clock, s.redis⟩

namespace LayeredCacheRepository

/-- A call that goes through does to the client's view what it does to a Redis of its own. -/
theorem callL2_good {α : Type} (client : Client) (now : Time) (p : RedisProgram V α)
    (redis : Database V) :
    client.view (callL2 client (.good now) p redis).1 =
        (Programs.run Redis.exec (fun _ => now) faultless 0 p (client.view redis)).1 ∧
      (callL2 client (.good now) p redis).2 =
        (Programs.run Redis.exec (fun _ => now) faultless 0 p (client.view redis)).2 :=
  Programs.run_view client.view_send (fun _ => now) faultless 0 p redis

theorem get_redis (client : Client) (c : Conditions) (key : String) (s : Tiers V) :
    (get client c key s).1.redis = s.redis ∨
      (get client c key s).1.redis = (callL2 client c (RedisCacheRepository.get key) s.redis).1 := by
  unfold get
  split
  · exact Or.inl rfl
  · split
    · split
      · next hresult => exact Or.inr (congrArg Prod.fst hresult).symm
      · next hresult => exact Or.inr (congrArg Prod.fst hresult).symm
    · exact Or.inl rfl

theorem get_isSome_of_callL2 {client : Client} {now : Time} {key : String} {s : Tiers V}
    {entry : CacheEntry V}
    (h : (callL2 client (.good now) (RedisCacheRepository.get key) s.redis).2 = some (some entry)) :
    (get client (.good now) key s).2.isSome := by
  cases hresult : callL2 client (.good now) (RedisCacheRepository.get key) s.redis with
  | mk redis found =>
    obtain rfl : found = some (some entry) := by simpa [hresult] using h
    unfold get
    split
    · rfl
    · have havailable : (Conditions.good now).redisAvailable = true := rfl
      simp only [havailable, ↓reduceIte, hresult, Option.isSome_some]

end LayeredCacheRepository

/-! ### What the first tier holds under a key -/

/-- The first tier's entry under the key, if it has one, satisfies `P`. -/
def HoldsAt (config : Config) (key : String) (P : CacheEntry V → Prop)
    (l1 : MemoryCacheRepository V) : Prop :=
  ∃ v, MemoryCacheRepository.Shows config l1 v ∧
    ∀ entry, v.recency.lookup key = some entry → P entry

namespace HoldsAt

variable {config : Config} {key : String} {P Q : CacheEntry V → Prop}
  {l1 : MemoryCacheRepository V}

theorem new (config : Config) (key : String) (P : CacheEntry V → Prop) :
    HoldsAt config key P (MemoryCacheRepository.new config) :=
  ⟨_, MemoryCacheRepository.Shows.new config, fun entry h => by simp [MemoryView.empty] at h⟩

theorem of_entryAt (h : HoldsAt config key P l1) {entry : CacheEntry V}
    (hentry : l1.entryAt key = some entry) : P entry := by
  obtain ⟨v, hv, hP⟩ := h
  exact hP entry ((hv.entryAt_eq key).symm.trans hentry)

/-- A tier in order holds what its entry satisfies. -/
theorem intro_entryAt (h : HoldsAt config key Q l1)
    (hP : ∀ entry, l1.entryAt key = some entry → P entry) : HoldsAt config key P l1 := by
  obtain ⟨v, hv, -⟩ := h
  exact ⟨v, hv, fun entry hentry => hP entry ((hv.entryAt_eq key).trans hentry)⟩

theorem mono (hPQ : ∀ entry, P entry → Q entry) (h : HoldsAt config key P l1) :
    HoldsAt config key Q l1 := by
  obtain ⟨v, hv, hP⟩ := h
  exact ⟨v, hv, fun entry hentry => hPQ entry (hP entry hentry)⟩

/-- Whatever a call does to other keys' entries, ours may only go. -/
theorem fade {v v' : MemoryView V} {l1' : MemoryCacheRepository V}
    (hv' : MemoryCacheRepository.Shows config l1' v')
    (hP : ∀ entry, v.recency.lookup key = some entry → P entry)
    (hlookup : v'.recency.lookup key = v.recency.lookup key ∨ v'.recency.lookup key = none) :
    HoldsAt config key P l1' := by
  refine ⟨v', hv', fun entry hentry => ?_⟩
  rcases hlookup with hsame | hnone
  · exact hP entry (hsame ▸ hentry)
  · simp [hnone] at hentry

theorem get (h : HoldsAt config key P l1) (hhit : ∀ entry, P entry → P entry.registerHit)
    (clock : Clock) (key' : String) :
    HoldsAt config key P (l1.get clock key').1 ∧
      (key' = key → ∀ entry, (l1.get clock key').2 = some entry →
        P entry ∧ entry.isExpired (clock 0) = false) := by
  obtain ⟨v, hv, hP⟩ := h
  obtain ⟨hv', hfound⟩ := hv.get clock key'
  by_cases hk : key' = key
  · subst hk
    have hstored : ∀ entry, (v.recency.get (clock 0) key').2 = some entry →
        P entry ∧ entry.isExpired (clock 0) = false := by
      intro entry hentry
      obtain ⟨stored, hl, hfresh, rfl⟩ := (Recency.get_eq_some_iff key').mp hentry
      exact ⟨hhit stored (hP stored hl), hfresh⟩
    refine ⟨⟨_, hv', fun entry hentry => ?_⟩, fun _ entry hentry => hstored entry (hfound ▸ hentry)⟩
    rw [Recency.lookup_get_self] at hentry
    exact (hstored entry hentry).1
  · exact ⟨fade hv' hP (Or.inl (Recency.lookup_get_ne _ _ _ (Ne.symm hk))),
      fun heq => absurd heq hk⟩

theorem set (h : HoldsAt config key P l1) (clock : Clock) (key' : String) (value : V)
    (options : SetOptions)
    (hnew : key' = key → (l1.set clock key' value options).entryAt key =
        some (MemoryView.newEntry config (clock 1) key value options) →
      P (MemoryView.newEntry config (clock 1) key value options)) :
    HoldsAt config key P (l1.set clock key' value options) := by
  obtain ⟨v, hv, hP⟩ := h
  have hv' := hv.set clock key' value options
  rw [hv'.entryAt_eq] at hnew
  unfold MemoryView.set at hv' hnew
  split at hv'
  · exact ⟨v, hv', hP⟩
  · next hsuppressed =>
    by_cases hk : key' = key
    · subst hk
      refine ⟨_, hv', fun entry hentry => ?_⟩
      rw [if_neg hsuppressed] at hnew
      rw [MemoryView.store, Recency.lookup_store_self] at hnew hentry
      exact Option.some.inj hentry ▸ hnew rfl rfl
    · exact fade hv' hP (Recency.lookup_store_or _ _ _ _ (Ne.symm hk))

/-- A set without `ifNotExists` is never suppressed. -/
theorem set_self (h : HoldsAt config key P l1) (clock : Clock) (value : V)
    {options : SetOptions} (hnx : options.ifNotExists = false)
    (hnew : Q (MemoryView.newEntry config (clock 1) key value options)) :
    HoldsAt config key Q (l1.set clock key value options) := by
  obtain ⟨v, hv, -⟩ := h
  have hv' := hv.set clock key value options
  simp only [MemoryView.set, MemoryView.suppressed, hnx, Bool.false_and, Bool.false_eq_true,
    ↓reduceIte] at hv'
  refine ⟨_, hv', fun entry hentry => ?_⟩
  rw [MemoryView.store, Recency.lookup_store_self, Option.some.injEq] at hentry
  exact hentry ▸ hnew

theorem delete (h : HoldsAt config key P l1) (key' : String) :
    HoldsAt config key P (l1.delete key').1 := by
  obtain ⟨v, hv, hP⟩ := h
  exact fade (hv.delete key').1 hP (Recency.lookup_erase_or _ key key')

theorem delete_self (h : HoldsAt config key P l1) : HoldsAt config key Q (l1.delete key).1 := by
  obtain ⟨v, hv, -⟩ := h
  refine ⟨_, (hv.delete key).1, fun entry hentry => ?_⟩
  simp at hentry

theorem flush (h : HoldsAt config key P l1) : HoldsAt config key Q l1.flush := by
  obtain ⟨v, hv, -⟩ := h
  exact ⟨_, hv.flush, fun entry hentry => by simp [MemoryView.empty] at hentry⟩

theorem sweep (h : HoldsAt config key P l1) (clock : Clock) :
    HoldsAt config key P (l1.sweep clock) := by
  obtain ⟨v, hv, hP⟩ := h
  exact fade (hv.sweep clock) hP (Recency.lookup_retain_or _ key _)

theorem exists_ (h : HoldsAt config key P l1) (clock : Clock) (key' : String) :
    HoldsAt config key P (l1.exists_ clock key').1 := by
  obtain ⟨v, hv, hP⟩ := h
  refine fade (hv.exists_ clock key').1 hP ?_
  rw [Recency.dropIf_eq_retain]
  exact Recency.lookup_retain_or _ key _

theorem deleteByTags (h : HoldsAt config key P l1) (tags : List String) :
    HoldsAt config key P (l1.deleteByTags tags).1 := by
  obtain ⟨v, hv, hP⟩ := h
  exact fade (hv.deleteByTags tags).1 hP (MemoryView.lookup_deleteByTags_or tags v key)

theorem deleteByPattern (h : HoldsAt config key P l1) (regExp : RegExp) (pattern : String) :
    HoldsAt config key P (l1.deleteByPattern regExp pattern).1 := by
  obtain ⟨v, hv, hP⟩ := h
  refine fade (hv.deleteByPattern regExp pattern).1 hP ?_
  unfold MemoryView.deleteByPattern
  cases regExp (globSource pattern) with
  | none => exact Or.inl rfl
  | some test => exact Recency.lookup_retain_or _ key _

theorem deleteByPattern_self (h : HoldsAt config key P l1) {regExp : RegExp} {pattern : String}
    {test : String → Bool} (hcompiles : regExp (globSource pattern) = some test)
    (htest : test key = true) : HoldsAt config key Q (l1.deleteByPattern regExp pattern).1 := by
  obtain ⟨v, hv, -⟩ := h
  refine ⟨_, (hv.deleteByPattern regExp pattern).1, fun entry hentry => ?_⟩
  simp only [MemoryView.deleteByPattern, hcompiles, Option.elim_some, MemoryView.retain,
    Recency.lookup_retain, Option.filter_eq_some_iff, htest, Bool.not_true, Bool.false_eq_true,
    and_false] at hentry

theorem mget (h : HoldsAt config key P l1) (hhit : ∀ entry, P entry → P entry.registerHit)
    (clock : Clock) (keys : List String) : HoldsAt config key P (l1.mget clock keys).1 := by
  unfold MemoryCacheRepository.mget
  refine List.foldlRecOn (motive := fun state : MemoryCacheRepository V × _ =>
    HoldsAt config key P state.1) _ _ h fun state hstate p _ => ?_
  exact (hstate.get hhit (fun _ => clock p.2) p.1).1

theorem mset (h : HoldsAt config key P l1) (clock : Clock)
    {entries : List (String × V × SetOptions)} (hnew : ∀ value options,
      (key, value, options) ∈ entries → ∀ i, P (MemoryView.newEntry config (clock i) key value
        options)) : HoldsAt config key P (l1.mset clock entries) := by
  unfold MemoryCacheRepository.mset
  refine List.foldlRecOn (motive := HoldsAt config key P) _ _ h fun s hs p hp => ?_
  obtain ⟨⟨key', value, options⟩, i⟩ := p
  refine hs.set _ key' value options fun hk _ => hnew value options ?_ _
  exact hk ▸ List.fst_mem_of_mem_zipIdx hp

theorem promote (h : HoldsAt config key P l1) (clock : Clock) (key' : String)
    (entry : CacheEntry V) (hnew : key' = key → P (MemoryView.newEntry config (clock 2) key
      entry.value (LayeredCacheRepository.promotion entry (clock 0)))) :
    HoldsAt config key P (LayeredCacheRepository.promote clock key' entry l1) :=
  h.set _ key' entry.value _ fun hk _ => hnew hk

end HoldsAt

/-! ### What both tiers hold under a key -/

/-- A property of a key's entries that survives a hit, a trip through a document, and a
promotion before the entry expires. -/
structure Portable (config : Config) (key : String) (P : CacheEntry V → Prop) : Prop where
  hit : ∀ entry, P entry → P entry.registerHit
  document : ∀ entry, P entry → P (EntryJson.stringify entry).restore
  promoted : ∀ entry now, P entry → entry.isExpired now = false →
    P (MemoryView.newEntry config now key entry.value
      (LayeredCacheRepository.promotion entry now))

/-- The document Redis has under the key, if it has one, satisfies `J`. -/
def DocumentAt (client : Client) (key : String) (J : EntryJson V → Prop) (redis : Database V) :
    Prop :=
  ∀ json expireAt, client.view redis key = some ⟨.string json, expireAt⟩ → J json

/-- Documents a command may write, and documents it may be answered with. -/
def IssuesAt (key : String) (J : EntryJson V → Prop) : Command V → Prop
  | .set key' json _ => key' = key → J json
  | _ => True

def RepliesAt (key : String) (J : EntryJson V → Prop) : Command V → Reply V → Prop
  | .get key', .string json => key' = key → J json
  | _, _ => True

section Both

variable {client : Client} {config : Config} {key : String} {P : CacheEntry V → Prop}
  {J : EntryJson V → Prop}

theorem serves_at (client : Client) (key : String) (J : EntryJson V → Prop) :
    Programs.Serves client.send (fun _ => True) (RepliesAt key J) (IssuesAt key J)
      (DocumentAt client key J) := by
  intro now redis c _ hredis hissue
  obtain ⟨hview, hreply⟩ := client.view_send now redis c
  refine ⟨fun json expireAt hjson => ?_, fun r hr => ?_⟩
  · rw [hview] at hjson
    rcases Redis.exec_string hjson with ⟨mode, rfl⟩ | ⟨t, hold⟩
    · exact hissue rfl
    · exact hredis json t hold
  · rw [hreply] at hr
    cases c with
    | get key' =>
      cases r with
      | string json =>
        intro hk
        subst hk
        simp only [Redis.exec] at hr
        split at hr
        · cases hr
        · next json' t hfind =>
          obtain ⟨hdb, -⟩ := Redis.find_eq_some_iff.mp hfind
          simp only [Option.some.injEq, Reply.string.injEq] at hr
          exact hr ▸ hredis json' t hdb
        · cases hr
      | _ => trivial
    | _ => trivial

theorem get_meets_at (hP : Portable config key P) (key' : String) (now : Time) :
    (RedisCacheRepository.get key').Meets (· = now) (RepliesAt key fun json => P json.restore)
      (IssuesAt key fun json => P json.restore)
      (fun found => key' = key → ∀ entry, found = some entry →
        P entry ∧ entry.isExpired now = false) := by
  refine RedisCacheRepository.get_meets trivial trivial (fun _ entry h => by cases h) ?_
  rintro json _ rfl hreply hfresh
  refine ⟨fun hk => hP.document _ (hP.hit _ (hreply hk)), fun hk entry hentry => ?_⟩
  obtain rfl : json.restore.registerHit = entry := Option.some.inj hentry
  exact ⟨hP.hit _ (hreply hk), hfresh⟩

theorem callL2_at {α : Type} {p : RedisProgram V α} {post : α → Prop} (c : Conditions)
    (hp : p.Meets (· = c.now) (RepliesAt key J) (IssuesAt key J) post)
    {redis : Database V} (hredis : DocumentAt client key J redis) :
    DocumentAt client key J (LayeredCacheRepository.callL2 client c p redis).1 ∧
      ∀ a, (LayeredCacheRepository.callL2 client c p redis).2 = some a → post a := by
  have hserves : Programs.Serves client.send (· = c.now) (RepliesAt key J) (IssuesAt key J)
      (DocumentAt client key J) := (serves_at client key J).mono fun _ _ => trivial
  have hclock : ∀ i, c.clock i = c.now := fun _ => rfl
  exact Programs.run_meets hserves c.fault hclock hp 0 hredis

structure BothHold (client : Client) (config : Config) (key : String) (P : CacheEntry V → Prop)
    (s : Tiers V) : Prop where
  l1 : HoldsAt config key P s.l1
  redis : DocumentAt client key (fun json => P json.restore) s.redis

def LayeredCacheRepository.Wrote (client : Client) (config : Config) (c : Conditions)
    (key : String) (value : V) (options : SetOptions) (s : Tiers V) : Prop :=
  s.l1.entryAt key = some (MemoryView.newEntry config c.now key value options) ∨
    ∃ expireAt, client.view s.redis key = some ⟨.string
      (.stringify (MemoryView.newEntry config c.now key value options)), expireAt⟩

namespace BothHold

variable {s : Tiers V}

theorem mono {Q : CacheEntry V → Prop} (hPQ : ∀ entry, P entry → Q entry)
    (h : BothHold client config key P s) : BothHold client config key Q s :=
  ⟨h.l1.mono hPQ, fun json expireAt hjson => hPQ _ (h.redis json expireAt hjson)⟩

/-- A read keeps what the tiers hold, whichever tier it finds it in, and finds nothing that
has expired. -/
theorem get (h : BothHold client config key P s) (hP : Portable config key P) (c : Conditions)
    (key' : String) :
    BothHold client config key P (LayeredCacheRepository.get client c key' s).1 ∧
      ∀ entry, (LayeredCacheRepository.get client c key' s).2 = some entry → key' = key →
        P entry ∧ entry.isExpired c.now = false := by
  obtain ⟨hl1, hfound⟩ := h.l1.get hP.hit c.clock key'
  obtain ⟨hredis, hfound'⟩ := callL2_at c (get_meets_at hP key' c.now) h.redis
  unfold LayeredCacheRepository.get
  cases hresult : s.l1.get c.clock key' with
  | mk l1 found =>
    rw [hresult] at hl1 hfound
    cases found with
    | some entry =>
      refine ⟨⟨hl1, h.redis⟩, fun entry' hentry hk => ?_⟩
      exact hfound hk entry' hentry
    | none =>
      by_cases havailable : c.redisAvailable = true
      · simp only [havailable, ↓reduceIte]
        cases hresult' : LayeredCacheRepository.callL2 client c
            (RedisCacheRepository.get key') s.redis with
        | mk redis found' =>
          rw [hresult'] at hredis hfound'
          rcases found' with _ | _ | entry
          · exact ⟨⟨hl1, hredis⟩, fun entry hentry => by cases hentry⟩
          · exact ⟨⟨hl1, hredis⟩, fun entry hentry => by cases hentry⟩
          · refine ⟨⟨hl1.promote c.clock key' entry fun hk => ?_, hredis⟩,
              fun entry' hentry hk => ?_⟩
            · obtain ⟨hentry, hfresh⟩ := hfound' (some entry) rfl hk entry rfl
              exact hP.promoted entry c.now hentry hfresh
            · exact hfound' (some entry) rfl hk entry' hentry
      · simp only [havailable, Bool.false_eq_true, ↓reduceIte]
        exact ⟨⟨hl1, h.redis⟩, fun entry hentry => by cases hentry⟩

theorem set (h : BothHold client config key P s) (hP : Portable config key P) (c : Conditions)
    (key' : String) (value : V) (options : SetOptions)
    (hnew : key' = key → LayeredCacheRepository.Wrote client config c key value options
        (LayeredCacheRepository.set client config c key' value options s) →
      P (MemoryView.newEntry config c.now key value options)) :
    BothHold client config key P
      (LayeredCacheRepository.set client config c key' value options s) := by
  have hmeets : (RedisCacheRepository.set config key' value options).Meets (· = c.now)
      (RepliesAt key fun json => P json.restore ∨ key' = key ∧
        json = .stringify (MemoryView.newEntry config c.now key value options))
      (IssuesAt key fun json => P json.restore ∨ key' = key ∧
        json = .stringify (MemoryView.newEntry config c.now key value options))
      (fun _ => True) := by
    refine RedisCacheRepository.set_meets trivial (fun now hnow mode _ hk => ?_)
      fun tag _ => ⟨trivial, fun _ => trivial⟩
    subst hnow hk
    exact Or.inr ⟨rfl, rfl⟩
  have hbefore : DocumentAt client key (fun json => P json.restore ∨ key' = key ∧
      json = .stringify (MemoryView.newEntry config c.now key value options)) s.redis :=
    fun json expireAt hjson => Or.inl (h.redis json expireAt hjson)
  obtain ⟨hredis, -⟩ := callL2_at c hmeets hbefore
  unfold LayeredCacheRepository.set at hnew ⊢
  simp only at hnew ⊢
  by_cases havailable : c.redisAvailable = true
  · simp only [havailable, ↓reduceIte] at hnew ⊢
    refine ⟨h.l1.set c.clock key' value options fun hk hentry => hnew hk (Or.inl hentry),
      fun json expireAt hjson => ?_⟩
    rcases hredis json expireAt hjson with hold | ⟨hk, rfl⟩
    · exact hold
    · exact hP.document _ (hnew hk (Or.inr ⟨expireAt, hjson⟩))
  · simp only [havailable, Bool.false_eq_true, ↓reduceIte] at hnew ⊢
    exact ⟨h.l1.set c.clock key' value options fun hk hentry => hnew hk (Or.inl hentry), h.redis⟩

theorem delete (h : BothHold client config key P s) (c : Conditions) (key' : String) :
    BothHold client config key P (LayeredCacheRepository.delete client c key' s).1 := by
  have hl1 := h.l1.delete key'
  have hmeets : (RedisCacheRepository.delete key').Meets (· = c.now)
      (RepliesAt key fun json => P json.restore) (IssuesAt key fun json => P json.restore)
      (fun _ => True) := RedisCacheRepository.delete_meets trivial fun _ => trivial
  unfold LayeredCacheRepository.delete
  simp only
  split
  · exact ⟨hl1, (callL2_at c hmeets h.redis).1⟩
  · exact ⟨hl1, h.redis⟩

theorem flush (h : BothHold client config key P s) (c : Conditions) :
    BothHold client config key P (LayeredCacheRepository.flush client c s) := by
  have hmeets : (RedisCacheRepository.flush : RedisProgram V Unit).Meets (· = c.now)
      (RepliesAt key fun json => P json.restore) (IssuesAt key fun json => P json.restore)
      (fun _ => True) := by
    refine ⟨trivial, fun r _ => ?_⟩
    cases r <;> trivial
  unfold LayeredCacheRepository.flush
  simp only
  split
  · exact ⟨h.l1.flush, (callL2_at c hmeets h.redis).1⟩
  · exact ⟨h.l1.flush, h.redis⟩

/-- No call takes the property away, as long as what a set writes has it. -/
theorem step (h : BothHold client config key P s) (hP : Portable config key P)
    (e : LayeredEvent V) (hnew : ∀ value options, e.op = .set key value options →
      LayeredCacheRepository.Wrote client config e.conditions key value options
        (LayeredCacheRepository.step client config s e) →
      P (MemoryView.newEntry config e.conditions.now key value options)) :
    BothHold client config key P (LayeredCacheRepository.step client config s e) := by
  obtain ⟨op, c⟩ := e
  cases op with
  | get key' => exact (h.get hP c key').1
  | set key' value options =>
    exact h.set hP c key' value options fun hk => hnew value options (by rw [hk])
  | delete key' => exact h.delete c key'
  | flush => exact h.flush c
  | sweep => exact ⟨h.l1.sweep c.clock, h.redis⟩

end BothHold

end Both

end EdgeCache
