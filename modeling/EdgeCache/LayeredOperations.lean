import EdgeCache.LayeredCache
import EdgeCache.RedisScan
import Mathlib.Data.List.Dedup

/-!
All calls of `LayeredCacheRepository`, each in surroundings of its own: the readings of
the clock every part of it makes, what `redisAvailable()` says at each check, and the
moment and the fault of each command. A bulk call starts its single calls together: each
goes through the first tier before any of them yields, and then their commands are sent
and answered in any order.
-/
namespace EdgeCache

open Programs (Program Fault)

variable {V : Type}

/-- One single call of a bulk call goes on to its next command; the readings are those of
a promotion that follows it. -/
structure Turn where
  thread : ℕ
  now : Time
  fault : Fault
  promotion : Clock

structure Surroundings where
  l1 : Clock
  redisAvailable : ℕ → Bool
  l2 : ℕ → Moment
  fault : ℕ → Fault
  promotion : Clock
  scans : ℕ
  turns : List Turn

namespace Surroundings

def clock (env : Surroundings) : Clock := fun i => (env.l2 i).now

/-- Whatever is sent to Redis fails. -/
def Out (env : Surroundings) : Prop :=
  (∀ i, env.fault i ≠ .none) ∧ ∀ turn ∈ env.turns, turn.fault ≠ .none

end Surroundings

/-- What a call returns; a call whose scan goes on has not returned. -/
inductive Answer (V : Type) where
  | entry (found : Option (CacheEntry V))
  | done
  | flag (b : Bool)
  | count (n : ℕ)
  | stats (stats : MemoryCacheRepository.CacheStats)
  | keys (keys : List String)
  | entries (found : List (Option (CacheEntry V)))
  | throws
  | pending
  deriving DecidableEq

/-! ### Bulk calls -/

/-- The single calls a bulk call has under way, with their keys. -/
structure Bulk (V α : Type) where
  tiers : Tiers V
  threads : List (String × RedisProgram V α)

namespace Bulk

variable {α : Type} (client : Client)
  (onReturn : Clock → String → α → MemoryCacheRepository V → MemoryCacheRepository V)

/-- What a single call does to the first tier once it has its result. -/
def settle (promotion : Clock) (key : String) (p : RedisProgram V α)
    (l1 : MemoryCacheRepository V) : MemoryCacheRepository V :=
  match p with
  | .ret a => onReturn promotion key a l1
  | _ => l1

def isOver : RedisProgram V α → Bool
  | .ret _ => true
  | .throw => true
  | _ => false

def takeTurn (s : Bulk V α) (turn : Turn) : Bulk V α :=
  match s.threads[turn.thread]? with
  | none => s
  | some (key, p) =>
    if isOver p then s
    else
      let (redis, p) := Programs.advance client.send turn.fault turn.now s.tiers.redis p
      ⟨⟨settle onReturn turn.promotion key p s.tiers.l1, redis⟩,
        s.threads.set turn.thread (key, p)⟩

/-- A single call that is still under way runs to its end. -/
def complete (env : Surroundings) (s : Bulk V α) (i : ℕ) : Bulk V α :=
  match s.threads[i]? with
  | none => s
  | some (key, p) =>
    if isOver p then s
    else
      let (redis, result) := Programs.run client.send env.clock env.fault 0 p s.tiers.redis
      let p : RedisProgram V α := result.elim .throw .ret
      ⟨⟨settle onReturn env.promotion key p s.tiers.l1, redis⟩, s.threads.set i (key, p)⟩

/-- The turns as given, and then whatever is left, call by call. -/
def run (env : Surroundings) (s : Bulk V α) : Bulk V α :=
  let s := env.turns.foldl (takeTurn client onReturn) s
  (List.range s.threads.length).foldl (complete client onReturn env) s

theorem getElem?_set_cases {β : Type} {l : List β} {i j : ℕ} {b c : β}
    (h : (l.set i b)[j]? = some c) : (j = i ∧ c = b) ∨ l[j]? = some c := by
  by_cases hij : i = j
  · subst hij
    rw [List.getElem?_set] at h
    split at h
    · split at h
      · exact Or.inl ⟨rfl, (Option.some.inj h).symm⟩
      · cases h
    · exact Or.inr h
  · rw [List.getElem?_set_ne hij] at h
    exact Or.inr h

end Bulk

namespace LayeredCacheRepository

variable (client : Client) (config : Config) (regExp : RegExp) (env : Surroundings)

/-! ### Calls -/

def callL2In {α : Type} (p : RedisProgram V α) (redis : Database V) : Database V × Option α :=
  Programs.run client.send env.clock env.fault 0 p redis

def scanL2In {α : Type} (p : ServerProgram V α) (redis : Database V) : Database V × Option α :=
  Programs.run client.serve env.l2 env.fault 0 p redis

def getIn (key : String) (s : Tiers V) : Tiers V × Option (CacheEntry V) :=
  match s.l1.get env.l1 key with
  | (l1, some entry) => (⟨l1, s.redis⟩, some entry)
  | (l1, none) =>
    if env.redisAvailable 0 then
      match callL2In client env (RedisCacheRepository.get key) s.redis with
      | (redis, some (some entry)) => (⟨promote env.promotion key entry l1, redis⟩, some entry)
      | (redis, _) => (⟨l1, redis⟩, none)
    else (⟨l1, s.redis⟩, none)

def setIn (key : String) (value : V) (options : SetOptions) (s : Tiers V) : Tiers V :=
  let l1 := s.l1.set env.l1 key value options
  if env.redisAvailable 0 then
    ⟨l1, (callL2In client env (RedisCacheRepository.set config key value options) s.redis).1⟩
  else ⟨l1, s.redis⟩

def deleteIn (key : String) (s : Tiers V) : Tiers V × Bool :=
  let (l1, deleted) := s.l1.delete key
  if env.redisAvailable 0 then
    (⟨l1, (callL2In client env (RedisCacheRepository.delete key) s.redis).1⟩, deleted)
  else (⟨l1, s.redis⟩, deleted)

def deleteByTagsIn (tags : List String) (s : Tiers V) : Tiers V × ℕ :=
  let (l1, count) := s.l1.deleteByTags tags
  if env.redisAvailable 0 then
    (⟨l1, (callL2In client env (RedisCacheRepository.deleteByTags tags) s.redis).1⟩, count)
  else (⟨l1, s.redis⟩, count)

/-- A pattern that does not compile makes the first tier throw, before Redis is asked. -/
def deleteByPatternIn (pattern : String) (s : Tiers V) : Tiers V × Answer V :=
  match s.l1.deleteByPattern regExp pattern with
  | (l1, none) => (⟨l1, s.redis⟩, .throws)
  | (l1, some count) =>
    if env.redisAvailable 0 then
      match scanL2In client env (RedisCacheRepository.deleteByPattern env.scans pattern) s.redis with
      | (redis, some none) => (⟨l1, redis⟩, .pending)
      | (redis, _) => (⟨l1, redis⟩, .count count)
    else (⟨l1, s.redis⟩, .count count)

def existsIn (key : String) (s : Tiers V) : Tiers V × Bool :=
  match s.l1.exists_ env.l1 key with
  | (l1, true) => (⟨l1, s.redis⟩, true)
  | (l1, false) =>
    if env.redisAvailable 0 then
      let (redis, found) := callL2In client env (RedisCacheRepository.exists_ key) s.redis
      (⟨l1, redis⟩, found.getD false)
    else (⟨l1, s.redis⟩, false)

def mergeStats (l1 l2 : MemoryCacheRepository.CacheStats) : MemoryCacheRepository.CacheStats where
  stats := ⟨l1.stats.hits + l2.stats.hits, l1.stats.misses, l1.stats.sets, l1.stats.deletes,
    l1.stats.errors + l2.stats.errors⟩
  hitRate := l1.hitRate
  totalEntries := l1.totalEntries + l2.totalEntries
  memoryUsageMb := l1.memoryUsageMb + l2.memoryUsageMb

def getStatsIn (memoryUsageMb : ℚ) (s : Tiers V) :
    Tiers V × MemoryCacheRepository.CacheStats :=
  let l1Stats := s.l1.getStats memoryUsageMb
  if env.redisAvailable 0 then
    match scanL2In client env RedisCacheRepository.getStats s.redis with
    | (redis, some l2Stats) => (⟨s.l1, redis⟩, mergeStats l1Stats l2Stats)
    | (redis, none) => (⟨s.l1, redis⟩, l1Stats)
  else (s, l1Stats)

def flushIn (s : Tiers V) : Tiers V :=
  let l1 := s.l1.flush
  if env.redisAvailable 0 then ⟨l1, (callL2In client env RedisCacheRepository.flush s.redis).1⟩
  else ⟨l1, s.redis⟩

/-- `[...new Set([...l1Keys, ...l2Keys])]` -/
def keysIn (pattern : Option String) (s : Tiers V) : Tiers V × Answer V :=
  match s.l1.keys regExp pattern with
  | none => (s, .throws)
  | some l1Keys =>
    if env.redisAvailable 0 then
      match scanL2In client env (RedisCacheRepository.keys env.scans pattern) s.redis with
      | (redis, some (some l2Keys)) => (⟨s.l1, redis⟩, .keys (l1Keys ++ l2Keys).eraseDups)
      | (redis, some none) => (⟨s.l1, redis⟩, .pending)
      | (redis, none) => (⟨s.l1, redis⟩, .keys l1Keys)
    else (s, .keys l1Keys)

/-- The second half of a single `get`, after the first tier has answered. -/
def getThread (i : ℕ) (key : String) (found : Option (CacheEntry V)) :
    RedisProgram V (Option (CacheEntry V)) :=
  match found with
  | some entry => .ret (some entry)
  | none => if env.redisAvailable i then RedisCacheRepository.get key else .ret none

def promoteFound (promotion : Clock) (key : String) (found : Option (CacheEntry V))
    (l1 : MemoryCacheRepository V) : MemoryCacheRepository V :=
  match found with
  | some entry => promote promotion key entry l1
  | none => l1

/-- The result of a single `get` that is over; one that threw serves nothing. -/
def resultOf : RedisProgram V (Option (CacheEntry V)) → Option (CacheEntry V)
  | .ret found => found
  | _ => none

def mgetIn (keys : List String) (s : Tiers V) : Tiers V × List (Option (CacheEntry V)) :=
  let (l1, found) := s.l1.mget env.l1 keys
  let threads := (keys.zip found).zipIdx.map fun ((key, entry), i) =>
    (key, getThread env i key entry)
  let s := Bulk.run client promoteFound env ⟨⟨l1, s.redis⟩, threads⟩
  (s.tiers, s.threads.map fun (_, p) => resultOf p)

def setThread (i : ℕ) (key : String) (value : V) (options : SetOptions) : RedisProgram V Unit :=
  if env.redisAvailable i then RedisCacheRepository.set config key value options else .ret ()

def msetIn (entries : List (String × V × SetOptions)) (s : Tiers V) : Tiers V :=
  let threads := entries.zipIdx.map fun ((key, value, options), i) =>
    (key, setThread config env i key value options)
  (Bulk.run client (fun _ _ _ l1 => l1) env ⟨⟨s.l1.mset env.l1 entries, s.redis⟩, threads⟩).tiers

/-- The single calls of `mget`, and those of `mset`, before Redis has been asked anything. -/
def mgetThreads (keys : List String) (found : List (Option (CacheEntry V))) :
    List (String × RedisProgram V (Option (CacheEntry V))) :=
  (keys.zip found).zipIdx.map fun ((key, entry), i) => (key, getThread env i key entry)

def msetThreads (entries : List (String × V × SetOptions)) :
    List (String × RedisProgram V Unit) :=
  entries.zipIdx.map fun ((key, value, options), i) =>
    (key, setThread config env i key value options)

theorem mgetIn_eq (keys : List String) (s : Tiers V) :
    mgetIn client env keys s =
      ((Bulk.run client promoteFound env ⟨⟨(s.l1.mget env.l1 keys).1, s.redis⟩,
          mgetThreads env keys (s.l1.mget env.l1 keys).2⟩).tiers,
        (Bulk.run client promoteFound env ⟨⟨(s.l1.mget env.l1 keys).1, s.redis⟩,
          mgetThreads env keys (s.l1.mget env.l1 keys).2⟩).threads.map fun t => resultOf t.2) :=
  rfl

theorem msetIn_eq (entries : List (String × V × SetOptions)) (s : Tiers V) :
    msetIn client config env entries s =
      (Bulk.run client (fun _ _ _ l1 => l1) env
        ⟨⟨s.l1.mset env.l1 entries, s.redis⟩, msetThreads config env entries⟩).tiers :=
  rfl

variable {env} in
/-- A single call of `mget` serves what the first tier has, or else asks Redis. -/
theorem mem_mgetThreads {keys : List String} {found : List (Option (CacheEntry V))} {i : ℕ}
    {key : String} {p : RedisProgram V (Option (CacheEntry V))}
    (h : (mgetThreads env keys found)[i]? = some (key, p)) :
    ∃ entry, found[i]? = some entry ∧ p = getThread env i key entry := by
  simp only [mgetThreads, List.getElem?_map, List.getElem?_zipIdx, Option.map_eq_some_iff] at h
  obtain ⟨x, ⟨y, hy, rfl⟩, hx⟩ := h
  obtain ⟨rfl, rfl⟩ := Prod.mk.inj hx
  obtain ⟨-, hentry⟩ := List.getElem?_zip_eq_some.mp hy
  exact ⟨y.2, hentry, by rw [Nat.zero_add]⟩

variable {config env} in
theorem mem_msetThreads {entries : List (String × V × SetOptions)} {i : ℕ} {key : String}
    {p : RedisProgram V Unit} (h : (msetThreads config env entries)[i]? = some (key, p)) :
    ∃ value options, (key, value, options) ∈ entries ∧
      p = setThread config env i key value options := by
  simp only [msetThreads, List.getElem?_map, List.getElem?_zipIdx, Option.map_eq_some_iff] at h
  obtain ⟨x, ⟨y, hy, rfl⟩, hx⟩ := h
  obtain ⟨rfl, rfl⟩ := Prod.mk.inj hx
  exact ⟨y.2.1, y.2.2, List.mem_of_getElem? hy, by rw [Nat.zero_add]⟩

/-- A call, or a firing of the first tier's eviction interval, and what it returns. -/
def callIn (op : Op V) (s : Tiers V) : Tiers V × Answer V :=
  match op with
  | .get key =>
    let (s, found) := getIn client env key s
    (s, .entry found)
  | .set key value options => (setIn client config env key value options s, .done)
  | .delete key =>
    let (s, deleted) := deleteIn client env key s
    (s, .flag deleted)
  | .deleteByTags tags =>
    let (s, count) := deleteByTagsIn client env tags s
    (s, .count count)
  | .deleteByPattern pattern => deleteByPatternIn client regExp env pattern s
  | .exists_ key =>
    let (s, found) := existsIn client env key s
    (s, .flag found)
  | .getStats memoryUsageMb =>
    let (s, stats) := getStatsIn client env memoryUsageMb s
    (s, .stats stats)
  | .flush => (flushIn client env s, .done)
  | .keys pattern => keysIn client regExp env pattern s
  | .mget keys =>
    let (s, found) := mgetIn client env keys s
    (s, .entries found)
  | .mset entries => (msetIn client config env entries s, .done)
  | .sweep => (⟨s.l1.sweep env.l1, s.redis⟩, .done)

end LayeredCacheRepository

structure LayeredCall (V : Type) where
  op : Op V
  env : Surroundings

namespace LayeredCacheRepository

variable (client : Client) (config : Config) (regExp : RegExp)

def stepIn (s : Tiers V) (e : LayeredCall V) : Tiers V :=
  (callIn client config regExp e.env e.op s).1

/-- The state after calls made one after another on a fresh repository over some Redis. -/
def reachIn (redis : Database V) (calls : List (LayeredCall V)) : Tiers V :=
  Runs.run (stepIn client config regExp) ⟨.new config, redis⟩ calls

end LayeredCacheRepository

/-! ### Calls at one reading of the clock -/

/-- The surroundings in which every part of a call reads the same time. -/
def Conditions.surroundings (c : Conditions) : Surroundings where
  l1 := c.clock
  redisAvailable := fun _ => c.redisAvailable
  l2 := fun _ => ⟨c.now, [], "0", fun _ => "", 0⟩
  fault := c.fault
  promotion := c.clock
  scans := 0
  turns := []

def LayeredEvent.toCall (e : LayeredEvent V) : LayeredCall V where
  op := match e.op with
    | .get key => .get key
    | .set key value options => .set key value options
    | .delete key => .delete key
    | .flush => .flush
    | .sweep => .sweep
  env := e.conditions.surroundings

/-- A call at one reading of the clock is a call in surroundings. -/
theorem LayeredCacheRepository.step_eq_stepIn (client : Client) (config : Config)
    (regExp : RegExp) (s : Tiers V) (e : LayeredEvent V) :
    step client config s e = stepIn client config regExp s e.toCall := by
  obtain ⟨op, c⟩ := e
  cases op <;> rfl

end EdgeCache
