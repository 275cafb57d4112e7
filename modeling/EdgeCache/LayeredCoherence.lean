import EdgeCache.LayeredCache
import EdgeCache.Library.Runs

/-!
The two tiers as one map. With Redis at hand and calls one after another, what is read
under a key is what was last set there: Redis keeps it until its time is over, whatever
the memory tier evicts, and the memory tier never has anything else. A set whose time
ends after the last date there is leaves a document in Redis that reads as expired, so
the times are bounded here.
-/
namespace EdgeCache

variable {V : Type}

namespace LayeredCacheRepository

/-- The latest set of a key, if nothing has removed it since. -/
def lastSetAfter (key : String) (last : Option (V × SetOptions × Time)) (e : LayeredEvent V) :
    Option (V × SetOptions × Time) :=
  match e.op with
  | .set key' value options =>
    if key' = key then some (value, options, e.conditions.now) else last
  | .delete key' => if key' = key then none else last
  | .flush => none
  | _ => last

def lastSet (key : String) (events : List (LayeredEvent V)) : Option (V × SetOptions × Time) :=
  events.foldl (lastSetAfter key) none

end LayeredCacheRepository

/-- A set that is not conditional, for a whole number of seconds that ends on a date. -/
def Lasting (config : Config) (options : SetOptions) (start : Time) (n : ℕ) : Prop :=
  options.ifNotExists = false ∧ options.ttlOr (.ofNat config.cacheDefaultTtl) = .ofNat n ∧
    0 < n ∧ start.val + n * 1000 ≤ maxTime

/-- Redis has the document of the set until its time is over, hits apart, or nothing. -/
def RedisReflects (client : Client) (config : Config) (key : String) (redis : Database V) :
    Option (V × SetOptions × Time) → Prop
  | none => client.view redis key = none
  | some (value, options, start) => ∃ n json, Lasting config options start n ∧
      client.view redis key = some ⟨.string json, some (start.val + n * 1000)⟩ ∧
      json.value = value ∧ json.expiresAt = some (start.val + n * 1000)

/-- The memory tier has the value of the latest set or nothing, and Redis has it. -/
structure Coherent (client : Client) (config : Config) (key : String)
    (last : Option (V × SetOptions × Time)) (s : Tiers V) : Prop where
  l1 : HoldsAt config key (fun entry => last.map (·.1) = some entry.value) s.l1
  redis : RedisReflects client config key s.redis last

theorem portable_value (config : Config) (key : String) (value : Option V) :
    Portable config key (fun entry => value = some entry.value) where
  hit := fun _ h => h
  document := fun _ h => h
  promoted := fun _ _ h _ => h

section Redis

variable {client : Client} {config : Config} {key : String} {redis : Database V}
  {last : Option (V × SetOptions × Time)}

theorem RedisReflects.congr {redis' : Database V} (h : RedisReflects client config key redis last)
    (hsame : client.view redis' key = client.view redis key) :
    RedisReflects client config key redis' last := by
  cases last with
  | none => exact hsame.trans h
  | some set =>
    obtain ⟨n, json, hlasting, hview, hvalue⟩ := h
    exact ⟨n, json, hlasting, hsame.trans hview, hvalue⟩

theorem RedisReflects.documentAt (h : RedisReflects client config key redis last) :
    DocumentAt client key (fun json => last.map (·.1) = some json.restore.value) redis := by
  intro json expireAt hjson
  cases last with
  | none =>
    rw [h] at hjson
    cases hjson
  | some set =>
    obtain ⟨n, json', -, hview, hvalue, -⟩ := h
    rw [hview] at hjson
    simp only [Option.some.injEq, Record.mk.injEq, Stored.string.injEq] at hjson
    simp [EntryJson.restore, ← hjson.1, hvalue]

theorem isExpired_of_deadline {json : EntryJson V} {t : ℤ} (hdate : json.expiresAt = some t)
    (now : Time) : json.restore.isExpired now = decide (t < now.val) := by
  simp [CacheEntry.isExpired, EntryJson.restore, Date.ofJson, Date.isBefore, hdate]

/-- While a set is in time, Redis finds it, and counts the hit. -/
theorem RedisReflects.get (h : RedisReflects client config key redis last) (now : Time) :
    RedisReflects client config key (LayeredCacheRepository.callL2 client (.good now)
      (RedisCacheRepository.get key) redis).1 last ∧
    ∀ value options start, last = some (value, options, start) → ∀ n : ℕ,
      options.ttlOr (.ofNat config.cacheDefaultTtl) = .ofNat n → now.val ≤ start.val + n * 1000 →
      ∃ entry, (LayeredCacheRepository.callL2 client (.good now)
        (RedisCacheRepository.get key) redis).2 = some (some entry) := by
  obtain ⟨hview, hfound⟩ := LayeredCacheRepository.callL2_good client now
    (RedisCacheRepository.get key) redis
  cases last with
  | none =>
    have hmissing : Redis.find (client.view redis) now key = none := by
      rw [Redis.find, h]
      rfl
    rw [RedisCacheRepository.run_get_of_missing hmissing] at hview
    exact ⟨h.congr (congrFun hview key), fun _ _ _ hlast => by cases hlast⟩
  | some set =>
    obtain ⟨value, options, start⟩ := set
    obtain ⟨n, json, hlasting, hdocument, hvalue, hdate⟩ := h
    by_cases htime : now.val ≤ start.val + n * 1000
    · have hfind : Redis.find (client.view redis) now key =
          some ⟨.string json, some (start.val + n * 1000)⟩ :=
        Redis.find_eq_some_iff.mpr ⟨hdocument, (Redis.isLive_some _ _).mpr htime⟩
      have hfresh : json.restore.isExpired now = false := by
        rw [isExpired_of_deadline hdate]
        exact decide_eq_false (not_lt.mpr htime)
      rw [RedisCacheRepository.run_get_of_fresh hfind hfresh] at hview hfound
      refine ⟨⟨n, .stringify json.restore.registerHit, hlasting, ?_, hvalue, ?_⟩,
        fun _ _ _ _ _ _ _ => ⟨_, hfound⟩⟩
      · rw [hview]
        exact Redis.insert_self
      · simp [EntryJson.stringify, EntryJson.restore, CacheEntry.registerHit, Date.toJson,
          Date.ofJson, hdate]
    · have hmissing : Redis.find (client.view redis) now key = none := by
        rw [Option.eq_none_iff_forall_not_mem]
        intro record hrecord
        obtain ⟨hdb, hlive⟩ := Redis.find_eq_some_iff.mp hrecord
        obtain rfl := Option.some.inj (hdocument.symm.trans hdb)
        exact htime ((Redis.isLive_some _ _).mp hlive)
      rw [RedisCacheRepository.run_get_of_missing hmissing] at hview
      refine ⟨RedisReflects.congr ⟨n, json, hlasting, hdocument, hvalue, hdate⟩
        (congrFun hview key), ?_⟩
      intro value' options' start' hlast m hm hle
      simp only [Option.some.injEq, Prod.mk.injEq] at hlast
      obtain ⟨-, rfl, rfl⟩ := hlast
      have hnm : n = m := by
        have hseconds := hlasting.2.1.symm.trans hm
        simpa [JsNumber.ofNat] using hseconds
      exact absurd (hnm ▸ hle) htime

theorem redisReflects_set {now : Time} {options : SetOptions} {n : ℕ} (value : V)
    (hlasting : Lasting config options now n) (hkey : ∀ tag ∈ options.tagList, tagKey tag ≠ key) :
    RedisReflects client config key (LayeredCacheRepository.callL2 client (.good now)
      (RedisCacheRepository.set config key value options) redis).1 (some (value, options, now)) := by
  obtain ⟨hnx, hseconds, hpos, hdate⟩ := hlasting
  have hdeadline : Redis.setDeadline now (options.ttlOr (.ofNat config.cacheDefaultTtl)) =
      some (now.val + n * 1000) := by
    rw [hseconds]
    exact Redis.setDeadline_ofNat hpos hdate
  refine ⟨n, .stringify (MemoryView.newEntry config now key value options),
    ⟨hnx, hseconds, hpos, hdate⟩, ?_, rfl, ?_⟩
  · rw [(LayeredCacheRepository.callL2_good client now _ redis).1]
    exact RedisCacheRepository.run_set_self config value hnx hdeadline hkey
  · simp [EntryJson.stringify, MemoryView.newEntry, CacheEntry.create, hseconds,
      JsNumber.toDate_after_ofNat, hdate, Date.toJson]

theorem RedisReflects.frame {α : Type} (h : RedisReflects client config key redis last)
    {p : RedisProgram V α} (hp : p.OnlyCalls fun c => ¬ Redis.Writes key c) (now : Time) :
    RedisReflects client config key
      (LayeredCacheRepository.callL2 client (.good now) p redis).1 last := by
  refine h.congr ?_
  rw [(LayeredCacheRepository.callL2_good client now p redis).1]
  exact Redis.run_frame hp _ _ 0 _

end Redis

namespace Coherent

variable {client : Client} {config : Config} {key : String} {s : Tiers V}
  {last : Option (V × SetOptions × Time)}

theorem bothHold (h : Coherent client config key last s) :
    BothHold client config key (fun entry => last.map (·.1) = some entry.value) s :=
  ⟨h.l1, h.redis.documentAt⟩

theorem get (h : Coherent client config key last s) (now : Time) (key' : String) :
    Coherent client config key last
      (LayeredCacheRepository.get client (.good now) key' s).1 := by
  refine ⟨(h.bothHold.get (portable_value config key _) (.good now) key').1.l1, ?_⟩
  rcases LayeredCacheRepository.get_redis client (.good now) key' s with hsame | hcall
  · rw [hsame]
    exact h.redis
  · rw [hcall]
    by_cases hk : key' = key
    · subst hk
      exact (h.redis.get now).1
    · exact h.redis.frame (RedisCacheRepository.get_onlyCalls_of_ne hk) now

theorem step (h : Coherent client config key last s) (hkey : ∀ tag, tagKey tag ≠ key)
    {e : LayeredEvent V} {now : Time} (hgood : e.conditions = .good now)
    (hset : ∀ value options, e.op = .set key value options →
      ∃ n, Lasting config options now n) :
    Coherent client config key (LayeredCacheRepository.lastSetAfter key last e)
      (LayeredCacheRepository.step client config s e) := by
  obtain ⟨op, conditions⟩ := e
  simp only at hgood hset
  subst hgood
  cases op with
  | get key' => exact h.get now key'
  | set key' value options =>
    by_cases hk : key' = key
    · subst hk
      obtain ⟨n, hlasting⟩ := hset value options rfl
      simp only [LayeredCacheRepository.lastSetAfter, ↓reduceIte]
      exact ⟨h.l1.set_self _ value hlasting.1 rfl,
        redisReflects_set value hlasting fun tag _ => hkey tag⟩
    · simp only [LayeredCacheRepository.lastSetAfter, hk, ↓reduceIte]
      refine ⟨h.l1.set _ key' value options fun heq => absurd heq hk, ?_⟩
      exact h.redis.frame (RedisCacheRepository.set_onlyCalls_of_ne config value hk
        fun tag _ => hkey tag) now
  | delete key' =>
    by_cases hk : key' = key
    · subst hk
      simp only [LayeredCacheRepository.lastSetAfter, ↓reduceIte]
      refine ⟨h.l1.delete_self, ?_⟩
      exact (congrFun (LayeredCacheRepository.callL2_good client now _ s.redis).1 key').trans
        RedisCacheRepository.run_delete_self
    · simp only [LayeredCacheRepository.lastSetAfter, hk, ↓reduceIte]
      exact ⟨h.l1.delete key', h.redis.frame (RedisCacheRepository.delete_onlyCalls_of_ne hk) now⟩
  | flush => exact ⟨h.l1.flush, rfl⟩
  | sweep => exact ⟨h.l1.sweep _, h.redis⟩

theorem run (h : Coherent client config key last s) (hkey : ∀ tag, tagKey tag ≠ key)
    (events : List (LayeredEvent V)) (hgood : ∀ e ∈ events, ∃ now, e.conditions = .good now)
    (hset : ∀ e ∈ events, ∀ value options, e.op = .set key value options →
      ∃ n, Lasting config options e.conditions.now n) :
    Coherent client config key (events.foldl (LayeredCacheRepository.lastSetAfter key) last)
      (Runs.run (LayeredCacheRepository.step client config) s events) := by
  induction events generalizing s last with
  | nil => exact h
  | cons e rest ih =>
    obtain ⟨now, hnow⟩ := hgood e List.mem_cons_self
    have hstep := h.step hkey hnow fun value options hop => by
      have hlasting := hset e List.mem_cons_self value options hop
      rw [hnow] at hlasting
      exact hlasting
    exact ih hstep (fun e' he' => hgood e' (List.mem_cons_of_mem e he'))
      fun e' he' => hset e' (List.mem_cons_of_mem e he')

theorem value_of_get (h : Coherent client config key last s) {now : Time}
    {entry : CacheEntry V}
    (hentry : (LayeredCacheRepository.get client (.good now) key s).2 = some entry) :
    last.map (·.1) = some entry.value :=
  ((h.bothHold.get (portable_value config key _) (.good now) key).2 entry hentry rfl).1

/-- A set in time is read, whatever has become of it in the memory tier. -/
theorem map_value_get (h : Coherent client config key last s) {value : V} {options : SetOptions}
    {start now : Time} {n : ℕ} (hlast : last = some (value, options, start))
    (hseconds : options.ttlOr (.ofNat config.cacheDefaultTtl) = .ofNat n)
    (htime : now.val ≤ start.val + n * 1000) :
    (LayeredCacheRepository.get client (.good now) key s).2.map (·.value) = some value := by
  obtain ⟨stored, hstored⟩ := (h.redis.get now).2 value options start hlast n hseconds htime
  obtain ⟨entry, hentry⟩ := Option.isSome_iff_exists.mp
    (LayeredCacheRepository.get_isSome_of_callL2 hstored)
  have hvalue := h.value_of_get hentry
  rw [hlast, Option.map_some] at hvalue
  rw [hentry, Option.map_some, hvalue]

end Coherent

/-- With Redis at hand, a key reads as its latest set and nothing else, and a set in time is
read even when the memory tier has been emptied. -/
theorem LayeredCacheRepository.get_of_lastSet (client : Client) (config : Config) (key : String)
    (hkey : ∀ tag, tagKey tag ≠ key) (events : List (LayeredEvent V))
    (hgood : ∀ e ∈ events, ∃ now, e.conditions = .good now)
    (hset : ∀ e ∈ events, ∀ value options, e.op = .set key value options →
      ∃ n, Lasting config options e.conditions.now n) (now : Time) :
    let s := Runs.run (step client config) ⟨.new config, fun _ => none⟩ events
    (∀ entry, (get client (.good now) key s).2 = some entry →
      ∃ options start, lastSet key events = some (entry.value, options, start)) ∧
    ∀ value options start, lastSet key events = some (value, options, start) → ∀ n : ℕ,
      options.ttlOr (.ofNat config.cacheDefaultTtl) = .ofNat n → now.val < start.val + n * 1000 →
      ((get client (.good now) key s).2.map (·.value) = some value ∧
        (get client (.good now) key ⟨.new config, s.redis⟩).2.map (·.value) = some value) := by
  intro s
  have hstart : Coherent client config key none (⟨.new config, fun _ => none⟩ : Tiers V) :=
    ⟨HoldsAt.new config key _, rfl⟩
  have hcoherent : Coherent client config key (lastSet key events) s :=
    hstart.run hkey events hgood hset
  have hempty : Coherent client config key (lastSet key events) ⟨.new config, s.redis⟩ :=
    ⟨HoldsAt.new config key _, hcoherent.redis⟩
  refine ⟨fun entry hentry => ?_, fun value options start hlast n hseconds htime =>
    ⟨hcoherent.map_value_get hlast hseconds htime.le,
      hempty.map_value_get hlast hseconds htime.le⟩⟩
  obtain ⟨⟨value, options, start⟩, hlast, hread⟩ :=
    Option.map_eq_some_iff.mp (hcoherent.value_of_get hentry)
  exact ⟨options, start, by rw [hlast, ← hread]⟩

/-- A set that the memory tier has evicted for another. -/
theorem LayeredCacheRepository.get_of_lastSet_evicted :
    (get ⟨"edgecache:"⟩ (.good ⟨50000, by decide⟩) "a" (Runs.run
      (step ⟨"edgecache:"⟩ ⟨1, 60, by decide, by decide⟩) ⟨.new ⟨1, 60, by decide, by decide⟩,
        fun _ => none⟩ [⟨.set "a" 7 (.ofTtl 60), .good ⟨1000, by decide⟩⟩,
          ⟨.set "b" 8 (.ofTtl 60), .good ⟨2000, by decide⟩⟩] : Tiers ℕ)).2.map (·.value) =
      some 7 := by
  have hall := get_of_lastSet ⟨"edgecache:"⟩ ⟨1, 60, by decide, by decide⟩ "a"
    (fun _ => tagKey_ne_of_length_lt (by decide))
    ([⟨.set "a" 7 (.ofTtl 60), .good ⟨1000, by decide⟩⟩,
      ⟨.set "b" 8 (.ofTtl 60), .good ⟨2000, by decide⟩⟩] : List (LayeredEvent ℕ))
    (by
      intro e he
      simp only [List.mem_cons, List.not_mem_nil, or_false] at he
      rcases he with rfl | rfl <;> exact ⟨_, rfl⟩)
    (by
      intro e he value options hop
      simp only [List.mem_cons, List.not_mem_nil, or_false] at he
      rcases he with rfl | rfl
      · simp only [LayeredOp.set.injEq] at hop
        obtain ⟨-, -, rfl⟩ := hop
        exact ⟨60, rfl, rfl, by decide, by decide⟩
      · simp at hop) ⟨50000, by decide⟩
  exact (hall.2 7 (.ofTtl 60) ⟨1000, by decide⟩ rfl 60 rfl (by decide)).1

/-- A time that ends after the last date there is: Redis has the entry, and its document
reads as expired. -/
theorem LayeredCacheRepository.not_found_of_late_deadline :
    ¬ ∀ (value : ℕ) options start, lastSet "a"
        ([⟨.set "a" 7 (.ofTtl 10000000000000), .good ⟨1000, by decide⟩⟩,
          ⟨.set "b" 8 (.ofTtl 60), .good ⟨2000, by decide⟩⟩]) = some (value, options, start) →
      ∀ n : ℕ, options.ttlOr (.ofNat 60) = .ofNat n →
      (⟨3000, by decide⟩ : Time).val < start.val + n * 1000 →
      (get ⟨"edgecache:"⟩ (.good ⟨3000, by decide⟩) "a" (Runs.run
        (step ⟨"edgecache:"⟩ ⟨1, 60, by decide, by decide⟩) ⟨.new ⟨1, 60, by decide, by decide⟩,
          fun _ => none⟩ [⟨.set "a" 7 (.ofTtl 10000000000000), .good ⟨1000, by decide⟩⟩,
            ⟨.set "b" 8 (.ofTtl 60), .good ⟨2000, by decide⟩⟩] : Tiers ℕ)).2.map (·.value) =
        some value := by
  intro hall
  have hfound := hall 7 (.ofTtl 10000000000000) ⟨1000, by decide⟩ rfl 10000000000000 rfl
    (by decide)
  revert hfound
  apply ne_of_eq_of_ne (b := none)
  · decide +kernel
  · exact (Option.some_ne_none 7).symm

end EdgeCache
