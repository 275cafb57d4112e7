import EdgeCache.LayeredOutage
import EdgeCache.LayeredRules

/-!
Calls of the layered repository while any of their Redis commands may fail. The first tier
always goes through the same call as it would alone, and no failure of Redis comes out of a
call; entries that Redis has served are then promoted. A read that Redis has answered is not
served, though, when the write-back of its hit fails.
-/
namespace EdgeCache

open Programs (Program Fault)

variable {V : Type}

/-! ### Promotions -/

/-- A single read of a call with the entry that it promotes. -/
structure Promoted (V : Type) where
  read : ℕ
  clock : Clock
  key : String
  entry : CacheEntry V

namespace LayeredCacheRepository

def promoteAll (l1 : MemoryCacheRepository V) (promotions : List (Promoted V)) :
    MemoryCacheRepository V :=
  promotions.foldl (fun l1 p => promote p.clock p.key p.entry l1) l1

theorem promoteAll_append (l1 : MemoryCacheRepository V) (promotions : List (Promoted V))
    (p : Promoted V) : promoteAll l1 (promotions ++ [p]) =
      promote p.clock p.key p.entry (promoteAll l1 promotions) := by
  rw [promoteAll, List.foldl_append]
  rfl

/-- The entry that the call serves for a read which the first tier has missed. -/
def Serves (op : Op V) (alone answer : Answer V) (p : Promoted V) : Prop :=
  match op with
  | .get key => p.read = 0 ∧ p.key = key ∧ alone = .entry none ∧ answer = .entry (some p.entry)
  | .mget keys => ∃ found served, alone = .entries found ∧ answer = .entries served ∧
      keys[p.read]? = some p.key ∧ found[p.read]? = some none ∧
      served[p.read]? = some (some p.entry)
  | _ => False

end LayeredCacheRepository

/-! ### Bulk calls -/

namespace Bulk

open LayeredCacheRepository

/-- The reads that are over and were promoted; the first tier has what it had, and these. -/
structure Promotes (keys : List String) (found : List (Option (CacheEntry V)))
    (l1 : MemoryCacheRepository V) (s : Bulk V (Option (CacheEntry V)))
    (promotions : List (Promoted V)) : Prop where
  l1_eq : s.tiers.l1 = promoteAll l1 promotions
  nodup : (promotions.map Promoted.read).Nodup
  promoted : ∀ p ∈ promotions, s.threads[p.read]? = some (p.key, .ret (some p.entry)) ∧
    found[p.read]? = some none
  reads : ∀ (i : ℕ) (key : String) p, s.threads[i]? = some (key, p) → keys[i]? = some key ∧
    (isOver p = false → found[i]? = some none)

variable {client : Client} {keys : List String} {found : List (Option (CacheEntry V))}
  {l1 : MemoryCacheRepository V} {s : Bulk V (Option (CacheEntry V))}
  {promotions : List (Promoted V)}

theorem Promotes.replace (h : Promotes keys found l1 s promotions) {i : ℕ} {key : String}
    {p : RedisProgram V (Option (CacheEntry V))} (hthread : s.threads[i]? = some (key, p))
    (hover : isOver p = false) (p' : RedisProgram V (Option (CacheEntry V))) (clock : Clock)
    (redis : Database V) :
    ∃ promotions, Promotes keys found l1
      ⟨⟨settle promoteFound clock key p' s.tiers.l1, redis⟩, s.threads.set i (key, p')⟩
      promotions := by
  obtain ⟨hkey, hmissed⟩ := h.reads i key p hthread
  have hother : ∀ q ∈ promotions, q.read ≠ i := by
    intro q hq heq
    have hret := (h.promoted q hq).1
    rw [heq, hthread] at hret
    obtain ⟨-, rfl⟩ := Prod.mk.inj (Option.some.inj hret)
    cases hover
  have hkept : ∀ q ∈ promotions,
      (s.threads.set i (key, p'))[q.read]? = some (q.key, .ret (some q.entry)) ∧
        found[q.read]? = some none := by
    intro q hq
    rw [List.getElem?_set_ne (hother q hq).symm]
    exact h.promoted q hq
  have hreads : ∀ (j : ℕ) (key' : String) q, (s.threads.set i (key, p'))[j]? = some (key', q) →
      keys[j]? = some key' ∧ (isOver q = false → found[j]? = some none) := by
    intro j key' q hj
    rcases getElem?_set_cases hj with ⟨rfl, heq⟩ | hold
    · obtain ⟨rfl, rfl⟩ := Prod.mk.inj heq
      exact ⟨hkey, fun _ => hmissed hover⟩
    · exact h.reads j key' q hold
  have hsame : settle promoteFound clock key p' s.tiers.l1 = s.tiers.l1 →
      ∃ promotions, Promotes keys found l1
        ⟨⟨settle promoteFound clock key p' s.tiers.l1, redis⟩, s.threads.set i (key, p')⟩
        promotions :=
    fun hl1 => ⟨promotions, hl1.trans h.l1_eq, h.nodup, hkept, hreads⟩
  cases p' with
  | ret result =>
    cases result with
    | none => exact hsame rfl
    | some entry =>
      refine ⟨promotions ++ [⟨i, clock, key, entry⟩], ?_, ?_, fun q hq => ?_, hreads⟩
      · rw [promoteAll_append, ← h.l1_eq]
        rfl
      · rw [List.map_append, List.nodup_append]
        refine ⟨h.nodup, List.nodup_singleton _, fun j hj j' hj' => ?_⟩
        obtain ⟨q, hq, rfl⟩ := List.mem_map.mp hj
        rw [List.mem_singleton.mp hj']
        exact hother q hq
      · rcases List.mem_append.mp hq with hold | hnew
        · exact hkept q hold
        · rw [List.mem_singleton.mp hnew]
          exact ⟨List.getElem?_set_self (List.getElem?_eq_some_iff.mp hthread).1, hmissed hover⟩
  | throw => exact hsame rfl
  | now k => exact hsame rfl
  | call c k => exact hsame rfl

theorem Promotes.takeTurn (h : Promotes keys found l1 s promotions) (turn : Turn) :
    ∃ promotions, Promotes keys found l1 (takeTurn client promoteFound s turn) promotions := by
  unfold Bulk.takeTurn
  split
  · exact ⟨promotions, h⟩
  · next key p hthread =>
    split
    · exact ⟨promotions, h⟩
    · next hover => exact h.replace hthread (Bool.not_eq_true _ ▸ hover) _ _ _

theorem Promotes.complete (h : Promotes keys found l1 s promotions) (env : Surroundings) (i : ℕ) :
    ∃ promotions, Promotes keys found l1 (complete client promoteFound env s i) promotions := by
  unfold Bulk.complete
  split
  · exact ⟨promotions, h⟩
  · next key p hthread =>
    split
    · exact ⟨promotions, h⟩
    · next hover => exact h.replace hthread (Bool.not_eq_true _ ▸ hover) _ _ _

theorem Promotes.run (client : Client) (h : Promotes keys found l1 s promotions)
    (env : Surroundings) :
    ∃ promotions, Promotes keys found l1 (run client promoteFound env s) promotions := by
  unfold Bulk.run
  refine List.foldlRecOn (motive := fun s => ∃ promotions, Promotes keys found l1 s promotions)
    _ _ ?_ fun s hs i _ => hs.elim fun _ hs => hs.complete env i
  exact List.foldlRecOn (motive := fun s => ∃ promotions, Promotes keys found l1 s promotions)
    _ _ ⟨promotions, h⟩ fun s hs turn _ => hs.elim fun _ hs => hs.takeTurn turn

/-- Results that nothing is done with leave the first tier alone. -/
theorem l1_run_of_dropped {α : Type} (client : Client) (env : Surroundings) (s : Bulk V α) :
    (run client (fun _ _ _ l1 => l1) env s).tiers.l1 = s.tiers.l1 := by
  have hsettle : ∀ (promotion : Clock) (key : String) (p : RedisProgram V α) l1,
      settle (fun _ _ _ l1 => l1) promotion key p l1 = l1 := by
    intro promotion key p l1
    cases p <;> rfl
  unfold Bulk.run
  refine List.foldlRecOn (motive := fun s' : Bulk V α => s'.tiers.l1 = s.tiers.l1) _ _ ?_
    fun s' hs' i _ => ?_
  · refine List.foldlRecOn (motive := fun s' : Bulk V α => s'.tiers.l1 = s.tiers.l1) _ _ rfl
      fun s' hs' turn _ => ?_
    unfold Bulk.takeTurn
    split
    · exact hs'
    · next key p _ =>
      split
      · exact hs'
      · exact (hsettle turn.promotion key _ _).trans hs'
  · unfold Bulk.complete
    split
    · exact hs'
    · next key p _ =>
      split
      · exact hs'
      · exact (hsettle env.promotion key _ _).trans hs'

end Bulk

/-! ### Single calls -/

namespace LayeredCacheRepository

variable (client : Client) {config : Config} {regExp : RegExp} {env : Surroundings}

/-- The entry is there for the first tier's part of a read. -/
def FoundInL1 (env : Surroundings) (s : Tiers V) (key : String) : Prop :=
  ∃ entry, s.l1.entryAt key = some entry ∧ entry.isExpired (env.l1 0) = false

/-- The first tier misses, and Redis answers `GET` with a document that is fresh. -/
def FoundInRedis (env : Surroundings) (s : Tiers V) (key : String) : Prop :=
  (s.l1.get env.l1 key).2 = none ∧ env.redisAvailable 0 = true ∧ ∃ json,
    (Programs.attempt client.send (env.fault 0) (env.clock 0) s.redis (.get key)).2 =
      some (.string json) ∧ json.restore.isExpired (env.clock 1) = false

/-- What a call does and answers whatever becomes of its Redis commands. -/
structure Resilient (config : Config) (regExp : RegExp) (s : Tiers V) (e : LayeredCall V) :
    Prop where
  throws : (callIn client config regExp e.env e.op s).2 = .throws →
    s.l1.answer regExp e.alone = .throws
  served : ∀ key, e.op = .get key → FoundInL1 e.env s key ∨ FoundInRedis client e.env s key →
    ∃ entry, (callIn client config regExp e.env e.op s).2 = .entry (some entry)
  l1 : ∃ promotions, (promotions.map Promoted.read).Nodup ∧
    (∀ p ∈ promotions, Serves e.op (s.l1.answer regExp e.alone)
      (callIn client config regExp e.env e.op s).2 p) ∧
    (callIn client config regExp e.env e.op s).1.l1 =
      promoteAll (s.l1.step regExp e.alone) promotions

/-- The hit of a read that Redis has answered is written back. -/
def WritesBack (s : Tiers V) (e : LayeredCall V) : Prop :=
  ∀ key, e.op = .get key → FoundInRedis client e.env s key → e.env.fault 2 = .none

theorem run_get_of_fresh {key : String} {json : EntryJson V} {redis : Database V}
    (hget : (Programs.attempt client.send (env.fault 0) (env.clock 0) redis (.get key)).2 =
      some (.string json)) (hfresh : json.restore.isExpired (env.clock 1) = false) :
    (callL2In client env (RedisCacheRepository.get key) redis).2 =
      some (if env.fault 2 = .none then some json.restore.registerHit else none) := by
  simp only [callL2In, RedisCacheRepository.get, Programs.run, hget, RedisCacheRepository.serve,
    hfresh, Bool.false_eq_true, ↓reduceIte]
  cases hfault : env.fault 2 <;> rfl

theorem getIn_of_missed {s : Tiers V} {key : String} (hmissed : (s.l1.get env.l1 key).2 = none)
    (havailable : env.redisAvailable 0 = true) :
    (getIn client env key s).1.redis =
        (callL2In client env (RedisCacheRepository.get key) s.redis).1 ∧
      (getIn client env key s).2 =
        (callL2In client env (RedisCacheRepository.get key) s.redis).2.join := by
  unfold getIn
  cases hget : s.l1.get env.l1 key with
  | mk l1 found =>
    obtain rfl : found = none := by
      rw [hget] at hmissed
      exact hmissed
    simp only [havailable, ↓reduceIte]
    rcases callL2In client env (RedisCacheRepository.get key) s.redis with
      ⟨redis, _ | _ | entry⟩ <;> exact ⟨rfl, rfl⟩

theorem foundInL1_iff {s : Tiers V} (hs : ∃ v, MemoryCacheRepository.Shows config s.l1 v)
    (key : String) : FoundInL1 env s key ↔ ∃ entry, (s.l1.get env.l1 key).2 = some entry := by
  obtain ⟨v, hv⟩ := hs
  rw [(hv.get env.l1 key).2, FoundInL1, hv.entryAt_eq, Recency.get]
  cases v.recency.lookup key with
  | none => simp
  | some entry => cases hexpired : entry.isExpired (env.l1 0) <;> simp [hexpired]

/-- A read is served if and only if the first tier has the entry, or Redis has and takes the
write-back. -/
theorem served_iff {s : Tiers V} (hs : ∃ v, MemoryCacheRepository.Shows config s.l1 v)
    (key : String) :
    (FoundInL1 env s key ∨ FoundInRedis client env s key →
        ∃ entry, (getIn client env key s).2 = some entry) ↔
      (FoundInRedis client env s key → env.fault 2 = .none) := by
  cases hl1 : (s.l1.get env.l1 key).2 with
  | some entry =>
    have hserved : (getIn client env key s).2 = some entry := by
      unfold getIn
      cases hget : s.l1.get env.l1 key with
      | mk l1 found =>
        rw [hget] at hl1
        simp only at hl1
        subst hl1
        rfl
    refine iff_of_true (fun _ => ⟨entry, hserved⟩) fun hfound => ?_
    cases hl1.symm.trans hfound.1
  | none =>
    have hmissed : ¬ FoundInL1 env s key := by
      rw [foundInL1_iff hs, hl1]
      exact fun h => h.elim fun _ h => by cases h
    rw [or_iff_right hmissed]
    refine forall_congr' fun hfound => ?_
    obtain ⟨-, havailable, json, hget, hfresh⟩ := hfound
    rw [(getIn_of_missed client hl1 havailable).2, run_get_of_fresh client hget hfresh]
    by_cases hfault : env.fault 2 = .none <;> simp [hfault]

/-! ### Every call -/

theorem deleteByPatternIn_cases (s : Tiers V) (pattern : String) :
    (deleteByPatternIn client regExp env pattern s).1.l1 =
        (s.l1.deleteByPattern regExp pattern).1 ∧
      ((deleteByPatternIn client regExp env pattern s).2 = .throws →
        (s.l1.deleteByPattern regExp pattern).2 = none) := by
  unfold deleteByPatternIn
  cases s.l1.deleteByPattern regExp pattern with
  | mk l1 count =>
    cases count with
    | none => exact ⟨rfl, fun _ => rfl⟩
    | some count =>
      simp only
      split
      · rcases scanL2In client env (RedisCacheRepository.deleteByPattern env.scans pattern) s.redis
          with ⟨redis, _ | _ | n⟩ <;> exact ⟨rfl, fun h => by cases h⟩
      · exact ⟨rfl, fun h => by cases h⟩

theorem keysIn_cases (s : Tiers V) (pattern : Option String) :
    (keysIn client regExp env pattern s).1.l1 = s.l1 ∧
      ((keysIn client regExp env pattern s).2 = .throws → s.l1.keys regExp pattern = none) := by
  unfold keysIn
  cases s.l1.keys regExp pattern with
  | none => exact ⟨rfl, fun _ => rfl⟩
  | some l1Keys =>
    simp only
    split
    · rcases scanL2In client env (RedisCacheRepository.keys env.scans pattern) s.redis
        with ⟨redis, _ | _ | names⟩ <;> exact ⟨rfl, fun h => by cases h⟩
    · exact ⟨rfl, fun h => by cases h⟩

theorem throws_of_callIn (s : Tiers V) (op : Op V)
    (h : (callIn client config regExp env op s).2 = .throws) :
    s.l1.answer regExp ⟨op, env.l1⟩ = .throws := by
  cases op with
  | deleteByPattern pattern =>
    change (s.l1.deleteByPattern regExp pattern).2.elim Answer.throws Answer.count = .throws
    rw [(deleteByPatternIn_cases client s pattern).2 h]
    rfl
  | keys pattern =>
    change (s.l1.keys regExp pattern).elim Answer.throws Answer.keys = .throws
    rw [(keysIn_cases client s pattern).2 h]
    rfl
  | _ => cases h

theorem getIn_cases (env : Surroundings) (s : Tiers V) (key : String) :
    (getIn client env key s).1.l1 = (s.l1.get env.l1 key).1 ∨
      (s.l1.get env.l1 key).2 = none ∧ ∃ entry, (getIn client env key s).2 = some entry ∧
        (getIn client env key s).1.l1 =
          promote env.promotion key entry (s.l1.get env.l1 key).1 := by
  unfold getIn
  cases s.l1.get env.l1 key with
  | mk l1 found =>
    cases found with
    | some entry => exact Or.inl rfl
    | none =>
      simp only
      split
      · rcases callL2In client env (RedisCacheRepository.get key) s.redis with
          ⟨redis, _ | _ | entry⟩
        · exact Or.inl rfl
        · exact Or.inl rfl
        · exact Or.inr ⟨trivial, entry, rfl, rfl⟩
      · exact Or.inl rfl

theorem getIn_promotes (env : Surroundings) (s : Tiers V) (key : String) :
    ∃ promotions, (promotions.map Promoted.read).Nodup ∧
      (∀ p ∈ promotions, p.read = 0 ∧ p.key = key ∧ (s.l1.get env.l1 key).2 = none ∧
        (getIn client env key s).2 = some p.entry) ∧
      (getIn client env key s).1.l1 = promoteAll (s.l1.get env.l1 key).1 promotions := by
  rcases getIn_cases client env s key with hl1 | ⟨hmissed, entry, hserved, hl1⟩
  · exact ⟨[], List.nodup_nil, fun _ hp => (by cases hp), hl1⟩
  · refine ⟨[⟨0, env.promotion, key, entry⟩], List.nodup_singleton _, fun p hp => ?_, hl1⟩
    obtain rfl := List.mem_singleton.mp hp
    exact ⟨rfl, rfl, hmissed, hserved⟩

theorem reads_mgetThreads {keys : List String} {found : List (Option (CacheEntry V))} {i : ℕ}
    {key : String} {p : RedisProgram V (Option (CacheEntry V))}
    (h : (mgetThreads env keys found)[i]? = some (key, p)) :
    keys[i]? = some key ∧ (Bulk.isOver p = false → found[i]? = some none) := by
  simp only [mgetThreads, List.getElem?_map, List.getElem?_zipIdx, Option.map_eq_some_iff] at h
  obtain ⟨x, ⟨y, hy, rfl⟩, hx⟩ := h
  obtain ⟨rfl, rfl⟩ := Prod.mk.inj hx
  obtain ⟨hkey, hfound⟩ := List.getElem?_zip_eq_some.mp hy
  refine ⟨hkey, fun hover => ?_⟩
  cases hentry : y.2 with
  | none => rw [hfound, hentry]
  | some entry =>
    rw [hentry] at hover
    cases hover

theorem mgetIn_promotes (env : Surroundings) (s : Tiers V) (keys : List String) :
    ∃ promotions, (promotions.map Promoted.read).Nodup ∧
      (∀ p ∈ promotions, keys[p.read]? = some p.key ∧
        (s.l1.mget env.l1 keys).2[p.read]? = some none ∧
        (mgetIn client env keys s).2[p.read]? = some (some p.entry)) ∧
      (mgetIn client env keys s).1.l1 = promoteAll (s.l1.mget env.l1 keys).1 promotions := by
  rw [mgetIn_eq]
  generalize s.l1.mget env.l1 keys = r
  obtain ⟨l1, found⟩ := r
  simp only
  generalize hstart : (⟨⟨l1, s.redis⟩, mgetThreads env keys found⟩ :
    Bulk V (Option (CacheEntry V))) = start
  have hfirst : Bulk.Promotes keys found l1 start [] := by
    subst hstart
    exact ⟨rfl, List.nodup_nil, fun p hp => (by cases hp), fun i key p hi => reads_mgetThreads hi⟩
  obtain ⟨promotions, h⟩ := hfirst.run client env
  refine ⟨promotions, h.nodup, fun p hp => ?_, h.l1_eq⟩
  obtain ⟨hthread, hmissed⟩ := h.promoted p hp
  refine ⟨(h.reads _ _ _ hthread).1, hmissed, ?_⟩
  rw [List.getElem?_map, hthread]
  rfl

/-- A call does to the first tier what the first tier's own call does, and promotes. -/
theorem callIn_promotes (config : Config) (regExp : RegExp) (s : Tiers V) (op : Op V) :
    ∃ promotions, (promotions.map Promoted.read).Nodup ∧
      (∀ p ∈ promotions, Serves op (s.l1.answer regExp ⟨op, env.l1⟩)
        (callIn client config regExp env op s).2 p) ∧
      (callIn client config regExp env op s).1.l1 =
        promoteAll (s.l1.step regExp ⟨op, env.l1⟩) promotions := by
  have halone : (callIn client config regExp env op s).1.l1 = s.l1.step regExp ⟨op, env.l1⟩ →
      ∃ promotions, (promotions.map Promoted.read).Nodup ∧
        (∀ p ∈ promotions, Serves op (s.l1.answer regExp ⟨op, env.l1⟩)
          (callIn client config regExp env op s).2 p) ∧
        (callIn client config regExp env op s).1.l1 =
          promoteAll (s.l1.step regExp ⟨op, env.l1⟩) promotions :=
    fun hl1 => ⟨[], List.nodup_nil, fun _ hp => (by cases hp), hl1⟩
  cases op with
  | get key =>
    obtain ⟨promotions, hnodup, hserves, hl1⟩ := getIn_promotes client env s key
    refine ⟨promotions, hnodup, fun p hp => ?_, hl1⟩
    obtain ⟨hread, hkey, hmissed, hserved⟩ := hserves p hp
    exact ⟨hread, hkey, congrArg Answer.entry hmissed, congrArg Answer.entry hserved⟩
  | mget keys =>
    obtain ⟨promotions, hnodup, hserves, hl1⟩ := mgetIn_promotes client env s keys
    exact ⟨promotions, hnodup, fun p hp => ⟨_, _, rfl, rfl, hserves p hp⟩, hl1⟩
  | set key value options =>
    refine halone ?_
    simp only [callIn, setIn]
    split <;> rfl
  | delete key =>
    refine halone ?_
    simp only [callIn, deleteIn]
    split <;> rfl
  | deleteByTags tags =>
    refine halone ?_
    simp only [callIn, deleteByTagsIn]
    split <;> rfl
  | deleteByPattern pattern => exact halone (deleteByPatternIn_cases client s pattern).1
  | exists_ key =>
    refine halone ?_
    simp only [callIn, existsIn]
    rcases hexists : s.l1.exists_ env.l1 key with ⟨l1, _ | _⟩
    · simp only
      split <;> exact (congrArg Prod.fst hexists).symm
    · exact (congrArg Prod.fst hexists).symm
  | getStats memoryUsageMb =>
    refine halone ?_
    simp only [callIn, getStatsIn]
    split
    · rcases scanL2In client env RedisCacheRepository.getStats s.redis with ⟨redis, _ | _⟩ <;> rfl
    · rfl
  | flush =>
    refine halone ?_
    simp only [callIn, flushIn]
    split <;> rfl
  | keys pattern => exact halone (keysIn_cases client s pattern).1
  | mset entries => exact halone (Bulk.l1_run_of_dropped client env _)
  | sweep => exact halone rfl

/-- Any of the Redis commands of any calls may fail. The next call throws only where the first
tier throws, and does to the first tier what the first tier's own call does, apart from
promotions; it serves what either tier has found if and only if the write-back of what Redis
has found does not fail. -/
theorem resilient_iff (config : Config) (regExp : RegExp) (redis : Database V)
    (calls : List (LayeredCall V)) (e : LayeredCall V) :
    let s := reachIn client config regExp redis calls
    Resilient client config regExp s e ↔ WritesBack client s e := by
  intro s
  obtain ⟨v, hv, -⟩ := holds_reachIn client config regExp "" redis calls
  obtain ⟨op, env⟩ := e
  constructor
  · intro h key hop
    obtain rfl : op = .get key := hop
    refine (served_iff client ⟨v, hv⟩ key).mp fun hfound => ?_
    obtain ⟨entry, hentry⟩ := h.served key rfl hfound
    exact ⟨entry, Answer.entry.inj hentry⟩
  · intro h
    refine ⟨throws_of_callIn client s op, fun key hop hfound => ?_,
      callIn_promotes client config regExp s op⟩
    obtain rfl : op = .get key := hop
    obtain ⟨entry, hentry⟩ := (served_iff client ⟨v, hv⟩ key).mpr (h key rfl) hfound
    exact ⟨entry, congrArg Answer.entry hentry⟩

/-- The hit of a read from Redis cannot be written back, and nothing is served. -/
theorem not_resilient_of_lost_write_back :
    ¬ ∀ (calls : List (LayeredCall ℕ)) (e : LayeredCall ℕ),
      Resilient ⟨"edgecache:"⟩ ⟨1, 60, by decide, by decide⟩ (fun _ => none)
        (reachIn ⟨"edgecache:"⟩ ⟨1, 60, by decide, by decide⟩ (fun _ => none) (fun _ => none) calls)
        e := by
  intro hall
  have hserved := (hall [⟨.set "a" 7 (.ofTtl 60),
        Conditions.surroundings ⟨⟨1000, by decide⟩, true, fun _ => .none⟩⟩,
      ⟨.set "b" 8 (.ofTtl 60),
        Conditions.surroundings ⟨⟨1000, by decide⟩, true, fun _ => .none⟩⟩]
    ⟨.get "a", Conditions.surroundings
      ⟨⟨2000, by decide⟩, true, fun i => if i = 2 then .lost else .none⟩⟩).served "a" rfl
    (Or.inr ⟨by decide +kernel, rfl,
      .stringify (.create ⟨1000, by decide⟩ "a" 7 (.ofNat 60) [] []), rfl, by decide +kernel⟩)
  obtain ⟨entry, hentry⟩ := hserved
  have hnothing : Answer.entry none = Answer.entry (some entry) :=
    Eq.trans (by decide +kernel) hentry
  cases hnothing

end LayeredCacheRepository

end EdgeCache
