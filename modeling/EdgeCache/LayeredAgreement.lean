import EdgeCache.LayeredConditional
import EdgeCache.LayeredStaleness

/-!
Conditional sets of several instances that share Redis. Redis takes the first of them, and
keeps it for its time; an instance that has the key in its first tier does not set it again.
An instance that has not, since it never read the key or has evicted it, stores its own value
in front of the one in Redis. All read the first value as long as nobody does that with
another one.
-/
namespace EdgeCache

open Programs (Program faultless)

variable {V : Type}

/-! ### A document that lasts -/

/-- The document has the value and does not expire before the deadline. -/
def EntryJson.Lasts (value : V) (deadline : ℤ) (json : EntryJson V) : Prop :=
  json.value = value ∧ ∃ t, json.expiresAt = some t ∧ deadline ≤ t

/-- The record is such a document, and Redis keeps it as long. -/
def Record.Lasts (value : V) (deadline : ℤ) (record : Record V) : Prop :=
  ∃ json, record.value = .string json ∧ json.Lasts value deadline ∧
    ∀ t, record.expireAt = some t → deadline ≤ t

section Lasts

variable {value : V} {deadline : ℤ}

theorem EntryJson.Lasts.fresh {json : EntryJson V} (h : json.Lasts value deadline) {now : Time}
    (hnow : now.val ≤ deadline) : json.restore.isExpired now = false := by
  obtain ⟨-, t, ht, hle⟩ := h
  simp only [CacheEntry.isExpired, restore, Date.ofJson, ht, Option.getD_some, Date.isBefore,
    decide_eq_false_iff_not, not_lt]
  omega

theorem EntryJson.Lasts.hit {json : EntryJson V} (h : json.Lasts value deadline) :
    (stringify json.restore.registerHit).Lasts value deadline := by
  obtain ⟨hvalue, t, ht, hle⟩ := h
  refine ⟨hvalue, t, ?_, hle⟩
  simp only [stringify, CacheEntry.registerHit, restore, Date.ofJson, Date.toJson, ht,
    Option.getD_some]

theorem Record.Lasts.live {record : Record V} (h : record.Lasts value deadline) {now : Time}
    (hnow : now.val ≤ deadline) : Redis.isLive now record = true := by
  obtain ⟨json, -, -, htime⟩ := h
  cases hexpire : record.expireAt with
  | none => simp [Redis.isLive, hexpire]
  | some t =>
    have hle := htime t hexpire
    simp only [Redis.isLive, hexpire, Option.all_some, decide_eq_true_eq]
    omega

/-- Commands that leave such a document in place: conditional sets of the key, and writing
it back. -/
def KeepsKey (key : String) (value : V) (deadline : ℤ) : Command V → Prop
  | .set key' json mode => key' = key →
    (∃ seconds, mode = .exNx seconds) ∨ mode = .keepTtl ∧ json.Lasts value deadline
  | .del keys => key ∉ keys
  | .expire key' _ => key' ≠ key
  | .flushdb => False
  | _ => True

/-- Commands that leave it in place or take it away. -/
def DropsKey (key : String) (value : V) (deadline : ℤ) : Command V → Prop
  | .set key' json mode => key' = key → mode = .keepTtl ∧ json.Lasts value deadline
  | .sadd key' _ => key' ≠ key
  | .expire key' _ => key' ≠ key
  | _ => True

variable {now : Time} {db : Database V} {key : String} {c : Command V}

theorem exec_lasts (hnow : now.val ≤ deadline) (hc : KeepsKey key value deadline c)
    {record : Record V} (hdb : db key = some record) (hlasts : record.Lasts value deadline) :
    ∃ record', (Redis.exec now db c).1 key = some record' ∧ record'.Lasts value deadline := by
  have hfind : Redis.find db now key = some record :=
    Redis.find_eq_some_iff.mpr ⟨hdb, hlasts.live hnow⟩
  by_cases hwrites : Redis.Writes key c
  · cases c with
    | set key' json mode =>
      obtain rfl : key' = key := hwrites
      rcases hc rfl with ⟨seconds, rfl⟩ | ⟨rfl, hjson⟩
      · refine ⟨record, ?_, hlasts⟩
        simp only [Redis.exec, hfind, Option.isSome_some, ↓reduceIte]
        split <;> exact hdb
      · obtain ⟨_, -, -, htime⟩ := hlasts
        refine ⟨_, Redis.insert_self, json, rfl, hjson, ?_⟩
        simpa only [hfind, Option.bind_some] using htime
    | del keys => exact absurd hwrites hc
    | sadd key' member =>
      obtain rfl : key' = key := hwrites
      refine ⟨record, ?_, hlasts⟩
      obtain ⟨json, hvalue, -⟩ := hlasts
      obtain ⟨_, t⟩ := record
      obtain rfl : _ = Stored.string json := hvalue
      simp only [Redis.exec, hfind]
      exact hdb
    | expire key' seconds => exact absurd hwrites hc
    | flushdb => exact hc.elim
    | _ => exact hwrites.elim
  · exact ⟨record, (Redis.exec_frame now db hwrites).trans hdb, hlasts⟩

theorem exec_drops (hnow : now.val ≤ deadline) (hc : DropsKey key value deadline c)
    (hdb : ∀ record, db key = some record → record.Lasts value deadline) {record : Record V}
    (hrecord : (Redis.exec now db c).1 key = some record) : record.Lasts value deadline := by
  by_cases hkeeps : KeepsKey key value deadline c
  · cases hold : db key with
    | some before =>
      obtain ⟨record', hexec, hlasts⟩ := exec_lasts hnow hkeeps hold (hdb before hold)
      rw [hrecord, Option.some.injEq] at hexec
      exact hexec ▸ hlasts
    | none =>
      by_cases hwrites : Redis.Writes key c
      · cases c with
        | set key' json mode =>
          obtain rfl : key' = key := hwrites
          obtain ⟨rfl, hjson⟩ := hc rfl
          have hnone : Redis.find db now key' = none := by rw [Redis.find, hold]; rfl
          simp only [Redis.exec, Redis.insert_self, hnone, Option.bind_none,
            Option.some.injEq] at hrecord
          exact hrecord ▸ ⟨json, rfl, hjson, fun t ht => by cases ht⟩
        | del keys => exact absurd hwrites hkeeps
        | sadd key' member => exact absurd hwrites hc
        | expire key' seconds => exact absurd hwrites hc
        | flushdb => exact hkeeps.elim
        | _ => exact hwrites.elim
      · rw [Redis.exec_frame now db hwrites, hold] at hrecord
        cases hrecord
  · -- only what takes keys away may fail to keep it
    cases c with
    | set key' json mode => exact absurd (fun hk => Or.inr (hc hk)) hkeeps
    | del keys =>
      rw [Redis.exec_del, if_pos (not_not.mp hkeeps)] at hrecord
      cases hrecord
    | expire key' seconds => exact absurd hc hkeeps
    | flushdb => cases hrecord
    | _ => exact absurd trivial hkeeps

end Lasts

/-! ### Both tiers -/

/-- Redis has a document of the value that lasts. -/
def Keeping (client : Client) (key : String) (value : V) (deadline : ℤ) (redis : Database V) :
    Prop :=
  ∃ record, client.view redis key = some record ∧ record.Lasts value deadline

/-- Redis has nothing else under the key. -/
def KeepingAtMost (client : Client) (key : String) (value : V) (deadline : ℤ)
    (redis : Database V) : Prop :=
  ∀ record, client.view redis key = some record → record.Lasts value deadline

/-- Readings from the first set on, before its time is over. -/
def Within (start : Time) (deadline : ℤ) (now : Time) : Prop := start ≤ now ∧ now.val ≤ deadline

/-- An entry that has the value, or is not served any more. -/
def ServesAtMost (value : V) (start : Time) (entry : CacheEntry V) : Prop :=
  entry.value = value ∨ entry.isExpired start = true

section Rules

variable {client : Client} {config : Config} {key : String} {value : V} {start : Time}
  {deadline : ℤ}

theorem Keeping.atMost {redis : Database V} (h : Keeping client key value deadline redis) :
    KeepingAtMost client key value deadline redis := by
  obtain ⟨record, hrecord, hlasts⟩ := h
  intro record' hrecord'
  rw [hrecord, Option.some.injEq] at hrecord'
  exact hrecord' ▸ hlasts

theorem reply_lasts {now : Time} {redis : Database V} {c : Command V} {r : Reply V}
    (hredis : KeepingAtMost client key value deadline redis)
    (hr : (client.send now redis c).2 = some r) :
    RepliesAt key (EntryJson.Lasts value deadline) c r := by
  rw [(client.view_send now redis c).2] at hr
  cases c with
  | get key' =>
    cases r with
    | string json =>
      intro hk
      subst hk
      simp only [Redis.exec] at hr
      split at hr
      · cases hr
      · next json' t hfind =>
        obtain ⟨hdb, -⟩ := Redis.find_eq_some_iff.mp hfind
        obtain ⟨_, hvalue, hlasts, -⟩ := hredis _ hdb
        simp only [Option.some.injEq, Reply.string.injEq] at hr
        exact hr ▸ Stored.string.inj hvalue ▸ hlasts
      · cases hr
    | _ => trivial
  | _ => trivial

theorem get_meets_lasts {issue : Command V → Prop} (hget : ∀ key', issue (.get key'))
    (hdel : ∀ key', key' ≠ key → issue (.del [key']))
    (hset : ∀ key' json, (key' = key → json.Lasts value deadline) →
      issue (.set key' json .keepTtl)) (key' : String) :
    (RedisCacheRepository.get key').Meets (Within start deadline)
      (RepliesAt key (EntryJson.Lasts value deadline)) issue
      fun found => key' = key → ∀ entry, found = some entry → entry.value = value := by
  refine RedisCacheRepository.get_meets_of_reply (hget key') (fun _ entry h => by cases h) ?_ ?_
  · intro json now hnow hreply hexpired
    refine hdel key' fun hk => ?_
    have hlasts : json.Lasts value deadline := hreply hk
    rw [hlasts.fresh hnow.2] at hexpired
    cases hexpired
  · intro json now _ hreply _
    refine ⟨hset key' _ fun hk => (hreply hk : json.Lasts value deadline).hit, ?_⟩
    intro hk entry hentry
    obtain rfl : json.restore.registerHit = entry := Option.some.inj hentry
    exact (hreply hk : json.Lasts value deadline).1

theorem keeping_rule (client : Client) (config : Config) (key : String) (value : V)
    (start : Time) (deadline : ℤ) :
    TierRule client config key (Within start deadline)
      (RepliesAt key (EntryJson.Lasts value deadline)) (KeepsKey key value deadline)
      (ServesAtMost value start) (fun entry => entry.value = value)
      (Keeping client key value deadline) where
  serves := by
    intro now redis c hnow hredis hc
    refine ⟨?_, fun r hr => reply_lasts hredis.atMost hr⟩
    obtain ⟨record, hrecord, hlasts⟩ := hredis
    unfold Keeping
    rw [(client.view_send now redis c).1]
    exact exec_lasts hnow.2 hc hrecord hlasts
  hit := fun _ h => h
  get := get_meets_lasts (fun _ => trivial)
    (fun _ hne hmem => hne (List.mem_singleton.mp hmem).symm)
    fun _ _ hjson hk => Or.inr ⟨rfl, hjson hk⟩
  promoted := fun _ h _ _ _ _ => Or.inl h

theorem keepingAtMost_rule (client : Client) (config : Config) (key : String) (value : V)
    (start : Time) (deadline : ℤ) :
    TierRule client config key (Within start deadline)
      (RepliesAt key (EntryJson.Lasts value deadline)) (DropsKey key value deadline)
      (ServesAtMost value start) (fun entry => entry.value = value)
      (KeepingAtMost client key value deadline) where
  serves := by
    intro now redis c hnow hredis hc
    refine ⟨fun record hrecord => ?_, fun r hr => reply_lasts hredis hr⟩
    rw [(client.view_send now redis c).1] at hrecord
    exact exec_drops hnow.2 hc hredis hrecord
  hit := fun _ h => h
  get := get_meets_lasts (fun _ => trivial) (fun _ _ => trivial)
    fun _ _ hjson hk => ⟨rfl, hjson hk⟩
  promoted := fun _ h _ _ _ _ => Or.inl h

theorem set_meets_keeps {key' : String} {value' : V} {options : SetOptions}
    (hnx : key' = key → options.ifNotExists = true)
    (htags : ∀ tag ∈ options.tagList, tagKey tag ≠ key) :
    (RedisCacheRepository.set config key' value' options).Meets (Within start deadline)
      (RepliesAt key (EntryJson.Lasts value deadline)) (KeepsKey key value deadline)
      fun _ => True := by
  refine RedisCacheRepository.set_meets_of_mode trivial (fun now _ mode hmode hk => ?_)
    fun tag htag => ⟨trivial, fun _ => htags tag htag⟩
  rcases hmode with ⟨-, seconds, rfl⟩ | ⟨hplain, -⟩
  · exact Or.inl ⟨seconds, rfl⟩
  · rw [hnx hk] at hplain
    cases hplain

/-- A call that may come between the sets: a set of the key is conditional, and finds the key
in the first tier or brings the same value; nothing takes the key out of Redis; and no tag
set has its name. -/
def Op.Admitted (client : Client) (key : String) (value : V) (env : Surroundings)
    (before after : Tiers V) : Op V → Prop
  | .set key' value' options => (∀ tag ∈ options.tagList, tagKey tag ≠ key) ∧
    (key' = key → options.ifNotExists = true ∧
      (HeldIn (env.l1 0) key before.l1 ∨ value' = value))
  | .mset entries => ∀ p ∈ entries, (∀ tag ∈ p.2.2.tagList, tagKey tag ≠ key) ∧
    (p.1 = key → p.2.2.ifNotExists = true ∧ p.2.1 = value)
  | .delete _ | .deleteByTags _ | .deleteByPattern _ | .flush =>
    client.view after.redis key ≠ none
  | _ => True

/-- The first tier serves nothing else under the key than Redis does. -/
structure Agreeing (client : Client) (config : Config) (key : String) (value : V) (start : Time)
    (deadline : ℤ) (s : Tiers V) : Prop where
  l1 : HoldsAt config key (ServesAtMost value start) s.l1
  redis : Keeping client key value deadline s.redis

namespace Agreeing

variable {s : Tiers V}

/-- What takes keys away leaves the document, or leaves nothing. -/
theorem stepIn_of_drops (h : Agreeing client config key value start deadline s) (regExp : RegExp)
    {e : LayeredCall V} (henv : e.env.Reads (Within start deadline))
    (hbrings : TierRule.Brings config key (Within start deadline)
      (RepliesAt key (EntryJson.Lasts value deadline)) (DropsKey key value deadline)
      (ServesAtMost value start) e.env s e.op)
    (hthere : client.view (LayeredCacheRepository.stepIn client config regExp s e).redis key ≠
      none) :
    Agreeing client config key value start deadline
      (LayeredCacheRepository.stepIn client config regExp s e) := by
  obtain ⟨hl1, hredis⟩ := (keepingAtMost_rule client config key value start deadline).callIn henv
    h.l1 h.redis.atMost regExp hbrings
  obtain ⟨record, hrecord⟩ := Option.ne_none_iff_exists'.mp hthere
  exact ⟨hl1, record, hrecord, hredis record hrecord⟩

theorem servesAtMost_set (h : Agreeing client config key value start deadline s)
    {clock : Clock} {value' : V} {options : SetOptions} (hnx : options.ifNotExists = true)
    (hset : HeldIn (clock 0) key s.l1 ∨ value' = value)
    (hentry : (s.l1.set clock key value' options).entryAt key =
      some (MemoryView.newEntry config (clock 1) key value' options)) :
    ServesAtMost value start (MemoryView.newEntry config (clock 1) key value' options) := by
  rcases hset with hheld | rfl
  · rw [MemoryCacheRepository.set, if_pos ((suppressed_iff hnx clock).mpr hheld)] at hentry
    exact h.l1.of_entryAt hentry
  · exact Or.inl rfl

theorem stepIn (h : Agreeing client config key value start deadline s) (regExp : RegExp)
    {e : LayeredCall V} (henv : e.env.Reads (Within start deadline))
    (hop : e.op.Admitted client key value e.env s
      (LayeredCacheRepository.stepIn client config regExp s e)) :
    Agreeing client config key value start deadline
      (LayeredCacheRepository.stepIn client config regExp s e) := by
  have hkeeps : TierRule.Brings config key (Within start deadline)
      (RepliesAt key (EntryJson.Lasts value deadline)) (KeepsKey key value deadline)
      (ServesAtMost value start) e.env s e.op → _ :=
    (keeping_rule client config key value start deadline).callIn henv h.l1 h.redis regExp
  have hdrops := h.stepIn_of_drops regExp henv
  obtain ⟨op, env⟩ := e
  cases op with
  | delete key' => exact hdrops trivial hop
  | deleteByTags tags => exact hdrops ⟨fun _ => trivial, fun _ => trivial⟩ hop
  | deleteByPattern pattern => exact hdrops (fun _ => trivial) hop
  | flush => exact hdrops trivial hop
  | set key' value' options =>
    obtain ⟨htags, hset⟩ := hop
    obtain ⟨hl1, hredis⟩ := hkeeps ⟨fun hk hentry => by
      subst hk
      exact h.servesAtMost_set (hset rfl).1 (hset rfl).2 hentry,
      set_meets_keeps (fun hk => (hset hk).1) htags⟩
    exact ⟨hl1, hredis⟩
  | mset entries =>
    obtain ⟨hl1, hredis⟩ := hkeeps
      ⟨fun value' options hmem now _ => Or.inl ((hop _ hmem).2 rfl).2,
        fun p hp => set_meets_keeps (fun hk => ((hop p hp).2 hk).1) (hop p hp).1⟩
    exact ⟨hl1, hredis⟩
  | _ =>
    obtain ⟨hl1, hredis⟩ := hkeeps trivial
    exact ⟨hl1, hredis⟩

/-- Every read then returns the value. -/
theorem getIn (h : Agreeing client config key value start deadline s) {env : Surroundings}
    (hsound : env.Sound) (henv : env.Reads (Within start deadline)) :
    ∃ entry, (LayeredCacheRepository.getIn client env key s).2 = some entry ∧
      entry.value = value := by
  rw [snd_getIn hsound]
  cases hfirst : (s.l1.get env.l1 key).2 with
  | some entry =>
    refine ⟨entry, rfl, ?_⟩
    obtain ⟨hserves, hfresh⟩ := (h.l1.get (fun _ h => h) env.l1 key).2 rfl entry hfirst
    rcases hserves with hvalue | hexpired
    · exact hvalue
    · rw [entry.isExpired_mono (henv.l1 0).1 hexpired] at hfresh
      cases hfresh
  | none =>
    obtain ⟨⟨_, t⟩, hrecord, hlasts⟩ := h.redis
    have hfind := Redis.find_eq_some_iff.mpr ⟨hrecord, hlasts.live (henv.l2 0).2⟩
    obtain ⟨json, hvalue, hjson, -⟩ := hlasts
    obtain rfl : _ = Stored.string json := hvalue
    refine ⟨json.restore.registerHit, ?_, hjson.1⟩
    have hclock : env.clock 0 = (env.l2 0).now := rfl
    rw [Option.none_or, hclock, hfind]
    simp only [servedFrom, hjson.fresh (henv.l2 1).2, Surroundings.clock, Bool.false_eq_true,
      ↓reduceIte]

end Agreeing

/-! ### The first set -/

/-- A conditional set of a key that nobody has, for a whole number of seconds that ends at a
date. -/
structure SetsFirst (client : Client) (config : Config) (key : String) (options : SetOptions)
    (seconds : ℕ) (start : Time) (env : Surroundings) (redis : Database V) : Prop where
  conditional : options.ifNotExists = true
  ttl : options.ttlOr (.ofNat config.cacheDefaultTtl) = .ofNat seconds
  seconds_pos : 0 < seconds
  tags : ∀ tag ∈ options.tagList, tagKey tag ≠ key
  sound : env.Sound
  reads : env.Reads fun now => start ≤ now ∧ now.val + seconds * 1000 ≤ maxTime
  absent : Redis.find (client.view redis) start key = none

theorem EntryJson.lasts_create {now start : Time} {seconds : ℕ} (hstart : start ≤ now)
    (hdate : now.val + seconds * 1000 ≤ maxTime) (tags : List String) (metadata : Metadata) :
    (stringify (.create now key value (.ofNat seconds) tags metadata)).Lasts value
      (start.val + seconds * 1000) := by
  have hle : start.val ≤ now.val := hstart
  refine ⟨rfl, now.val + seconds * 1000, ?_, by omega⟩
  simp only [stringify, CacheEntry.create, Date.toJson, JsNumber.toDate_after_ofNat, hdate,
    ↓reduceIte]

/-- Redis takes the first set. -/
theorem SetsFirst.keeping {options : SetOptions} {seconds : ℕ} {env : Surroundings}
    {redis : Database V} (h : SetsFirst client config key options seconds start env redis)
    (value : V) :
    Keeping client key value (start.val + seconds * 1000)
      (LayeredCacheRepository.callL2In client env
        (RedisCacheRepository.set config key value options) redis).1 := by
  have hfault : env.fault = faultless := funext h.sound.answered
  obtain ⟨hstart, hdate⟩ := h.reads.l2 0
  obtain ⟨hstart', hdate'⟩ := h.reads.l2 1
  have hdeadline : Redis.setDeadline (env.clock 1) (.ofNat seconds) =
      some ((env.clock 1).val + seconds * 1000) := Redis.setDeadline_ofNat h.seconds_pos hdate'
  have hnone : Redis.find (client.view redis) (env.clock 1) key = none :=
    Redis.find_eq_none_of_le hstart' h.absent
  have hrecord : client.view (LayeredCacheRepository.callL2In client env
      (RedisCacheRepository.set config key value options) redis).1 key =
        some ⟨.string (.stringify (.create (env.clock 0) key value (.ofNat seconds)
          options.tagList options.metadataList)), some ((env.clock 1).val + seconds * 1000)⟩ := by
    rw [LayeredCacheRepository.callL2In, hfault, (Programs.run_view client.view_send _ _ _ _ _).1]
    simp only [RedisCacheRepository.set, RedisCacheRepository.setCommands, h.conditional,
      ↓reduceIte, Program.each, Programs.run, Programs.attempt, faultless, Redis.exec,
      CacheEntry.create, h.ttl, hdeadline, hnone, Option.isSome_none, Bool.false_eq_true]
    rw [Redis.run_frame (RedisCacheRepository.tagCommands_onlyCalls h.tags _), Redis.insert_self]
  refine ⟨_, hrecord, _, rfl, EntryJson.lasts_create hstart hdate _ _, fun t ht => ?_⟩
  obtain rfl := Option.some.inj ht
  have hle : start.val ≤ (env.clock 1).val := hstart'
  omega

/-- After it, every first tier in which the key had expired serves at most its value. -/
theorem SetsFirst.agreeing {options : SetOptions} {seconds : ℕ} {s : Tiers V}
    {env : Surroundings} (h : SetsFirst client config key options seconds start env s.redis)
    (value : V) (hl1 : HoldsAt config key (ServesAtMost value start) s.l1) :
    Agreeing client config key value start (start.val + seconds * 1000)
      (LayeredCacheRepository.setIn client config env key value options s) := by
  rw [setIn_of_sound h.sound]
  exact ⟨hl1.set env.l1 key value options fun _ _ => Or.inl rfl, h.keeping value⟩

end Rules

/-! ### Instances -/

/-- A call of one of the instances. -/
structure ClusterCall (ι V : Type) where
  instance_ : ι
  call : LayeredCall V

namespace Cluster

variable {ι : Type} [DecidableEq ι]

def stepIn (client : Client) (config : Config) (regExp : RegExp) (s : Cluster ι V)
    (e : ClusterCall ι V) : Cluster ι V :=
  let tiers := LayeredCacheRepository.stepIn client config regExp (s.tiers e.instance_) e.call
  ⟨Function.update s.l1 e.instance_ tiers.l1, tiers.redis⟩

/-- The instances after calls made one after another, over some Redis. -/
def reachIn (client : Client) (config : Config) (regExp : RegExp) (redis : Database V)
    (calls : List (ClusterCall ι V)) : Cluster ι V :=
  Runs.run (stepIn client config regExp) ⟨fun _ => .new config, redis⟩ calls

variable {client : Client} {config : Config} {regExp : RegExp} {key : String} {value : V}
  {start : Time} {deadline : ℤ}

theorem tiers_stepIn (s : Cluster ι V) (e : ClusterCall ι V) :
    (s.stepIn client config regExp e).tiers e.instance_ =
      LayeredCacheRepository.stepIn client config regExp (s.tiers e.instance_) e.call := by
  simp [stepIn, tiers]

theorem l1_stepIn_of_ne (s : Cluster ι V) (e : ClusterCall ι V) {i : ι} (hi : i ≠ e.instance_) :
    (s.stepIn client config regExp e).l1 i = s.l1 i :=
  Function.update_of_ne hi ..

theorem holds_reachIn (config : Config) (redis : Database V) (calls : List (ClusterCall ι V))
    (key : String) (i : ι) :
    HoldsAt config key (fun _ => True) ((reachIn client config regExp redis calls).l1 i) := by
  refine Runs.run_invariant (I := fun s : Cluster ι V => ∀ i, HoldsAt config key (fun _ => True)
    (s.l1 i)) (fun s e hs i => ?_) (fun _ => HoldsAt.new config key _) calls i
  by_cases hi : i = e.instance_
  · subst hi
    have hstep := LayeredCacheRepository.holds_stepIn client config regExp key
      (s := s.tiers e.instance_) (hs e.instance_) e.call
    rwa [← tiers_stepIn] at hstep
  · rw [l1_stepIn_of_ne s e hi]
    exact hs i

/-- Every instance serves at most what Redis does. -/
def AllAgreeing (client : Client) (config : Config) (key : String) (value : V) (start : Time)
    (deadline : ℤ) (s : Cluster ι V) : Prop :=
  ∀ i, Agreeing client config key value start deadline (s.tiers i)

/-- The call falls into the time of the first set, and may come there. -/
def Admits (client : Client) (config : Config) (regExp : RegExp) (key : String) (value : V)
    (start : Time) (deadline : ℤ) (s : Cluster ι V) (e : ClusterCall ι V) : Prop :=
  e.call.env.Reads (Within start deadline) ∧
    e.call.op.Admitted client key value e.call.env (s.tiers e.instance_)
      (LayeredCacheRepository.stepIn client config regExp (s.tiers e.instance_) e.call)

/-- What one instance does agrees with the others, as they share Redis. -/
theorem AllAgreeing.of_step {s : Cluster ι V} {e : ClusterCall ι V}
    (hl1 : ∀ i, HoldsAt config key (ServesAtMost value start) (s.l1 i))
    (hstep : Agreeing client config key value start deadline
      (LayeredCacheRepository.stepIn client config regExp (s.tiers e.instance_) e.call)) :
    AllAgreeing client config key value start deadline (s.stepIn client config regExp e) := by
  intro i
  rw [← tiers_stepIn] at hstep
  by_cases hi : i = e.instance_
  · exact hi ▸ hstep
  · refine ⟨?_, hstep.redis⟩
    simp only [tiers, l1_stepIn_of_ne s e hi]
    exact hl1 i

theorem AllAgreeing.stepIn {s : Cluster ι V}
    (h : AllAgreeing client config key value start deadline s) {e : ClusterCall ι V}
    (he : Admits client config regExp key value start deadline s e) :
    AllAgreeing client config key value start deadline (s.stepIn client config regExp e) :=
  AllAgreeing.of_step (fun i => (h i).l1) ((h e.instance_).stepIn regExp he.1 he.2)

/-- The first set, by one of the instances, and the calls that may come in its time. -/
theorem allAgreeing_of_first {s : Cluster ι V} {i : ι} {env : Surroundings}
    {options : SetOptions} {seconds : ℕ}
    (hfirst : SetsFirst client config key options seconds start env s.redis)
    (hl1 : ∀ i, HoldsAt config key (ServesAtMost value start) (s.l1 i))
    {later : List (ClusterCall ι V)}
    (hlater : Runs.Guarded (Cluster.stepIn client config regExp)
      (Admits client config regExp key value start (start.val + seconds * 1000))
      (s.stepIn client config regExp ⟨i, .set key value options, env⟩) later) :
    AllAgreeing client config key value start (start.val + seconds * 1000)
      (Runs.run (Cluster.stepIn client config regExp)
        (s.stepIn client config regExp ⟨i, .set key value options, env⟩) later) :=
  hlater.invariant (fun _ _ hs he => hs.stepIn he)
    (AllAgreeing.of_step hl1 (hfirst.agreeing (s := s.tiers i) value (hl1 i)))

/-- A conditional set of an instance leaves what it would have read exactly when its first
tier has the key, or the set brings the same content, or one that has expired when it is
read. And when a key that nobody has is set conditionally, by any instances and in any order,
all of them read the first value as long as each of the sets finds the key in the first tier
of its instance or brings that value. -/
theorem set_ifNotExists (client : Client) (config : Config) (regExp : RegExp)
    (redis : Database V) (key : String) (calls : List (ClusterCall ι V)) :
    (∀ (i : ι) (env env' : Surroundings) (now : Time) (value : V) (options : SetOptions)
        (entry : CacheEntry V),
      options.ifNotExists = true → env.Sound → env'.Sound → env.Reads (· ≤ now) →
      env'.Reads (now ≤ ·) →
      ErrorFree client env (RedisCacheRepository.set config key value options)
        (reachIn client config regExp redis calls).redis →
      (LayeredCacheRepository.getIn client env' key
        ((reachIn client config regExp redis calls).tiers i)).2 = some entry →
      ((∃ entry', (LayeredCacheRepository.getIn client env' key
          ((reachIn client config regExp redis
            (calls ++ [⟨i, .set key value options, env⟩])).tiers i)).2 = some entry' ∧
          entry'.content = entry.content) ↔
        HeldIn (env.l1 0) key ((reachIn client config regExp redis calls).l1 i) ∨
          options.content value = entry.content ∨
          (MemoryView.newEntry config (env.l1 1) key value options).isExpired (env'.l1 0) =
            true)) ∧
    (∀ (i j : ι) (env env' : Surroundings) (start : Time) (value : V) (options : SetOptions)
        (seconds : ℕ) (later : List (ClusterCall ι V)),
      SetsFirst client config key options seconds start env
        (reachIn client config regExp redis calls).redis →
      (∀ i entry, ((reachIn client config regExp redis calls).l1 i).entryAt key = some entry →
        entry.isExpired start = true) →
      Runs.Guarded (Cluster.stepIn client config regExp)
        (Admits client config regExp key value start (start.val + seconds * 1000))
        (reachIn client config regExp redis (calls ++ [⟨i, .set key value options, env⟩]))
        later →
      env'.Sound → env'.Reads (Within start (start.val + seconds * 1000)) →
      ∃ entry, (LayeredCacheRepository.getIn client env' key
          ((reachIn client config regExp redis
            (calls ++ ⟨i, .set key value options, env⟩ :: later)).tiers j)).2 = some entry ∧
        entry.value = value) := by
  constructor
  · intro i env env' now value options entry hnx hsound hsound' henv henv' hfree hentry
    obtain ⟨v, hv, -⟩ := holds_reachIn config redis calls key i
    have hstep : (reachIn client config regExp redis
        (calls ++ [⟨i, .set key value options, env⟩])).tiers i =
          LayeredCacheRepository.setIn client config env key value options
            ((reachIn client config regExp redis calls).tiers i) := by
      rw [reachIn, Runs.run_append]
      exact tiers_stepIn _ ⟨i, .set key value options, env⟩
    rw [hstep]
    exact content_getIn_setIn_iff hv hsound hsound' henv henv' hnx hfree hentry
  · intro i j env env' start value options seconds later hfirst habsent hlater hsound' henv'
    have hl1 : ∀ i, HoldsAt config key (ServesAtMost value start)
        ((reachIn client config regExp redis calls).l1 i) := fun i =>
      (holds_reachIn config redis calls key i).intro_entryAt fun entry h =>
        Or.inr (habsent i entry h)
    rw [reachIn, Runs.run_append] at hlater
    have hall := allAgreeing_of_first hfirst hl1 hlater
    rw [reachIn, Runs.run_append]
    exact (hall j).getIn hsound' henv'

theorem sound_good (now : Time) : (Conditions.good now).surroundings.Sound :=
  ⟨rfl, fun _ => rfl⟩

def claimOptions : SetOptions := ⟨some (.ofNat 60), none, none, true⟩

theorem heldIn_of_suppressed {clock : Clock} {l1 : MemoryCacheRepository V}
    (h : l1.suppressed clock key claimOptions = true) : HeldIn (clock 0) key l1 :=
  (suppressed_iff rfl clock).mp h

/-- One of the instances sets the key to a value, if nobody has. -/
def claim (i : ℕ) (now : Time) (value : ℕ) : ClusterCall ℕ ℕ :=
  ⟨i, .set "a" value claimOptions, (Conditions.good now).surroundings⟩

theorem setsFirst_claim (config : Config) {now : Time}
    (hdate : now.val + (60 : ℕ) * 1000 ≤ maxTime) :
    SetsFirst ⟨"edgecache:"⟩ config "a" claimOptions 60 now
      (Conditions.good now).surroundings (fun _ => none : Database ℕ) where
  conditional := rfl
  ttl := rfl
  seconds_pos := by decide
  tags := fun _ htag => absurd htag List.not_mem_nil
  sound := sound_good now
  reads := Conditions.reads_surroundings ⟨le_rfl, hdate⟩
  absent := rfl

/-- The instance that claimed the key claims it once more; and another one that has read it
does so too. -/
theorem set_ifNotExists_claimed :
    (∃ entry', (LayeredCacheRepository.getIn ⟨"edgecache:"⟩
        (Conditions.good ⟨3000, by decide⟩).surroundings "a"
        ((reachIn ⟨"edgecache:"⟩ ⟨1, 60, by decide, by decide⟩ (fun _ => none) (fun _ => none)
          ([claim 0 ⟨1000, by decide⟩ 1] ++ [claim 0 ⟨2000, by decide⟩ 2])).tiers 0)).2 =
            some entry' ∧ entry'.content = ⟨1, [], []⟩) ∧
    (∃ entry, (LayeredCacheRepository.getIn ⟨"edgecache:"⟩
        (Conditions.good ⟨4000, by decide⟩).surroundings "a"
        ((reachIn ⟨"edgecache:"⟩ ⟨1, 60, by decide, by decide⟩ (fun _ => none) (fun _ => none)
          ([] ++ claim 0 ⟨1000, by decide⟩ 1 ::
            [⟨1, .get "a", (Conditions.good ⟨2000, by decide⟩).surroundings⟩,
              claim 1 ⟨3000, by decide⟩ 2])).tiers 1)).2 = some entry ∧ entry.value = 1) := by
  constructor
  · have hread : ((LayeredCacheRepository.getIn ⟨"edgecache:"⟩
        (Conditions.good ⟨3000, by decide⟩).surroundings "a"
        ((reachIn ⟨"edgecache:"⟩ ⟨1, 60, by decide, by decide⟩ (fun _ => none) (fun _ => none)
          [claim 0 ⟨1000, by decide⟩ 1]).tiers 0)).2.map (·.content)) = some ⟨1, [], []⟩ := by
      decide +kernel
    obtain ⟨entry, hentry, hcontent⟩ := Option.map_eq_some_iff.mp hread
    have hiff := (set_ifNotExists ⟨"edgecache:"⟩ ⟨1, 60, by decide, by decide⟩ (fun _ => none)
      (fun _ => none) "a" [claim 0 ⟨1000, by decide⟩ 1]).1 0
      (Conditions.good ⟨2000, by decide⟩).surroundings
      (Conditions.good ⟨3000, by decide⟩).surroundings ⟨2000, by decide⟩ 2
      claimOptions entry rfl (sound_good _) (sound_good _)
      (Conditions.reads_surroundings (le_refl _))
      (Conditions.reads_surroundings (by decide : _ ≤ _))
      (List.all_eq_true.mp (by decide +kernel)) hentry
    rw [hcontent] at hiff
    exact hiff.mpr (Or.inl (heldIn_of_suppressed (by decide +kernel)))
  · refine (set_ifNotExists ⟨"edgecache:"⟩ ⟨1, 60, by decide, by decide⟩ (fun _ => none)
      (fun _ => none) "a" []).2 0 1 (Conditions.good ⟨1000, by decide⟩).surroundings _
      ⟨1000, by decide⟩ 1 claimOptions 60 _
      (setsFirst_claim _ (by decide)) (fun i entry h => by cases h) ⟨?_, ?_, trivial⟩
      (sound_good _) (Conditions.reads_surroundings ⟨by decide, by decide⟩)
    · exact ⟨Conditions.reads_surroundings ⟨by decide, by decide⟩, trivial⟩
    · refine ⟨Conditions.reads_surroundings ⟨by decide, by decide⟩,
        fun _ htag => absurd htag List.not_mem_nil, fun _ => ⟨rfl, Or.inl ?_⟩⟩
      exact heldIn_of_suppressed (by decide +kernel)

/-- Two instances claim the key one after the other. The second would have read the value of
the first from Redis, and reads its own; the first reads its own, too. -/
theorem not_set_ifNotExists :
    (¬ ∀ (i : ℕ) (calls : List (ClusterCall ℕ ℕ)) (env env' : Surroundings) (now : Time)
        (value : ℕ) (options : SetOptions) (entry : CacheEntry ℕ),
      options.ifNotExists = true → env.Sound → env'.Sound → env.Reads (· ≤ now) →
      env'.Reads (now ≤ ·) →
      ErrorFree ⟨"edgecache:"⟩ env
        (RedisCacheRepository.set ⟨1, 60, by decide, by decide⟩ "a" value options)
        (reachIn ⟨"edgecache:"⟩ ⟨1, 60, by decide, by decide⟩ (fun _ => none) (fun _ => none)
          calls).redis →
      (LayeredCacheRepository.getIn ⟨"edgecache:"⟩ env' "a"
        ((reachIn ⟨"edgecache:"⟩ ⟨1, 60, by decide, by decide⟩ (fun _ => none) (fun _ => none)
          calls).tiers i)).2 = some entry →
      ∃ entry', (LayeredCacheRepository.getIn ⟨"edgecache:"⟩ env' "a"
          ((reachIn ⟨"edgecache:"⟩ ⟨1, 60, by decide, by decide⟩ (fun _ => none) (fun _ => none)
            (calls ++ [⟨i, .set "a" value options, env⟩])).tiers i)).2 = some entry' ∧
          entry'.content = entry.content) ∧
    ∀ i < 2, ((LayeredCacheRepository.getIn ⟨"edgecache:"⟩
        (Conditions.good ⟨3000, by decide⟩).surroundings "a"
        ((reachIn ⟨"edgecache:"⟩ ⟨1, 60, by decide, by decide⟩ (fun _ => none) (fun _ => none)
          [claim 0 ⟨1000, by decide⟩ 1, claim 1 ⟨2000, by decide⟩ 2]).tiers i)).2.map
            (·.value)) = some (i + 1) := by
  constructor
  · intro hall
    have hread : ((LayeredCacheRepository.getIn ⟨"edgecache:"⟩
        (Conditions.good ⟨3000, by decide⟩).surroundings "a"
        ((reachIn ⟨"edgecache:"⟩ ⟨1, 60, by decide, by decide⟩ (fun _ => none) (fun _ => none)
          [claim 0 ⟨1000, by decide⟩ 1]).tiers 1)).2.map (·.value)) = some 1 := by
      decide +kernel
    obtain ⟨entry, hentry, hvalue⟩ := Option.map_eq_some_iff.mp hread
    obtain ⟨entry', hentry', hcontent⟩ := hall 1 [claim 0 ⟨1000, by decide⟩ 1]
      (Conditions.good ⟨2000, by decide⟩).surroundings
      (Conditions.good ⟨3000, by decide⟩).surroundings ⟨2000, by decide⟩ 2 claimOptions entry
      rfl (sound_good _) (sound_good _) (Conditions.reads_surroundings (le_refl _))
      (Conditions.reads_surroundings (by decide : _ ≤ _))
      (List.all_eq_true.mp (by decide +kernel)) hentry
    have hset : ((LayeredCacheRepository.getIn ⟨"edgecache:"⟩
        (Conditions.good ⟨3000, by decide⟩).surroundings "a"
        ((reachIn ⟨"edgecache:"⟩ ⟨1, 60, by decide, by decide⟩ (fun _ => none) (fun _ => none)
          ([claim 0 ⟨1000, by decide⟩ 1] ++ [claim 1 ⟨2000, by decide⟩ 2])).tiers 1)).2.map
            (·.value)) = some 2 := by
      decide +kernel
    obtain ⟨found, hfound, htwo⟩ := Option.map_eq_some_iff.mp hset
    obtain rfl : found = entry' := Option.some.inj (hfound.symm.trans hentry')
    have hsame : found.value = entry.value := congrArg Content.value hcontent
    rw [htwo, hvalue] at hsame
    cases hsame
  · decide +kernel

end Cluster

end EdgeCache
