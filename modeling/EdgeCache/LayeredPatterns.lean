import EdgeCache.LayeredRules
import EdgeCache.Library.Runs

/-!
Invalidation by a pattern. The first tier matches a pattern by a regular expression, Redis
by its own glob, and on the keys with the prefix that the client puts before every key. The
scan answers those, and the deletion puts the prefix before them once more. Where a key is
reached in both tiers it stays away until it is set again: a read cannot bring back what
neither tier has.
-/
namespace EdgeCache

open Programs (faultless)

variable {V : Type}

def Op.Sets (key : String) : Op V → Prop
  | .set key' _ _ => key' = key
  | .mset entries => ∃ p ∈ entries, p.1 = key
  | _ => False

/-! ### Keys that are gone -/

/-- Redis has no document under the key from then on. -/
def NoDocument (client : Client) (key : String) (now : Time) (redis : Database V) : Prop :=
  ∀ json expireAt, Redis.find (client.view redis) now key ≠ some ⟨.string json, expireAt⟩

/-- Nobody can read the key from then on. -/
structure Gone (client : Client) (config : Config) (key : String) (now : Time) (s : Tiers V) :
    Prop where
  l1 : HoldsAt config key (fun entry => entry.isExpired now = true) s.l1
  redis : NoDocument client key now s.redis

theorem NoDocument.fades {client : Client} {key : String} {now : Time} {redis redis' : Database V}
    (h : NoDocument client key now redis)
    (hfades : redis' (client.keyPrefix ++ key) = redis (client.keyPrefix ++ key) ∨
      redis' (client.keyPrefix ++ key) = none) : NoDocument client key now redis' := by
  intro json expireAt hfind
  rcases hfades with hsame | hnone
  · rw [Client.find_view, Redis.find_congr hsame] at hfind
    exact h json expireAt hfind
  · rw [Client.find_view, Redis.find, hnone] at hfind
    cases hfind

/-- Commands that give the key no document, and replies that find none under it. -/
def SparesKey (key : String) : Command V → Prop
  | .set key' _ _ => key' ≠ key
  | _ => True

def FindsNone (key : String) : Command V → Reply V → Prop
  | .get key', .string _ => key' ≠ key
  | _, _ => True

section Gone

variable {client : Client} {config : Config} {key : String} {now : Time}

theorem serves_noDocument (client : Client) (key : String) (now : Time) :
    Programs.Serves (client.send (V := V)) (now ≤ ·) (FindsNone key) (SparesKey key)
      (NoDocument client key now) := by
  intro later redis c hlater hredis hissue
  obtain ⟨hview, hreply⟩ := client.view_send later redis c
  have hnone : ∀ json t, Redis.find (client.view redis) later key ≠ some ⟨.string json, t⟩ := by
    intro json t hfind
    obtain ⟨hdb, hlive⟩ := Redis.find_eq_some_iff.mp hfind
    exact hredis json t (Redis.find_eq_some_iff.mpr ⟨hdb, Redis.isLive_of_le hlater hlive⟩)
  constructor
  · intro json expireAt hfind
    rw [hview] at hfind
    obtain ⟨hdb, hlive⟩ := Redis.find_eq_some_iff.mp hfind
    rcases Redis.exec_string_cases hdb with ⟨mode, rfl⟩ | hsame | ⟨-, t, hthere⟩
    · exact hissue rfl
    · exact hredis json expireAt (Redis.find_eq_some_iff.mpr ⟨hsame, hlive⟩)
    · exact hnone json t hthere
  · intro r hr
    rw [hreply] at hr
    cases c with
    | get key' =>
      cases r with
      | string json =>
        intro hk
        subst hk
        simp only [Redis.exec] at hr
        split at hr
        · cases hr
        · next json' t hfind => exact hnone json' t hfind
        · cases hr
      | _ => trivial
    | _ => trivial

/-- What is gone from both tiers cannot be promoted. -/
theorem gone_rule (client : Client) (config : Config) (key : String) (now : Time) :
    TierRule (V := V) client config key (now ≤ ·) (FindsNone key) (SparesKey key)
      (fun entry => entry.isExpired now = true) (fun _ => False)
      (NoDocument client key now) where
  serves := serves_noDocument client key now
  hit := fun _ h => h
  get := by
    intro key'
    refine RedisCacheRepository.get_meets trivial trivial (fun _ entry h => by cases h) ?_
    intro json later _ hreply _
    exact ⟨hreply, fun hk => absurd hk hreply⟩
  promoted := fun _ h => h.elim

/-- A call that does not set the key brings nothing for it, where every command but a `SET` of
the key may be issued. -/
theorem brings_of_not_sets {read : Time → Prop} {reply : Command V → Reply V → Prop}
    {issue : Command V → Prop} {P : CacheEntry V → Prop}
    (hissue : ∀ c, (∀ json mode, c ≠ .set key json mode) → issue c) {op : Op V}
    (hop : ¬ op.Sets key) (env : Surroundings) (s : Tiers V) :
    TierRule.Brings config key read reply issue P env s op := by
  have hset : ∀ key' value options, key' ≠ key →
      (RedisCacheRepository.set config key' value options).Meets read reply issue
        fun _ => True := fun key' value options hne =>
    RedisCacheRepository.set_meets trivial
      (fun _ _ _ _ => hissue _ fun _ _ h => hne (Command.set.inj h).1)
      fun _ _ => ⟨hissue _ fun _ _ h => (by cases h), fun _ => hissue _ fun _ _ h => (by cases h)⟩
  cases op with
  | set key' value options => exact ⟨fun hk => absurd hk hop, hset key' value options hop⟩
  | delete key' => exact hissue _ fun _ _ h => (by cases h)
  | deleteByTags tags =>
    exact ⟨fun _ => hissue _ fun _ _ h => (by cases h), fun _ => hissue _ fun _ _ h => (by cases h)⟩
  | deleteByPattern pattern => exact fun _ => hissue _ fun _ _ h => (by cases h)
  | exists_ key' => exact hissue _ fun _ _ h => (by cases h)
  | getStats memoryUsageMb => exact hissue _ fun _ _ h => (by cases h)
  | flush => exact hissue _ fun _ _ h => (by cases h)
  | mset entries =>
    refine ⟨fun value options hmem => absurd ⟨_, hmem, rfl⟩ hop, fun p hp => ?_⟩
    exact hset p.1 p.2.1 p.2.2 fun hk => hop ⟨p, hp, hk⟩
  | _ => trivial

theorem sparesKey_of_ne {c : Command V} (h : ∀ json mode, c ≠ .set key json mode) :
    SparesKey key c := by
  cases c with
  | set key' json mode => exact fun hk => h json mode (hk ▸ rfl)
  | _ => trivial

namespace Gone

variable {s : Tiers V}

theorem stepIn (h : Gone client config key now s) (regExp : RegExp) {e : LayeredCall V}
    (henv : e.env.Reads (now ≤ ·)) (hop : ¬ e.op.Sets key) :
    Gone client config key now (LayeredCacheRepository.stepIn client config regExp s e) := by
  obtain ⟨hl1, hredis⟩ := (gone_rule client config key now).callIn henv h.l1 h.redis regExp
    (brings_of_not_sets (fun _ => sparesKey_of_ne) hop e.env s)
  exact ⟨hl1, hredis⟩

theorem run (h : Gone client config key now s) (regExp : RegExp) {calls : List (LayeredCall V)}
    (hcalls : ∀ e ∈ calls, e.env.Reads (now ≤ ·) ∧ ¬ e.op.Sets key) :
    Gone client config key now
      (Runs.run (LayeredCacheRepository.stepIn client config regExp) s calls) := by
  induction calls generalizing s with
  | nil => exact h
  | cons e rest ih =>
    obtain ⟨henv, hop⟩ := hcalls e List.mem_cons_self
    exact ih (h.stepIn regExp henv hop) fun e' he' => hcalls e' (List.mem_cons_of_mem e he')

theorem getIn_eq_none (h : Gone client config key now s) {env : Surroundings}
    (henv : env.Reads (now ≤ ·)) :
    (LayeredCacheRepository.getIn client env key s).2 = none := by
  obtain ⟨-, -, hfound⟩ := (gone_rule client config key now).getIn henv h.l1 h.redis key
  cases hresult : (LayeredCacheRepository.getIn client env key s).2 with
  | none => rfl
  | some entry =>
    rcases hfound rfl entry hresult with ⟨hexpired, hfresh⟩ | hnone
    · rw [entry.isExpired_mono (henv.l1 0) hexpired] at hfresh
      cases hfresh
    · exact hnone.elim

end Gone

end Gone

/-! ### What the scan deletes -/

section Scanned

variable {client : Client} {clock : ℕ → Moment} {pattern key : String} {now : Time}

def IsDel : Command V → Prop
  | .del _ => True
  | _ => False

theorem serves_isDel (client : Client) (key : String) (record : Option (Record V)) :
    Programs.Serves client.serve (fun _ => True) (fun _ _ => True) (ServerCommand.Within IsDel)
      (fun db => db key = record ∨ db key = none) := by
  intro m db c _ hdb hc
  cases c with
  | keyed c =>
    refine ⟨?_, fun _ _ => trivial⟩
    cases c with
    | del keys =>
      change (Redis.exec m.now db (.del (keys.map (client.keyPrefix ++ ·)))).1 key = record ∨
        (Redis.exec m.now db (.del (keys.map (client.keyPrefix ++ ·)))).1 key = none
      rw [Redis.exec_del]
      split
      · exact Or.inr rfl
      · exact hdb
    | _ => exact hc.elim
  | _ => exact ⟨hdb, fun _ _ => trivial⟩

theorem run_isDel (client : Client) (clock : ℕ → Moment) {α : Type} {p : ServerProgram V α}
    (hp : p.OnlyCalls (ServerCommand.Within IsDel)) (fault : ℕ → Programs.Fault) (i : ℕ)
    (db : Database V) (key : String) :
    (Programs.run client.serve clock fault i p db).1 key = db key ∨
      (Programs.run client.serve clock fault i p db).1 key = none :=
  (Programs.run_meets (serves_isDel client key (db key)) fault (fun _ => trivial) hp i
    (Or.inl rfl)).1

/-- The keys that a scan answers. -/
def page (pattern : String) (m : Moment) (db : Database V) : List String :=
  m.visited.filter fun key => Redis.glob pattern key && (Redis.find db m.now key).isSome

theorem deleteTurn_of_page (client : Client) {db : Database V} {i : ℕ}
    (hpage : 0 < (page pattern (clock i) db).length) (cursor : String) (count : ℕ)
    (next : String → ℕ → ServerProgram V (Option ℕ)) :
    ∃ n, Programs.run client.serve clock faultless i
          (RedisCacheRepository.deleteTurn pattern cursor count next) db =
        Programs.run client.serve clock faultless (i + 2) (next (clock i).cursor (count + n))
          (client.send (clock (i + 1)).now db (.del (page pattern (clock i) db))).1 ∧
      Programs.sent client.serve clock faultless i
          (RedisCacheRepository.deleteTurn pattern cursor count next) db =
        ⟨clock i, db, .scan cursor pattern⟩ ::
          ⟨clock (i + 1), db, .keyed (.del (page pattern (clock i) db))⟩ ::
          Programs.sent client.serve clock faultless (i + 2) (next (clock i).cursor (count + n))
            (client.send (clock (i + 1)).now db (.del (page pattern (clock i) db))).1 := by
  unfold page at hpage ⊢
  simp only [RedisCacheRepository.deleteTurn, Programs.run, Programs.sent, Programs.attempt,
    faultless, Client.serve, hpage, ↓reduceIte]
  exact ⟨_, rfl, rfl⟩

theorem deleteTurn_of_no_page (client : Client) {db : Database V} {i : ℕ}
    (hpage : ¬ 0 < (page pattern (clock i) db).length)
    (cursor : String) (count : ℕ) (next : String → ℕ → ServerProgram V (Option ℕ)) :
    Programs.run client.serve clock faultless i
          (RedisCacheRepository.deleteTurn pattern cursor count next) db =
        Programs.run client.serve clock faultless (i + 1) (next (clock i).cursor count) db ∧
      Programs.sent client.serve clock faultless i
          (RedisCacheRepository.deleteTurn pattern cursor count next) db =
        ⟨clock i, db, .scan cursor pattern⟩ ::
          Programs.sent client.serve clock faultless (i + 1) (next (clock i).cursor count) db := by
  unfold page at hpage
  simp only [RedisCacheRepository.deleteTurn, Programs.run, Programs.sent, Programs.attempt,
    faultless, Client.serve, hpage, ↓reduceIte, and_self]

/-- A run that comes to an end takes the record of the key out of Redis, or else it never sees
the key, although it is there all the time. -/
def RemovesOrMisses (client : Client) (clock : ℕ → Moment) (key : String) (i : ℕ)
    (p : ServerProgram V (Option ℕ)) (db : Database V) : Prop :=
  (Programs.run client.serve clock faultless i p db).2 ≠ some none →
    (Programs.run client.serve clock faultless i p db).1 (client.keyPrefix ++ key) = none ∨
    ∀ e ∈ Programs.sent client.serve clock faultless i p db,
      (Redis.find e.state e.moment.now key).isSome = true ∧
        ∀ cursor pattern, e.command = .scan cursor pattern → key ∉ e.moment.visited

/-- No other key that a scan may answer is the key itself once the prefix stands before it. -/
def Unreached (client : Client) (clock : ℕ → Moment) (pattern key : String)
    (redis : Database V) : Prop :=
  ∀ other, other ≠ key → client.keyPrefix ++ other = key → Redis.glob pattern other = true →
    ∀ i, Redis.find redis (clock i).now other = none

/-- The key is there, and whatever is left of the database is as it was. -/
structure Standing (key : String) (now : Time) (redis db : Database V) : Prop where
  live : (Redis.find db now key).isSome = true
  fades : ∀ other, db other = redis other ∨ db other = none

theorem Standing.live_of_le {redis db : Database V} (h : Standing key now redis db) {earlier : Time}
    (hle : earlier ≤ now) : (Redis.find db earlier key).isSome = true := by
  obtain ⟨record, hrecord⟩ := Option.isSome_iff_exists.mp h.live
  obtain ⟨hdb, hlive⟩ := Redis.find_eq_some_iff.mp hrecord
  rw [Redis.find_eq_some_iff.mpr ⟨hdb, Redis.isLive_of_le hle hlive⟩]
  rfl

theorem Standing.del {redis db : Database V} (h : Standing key now redis db)
    (hreached : Unreached client clock pattern key redis) {i : ℕ}
    (hmem : key ∉ page pattern (clock i) db) (later : Time) :
    Standing key now redis (client.send later db (.del (page pattern (clock i) db))).1 := by
  have hdel : ∀ other, (client.send later db (.del (page pattern (clock i) db))).1 other =
      if other ∈ (page pattern (clock i) db).map (client.keyPrefix ++ ·) then none
      else db other := Redis.exec_del later db _
  have hspared : key ∉ (page pattern (clock i) db).map (client.keyPrefix ++ ·) := by
    intro hkey
    obtain ⟨other, hother, heq⟩ := List.mem_map.mp hkey
    have hne : other ≠ key := fun hk => hmem (hk ▸ hother)
    simp only [page, List.mem_filter, Bool.and_eq_true] at hother
    obtain ⟨-, hmatch, hlive⟩ := hother
    rcases h.fades other with hsame | hgone
    · rw [Redis.find_congr hsame, hreached other hne heq hmatch i] at hlive
      cases hlive
    · simp [Redis.find, hgone] at hlive
  refine ⟨?_, fun other => ?_⟩
  · rw [Redis.find_congr ((hdel key).trans (if_neg hspared))]
    exact h.live
  · rw [hdel]
    split
    · exact Or.inr rfl
    · exact h.fades other

theorem removesOrMisses_turn {redis : Database V} (hmatches : Redis.glob pattern key = true)
    (hover : ∀ i, (clock i).now ≤ now) (hreached : Unreached client clock pattern key redis)
    {next : String → ℕ → ServerProgram V (Option ℕ)}
    (hcalls : ∀ cursor count, (next cursor count).OnlyCalls (ServerCommand.Within IsDel))
    (hnext : ∀ cursor count i db, Standing key now redis db →
      RemovesOrMisses client clock key i (next cursor count) db)
    (cursor : String) (count i : ℕ) {db : Database V} (hdb : Standing key now redis db) :
    RemovesOrMisses client clock key i
      (RedisCacheRepository.deleteTurn pattern cursor count next) db := by
  intro hn
  have hvisited : key ∉ page pattern (clock i) db → key ∉ (clock i).visited := by
    intro hmem hvisit
    refine hmem (List.mem_filter.mpr ⟨hvisit, ?_⟩)
    rw [hmatches, hdb.live_of_le (hover i)]
    rfl
  by_cases hpage : 0 < (page pattern (clock i) db).length
  · obtain ⟨m, hrun, hsent⟩ := deleteTurn_of_page client hpage cursor count next
    rw [hrun] at hn ⊢
    by_cases hmem : key ∈ page pattern (clock i) db
    · left
      have hgone : (client.send (clock (i + 1)).now db (.del (page pattern (clock i) db))).1
          (client.keyPrefix ++ key) = none :=
        (Redis.exec_del _ db _ _).trans (if_pos (List.mem_map_of_mem hmem))
      rcases run_isDel client clock (hcalls (clock i).cursor (count + m))
        faultless (i + 2) _ (client.keyPrefix ++ key) with hsame | hnone
      · exact hsame.trans hgone
      · exact hnone
    · rcases hnext _ _ _ _ (hdb.del hreached hmem _) hn with hgone | hseen
      · exact Or.inl hgone
      · right
        rw [hsent]
        intro e he
        rcases List.mem_cons.mp he with rfl | he
        · exact ⟨hdb.live_of_le (hover i), fun _ _ _ => hvisited hmem⟩
        · rcases List.mem_cons.mp he with rfl | he
          · exact ⟨hdb.live_of_le (hover (i + 1)), fun _ _ hscan => by cases hscan⟩
          · exact hseen e he
  · obtain ⟨hrun, hsent⟩ := deleteTurn_of_no_page client hpage cursor count next
    have hmem : key ∉ page pattern (clock i) db := fun hmem => hpage (List.length_pos_of_mem hmem)
    rw [hrun] at hn ⊢
    rcases hnext _ _ _ _ hdb hn with hgone | hseen
    · exact Or.inl hgone
    · right
      rw [hsent]
      intro e he
      rcases List.mem_cons.mp he with rfl | he
      · exact ⟨hdb.live_of_le (hover i), fun _ _ _ => hvisited hmem⟩
      · exact hseen e he

theorem removesOrMisses_deleteScanned {redis : Database V}
    (hmatches : Redis.glob pattern key = true) (hover : ∀ i, (clock i).now ≤ now)
    (hreached : Unreached client clock pattern key redis) (scans : ℕ) (cursor : String)
    (count i : ℕ) {db : Database V} (hdb : Standing key now redis db) :
    RemovesOrMisses client clock key i
      (RedisCacheRepository.deleteScanned pattern scans cursor count) db := by
  induction scans generalizing cursor count i db with
  | zero =>
    rw [RedisCacheRepository.deleteScanned_zero]
    refine removesOrMisses_turn hmatches hover hreached (fun cursor' count' => ?_)
      (fun cursor' count' j db' hdb' => ?_) cursor count i hdb
    · split <;> trivial
    · split
      · exact fun _ => Or.inr fun e he => absurd he List.not_mem_nil
      · exact fun hn => absurd rfl hn
  | succ scans ih =>
    rw [RedisCacheRepository.deleteScanned_succ]
    refine removesOrMisses_turn hmatches hover hreached (fun cursor' count' => ?_)
      (fun cursor' count' j db' hdb' => ?_) cursor count i hdb
    · split
      · trivial
      · exact RedisCacheRepository.deleteScanned_onlyCalls (fun _ => trivial) pattern scans _ _
    · split
      · exact fun _ => Or.inr fun e he => absurd he List.not_mem_nil
      · exact ih cursor' count' j hdb'

end Scanned

/-! ### One call -/

/-- `SCAN` answers every key that is there throughout: the commands of the call find it each
time, so a scan of the call visits it. -/
def ScansAll (client : Client) (env : Surroundings) (pattern : String) (redis : Database V) :
    Prop :=
  ∀ key, (∀ e ∈ Programs.sent client.serve env.l2 env.fault 0
        (RedisCacheRepository.deleteByPattern env.scans pattern) redis,
      (Redis.find e.state e.moment.now key).isSome = true) →
    ∃ e ∈ Programs.sent client.serve env.l2 env.fault 0
        (RedisCacheRepository.deleteByPattern env.scans pattern) redis,
      (∃ cursor pattern, e.command = .scan cursor pattern) ∧ key ∈ e.moment.visited

/-- The call goes through to a Redis that answers everything, and has returned by then. -/
structure Completes (client : Client) (regExp : RegExp) (env : Surroundings) (pattern : String)
    (now : Time) (s : Tiers V) : Prop where
  available : env.redisAvailable 0 = true
  answered : ∀ i, env.fault i = .none
  scansAll : ScansAll client env pattern s.redis
  ended : ∀ i, (env.l2 i).now ≤ now
  returns : ∃ n, (LayeredCacheRepository.deleteByPatternIn client regExp env pattern s).2 =
    .count n

/-- The key is reached in both tiers. In the first one the regular expression has to match it,
unless nothing is left of it there. In Redis a key of its name, without the prefix, has to be
there, and no other that a scan may answer whose name becomes this one by the prefix. -/
structure Reached (client : Client) (regExp : RegExp) (env : Surroundings)
    (pattern key : String) (now : Time) (s : Tiers V) : Prop where
  l1 : (∃ test, regExp (globSource pattern) = some test ∧ test key = true) ∨
    ∀ entry, s.l1.entryAt key = some entry → entry.isExpired now = true
  redis : NoDocument client key now s.redis ∨
    (Redis.find s.redis now key).isSome = true ∧ Unreached client env.l2 pattern key s.redis

theorem Reached.of_no_prefix {client : Client} {regExp : RegExp} {env : Surroundings}
    {pattern key : String} {now : Time} {s : Tiers V} (hkeyPrefix : client.keyPrefix = "")
    (hl1 : (∃ test, regExp (globSource pattern) = some test ∧ test key = true) ∨
      ∀ entry, s.l1.entryAt key = some entry → entry.isExpired now = true) :
    Reached client regExp env pattern key now s := by
  have hview : client.view s.redis key = s.redis key := by
    rw [Client.view, hkeyPrefix, String.empty_append]
  refine ⟨hl1, ?_⟩
  by_cases hlive : (Redis.find s.redis now key).isSome = true
  · refine Or.inr ⟨hlive, fun other hne heq => ?_⟩
    rw [hkeyPrefix, String.empty_append] at heq
    exact absurd heq hne
  · refine Or.inl fun json expireAt hfind => ?_
    rw [Redis.find_congr hview] at hfind
    rw [hfind] at hlive
    exact hlive rfl

section Call

variable {client : Client} {config : Config} {regExp : RegExp} {env : Surroundings}
  {pattern key : String} {now : Time} {s : Tiers V}

theorem holds_deleteByPattern (hl1 : HoldsAt config key (fun _ => True) s.l1)
    (hreached : Reached client regExp env pattern key now s) :
    HoldsAt config key (fun entry => entry.isExpired now = true)
      (s.l1.deleteByPattern regExp pattern).1 := by
  rcases hreached.l1 with ⟨test, hcompiles, htest⟩ | hexpired
  · exact hl1.deleteByPattern_self hcompiles htest
  · exact (hl1.intro_entryAt hexpired).deleteByPattern regExp pattern

/-- A scan that misses no key takes every key that is reached out of Redis. -/
theorem noDocument_scanL2In (hmatches : Redis.glob pattern key = true)
    (hanswered : ∀ i, env.fault i = .none) (hscans : ScansAll client env pattern s.redis)
    (hover : ∀ i, (env.l2 i).now ≤ now) (hreached : Reached client regExp env pattern key now s)
    (hreturns : (LayeredCacheRepository.scanL2In client env
      (RedisCacheRepository.deleteByPattern env.scans pattern) s.redis).2 ≠ some none) :
    NoDocument client key now (LayeredCacheRepository.scanL2In client env
      (RedisCacheRepository.deleteByPattern env.scans pattern) s.redis).1 := by
  have hfault : env.fault = faultless := funext hanswered
  unfold LayeredCacheRepository.scanL2In at hreturns ⊢
  unfold ScansAll at hscans
  rw [hfault] at hreturns hscans ⊢
  rcases hreached.redis with hnone | ⟨hlive, hunreached⟩
  · refine hnone.fades (run_isDel client _ ?_ faultless 0 s.redis (client.keyPrefix ++ key))
    exact RedisCacheRepository.deleteScanned_onlyCalls (fun _ => trivial) pattern env.scans "0" 0
  · have hstanding : Standing key now s.redis s.redis := ⟨hlive, fun _ => Or.inl rfl⟩
    rcases removesOrMisses_deleteScanned hmatches hover hunreached env.scans "0" 0 0 hstanding
      hreturns with hgone | hmissed
    · intro json expireAt hfind
      cases hgone.symm.trans (Redis.find_eq_some_iff.mp hfind).1
    · obtain ⟨e, he, ⟨cursor, pattern', hscan⟩, hvisited⟩ :=
        hscans key fun e he => (hmissed e he).1
      exact absurd hvisited ((hmissed e he).2 cursor pattern' hscan)

/-- A pattern call takes away the keys that are reached in both tiers. -/
theorem gone_deleteByPatternIn (hl1 : HoldsAt config key (fun _ => True) s.l1)
    (hmatches : Redis.glob pattern key = true)
    (hcompletes : Completes client regExp env pattern now s)
    (hreached : Reached client regExp env pattern key now s) :
    Gone client config key now
      (LayeredCacheRepository.deleteByPatternIn client regExp env pattern s).1 := by
  have hfirst := holds_deleteByPattern hl1 hreached
  have hsecond := noDocument_scanL2In hmatches hcompletes.answered hcompletes.scansAll
    hcompletes.ended hreached
  obtain ⟨n, hn⟩ := hcompletes.returns
  unfold LayeredCacheRepository.deleteByPatternIn at hn ⊢
  simp only [hcompletes.available, ↓reduceIte] at hn ⊢
  cases hcompiles : s.l1.deleteByPattern regExp pattern with
  | mk l1 found =>
    rw [hcompiles] at hfirst hn
    cases found with
    | none => cases hn
    | some count =>
      cases hscan : LayeredCacheRepository.scanL2In client env
          (RedisCacheRepository.deleteByPattern env.scans pattern) s.redis with
      | mk redis deleted =>
        rw [hscan] at hsecond hn
        rcases deleted with _ | _ | deleted
        · exact ⟨hfirst, hsecond fun h => by cases h⟩
        · cases hn
        · exact ⟨hfirst, hsecond fun h => by cases h⟩

/-- Pages that do not answer the key, and deletions that spare it. -/
def PagesSpare (key : String) : ServerCommand V → ServerReply V → Prop
  | _, .page _ keys => key ∉ keys
  | _, _ => True

def DeletionsSpare (key : String) : ServerCommand V → Prop
  | .keyed (.del keys) => key ∉ keys
  | .keyed _ => False
  | _ => True

theorem serves_spare (client : Client) (key : String) (redis : Database V) :
    Programs.Serves client.serve (fun m => Redis.find redis m.now key = none) (PagesSpare key)
      (DeletionsSpare key) (fun db => db (client.keyPrefix ++ key) =
        redis (client.keyPrefix ++ key) ∧ (db key = redis key ∨ db key = none)) := by
  intro m db c hm hdb hc
  obtain ⟨hrecord, hbare⟩ := hdb
  cases c with
  | keyed c =>
    cases c with
    | del keys =>
      have hbare' := (serves_isDel client key (redis key) m db (.keyed (.del keys)) trivial hbare
        trivial).1
      refine ⟨⟨?_, hbare'⟩, fun r hr => ?_⟩
      · refine ((Redis.exec_del m.now db _ _).trans (if_neg fun hmem => ?_)).trans hrecord
        obtain ⟨other, hother, heq⟩ := List.mem_map.mp hmem
        exact hc (client.append_inj.mp heq ▸ hother)
      · obtain rfl := Option.some.inj hr
        trivial
    | _ => exact hc.elim
  | scan cursor pattern =>
    refine ⟨⟨hrecord, hbare⟩, fun r hr => ?_⟩
    obtain rfl := Option.some.inj hr
    intro hmem
    obtain ⟨-, hthere⟩ := List.mem_filter.mp hmem
    rw [Bool.and_eq_true] at hthere
    rcases hbare with hsame | hnone
    · rw [Redis.find_congr hsame, hm] at hthere
      cases hthere.2
    · rw [Redis.find, hnone] at hthere
      cases hthere.2
  | info section_ =>
    refine ⟨⟨hrecord, hbare⟩, fun r hr => ?_⟩
    obtain rfl := Option.some.inj hr
    trivial
  | dbsize =>
    refine ⟨⟨hrecord, hbare⟩, fun r hr => ?_⟩
    obtain rfl := Option.some.inj hr
    trivial

/-- Where the bare name of a key is not there, its record stays. -/
theorem record_scanL2In_of_absent (pattern : String)
    (habsent : ∀ i, Redis.find s.redis (env.l2 i).now key = none) :
    (LayeredCacheRepository.scanL2In client env
        (RedisCacheRepository.deleteByPattern env.scans pattern) s.redis).1
      (client.keyPrefix ++ key) = s.redis (client.keyPrefix ++ key) := by
  have hmeets : (RedisCacheRepository.deleteScanned pattern env.scans "0" 0 :
      ServerProgram V _).Meets (fun m => Redis.find s.redis m.now key = none) (PagesSpare key)
      (DeletionsSpare key) (fun _ => True) :=
    RedisCacheRepository.deleteScanned_meets (fun _ => trivial) (fun _ _ _ hpage => hpage) _ _ _
  exact (Programs.run_meets (serves_spare client key s.redis) env.fault habsent hmeets 0
    ⟨rfl, Or.inl rfl⟩).1.1

end Call

/-! ### Runs -/

/-- Once a pattern call has returned, a key that it reached stays away until it is set. -/
theorem LayeredCacheRepository.getIn_of_reached (client : Client) (config : Config)
    (regExp : RegExp) (redis : Database V) (pattern key : String) (now : Time)
    (before after : List (LayeredCall V)) (env env' : Surroundings)
    (hmatches : Redis.glob pattern key = true)
    (hcompletes : Completes client regExp env pattern now
      (reachIn client config regExp redis before))
    (hreached : Reached client regExp env pattern key now
      (reachIn client config regExp redis before))
    (hafter : ∀ e ∈ after, e.env.Reads (now ≤ ·) ∧ ¬ e.op.Sets key)
    (henv' : env'.Reads (now ≤ ·)) :
    (getIn client env' key (reachIn client config regExp redis
      (before ++ ⟨.deleteByPattern pattern, env⟩ :: after))).2 = none := by
  have hgone := gone_deleteByPatternIn (holds_reachIn client config regExp key redis before)
    hmatches hcompletes hreached
  have hlater := hgone.run regExp hafter
  have hsplit : reachIn client config regExp redis
      (before ++ ⟨.deleteByPattern pattern, env⟩ :: after) =
      Runs.run (stepIn client config regExp)
        (deleteByPatternIn client regExp env pattern
          (reachIn client config regExp redis before)).1 after :=
    Runs.run_append _ _ before _
  rw [hsplit]
  exact hlater.getIn_eq_none henv'

theorem ScansAll.of_visits {client : Client} {env : Surroundings} {pattern : String}
    {redis : Database V} (h : ∀ key, (Redis.find redis (env.l2 0).now key).isSome = true →
      key ∈ (env.l2 0).visited) : ScansAll client env pattern redis := by
  intro key hthere
  have hsent : ∃ rest, Programs.sent client.serve env.l2 env.fault 0
      (RedisCacheRepository.deleteByPattern env.scans pattern) redis =
        ⟨env.l2 0, redis, .scan "0" pattern⟩ :: rest := by
    rw [RedisCacheRepository.deleteByPattern]
    unfold RedisCacheRepository.deleteScanned
    exact ⟨_, rfl⟩
  obtain ⟨rest, hrest⟩ := hsent
  rw [hrest] at hthere ⊢
  exact ⟨_, List.mem_cons_self, ⟨"0", pattern, rfl⟩, h key (hthere _ List.mem_cons_self)⟩

/-- The call scans Redis once and visits the given keys. -/
def scanning (now : Time) (visited : List String) : Surroundings :=
  { (Conditions.good now).surroundings with l2 := fun _ => ⟨now, visited, "0", fun _ => "", 0⟩ }

/-- What the expression of `user:*` compiles to, the only one it is asked for here: it is not
anchored. -/
def userRegExp : RegExp := fun _ =>
  some fun key => key.toList.tails.any ("user:".toList.isPrefixOf ·)

def setUser (now : Time) : List (LayeredCall ℕ) :=
  [⟨.set "user:1" 7 (.ofTtl 60), (Conditions.good now).surroundings⟩]

theorem redis_setUser (client : Client) (config : Config) (regExp : RegExp) :
    ∃ record, (LayeredCacheRepository.reachIn client config regExp (fun _ => none)
      (setUser ⟨1000, by decide⟩)).redis =
        Redis.insert (fun _ => none) (client.keyPrefix ++ "user:1") record :=
  ⟨_, rfl⟩

/-- The scan visits all that the set has left in Redis. -/
theorem completes_scanning (client : Client) (config : Config) (later : Time)
    (hreturns : ∃ n, (LayeredCacheRepository.deleteByPatternIn client userRegExp
      (scanning later [client.keyPrefix ++ "user:1"]) "user:*"
      (LayeredCacheRepository.reachIn client config userRegExp (fun _ => none)
        (setUser ⟨1000, by decide⟩))).2 = .count n) :
    Completes client userRegExp (scanning later [client.keyPrefix ++ "user:1"]) "user:*" later
      (LayeredCacheRepository.reachIn client config userRegExp (fun _ => none)
        (setUser ⟨1000, by decide⟩)) where
  available := rfl
  answered := fun _ => rfl
  scansAll := by
    obtain ⟨record, hredis⟩ := redis_setUser client config userRegExp
    apply ScansAll.of_visits
    intro key hthere
    by_cases hk : key = client.keyPrefix ++ "user:1"
    · exact List.mem_singleton.mpr hk
    · rw [hredis, Redis.find, Redis.insert_of_ne hk] at hthere
      cases hthere
  ended := fun _ => le_rfl
  returns := hreturns

/-- Without a prefix the call reaches the key. -/
theorem LayeredCacheRepository.getIn_of_reached_user :
    (getIn ⟨""⟩ (Conditions.good ⟨3000, by decide⟩).surroundings "user:1"
      (reachIn ⟨""⟩ ⟨1, 60, by decide, by decide⟩ userRegExp (fun _ => none)
        (setUser ⟨1000, by decide⟩ ++
          [⟨.deleteByPattern "user:*", scanning ⟨2000, by decide⟩ ["" ++ "user:1"]⟩,
            ⟨.get "user:1", (Conditions.good ⟨3000, by decide⟩).surroundings⟩]))).2 = none := by
  have hcompletes := completes_scanning ⟨""⟩ ⟨1, 60, by decide, by decide⟩ ⟨2000, by decide⟩
    ⟨1, by decide +kernel⟩
  refine getIn_of_reached ⟨""⟩ ⟨1, 60, by decide, by decide⟩ userRegExp (fun _ => none) "user:*"
    "user:1" ⟨2000, by decide⟩ (setUser ⟨1000, by decide⟩)
    [⟨.get "user:1", (Conditions.good ⟨3000, by decide⟩).surroundings⟩] _ _ (by decide +kernel)
    hcompletes (Reached.of_no_prefix rfl (Or.inl ⟨_, rfl, by decide +kernel⟩)) (fun e he => ?_)
    (Conditions.reads_surroundings (by decide : _ ≤ _))
  obtain rfl := List.mem_singleton.mp he
  exact ⟨Conditions.reads_surroundings (by decide : _ ≤ _), id⟩

/-- With a prefix the scan answers no key, and the value is read from Redis again. -/
theorem LayeredCacheRepository.not_getIn_of_prefix :
    ¬ ∀ (pattern key : String) (now : Time) (before after : List (LayeredCall ℕ))
        (env env' : Surroundings),
      Redis.glob pattern key = true →
      Completes ⟨"edgecache:"⟩ userRegExp env pattern now (reachIn ⟨"edgecache:"⟩
        ⟨1, 60, by decide, by decide⟩ userRegExp (fun _ => none) before) →
      (∀ e ∈ after, e.env.Reads (now ≤ ·) ∧ ¬ e.op.Sets key) → env'.Reads (now ≤ ·) →
      (getIn ⟨"edgecache:"⟩ env' key (reachIn ⟨"edgecache:"⟩ ⟨1, 60, by decide, by decide⟩
        userRegExp (fun _ => none) (before ++ ⟨.deleteByPattern pattern, env⟩ :: after))).2 =
          none := by
  intro hall
  have hcompletes := completes_scanning ⟨"edgecache:"⟩ ⟨1, 60, by decide, by decide⟩
    ⟨2000, by decide⟩ ⟨1, by decide +kernel⟩
  have hnone := hall "user:*" "user:1" _ _ [] _ (Conditions.good ⟨3000, by decide⟩).surroundings
    (by decide +kernel) hcompletes (fun e he => absurd he List.not_mem_nil)
    (Conditions.reads_surroundings (by decide : _ ≤ _))
  have hsome : (getIn ⟨"edgecache:"⟩ (Conditions.good ⟨3000, by decide⟩).surroundings "user:1"
      (reachIn ⟨"edgecache:"⟩ ⟨1, 60, by decide, by decide⟩ userRegExp (fun _ => none)
        (setUser ⟨1000, by decide⟩ ++ [⟨.deleteByPattern "user:*",
          scanning ⟨2000, by decide⟩ ["edgecache:" ++ "user:1"]⟩]))).2.isSome = true := by
    decide +kernel
  rw [hnone] at hsome
  cases hsome

end EdgeCache
