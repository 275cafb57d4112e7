import EdgeCache.LayeredContents
import EdgeCache.LayeredPatterns
import EdgeCache.LayeredSharing
import EdgeCache.MemoryTags
import EdgeCache.RedisMembers

/-!
What one instance takes away, none brings back. A call that takes a key out of Redis and out of
the first tier of its own instance leaves the copies that the other instances have. These last as
long as they are dated, and no new ones are made: a read finds nothing in Redis to copy, so that
the key is gone from each instance once its copy has expired.
-/
namespace EdgeCache

open Programs (Program faultless)

variable {V : Type}

/-! ### Calls that take a key away -/

/-- An invalidation by tags that Redis carries out and that has the key among its targets, in each
tier unless nothing lasts there. -/
structure TargetsByTags (client : Client) (tags : List String) (key : String) (now : Time)
    (env : Surroundings) (s : Tiers V) : Prop where
  sound : env.Sound
  ended : ∀ i, env.clock i ≤ now
  proper : Redis.ProperSets tags (client.view s.redis)
  l1 : (∃ tag ∈ tags, ∃ keys, s.l1.taggedKeys tag = some keys ∧ key ∈ keys) ∨
    ∀ entry, s.l1.entryAt key = some entry → entry.isExpired now = true
  redis : (∃ tag ∈ tags, Redis.Lists (client.view s.redis) now tag key) ∨
    NoDocument client key now s.redis

def Op.Removes (client : Client) (config : Config) (regExp : RegExp) (key : String) (now : Time)
    (env : Surroundings) (s : Tiers V) : Op V → Prop
  | .delete key' => key' = key ∧
    LayeredCall.ReachesRedis config (⟨.delete key', env⟩ : LayeredCall V)
  | .flush => LayeredCall.ReachesRedis config (⟨.flush, env⟩ : LayeredCall V)
  | .deleteByTags tags => TargetsByTags client tags key now env s
  | .deleteByPattern pattern => Redis.glob pattern key = true ∧
    Completes client regExp env pattern now s ∧ Reached client regExp env pattern key now s
  | _ => False

section Removal

variable {client : Client} {config : Config} {regExp : RegExp} {key : String} {now : Time}
  {env : Surroundings} {s : Tiers V}

theorem NoDocument.of_documentAt {redis : Database V}
    (h : DocumentAt client key (fun _ => False) redis) : NoDocument client key now redis :=
  fun json expireAt hfind => h json expireAt (Redis.find_eq_some_iff.mp hfind).1

theorem Gone.of_empty {s : Tiers V} (hl1 : HoldsAt config key (fun _ => False) s.l1)
    (hredis : DocumentAt client key (fun _ => False) s.redis) : Gone client config key now s :=
  ⟨hl1.mono fun _ h => h.elim, .of_documentAt hredis⟩

theorem HoldsAt.deleteByTags_self {P Q : CacheEntry V → Prop} {l1 : MemoryCacheRepository V}
    (h : HoldsAt config key P l1) {tags : List String} {tag : String} (htag : tag ∈ tags)
    {keys : List String} (hkeys : l1.taggedKeys tag = some keys) (hkey : key ∈ keys) :
    HoldsAt config key Q (l1.deleteByTags tags).1 := by
  obtain ⟨v, hv, -⟩ := h
  have hmem : key ∈ v.keysOf tag := (hv.mem_taggedKeys_iff tag key).mp ⟨keys, hkeys, hkey⟩
  refine ⟨_, (hv.deleteByTags tags).1, fun entry hentry => ?_⟩
  rw [MemoryView.lookup_deleteByTags, if_pos ⟨tag, htag, hmem⟩] at hentry
  cases hentry

theorem TargetsByTags.noDocument {tags : List String}
    (h : TargetsByTags client tags key now env s) :
    NoDocument client key now (LayeredCacheRepository.callL2In client env
      (RedisCacheRepository.deleteByTags tags) s.redis).1 := by
  have hfault : env.fault = faultless := funext h.sound.answered
  have hview : client.view (LayeredCacheRepository.callL2In client env
      (RedisCacheRepository.deleteByTags tags) s.redis).1 =
      (Programs.run Redis.exec env.clock faultless 0 (RedisCacheRepository.deleteByTags tags)
        (client.view s.redis)).1 := by
    rw [LayeredCacheRepository.callL2In, hfault]
    exact (Programs.run_view client.view_send _ faultless 0 _ s.redis).1
  intro json expireAt hfind
  rw [hview] at hfind
  rcases h.redis with ⟨tag, htag, hlists⟩ | hnone
  · obtain ⟨after, deleted, hrun, -, -, hgone⟩ := RedisCacheRepository.deletes_deleteTags env.clock
      h.proper (List.Subset.refl tags) 0 0
    have hrun' : Programs.run Redis.exec env.clock faultless 0
        (RedisCacheRepository.deleteByTags tags) (client.view s.redis) =
        (after, some (0 + deleted.length)) := hrun
    rw [hrun'] at hfind
    cases (hgone tag htag key now h.ended hlists).symm.trans (Redis.find_eq_some_iff.mp hfind).1
  · rcases run_deleteTags_deleted env.clock tags 0 0 (client.view s.redis) key
      with hsame | hgone
    · exact hnone json expireAt ((Redis.find_congr hsame).symm.trans hfind)
    · cases hgone.symm.trans (Redis.find_eq_some_iff.mp hfind).1

theorem TargetsByTags.gone {tags : List String} (h : TargetsByTags client tags key now env s)
    (hl1 : HoldsAt config key (fun _ => True) s.l1) :
    Gone client config key now (LayeredCacheRepository.deleteByTagsIn client env tags s).1 := by
  have hfirst : HoldsAt config key (fun entry => entry.isExpired now = true)
      (s.l1.deleteByTags tags).1 := by
    rcases h.l1 with ⟨tag, htag, keys, hkeys, hkey⟩ | hexpired
    · exact hl1.deleteByTags_self htag hkeys hkey
    · exact (hl1.intro_entryAt hexpired).deleteByTags tags
  have hsecond := h.noDocument
  simp only [LayeredCacheRepository.deleteByTagsIn, h.sound.available, ↓reduceIte]
  exact ⟨hfirst, hsecond⟩

/-- A call that takes the key away leaves it in neither tier. -/
theorem Op.Removes.gone {op : Op V} (h : op.Removes client config regExp key now env s)
    (hl1 : HoldsAt config key (fun _ => True) s.l1) :
    Gone client config key now
      (LayeredCacheRepository.stepIn client config regExp s ⟨op, env⟩) := by
  have hredis : DocumentAt client key (fun _ => True) s.redis := fun _ _ _ => trivial
  cases op with
  | delete key' =>
    obtain ⟨rfl, hreaches⟩ := h
    obtain ⟨hempty, hnone⟩ := LayeredCacheRepository.holds_deleteIn (K := fun _ => True)
      (N := fun _ => True) (L := fun _ => False) (M := fun _ => False) env hl1 hredis key'
      (fun hne => absurd rfl hne) fun hlost => absurd ⟨rfl, hreaches⟩ hlost
    exact .of_empty hempty hnone
  | flush =>
    obtain ⟨hempty, hnone⟩ := LayeredCacheRepository.holds_flushIn (K := fun _ => True)
      (N := fun _ => True) (L := fun _ => False) (M := fun _ => False) env hl1 hredis
      fun hlost => absurd h hlost
    exact .of_empty hempty hnone
  | deleteByTags tags => exact TargetsByTags.gone h hl1
  | deleteByPattern pattern =>
    obtain ⟨hmatches, hcompletes, hreached⟩ := h
    exact gone_deleteByPatternIn hl1 hmatches hcompletes hreached
  | _ => exact h.elim

end Removal

/-! ### Instances -/

section Instances

variable {ι : Type} [DecidableEq ι] {client : Client} {config : Config} {regExp : RegExp}
  {key : String} {now : Time} {ends : ι → Time}

theorem noDocument_rule (client : Client) (config : Config) (key : String) (now : Time)
    {P : CacheEntry V → Prop} (hit : ∀ entry, P entry → P entry.registerHit) :
    TierRule client config key (now ≤ ·) (FindsNone key) (SparesKey key) P (fun _ => False)
      (NoDocument client key now) where
  serves := serves_noDocument client key now
  hit := hit
  get := (gone_rule client config key now).get
  promoted := fun _ h => h.elim

namespace Cluster

/-- Redis has no document under the key, and the copy of each instance ends at some time. -/
structure AllGone (client : Client) (config : Config) (key : String) (now : Time) (ends : ι → Time)
    (s : Cluster ι V) : Prop where
  l1 : ∀ i, HoldsAt config key (fun entry => entry.isExpired (ends i) = true) (s.l1 i)
  redis : NoDocument client key now s.redis

/-- A call that does not set the key brings it back nowhere. -/
theorem AllGone.stepIn {s : Cluster ι V} (h : AllGone client config key now ends s)
    {e : ClusterCall ι V} (henv : e.call.env.Reads (now ≤ ·)) (hop : ¬ e.call.op.Sets key) :
    AllGone client config key now ends (s.stepIn client config regExp e) := by
  obtain ⟨hl1, hredis⟩ := (noDocument_rule client config key now fun _ hexpired => hexpired).callIn
    henv (h.l1 e.instance_) h.redis regExp (brings_of_not_sets (fun _ => sparesKey_of_ne) hop
      e.call.env (s.tiers e.instance_))
  exact ⟨forall_l1_stepIn (P := fun i => HoldsAt config key fun entry =>
    entry.isExpired (ends i) = true) hl1 fun i _ => h.l1 i, hredis⟩

omit [DecidableEq ι] in
/-- Once its copy has ended, an instance finds nothing. -/
theorem AllGone.getIn_eq_none {s : Cluster ι V} (h : AllGone client config key now ends s)
    {env : Surroundings} (henv : env.Reads (now ≤ ·)) {i : ι} (hends : ends i ≤ env.l1 0) :
    (LayeredCacheRepository.getIn client env key (s.tiers i)).2 = none := by
  obtain ⟨-, -, hfound⟩ := (noDocument_rule client config key now
    fun _ hexpired => hexpired).getIn (s := s.tiers i) henv (h.l1 i) h.redis key
  cases hresult : (LayeredCacheRepository.getIn client env key (s.tiers i)).2 with
  | none => rfl
  | some entry =>
    rcases hfound rfl entry hresult with ⟨hexpired, hfresh⟩ | hnone
    · rw [entry.isExpired_mono hends hexpired] at hfresh
      cases hfresh
    · exact hnone.elim

/-- After a call that takes the key away, the other instances have the copies they had. -/
theorem allGone_of_removes {redis : Database V} {calls later : List (ClusterCall ι V)}
    {e : ClusterCall ι V}
    (hremoves : e.call.op.Removes client config regExp key now e.call.env
      ((reachIn client config regExp redis calls).tiers e.instance_))
    (hothers : ∀ j, j ≠ e.instance_ → ∀ entry,
      ((reachIn client config regExp redis calls).l1 j).entryAt key = some entry →
      entry.isExpired (ends j) = true)
    (hself : now ≤ ends e.instance_)
    (hlater : ∀ e' ∈ later, e'.call.env.Reads (now ≤ ·) ∧ ¬ e'.call.op.Sets key) :
    AllGone client config key now ends
      (reachIn client config regExp redis (calls ++ e :: later)) := by
  rw [List.append_cons, reachIn, Runs.run_append]
  refine (Runs.guarded_of_forall hlater _).invariant (fun _ _ hs he => hs.stepIn he.1 he.2) ?_
  have hgone := hremoves.gone (holds_reachIn config redis calls key e.instance_)
  rw [Runs.run_append]
  refine ⟨forall_l1_stepIn (P := fun j => HoldsAt config key fun entry =>
    entry.isExpired (ends j) = true) ?_ fun j hj => ?_, hgone.redis⟩
  · exact hgone.l1.mono fun entry hexpired => entry.isExpired_mono hself hexpired
  · exact (holds_reachIn config redis calls key j).intro_entryAt (hothers j hj)

end Cluster

end Instances

end EdgeCache
