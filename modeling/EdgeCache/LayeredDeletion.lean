import EdgeCache.LayeredPatterns
import EdgeCache.MemoryExpiry
import EdgeCache.RedisListing
import EdgeCache.RedisRetry
import EdgeCache.UseCases

/-!
What a deletion reports. Both tiers delete, and the count is that of the first tier: the keys it
had, expired or not. What readers lose is something else. They lose what Redis alone served, and
they do not lose what the second tier leaves in Redis, nor what had expired.
-/
namespace EdgeCache

open Programs (Program faultless)

variable {V : Type}

/-- There are so many of them. -/
def Counts (n : ℕ) (P : String → Prop) : Prop :=
  ∃ keys : List String, keys.Nodup ∧ (∀ key, key ∈ keys ↔ P key) ∧ n = keys.length

theorem counts_iff {n : ℕ} {P : String → Prop} {keys : List String} (hnodup : keys.Nodup)
    (hmem : ∀ key, key ∈ keys ↔ P key) : Counts n P ↔ n = keys.length := by
  constructor
  · intro h
    obtain ⟨keys', hnodup', hmem', rfl⟩ := h
    have hperm : keys'.Perm keys := (List.perm_ext_iff_of_nodup hnodup' hnodup).mpr fun key =>
      (hmem' key).trans (hmem key).symm
    exact hperm.length_eq
  · exact fun h => ⟨keys, hnodup, hmem, h⟩

/-! ### What Redis loses -/

namespace Redis

def without (db : Database V) (keys : List String) : Database V := fun key =>
  if key ∈ keys then none else db key

theorem without_without (db : Database V) (keys keys' : List String) :
    without (without db keys) keys' = without db (keys ++ keys') := by
  funext key
  by_cases h : key ∈ keys <;> by_cases h' : key ∈ keys' <;> simp [without, h, h']

theorem without_nil (db : Database V) : without db [] = db :=
  funext fun _ => if_neg List.not_mem_nil

theorem without_congr (db : Database V) {keys keys' : List String}
    (h : ∀ key, key ∈ keys ↔ key ∈ keys') : without db keys = without db keys' := by
  funext key
  rw [without, without, if_congr (h key) rfl rfl]

theorem exec_del_fst (now : Time) (db : Database V) (keys : List String) :
    (exec now db (.del keys)).1 = without db keys :=
  funext (exec_del now db keys)

theorem find_without (db : Database V) (now : Time) (keys : List String) (key : String) :
    find (without db keys) now key = if key ∈ keys then none else find db now key := by
  by_cases h : key ∈ keys <;> simp [find, without, h]

end Redis

namespace RedisCacheRepository

open Redis

/-- The keys that an invalidation deletes: those in the sets of the tags and the sets themselves,
each set as the ones before have left it. A document under the name of a set ends the call. -/
def taggedIn (now : Time) : List String → Database V → List String
  | [], _ => []
  | tag :: rest, db =>
    match find db now (tagKey tag) with
    | some ⟨.string _, _⟩ => []
    | some ⟨.set members, _⟩ =>
      members ++ tagKey tag :: taggedIn now rest (without db (members ++ [tagKey tag]))
    | none => tagKey tag :: taggedIn now rest (without db [tagKey tag])

/-- The names that the scan answers, each turn after the deletions of those before it. -/
def scannedIn (client : Client) (moment : ℕ → Moment) (pattern : String) :
    ℕ → ℕ → Database V → List String
  | scans, i, db =>
    let keys := page pattern (moment i) db
    keys ++ if (moment i).cursor = "0" then []
      else match scans with
        | 0 => []
        | scans + 1 => scannedIn client moment pattern scans
            (if 0 < keys.length then i + 2 else i + 1)
            (without db (keys.map (client.keyPrefix ++ ·)))

/-! ### By tags -/

theorem run_deleteBatches_without (now : Time) (next : ℕ → RedisProgram V ℕ)
    (batches : List (List String)) (i count : ℕ) (db : Database V) :
    ∃ j count', Programs.run exec (fun _ => now) faultless i (deleteBatches batches count next) db =
      Programs.run exec (fun _ => now) faultless j (next count') (without db batches.flatten) := by
  induction batches generalizing i count db with
  | nil => exact ⟨i, count, by rw [List.flatten_nil, without_nil]; rfl⟩
  | cons batch rest ih =>
    unfold deleteBatches
    split
    · obtain ⟨deleted, hreply, -⟩ := exec_del_integer now db batch
      obtain ⟨j, count', hrun⟩ := ih (i + 1) (count + deleted.length) (without db batch)
      refine ⟨j, count', ?_⟩
      rw [List.flatten_cons, ← without_without, ← hrun]
      simp only [Programs.run, Programs.attempt, faultless, hreply, exec_del_fst]
    · next hempty =>
      obtain rfl : batch = [] := List.eq_nil_of_length_eq_zero (Nat.eq_zero_of_not_pos hempty)
      exact ih i count db

theorem without_chunk (db : Database V) (keys : List String) :
    without db (chunk keys 100).flatten = without db keys := by
  refine without_congr db fun key => ?_
  rw [List.mem_flatten]
  constructor
  · intro h
    obtain ⟨batch, hbatch, hkey⟩ := h
    exact mem_of_mem_chunk hbatch hkey
  · exact fun h => mem_chunk (by decide) h

/-- How an invalidation goes on once it has deleted the keys of a set. -/
def deleteSet (tag : String) (rest : List String) (count : ℕ) : RedisProgram V ℕ :=
  .call (.del [tagKey tag]) fun
    | some _ => deleteTags rest count
    | none => .ret count

theorem run_deleteTag_without (now : Time) (tag : String) (rest members : List String)
    (i count : ℕ) (db : Database V) :
    ∃ j count', Programs.run exec (fun _ => now) faultless i
        (deleteBatches (chunk members 100) count (deleteSet tag rest)) db =
      Programs.run exec (fun _ => now) faultless j (deleteTags rest count')
        (without db (members ++ [tagKey tag])) := by
  obtain ⟨j, count', hrun⟩ :=
    run_deleteBatches_without now (deleteSet tag rest) (chunk members 100) i count db
  obtain ⟨deleted, hreply, -⟩ := exec_del_integer now (without db members) [tagKey tag]
  refine ⟨j + 1, count', ?_⟩
  rw [hrun, without_chunk, ← without_without]
  simp only [deleteSet, Programs.run, Programs.attempt, faultless, hreply, exec_del_fst]

theorem run_deleteTags_without (now : Time) (tags : List String) (i count : ℕ) (db : Database V) :
    (Programs.run exec (fun _ => now) faultless i (deleteTags tags count) db).1 =
      without db (taggedIn now tags db) := by
  induction tags generalizing i count db with
  | nil => exact (without_nil db).symm
  | cons tag rest ih =>
    unfold deleteTags taggedIn
    cases hfind : find db now (tagKey tag) with
    | none =>
      obtain ⟨j, count', hrun⟩ := run_deleteTag_without now tag rest [] (i + 1) count db
      simp only [Programs.run, Programs.attempt, faultless, exec, hfind]
      refine (congrArg Prod.fst hrun).trans ?_
      rw [ih, without_without]
      rfl
    | some record =>
      obtain ⟨json | members, t⟩ := record
      · simp only [Programs.run, Programs.attempt, faultless, exec, hfind]
        exact (without_nil db).symm
      · obtain ⟨j, count', hrun⟩ :=
          run_deleteTag_without now tag rest members (i + 1) count db
        simp only [Programs.run, Programs.attempt, faultless, exec, hfind]
        refine (congrArg Prod.fst hrun).trans ?_
        rw [ih, without_without, List.append_assoc]
        rfl

/-! ### By pattern -/

section Pattern

variable {client : Client} {moment : ℕ → Moment} {pattern : String}

theorem send_del_fst (client : Client) (now : Time) (db : Database V) (keys : List String) :
    (client.send now db (.del keys)).1 = without db (keys.map (client.keyPrefix ++ ·)) :=
  exec_del_fst now db _

theorem view_without (client : Client) (db : Database V) (keys : List String) :
    client.view (without db (keys.map (client.keyPrefix ++ ·))) =
      without (client.view db) keys := by
  funext key
  have hmem : client.keyPrefix ++ key ∈ keys.map (client.keyPrefix ++ ·) ↔ key ∈ keys := by
    rw [List.mem_map]
    constructor
    · intro h
      obtain ⟨key', hkey', heq⟩ := h
      rwa [← client.append_inj.mp heq]
    · exact fun h => ⟨key, h, rfl⟩
  rw [Client.view, without, without, if_congr hmem rfl rfl]
  rfl

theorem run_deleteTurn_without (client : Client) (pattern cursor : String) (count i : ℕ)
    (next : String → ℕ → ServerProgram V (Option ℕ)) (db : Database V) :
    ∃ count', Programs.run client.serve moment faultless i
        (deleteTurn pattern cursor count next) db =
      Programs.run client.serve moment faultless
        (if 0 < (page pattern (moment i) db).length then i + 2 else i + 1)
        (next (moment i).cursor count')
        (without db ((page pattern (moment i) db).map (client.keyPrefix ++ ·))) := by
  by_cases hpage : 0 < (page pattern (moment i) db).length
  · obtain ⟨n, hrun, -⟩ := deleteTurn_of_page client hpage cursor count next
    rw [send_del_fst] at hrun
    exact ⟨count + n, by rw [hrun, if_pos hpage]⟩
  · obtain ⟨hrun, -⟩ := deleteTurn_of_no_page client hpage cursor count next
    have hnil := List.eq_nil_of_length_eq_zero (Nat.eq_zero_of_not_pos hpage)
    refine ⟨count, ?_⟩
    rw [hrun, if_neg hpage, hnil, List.map_nil, without_nil]

theorem view_deleteScanned (client : Client) (moment : ℕ → Moment) (pattern cursor : String)
    (scans count i : ℕ) (db : Database V) :
    client.view (Programs.run client.serve moment faultless i
        (deleteScanned pattern scans cursor count) db).1 =
      without (client.view db) (scannedIn client moment pattern scans i db) := by
  induction scans generalizing cursor count i db with
  | zero =>
    rw [deleteScanned_zero]
    unfold scannedIn
    obtain ⟨count', hrun⟩ := run_deleteTurn_without client pattern cursor count i
      (fun cursor count => if cursor = "0" then .ret (some count) else .ret none) db
    rw [hrun]
    by_cases hend : (moment i).cursor = "0"
    · simp only [hend, ↓reduceIte, Programs.run, view_without, List.append_nil]
    · simp only [hend, ↓reduceIte, Programs.run, view_without, List.append_nil]
  | succ scans ih =>
    rw [deleteScanned_succ]
    unfold scannedIn
    obtain ⟨count', hrun⟩ := run_deleteTurn_without client pattern cursor count i
      (fun cursor count => if cursor = "0" then .ret (some count)
        else deleteScanned pattern scans cursor count) db
    rw [hrun]
    by_cases hend : (moment i).cursor = "0"
    · simp only [hend, ↓reduceIte, Programs.run, view_without, List.append_nil]
    · simp only [hend, ↓reduceIte, ih, view_without, without_without]

end Pattern

end RedisCacheRepository

/-! ### The deletion of a request -/

inductive Deletion where
  | byKey (key : String)
  | byTags (tags : List String)
  | byPattern (pattern : String)

/-- What a request deletes that returns with the strategy. -/
def DeleteCacheInput.deletion (input : DeleteCacheInput) : DeleteStrategy → Deletion
  | .key => .byKey (trim (input.key.getD ""))
  | .tags => .byTags (input.tags.getD [])
  | .pattern => .byPattern (input.pattern.getD "")

namespace Deletion

/-- The keys that the first tier drops when it has them. -/
def reaches (regExp : RegExp) (l1 : MemoryCacheRepository V) : Deletion → String → Bool
  | .byKey key => fun key' => key' == key
  | .byTags tags => fun key => tags.any fun tag => (l1.taggedKeys tag).any (·.contains key)
  | .byPattern pattern => fun key => (regExp (globSource pattern)).any (· key)

def dropped (regExp : RegExp) (l1 : MemoryCacheRepository V) (deletion : Deletion) : List String :=
  l1.map.keys.filter (deletion.reaches regExp l1)

def inRedis (client : Client) (env : Surroundings) (now : Time) (redis : Database V) :
    Deletion → List String
  | .byKey key => [key]
  | .byTags tags => RedisCacheRepository.taggedIn now tags (client.view redis)
  | .byPattern pattern => RedisCacheRepository.scannedIn client env.l2 pattern env.scans 0 redis

end Deletion

/-- The first tier has an entry that has not expired. -/
def MemoryCacheRepository.holdsFresh (now : Time) (l1 : MemoryCacheRepository V) (key : String) :
    Bool :=
  (l1.entryAt key).any fun entry => !entry.isExpired now

def servedByRedis (client : Client) (now : Time) (redis : Database V) (key : String) : Bool :=
  (servedFrom now (Redis.find (client.view redis) now key)).isSome

/-- The tiers after a deletion, and the count of the first one. -/
structure Deletion.Done (client : Client) (config : Config) (regExp : RegExp)
    (env : Surroundings) (now : Time) (deletion : Deletion) (s s' : Tiers V) (count : ℕ) :
    Prop where
  inOrder : ∃ v, MemoryCacheRepository.Shows config s'.l1 v
  fresh : ∀ key, s'.l1.holdsFresh now key =
    (s.l1.holdsFresh now key && !deletion.reaches regExp s.l1 key)
  redis : client.view s'.redis =
    Redis.without (client.view s.redis) (deletion.inRedis client env now s.redis)
  counted : count = (deletion.dropped regExp s.l1).length

section Done

open MemoryCacheRepository (Shows)

variable {client : Client} {config : Config} {regExp : RegExp} {env : Surroundings} {now : Time}
  {l1 l1' : MemoryCacheRepository V} {v v' : MemoryView V}

theorem holdsFresh_of_lookup (hs : Shows config l1 v) (hs' : Shows config l1' v')
    {T : String → Bool} (hlookup : ∀ key, v'.recency.lookup key =
      if T key then none else v.recency.lookup key) (key : String) :
    l1'.holdsFresh now key = (l1.holdsFresh now key && !T key) := by
  rw [MemoryCacheRepository.holdsFresh, MemoryCacheRepository.holdsFresh, hs.entryAt_eq,
    hs'.entryAt_eq, hlookup]
  cases T key <;> simp

theorem count_of_lookup (hs : Shows config l1 v) {a : Recency V} {T : String → Bool} {count : ℕ}
    (hlookup : ∀ key, a.lookup key = if T key then none else v.recency.lookup key)
    (hcount : count + a.keys.length = v.recency.keys.length) :
    count = (l1.map.keys.filter T).length := by
  have hperm : l1.map.keys.Perm v.recency.keys :=
    (List.perm_ext_iff_of_nodup l1.map.keys_nodup v.recency.keys_nodup).mpr fun key => by
      rw [hs.mem_keys_iff_isSome, Recency.mem_keys_iff_isSome]
  rw [(hperm.filter T).length_eq]
  have hsum := Recency.length_filter_add T hlookup
  omega

theorem callL2In_of_answered {α : Type} (hanswered : ∀ i, env.fault i = .none)
    (hnow : ∀ i, (env.l2 i).now = now) (p : RedisProgram V α) (redis : Database V) :
    client.view (LayeredCacheRepository.callL2In client env p redis).1 =
      (Programs.run Redis.exec (fun _ => now) faultless 0 p (client.view redis)).1 := by
  have hfault : env.fault = faultless := funext hanswered
  have hclock : env.clock = fun _ => now := funext hnow
  rw [LayeredCacheRepository.callL2In, hfault, hclock]
  exact (Programs.run_view client.view_send _ faultless 0 p redis).1

variable {redis : Database V}

theorem done_key (hs : Shows config l1 v) (hsound : env.Sound) (hnow : ∀ i, (env.l2 i).now = now)
    (key : String) {s' : Tiers V} {deleted : Bool}
    (h : LayeredCacheRepository.deleteIn client env key ⟨l1, redis⟩ = (s', deleted)) :
    (Deletion.byKey key).Done client config regExp env now ⟨l1, redis⟩ s'
      (if deleted then 1 else 0) := by
  have hstate : (0 : ℕ) + (l1.delete key).2.toNat = if (l1.delete key).2 then 1 else 0 := by
    cases (l1.delete key).2 <;> rfl
  have hcounting : Shows config (l1, 0).1 v := hs
  obtain ⟨hs', hcount, -⟩ := hcounting.deleteCounting key
  have hlookup : ∀ key', (v.recency.erase key).lookup key' =
      if key' == key then none else v.recency.lookup key' := by
    intro key'
    by_cases hk : key' = key
    · subst hk
      rw [AList.lookup_erase, if_pos (beq_self_eq_true key')]
    · rw [AList.lookup_erase_ne hk, if_neg (mt beq_iff_eq.mp hk)]
  simp only [LayeredCacheRepository.deleteIn, hsound.available, ↓reduceIte] at h
  obtain ⟨rfl, rfl⟩ := Prod.mk.inj h
  refine ⟨⟨_, hs'⟩, holdsFresh_of_lookup hs hs' hlookup, ?_, ?_⟩
  · rw [callL2In_of_answered hsound.answered hnow]
    exact Redis.exec_del_fst now (client.view redis) [key]
  · rw [← hstate]
    refine count_of_lookup hs hlookup ?_
    simpa [MemoryCacheRepository.deleteCounting] using hcount

theorem done_tags (hs : Shows config l1 v) (hsound : env.Sound) (hnow : ∀ i, (env.l2 i).now = now)
    (tags : List String) {s' : Tiers V} {count : ℕ}
    (h : LayeredCacheRepository.deleteByTagsIn client env tags ⟨l1, redis⟩ = (s', count)) :
    (Deletion.byTags tags).Done client config regExp env now ⟨l1, redis⟩ s' count := by
  obtain ⟨hs', hcount⟩ := hs.deleteByTags tags
  have hlookup : ∀ key, (v.deleteByTags tags).recency.lookup key =
      if (Deletion.byTags tags).reaches regExp l1 key then none else v.recency.lookup key := by
    intro key
    have hreaches : (Deletion.byTags tags).reaches regExp l1 key = true ↔
        ∃ tag ∈ tags, key ∈ v.keysOf tag := by
      simp only [Deletion.reaches, List.any_eq_true, Option.any_eq_true, List.contains_iff_mem,
        ← hs.mem_taggedKeys_iff]
    rw [MemoryView.lookup_deleteByTags, if_congr hreaches rfl rfl]
  simp only [LayeredCacheRepository.deleteByTagsIn, hsound.available, ↓reduceIte] at h
  obtain ⟨rfl, rfl⟩ := Prod.mk.inj h
  refine ⟨⟨_, hs'⟩, holdsFresh_of_lookup hs hs' hlookup, ?_, count_of_lookup hs hlookup hcount⟩
  rw [callL2In_of_answered hsound.answered hnow]
  exact RedisCacheRepository.run_deleteTags_without now tags 0 0 (client.view redis)

theorem done_pattern (hs : Shows config l1 v) (hsound : env.Sound)
    (pattern : String) {s' : Tiers V} {count : ℕ}
    (h : LayeredCacheRepository.deleteByPatternIn client regExp env pattern ⟨l1, redis⟩ =
      (s', .count count)) :
    (Deletion.byPattern pattern).Done client config regExp env now ⟨l1, redis⟩ s' count := by
  obtain ⟨hs', hcount⟩ := hs.deleteByPattern regExp pattern
  have hlookup : ∀ key, (v.deleteByPattern regExp pattern).recency.lookup key =
      if (Deletion.byPattern pattern).reaches regExp l1 key then none
      else v.recency.lookup key := by
    intro key
    unfold MemoryView.deleteByPattern Deletion.reaches
    cases hcompiles : regExp (globSource pattern) with
    | none => simp [hcompiles]
    | some test =>
      simp only [hcompiles, Option.elim_some, MemoryView.retain, Recency.lookup_retain,
        Option.any_some]
      cases v.recency.lookup key <;> cases test key <;> simp
  have hfault : env.fault = faultless := funext hsound.answered
  have hview :=
    RedisCacheRepository.view_deleteScanned client env.l2 pattern "0" env.scans 0 0 redis
  unfold LayeredCacheRepository.deleteByPatternIn at h
  cases hfirst : l1.deleteByPattern regExp pattern with
  | mk l1' found =>
    rw [hfirst] at h hs' hcount
    cases found with
    | none => cases h
    | some count' =>
      simp only [hsound.available, ↓reduceIte, LayeredCacheRepository.scanL2In, hfault,
        RedisCacheRepository.deleteByPattern] at h
      generalize Programs.run client.serve env.l2 faultless 0
        (RedisCacheRepository.deleteScanned pattern env.scans "0" 0) redis = result at h hview
      obtain ⟨redis', scanned⟩ := result
      have hdone : s' = ⟨l1', redis'⟩ ∧ count = count' := by
        rcases scanned with _ | (_ | n)
        · obtain ⟨rfl, hanswer⟩ := Prod.mk.inj h
          exact ⟨rfl, (Answer.count.inj hanswer).symm⟩
        · cases h
        · obtain ⟨rfl, hanswer⟩ := Prod.mk.inj h
          exact ⟨rfl, (Answer.count.inj hanswer).symm⟩
      obtain ⟨rfl, rfl⟩ := hdone
      exact ⟨⟨_, hs'⟩, holdsFresh_of_lookup hs hs' hlookup, hview,
        count_of_lookup hs hlookup (hcount count rfl)⟩

theorem done_of_execute (hs : Shows config l1 v) (hsound : env.Sound)
    (hnow : ∀ i, (env.l2 i).now = now) {input : DeleteCacheInput} {s' : Tiers V}
    {output : DeleteCacheOutput}
    (h : DeleteCacheUseCase.execute (LayeredCacheRepository.deletions client regExp) env input
      ⟨l1, redis⟩ = (s', .returns output)) :
    (input.deletion output.strategy).Done client config regExp env now ⟨l1, redis⟩ s'
      output.deletedCount := by
  rcases DeleteCacheUseCase.execute_eq_returns h with
    ⟨cacheKey, deleted, hkey, hdelete, rfl⟩ | ⟨count, hdelete, rfl⟩ | ⟨count, hdelete, rfl⟩
  · have htrim : cacheKey.value = trim (input.key.getD "") := CacheKey.value_of_fromRaw hkey
    have hdone : (Deletion.byKey cacheKey.value).Done client config regExp env now ⟨l1, redis⟩ s'
        (if deleted then 1 else 0) := done_key hs hsound hnow cacheKey.value hdelete
    rwa [htrim] at hdone
  · exact done_tags hs hsound hnow (input.tags.getD []) hdelete
  · exact done_pattern hs hsound (input.pattern.getD "") hdelete

end Done

/-! ### What readers lose -/

section Lost

open LayeredCacheRepository (deletions getIn reachIn)

variable {client : Client} {config : Config} {regExp : RegExp} {env : Surroundings} {now : Time}

/-- `get` returns an entry just before, and null just after. -/
def Lost (client : Client) (now : Time) (s s' : Tiers V) (key : String) : Prop :=
  (getIn client (Conditions.good now).surroundings key s).2.isSome = true ∧
    (getIn client (Conditions.good now).surroundings key s').2 = none

/-- Keys that the first tier drops and counts, although Redis goes on serving them, or nobody
could read them because they had expired. -/
def Deletion.overcounted (client : Client) (regExp : RegExp) (env : Surroundings) (now : Time)
    (s : Tiers V) (deletion : Deletion) : List String :=
  (deletion.dropped regExp s.l1).filter fun key =>
    if servedByRedis client now s.redis key then key ∉ deletion.inRedis client env now s.redis
    else !s.l1.holdsFresh now key

/-- Keys that Redis alone served, and that are deleted there. -/
def Deletion.uncounted (client : Client) (regExp : RegExp) (env : Surroundings) (now : Time)
    (s : Tiers V) (deletion : Deletion) : List String :=
  (deletion.inRedis client env now s.redis).eraseDups.filter fun key =>
    servedByRedis client now s.redis key && !s.l1.holdsFresh now key &&
      key ∉ deletion.dropped regExp s.l1

theorem isSome_getIn {s : Tiers V} {v : MemoryView V}
    (hs : MemoryCacheRepository.Shows config s.l1 v) (client : Client) (now : Time)
    (key : String) :
    (getIn client (Conditions.good now).surroundings key s).2.isSome =
      (s.l1.holdsFresh now key || servedByRedis client now s.redis key) := by
  have hsound : (Conditions.good now).surroundings.Sound := ⟨rfl, fun _ => rfl⟩
  have hfirst : (s.l1.get (Conditions.good now).surroundings.l1 key).2.isSome =
      s.l1.holdsFresh now key := by
    rw [MemoryCacheRepository.snd_get hs, Option.isSome_map, Option.isSome_filter]
    rfl
  rw [snd_getIn hsound, Option.isSome_or, hfirst]
  rfl

theorem mem_dropped_iff {s : Tiers V} {v : MemoryView V}
    (hs : MemoryCacheRepository.Shows config s.l1 v) (deletion : Deletion) {key : String}
    (hfresh : s.l1.holdsFresh now key = true) :
    key ∈ deletion.dropped regExp s.l1 ↔ deletion.reaches regExp s.l1 key = true := by
  rw [Deletion.dropped, List.mem_filter, hs.mem_keys_iff_isSome, ← hs.entryAt_eq]
  obtain ⟨entry, hentry, -⟩ := (Option.any_eq_true _ _).mp hfresh
  exact and_iff_right (hentry ▸ rfl)

/-- A key is lost when a tier served it and each tier that did has let it go. -/
theorem lost_iff {s s' : Tiers V} {v : MemoryView V} {deletion : Deletion} {count : ℕ}
    (hs : MemoryCacheRepository.Shows config s.l1 v)
    (hdone : deletion.Done client config regExp env now s s' count) (key : String) :
    Lost client now s s' key ↔
      (s.l1.holdsFresh now key = true ∨ servedByRedis client now s.redis key = true) ∧
        (s.l1.holdsFresh now key = true → key ∈ deletion.dropped regExp s.l1) ∧
        (servedByRedis client now s.redis key = true →
          key ∈ deletion.inRedis client env now s.redis) := by
  have hserved : servedByRedis client now s'.redis key =
      (servedByRedis client now s.redis key &&
        decide (key ∉ deletion.inRedis client env now s.redis)) := by
    rw [servedByRedis, servedByRedis, hdone.redis, Redis.find_without]
    by_cases hmem : key ∈ deletion.inRedis client env now s.redis <;> simp [hmem, servedFrom]
  obtain ⟨v', hs'⟩ := hdone.inOrder
  rw [Lost, isSome_getIn hs, ← Option.not_isSome_iff_eq_none, isSome_getIn hs', hdone.fresh,
    hserved]
  cases hfresh : s.l1.holdsFresh now key with
  | true =>
    rw [mem_dropped_iff hs deletion hfresh]
    by_cases hmem : key ∈ deletion.inRedis client env now s.redis <;>
      cases servedByRedis client now s.redis key <;> simp [hmem]
  | false =>
    by_cases hmem : key ∈ deletion.inRedis client env now s.redis <;>
      cases servedByRedis client now s.redis key <;> simp [hmem]

/-- The keys that are lost: those that are counted for a reason, and those that are not
counted. -/
theorem lost_keys {s s' : Tiers V} {v : MemoryView V} {deletion : Deletion} {count : ℕ}
    (hs : MemoryCacheRepository.Shows config s.l1 v)
    (hdone : deletion.Done client config regExp env now s s' count) :
    ∃ keys : List String, keys.Nodup ∧ (∀ key, key ∈ keys ↔ Lost client now s s' key) ∧
      keys.length + (deletion.overcounted client regExp env now s).length =
        count + (deletion.uncounted client regExp env now s).length := by
  set vain : String → Bool := fun key =>
    if servedByRedis client now s.redis key then key ∉ deletion.inRedis client env now s.redis
    else !s.l1.holdsFresh now key with hvain
  refine ⟨(deletion.dropped regExp s.l1).filter (fun key => !vain key) ++
    deletion.uncounted client regExp env now s, ?_, fun key => ?_, ?_⟩
  · have hdropped : (deletion.dropped regExp s.l1).Nodup := s.l1.map.keys_nodup.filter _
    have huncounted : (deletion.uncounted client regExp env now s).Nodup :=
      (nodup_eraseDups _).filter _
    refine List.nodup_append.mpr ⟨hdropped.filter _, huncounted, fun key hkey key' hkey' heq => ?_⟩
    subst heq
    have hout := (List.mem_filter.mp hkey').2
    simp only [Bool.and_eq_true, decide_eq_true_eq] at hout
    exact hout.2 (List.mem_filter.mp hkey).1
  · rw [lost_iff hs hdone, List.mem_append, List.mem_filter, Deletion.uncounted,
      List.mem_filter, List.mem_eraseDups]
    by_cases hdropped : key ∈ deletion.dropped regExp s.l1 <;>
      by_cases hmem : key ∈ deletion.inRedis client env now s.redis <;>
      cases hfresh : s.l1.holdsFresh now key <;>
      cases hserved : servedByRedis client now s.redis key <;>
      simp [hvain, hdropped, hmem, hfresh, hserved]
  · have hsplit := List.length_eq_length_filter_add (l := deletion.dropped regExp s.l1) vain
    have hovercounted : (deletion.overcounted client regExp env now s).length =
        ((deletion.dropped regExp s.l1).filter vain).length := rfl
    rw [List.length_append, hovercounted, hdone.counted, hsplit]
    omega

/-- In every state that calls reach, whatever is in Redis by then, a request that returns reports
as many keys as readers lose if and only if as many keys are counted in vain as are lost without
being counted. -/
theorem deletedCount_iff (client : Client) (config : Config) (regExp : RegExp)
    (redis redis' : Database V) (calls : List (LayeredCall V)) {env : Surroundings} {now : Time}
    (hsound : env.Sound) (hnow : ∀ i, (env.l2 i).now = now) {input : DeleteCacheInput}
    {s' : Tiers V} {output : DeleteCacheOutput}
    (h : DeleteCacheUseCase.execute (deletions client regExp) env input
      ⟨(reachIn client config regExp redis calls).l1, redis'⟩ = (s', .returns output)) :
    Counts output.deletedCount
        (Lost client now ⟨(reachIn client config regExp redis calls).l1, redis'⟩ s') ↔
      ((input.deletion output.strategy).overcounted client regExp env now
          ⟨(reachIn client config regExp redis calls).l1, redis'⟩).length =
        ((input.deletion output.strategy).uncounted client regExp env now
          ⟨(reachIn client config regExp redis calls).l1, redis'⟩).length := by
  obtain ⟨v, hs, -⟩ := LayeredCacheRepository.holds_reachIn client config regExp "" redis calls
  have hdone := done_of_execute hs hsound hnow h
  set s : Tiers V := ⟨(reachIn client config regExp redis calls).l1, redis'⟩
  have hs : MemoryCacheRepository.Shows config s.l1 v := hs
  obtain ⟨keys, hnodup, hmem, hlength⟩ := lost_keys hs hdone
  rw [counts_iff hnodup hmem]
  omega

/-- A key that both tiers have. -/
theorem counts_deletedCount_of_cached :
    let now : Time := ⟨2000, by decide⟩
    let s := reachIn ⟨"edgecache:"⟩ ⟨1, 60, by decide, by decide⟩ (fun _ => none) (fun _ => none)
      [⟨.set "a" 7 (.ofTtl 60), (Conditions.good now).surroundings⟩]
    Counts 1 (Lost ⟨"edgecache:"⟩ now s
      (DeleteCacheUseCase.execute (deletions ⟨"edgecache:"⟩ (fun _ => none))
        (Conditions.good now).surroundings ⟨some "a", none, none⟩ s).1) := by
  intro now s
  have hreturns : (DeleteCacheUseCase.execute (deletions ⟨"edgecache:"⟩ (fun _ => none))
      (Conditions.good now).surroundings ⟨some "a", none, none⟩ s).2 = .returns ⟨1, .key⟩ := by
    decide +kernel
  have hiff := deletedCount_iff ⟨"edgecache:"⟩ ⟨1, 60, by decide, by decide⟩ (fun _ => none)
    (fun _ => none) s.redis [⟨.set "a" 7 (.ofTtl 60), (Conditions.good now).surroundings⟩]
    ⟨rfl, fun _ => rfl⟩ (fun _ => rfl) (Prod.snd_eq_iff.mp hreturns)
  exact hiff.mpr (by decide +kernel)

/-- The first tier has evicted the key, and Redis still serves it. The request reports that it
has deleted nothing. -/
theorem not_counts_deletedCount_of_evicted :
    ¬ ∀ (calls : List (LayeredCall ℕ)) (env : Surroundings) (now : Time)
        (input : DeleteCacheInput) (s' : Tiers ℕ) (output : DeleteCacheOutput),
      env.Sound → (∀ i, (env.l2 i).now = now) →
      DeleteCacheUseCase.execute (deletions ⟨"edgecache:"⟩ (fun _ => none)) env input
        (reachIn ⟨"edgecache:"⟩ ⟨1, 60, by decide, by decide⟩ (fun _ => none) (fun _ => none)
          calls) = (s', .returns output) →
      Counts output.deletedCount (Lost ⟨"edgecache:"⟩ now
        (reachIn ⟨"edgecache:"⟩ ⟨1, 60, by decide, by decide⟩ (fun _ => none) (fun _ => none)
          calls) s') := by
  intro hall
  have hcounts := hall
    [⟨.set "a" 7 (.ofTtl 60), (Conditions.good ⟨2000, by decide⟩).surroundings⟩,
      ⟨.set "b" 8 (.ofTtl 60), (Conditions.good ⟨2000, by decide⟩).surroundings⟩]
    (Conditions.good ⟨2000, by decide⟩).surroundings ⟨2000, by decide⟩
    ⟨some "a", none, none⟩ _ ⟨0, .key⟩ ⟨rfl, fun _ => rfl⟩ (fun _ => rfl)
    (Prod.snd_eq_iff.mp (by decide +kernel))
  obtain ⟨keys, -, hmem, hcount⟩ := hcounts
  have hkey := List.length_pos_of_mem ((hmem "a").mpr ⟨by decide +kernel, by decide +kernel⟩)
  exact absurd hcount hkey.ne

end Lost

end EdgeCache
