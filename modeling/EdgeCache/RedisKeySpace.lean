import EdgeCache.CacheKey
import EdgeCache.RedisTags

/-!
One space of names for the keys of callers and for the tag sets. Whatever is not blank and
not too long is accepted as a key, the name of a tag set too, and nothing tells the two
apart: a set of such a key puts a document in the place of the tag set, and a deletion takes
the tag set away. Calls on all other keys leave the tag sets alone, but for the members they
add, unless the time to live of a set is so far in the past that `EXPIRE` deletes its tag sets.
-/
namespace EdgeCache

open Programs (Program faultless)

variable {V : Type}

/-- The key that a use case passes on of some raw key. -/
def CacheKey.Accepted (key : String) : Prop := ∃ raw, fromRaw raw = .ok ⟨key⟩

/-- The key of a call that has one. -/
def RedisOp.On (key : String) : RedisOp V → Prop
  | .get key' => key' = key
  | .set key' _ _ => key' = key
  | .delete key' => key' = key
  | _ => False

def RedisOp.tags : RedisOp V → List String
  | .set _ _ options => options.tagList
  | _ => []

/-- What a call stores it stores for this long. -/
def RedisOp.StoresFor (config : Config) (ttl : JsNumber) : RedisOp V → Prop
  | .set _ _ options => options.ttlOr (.ofNat config.cacheDefaultTtl) = ttl
  | _ => True

/-- The times that the call gives its tag sets, when they are in the future, are not over by
then. -/
def RedisOp.Lasts (config : Config) (clock : Clock) (later : Time) : RedisOp V → Prop
  | .set _ _ options => ∀ i t, Redis.setDeadline (clock i)
    ((options.ttlOr (.ofNat config.cacheDefaultTtl)).plus 60) = some t → later.val ≤ t
  | _ => True

/-- The call is over by then, and no tag set expires that it has put its key in. -/
structure RedisEvent.InTime (config : Config) (later : Time) (e : RedisEvent V) : Prop where
  ended : ∀ i, e.clock i ≤ later
  lasts : e.op.Lasts config e.clock later

/-- A minute after this time to live is not in the past, or no time that `EXPIRE` takes. -/
def SparesSets (ttl : JsNumber) : Prop :=
  ∀ now t, Redis.expireTime now (ttl.plus 60) = some t → now.val < t

/-! ### Tag sets -/

/-- The tag has these members up to then; where there is no set it has none. -/
def TagSet (later : Time) (tag : String) (members : List String) (db : Database V) : Prop :=
  db (tagKey tag) = none ∧ members = [] ∨
    ∃ t, db (tagKey tag) = some ⟨.set members, t⟩ ∧
      Redis.isLive later (⟨.set members, t⟩ : Record V) = true

def addMember (key : String) (members : List String) : List String :=
  if key ∈ members then members else members ++ [key]

theorem mem_addMember (key : String) (members : List String) : key ∈ addMember key members := by
  unfold addMember
  split
  · assumption
  · exact List.mem_append_right members (List.mem_singleton_self key)

theorem mem_addMember_of_mem (key : String) {key' : String} {members : List String}
    (h : key' ∈ members) : key' ∈ addMember key members := by
  unfold addMember
  split
  · exact h
  · exact List.mem_append_left [key] h

theorem addMember_addMember (key : String) (members : List String) :
    addMember key (addMember key members) = addMember key members :=
  if_pos (mem_addMember key members)

namespace TagSet

variable {db db' : Database V} {now later : Time} {key tag : String} {members : List String}

theorem congr (hdb : db' (tagKey tag) = db (tagKey tag)) (h : TagSet later tag members db) :
    TagSet later tag members db' := by
  unfold TagSet at h ⊢
  rwa [hdb]

theorem ne_string (h : TagSet later tag members db) (json : EntryJson V) (t : Option ℤ) :
    db (tagKey tag) ≠ some ⟨.string json, t⟩ := by
  intro hdb
  rcases h with ⟨hnone, -⟩ | ⟨t', hset, -⟩
  · cases hnone.symm.trans hdb
  · cases hset.symm.trans hdb

theorem find_of_mem (h : TagSet later tag members db) (hmem : key ∈ members) (hnow : now ≤ later) :
    ∃ t, Redis.find db now (tagKey tag) = some ⟨.set members, t⟩ := by
  rcases h with ⟨-, rfl⟩ | ⟨t, hset, hlive⟩
  · cases hmem
  · exact ⟨t, Redis.find_eq_some_iff.mpr ⟨hset, Redis.isLive_of_le hnow hlive⟩⟩

theorem sadd (h : TagSet later tag members db) (hnow : now ≤ later) (key : String) :
    TagSet later tag (addMember key members)
      (Redis.exec now db (.sadd (tagKey tag) key)).1 := by
  rcases h with ⟨hnone, rfl⟩ | ⟨t, hset, hlive⟩
  · have hfind : Redis.find db now (tagKey tag) = none := by
      rw [Redis.find, hnone]
      rfl
    simp only [Redis.exec, hfind]
    exact Or.inr ⟨none, Redis.insert_self, rfl⟩
  · have hfind := Redis.find_eq_some_iff.mpr ⟨hset, Redis.isLive_of_le hnow hlive⟩
    unfold addMember
    by_cases hmem : key ∈ members
    · simp only [Redis.exec, hfind, hmem, ↓reduceIte]
      exact Or.inr ⟨t, hset, hlive⟩
    · simp only [Redis.exec, hfind, hmem, ↓reduceIte]
      exact Or.inr ⟨t, Redis.insert_self, hlive⟩

theorem expire (h : TagSet later tag members db) (hnow : now ≤ later) {seconds : JsNumber}
    (hseconds : ∀ b, Redis.expireTime now seconds = some b → now.val < b ∧ later.val ≤ b) :
    TagSet later tag members (Redis.exec now db (.expire (tagKey tag) seconds)).1 := by
  cases hb : Redis.expireTime now seconds with
  | none =>
    simp only [Redis.exec, hb]
    exact h
  | some b =>
    obtain ⟨hbefore, hlater⟩ := hseconds b hb
    rcases h with ⟨hnone, rfl⟩ | ⟨t, hset, hlive⟩
    · have hfind : Redis.find db now (tagKey tag) = none := by
        rw [Redis.find, hnone]
        rfl
      simp only [Redis.exec, hb, hfind]
      exact Or.inl ⟨hnone, rfl⟩
    · have hfind := Redis.find_eq_some_iff.mpr ⟨hset, Redis.isLive_of_le hnow hlive⟩
      simp only [Redis.exec, hb, hfind, not_le.mpr hbefore, ↓reduceIte]
      exact Or.inr ⟨some b, Redis.insert_self, (Redis.isLive_some b _).mpr hlater⟩

theorem run_setTags {clock : Clock} {seconds : JsNumber} (hclock : ∀ i, clock i ≤ later)
    (hseconds : ∀ i b, Redis.expireTime (clock i) seconds = some b →
      (clock i).val < b ∧ later.val ≤ b)
    (key : String) (tags : List String) (i : ℕ) (h : TagSet later tag members db) :
    TagSet later tag (if tag ∈ tags then addMember key members else members)
      (Programs.run Redis.exec clock faultless i (Program.each (tags.flatMap fun tag =>
        [.sadd (tagKey tag) key, .expire (tagKey tag) seconds])
        (.ret ()) : RedisProgram V Unit) db).1 := by
  induction tags generalizing i db members with
  | nil => exact h
  | cons tag' rest ih =>
    by_cases htag : tag = tag'
    · subst htag
      have hstep := (h.sadd (hclock i) key).expire (hclock (i + 1)) (hseconds (i + 1))
      have hrest := ih (i + 2) hstep
      rw [addMember_addMember, ite_self] at hrest
      rw [if_pos List.mem_cons_self]
      exact hrest
    · have hne : tagKey tag' ≠ tagKey tag := fun heq => htag (tagKey_inj.mp heq).symm
      have hadd : (Redis.exec (clock i) db (.sadd (tagKey tag') key)).1 (tagKey tag) =
          db (tagKey tag) := Redis.exec_frame (clock i) db hne
      have hspared : ¬ Redis.Writes (tagKey tag) (.expire (tagKey tag') seconds : Command V) := hne
      have hexpire := Redis.exec_frame (clock (i + 1))
        (Redis.exec (clock i) db (.sadd (tagKey tag') key)).1 hspared
      have hrest := ih (i + 2) (h.congr (hexpire.trans hadd))
      have hmem : tag ∈ tag' :: rest ↔ tag ∈ rest := by
        rw [List.mem_cons, or_iff_right htag]
      rw [if_congr hmem rfl rfl]
      exact hrest

end TagSet

/-! ### One call -/

/-- The tag sets are as they were, but for the key among the members of its tags. -/
structure TagSetsKept (config : Config) (key : String) (e : RedisEvent V)
    (before after : Database V) : Prop where
  others : ∀ tag, tag ∉ e.op.tags → after (tagKey tag) = before (tagKey tag)
  tagged : ∀ tag ∈ e.op.tags, ∀ later, e.InTime config later →
    ∀ members, TagSet later tag members before → TagSet later tag (addMember key members) after

section Calls

variable {client : Client} {config : Config} {key : String} {later : Time} {clock : Clock}
  {db : Database V}

theorem expireTime_of_lasts {value : V} {options : SetOptions}
    (h : (RedisOp.set key value options).Lasts config clock later)
    (hspares : SparesSets (options.ttlOr (.ofNat config.cacheDefaultTtl))) (i : ℕ) (b : ℤ)
    (hb : Redis.expireTime (clock i)
      ((options.ttlOr (.ofNat config.cacheDefaultTtl)).plus 60) = some b) :
    (clock i).val < b ∧ later.val ≤ b := by
  have hfuture := hspares (clock i) b hb
  exact ⟨hfuture, h i b (by rw [Redis.setDeadline, hb, Option.filter_some, if_pos (by simpa)])⟩

theorem run_set_eq (config : Config) (clock : Clock) (key : String) (value : V)
    (options : SetOptions) (db : Database V) :
    ∃ json mode, json.tags = options.tagList ∧
      Programs.run Redis.exec clock faultless 0
          (RedisCacheRepository.set config key value options) db =
        Programs.run Redis.exec clock faultless 2 (Program.each (options.tagList.flatMap fun tag =>
          [.sadd (tagKey tag) key, .expire (tagKey tag)
            ((options.ttlOr (.ofNat config.cacheDefaultTtl)).plus 60)]) (.ret ()))
          (Redis.exec (clock 1) db (.set key json mode)).1 :=
  ⟨_, _, rfl, rfl⟩

theorem view_step (client : Client) (config : Config) (db : Database V) (e : RedisEvent V) :
    client.view (RedisCacheRepository.step client config db e) =
      (Programs.run Redis.exec e.clock faultless 0 (e.op.program config) (client.view db)).1 :=
  (Programs.run_view client.view_send e.clock faultless 0 (e.op.program config) db).1

/-- A call on a key that is not the name of a tag set keeps the tag sets. -/
theorem tagSetsKept_step (client : Client) {e : RedisEvent V} {ttl : JsNumber}
    (hkey : ∀ tag, key ≠ tagKey tag) (hspares : SparesSets ttl) (hop : e.op.On key)
    (hstores : e.op.StoresFor config ttl) (db : Database V) :
    TagSetsKept config key e (client.view db)
      (client.view (RedisCacheRepository.step client config db e)) := by
  rw [view_step]
  obtain ⟨op, clock⟩ := e
  cases op with
  | get key' =>
    obtain rfl : key' = key := hop
    refine ⟨fun tag _ => ?_, fun tag htag => absurd htag List.not_mem_nil⟩
    rw [RedisOp.program, Programs.run_map_fst]
    exact Redis.run_frame (RedisCacheRepository.get_onlyCalls_of_ne (hkey tag)) _ _ _ _
  | delete key' =>
    obtain rfl : key' = key := hop
    refine ⟨fun tag _ => ?_, fun tag htag => absurd htag List.not_mem_nil⟩
    rw [RedisOp.program, Programs.run_map_fst]
    exact Redis.run_frame (RedisCacheRepository.delete_onlyCalls_of_ne (hkey tag)) _ _ _ _
  | set key' value options =>
    obtain rfl : key' = key := hop
    refine ⟨fun tag htag => ?_, fun tag htag later htime members h => ?_⟩
    · refine Redis.run_frame (RedisCacheRepository.set_onlyCalls_of_ne config value (hkey tag)
        fun tag' htag' heq => htag ?_) _ _ _ _
      exact tagKey_inj.mp heq ▸ htag'
    · obtain ⟨json, mode, -, hrun⟩ := run_set_eq config clock key' value options (client.view db)
      have hset : ¬ Redis.Writes (tagKey tag) (.set key' json mode) := hkey tag
      have htagged : tag ∈ options.tagList := htag
      obtain rfl : options.ttlOr (.ofNat config.cacheDefaultTtl) = ttl := hstores
      have hkept := (h.congr (Redis.exec_frame (clock 1) _ hset)).run_setTags htime.ended
        (expireTime_of_lasts htime.lasts hspares) key' options.tagList 2
      rw [if_pos htagged, ← hrun] at hkept
      exact hkept
  | mset entries => exact hop.elim
  | deleteByTags tags => exact hop.elim

/-! ### Indexed entries -/

/-- The names of tag sets hold nothing else, and every entry is in the sets of its tags. -/
structure Indexed (later : Time) (db : Database V) : Prop where
  sets : ∀ tag, ∃ members, TagSet later tag members db
  covers : ∀ key json t, db key = some ⟨.string json, t⟩ → ∀ tag ∈ json.tags,
    ∃ members, TagSet later tag members db ∧ key ∈ members

theorem Indexed.empty (later : Time) : Indexed later (fun _ => none : Database V) where
  sets := fun _ => ⟨[], Or.inl ⟨rfl, rfl⟩⟩
  covers := fun _ _ _ h => by cases h

theorem Indexed.insert (h : Indexed later db) (hkey : ∀ tag, key ≠ tagKey tag)
    {json : EntryJson V} {t : Option ℤ}
    (hjson : ∀ tag ∈ json.tags, ∃ members, TagSet later tag members db ∧ key ∈ members) :
    Indexed later (Redis.insert db key ⟨.string json, t⟩) := by
  have hframe : ∀ tag, Redis.insert db key ⟨.string json, t⟩ (tagKey tag) = db (tagKey tag) :=
    fun tag => Redis.insert_of_ne (Ne.symm (hkey tag))
  refine ⟨fun tag => ?_, fun key' json' t' hdb tag htag => ?_⟩
  · obtain ⟨members, hmembers⟩ := h.sets tag
    exact ⟨members, hmembers.congr (hframe tag)⟩
  · have hcovered : ∃ members, TagSet later tag members db ∧ key' ∈ members := by
      by_cases hk : key' = key
      · subst hk
        rw [Redis.insert_self, Option.some.injEq, Record.mk.injEq, Stored.string.injEq] at hdb
        exact hjson tag (hdb.1 ▸ htag)
      · rw [Redis.insert_of_ne hk] at hdb
        exact h.covers key' json' t' hdb tag htag
    obtain ⟨members, hmembers, hmem⟩ := hcovered
    exact ⟨members, hmembers.congr (hframe tag), hmem⟩

theorem Indexed.del (h : Indexed later db) (hkey : ∀ tag, key ≠ tagKey tag) (now : Time) :
    Indexed later (Redis.exec now db (.del [key])).1 := by
  have hframe : ∀ key', key' ≠ key → (Redis.exec now db (.del [key])).1 key' = db key' := by
    intro key' hne
    rw [Redis.exec_del, if_neg fun hmem => hne (List.mem_singleton.mp hmem)]
  refine ⟨fun tag => ?_, fun key' json t hdb tag htag => ?_⟩
  · obtain ⟨members, hmembers⟩ := h.sets tag
    exact ⟨members, hmembers.congr (hframe _ (Ne.symm (hkey tag)))⟩
  · by_cases hk : key' = key
    · rw [Redis.exec_del, if_pos (List.mem_singleton.mpr hk)] at hdb
      cases hdb
    · rw [hframe key' hk] at hdb
      obtain ⟨members, hmembers, hmem⟩ := h.covers key' json t hdb tag htag
      exact ⟨members, hmembers.congr (hframe _ (Ne.symm (hkey tag))), hmem⟩

theorem Indexed.setTags (h : Indexed later db) (hkey : ∀ tag, key ≠ tagKey tag)
    (hclock : ∀ i, clock i ≤ later) {seconds : JsNumber}
    (hseconds : ∀ i b, Redis.expireTime (clock i) seconds = some b →
      (clock i).val < b ∧ later.val ≤ b)
    {tags : List String} {json : EntryJson V} (hjson : json.tags = tags) (mode : SetMode) (i : ℕ)
    (now : Time) :
    Indexed later (Programs.run Redis.exec clock faultless i (Program.each (tags.flatMap fun tag =>
      [.sadd (tagKey tag) key, .expire (tagKey tag) seconds]) (.ret ()) : RedisProgram V Unit)
      (Redis.exec now db (.set key json mode)).1).1 := by
  set stored := (Redis.exec now db (.set key json mode)).1 with hstored
  set after := (Programs.run Redis.exec clock faultless i (Program.each (tags.flatMap fun tag =>
    [.sadd (tagKey tag) key, .expire (tagKey tag) seconds]) (.ret ()) : RedisProgram V Unit)
    stored).1 with hafter
  have hset : ∀ key', key' ≠ key → stored key' = db key' := fun key' hne =>
    Redis.exec_frame now db (fun hk : key = key' => hne hk.symm)
  have hmembers : ∀ tag members, TagSet later tag members db →
      TagSet later tag (if tag ∈ tags then addMember key members else members) after :=
    fun tag members hmembers => (hmembers.congr (hset _ (Ne.symm (hkey tag)))).run_setTags hclock
      hseconds key tags i
  refine ⟨fun tag => ?_, fun key' json' t hdb tag htag => ?_⟩
  · obtain ⟨members, hbefore⟩ := h.sets tag
    exact ⟨_, hmembers tag members hbefore⟩
  · -- the documents are those of the `SET`, or were there before
    have hsame : after key' = stored key' := by
      refine Redis.run_frame (p := Program.each (tags.flatMap fun tag =>
        [.sadd (tagKey tag) key, .expire (tagKey tag) seconds]) (.ret ()))
        (Program.Meets.each (fun c hc => ?_) trivial) clock faultless i stored
      obtain ⟨tag', -, hc⟩ := List.mem_flatMap.mp hc
      have hne : tagKey tag' ≠ key' := by
        intro hk
        obtain ⟨members, hbefore⟩ := h.sets tag'
        exact (hmembers tag' members hbefore).ne_string json' t (hk ▸ hdb)
      simp only [List.mem_cons, List.not_mem_nil, or_false] at hc
      rcases hc with rfl | rfl <;> exact hne
    rw [hsame] at hdb
    rcases Redis.exec_string_cases hdb with ⟨mode', heq⟩ | hold | ⟨-, t', hold⟩
    · obtain ⟨rfl, rfl, -⟩ := Command.set.inj heq
      obtain ⟨members, hbefore⟩ := h.sets tag
      have hbetween := hmembers tag members hbefore
      rw [if_pos (hjson ▸ htag)] at hbetween
      exact ⟨_, hbetween, mem_addMember key members⟩
    all_goals
      have hthere : ∃ t, db key' = some ⟨.string json', t⟩ := by
        first
        | exact ⟨t, hold⟩
        | exact ⟨t', (Redis.find_eq_some_iff.mp hold).1⟩
      obtain ⟨t'', hthere⟩ := hthere
      obtain ⟨members, hbefore, hmem⟩ := h.covers key' json' t'' hthere tag htag
      refine ⟨_, hmembers tag members hbefore, ?_⟩
      split
      · exact mem_addMember_of_mem key hmem
      · exact hmem

theorem run_get_cases (clock : Clock) (key : String) (db : Database V) :
    (Programs.run Redis.exec clock faultless 0 (RedisCacheRepository.get key) db).1 = db ∨
      (Programs.run Redis.exec clock faultless 0 (RedisCacheRepository.get key) db).1 =
        (Redis.exec (clock 2) db (.del [key])).1 ∨
      ∃ json t, db key = some ⟨.string json, t⟩ ∧
        ∃ t', (Programs.run Redis.exec clock faultless 0 (RedisCacheRepository.get key) db).1 =
          Redis.insert db key ⟨.string (.stringify json.restore.registerHit), t'⟩ := by
  simp only [RedisCacheRepository.get, Programs.run, Programs.attempt, faultless, Redis.exec]
  cases hfind : Redis.find db (clock 0) key with
  | none => exact Or.inl rfl
  | some record =>
    obtain ⟨json | members, t⟩ := record
    · simp only [RedisCacheRepository.serve, Programs.run]
      by_cases hexpired : json.restore.isExpired (clock 1) = true
      · simp only [hexpired, ↓reduceIte]
        exact Or.inr (Or.inl rfl)
      · simp only [hexpired, Bool.false_eq_true, ↓reduceIte]
        exact Or.inr (Or.inr ⟨json, t, (Redis.find_eq_some_iff.mp hfind).1, _, rfl⟩)
    · exact Or.inl rfl

theorem Indexed.step {client : Client} {e : RedisEvent V} {ttl : JsNumber}
    (h : Indexed later (client.view db)) (hkey : ∀ tag, key ≠ tagKey tag) (hspares : SparesSets ttl)
    (hop : e.op.On key) (hstores : e.op.StoresFor config ttl) (htime : e.InTime config later) :
    Indexed later (client.view (RedisCacheRepository.step client config db e)) := by
  rw [view_step]
  obtain ⟨hover, hlasts⟩ := htime
  obtain ⟨op, clock⟩ := e
  cases op with
  | get key' =>
    obtain rfl : key' = key := hop
    rw [RedisOp.program, Programs.run_map_fst]
    rcases run_get_cases clock key' (client.view db) with hsame | hdel | ⟨json, t, hdb, t', hset⟩
    · rwa [hsame]
    · rw [hdel]
      exact h.del hkey _
    · rw [hset]
      exact h.insert hkey (h.covers key' json t hdb)
  | delete key' =>
    obtain rfl : key' = key := hop
    rw [RedisOp.program, Programs.run_map_fst]
    exact h.del hkey (clock 0)
  | set key' value options =>
    obtain rfl : key' = key := hop
    obtain ⟨json, mode, hjson, hrun⟩ := run_set_eq config clock key' value options (client.view db)
    obtain rfl : options.ttlOr (.ofNat config.cacheDefaultTtl) = ttl := hstores
    rw [RedisOp.program, hrun]
    exact h.setTags hkey hover (expireTime_of_lasts hlasts hspares) hjson mode 2 _
  | mset entries => exact hop.elim
  | deleteByTags tags => exact hop.elim

/-- Calls on keys of callers that are no names of tag sets keep the entries indexed. -/
theorem Indexed.run {client : Client} {events : List (RedisEvent V)}
    (h : Indexed later (client.view db))
    (hevents : ∀ e ∈ events, ∃ key ttl, (∀ tag, key ≠ tagKey tag) ∧ SparesSets ttl ∧
      e.op.On key ∧ e.op.StoresFor config ttl ∧ e.InTime config later) :
    Indexed later (client.view
      (Runs.run (RedisCacheRepository.step client config) db events)) := by
  induction events generalizing db with
  | nil => exact h
  | cons e rest ih =>
    obtain ⟨key, ttl, hkey, hspares, hop, hstores, htime⟩ := hevents e List.mem_cons_self
    exact ih (h.step hkey hspares hop hstores htime) fun e' he' =>
      hevents e' (List.mem_cons_of_mem e he')

end Calls

/-- A set whose time to live has been over for a minute deletes the tag sets it has added its key
to. -/
theorem not_tagSetsKept_of_past (client : Client) (config : Config) {key : String}
    {ttl : JsNumber} (hkey : ∀ tag, key ≠ tagKey tag) {now : Time} {t : ℤ}
    (ht : Redis.expireTime now (ttl.plus 60) = some t) (hpast : t ≤ now.val) (value : V) :
    ∃ e : RedisEvent V, e.op.On key ∧ e.op.StoresFor config ttl ∧
      ¬ TagSetsKept config key e (client.view fun _ => none)
        (client.view (RedisCacheRepository.step client config (fun _ => none) e)) := by
  refine ⟨⟨.set key value ⟨some ttl, some ["t"], none, false⟩, fun _ => now⟩, rfl, rfl, fun h => ?_⟩
  have htime : RedisEvent.InTime config now
      (⟨.set key value ⟨some ttl, some ["t"], none, false⟩, fun _ => now⟩ : RedisEvent V) := by
    refine ⟨fun _ => le_rfl, fun _ t' ht' => ?_⟩
    exact (of_decide_eq_true (Option.filter_eq_some_iff.mp ht').2).le
  have hafter := h.tagged "t" (List.mem_singleton_self "t") now htime [] (Or.inl ⟨rfl, rfl⟩)
  obtain ⟨json, mode, -, hrun⟩ := run_set_eq config (fun _ => now) key value
    ⟨some ttl, some ["t"], none, false⟩ (client.view fun _ => none)
  rw [view_step, RedisOp.program, hrun] at hafter
  set stored := (Redis.exec now (client.view fun _ => none) (.set key json mode)).1
  have hstored : stored (tagKey "t") = none := Redis.exec_frame now _ (hkey "t")
  have hadded : (Redis.exec now stored (.sadd (tagKey "t") key)).1 =
      Redis.insert stored (tagKey "t") ⟨.set [key], none⟩ := by
    have hnone : Redis.find stored now (tagKey "t") = none := by
      rw [Redis.find, hstored]
      rfl
    simp only [Redis.exec, hnone]
  have hgone : (Programs.run Redis.exec (fun _ => now) faultless 2
      (Program.each (["t"].flatMap fun tag => [.sadd (tagKey tag) key,
        .expire (tagKey tag) (ttl.plus 60)]) (.ret ())) stored).1 (tagKey "t") = none := by
    change (Redis.exec now (Redis.exec now stored (.sadd (tagKey "t") key)).1
      (.expire (tagKey "t") (ttl.plus 60))).1 (tagKey "t") = none
    have hfind : Redis.find (Redis.insert stored (tagKey "t") ⟨.set [key], none⟩) now (tagKey "t") =
        some ⟨.set [key], none⟩ := Redis.find_eq_some_iff.mpr ⟨Redis.insert_self, rfl⟩
    rw [hadded]
    simp only [Redis.exec, ht, hfind, hpast, ↓reduceIte, Redis.remove_self]
  rcases hafter with ⟨-, hnil⟩ | ⟨t', hset, -⟩
  · cases hnil
  · cases hgone.symm.trans hset

/-- For every time to live the calls on an accepted key leave every tag set alone, but for the
key they add, exactly when the key is not the name of a tag set and `EXPIRE` does not delete the
tag sets. And as long as every call of a run is one of these, every entry is in the sets of its
tags, and invalidating any of them deletes it. -/
theorem RedisCacheRepository.tagSetsKept_iff [Inhabited V] (client : Client) (config : Config) :
    (∀ key, CacheKey.Accepted key → ∀ ttl,
      ((∀ (db : Database V) (e : RedisEvent V), e.op.On key → e.op.StoresFor config ttl →
          TagSetsKept config key e (client.view db) (client.view (step client config db e))) ↔
        (∀ tag, key ≠ tagKey tag) ∧ SparesSets ttl)) ∧
    (∀ (db : Database V) (later : Time) (events : List (RedisEvent V)),
      Indexed later (client.view db) →
      (∀ e ∈ events, ∃ key ttl, CacheKey.Accepted key ∧ (∀ tag, key ≠ tagKey tag) ∧
        SparesSets ttl ∧ e.op.On key ∧ e.op.StoresFor config ttl ∧ e.InTime config later) →
      ∀ key json t tag,
        client.view (Runs.run (step client config) db events) key = some ⟨.string json, t⟩ →
        tag ∈ json.tags →
        (∃ members, TagSet later tag members
          (client.view (Runs.run (step client config) db events)) ∧ key ∈ members) ∧
        ∀ clock : Clock, clock 0 ≤ later →
          client.view (step client config (Runs.run (step client config) db events)
            ⟨.deleteByTags [tag], clock⟩) key = none) := by
  constructor
  · intro key _ ttl
    constructor
    · intro hkept
      have hkey : ∀ tag, key ≠ tagKey tag := by
        intro tag hk
        have hsame := (hkept (Redis.insert (fun _ => none) (client.keyPrefix ++ key)
          ⟨.set [], none⟩) ⟨.delete key, fun _ => ⟨1, by decide⟩⟩ rfl trivial).others tag
            List.not_mem_nil
        rw [view_step, ← hk, Client.view_insert, Redis.insert_self, RedisOp.program,
          Programs.run_map_fst] at hsame
        rw [run_delete_self] at hsame
        cases hsame
      refine ⟨hkey, fun now t ht => ?_⟩
      by_contra hpast
      obtain ⟨e, hop, hstores, hnot⟩ := not_tagSetsKept_of_past client config
        hkey ht (not_lt.mp hpast) (default : V)
      exact hnot (hkept _ e hop hstores)
    · rintro ⟨hkey, hspares⟩ db e hop hstores
      exact tagSetsKept_step client hkey hspares hop hstores db
  · intro db later events hindexed hevents key json t tag hstored htag
    have hafter := hindexed.run fun e he => by
      obtain ⟨key, ttl, -, hrest⟩ := hevents e he
      exact ⟨key, ttl, hrest⟩
    obtain ⟨members, hmembers, hmem⟩ := hafter.covers key json t hstored tag htag
    refine ⟨⟨members, hmembers, hmem⟩, fun clock hclock => ?_⟩
    obtain ⟨t', hfind⟩ := hmembers.find_of_mem hmem hclock
    rw [view_step, RedisOp.program, Programs.run_map_fst]
    exact run_deleteByTags_eq_none hfind hmem

theorem sparesSets_ofNat (n : ℕ) : SparesSets (.ofNat n) := by
  intro now t ht
  have hcast : (n : ℚ) + 60 = ((n + 60 : ℕ) : ℚ) := by
    push_cast
    rfl
  simp only [JsNumber.ofNat, JsNumber.plus, Redis.expireTime, hcast, Rat.num_natCast] at ht
  obtain ⟨-, heq⟩ := Option.ite_none_right_eq_some.mp ht
  rw [← Option.some.inj heq]
  omega

theorem CacheKey.accepted_a : CacheKey.Accepted "a" := ⟨"a", by decide +kernel⟩

theorem inTime_setTagged :
    (⟨.set "a" 7 (.tagged 60 ["t"]), fun _ => ⟨1000, by decide⟩⟩ : RedisEvent ℕ).InTime
      ⟨1, 60, by decide, by decide⟩ ⟨5000, by decide⟩ := by
  refine ⟨fun _ => Subtype.mk_le_mk.mpr (by decide), fun _ t ht => ?_⟩
  have hdeadline : Redis.setDeadline ⟨1000, by decide⟩ ((JsNumber.ofNat 60).plus 60) =
      some 121000 := by decide +kernel
  obtain rfl : 121000 = t := Option.some.inj (hdeadline.symm.trans ht)
  decide

/-- An entry set, read and left alone by the deletion of another goes with its tag. -/
theorem RedisCacheRepository.tagSetsKept_iff_a :
    let client : Client := ⟨"edgecache:"⟩
    let config : Config := ⟨1, 60, by decide, by decide⟩
    let events : List (RedisEvent ℕ) :=
      [⟨.set "a" 7 (.tagged 60 ["t"]), fun _ => ⟨1000, by decide⟩⟩,
        ⟨.get "a", fun _ => ⟨2000, by decide⟩⟩, ⟨.delete "b", fun _ => ⟨3000, by decide⟩⟩]
    let db := Runs.run (step client config) (fun _ => none) events
    (∀ (db : Database ℕ) (e : RedisEvent ℕ), e.op.On "a" → e.op.StoresFor config (.ofNat 60) →
      TagSetsKept config "a" e (client.view db) (client.view (step client config db e))) ∧
    client.view (step client config db
      ⟨.deleteByTags ["t"], fun _ => ⟨4000, by decide⟩⟩) "a" = none := by
  intro client config events db
  have hspares : ∀ key : String, key.length < 17 → ∀ tag, key ≠ tagKey tag :=
    fun key hlength tag => Ne.symm (tagKey_ne_of_length_lt hlength)
  obtain ⟨hcalls, hruns⟩ := tagSetsKept_iff (V := ℕ) client config
  refine ⟨(hcalls "a" CacheKey.accepted_a (.ofNat 60)).mpr
    ⟨hspares "a" (by decide), sparesSets_ofNat 60⟩, ?_⟩
  have hstored : client.view db "a" = some ⟨.string (.stringify (CacheEntry.registerHit
      (.create ⟨1000, by decide⟩ "a" 7 (.ofNat 60) ["t"] []))), some 61000⟩ := by decide +kernel
  refine (hruns (fun _ => none) ⟨5000, by decide⟩ events (Indexed.empty _) ?_ "a" _ _ "t" hstored
    (List.mem_singleton_self "t")).2 _ (Subtype.mk_le_mk.mpr (by decide))
  intro e he
  simp only [events, List.mem_cons, List.not_mem_nil, or_false] at he
  rcases he with rfl | rfl | rfl
  · exact ⟨"a", .ofNat 60, CacheKey.accepted_a, hspares "a" (by decide), sparesSets_ofNat 60, rfl,
      rfl, inTime_setTagged⟩
  · exact ⟨"a", .ofNat 60, CacheKey.accepted_a, hspares "a" (by decide), sparesSets_ofNat 60, rfl,
      trivial, fun _ => Subtype.mk_le_mk.mpr (by decide), trivial⟩
  · exact ⟨"b", .ofNat 60, ⟨"b", by decide +kernel⟩, hspares "b" (by decide), sparesSets_ofNat 60,
      rfl, trivial, fun _ => Subtype.mk_le_mk.mpr (by decide), trivial⟩

/-- The name of a tag set is accepted as a key, and after its deletion the tag reaches nothing. -/
theorem RedisCacheRepository.not_tagSetsKept_of_tagKey :
    ¬ ∀ events : List (RedisEvent ℕ),
      (∀ e ∈ events, ∃ key, CacheKey.Accepted key ∧ e.op.On key ∧
        e.InTime ⟨1, 60, by decide, by decide⟩ ⟨5000, by decide⟩) →
      Client.view ⟨"edgecache:"⟩ (step ⟨"edgecache:"⟩ ⟨1, 60, by decide, by decide⟩
        (Runs.run (step ⟨"edgecache:"⟩ ⟨1, 60, by decide, by decide⟩) (fun _ => none) events)
        ⟨.deleteByTags ["t"], fun _ => ⟨4000, by decide⟩⟩) "a" = none := by
  intro hall
  have hgone := hall [⟨.set "a" 7 (.tagged 60 ["t"]), fun _ => ⟨1000, by decide⟩⟩,
    ⟨.delete "__edgecache:tags:t", fun _ => ⟨2000, by decide⟩⟩] (by
      intro e he
      simp only [List.mem_cons, List.not_mem_nil, or_false] at he
      rcases he with rfl | rfl
      · exact ⟨"a", CacheKey.accepted_a, rfl, inTime_setTagged⟩
      · exact ⟨"__edgecache:tags:t", ⟨"__edgecache:tags:t", by decide +kernel⟩, rfl,
          fun _ => Subtype.mk_le_mk.mpr (by decide), trivial⟩)
  revert hgone
  apply ne_of_eq_of_ne (b := some ⟨.string (.stringify
    (.create ⟨1000, by decide⟩ "a" 7 (.ofNat 60) ["t"] [])), some 61000⟩)
  · decide +kernel
  · exact Option.some_ne_none _

end EdgeCache
