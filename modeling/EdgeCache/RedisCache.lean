import EdgeCache.Library.Programs
import EdgeCache.Redis

/-!
`RedisCacheRepository`, as programs that issue Redis commands. The client puts its key
prefix before the keys of every command, but not before the members of a set. A
command that fails makes the awaiting method throw into its handler; a pipeline
resolves whatever becomes of its commands. The methods that scan or ask for statistics
follow apart.
-/
namespace EdgeCache

open Programs (Program)

variable {V : Type}

/-! ### The client -/

def Command.prefixed (keyPrefix : String) : Command V → Command V
  | .get key => .get (keyPrefix ++ key)
  | .set key json mode => .set (keyPrefix ++ key) json mode
  | .del keys => .del (keys.map (keyPrefix ++ ·))
  | .sadd key member => .sadd (keyPrefix ++ key) member
  | .expire key seconds => .expire (keyPrefix ++ key) seconds
  | .smembers key => .smembers (keyPrefix ++ key)
  | .exists_ key => .exists_ (keyPrefix ++ key)
  | .mget keys => .mget (keys.map (keyPrefix ++ ·))
  | .flushdb => .flushdb

structure Client where
  keyPrefix : String

namespace Client

def send (client : Client) (now : Time) (db : Database V) (c : Command V) :
    Database V × Option (Reply V) :=
  Redis.exec now db (c.prefixed client.keyPrefix)

/-- The database as the client sees it. -/
def view (client : Client) (db : Database V) : Database V := fun key => db (client.keyPrefix ++ key)

theorem append_inj (client : Client) {key key' : String} :
    client.keyPrefix ++ key = client.keyPrefix ++ key' ↔ key = key' :=
  String.append_right_inj client.keyPrefix

theorem find_view (client : Client) (db : Database V) (now : Time) (key : String) :
    Redis.find (client.view db) now key = Redis.find db now (client.keyPrefix ++ key) := rfl

theorem view_insert (client : Client) (db : Database V) (key : String) (record : Record V) :
    client.view (Redis.insert db (client.keyPrefix ++ key) record) =
      Redis.insert (client.view db) key record := by
  funext key'
  by_cases hk : key' = key
  · simp [view, hk]
  · rw [Redis.insert_of_ne hk, view, Redis.insert_of_ne (mt client.append_inj.mp hk)]
    rfl

theorem view_remove (client : Client) (db : Database V) (key : String) :
    client.view (Redis.remove db (client.keyPrefix ++ key)) =
      Redis.remove (client.view db) key := by
  funext key'
  by_cases hk : key' = key
  · simp [view, hk]
  · rw [Redis.remove_of_ne hk, view, Redis.remove_of_ne (mt client.append_inj.mp hk)]
    rfl

theorem view_update (client : Client) (db : Database V) (key : String) (before : Option (Record V)) :
    client.view (Function.update db (client.keyPrefix ++ key) before) =
      Function.update (client.view db) key before := by
  cases before with
  | none => exact client.view_remove db key
  | some record => exact client.view_insert db key record

theorem view_foldl_delete (client : Client) (now : Time) (keys : List String)
    (state : Database V × ℕ) :
    client.view ((keys.map (client.keyPrefix ++ ·)).foldl (Redis.delete now) state).1 =
        (keys.foldl (Redis.delete now) (client.view state.1, state.2)).1 ∧
      ((keys.map (client.keyPrefix ++ ·)).foldl (Redis.delete now) state).2 =
        (keys.foldl (Redis.delete now) (client.view state.1, state.2)).2 := by
  induction keys generalizing state with
  | nil => exact ⟨rfl, rfl⟩
  | cons key rest ih =>
    have hdelete : (client.view (Redis.delete now state (client.keyPrefix ++ key)).1,
        (Redis.delete now state (client.keyPrefix ++ key)).2) =
        Redis.delete now (client.view state.1, state.2) key := by
      rw [Redis.delete, Redis.delete, view_remove, find_view]
    rw [List.map_cons, List.foldl_cons, List.foldl_cons, ← hdelete]
    exact ih _

/-- What a client does through its prefix is what it would do to its own view. -/
theorem view_send (client : Client) (now : Time) (db : Database V) (c : Command V) :
    client.view (client.send now db c).1 = (Redis.exec now (client.view db) c).1 ∧
      (client.send now db c).2 = (Redis.exec now (client.view db) c).2 := by
  unfold send Command.prefixed Redis.exec
  cases c with
  | get key =>
    simp only [find_view]
    split <;> exact ⟨rfl, rfl⟩
  | set key json mode =>
    cases mode with
    | ex seconds =>
      simp only
      split
      · exact ⟨rfl, rfl⟩
      · exact ⟨view_insert .., rfl⟩
    | exNx seconds =>
      simp only [find_view]
      split
      · exact ⟨rfl, rfl⟩
      · by_cases hlive : (Redis.find db now (client.keyPrefix ++ key)).isSome = true
        · simp only [hlive, ↓reduceIte, and_self]
        · simp only [hlive, Bool.false_eq_true, ↓reduceIte, and_true]
          exact view_insert ..
    | keepTtl => exact ⟨view_insert .., rfl⟩
  | del keys =>
    obtain ⟨hview, hcount⟩ := client.view_foldl_delete now keys (db, 0)
    exact ⟨hview, congrArg (fun n => some (Reply.integer n)) hcount⟩
  | sadd key member =>
    simp only [find_view]
    split
    · exact ⟨view_insert .., rfl⟩
    · split
      · exact ⟨rfl, rfl⟩
      · exact ⟨view_insert .., rfl⟩
    · exact ⟨rfl, rfl⟩
  | expire key seconds =>
    simp only [find_view]
    split
    · exact ⟨rfl, rfl⟩
    · split
      · exact ⟨rfl, rfl⟩
      · split
        · exact ⟨view_remove .., rfl⟩
        · exact ⟨view_insert .., rfl⟩
  | smembers key =>
    simp only [find_view]
    split <;> exact ⟨rfl, rfl⟩
  | exists_ key => exact ⟨rfl, rfl⟩
  | mget keys =>
    refine ⟨rfl, ?_⟩
    simp only [List.map_map, Function.comp_def, find_view]
  | flushdb => exact ⟨rfl, rfl⟩

/-- All a client writes has its prefix, unless it empties the database. -/
theorem send_frame (client : Client) {name : String} (hname : ∀ key, name ≠ client.keyPrefix ++ key)
    (now : Time) (db : Database V) {c : Command V} (hc : c ≠ .flushdb) :
    (client.send now db c).1 name = db name := by
  refine Redis.exec_frame now db fun hwrites => ?_
  cases c with
  | set key json mode => exact hname key (Eq.symm hwrites)
  | sadd key member => exact hname key (Eq.symm hwrites)
  | expire key seconds => exact hname key (Eq.symm hwrites)
  | del keys =>
    obtain ⟨key, -, hkey⟩ := List.mem_map.mp hwrites
    exact hname key hkey.symm
  | flushdb => exact hc rfl
  | _ => exact hwrites

end Client

/-! ### The repository -/

/-- `__edgecache:tags:${tag}` -/
def tagKey (tag : String) : String := "__edgecache:tags:" ++ tag

theorem tagKey_inj {tag tag' : String} : tagKey tag = tagKey tag' ↔ tag = tag' :=
  String.append_right_inj "__edgecache:tags:"

theorem tagKey_ne_of_length_lt {tag key : String} (h : key.length < 17) : tagKey tag ≠ key := by
  intro heq
  subst heq
  have hleading : ∀ p : String, p.length ≤ (p ++ tag).length := fun p => by
    rw [String.length_append]
    exact Nat.le_add_right ..
  have hlength : 17 ≤ "__edgecache:tags:".length := by decide
  exact absurd h (not_lt.mpr (hlength.trans (hleading "__edgecache:tags:")))

/-- Slices of `size` elements, the last one shorter. -/
def chunk {α : Type} (array : List α) (size : ℕ) : List (List α) :=
  (List.range ((array.length + (size - 1)) / size)).map fun i => (array.drop (i * size)).take size

/-- `ttl + seconds` -/
def JsNumber.plus (ttl : JsNumber) (seconds : ℚ) : JsNumber :=
  match ttl with
  | .finite q => .finite (q + seconds)
  | x => x

abbrev RedisProgram (V α : Type) := Program (Command V) (Reply V) Time α

namespace RedisCacheRepository

/-- An entry that has expired is deleted, another one written back with its hit. -/
def serve (key : String) (json : EntryJson V) : RedisProgram V (Option (CacheEntry V)) :=
  let entry := json.restore
  .now fun now =>
    if entry.isExpired now then .call (.del [key]) fun _ => .ret none
    else
      let updated := entry.registerHit
      .call (.set key (.stringify updated) .keepTtl) fun
        | some _ => .ret (some updated)
        | none => .ret none

def get (key : String) : RedisProgram V (Option (CacheEntry V)) :=
  .call (.get key) fun
    | some (.string json) => serve key json
    | _ => .ret none

def setCommands (key : String) (entry : CacheEntry V) (ifNotExists : Bool) : List (Command V) :=
  .set key (.stringify entry) (if ifNotExists then .exNx entry.ttl else .ex entry.ttl) ::
    entry.tags.flatMap fun tag =>
      [.sadd (tagKey tag) key, .expire (tagKey tag) (entry.ttl.plus 60)]

def set (config : Config) (key : String) (value : V) (options : SetOptions) :
    RedisProgram V Unit :=
  .now fun now =>
    let entry := CacheEntry.create now key value (options.ttlOr (.ofNat config.cacheDefaultTtl))
      options.tagList options.metadataList
    .each (setCommands key entry options.ifNotExists) (.ret ())

def delete (key : String) : RedisProgram V Bool :=
  .call (.del [key]) fun
    | some (.integer n) => .ret (0 < n)
    | _ => .ret false

/-- The loop over the batches of one tag; a failure ends the whole call. -/
def deleteBatches : List (List String) → ℕ → (ℕ → RedisProgram V ℕ) → RedisProgram V ℕ
  | [], count, next => next count
  | batch :: rest, count, next =>
    if 0 < batch.length then
      .call (.del batch) fun
        | some (.integer n) => deleteBatches rest (count + n) next
        | _ => .ret count
    else deleteBatches rest count next

def deleteTags : List String → ℕ → RedisProgram V ℕ
  | [], count => .ret count
  | tag :: rest, count =>
    .call (.smembers (tagKey tag)) fun
      | some (.members keys) =>
        deleteBatches (chunk keys 100) count fun count =>
          .call (.del [tagKey tag]) fun
            | some _ => deleteTags rest count
            | none => .ret count
      | _ => .ret count

def deleteByTags (tags : List String) : RedisProgram V ℕ := deleteTags tags 0

def exists_ (key : String) : RedisProgram V Bool :=
  .call (.exists_ key) fun
    | some (.integer n) => .ret (0 < n)
    | _ => .ret false

def flush : RedisProgram V Unit :=
  .call .flushdb fun
    | some _ => .ret ()
    | none => .throw

def mget (keys : List String) : RedisProgram V (List (Option (CacheEntry V))) :=
  .call (.mget keys) fun
    | some (.strings jsons) => .ret (jsons.map (·.map EntryJson.restore))
    | _ => .ret (keys.map fun _ => none)

def msetCommands (key : String) (entry : CacheEntry V) : List (Command V) :=
  .set key (.stringify entry) (.ex entry.ttl) ::
    entry.tags.map fun tag => .sadd (tagKey tag) key

/-- The pipeline is filled entry by entry and sent at the end. -/
def msetLoop (config : Config) :
    List (String × V × SetOptions) → List (Command V) → RedisProgram V Unit
  | [], pipeline => .each pipeline (.ret ())
  | (key, value, options) :: rest, pipeline =>
    .now fun now =>
      let entry := CacheEntry.create now key value
        (options.ttlOr (.ofNat config.cacheDefaultTtl)) options.tagList options.metadataList
      msetLoop config rest (pipeline ++ msetCommands key entry)

def mset (config : Config) (entries : List (String × V × SetOptions)) : RedisProgram V Unit :=
  msetLoop config entries []

/-! ### What the calls issue -/

section Meets

variable {read : Time → Prop} {reply : Command V → Reply V → Prop} {issue : Command V → Prop}

theorem get_meets_of_reply {key : String} {post : Option (CacheEntry V) → Prop}
    (hget : issue (.get key)) (hmiss : post none)
    (hexpired : ∀ json now, read now → reply (.get key) (.string json) →
      json.restore.isExpired now = true → issue (.del [key]))
    (hhit : ∀ json now, read now → reply (.get key) (.string json) →
      json.restore.isExpired now = false →
      issue (.set key (.stringify json.restore.registerHit) .keepTtl) ∧
        post (some json.restore.registerHit)) :
    (get key).Meets read reply issue post := by
  refine ⟨hget, fun r hr => ?_⟩
  rcases r with _ | (_ | _ | json | _ | _ | _)
  · exact hmiss
  · exact hmiss
  · exact hmiss
  · intro now hnow
    by_cases hpast : json.restore.isExpired now = true
    · simp only [hpast, ↓reduceIte]
      exact ⟨hexpired json now hnow (hr _ rfl) hpast, fun _ _ => hmiss⟩
    · simp only [hpast, Bool.false_eq_true, ↓reduceIte]
      obtain ⟨hset, hpost⟩ := hhit json now hnow (hr _ rfl) (Bool.not_eq_true _ ▸ hpast)
      refine ⟨hset, fun r _ => ?_⟩
      cases r with
      | none => exact hmiss
      | some _ => exact hpost
  · exact hmiss
  · exact hmiss
  · exact hmiss

theorem get_meets {key : String} {post : Option (CacheEntry V) → Prop} (hget : issue (.get key))
    (hdel : issue (.del [key])) (hmiss : post none)
    (hhit : ∀ json now, read now → reply (.get key) (.string json) →
      json.restore.isExpired now = false →
      issue (.set key (.stringify json.restore.registerHit) .keepTtl) ∧
        post (some json.restore.registerHit)) :
    (get key).Meets read reply issue post :=
  get_meets_of_reply hget hmiss (fun _ _ _ _ _ => hdel) hhit

theorem set_meets_of_mode {config : Config} {key : String} {value : V} {options : SetOptions}
    {post : Unit → Prop} (hpost : post ())
    (hset : ∀ now, read now → ∀ mode,
      (options.ifNotExists = true ∧ (∃ seconds, mode = .exNx seconds) ∨
        options.ifNotExists = false ∧ ∃ seconds, mode = .ex seconds) →
      issue (.set key (.stringify (.create now key value
        (options.ttlOr (.ofNat config.cacheDefaultTtl)) options.tagList options.metadataList))
        mode))
    (htags : ∀ tag ∈ options.tagList, issue (.sadd (tagKey tag) key) ∧
      ∀ seconds, issue (.expire (tagKey tag) seconds)) :
    (set config key value options).Meets read reply issue post := by
  intro now hnow
  refine Program.Meets.each (fun c hc => ?_) hpost
  rcases List.mem_cons.mp hc with rfl | hc
  · refine hset now hnow _ ?_
    split
    · next hnx => exact Or.inl ⟨hnx, _, rfl⟩
    · next hnx => exact Or.inr ⟨Bool.not_eq_true _ ▸ hnx, _, rfl⟩
  · obtain ⟨tag, htag, hc⟩ := List.mem_flatMap.mp hc
    obtain ⟨hadd, hexpire⟩ := htags tag htag
    simp only [List.mem_cons, List.not_mem_nil, or_false] at hc
    rcases hc with rfl | rfl
    · exact hadd
    · exact hexpire _

theorem set_meets {config : Config} {key : String} {value : V} {options : SetOptions}
    {post : Unit → Prop} (hpost : post ())
    (hset : ∀ now, read now → ∀ mode, mode ≠ .keepTtl → issue (.set key (.stringify
      (.create now key value (options.ttlOr (.ofNat config.cacheDefaultTtl)) options.tagList
        options.metadataList)) mode))
    (htags : ∀ tag ∈ options.tagList, issue (.sadd (tagKey tag) key) ∧
      ∀ seconds, issue (.expire (tagKey tag) seconds)) :
    (set config key value options).Meets read reply issue post := by
  refine set_meets_of_mode hpost (fun now hnow mode hmode => hset now hnow mode ?_) htags
  rcases hmode with ⟨-, _, rfl⟩ | ⟨-, _, rfl⟩ <;> exact fun h => by cases h

theorem delete_meets {key : String} {post : Bool → Prop} (hdel : issue (.del [key]))
    (hpost : ∀ b, post b) : (delete key : RedisProgram V Bool).Meets read reply issue post := by
  refine ⟨hdel, fun r _ => ?_⟩
  rcases r with _ | (_ | _ | _ | n | _ | _) <;> exact hpost _

theorem deleteBatches_meets {next : ℕ → RedisProgram V ℕ}
    (hnext : ∀ count, (next count).Meets read reply issue fun _ => True)
    {batches : List (List String)} (hdel : ∀ batch ∈ batches, issue (.del batch)) (count : ℕ) :
    (deleteBatches batches count next).Meets read reply issue fun _ => True := by
  induction batches generalizing count with
  | nil => exact hnext count
  | cons batch rest ih =>
    have hrest := ih fun batch' hbatch' => hdel batch' (List.mem_cons_of_mem batch hbatch')
    unfold deleteBatches
    split
    · refine ⟨hdel batch List.mem_cons_self, fun r _ => ?_⟩
      rcases r with _ | (_ | _ | _ | n | _ | _)
      case some.integer => exact hrest (count + n)
      all_goals trivial
    · exact hrest count

/-- An invalidation reads the sets of its tags, and deletes the members it is answered and the
sets. -/
theorem deleteTags_meets_of_reply {tags : List String}
    (hmembers : ∀ tag ∈ tags, issue (.smembers (tagKey tag)))
    (hbatch : ∀ tag ∈ tags, ∀ keys, reply (.smembers (tagKey tag)) (.members keys) →
      ∀ batch ∈ chunk keys 100, issue (.del batch))
    (hset : ∀ tag ∈ tags, issue (.del [tagKey tag])) (count : ℕ) :
    (deleteTags tags count).Meets read reply issue fun _ => True := by
  induction tags generalizing count with
  | nil => trivial
  | cons tag rest ih =>
    have hrest := ih (fun tag' h => hmembers tag' (List.mem_cons_of_mem tag h))
      (fun tag' h => hbatch tag' (List.mem_cons_of_mem tag h))
      fun tag' h => hset tag' (List.mem_cons_of_mem tag h)
    refine ⟨hmembers tag List.mem_cons_self, fun r hr => ?_⟩
    rcases r with _ | (_ | _ | _ | _ | keys | _)
    case some.members =>
      refine deleteBatches_meets (fun count => ?_) (hbatch tag List.mem_cons_self keys (hr _ rfl)) _
      refine ⟨hset tag List.mem_cons_self, fun r _ => ?_⟩
      cases r with
      | none => trivial
      | some _ => exact hrest count
    all_goals trivial

theorem deleteTags_meets (hmembers : ∀ tag, issue (.smembers (tagKey tag)))
    (hdel : ∀ keys, issue (.del keys)) (tags : List String) (count : ℕ) :
    (deleteTags tags count).Meets read reply issue fun _ => True :=
  deleteTags_meets_of_reply (fun tag _ => hmembers tag) (fun _ _ _ _ batch _ => hdel batch)
    (fun tag _ => hdel [tagKey tag]) count

end Meets

end RedisCacheRepository

/-- A program that does not empty the database writes only what has the client's prefix. -/
theorem Client.run_frame {α : Type} (client : Client) {p : RedisProgram V α}
    (hp : p.OnlyCalls (· ≠ .flushdb)) {name : String} (hname : ∀ key, name ≠ client.keyPrefix ++ key)
    (clock : Clock) (fault : ℕ → Programs.Fault) (i : ℕ) (db : Database V) :
    (Programs.run client.send clock fault i p db).1 name = db name := by
  have hserves : Programs.Serves (client.send (V := V)) (fun _ => True) (fun _ _ => True)
      (· ≠ .flushdb) (fun db' => db' name = db name) :=
    fun now db' c _ hsame hc => ⟨(client.send_frame hname now db' hc).trans hsame, fun _ _ => trivial⟩
  exact (Programs.run_meets hserves fault (fun _ => trivial) hp i rfl).1

/-- A program that does not write a key leaves it as it was. -/
theorem Redis.run_frame {α : Type} {key : String} {p : RedisProgram V α}
    (hp : p.OnlyCalls fun c => ¬ Redis.Writes key c) (clock : Clock) (fault : ℕ → Programs.Fault)
    (i : ℕ) (db : Database V) : (Programs.run Redis.exec clock fault i p db).1 key = db key := by
  have hserves : Programs.Serves (Redis.exec (V := V)) (fun _ => True) (fun _ _ => True)
      (fun c => ¬ Redis.Writes key c) (fun db' => db' key = db key) :=
    fun now db' c _ hsame hc => ⟨(Redis.exec_frame now db' hc).trans hsame, fun _ _ => trivial⟩
  exact (Programs.run_meets hserves fault (fun _ => trivial) hp i rfl).1

namespace RedisCacheRepository

/-! ### Calls that go through, taken at one reading of the clock -/

section AtOnce

variable {key : String} {now : Time} {db : Database V}

theorem run_get_of_missing (hfind : Redis.find db now key = none) :
    Programs.run Redis.exec (fun _ => now) Programs.faultless 0 (get key) db = (db, some none) := by
  simp [get, Programs.run, Programs.attempt, Programs.faultless, Redis.exec, hfind]

theorem run_get_of_fresh {json : EntryJson V} {expireAt : Option ℤ}
    (hfind : Redis.find db now key = some ⟨.string json, expireAt⟩)
    (hfresh : json.restore.isExpired now = false) :
    Programs.run Redis.exec (fun _ => now) Programs.faultless 0 (get key) db =
      (Redis.insert db key ⟨.string (.stringify json.restore.registerHit), expireAt⟩,
        some (some json.restore.registerHit)) := by
  simp [get, serve, Programs.run, Programs.attempt, Programs.faultless, Redis.exec, hfind, hfresh]

theorem tagCommands_onlyCalls {key' : String} {tags : List String}
    (htags : ∀ tag ∈ tags, tagKey tag ≠ key) (ttl : JsNumber) :
    (Program.each (tags.flatMap fun tag =>
      [Command.sadd (tagKey tag) key', .expire (tagKey tag) ttl])
        (.ret ()) : RedisProgram V Unit).OnlyCalls fun c => ¬ Redis.Writes key c := by
  refine Program.Meets.each (fun c hc => ?_) trivial
  obtain ⟨tag, htag, hc⟩ := List.mem_flatMap.mp hc
  simp only [List.mem_cons, List.not_mem_nil, or_false] at hc
  rcases hc with rfl | rfl <;> exact htags tag htag

theorem run_set_self (config : Config) (value : V) {options : SetOptions} {t : ℤ}
    (hnx : options.ifNotExists = false)
    (ht : Redis.setDeadline now (options.ttlOr (.ofNat config.cacheDefaultTtl)) = some t)
    (htags : ∀ tag ∈ options.tagList, tagKey tag ≠ key) :
    (Programs.run Redis.exec (fun _ => now) Programs.faultless 0
      (set config key value options) db).1 key =
        some ⟨.string (.stringify (.create now key value
          (options.ttlOr (.ofNat config.cacheDefaultTtl)) options.tagList options.metadataList)),
          some t⟩ := by
  simp only [set, setCommands, hnx, Bool.false_eq_true, ↓reduceIte, Program.each, Programs.run,
    Programs.attempt, Programs.faultless, Redis.exec, CacheEntry.create, ht]
  rw [Redis.run_frame (tagCommands_onlyCalls htags _), Redis.insert_self]

theorem run_delete_self :
    (Programs.run Redis.exec (fun _ => now) Programs.faultless 0 (delete key) db).1 key = none := by
  change (Redis.exec now db (.del [key])).1 key = none
  rw [Redis.exec_del, if_pos (List.mem_singleton_self key)]

end AtOnce

theorem get_onlyCalls_of_ne {key key' : String} (hne : key' ≠ key) :
    (get key' : RedisProgram V _).OnlyCalls fun c => ¬ Redis.Writes key c :=
  get_meets id (fun h => hne (List.mem_singleton.mp h).symm) trivial fun _ _ _ _ _ =>
    ⟨hne, trivial⟩

theorem set_onlyCalls_of_ne (config : Config) {key key' : String} (value : V)
    {options : SetOptions} (hne : key' ≠ key) (htags : ∀ tag ∈ options.tagList, tagKey tag ≠ key) :
    (set config key' value options).OnlyCalls fun c => ¬ Redis.Writes key c :=
  set_meets trivial (fun _ _ _ _ => hne) fun tag htag => ⟨htags tag htag, fun _ => htags tag htag⟩

theorem delete_onlyCalls_of_ne {key key' : String} (hne : key' ≠ key) :
    (delete key' : RedisProgram V _).OnlyCalls fun c => ¬ Redis.Writes key c :=
  delete_meets (fun h => hne (List.mem_singleton.mp h).symm) fun _ => trivial

end RedisCacheRepository

end EdgeCache
