import EdgeCache.LayeredConditional
import EdgeCache.RedisConfinement
import EdgeCache.RedisKeySpace
import Mathlib.Data.Set.Finite.Lattice

/-!
What `keys` lists. The server answers a scan with the names it has, the prefix of the client and
all, and with those of the tag sets; a read puts the prefix before the key it is given. Where
there is a prefix, no name that is listed can be read: what is read in its place would have a
longer name, and be listed itself.
-/
namespace EdgeCache

open Programs (Program faultless)

variable {V : Type}

theorem not_of_grows {α : Type} {P : α → Prop} {f : α → α} {size : α → ℕ} {bound : ℕ}
    (hclosed : ∀ a, P a → P (f a)) (hgrows : ∀ a, size a < size (f a))
    (hbound : ∀ a, P a → size a ≤ bound) (a : α) : ¬ P a := by
  induction hleft : bound - size a using Nat.strong_induction_on generalizing a with
  | h left ih =>
    intro ha
    have hnext := hbound (f a) (hclosed a ha)
    have hlarger := hgrows a
    exact ih (bound - size (f a)) (by omega) (f a) rfl (hclosed a ha)

theorem nodup_eraseDups {α : Type} [BEq α] [LawfulBEq α] (l : List α) : l.eraseDups.Nodup := by
  induction hlength : l.length using Nat.strong_induction_on generalizing l with
  | h length ih =>
    cases l with
    | nil => exact List.nodup_nil
    | cons a rest =>
      rw [List.eraseDups_cons, List.nodup_cons]
      have hshorter := List.length_filter_le (fun b => !b == a) rest
      rw [List.length_cons] at hlength
      refine ⟨fun hmem => ?_, ih _ (by omega) _ rfl⟩
      simp at hmem

/-! ### The names there are -/

def setKeys (events : List (RedisEvent V)) : List String :=
  events.flatMap fun e => match e.op with
    | .set key _ _ => [key]
    | _ => []

def setTagKeys (events : List (RedisEvent V)) : List String :=
  events.flatMap fun e => e.op.tags.map tagKey

namespace Redis

/-- Every document is under one of the keys, and every set under one of the tag keys. -/
structure Named (keys tagKeys : List String) (db : Database V) : Prop where
  documents : ∀ key json t, db key = some ⟨.string json, t⟩ → key ∈ keys
  sets : ∀ key members t, db key = some ⟨.set members, t⟩ → key ∈ tagKeys

theorem exec_set_members {now : Time} {db : Database V} {c : Command V} {key : String}
    {members : List String} {expireAt : Option ℤ}
    (h : (exec now db c).1 key = some ⟨.set members, expireAt⟩) :
    (∃ member, c = .sadd key member) ∨ ∃ members' t, db key = some ⟨.set members', t⟩ := by
  by_cases hwrites : Writes key c
  · cases c with
    | set key' json mode =>
      obtain rfl : key' = key := hwrites
      rcases exec_set_cases now db key' json mode with heq | ⟨t, heq⟩
      · exact Or.inr ⟨_, _, heq ▸ h⟩
      · simp [heq] at h
    | del keys =>
      have hmem : key ∈ keys := hwrites
      simp [exec_del, hmem] at h
    | sadd key' member =>
      obtain rfl : key' = key := hwrites
      exact Or.inl ⟨member, rfl⟩
    | expire key' seconds =>
      obtain rfl : key' = key := hwrites
      simp only [exec] at h
      split at h
      · exact Or.inr ⟨_, _, h⟩
      · split at h
        · exact Or.inr ⟨_, _, h⟩
        · next record hfind =>
          obtain ⟨value, t⟩ := record
          split at h
          · simp at h
          · simp only [insert_self, Option.some.injEq, Record.mk.injEq] at h
            obtain ⟨rfl, -⟩ := h
            exact Or.inr ⟨_, _, (find_eq_some_iff.mp hfind).1⟩
    | flushdb => simp [exec] at h
    | _ => exact hwrites.elim
  · rw [exec_frame now db hwrites] at h
    exact Or.inr ⟨_, _, h⟩

/-- The commands that bring no new name in. -/
def Names (keys tagKeys : List String) : Command V → Prop
  | .set key _ _ => key ∈ keys
  | .sadd key _ => key ∈ tagKeys
  | .flushdb => False
  | _ => True

variable {keys tagKeys : List String} {db : Database V}

theorem Named.exec (h : Named keys tagKeys db) (now : Time) {c : Command V}
    (hc : Names keys tagKeys c) : Named keys tagKeys (Redis.exec now db c).1 := by
  refine ⟨fun key json t hkey => ?_, fun key members t hkey => ?_⟩
  · rcases exec_string hkey with ⟨mode, rfl⟩ | ⟨t', hbefore⟩
    · exact hc
    · exact h.documents key json t' hbefore
  · rcases exec_set_members hkey with ⟨member, rfl⟩ | ⟨members', t', hbefore⟩
    · exact hc
    · exact h.sets key members' t' hbefore

/-- What a client reads is under one of the keys. -/
def Reads (keys : List String) : Command V → Reply V → Prop
  | .get key, .string _ => key ∈ keys
  | _, _ => True

theorem named_serves (client : Client) (keys tagKeys : List String) :
    Programs.Serves (client.send (V := V)) (fun _ => True) (Reads keys) (Names keys tagKeys)
      (fun db => Named keys tagKeys (client.view db)) := by
  intro now db c _ hdb hc
  obtain ⟨hview, hreply⟩ := client.view_send now db c
  dsimp only
  rw [hview, hreply]
  refine ⟨hdb.exec now hc, fun r hr => ?_⟩
  cases c with
  | get key =>
    cases r with
    | string json =>
      simp only [Redis.exec] at hr
      split at hr
      · cases hr
      · next json' t hfind => exact hdb.documents key json' t (find_eq_some_iff.mp hfind).1
      · cases hr
    | _ => trivial
  | _ => trivial

end Redis

namespace RedisCacheRepository

open Redis

/-- The database that `set`, `get` and `delete` build, each at readings of its own. -/
def built (client : Client) (config : Config) (events : List (RedisEvent V)) : Database V :=
  Runs.run (step client config) (fun _ => none) events

variable {client : Client} {config : Config} {keys tagKeys : List String} {db : Database V}
  {e : RedisEvent V} {key : String}

theorem named_step (hop : e.op.On key)
    (hkeys : ∀ key value options, e.op = .set key value options → key ∈ keys)
    (htags : ∀ tag ∈ e.op.tags, tagKey tag ∈ tagKeys)
    (h : Named keys tagKeys (client.view db)) :
    Named keys tagKeys (client.view (step client config db e)) := by
  have hserves := named_serves (V := V) client keys tagKeys
  obtain ⟨op, clock⟩ := e
  unfold step
  cases op with
  | get key' =>
    have hmeets : (get key' : RedisProgram V _).Meets (fun _ => True) (Reads keys)
        (Names keys tagKeys) fun _ => True :=
      get_meets trivial trivial trivial fun json now _ hreply _ => ⟨hreply, trivial⟩
    rw [RedisOp.program, Programs.run_map_fst]
    exact (Programs.run_meets hserves faultless (fun _ => trivial) hmeets 0 h).1
  | set key' value options =>
    have hmeets : (set config key' value options).Meets (fun _ => True) (Reads keys)
        (Names keys tagKeys) fun _ => True :=
      set_meets trivial (fun _ _ _ _ => hkeys key' value options rfl) fun tag htag =>
        ⟨htags tag htag, fun _ => trivial⟩
    exact (Programs.run_meets hserves faultless (fun _ => trivial) hmeets 0 h).1
  | delete key' =>
    have hmeets : (delete key' : RedisProgram V _).Meets (fun _ => True) (Reads keys)
        (Names keys tagKeys) fun _ => True := delete_meets trivial fun _ => trivial
    rw [RedisOp.program, Programs.run_map_fst]
    exact (Programs.run_meets hserves faultless (fun _ => trivial) hmeets 0 h).1
  | mset entries => exact hop.elim
  | deleteByTags tags => exact hop.elim

theorem step_foreign (hop : e.op.On key) {name : String} (hname : client.Foreign name) :
    step client config db e name = db name := by
  obtain ⟨op, clock⟩ := e
  unfold step
  cases op with
  | get key' =>
    rw [RedisOp.program, Programs.run_map_fst]
    refine client.run_frame (get_meets ?_ ?_ trivial fun _ _ _ _ _ => ⟨?_, trivial⟩) hname _ _ _ _
      <;> exact fun h => by cases h
  | set key' value options =>
    refine client.run_frame (set_meets trivial (fun _ _ _ _ => ?_) fun _ _ => ⟨?_, fun _ => ?_⟩)
      hname _ _ _ _ <;> exact fun h => by cases h
  | delete key' =>
    rw [RedisOp.program, Programs.run_map_fst]
    exact client.run_frame (delete_meets (fun h => by cases h) fun _ => trivial) hname _ _ _ _
  | mset entries => exact hop.elim
  | deleteByTags tags => exact hop.elim

/-- What has been built has the names of what has been set, and the client's prefix. -/
theorem named_built (client : Client) (config : Config) {events : List (RedisEvent V)}
    (hevents : ∀ e ∈ events, ∃ key, e.op.On key) :
    Named (setKeys events) (setTagKeys events) (client.view (built client config events)) ∧
      ∀ name, client.Foreign name → built client config events name = none := by
  have hguarded : Runs.Guarded (step client config) (fun _ e => (∃ key, e.op.On key) ∧
      (∀ key value options, e.op = .set key value options → key ∈ setKeys events) ∧
      ∀ tag ∈ e.op.tags, tagKey tag ∈ setTagKeys events) (fun _ => none) events := by
    refine Runs.guarded_of_forall (fun e he => ⟨hevents e he, fun key value options hop => ?_,
      fun tag htag => List.mem_flatMap.mpr ⟨e, he, List.mem_map_of_mem htag⟩⟩) _
    refine List.mem_flatMap.mpr ⟨e, he, ?_⟩
    rw [hop]
    exact List.mem_singleton_self key
  refine hguarded.invariant (I := fun db => Named (setKeys events) (setTagKeys events)
    (client.view db) ∧ ∀ name, client.Foreign name → db name = none) ?_
    ⟨⟨fun _ _ _ h => (by cases h), fun _ _ _ h => (by cases h)⟩, fun _ _ => rfl⟩
  intro db e hdb he
  obtain ⟨⟨key, hop⟩, hkeys, htags⟩ := he
  exact ⟨named_step hop hkeys htags hdb.1, fun name hname =>
    (step_foreign hop hname).trans (hdb.2 name hname)⟩

theorem exists_mem_of_live (client : Client) (config : Config) {events : List (RedisEvent V)}
    (hevents : ∀ e ∈ events, ∃ key, e.op.On key) {now : Time} {name : String}
    (hlive : (find (built client config events) now name).isSome = true) :
    ∃ key ∈ setKeys events ++ setTagKeys events, name = client.keyPrefix ++ key := by
  obtain ⟨hnamed, hforeign⟩ := named_built client config hevents
  obtain ⟨record, hrecord⟩ := Option.isSome_iff_exists.mp hlive
  obtain ⟨hdb, -⟩ := find_eq_some_iff.mp hrecord
  obtain ⟨key, rfl⟩ : ∃ key, name = client.keyPrefix ++ key := by
    by_contra hname
    rw [hforeign name fun key heq => hname ⟨key, heq⟩] at hdb
    cases hdb
  refine ⟨key, ?_, rfl⟩
  obtain ⟨json | members, t⟩ := record
  · exact List.mem_append_left _ (hnamed.documents key json t hdb)
  · exact List.mem_append_right _ (hnamed.sets key members t hdb)

theorem exists_length_le (client : Client) (config : Config) {events : List (RedisEvent V)}
    (hevents : ∀ e ∈ events, ∃ key, e.op.On key) :
    ∃ bound, ∀ now name, (find (built client config events) now name).isSome = true →
      name.length ≤ bound := by
  obtain ⟨bound, hbound⟩ :=
    ((List.finite_toSet (setKeys events ++ setTagKeys events)).image String.length).bddAbove
  refine ⟨client.keyPrefix.length + bound, fun now name hlive => ?_⟩
  obtain ⟨key, hmem, rfl⟩ := exists_mem_of_live client config hevents hlive
  rw [String.length_append]
  exact Nat.add_le_add_left (hbound (Set.mem_image_of_mem String.length hmem)) _

/-! ### The listing -/

/-- Redis answers the whole scan at one time, and a name that is there is visited by a turn. -/
structure Scans (env : Surroundings) (now : Time) (db : Database V) : Prop where
  sound : env.Sound
  atOnce : ∀ i, (env.l2 i).now = now
  visits : ∃ n ≤ env.scans, (∀ i < n, (env.l2 i).cursor ≠ "0") ∧ (env.l2 n).cursor = "0" ∧
    ∀ name, (find db now name).isSome = true → ∃ i ≤ n, name ∈ (env.l2 i).visited

theorem glob_star (name : String) : Redis.glob "*" name = true := by
  have hbytes : redisBytes "*" = ['*'] := by decide +kernel
  unfold Redis.glob
  rw [hbytes]
  change globMatches [.star] (redisBytes name) = true
  rw [globMatches, List.any_eq_true]
  exact ⟨[], (List.mem_tails _ _).mpr List.nil_suffix, rfl⟩

theorem run_keys_of_scans (client : Client) {env : Surroundings} {now : Time}
    (h : Scans env now db) :
    ∃ names, (LayeredCacheRepository.scanL2In client env
        (RedisCacheRepository.keys env.scans none) db).2 = some (some names) ∧
      ∀ name, name ∈ names ↔ (find db now name).isSome = true := by
  obtain ⟨n, hn, hgoesOn, hends, hvisits⟩ := h.visits
  obtain ⟨names, hrun, hnames⟩ : ∃ names, (Programs.run client.serve env.l2 env.fault 0
        (keysScanned "*" env.scans "0" []) db).2 = some (some names) ∧
      ∀ name, name ∈ names ↔ name ∈ [] ∨ ∃ j ≤ n, name ∈ page "*" (env.l2 (0 + j)) db :=
    run_keysScanned client hn db (fun j _ => h.sound.answered (0 + j))
      (fun j hj => (Nat.zero_add j).symm ▸ hgoesOn j hj) ((Nat.zero_add n).symm ▸ hends) "0" []
  refine ⟨names, hrun, fun name => ?_⟩
  rw [hnames]
  simp only [List.not_mem_nil, false_or, mem_page, glob_star, true_and, Nat.zero_add, h.atOnce]
  constructor
  · intro hpage
    obtain ⟨j, -, -, hlive⟩ := hpage
    exact hlive
  · intro hlive
    obtain ⟨j, hj, hvisited⟩ := hvisits name hlive
    exact ⟨j, hj, hvisited, hlive⟩

/-- The entry of the key is still stored. -/
def StoredAt (client : Client) (now : Time) (db : Database V) (key : String)
    (json : EntryJson V) : Prop :=
  ∃ t, find (client.view db) now key = some ⟨.string json, t⟩

/-- The names are those of the entries that have been set and are still stored, each of them can
be read, and none is that of a tag set. -/
structure ListsEntries (client : Client) (now : Time) (wanted : List String) (db : Database V)
    (names : List String) : Prop where
  entries : ∀ key, key ∈ names ↔ key ∈ wanted ∧ ∃ json, StoredAt client now db key json
  readable : ∀ key ∈ names,
    (Programs.run client.send (fun _ => now) faultless 0 (exists_ key) db).2 = some true ∧
      ∃ json, StoredAt client now db key json ∧
        (Programs.run client.send (fun _ => now) faultless 0 (get key) db).2 =
          some (some json.restore.registerHit)
  noTagSets : ∀ name ∈ names, ∀ members t, find db now name ≠ some ⟨.set members, t⟩

/-- `keys` lists the entries that are still stored, and with whatever the first tier has
`LayeredCacheRepository.keys` lists each key once. -/
structure ListsWhatIsRead (client : Client) (regExp : RegExp) (env : Surroundings) (now : Time)
    (wanted : List String) (db : Database V) : Prop where
  second : ∃ names, (LayeredCacheRepository.scanL2In client env
      (RedisCacheRepository.keys env.scans none) db).2 = some (some names) ∧
    ListsEntries client now wanted db names
  layered : ∀ l1 : MemoryCacheRepository V, ∃ names,
    (LayeredCacheRepository.keysIn client regExp env none ⟨l1, db⟩).2 = .keys names ∧
      names.Nodup ∧ ∀ key, key ∈ names ↔
        key ∈ l1.map.keys ∨ key ∈ wanted ∧ ∃ json, StoredAt client now db key json

variable {now : Time}

theorem run_exists_ (client : Client) (now : Time) (db : Database V) (key : String) :
    (Programs.run client.send (fun _ => now) faultless 0 (exists_ key) db).2 =
      some (find (client.view db) now key).isSome := by
  rw [(Programs.run_view client.view_send _ faultless 0 (exists_ key) db).2]
  simp only [exists_, Programs.run, Programs.attempt, faultless, Redis.exec]
  cases find (client.view db) now key <;> rfl

theorem run_get_snd (client : Client) (now : Time) (db : Database V) (key : String) :
    (Programs.run client.send (fun _ => now) faultless 0 (get key) db).2 =
      some (servedFrom now (find (client.view db) now key)) := by
  have hsound : (Conditions.good now).surroundings.Sound := ⟨rfl, fun _ => rfl⟩
  exact snd_callL2In_get client hsound.answered key db

theorem keyPrefix_eq_empty {bound : ℕ}
    (hclosed : ∀ name, (find db now name).isSome = true →
      (find db now (client.keyPrefix ++ name)).isSome = true)
    (hbound : ∀ name, (find db now name).isSome = true → name.length ≤ bound) {name : String}
    (hname : (find db now name).isSome = true) : client.keyPrefix = "" := by
  by_contra hempty
  have hpositive : 0 < client.keyPrefix.length := by
    rw [Nat.pos_iff_ne_zero, Ne, String.length_eq_zero_iff]
    exact hempty
  refine not_of_grows hclosed (fun key => ?_) hbound name hname
  rw [String.length_append]
  omega

theorem view_of_empty (h : client.keyPrefix = "") (db : Database V) : client.view db = db := by
  funext key
  rw [Client.view, h, String.empty_append]

theorem readable_of_fresh {db : Database V} {key : String} {json : EntryJson V} {t : Option ℤ}
    (hfind : find (client.view db) now key = some ⟨.string json, t⟩)
    (hfresh : json.restore.isExpired now = false) :
    (Programs.run client.send (fun _ => now) faultless 0 (exists_ key) db).2 = some true ∧
      ∃ json, StoredAt client now db key json ∧
        (Programs.run client.send (fun _ => now) faultless 0 (get key) db).2 =
          some (some json.restore.registerHit) := by
  constructor
  · rw [run_exists_, hfind]
    rfl
  · refine ⟨json, ⟨t, hfind⟩, ?_⟩
    rw [run_get_snd, hfind]
    simp only [servedFrom, hfresh, Bool.false_eq_true, ↓reduceIte]

theorem snd_keysIn {db : Database V} {env : Surroundings} {names : List String}
    (hsound : env.Sound)
    (hrun : (LayeredCacheRepository.scanL2In client env
      (RedisCacheRepository.keys env.scans none) db).2 = some (some names))
    (regExp : RegExp) (l1 : MemoryCacheRepository V) :
    (LayeredCacheRepository.keysIn client regExp env none ⟨l1, db⟩).2 =
      .keys (l1.map.keys ++ names).eraseDups := by
  simp only [LayeredCacheRepository.keysIn, MemoryCacheRepository.keys, hsound.available,
    ↓reduceIte]
  generalize LayeredCacheRepository.scanL2In client env
    (RedisCacheRepository.keys env.scans none) db = result at hrun ⊢
  obtain ⟨redis, listed⟩ := result
  obtain rfl : listed = some (some names) := hrun
  rfl

/-- `keys` lists what can be read if and only if there is nothing in Redis, or else the client
has no prefix and all there is are entries that have not expired. -/
theorem listsWhatIsRead_iff (client : Client) (config : Config) (regExp : RegExp)
    {env : Surroundings} {events : List (RedisEvent V)}
    (hevents : ∀ e ∈ events, ∃ key, e.op.On key)
    (hscans : Scans env now (built client config events)) :
    ListsWhatIsRead client regExp env now (setKeys events) (built client config events) ↔
      ∀ name record, find (built client config events) now name = some record →
        client.keyPrefix = "" ∧
          ∃ json t, record = ⟨.string json, t⟩ ∧ json.restore.isExpired now = false := by
  obtain ⟨names, hrun, hnames⟩ := run_keys_of_scans client hscans
  obtain ⟨bound, hbound⟩ := exists_length_le client config hevents
  obtain ⟨hnamed, -⟩ := named_built client config hevents
  set db := built client config events
  constructor
  · intro h name record hrecord
    obtain ⟨names', hrun', hlists⟩ := h.second
    obtain rfl : names = names' := Option.some.inj (Option.some.inj (hrun.symm.trans hrun'))
    have hstored : ∀ name, (find db now name).isSome = true →
        ∃ json, StoredAt client now db name json := fun name hlive =>
      ((hlists.entries name).mp ((hnames name).mpr hlive)).2
    have hlive : (find db now name).isSome = true := hrecord ▸ rfl
    have hempty : client.keyPrefix = "" := by
      refine keyPrefix_eq_empty (fun name hlive => ?_) (hbound now) hlive
      obtain ⟨json, t, hfind⟩ := hstored name hlive
      rw [← Client.find_view, hfind]
      rfl
    obtain ⟨-, json, ⟨t, hfind⟩, hget⟩ := hlists.readable name ((hnames name).mpr hlive)
    refine ⟨hempty, json, t, ?_, ?_⟩
    · rw [view_of_empty hempty, hrecord] at hfind
      exact Option.some.inj hfind
    · rw [run_get_snd, hfind] at hget
      by_contra hexpired
      simp only [servedFrom, if_pos (Bool.not_eq_false _ ▸ hexpired)] at hget
      cases hget
  · intro h
    have hentries : ∀ key, key ∈ names ↔
        key ∈ setKeys events ∧ ∃ json, StoredAt client now db key json := by
      intro key
      rw [hnames]
      constructor
      · intro hlive
        obtain ⟨record, hrecord⟩ := Option.isSome_iff_exists.mp hlive
        obtain ⟨hempty, json, t, rfl, -⟩ := h key record hrecord
        rw [← view_of_empty hempty db] at hrecord
        exact ⟨hnamed.documents key json t (find_eq_some_iff.mp hrecord).1, json, t, hrecord⟩
      · intro hkey
        obtain ⟨-, json, t, hfind⟩ := hkey
        rw [Client.find_view] at hfind
        obtain ⟨hempty, -⟩ := h _ _ hfind
        rw [hempty, String.empty_append] at hfind
        rw [hfind]
        rfl
    refine ⟨⟨names, hrun, hentries, fun key hkey => ?_, fun name hname members t hset => ?_⟩,
      fun l1 => ?_⟩
    · obtain ⟨-, json, t, hfind⟩ := (hentries key).mp hkey
      have hraw := hfind
      rw [Client.find_view] at hraw
      obtain ⟨-, json', t', heq, hfresh⟩ := h _ _ hraw
      cases heq
      exact readable_of_fresh hfind hfresh
    · obtain ⟨-, json, t', heq, -⟩ := h name _ hset
      cases heq
    · refine ⟨_, snd_keysIn hscans.sound hrun regExp l1, nodup_eraseDups _,
        fun key => ?_⟩
      rw [List.mem_eraseDups, List.mem_append, hentries]

theorem scans_scanning (client : Client) (config : Config) (now : Time)
    {events : List (RedisEvent V)} (hevents : ∀ e ∈ events, ∃ key, e.op.On key) :
    Scans (scanning now ((setKeys events ++ setTagKeys events).map (client.keyPrefix ++ ·))) now
      (built client config events) where
  sound := ⟨rfl, fun _ => rfl⟩
  atOnce := fun _ => rfl
  visits := by
    refine ⟨0, le_rfl, fun i hi => absurd hi (Nat.not_lt_zero i), rfl, fun name hlive => ?_⟩
    obtain ⟨key, hmem, rfl⟩ := exists_mem_of_live client config hevents hlive
    exact ⟨0, le_rfl, List.mem_map_of_mem hmem⟩

/-- Without a prefix and without tags the entry is listed as it is. -/
theorem listsWhatIsRead_of_untagged :
    let now : Time := ⟨1000, by decide⟩
    let events : List (RedisEvent ℕ) := [⟨.set "a" 1 (.ofTtl 60), fun _ => now⟩]
    ListsWhatIsRead ⟨""⟩ (fun _ => none) (scanning now ["a"]) now ["a"]
      (built ⟨""⟩ ⟨1, 60, by decide, by decide⟩ events) := by
  intro now events
  have hevents : ∀ e ∈ events, ∃ key, e.op.On key := by
    intro e he
    obtain rfl := List.mem_singleton.mp he
    exact ⟨"a", rfl⟩
  have hscans := scans_scanning ⟨""⟩ ⟨1, 60, by decide, by decide⟩ now hevents
  refine (listsWhatIsRead_iff ⟨""⟩ ⟨1, 60, by decide, by decide⟩ (fun _ => none) hevents
    hscans).mpr fun name record hrecord => ⟨rfl, ?_⟩
  obtain ⟨key, hmem, rfl⟩ :=
    exists_mem_of_live ⟨""⟩ _ hevents (Option.isSome_iff_exists.mpr ⟨_, hrecord⟩)
  obtain rfl := List.mem_singleton.mp hmem
  cases hrecord
  exact ⟨_, _, rfl, by decide +kernel⟩

/-- With a prefix an entry is listed under a name that is not read, and so is the set of its
tag. -/
theorem not_listsWhatIsRead_of_prefix :
    let now : Time := ⟨1000, by decide⟩
    let events : List (RedisEvent ℕ) := [⟨.set "a" 1 (.tagged 60 ["t"]), fun _ => now⟩]
    let names := ["edgecache:a", "edgecache:__edgecache:tags:t"]
    let db := built ⟨"edgecache:"⟩ ⟨1, 60, by decide, by decide⟩ events
    Scans (scanning now names) now db ∧
      ¬ ListsWhatIsRead ⟨"edgecache:"⟩ (fun _ => none) (scanning now names) now ["a"] db := by
  intro now events names db
  have hevents : ∀ e ∈ events, ∃ key, e.op.On key := by
    intro e he
    obtain rfl := List.mem_singleton.mp he
    exact ⟨"a", rfl⟩
  refine ⟨scans_scanning ⟨"edgecache:"⟩ ⟨1, 60, by decide, by decide⟩ now hevents, fun h => ?_⟩
  obtain ⟨listed, hrun, hlists⟩ := h.second
  have hnames : (LayeredCacheRepository.scanL2In ⟨"edgecache:"⟩ (scanning now names)
      (RedisCacheRepository.keys (scanning now names).scans none) db).2 = some (some names) := by
    decide +kernel
  obtain rfl : names = listed := Option.some.inj (Option.some.inj (hnames.symm.trans hrun))
  obtain ⟨hset, -⟩ := (hlists.entries "edgecache:a").mp (by decide)
  exact absurd hset (by decide)

end RedisCacheRepository

end EdgeCache
