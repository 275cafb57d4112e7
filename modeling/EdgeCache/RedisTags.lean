import EdgeCache.Library.Runs
import EdgeCache.RedisCache

/-!
Tag sets in Redis. Every write that tags a key gives the tag's one set a new time to
live, or none, whatever the times of the entries it already indexes. The entries of a tag
are covered when its set has their keys and outlasts them; calls made one after another
keep them covered as long as no command cuts the set's time below an entry it indexes,
adds an entry to a set that ends before it, or takes the set itself away.
-/
namespace EdgeCache

open Programs (Program faultless)

variable {V : Type}

/-! ### Runs of calls -/

inductive RedisOp (V : Type) where
  | get (key : String)
  | set (key : String) (value : V) (options : SetOptions)
  | mset (entries : List (String × V × SetOptions))
  | delete (key : String)
  | deleteByTags (tags : List String)

/-- What a call does to Redis; its answer is dropped. -/
def RedisOp.program (config : Config) : RedisOp V → RedisProgram V Unit
  | .get key => (RedisCacheRepository.get key).map fun _ => ()
  | .set key value options => RedisCacheRepository.set config key value options
  | .mset entries => RedisCacheRepository.mset config entries
  | .delete key => (RedisCacheRepository.delete key).map fun _ => ()
  | .deleteByTags tags => (RedisCacheRepository.deleteByTags tags).map fun _ => ()

/-- A call with the readings of the clock that its effects take place at. -/
structure RedisEvent (V : Type) where
  op : RedisOp V
  clock : Clock

def RedisCacheRepository.step (client : Client) (config : Config) (db : Database V)
    (e : RedisEvent V) : Database V :=
  (Programs.run client.send e.clock faultless 0 (e.op.program config) db).1

/-! ### Covered entries -/

namespace Redis

/-- A live entry under the key carries the tag. -/
def Carries (db : Database V) (now : Time) (key tag : String) (expireAt : Option ℤ) : Prop :=
  ∃ json, find db now key = some ⟨.string json, expireAt⟩ ∧ tag ∈ json.tags

/-- What ends at the first time does not end before what ends at the second. -/
def Outlasts (t expireAt : Option ℤ) : Prop := ∀ b ∈ t, ∃ a ∈ expireAt, a ≤ b

/-- The set of the tag has the key and outlasts its entry. -/
def Holds (db : Database V) (tag key : String) (expireAt : Option ℤ) : Prop :=
  ∃ members t, db (tagKey tag) = some ⟨.set members, t⟩ ∧ key ∈ members ∧ Outlasts t expireAt

/-- Every live entry is held by the sets of its tags, or its indexing is owed. -/
def CoveredBut (owed : String → String → Prop) (now : Time) (db : Database V) : Prop :=
  ∀ key tag expireAt, Carries db now key tag expireAt → owed key tag ∨ Holds db tag key expireAt

def Covered (now : Time) (db : Database V) : Prop := CoveredBut (fun _ _ => False) now db

/-- Every live entry has its key in the sets of its tags. -/
def TagsCover (now : Time) (db : Database V) : Prop :=
  ∀ key tag expireAt, Carries db now key tag expireAt →
    ∃ members t, find db now (tagKey tag) = some ⟨.set members, t⟩ ∧ key ∈ members

end Redis

/-- A command of a call does not uncover a live entry. -/
def RedisOp.Spares (op : RedisOp V) (now : Time) (db : Database V) : Command V → Prop
  | .set key _ .keepTtl => (Redis.find db now key).isSome
  | .set key _ _ => ∀ tag key' expireAt, tagKey tag = key →
      Redis.Carries db now key' tag expireAt → key' = key
  | .del keys => ∀ tag key' expireAt, tagKey tag ∈ keys →
      Redis.Carries db now key' tag expireAt → key' ∈ keys
  | .sadd setKey key =>
    match op with
    | .mset _ => ∀ tag expireAt record, tagKey tag = setKey →
        Redis.Carries db now key tag expireAt → Redis.find db now setKey = some record →
        Redis.Outlasts record.expireAt expireAt
    | _ => True
  | .expire setKey seconds => (Redis.find db now setKey).isSome ∧
      ∀ tag key expireAt, tagKey tag = setKey → Redis.Carries db now key tag expireAt →
        Redis.Outlasts (Redis.expireTime now seconds) expireAt
  | _ => True

namespace RedisEvent

/-- Redis answers none of the commands of a call with an error. -/
def ErrorFree (client : Client) (config : Config) (db : Database V) (e : RedisEvent V) : Prop :=
  Programs.Along client.send e.clock faultless
    (fun now db c => (client.send now db c).2.isSome) 0 (e.op.program config) db

/-- No command of a call uncovers a live entry. -/
def Spares (client : Client) (config : Config) (db : Database V) (e : RedisEvent V) : Prop :=
  Programs.Along client.send e.clock faultless
    (fun now db c => e.op.Spares now (client.view db) c) 0 (e.op.program config) db

end RedisEvent

/-! ### Facts about covering -/

namespace Redis

variable {db db' : Database V} {now later : Time} {key tag : String} {expireAt t : Option ℤ}
  {owed : String → String → Prop}

theorem Carries.isLive (h : Carries db now key tag expireAt) (value : Stored V) :
    Redis.isLive now ⟨value, expireAt⟩ = true := by
  obtain ⟨json, hfind, -⟩ := h
  exact (find_eq_some_iff.mp hfind).2

theorem Carries.ne_of_set {key' : String} {members : List String}
    (h : Carries db now key tag expireAt) (hset : db key' = some ⟨.set members, t⟩) :
    key ≠ key' := by
  intro heq
  subst heq
  obtain ⟨json, hfind, -⟩ := h
  obtain ⟨hdb, -⟩ := find_eq_some_iff.mp hfind
  rw [hset] at hdb
  cases hdb

theorem Carries.of_le (hle : now ≤ later) (h : Carries db later key tag expireAt) :
    Carries db now key tag expireAt := by
  obtain ⟨json, hfind, htag⟩ := h
  obtain ⟨hdb, hlive⟩ := find_eq_some_iff.mp hfind
  exact ⟨json, find_eq_some_iff.mpr ⟨hdb, isLive_of_le hle hlive⟩, htag⟩

theorem CoveredBut.mono {owed' : String → String → Prop}
    (howed : ∀ key tag, owed key tag → owed' key tag) (h : CoveredBut owed now db) :
    CoveredBut owed' now db :=
  fun key tag expireAt hcarries => (h key tag expireAt hcarries).imp_left (howed key tag)

theorem CoveredBut.of_le (hle : now ≤ later) (h : CoveredBut owed now db) :
    CoveredBut owed later db :=
  fun key tag expireAt hcarries => h key tag expireAt (hcarries.of_le hle)

theorem isLive_of_outlasts {value : Stored V} (value' : Stored V) (h : Outlasts t expireAt)
    (hlive : Redis.isLive now ⟨value, expireAt⟩ = true) :
    Redis.isLive now ⟨value', t⟩ = true := by
  cases t with
  | none => rfl
  | some b =>
    obtain ⟨a, ha, hab⟩ := h b rfl
    rw [ha, isLive_some] at hlive
    rw [isLive_some]
    omega

theorem Holds.find (h : Holds db tag key expireAt) (hcarries : Carries db now key tag expireAt) :
    ∃ members t, Redis.find db now (tagKey tag) = some ⟨.set members, t⟩ ∧ key ∈ members ∧
      Outlasts t expireAt := by
  obtain ⟨members, t, hset, hmem, hlasts⟩ := h
  have hlive := isLive_of_outlasts (.set members) hlasts (hcarries.isLive (.set members))
  exact ⟨members, t, find_eq_some_iff.mpr ⟨hset, hlive⟩, hmem, hlasts⟩

theorem carries_congr (hdb : db' key = db key) :
    Carries db' now key tag expireAt ↔ Carries db now key tag expireAt := by
  rw [Carries, Carries, find_congr hdb]

theorem holds_congr (hdb : db' (tagKey tag) = db (tagKey tag)) :
    Holds db' tag key expireAt ↔ Holds db tag key expireAt := by
  rw [Holds, Holds, hdb]

/-! ### What each command keeps covered -/

/-- A new entry is owed its indexing; the entries that a set under its key indexed would
be uncovered. -/
theorem CoveredBut.set (h : CoveredBut owed now db) {json : EntryJson V} {mode : SetMode}
    (hspares : ∀ tag key' expireAt, tagKey tag = key → Carries db now key' tag expireAt →
      key' = key)
    (howed : ∀ tag ∈ json.tags, owed key tag) :
    CoveredBut owed now (exec now db (.set key json mode)).1 := by
  rcases exec_set_cases now db key json mode with heq | ⟨t, heq⟩
  · rw [heq]
    exact h
  · rw [heq]
    intro key' tag expireAt hcarries
    by_cases hk : key' = key
    · subst hk
      obtain ⟨json', hfind, htag⟩ := hcarries
      obtain ⟨hdb, -⟩ := find_eq_some_iff.mp hfind
      simp only [insert_self, Option.some.injEq, Record.mk.injEq, Stored.string.injEq] at hdb
      exact Or.inl (howed tag (hdb.1 ▸ htag))
    · rw [carries_congr (insert_of_ne hk)] at hcarries
      have hset : tagKey tag ≠ key := fun hset => hk (hspares tag key' expireAt hset hcarries)
      rw [holds_congr (insert_of_ne hset)]
      exact h key' tag expireAt hcarries

/-- A write-back over a live entry with the same tags changes nothing that matters. -/
theorem CoveredBut.keepTtl (h : CoveredBut owed now db) {json json' : EntryJson V}
    (hfind : find db now key = some ⟨.string json, expireAt⟩) (htags : json'.tags = json.tags) :
    CoveredBut owed now (exec now db (.set key json' .keepTtl)).1 := by
  obtain ⟨hdb, hlive⟩ := find_eq_some_iff.mp hfind
  have heq : (exec now db (.set key json' .keepTtl)).1 = insert db key ⟨.string json', expireAt⟩ := by
    simp [exec, hfind]
  rw [heq]
  intro key' tag expireAt' hcarries
  have hcarries' : Carries db now key' tag expireAt' := by
    by_cases hk : key' = key
    · subst hk
      obtain ⟨json'', hfind', htag⟩ := hcarries
      obtain ⟨hdb', -⟩ := find_eq_some_iff.mp hfind'
      simp only [insert_self, Option.some.injEq, Record.mk.injEq, Stored.string.injEq] at hdb'
      obtain ⟨rfl, rfl⟩ := hdb'
      exact ⟨json, hfind, htags ▸ htag⟩
    · exact (carries_congr (insert_of_ne hk)).mp hcarries
  rcases h key' tag expireAt' hcarries' with howed | hholds
  · exact Or.inl howed
  · have hset : tagKey tag ≠ key := by
      intro hset
      obtain ⟨members, t, hmembers, -⟩ := hholds
      rw [hset, hdb] at hmembers
      cases hmembers
    rw [holds_congr (insert_of_ne hset)]
    exact Or.inr hholds

theorem CoveredBut.del (h : CoveredBut owed now db) {keys : List String}
    (hspares : ∀ tag key' expireAt, tagKey tag ∈ keys → Carries db now key' tag expireAt →
      key' ∈ keys) :
    CoveredBut owed now (exec now db (.del keys)).1 := by
  intro key' tag expireAt hcarries
  have hkey : key' ∉ keys := by
    intro hmem
    obtain ⟨json, hfind, -⟩ := hcarries
    simp [find, exec_del, hmem] at hfind
  have hsame : (exec now db (.del keys)).1 key' = db key' := exec_frame now db hkey
  rw [carries_congr hsame] at hcarries
  have hset : tagKey tag ∉ keys := fun hset => hkey (hspares tag key' expireAt hset hcarries)
  have hsame' : (exec now db (.del keys)).1 (tagKey tag) = db (tagKey tag) :=
    exec_frame now db hset
  rw [holds_congr hsame']
  exact h key' tag expireAt hcarries

/-- An `SADD` that goes through leaves a set with the member, as lasting as it was. -/
theorem exec_sadd {setKey member : String}
    (hok : (exec now db (.sadd setKey member)).2.isSome) :
    ∃ members t, (exec now db (.sadd setKey member)).1 setKey = some ⟨.set members, t⟩ ∧
      member ∈ members ∧
      (find db now setKey = none ∧ t = none ∨ ∃ members', find db now setKey =
        some ⟨.set members', t⟩ ∧ ∀ key ∈ members', key ∈ members) := by
  cases hfind : find db now setKey with
  | none =>
    simp only [exec, hfind, insert_self]
    exact ⟨[member], none, rfl, List.mem_singleton_self _, Or.inl ⟨trivial, rfl⟩⟩
  | some record =>
    obtain ⟨value, t⟩ := record
    cases value with
    | string json => simp [exec, hfind] at hok
    | set members =>
      by_cases hmem : member ∈ members
      · simp only [exec, hfind, hmem, ↓reduceIte]
        exact ⟨members, t, (find_eq_some_iff.mp hfind).1, hmem,
          Or.inr ⟨members, rfl, fun _ hkey => hkey⟩⟩
      · simp only [exec, hfind, hmem, ↓reduceIte, insert_self]
        exact ⟨members ++ [member], t, rfl, by simp,
          Or.inr ⟨members, rfl, fun _ hkey => List.mem_append_left _ hkey⟩⟩

theorem CoveredBut.sadd (h : CoveredBut owed now db) {setKey member : String}
    (hok : (exec now db (.sadd setKey member)).2.isSome) :
    CoveredBut owed now (exec now db (.sadd setKey member)).1 := by
  obtain ⟨members, t, hset, -, hbefore⟩ := exec_sadd hok
  intro key' tag expireAt hcarries
  have hkey : key' ≠ setKey := hcarries.ne_of_set hset
  have hsame : (exec now db (.sadd setKey member)).1 key' = db key' :=
    exec_frame now db (fun hk => hkey hk.symm)
  rw [carries_congr hsame] at hcarries
  rcases h key' tag expireAt hcarries with howed | hholds
  · exact Or.inl howed
  · refine Or.inr ?_
    by_cases htag : tagKey tag = setKey
    · obtain ⟨members', t', hfind, hmem, hlasts⟩ := hholds.find hcarries
      rw [htag] at hfind
      rcases hbefore with ⟨hnone, -⟩ | ⟨members'', hfind', hsub⟩
      · rw [hnone] at hfind
        cases hfind
      · have hrecord := hfind.symm.trans hfind'
        simp only [Option.some.injEq, Record.mk.injEq, Stored.set.injEq] at hrecord
        obtain ⟨rfl, rfl⟩ := hrecord
        exact ⟨members, t', htag ▸ hset, hsub key' hmem, hlasts⟩
    · have hframe : (exec now db (.sadd setKey member)).1 (tagKey tag) = db (tagKey tag) :=
        exec_frame now db (fun hk => htag hk.symm)
      rw [holds_congr hframe]
      exact hholds

theorem CoveredBut.saddSettled (h : CoveredBut owed now db)
    (hok : (exec now db (.sadd (tagKey tag) key)).2.isSome)
    (hlasts : ∀ expireAt record, Carries db now key tag expireAt →
      find db now (tagKey tag) = some record → Outlasts record.expireAt expireAt)
    (owed' : String → String → Prop)
    (howed : ∀ key' tag', owed key' tag' → owed' key' tag' ∨ key' = key ∧ tag' = tag) :
    CoveredBut owed' now (exec now db (.sadd (tagKey tag) key)).1 := by
  obtain ⟨members, t, hset, hmem, hbefore⟩ := exec_sadd hok
  intro key' tag' expireAt hcarries
  rcases h.sadd hok key' tag' expireAt hcarries with hold | hholds
  · rcases howed key' tag' hold with hrest | ⟨rfl, rfl⟩
    · exact Or.inl hrest
    · refine Or.inr ⟨members, t, hset, hmem, ?_⟩
      have hkey : key' ≠ tagKey tag' := hcarries.ne_of_set hset
      have hsame : (exec now db (.sadd (tagKey tag') key')).1 key' = db key' :=
        exec_frame now db (fun hk => hkey hk.symm)
      rw [carries_congr hsame] at hcarries
      rcases hbefore with ⟨-, rfl⟩ | ⟨members', hfind, -⟩
      · exact fun b hb => by cases hb
      · exact hlasts expireAt _ hcarries hfind
  · exact Or.inr hholds

/-- An `EXPIRE` that cuts no entry short settles what was owed to a member of the set. -/
theorem CoveredBut.expire (h : CoveredBut owed now db) {seconds : JsNumber} {b : ℤ}
    (hb : expireTime now seconds = some b) (hfuture : now.val < b)
    (hlive : (find db now (tagKey tag)).isSome)
    (hspares : ∀ key' expireAt, Carries db now key' tag expireAt → Outlasts (some b) expireAt)
    (hmember : ∃ members t, db (tagKey tag) = some ⟨.set members, t⟩ ∧ key ∈ members)
    (owed' : String → String → Prop)
    (howed : ∀ key' tag', owed key' tag' → owed' key' tag' ∨ key' = key ∧ tag' = tag) :
    CoveredBut owed' now (exec now db (.expire (tagKey tag) seconds)).1 := by
  obtain ⟨members, t, hset, hmem⟩ := hmember
  obtain ⟨record, hfind⟩ := Option.isSome_iff_exists.mp hlive
  have hrecord : record = ⟨.set members, t⟩ := by
    obtain ⟨hdb, -⟩ := find_eq_some_iff.mp hfind
    exact Option.some.inj (hdb.symm.trans hset)
  subst hrecord
  have heq : (exec now db (.expire (tagKey tag) seconds)).1 =
      insert db (tagKey tag) ⟨.set members, some b⟩ := by
    simp [exec, hb, hfind, not_le.mpr hfuture]
  rw [heq]
  intro key' tag' expireAt hcarries
  have hkey : key' ≠ tagKey tag := hcarries.ne_of_set insert_self
  rw [carries_congr (insert_of_ne hkey)] at hcarries
  by_cases htag : tag' = tag
  · subst htag
    have hlasts := hspares key' expireAt hcarries
    rcases h key' tag' expireAt hcarries with hold | hholds
    · rcases howed key' tag' hold with hrest | ⟨rfl, -⟩
      · exact Or.inl hrest
      · exact Or.inr ⟨members, some b, insert_self, hmem, hlasts⟩
    · obtain ⟨members', t', hset', hmem', -⟩ := hholds
      rw [hset] at hset'
      simp only [Option.some.injEq, Record.mk.injEq, Stored.set.injEq] at hset'
      exact Or.inr ⟨members, some b, insert_self, hset'.1 ▸ hmem', hlasts⟩
  · have hset' : tagKey tag' ≠ tagKey tag := fun hset' => htag (tagKey_inj.mp hset')
    rcases h key' tag' expireAt hcarries with hold | hholds
    · rcases howed key' tag' hold with hrest | ⟨-, heq'⟩
      · exact Or.inl hrest
      · exact absurd heq' htag
    · rw [holds_congr (insert_of_ne hset')]
      exact Or.inr hholds

end Redis

/-! ### Whole calls -/

section Calls

open Redis

variable {op : RedisOp V} {clock : Clock}

/-- No command of the rest of a call fails or uncovers an entry. -/
def RedisOp.Careful {α : Type} (op : RedisOp V) (clock : Clock) (i : ℕ) (p : RedisProgram V α)
    (db : Database V) : Prop :=
  Programs.Along exec clock faultless
    (fun now db c => (exec now db c).2.isSome ∧ op.Spares now db c) i p db

/-- The times an entry's tag sets get are in the future. -/
theorem expireTime_plus_of_setDeadline {start now : Time} {seconds : JsNumber} {t b : ℤ}
    (hset : setDeadline start seconds = some t)
    (hexpire : expireTime now (seconds.plus 60) = some b) : now.val < b := by
  cases seconds with
  | finite q =>
    simp only [setDeadline, expireTime, Option.filter_eq_some_iff, decide_eq_true_eq] at hset
    simp only [JsNumber.plus, expireTime] at hexpire
    split at hexpire
    · simp only [Option.some.injEq] at hexpire
      obtain ⟨hset, hstart⟩ := hset
      split at hset
      · simp only [Option.some.injEq] at hset
        have hnum : 0 < q.num := by omega
        have hq : 0 < q := Rat.num_pos.mp hnum
        have hplus : 0 < (q + 60).num := Rat.num_pos.mpr (by linarith)
        omega
      · cases hset
    · cases hexpire
  | _ => simp [JsNumber.plus, expireTime] at hexpire

theorem covered_of_nil {now : Time} {key : String} {db : Database V}
    (h : CoveredBut (fun key' tag => key' = key ∧ tag ∈ []) now db) : Covered now db :=
  h.mono fun _ _ howed => absurd howed.2 List.not_mem_nil

theorem owed_cons {key tag : String} {rest : List String} (key' tag' : String)
    (howed : key' = key ∧ tag' ∈ tag :: rest) :
    (key' = key ∧ tag' ∈ rest) ∨ (key' = key ∧ tag' = tag) := by
  obtain ⟨hkey, htag⟩ := howed
  rcases List.mem_cons.mp htag with rfl | htag
  · exact Or.inr ⟨hkey, rfl⟩
  · exact Or.inl ⟨hkey, htag⟩

theorem covered_setTags (hclock : Monotone clock) {key : String} {seconds : JsNumber}
    (hfuture : ∀ now b, expireTime now seconds = some b → now.val < b) (tags : List String)
    {i : ℕ} {p : RedisProgram V Unit} {db : Database V}
    (hcovered : CoveredBut (fun key' tag => key' = key ∧ tag ∈ tags) (clock i) db)
    (hcareful : op.Careful clock i (.each (tags.flatMap fun tag =>
      [.sadd (tagKey tag) key, .expire (tagKey tag) seconds]) p) db) :
    ∃ j db', Covered (clock j) db' ∧ op.Careful clock j p db' ∧
      Programs.run exec clock faultless i (.each (tags.flatMap fun tag =>
        [.sadd (tagKey tag) key, .expire (tagKey tag) seconds]) p) db =
      Programs.run exec clock faultless j p db' := by
  induction tags generalizing i db with
  | nil => exact ⟨i, db, covered_of_nil hcovered, hcareful, rfl⟩
  | cons tag rest ih =>
    obtain ⟨⟨hadd, -⟩, ⟨hexpire, hspares⟩, hrest⟩ := hcareful
    obtain ⟨members, t, hset, hmem, -⟩ := exec_sadd hadd
    have hadded := (hcovered.sadd hadd).of_le (hclock (Nat.le_succ i))
    cases hb : expireTime (clock (i + 1)) seconds with
    | none => simp [exec, hb] at hexpire
    | some b =>
      have hsettled := hadded.expire hb (hfuture _ b hb) hspares.1
        (fun key' expireAt hcarries => hb ▸ hspares.2 tag key' expireAt rfl hcarries)
        ⟨members, t, hset, hmem⟩ (fun key' tag' => key' = key ∧ tag' ∈ rest) owed_cons
      exact ih (hsettled.of_le (hclock (Nat.le_succ (i + 1)))) hrest

theorem RedisOp.spares_set {now : Time} {db : Database V} {key : String} {json : EntryJson V}
    {mode : SetMode} (hmode : mode ≠ .keepTtl) :
    op.Spares now db (.set key json mode) ↔ ∀ tag key' expireAt, tagKey tag = key →
      Carries db now key' tag expireAt → key' = key := by
  cases mode with
  | ex seconds => exact Iff.rfl
  | exNx seconds => exact Iff.rfl
  | keepTtl => exact absurd rfl hmode

theorem covered_set (config : Config) (key : String) (value : V) (options : SetOptions)
    {db : Database V} (hclock : Monotone clock) (hcovered : Covered (clock 0) db)
    (hcareful : op.Careful clock 0 (RedisCacheRepository.set config key value options) db) :
    ∃ j, Covered (clock j) (Programs.run exec clock faultless 0
      (RedisCacheRepository.set config key value options) db).1 := by
  obtain ⟨⟨hset, hspares⟩, hrest⟩ := hcareful
  have hmode : (if options.ifNotExists then SetMode.exNx (options.ttlOr
      (.ofNat config.cacheDefaultTtl)) else .ex (options.ttlOr (.ofNat config.cacheDefaultTtl))) ≠
      .keepTtl := by
    split <;> exact fun h => by cases h
  have hdeadline : ∃ t, setDeadline (clock 1) (options.ttlOr (.ofNat config.cacheDefaultTtl)) =
      some t := by
    rw [← Option.isSome_iff_exists, Option.isSome_iff_ne_none]
    intro hnone
    cases hnx : options.ifNotExists <;> simp [exec, CacheEntry.create, hnx, hnone] at hset
  obtain ⟨t, ht⟩ := hdeadline
  have hstored : CoveredBut (fun key' tag => key' = key ∧ tag ∈ options.tagList) (clock 1) db :=
    (hcovered.of_le (hclock (Nat.zero_le 1))).mono fun _ _ h => h.elim
  obtain ⟨j, db', hdone, -, hrun⟩ := covered_setTags hclock
    (fun now b hb => expireTime_plus_of_setDeadline ht hb) options.tagList
    ((hstored.set ((RedisOp.spares_set hmode).mp hspares)
      (fun tag htag => ⟨rfl, htag⟩)).of_le (hclock (Nat.le_succ 1))) hrest
  exact ⟨j, (congrArg (fun r => Covered (clock j) r.1) hrun).mpr hdone⟩

theorem covered_msetTags (hclock : Monotone clock) {entries : List (String × V × SetOptions)}
    {key : String} (tags : List String) {i : ℕ} {p : RedisProgram V Unit} {db : Database V}
    (hcovered : CoveredBut (fun key' tag => key' = key ∧ tag ∈ tags) (clock i) db)
    (hcareful : (RedisOp.mset entries).Careful clock i
      (.each (tags.map fun tag => .sadd (tagKey tag) key) p) db) :
    ∃ j db', Covered (clock j) db' ∧ (RedisOp.mset entries).Careful clock j p db' ∧
      Programs.run exec clock faultless i (.each (tags.map fun tag => .sadd (tagKey tag) key) p) db =
        Programs.run exec clock faultless j p db' := by
  induction tags generalizing i db with
  | nil => exact ⟨i, db, covered_of_nil hcovered, hcareful, rfl⟩
  | cons tag rest ih =>
    obtain ⟨⟨hadd, hspares⟩, hrest⟩ := hcareful
    have hsettled := hcovered.saddSettled hadd
      (fun expireAt record hcarries hfind => hspares tag expireAt record rfl hcarries hfind)
      (fun key' tag' => key' = key ∧ tag' ∈ rest) owed_cons
    exact ih (hsettled.of_le (hclock (Nat.le_succ i))) hrest

theorem covered_pipeline (hclock : Monotone clock) {entries : List (String × V × SetOptions)}
    (items : List (String × CacheEntry V)) {i : ℕ} {db : Database V}
    (hcovered : Covered (clock i) db)
    (hcareful : (RedisOp.mset entries).Careful clock i (.each (items.flatMap fun item =>
      RedisCacheRepository.msetCommands item.1 item.2) (.ret ())) db) :
    ∃ j, Covered (clock j) (Programs.run exec clock faultless i (.each (items.flatMap fun item =>
      RedisCacheRepository.msetCommands item.1 item.2) (.ret ())) db).1 := by
  induction items generalizing i db with
  | nil => exact ⟨i, hcovered⟩
  | cons item rest ih =>
    rw [List.flatMap_cons, Program.each_append] at hcareful ⊢
    obtain ⟨⟨-, hspares⟩, hrest⟩ := hcareful
    have hstored : CoveredBut (fun key' tag => key' = item.1 ∧ tag ∈ item.2.tags) (clock i) db :=
      hcovered.mono fun _ _ h => h.elim
    have hset : CoveredBut (fun key' tag => key' = item.1 ∧ tag ∈ item.2.tags) (clock i)
        (exec (clock i) db (.set item.1 (.stringify item.2) (.ex item.2.ttl))).1 :=
      hstored.set hspares fun tag htag => ⟨rfl, htag⟩
    obtain ⟨j, db', hdone, hcareful', hrun⟩ := covered_msetTags hclock item.2.tags
      (hset.of_le (hclock (Nat.le_succ i))) hrest
    obtain ⟨j', hcovered'⟩ := ih hdone hcareful'
    exact ⟨j', (congrArg (fun r => Covered (clock j') r.1) hrun).mpr hcovered'⟩

theorem covered_msetLoop (config : Config) (hclock : Monotone clock)
    {entries : List (String × V × SetOptions)} (rest : List (String × V × SetOptions))
    (items : List (String × CacheEntry V)) {i : ℕ} {db : Database V}
    (hcovered : Covered (clock i) db)
    (hcareful : (RedisOp.mset entries).Careful clock i (RedisCacheRepository.msetLoop config rest
      (items.flatMap fun item => RedisCacheRepository.msetCommands item.1 item.2)) db) :
    ∃ j, Covered (clock j) (Programs.run exec clock faultless i
      (RedisCacheRepository.msetLoop config rest
        (items.flatMap fun item => RedisCacheRepository.msetCommands item.1 item.2)) db).1 := by
  induction rest generalizing items i with
  | nil => exact covered_pipeline hclock items hcovered hcareful
  | cons entry rest ih =>
    obtain ⟨key, value, options⟩ := entry
    have happend : ∀ item : String × CacheEntry V,
        (items.flatMap fun item => RedisCacheRepository.msetCommands item.1 item.2) ++
          RedisCacheRepository.msetCommands item.1 item.2 =
        (items ++ [item]).flatMap fun item =>
          RedisCacheRepository.msetCommands item.1 item.2 := by
      intro item
      simp
    simp only [RedisOp.Careful, RedisCacheRepository.msetLoop, Programs.Along, Programs.run]
      at hcareful ⊢
    rw [happend (key, _)] at hcareful ⊢
    exact ih _ (hcovered.of_le (hclock (Nat.le_succ i))) hcareful

theorem covered_get (key : String) {db : Database V} (hclock : Monotone clock)
    (hcovered : Covered (clock 0) db)
    (hcareful : op.Careful clock 0 (RedisCacheRepository.get key) db) :
    ∃ j, Covered (clock j) (Programs.run exec clock faultless 0
      (RedisCacheRepository.get key) db).1 := by
  have hlater := hcovered.of_le (hclock (Nat.zero_le 2))
  have hget : (exec (clock 0) db (.get key)).1 = db := by
    simp only [exec]
    split <;> rfl
  simp only [RedisOp.Careful, RedisCacheRepository.get, Programs.Along, Programs.run,
    Programs.attempt, faultless, hget] at hcareful ⊢
  obtain ⟨-, hrest⟩ := hcareful
  cases hfind : find db (clock 0) key with
  | none =>
    simp only [exec, hfind]
    exact ⟨0, hcovered⟩
  | some record =>
    obtain ⟨value, expireAt⟩ := record
    cases value with
    | set members =>
      simp only [exec, hfind]
      exact ⟨0, hcovered⟩
    | string json =>
      have hreply : (exec (clock 0) db (.get key)).2 = some (.string json) := by
        simp only [exec, hfind]
      simp only [hreply, RedisCacheRepository.serve, Programs.Along, Programs.run] at hrest ⊢
      by_cases hexpired : json.restore.isExpired (clock 1) = true
      · simp only [hexpired, ↓reduceIte, Programs.Along, Programs.run] at hrest ⊢
        exact ⟨2, hlater.del hrest.1.2⟩
      · simp only [hexpired, Bool.false_eq_true, ↓reduceIte, Programs.Along, Programs.run] at hrest ⊢
        obtain ⟨record, hrecord⟩ := Option.isSome_iff_exists.mp hrest.1.2
        have hsame : record = ⟨.string json, expireAt⟩ := by
          obtain ⟨hdb, -⟩ := find_eq_some_iff.mp hrecord
          obtain ⟨hdb', -⟩ := find_eq_some_iff.mp hfind
          exact Option.some.inj (hdb.symm.trans hdb')
        subst hsame
        exact ⟨2, hlater.keepTtl hrecord rfl⟩

theorem covered_delete (key : String) {db : Database V} (hcovered : Covered (clock 0) db)
    (hcareful : op.Careful clock 0 (RedisCacheRepository.delete key) db) :
    Covered (clock 0) (Programs.run exec clock faultless 0
      (RedisCacheRepository.delete key) db).1 := hcovered.del hcareful.1.2

theorem covered_deleteBatches (hclock : Monotone clock) {next : ℕ → RedisProgram V ℕ}
    (hnext : ∀ {i db} count, Covered (clock i) db → op.Careful clock i (next count) db →
      ∃ j, Covered (clock j) (Programs.run exec clock faultless i (next count) db).1)
    (batches : List (List String)) {i : ℕ} {count : ℕ} {db : Database V}
    (hcovered : Covered (clock i) db)
    (hcareful : op.Careful clock i (RedisCacheRepository.deleteBatches batches count next) db) :
    ∃ j, Covered (clock j) (Programs.run exec clock faultless i
      (RedisCacheRepository.deleteBatches batches count next) db).1 := by
  induction batches generalizing i count db with
  | nil => exact hnext count hcovered hcareful
  | cons batch rest ih =>
    unfold RedisCacheRepository.deleteBatches at hcareful ⊢
    split at hcareful
    · next hpos =>
      rw [if_pos hpos]
      obtain ⟨⟨-, hspares⟩, hrest⟩ := hcareful
      exact ih ((hcovered.del hspares).of_le (hclock (Nat.le_succ i))) hrest
    · next hempty =>
      rw [if_neg hempty]
      exact ih hcovered hcareful

theorem covered_deleteTags (hclock : Monotone clock) (tags : List String) {i : ℕ} (count : ℕ)
    {db : Database V} (hcovered : Covered (clock i) db)
    (hcareful : op.Careful clock i (RedisCacheRepository.deleteTags tags count) db) :
    ∃ j, Covered (clock j) (Programs.run exec clock faultless i
      (RedisCacheRepository.deleteTags tags count) db).1 := by
  induction tags generalizing i count db with
  | nil => exact ⟨i, hcovered⟩
  | cons tag rest ih =>
    have hmembers : (exec (clock i) db (.smembers (tagKey tag))).1 = db := by
      simp only [exec]
      split <;> rfl
    have hlater := hcovered.of_le (hclock (Nat.le_succ i))
    simp only [RedisOp.Careful, RedisCacheRepository.deleteTags, Programs.Along, Programs.run,
      Programs.attempt, faultless, hmembers] at hcareful ⊢
    obtain ⟨-, hrest⟩ := hcareful
    cases hreply : (exec (clock i) db (.smembers (tagKey tag))).2 with
    | none => exact ⟨i + 1, hlater⟩
    | some reply =>
      simp only [hreply] at hrest ⊢
      cases reply with
      | members keys =>
        refine covered_deleteBatches hclock (fun {i db} count hcovered hcareful => ?_)
          (chunk keys 100) hlater hrest
        obtain ⟨⟨-, hspares⟩, hrest⟩ := hcareful
        exact ih count ((hcovered.del hspares).of_le (hclock (Nat.le_succ i))) hrest
      | _ => exact ⟨i + 1, hlater⟩

/-- A call that spares the covered entries leaves them covered. -/
theorem covered_program (config : Config) (op : RedisOp V) {db : Database V}
    (hclock : Monotone clock) (hcovered : Covered (clock 0) db)
    (hcareful : op.Careful clock 0 (op.program config) db) :
    ∃ j, Covered (clock j) (Programs.run exec clock faultless 0 (op.program config) db).1 := by
  cases op with
  | get key =>
    rw [RedisOp.program, Programs.run_map_fst]
    exact covered_get key hclock hcovered (Programs.along_map.mp hcareful)
  | set key value options => exact covered_set config key value options hclock hcovered hcareful
  | mset entries => exact covered_msetLoop config hclock entries [] hcovered hcareful
  | delete key =>
    rw [RedisOp.program, Programs.run_map_fst]
    exact ⟨0, covered_delete key hcovered (Programs.along_map.mp hcareful)⟩
  | deleteByTags tags =>
    rw [RedisOp.program, Programs.run_map_fst]
    exact covered_deleteTags hclock tags 0 hcovered (Programs.along_map.mp hcareful)

end Calls

/-! ### Invalidation -/

theorem mem_chunk {α : Type} {l : List α} {size : ℕ} (hsize : 0 < size) {a : α} (h : a ∈ l) :
    ∃ batch ∈ chunk l size, a ∈ batch := by
  obtain ⟨n, hn, rfl⟩ := List.mem_iff_getElem.mp h
  refine ⟨(l.drop (n / size * size)).take size, ?_, ?_⟩
  · apply List.mem_map.mpr
    refine ⟨n / size, List.mem_range.mpr ?_, rfl⟩
    rw [Nat.div_lt_iff_lt_mul hsize]
    have hround := Nat.lt_div_mul_add (a := l.length + (size - 1)) hsize
    omega
  · apply List.mem_iff_getElem.mpr
    have hmod := Nat.mod_lt n hsize
    have hsplit := Nat.div_add_mod' n size
    refine ⟨n % size, ?_, ?_⟩
    · simp only [List.length_take, List.length_drop]
      omega
    · simp [hsplit]

theorem run_deleteBatches_eq_none {clock : Clock} {next : ℕ → RedisProgram V ℕ} {key : String}
    (hnext : ∀ i count (db : Database V), db key = none →
      (Programs.run Redis.exec clock faultless i (next count) db).1 key = none)
    (batches : List (List String)) (i count : ℕ) {db : Database V}
    (h : db key = none ∨ ∃ batch ∈ batches, key ∈ batch) :
    (Programs.run Redis.exec clock faultless i
      (RedisCacheRepository.deleteBatches batches count next) db).1 key = none := by
  induction batches generalizing i count db with
  | nil =>
    rcases h with hnone | ⟨batch, hbatch, -⟩
    · exact hnext i count db hnone
    · simp at hbatch
  | cons batch rest ih =>
    unfold RedisCacheRepository.deleteBatches
    split
    · refine ih (i + 1) _ ?_
      change (Redis.exec (clock i) db (.del batch)).1 key = none ∨ _
      rw [Redis.exec_del]
      rcases h with hnone | ⟨batch', hbatch, hkey⟩
      · exact Or.inl (by split <;> simp [hnone])
      · rcases List.mem_cons.mp hbatch with rfl | hrest
        · exact Or.inl (if_pos hkey)
        · exact Or.inr ⟨batch', hrest, hkey⟩
    · next hempty =>
      refine ih i count ?_
      rcases h with hnone | ⟨batch', hbatch, hkey⟩
      · exact Or.inl hnone
      · rcases List.mem_cons.mp hbatch with rfl | hrest
        · rw [List.length_eq_zero_iff.mp (by omega : batch'.length = 0)] at hkey
          simp at hkey
        · exact Or.inr ⟨batch', hrest, hkey⟩

theorem run_deleteByTags_eq_none {clock : Clock} {db : Database V} {tag key : String}
    {members : List String} {t : Option ℤ}
    (hset : Redis.find db (clock 0) (tagKey tag) = some ⟨.set members, t⟩) (hkey : key ∈ members) :
    (Programs.run Redis.exec clock faultless 0
      (RedisCacheRepository.deleteByTags [tag]) db).1 key = none := by
  have hreply : Redis.exec (clock 0) db (.smembers (tagKey tag)) = (db, some (.members members)) := by
    simp only [Redis.exec, hset]
  simp only [RedisCacheRepository.deleteByTags, RedisCacheRepository.deleteTags, Programs.run,
    Programs.attempt, faultless, hreply]
  refine run_deleteBatches_eq_none (fun i count db hnone => ?_) _ 1 0
    (Or.inr (mem_chunk (by decide) hkey))
  change (Redis.exec (clock i) db (.del [tagKey tag])).1 key = none
  rw [Redis.exec_del]
  split <;> simp [hnone]

/-! ### Runs -/

theorem covered_step {client : Client} {config : Config} {db : Database V} {e : RedisEvent V}
    (hclock : Monotone e.clock) (hcovered : Redis.Covered (e.clock 0) (client.view db))
    (herror : e.ErrorFree client config db) (hspares : e.Spares client config db) :
    ∃ j, Redis.Covered (e.clock j)
      (client.view (RedisCacheRepository.step client config db e)) := by
  have hboth := (herror.mono fun now db c h => (client.view_send now db c).2 ▸ h).and hspares
  obtain ⟨j, hj⟩ := covered_program config e.op hclock hcovered
    ((Programs.along_view client.view_send).mp hboth)
  refine ⟨j, ?_⟩
  rw [RedisCacheRepository.step, (Programs.run_view client.view_send _ _ _ _ _).1]
  exact hj

theorem covered_run {client : Client} {config : Config} {later : Time}
    (events : List (RedisEvent V)) {db : Database V} {now : Time}
    (hcovered : Redis.Covered now (client.view db)) (hnow : now ≤ later)
    (hstart : ∀ e ∈ events, ∀ i, now ≤ e.clock i) (hlater : ∀ e ∈ events, ∀ i, e.clock i ≤ later)
    (hclock : ∀ e ∈ events, Monotone e.clock)
    (horder : events.Pairwise fun e e' => ∀ i j, e.clock i ≤ e'.clock j)
    (herror : Runs.Guarded (RedisCacheRepository.step client config)
      (fun db e => e.ErrorFree client config db) db events)
    (hspares : Runs.Guarded (RedisCacheRepository.step client config)
      (fun db e => e.Spares client config db) db events) :
    Redis.Covered later (client.view
      (Runs.run (RedisCacheRepository.step client config) db events)) := by
  induction events generalizing db now with
  | nil => exact hcovered.of_le hnow
  | cons e rest ih =>
    have he : e ∈ e :: rest := List.mem_cons_self
    obtain ⟨j, hj⟩ := covered_step (hclock e he) (hcovered.of_le (hstart e he 0)) herror.1 hspares.1
    obtain ⟨hfirst, horder'⟩ := List.pairwise_cons.mp horder
    exact ih hj (hlater e he j) (fun e' he' => hfirst e' he' j)
      (fun e' he' => hlater e' (List.mem_cons_of_mem e he'))
      (fun e' he' => hclock e' (List.mem_cons_of_mem e he')) horder' herror.2 hspares.2

/-- After a run of calls that spare the covered entries, every live entry is in the sets of
its tags, and invalidating any of these tags then removes it. -/
theorem RedisCacheRepository.tagsCover_of_spares (client : Client) (config : Config)
    (events : List (RedisEvent V)) (clock : Clock)
    (hclock : ∀ e ∈ events, Monotone e.clock)
    (horder : events.Pairwise fun e e' => ∀ i j, e.clock i ≤ e'.clock j)
    (hlater : ∀ e ∈ events, ∀ i, e.clock i ≤ clock 0)
    (herror : Runs.Guarded (step client config)
      (fun db e => e.ErrorFree client config db) (fun _ => none) events)
    (hspares : Runs.Guarded (step client config)
      (fun db e => e.Spares client config db) (fun _ => none) events) :
    let db := Runs.run (step client config) (fun _ => none) events
    Redis.TagsCover (clock 0) (client.view db) ∧
    ∀ key tag expireAt, Redis.Carries (client.view db) (clock 0) key tag expireAt →
      client.view (step client config db ⟨.deleteByTags [tag], clock⟩) key = none := by
  intro db
  have hcovered : Redis.Covered (clock 0) (client.view db) := by
    cases events with
    | nil =>
      intro key tag expireAt hcarries
      obtain ⟨json, hfind, -⟩ := hcarries
      cases hfind
    | cons e rest =>
      have he : e ∈ e :: rest := List.mem_cons_self
      have hmono := hclock e he
      have hstart : ∀ e' ∈ e :: rest, ∀ i, e.clock 0 ≤ e'.clock i := by
        intro e' he' i
        rcases List.mem_cons.mp he' with rfl | hrest
        · exact hmono (Nat.zero_le i)
        · exact (List.pairwise_cons.mp horder).1 e' hrest 0 i
      refine covered_run (e :: rest) (fun key tag expireAt hcarries => ?_) (hlater e he 0) hstart
        hlater hclock horder herror hspares
      obtain ⟨json, hfind, -⟩ := hcarries
      cases hfind
  have hcover : Redis.TagsCover (clock 0) (client.view db) := by
    intro key tag expireAt hcarries
    rcases hcovered key tag expireAt hcarries with howed | hholds
    · exact howed.elim
    · obtain ⟨members, t, hfind, hmem, -⟩ := hholds.find hcarries
      exact ⟨members, t, hfind, hmem⟩
  refine ⟨hcover, fun key tag expireAt hcarries => ?_⟩
  obtain ⟨members, t, hfind, hmem⟩ := hcover key tag expireAt hcarries
  have hview := (Programs.run_view client.view_send clock faultless 0
    ((RedisOp.deleteByTags [tag]).program config) db).1
  refine (congrFun hview key).trans ?_
  rw [RedisOp.program, Programs.run_map_fst]
  exact run_deleteByTags_eq_none hfind hmem

instance (client : Client) (config : Config) (db : Database V) (e : RedisEvent V) :
    Decidable (e.ErrorFree client config db) :=
  inferInstanceAs (Decidable (Programs.Along _ _ _ _ _ _ _))

/-- An entry stored by `mset` under a tag of its own. -/
theorem RedisCacheRepository.tagsCover_of_spares_mset :
    let events : List (RedisEvent ℕ) :=
      [⟨.mset [("a", 7, .tagged 60 ["t"])], fun _ => ⟨1000, by decide⟩⟩,
        ⟨.delete "b", fun _ => ⟨2000, by decide⟩⟩]
    let db := Runs.run (step ⟨"edgecache:"⟩ ⟨1, 60, by decide, by decide⟩) (fun _ => none) events
    Redis.TagsCover ⟨3000, by decide⟩ (Client.view ⟨"edgecache:"⟩ db) := by
  intro events db
  have hall := tagsCover_of_spares ⟨"edgecache:"⟩ ⟨1, 60, by decide, by decide⟩ events
    (fun _ => ⟨3000, by decide⟩)
    (by
      intro e he
      simp only [events, List.mem_cons, List.not_mem_nil, or_false] at he
      rcases he with rfl | rfl <;> exact monotone_const)
    (by
      refine List.pairwise_cons.mpr ⟨?_, List.pairwise_singleton _ _⟩
      intro e he i j
      simp only [List.mem_singleton] at he
      subst he
      exact Subtype.mk_le_mk.mpr (by decide))
    (by
      intro e he i
      simp only [events, List.mem_cons, List.not_mem_nil, or_false] at he
      rcases he with rfl | rfl <;> exact Subtype.mk_le_mk.mpr (by decide))
    (by decide +kernel)
    (by
      refine ⟨⟨fun tag key' _ htag => ?_, fun tag _ record _ _ hfind => ?_, trivial⟩,
        ⟨fun tag key' _ htag => ?_, trivial⟩, trivial⟩
      · exact absurd htag (tagKey_ne_of_length_lt (by decide))
      · refine absurd hfind (ne_of_eq_of_ne (b := none) ?_ (Option.some_ne_none record).symm)
        decide +kernel
      · exact absurd (List.mem_singleton.mp htag) (tagKey_ne_of_length_lt (by decide)))
  exact hall.1

/-- A write with a short time cuts the tag set below an entry with a long one. -/
theorem RedisCacheRepository.not_tagsCover_of_shorter_ttl :
    ¬ Redis.TagsCover ⟨101000, by decide⟩ (Client.view ⟨"edgecache:"⟩
      (Runs.run (step ⟨"edgecache:"⟩ ⟨1, 60, by decide, by decide⟩) (fun _ => none)
        [⟨.set "a" 1 (.tagged 1000 ["t"]), fun _ => ⟨1000, by decide⟩⟩,
          ⟨.set "b" 2 (.tagged 1 ["t"]), fun _ => ⟨1000, by decide⟩⟩]) : Database ℕ) := by
  intro hcover
  obtain ⟨members, t, hfind, -⟩ := hcover "a" "t" (some 1001000)
    ⟨.stringify (.create ⟨1000, by decide⟩ "a" 1 (.ofNat 1000) ["t"] []), by decide +kernel,
      List.mem_singleton_self "t"⟩
  revert hfind
  apply ne_of_eq_of_ne (b := none)
  · decide +kernel
  · exact (Option.some_ne_none _).symm

end EdgeCache
