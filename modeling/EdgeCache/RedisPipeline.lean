import EdgeCache.RedisRetry

/-!
What a `set` that resolves has done. Its commands go out in one pipeline, which resolves
with the outcome of each; `set` does not look at them, so it resolves whatever has become of
its commands. It has taken effect exactly when Redis has carried out the `SET` and, for each
tag whose set did not have the key yet, an `SADD`.
-/
namespace EdgeCache

open Programs (Program Fault CarriesOut)

variable {V : Type}

namespace Redis

/-- The entry is stored, and its key is in the sets of its tags. -/
structure TookEffect (now : Time) (key : String) (entry : CacheEntry V) (db : Database V) :
    Prop where
  stored : ∃ t, db key = some ⟨.string (.stringify entry), t⟩
  indexed : ∀ tag ∈ entry.tags, Lists db now tag key

/-- The commands that put a key in the sets of tags. -/
def Indexing (key : String) (c : Command V) : Prop :=
  (∃ tag, c = .sadd (tagKey tag) key) ∨ ∃ tag seconds, c = .expire (tagKey tag) seconds ∧
    ∀ now t, expireTime now seconds = some t → now.val < t

variable {db : Database V} {now later : Time} {tag key : String}

theorem lists_sadd (hle : now ≤ later) (tag' : String) :
    Lists (exec later db (.sadd (tagKey tag') key)).1 now tag key ↔ Lists db now tag key ∨
      tag' = tag ∧ (exec later db (.sadd (tagKey tag') key)).2.isSome := by
  by_cases htag : tag' = tag
  · subst htag
    by_cases hok : (exec later db (.sadd (tagKey tag') key)).2.isSome
    · refine iff_of_true ?_ (Or.inr ⟨rfl, hok⟩)
      obtain ⟨members, t, hset, hmem, hbefore⟩ := exec_sadd hok
      refine ⟨members, t, find_eq_some_iff.mpr ⟨hset, ?_⟩, hmem⟩
      rcases hbefore with ⟨-, rfl⟩ | ⟨members', hfind, -⟩
      · rfl
      · have hlive : isLive later (⟨.set members', t⟩ : Record V) = true :=
          (find_eq_some_iff.mp hfind).2
        exact isLive_of_le hle hlive
    · have hsame : (exec later db (.sadd (tagKey tag') key)).1 = db := by
        simp only [exec] at hok ⊢
        split at hok
        · exact absurd rfl hok
        · split at hok <;> exact absurd rfl hok
        · rfl
      rw [hsame]
      exact (or_iff_left fun h => hok h.2).symm
  · have hframe : ¬ Writes (tagKey tag) (.sadd (tagKey tag') key : Command V) :=
      fun h => htag (tagKey_inj.mp h)
    rw [lists_congr (exec_frame later db hframe)]
    exact (or_iff_left fun h => htag h.1).symm

theorem lists_expire (hle : now ≤ later) {tag' : String} {seconds : JsNumber}
    (hfuture : ∀ t, expireTime later seconds = some t → later.val < t) :
    Lists (exec later db (.expire (tagKey tag') seconds)).1 now tag key ↔ Lists db now tag key := by
  by_cases htag : tag' = tag
  · subst htag
    simp only [exec]
    split
    · rfl
    · next t ht =>
      split
      · rfl
      · next record hfind =>
        obtain ⟨hdb, hlive⟩ := find_eq_some_iff.mp hfind
        have hbefore : find db now (tagKey tag') = some record :=
          find_eq_some_iff.mpr ⟨hdb, isLive_of_le hle hlive⟩
        have hafter : isLive now { record with expireAt := some t } = true := by
          have hle' : now.val ≤ later.val := hle
          have hlater := hfuture t ht
          exact (isLive_some t record.value).mpr (by omega)
        simp only [if_neg (not_le.mpr (hfuture t ht))]
        constructor
        · intro h
          obtain ⟨members, t', hset, hmem⟩ := h
          obtain ⟨hset, -⟩ := find_eq_some_iff.mp hset
          rw [insert_self] at hset
          obtain ⟨hvalue, -⟩ := Record.mk.inj (Option.some.inj hset)
          exact ⟨members, record.expireAt, by rw [hbefore, ← hvalue], hmem⟩
        · intro h
          obtain ⟨members, t', hset, hmem⟩ := h
          obtain rfl := Option.some.inj (hbefore.symm.trans hset)
          exact ⟨members, some t, find_eq_some_iff.mpr ⟨insert_self, hafter⟩, hmem⟩
  · exact lists_congr (exec_frame (c := .expire (tagKey tag') seconds) later db
      fun h => htag (tagKey_inj.mp h))

theorem lists_attempt {c : Command V} (hc : Indexing key c) (hle : now ≤ later) (fault : Fault)
    (db : Database V) (tag : String) :
    Lists (Programs.attempt exec fault later db c).1 now tag key ↔ Lists db now tag key ∨
      c = .sadd (tagKey tag) key ∧ fault ≠ .lost ∧ (exec later db c).2.isSome := by
  have hexec : Lists (exec later db c).1 now tag key ↔ Lists db now tag key ∨
      c = .sadd (tagKey tag) key ∧ (exec later db c).2.isSome := by
    rcases hc with ⟨tag', rfl⟩ | ⟨tag', seconds, rfl, hfuture⟩
    · rw [lists_sadd hle, Command.sadd.injEq, tagKey_inj, and_iff_left rfl]
    · rw [lists_expire hle (hfuture later)]
      exact (or_iff_left fun h => by cases h.1).symm
  cases fault with
  | none => exact hexec.trans (by simp)
  | late => exact hexec.trans (by simp)
  | lost => exact (or_iff_left fun h => h.2.1 rfl).symm

/-- The key is in the set of a tag after the pipeline if it was before, or if an `SADD` to the
set has been carried out. -/
theorem lists_run_each {clock : Clock} (fault : ℕ → Fault) (db : Database V) (tag : String)
    (hnow : ∀ i, now ≤ clock i) {commands : List (Command V)}
    (hcommands : ∀ c ∈ commands, Indexing key c) (i : ℕ) :
    Lists (Programs.run exec clock fault i (Program.each commands (.ret ())) db).1 now tag key ↔
      Lists db now tag key ∨
        CarriesOut exec clock fault (.sadd (tagKey tag) key) i
          (Program.each commands (.ret ())) db := by
  induction commands generalizing i db with
  | nil => exact (or_iff_left id).symm
  | cons c rest ih =>
    have hstep := lists_attempt (hcommands c List.mem_cons_self) (hnow i) (fault i) db tag
    have hrest := ih (Programs.attempt exec (fault i) (clock i) db c).1
      (fun c' hc' => hcommands c' (List.mem_cons_of_mem c hc')) (i + 1)
    rw [hstep, or_assoc] at hrest
    exact hrest

end Redis

namespace RedisCacheRepository

open Redis

def tagCommands (key : String) (ttl : JsNumber) (tags : List String) : List (Command V) :=
  tags.flatMap fun tag => [.sadd (tagKey tag) key, .expire (tagKey tag) (ttl.plus 60)]

theorem mem_tagCommands {key : String} {ttl : JsNumber} {tags : List String} {c : Command V}
    (hc : c ∈ tagCommands key ttl tags) : ∃ tag ∈ tags,
      c = .sadd (tagKey tag) key ∨ c = .expire (tagKey tag) (ttl.plus 60) := by
  obtain ⟨tag, htag, hc⟩ := List.mem_flatMap.mp hc
  simp only [List.mem_cons, List.not_mem_nil, or_false] at hc
  exact ⟨tag, htag, hc⟩

theorem indexing_of_mem {start : Time} {ttl : JsNumber} {t : ℤ} {key : String} {tags : List String}
    (ht : setDeadline start ttl = some t) {c : Command V} (hc : c ∈ tagCommands key ttl tags) :
    Indexing key c := by
  obtain ⟨tag, -, rfl | rfl⟩ := mem_tagCommands hc
  · exact Or.inl ⟨tag, rfl⟩
  · exact Or.inr ⟨tag, _, rfl, fun now b hb => expireTime_plus_of_setDeadline ht hb⟩

section SetRun

variable {clock : Clock} {fault : ℕ → Fault} {now : Time} {key : String} {ttl : JsNumber}
  {tags : List String} {db : Database V}

theorem ne_string_of_tagCommands (hdb : ∀ json t, db key ≠ some ⟨.string json, t⟩) (i : ℕ) :
    ∀ json t, (Programs.run exec clock fault i
      (Program.each (tagCommands key ttl tags) (.ret ())) db).1 key ≠ some ⟨.string json, t⟩ := by
  have hserves : Programs.Serves (exec (V := V)) (fun _ => True) (fun _ _ => True)
      (fun c => ∀ json mode, c ≠ .set key json mode)
      (fun db => ∀ json t, db key ≠ some ⟨.string json, t⟩) := by
    refine fun now db c _ hdb hc => ⟨fun json t hjson => ?_, fun _ _ => trivial⟩
    rcases exec_string hjson with ⟨mode, heq⟩ | ⟨t', hbefore⟩
    · exact hc json mode heq
    · exact hdb json t' hbefore
  have hmeets : (Program.each (tagCommands key ttl tags) (.ret ()) : RedisProgram V Unit).Meets
      (fun _ => True) (fun _ _ => True) (fun c => ∀ json mode, c ≠ .set key json mode)
      fun _ => True := by
    refine Program.Meets.each (fun c hc => ?_) trivial
    obtain ⟨tag, -, rfl | rfl⟩ := mem_tagCommands hc <;> exact fun _ _ h => by cases h
  exact (Programs.run_meets hserves fault (fun _ => trivial) hmeets i hdb).1

theorem run_tagCommands_self (htags : ∀ tag ∈ tags, tagKey tag ≠ key) (i : ℕ) :
    (Programs.run exec clock fault i (Program.each (tagCommands key ttl tags) (.ret ())) db).1 key =
      db key := by
  refine Redis.run_frame ?_ clock fault i db
  refine Program.Meets.each (fun c hc => ?_) trivial
  obtain ⟨tag, htag, rfl | rfl⟩ := mem_tagCommands hc <;> exact htags tag htag

/-- The key is in a set after the call if it was before, or if an `SADD` has been carried out,
when the `SET` has been. -/
theorem tookEffect_tagCommands (fault : ℕ → Fault) (entry : CacheEntry V) {t : ℤ}
    (ht : setDeadline (clock 1) entry.ttl = some t) (hnow : ∀ i, now ≤ clock i) (db : Database V)
    (hdb : db key = some ⟨.string (.stringify entry), some t⟩) :
    TookEffect now key entry (Programs.run exec clock fault 2
        (Program.each (tagCommands key entry.ttl entry.tags) (.ret ())) db).1 ↔
      ∀ tag ∈ entry.tags, tagKey tag ≠ key ∧ (Lists db now tag key ∨
        CarriesOut exec clock fault (.sadd (tagKey tag) key) 2
          (Program.each (tagCommands key entry.ttl entry.tags) (.ret ())) db) := by
  have hcommands : ∀ c ∈ tagCommands key entry.ttl entry.tags, Indexing key (c : Command V) :=
    fun _ hc => indexing_of_mem ht hc
  have hlists := fun tag => lists_run_each fault db tag hnow hcommands 2
  constructor
  · intro heffect tag htag
    refine ⟨fun heq => ?_, (hlists tag).mp (heffect.indexed tag htag)⟩
    obtain ⟨t', hstored⟩ := heffect.stored
    obtain ⟨members, t'', hfind, -⟩ := heffect.indexed tag htag
    rw [heq] at hfind
    cases hstored.symm.trans (find_eq_some_iff.mp hfind).1
  · intro h
    refine ⟨⟨some t, ?_⟩, fun tag htag => (hlists tag).mpr (h tag htag).2⟩
    exact (run_tagCommands_self (fun tag htag => (h tag htag).1) 2).trans hdb

end SetRun

def entryOf (config : Config) (now : Time) (key : String) (value : V) (options : SetOptions) :
    CacheEntry V :=
  .create now key value (options.ttlOr (.ofNat config.cacheDefaultTtl)) options.tagList
    options.metadataList

def setCommand (entry : CacheEntry V) (key : String) : Command V :=
  .set key (.stringify entry) (.ex entry.ttl)

theorem set_eq (config : Config) (key : String) (value : V) {options : SetOptions}
    (hnx : options.ifNotExists = false) :
    set config key value options = .now fun now =>
      .call (setCommand (entryOf config now key value options) key) fun _ =>
        .each (tagCommands key (entryOf config now key value options).ttl
          (entryOf config now key value options).tags) (.ret ()) := by
  simp only [set, setCommands, hnx, Bool.false_eq_true, ↓reduceIte, Program.each]
  rfl

variable {config : Config} {key : String} {value : V} {options : SetOptions} {clock : Clock}
  {fault : ℕ → Fault} {now : Time} {db : Database V}

theorem carriesOut_setCommand (hnx : options.ifNotExists = false) :
    CarriesOut exec clock fault (setCommand (entryOf config (clock 0) key value options) key) 0
        (set config key value options) db ↔
      fault 1 ≠ .lost ∧
        (setDeadline (clock 1) (options.ttlOr (.ofNat config.cacheDefaultTtl))).isSome := by
  have hrest : (Program.each (tagCommands key (entryOf config (clock 0) key value options).ttl
      options.tagList) (.ret ()) : RedisProgram V Unit).OnlyCalls
      (· ≠ setCommand (entryOf config (clock 0) key value options) key) := by
    refine Program.Meets.each (fun c hc => ?_) trivial
    obtain ⟨tag, -, rfl | rfl⟩ := mem_tagCommands hc <;> exact fun h => by cases h
  have hreply : (exec (clock 1) db
      (setCommand (entryOf config (clock 0) key value options) key)).2.isSome ↔
      (setDeadline (clock 1) (options.ttlOr (.ofNat config.cacheDefaultTtl))).isSome := by
    simp only [setCommand, entryOf, CacheEntry.create, exec]
    split <;> simp [*]
  rw [set_eq config key value hnx]
  refine (or_iff_left (Programs.not_carriesOut hrest)).trans ?_
  rw [and_iff_right rfl, hreply]

theorem tookEffect_set (hnx : options.ifNotExists = false) (hnow : ∀ i, now ≤ clock i)
    (hset : CarriesOut exec clock fault
      (setCommand (entryOf config (clock 0) key value options) key) 0
      (set config key value options) db) (before : Option (Record V)) :
    TookEffect now key (entryOf config (clock 0) key value options)
        (Programs.run exec clock fault 0 (set config key value options)
          (Function.update db key before)).1 ↔
      ∀ tag ∈ options.tagList, tagKey tag ≠ key ∧ (Lists db now tag key ∨
        CarriesOut exec clock fault (.sadd (tagKey tag) key) 0 (set config key value options) db)
    := by
  obtain ⟨hfault, hdeadline⟩ := (carriesOut_setCommand hnx).mp hset
  obtain ⟨t, ht⟩ := Option.isSome_iff_exists.mp hdeadline
  have hafter : ∀ db : Database V, (Programs.attempt exec (fault 1) (clock 1) db
      (setCommand (entryOf config (clock 0) key value options) key)).1 =
      insert db key
        ⟨.string (.stringify (entryOf config (clock 0) key value options)), some t⟩ := by
    intro db
    rw [Programs.attempt_fst_of_ne_lost hfault]
    have httl : setDeadline (clock 1) (entryOf config (clock 0) key value options).ttl = some t := ht
    simp only [setCommand, exec, httl]
  have hbefore : ∀ record, insert (Function.update db key before) key record =
      insert db key record := fun record => Function.update_idem ..
  have heffect := tookEffect_tagCommands fault (entryOf config (clock 0) key value options) ht hnow
    (insert db key
      ⟨.string (.stringify (entryOf config (clock 0) key value options)), some t⟩) insert_self
  rw [set_eq config key value hnx]
  simp only [Programs.run, CarriesOut, hafter, hbefore]
  refine heffect.trans (forall₂_congr fun tag _ => and_congr_right fun hne => ?_)
  rw [lists_congr (insert_of_ne hne)]
  exact or_congr_right (or_iff_right fun h => by cases h.1).symm

theorem carriesOut_of_tookEffect (hnx : options.ifNotExists = false)
    (hdb : ∀ json t, db key ≠ some ⟨.string json, t⟩)
    (heffect : TookEffect now key (entryOf config (clock 0) key value options)
      (Programs.run exec clock fault 0 (set config key value options) db).1) :
    CarriesOut exec clock fault (setCommand (entryOf config (clock 0) key value options) key) 0
      (set config key value options) db := by
  rw [carriesOut_setCommand hnx]
  by_contra hfailed
  have hsame : (Programs.attempt exec (fault 1) (clock 1) db
      (setCommand (entryOf config (clock 0) key value options) key)).1 = db := by
    by_cases hfault : fault 1 = .lost
    · simp only [hfault, Programs.attempt]
    · rw [Programs.attempt_fst_of_ne_lost hfault]
      have httl : setDeadline (clock 1) (entryOf config (clock 0) key value options).ttl = none :=
        Option.not_isSome_iff_eq_none.mp fun h => hfailed ⟨hfault, h⟩
      simp only [setCommand, exec, httl]
  obtain ⟨t, hstored⟩ := heffect.stored
  rw [set_eq config key value hnx] at hstored
  simp only [Programs.run, hsame] at hstored
  exact ne_string_of_tagCommands hdb 2 _ _ hstored

/-- A `set` always resolves. It has taken effect, whatever has been under the key, if and only if
Redis has carried out its `SET` and its key was in the set of each of its tags already, or has
been put there. -/
theorem tookEffect_iff (client : Client) (config : Config) (key : String) (value : V)
    (options : SetOptions) (hnx : options.ifNotExists = false) (clock : Clock) (fault : ℕ → Fault)
    (now : Time) (hnow : ∀ i, now ≤ clock i) (db : Database V) :
    let run := Programs.run client.send clock fault 0 (set config key value options)
    let entry := entryOf config (clock 0) key value options
    (∀ db, (run db).2 = some ()) ∧
    ((∀ before, TookEffect now key entry
        (client.view (run (Function.update db (client.keyPrefix ++ key) before)).1)) ↔
      CarriesOut client.send clock fault (setCommand entry key) 0
        (set config key value options) db ∧
      ∀ tag ∈ options.tagList, tagKey tag ≠ key ∧ (Lists (client.view db) now tag key ∨
        CarriesOut client.send clock fault (.sadd (tagKey tag) key) 0
          (set config key value options) db)) := by
  intro run entry
  have hview : ∀ before, client.view (run (Function.update db (client.keyPrefix ++ key) before)).1 =
      (Programs.run exec clock fault 0 (set config key value options)
        (Function.update (client.view db) key before)).1 := by
    intro before
    rw [← client.view_update]
    exact (Programs.run_view client.view_send clock fault 0 _ _).1
  refine ⟨fun db => ?_, ?_⟩
  · rw [show run db = Programs.run client.send clock fault 0 (set config key value options) db from
      rfl, set_eq config key value hnx]
    exact Programs.run_each_snd _ () 2 _
  · simp only [hview, Programs.carriesOut_view client.view_send]
    constructor
    · intro h
      have hset : CarriesOut exec clock fault (setCommand entry key) 0
          (set config key value options) (client.view db) := by
        have hnone := carriesOut_of_tookEffect hnx (fun json t => ?_) (h none)
        · exact (carriesOut_setCommand hnx).mpr ((carriesOut_setCommand hnx).mp hnone)
        · rw [Function.update_self]
          exact (Option.some_ne_none _).symm
      exact ⟨hset, (tookEffect_set hnx hnow hset none).mp (h none)⟩
    · intro h before
      exact (tookEffect_set hnx hnow h.1 before).mpr h.2

/-- The `EXPIRE` is lost, which does no harm. -/
theorem tookEffect_iff_of_lost_expire :
    let client : Client := ⟨"edgecache:"⟩
    let config : Config := ⟨1, 60, by decide, by decide⟩
    let now : Time := ⟨1000, by decide⟩
    ∀ before, TookEffect now "a" (entryOf config now "a" 7 (.tagged 60 ["t"]))
      (client.view (Programs.run client.send (fun _ => now) (fun i => if i = 3 then .lost else .none)
        0 (set config "a" 7 (.tagged 60 ["t"]))
        (Function.update (fun _ => none) "edgecache:a" before)).1) := by
  intro client config now
  obtain ⟨-, heffect⟩ := tookEffect_iff client config "a" 7 (.tagged 60 ["t"]) rfl (fun _ => now)
    (fun i => if i = 3 then .lost else .none) now (fun _ => le_rfl) fun _ => none
  refine heffect.mpr ⟨Or.inl ⟨rfl, by decide, by decide +kernel⟩, fun tag htag => ?_⟩
  obtain rfl := List.mem_singleton.mp htag
  refine ⟨tagKey_ne_of_length_lt (by decide), Or.inr ?_⟩
  exact Or.inr (Or.inl ⟨rfl, by decide, by decide +kernel⟩)

/-- The `SADD` is lost; the call resolves all the same. -/
theorem not_tookEffect_of_lost_sadd :
    let client : Client := ⟨"edgecache:"⟩
    let config : Config := ⟨1, 60, by decide, by decide⟩
    let now : Time := ⟨1000, by decide⟩
    ¬ ∀ (fault : ℕ → Fault) (db : Database ℕ),
      let after := Programs.run client.send (fun _ => now) fault 0
        (set config "a" 7 (.tagged 60 ["t"])) db
      after.2 = some () →
        TookEffect now "a" (entryOf config now "a" 7 (.tagged 60 ["t"])) (client.view after.1) := by
  intro client config now hall
  obtain ⟨members, t, hfind, -⟩ := (hall (fun i => if i = 2 then .lost else .none) (fun _ => none)
    rfl).indexed "t" (List.mem_singleton_self "t")
  revert hfind
  apply ne_of_eq_of_ne (b := none)
  · decide +kernel
  · exact (Option.some_ne_none _).symm

end RedisCacheRepository

end EdgeCache
