import EdgeCache.Library.Runs
import EdgeCache.RedisConfinement

/-!
The bulk operations of `RedisCacheRepository` against the single ones, at one time and with
nothing failing. `mset` sends a `SET` and the `SADD`s of each entry, but neither the condition
of an entry that may not be overwritten nor the time of the sets of tags. `mget` restores what
it is answered and does not look at the date in it.
-/
namespace EdgeCache

open Programs (Program faultless)

variable {V : Type}

namespace Redis

variable {db db' : Database V} {now : Time} {name key : String}

/-- The same keys are there, with the same values and the same times to live. -/
def Same (now : Time) (db db' : Database V) : Prop := ∀ name, find db now name = find db' now name

def execAll (now : Time) (db : Database V) (commands : List (Command V)) : Database V :=
  commands.foldl (fun db c => (exec now db c).1) db

theorem insert_eq_self {record : Record V} (h : find db now name = some record) :
    insert db name record = db := by
  rw [insert, ← (find_eq_some_iff.mp h).1]
  exact Function.update_eq_self name db

/-! ### Commands on tag sets -/

/-- When the record under a name expires; a record without a time and no record are alike. -/
def deadline (db : Database V) (now : Time) (name : String) : Option ℤ :=
  (find db now name).bind (·.expireAt)

/-- The record has that time, and the document has not changed if it is one. -/
def Stays (now : Time) (name : String) (record : Record V) (db : Database V) : Prop :=
  ∃ value, find db now name = some ⟨value, record.expireAt⟩ ∧
    ∀ json, value = .string json ↔ record.value = .string json

theorem stays_of_find {record : Record V} (h : find db now name = some record) :
    Stays now name record db :=
  ⟨record.value, h, fun _ => Iff.rfl⟩

theorem find_sadd_of_ne (hne : key ≠ name) (member : String) :
    find (exec now db (.sadd key member)).1 now name = find db now name :=
  find_congr (exec_frame now db hne)

theorem find_expire_of_ne (hne : key ≠ name) (seconds : JsNumber) :
    find (exec now db (.expire key seconds)).1 now name = find db now name := by
  have hframe : ¬ Writes name (.expire key seconds : Command V) := hne
  exact find_congr (exec_frame now db hframe)

theorem find_sadd_self (now : Time) (db : Database V) (name member : String) :
    ∃ value, find (exec now db (.sadd name member)).1 now name =
      some ⟨value, deadline db now name⟩ := by
  have hinserted : ∀ value t, isLive now (⟨value, t⟩ : Record V) = true →
      find (insert db name ⟨value, t⟩) now name = some ⟨value, t⟩ := fun value t hlive =>
    find_eq_some_iff.mpr ⟨insert_self, hlive⟩
  cases hfind : find db now name with
  | none =>
    simp only [exec, deadline, hfind]
    exact ⟨_, hinserted _ _ rfl⟩
  | some record =>
    obtain ⟨value, t⟩ := record
    have hlive : isLive now (⟨value, t⟩ : Record V) = true := (find_eq_some_iff.mp hfind).2
    cases value with
    | string json =>
      simp only [exec, deadline, hfind]
      exact ⟨_, rfl⟩
    | set members =>
      simp only [exec, deadline, hfind]
      split
      · exact ⟨_, hfind⟩
      · exact ⟨_, hinserted _ _ hlive⟩

theorem deadline_sadd (now : Time) (db : Database V) (key member name : String) :
    deadline (exec now db (.sadd key member)).1 now name = deadline db now name := by
  by_cases hname : key = name
  · subst hname
    obtain ⟨value, hfind⟩ := find_sadd_self now db key member
    rw [deadline, hfind, Option.bind_some]
  · rw [deadline, find_sadd_of_ne hname]
    rfl

theorem isSome_sadd (key member : String) (h : (find db now name).isSome = true) :
    (find (exec now db (.sadd key member)).1 now name).isSome = true := by
  by_cases hname : key = name
  · subst hname
    obtain ⟨value, hfind⟩ := find_sadd_self now db key member
    rw [hfind, Option.isSome_some]
  · rwa [find_sadd_of_ne hname]

theorem Stays.sadd {record : Record V} (h : Stays now name record db) (key member : String) :
    Stays now name record (exec now db (.sadd key member)).1 := by
  by_cases hname : key = name
  · subst hname
    obtain ⟨value, hfind, hvalue⟩ := h
    cases value with
    | string json =>
      simp only [exec, hfind]
      exact ⟨.string json, hfind, hvalue⟩
    | set members =>
      have hlive : isLive now (⟨.set members, record.expireAt⟩ : Record V) = true :=
        (find_eq_some_iff.mp hfind).2
      simp only [exec, hfind]
      split
      · exact ⟨.set members, hfind, hvalue⟩
      · refine ⟨.set (members ++ [member]), find_eq_some_iff.mpr ⟨insert_self, hlive⟩,
          fun json => ?_⟩
        rw [← hvalue json]
        exact iff_of_false (fun heq => by cases heq) fun heq => by cases heq
  · obtain ⟨value, hfind, hvalue⟩ := h
    exact ⟨value, (find_sadd_of_ne hname member).trans hfind, hvalue⟩

theorem expire_eq_self {seconds : JsNumber}
    (h : ∀ t, expireTime now seconds = some t → now.val < t ∧ deadline db now name = some t) :
    (exec now db (.expire name seconds)).1 = db := by
  simp only [exec]
  split
  · rfl
  · next t ht =>
    obtain ⟨hfuture, hdeadline⟩ := h t ht
    cases hfind : find db now name with
    | none => rfl
    | some record =>
      rw [deadline, hfind, Option.bind_some] at hdeadline
      simp only [if_neg (not_le.mpr hfuture)]
      have hsame : find db now name = some { record with expireAt := some t } := by
        rw [hfind, ← hdeadline]
      exact insert_eq_self hsame

theorem expireAt_of_expire {seconds : JsNumber} {t : ℤ} (ht : expireTime now seconds = some t)
    {record : Record V} (h : find (exec now db (.expire name seconds)).1 now name = some record) :
    record.expireAt = some t ∧ now.val < t := by
  simp only [exec, ht] at h
  cases hfind : find db now name with
  | none =>
    rw [hfind] at h
    cases hfind.symm.trans h
  | some before =>
    rw [hfind] at h
    by_cases hpast : t ≤ now.val
    · simp only [if_pos hpast] at h
      rw [find, remove_self] at h
      cases h
    · simp only [if_neg hpast] at h
      have hrecord := (find_eq_some_iff.mp h).1
      rw [insert_self] at hrecord
      cases hrecord
      exact ⟨rfl, lt_of_not_ge hpast⟩

/-! ### The part of an entry that indexes it -/

section Indexing

variable {tag : String} {tags : List String} {seconds : JsNumber}

/-- What `set` sends for the tags, and what `mset` sends. -/
def setTags (key : String) (seconds : JsNumber) (tags : List String) : List (Command V) :=
  tags.flatMap fun tag => [.sadd (tagKey tag) key, .expire (tagKey tag) seconds]

def msetTags (key : String) (tags : List String) : List (Command V) :=
  tags.map fun tag => .sadd (tagKey tag) key

theorem execAll_setTags_cons (now : Time) (db : Database V) (key : String) (seconds : JsNumber)
    (tag : String) (tags : List String) :
    execAll now db (setTags key seconds (tag :: tags)) =
      execAll now (exec now (exec now db (.sadd (tagKey tag) key)).1
        (.expire (tagKey tag) seconds)).1 (setTags key seconds tags) := rfl

theorem execAll_msetTags_cons (now : Time) (db : Database V) (key tag : String)
    (tags : List String) :
    execAll now db (msetTags key (tag :: tags)) =
      execAll now (exec now db (.sadd (tagKey tag) key)).1 (msetTags key tags) := rfl

theorem execAll_setTags_eq (key : String)
    (h : ∀ tag ∈ tags, ∀ t, expireTime now seconds = some t →
      now.val < t ∧ deadline db now (tagKey tag) = some t) :
    execAll now db (setTags key seconds tags) = execAll now db (msetTags key tags) := by
  induction tags generalizing db with
  | nil => rfl
  | cons tag rest ih =>
    have hadded : ∀ tag' ∈ tag :: rest, ∀ t, expireTime now seconds = some t →
        now.val < t ∧ deadline (exec now db (.sadd (tagKey tag) key)).1 now (tagKey tag') =
          some t := by
      intro tag' htag' t ht
      rw [deadline_sadd]
      exact h tag' htag' t ht
    rw [execAll_setTags_cons, execAll_msetTags_cons,
      expire_eq_self (hadded tag List.mem_cons_self)]
    exact ih fun tag' htag' => hadded tag' (List.mem_cons_of_mem tag htag')

theorem expireAt_of_setTags (key : String) {t : ℤ} (ht : expireTime now seconds = some t)
    (h : tag ∈ tags ∨ ∀ record, find db now (tagKey tag) = some record →
      record.expireAt = some t ∧ now.val < t) {record : Record V}
    (hrecord : find (execAll now db (setTags key seconds tags)) now (tagKey tag) = some record) :
    record.expireAt = some t ∧ now.val < t := by
  induction tags generalizing db with
  | nil => exact h.resolve_left List.not_mem_nil record hrecord
  | cons tag' rest ih =>
    rw [execAll_setTags_cons] at hrecord
    refine ih ?_ hrecord
    by_cases htag : tag' = tag
    · subst htag
      exact Or.inr fun record => expireAt_of_expire ht
    · have hne : tagKey tag' ≠ tagKey tag := mt tagKey_inj.mp htag
      refine h.imp (fun hmem => (List.mem_cons.mp hmem).resolve_left (Ne.symm htag))
        fun hbefore => ?_
      rw [find_expire_of_ne hne, find_sadd_of_ne hne]
      exact hbefore

theorem deadline_msetTags (now : Time) (db : Database V) (key : String) (tags : List String)
    (name : String) :
    deadline (execAll now db (msetTags key tags)) now name = deadline db now name := by
  induction tags generalizing db with
  | nil => rfl
  | cons tag rest ih => rw [execAll_msetTags_cons, ih, deadline_sadd]

theorem isSome_msetTags (key : String)
    (h : tag ∈ tags ∨ (find db now (tagKey tag)).isSome = true) :
    (find (execAll now db (msetTags key tags)) now (tagKey tag)).isSome = true := by
  induction tags generalizing db with
  | nil => exact h.resolve_left List.not_mem_nil
  | cons tag' rest ih =>
    rw [execAll_msetTags_cons]
    refine ih ?_
    rcases h with hmem | hthere
    · rcases List.mem_cons.mp hmem with rfl | hrest
      · obtain ⟨value, hfind⟩ := find_sadd_self now db (tagKey tag) key
        exact Or.inr (hfind ▸ rfl)
      · exact Or.inl hrest
    · exact Or.inr (isSome_sadd _ key hthere)

theorem Stays.msetTags {record : Record V} (h : Stays now name record db) (key : String)
    (tags : List String) : Stays now name record (execAll now db (msetTags key tags)) := by
  induction tags generalizing db with
  | nil => exact h
  | cons tag rest ih => exact ih (h.sadd (tagKey tag) key)

theorem Stays.setTags {record : Record V} (h : Stays now name record db) (key : String)
    (htags : ∀ tag ∈ tags, tagKey tag = name → expireTime now seconds = none) :
    Stays now name record (execAll now db (setTags key seconds tags)) := by
  induction tags generalizing db with
  | nil => exact h
  | cons tag rest ih =>
    rw [execAll_setTags_cons]
    refine ih ?_ fun tag' htag' => htags tag' (List.mem_cons_of_mem tag htag')
    have hadded := h.sadd (tagKey tag) key
    by_cases hname : tagKey tag = name
    · have hnone := htags tag List.mem_cons_self hname
      rwa [expire_eq_self fun t ht => by cases hnone.symm.trans ht]
    · obtain ⟨value, hfind, hvalue⟩ := hadded
      exact ⟨value, (find_expire_of_ne hname seconds).trans hfind, hvalue⟩

end Indexing

/-! ### The document -/

section Document

variable {json : EntryJson V} {seconds : JsNumber}

theorem exec_ex_of_none (h : setDeadline now seconds = none) (db : Database V) (key : String)
    (json : EntryJson V) (nx : Bool) :
    (exec now db (.set key json (if nx then .exNx seconds else .ex seconds))).1 = db := by
  cases nx <;> simp [exec, h]

theorem deadline_exec_ex {name key : String} (h : name = key → setDeadline now seconds = none)
    (db : Database V) (json : EntryJson V) :
    deadline (exec now db (.set key json (.ex seconds))).1 now name = deadline db now name := by
  by_cases hkey : name = key
  · have hsame := exec_ex_of_none (h hkey) db key json false
    rw [if_neg Bool.false_ne_true] at hsame
    rw [hsame]
  · have hspared : ¬ Writes name (.set key json (.ex seconds) : Command V) := Ne.symm hkey
    rw [deadline, deadline, find_congr (exec_frame now db hspared)]

theorem find_exec_ex {t : ℤ} (h : setDeadline now seconds = some t) (db : Database V)
    (key : String) (json : EntryJson V) :
    find (exec now db (.set key json (.ex seconds))).1 now key = some ⟨.string json, some t⟩ := by
  have hfuture : now.val < t := by
    obtain ⟨-, hlt⟩ := Option.filter_eq_some_iff.mp h
    exact of_decide_eq_true hlt
  simp only [exec, h]
  exact find_eq_some_iff.mpr ⟨insert_self, (isLive_some t _).mpr hfuture.le⟩

theorem exec_exNx_of_isSome (h : (find db now key).isSome = true) (json : EntryJson V)
    (seconds : JsNumber) : (exec now db (.set key json (.exNx seconds))).1 = db := by
  simp only [exec]
  split
  · rfl
  · rw [if_pos h]

theorem exec_exNx_eq (h : ∀ t, setDeadline now seconds = some t → ∀ record,
      find db now key = some record → record = ⟨.string json, some t⟩) :
    (exec now db (.set key json (.exNx seconds))).1 =
      (exec now db (.set key json (.ex seconds))).1 := by
  cases ht : setDeadline now seconds with
  | none => simp only [exec, ht]
  | some t =>
    cases hfind : find db now key with
    | none => simp [exec, ht, hfind]
    | some record =>
      rw [exec_exNx_of_isSome (by rw [hfind]; rfl)]
      simp only [exec, ht]
      have hrecord := h t ht record hfind
      exact (insert_eq_self (hrecord ▸ hfind)).symm

theorem expireTime_plus_ne {t t' : ℤ} (h : setDeadline now seconds = some t)
    (h' : expireTime now (seconds.plus 60) = some t') : t ≠ t' := by
  obtain ⟨h, -⟩ := Option.filter_eq_some_iff.mp h
  cases seconds with
  | finite q =>
    simp only [JsNumber.plus, expireTime] at h h'
    obtain ⟨⟨hden, -, -⟩, ht⟩ := Option.ite_none_right_eq_some.mp h
    obtain ⟨-, ht'⟩ := Option.ite_none_right_eq_some.mp h'
    have hq : q = (q.num : ℚ) := (Rat.den_eq_one_iff q).mp hden |>.symm
    have hsum : (q + 60).num = q.num + 60 := by
      have hcast : q + 60 = ((q.num + 60 : ℤ) : ℚ) := by
        rw [hq]
        push_cast
        rfl
      rw [hcast, Rat.num_intCast]
    rw [hsum] at ht'
    have hleft := Option.some.inj ht
    have hright := Option.some.inj ht'
    omega
  | _ => cases h

end Document

end Redis

namespace RedisCacheRepository

open Redis

/-! ### One entry -/

section Entry

variable {config : Config} {now : Time} {db : Database V} {e : String × V × SetOptions}

/-- The `CacheEntry` that both make of an item. -/
def created (config : Config) (now : Time) (e : String × V × SetOptions) : CacheEntry V :=
  .create now e.1 e.2.1 (e.2.2.ttlOr (.ofNat config.cacheDefaultTtl)) e.2.2.tagList
    e.2.2.metadataList

/-- Under a key that may not be overwritten there is nothing, or this very document; and the
sets of the tags have the time already that they are to be given. -/
structure StoredAlike (config : Config) (now : Time) (db : Database V)
    (e : String × V × SetOptions) : Prop where
  unheld : e.2.2.ifNotExists = true → ∀ t, setDeadline now (created config now e).ttl = some t →
    ∀ record, find db now e.1 = some record →
      record = ⟨.string (.stringify (created config now e)), some t⟩
  dated : ∀ tag ∈ e.2.2.tagList, ∀ t,
    expireTime now ((created config now e).ttl.plus 60) = some t →
      now.val < t ∧ deadline db now (tagKey tag) = some t ∧
        (tagKey tag = e.1 → setDeadline now (created config now e).ttl = none)

/-- What one entry makes of the database, in `set` and in `mset`. -/
def entrySet (config : Config) (now : Time) (db : Database V) (e : String × V × SetOptions) :
    Database V :=
  execAll now db (setCommands e.1 (created config now e) e.2.2.ifNotExists)

def entryMset (config : Config) (now : Time) (db : Database V) (e : String × V × SetOptions) :
    Database V :=
  execAll now db (msetCommands e.1 (created config now e))

theorem entrySet_eq (config : Config) (now : Time) (db : Database V)
    (e : String × V × SetOptions) :
    entrySet config now db e =
      execAll now (exec now db (.set e.1 (.stringify (created config now e))
        (if e.2.2.ifNotExists then .exNx (created config now e).ttl
          else .ex (created config now e).ttl))).1
        (setTags e.1 ((created config now e).ttl.plus 60) e.2.2.tagList) := rfl

theorem entryMset_eq (config : Config) (now : Time) (db : Database V)
    (e : String × V × SetOptions) :
    entryMset config now db e =
      execAll now (exec now db (.set e.1 (.stringify (created config now e))
        (.ex (created config now e).ttl))).1 (msetTags e.1 e.2.2.tagList) := rfl

theorem entryMset_eq_entrySet (h : StoredAlike config now db e) :
    entryMset config now db e = entrySet config now db e := by
  have hset : (exec now db (.set e.1 (.stringify (created config now e))
      (if e.2.2.ifNotExists then .exNx (created config now e).ttl
        else .ex (created config now e).ttl))).1 =
      (exec now db (.set e.1 (.stringify (created config now e))
        (.ex (created config now e).ttl))).1 := by
    by_cases hnx : e.2.2.ifNotExists = true
    · rw [if_pos hnx]
      exact exec_exNx_eq (h.unheld hnx)
    · rw [if_neg hnx]
  rw [entrySet_eq, entryMset_eq, hset]
  refine (execAll_setTags_eq e.1 fun tag htag t ht => ?_).symm
  obtain ⟨hfuture, hdeadline, hself⟩ := h.dated tag htag t ht
  exact ⟨hfuture, (deadline_exec_ex hself db _).trans hdeadline⟩

theorem dated_of_same (h : Same now (entrySet config now db e) (entryMset config now db e))
    {tag : String} (htag : tag ∈ e.2.2.tagList) {t : ℤ}
    (ht : expireTime now ((created config now e).ttl.plus 60) = some t) :
    now.val < t ∧ deadline db now (tagKey tag) = some t ∧
      (tagKey tag = e.1 → setDeadline now (created config now e).ttl = none) := by
  set stored := (exec now db (.set e.1 (.stringify (created config now e))
    (.ex (created config now e).ttl))).1 with hstored
  have hthere : (find (execAll now stored (msetTags e.1 e.2.2.tagList)) now
      (tagKey tag)).isSome = true := isSome_msetTags e.1 (Or.inl htag)
  obtain ⟨record, hrecord⟩ := Option.isSome_iff_exists.mp hthere
  have hleft : find (entrySet config now db e) now (tagKey tag) = some record :=
    (h (tagKey tag)).trans hrecord
  obtain ⟨hexpire, hfuture⟩ := expireAt_of_setTags e.1 ht (Or.inl htag) hleft
  have hdeadline : deadline stored now (tagKey tag) = some t := by
    rw [← deadline_msetTags now stored e.1 e.2.2.tagList, deadline, hrecord, Option.bind_some,
      hexpire]
  have hself : tagKey tag = e.1 → setDeadline now (created config now e).ttl = none := by
    intro hkey
    by_contra hsome
    obtain ⟨t', ht'⟩ := Option.ne_none_iff_exists'.mp hsome
    rw [hkey, deadline, hstored, find_exec_ex ht', Option.bind_some] at hdeadline
    exact expireTime_plus_ne ht' ht (Option.some.inj hdeadline)
  exact ⟨hfuture, (deadline_exec_ex hself db _).symm.trans hdeadline, hself⟩

theorem unheld_of_same (h : Same now (entrySet config now db e) (entryMset config now db e))
    (hnx : e.2.2.ifNotExists = true) {t : ℤ}
    (ht : setDeadline now (created config now e).ttl = some t) {record : Record V}
    (hrecord : find db now e.1 = some record) :
    record = ⟨.string (.stringify (created config now e)), some t⟩ := by
  have hkept : (exec now db (.set e.1 (.stringify (created config now e))
      (if e.2.2.ifNotExists then .exNx (created config now e).ttl
        else .ex (created config now e).ttl))).1 = db := by
    rw [if_pos hnx]
    exact exec_exNx_of_isSome (hrecord ▸ rfl) _ _
  have huntimed : ∀ tag ∈ e.2.2.tagList, tagKey tag = e.1 →
      expireTime now ((created config now e).ttl.plus 60) = none := by
    intro tag htag hkey
    by_contra hsome
    obtain ⟨t', ht'⟩ := Option.ne_none_iff_exists'.mp hsome
    exact absurd ht (by simp [(dated_of_same h htag ht').2.2 hkey])
  obtain ⟨value, hleft, hvalue⟩ := (stays_of_find hrecord).setTags e.1 huntimed
  obtain ⟨value', hright, hvalue'⟩ := (stays_of_find (find_exec_ex ht db e.1
    (.stringify (created config now e)))).msetTags e.1 e.2.2.tagList
  have hboth := h e.1
  rw [entrySet_eq, entryMset_eq, hkept, hleft, hright, Option.some.injEq, Record.mk.injEq] at hboth
  obtain ⟨rfl, hexpire⟩ := hboth
  have hstring := (hvalue _).mp ((hvalue' _).mpr rfl)
  obtain ⟨stored, expireAt⟩ := record
  simp only at hstring hexpire
  rw [hstring, hexpire]

theorem storedAlike_of_same
    (h : Same now (entrySet config now db e) (entryMset config now db e)) :
    StoredAlike config now db e :=
  ⟨fun hnx _ ht _ => unheld_of_same h hnx ht, fun _ htag _ ht => dated_of_same h htag ht⟩

end Entry

/-! ### Whole calls -/

section Calls

variable {client : Client} {config : Config} {now : Time}

def afterSet (client : Client) (config : Config) (now : Time) (db : Database V)
    (e : String × V × SetOptions) : Database V :=
  (Programs.run client.send (fun _ => now) faultless 0 (set config e.1 e.2.1 e.2.2) db).1

def afterMset (client : Client) (config : Config) (now : Time) (db : Database V)
    (entries : List (String × V × SetOptions)) : Database V :=
  (Programs.run client.send (fun _ => now) faultless 0 (mset config entries) db).1

theorem run_msetLoop (exec : Time → Database V → Command V → Database V × Option (Reply V))
    (config : Config) (now : Time) (entries : List (String × V × SetOptions))
    (pipeline : List (Command V)) (i : ℕ) (db : Database V) :
    (Programs.run exec (fun _ => now) faultless i (msetLoop config entries pipeline) db).1 =
      (pipeline ++ entries.flatMap fun e => msetCommands e.1 (created config now e)).foldl
        (fun db c => (exec now db c).1) db := by
  induction entries generalizing pipeline i with
  | nil =>
    rw [List.flatMap_nil, List.append_nil]
    exact Programs.run_each_fst exec now pipeline () i db
  | cons e rest ih =>
    obtain ⟨key, value, options⟩ := e
    rw [List.flatMap_cons, ← List.append_assoc]
    exact ih (pipeline ++ msetCommands key (created config now (key, value, options))) (i + 1)

/-- An `mset` is one of each item after the other. -/
theorem afterMset_eq_run (client : Client) (config : Config) (now : Time)
    (entries : List (String × V × SetOptions)) (db : Database V) :
    afterMset client config now db entries =
      Runs.run (fun db e => afterMset client config now db [e]) db entries := by
  have hone : ∀ (db : Database V) e, afterMset client config now db [e] =
      (msetCommands e.1 (created config now e)).foldl (fun db c => (client.send now db c).1)
        db := by
    intro db e
    rw [afterMset, mset, run_msetLoop, List.nil_append, List.flatMap_cons, List.flatMap_nil,
      List.append_nil]
  rw [afterMset, mset, run_msetLoop, List.nil_append]
  have hrun : Runs.run (fun db e => afterMset client config now db [e]) db entries =
      Runs.run (fun db c => (client.send now db c).1) db
        (entries.flatMap fun e => msetCommands e.1 (created config now e)) :=
    Runs.run_flatMap _ hone db entries
  exact hrun.symm

theorem view_afterSet (client : Client) (config : Config) (now : Time) (db : Database V)
    (e : String × V × SetOptions) :
    client.view (afterSet client config now db e) = entrySet config now (client.view db) e := by
  refine (Programs.run_view client.view_send _ faultless 0 _ db).1.trans ?_
  exact Programs.run_each_fst Redis.exec now _ () 1 (client.view db)

theorem view_afterMset (client : Client) (config : Config) (now : Time) (db : Database V)
    (e : String × V × SetOptions) :
    client.view (afterMset client config now db [e]) = entryMset config now (client.view db) e := by
  refine (Programs.run_view client.view_send _ faultless 0 _ db).1.trans ?_
  rw [mset, run_msetLoop, List.nil_append, List.flatMap_cons, List.flatMap_nil, List.append_nil]
  rfl

theorem afterSet_foreign (config : Config) (now : Time) {name : String}
    (hname : client.Foreign name) (db : Database V) (e : String × V × SetOptions) :
    afterSet client config now db e name = db name := by
  refine client.run_frame (set_meets trivial (fun _ _ _ _ => ?_) fun _ _ => ⟨?_, fun _ => ?_⟩)
    hname _ faultless 0 db <;> exact fun h => by cases h

theorem afterMset_foreign (config : Config) (now : Time) {name : String}
    (hname : client.Foreign name) (db : Database V) (entries : List (String × V × SetOptions)) :
    afterMset client config now db entries name = db name := by
  refine client.run_frame (msetLoop_onlyCalls config (fun _ _ _ => ?_) (fun _ _ => ?_) entries
    (List.forall_mem_nil _)) hname _ faultless 0 db <;> exact fun h => by cases h

/-- An item that is stored alike leaves one database, and the other items leave two. -/
theorem afterMset_eq_afterSet {db : Database V} {e : String × V × SetOptions}
    (h : StoredAlike config now (client.view db) e) :
    afterMset client config now db [e] = afterSet client config now db e := by
  have hview := entryMset_eq_entrySet h
  rw [← view_afterMset, ← view_afterSet] at hview
  funext name
  by_cases hname : client.Foreign name
  · rw [afterMset_foreign config now hname, afterSet_foreign config now hname]
  · obtain ⟨key, rfl⟩ : ∃ key, name = client.keyPrefix ++ key := by
      simpa [Client.Foreign] using hname
    exact congrFun hview key

theorem storedAlike_of_same_calls {db : Database V} {e : String × V × SetOptions}
    (h : Same now (afterSet client config now db e) (afterMset client config now db [e])) :
    StoredAlike config now (client.view db) e := by
  refine storedAlike_of_same fun key => ?_
  rw [← view_afterMset, ← view_afterSet, Client.find_view, Client.find_view]
  exact h (client.keyPrefix ++ key)

/-! ### Reads -/

/-- What a call returns, as far as the caller put it into the entry. -/
def got (client : Client) (now : Time) (db : Database V) (key : String) : Option (Content V) :=
  (Programs.run client.send (fun _ => now) faultless 0 (get key) db).2.join.map CacheEntry.content

def gotEach (client : Client) (now : Time) : List String → Database V → List (Option (Content V))
  | [], _ => []
  | key :: rest, db => got client now db key :: gotEach client now rest
      (Programs.run client.send (fun _ => now) faultless 0 (get key) db).1

def gotAll (client : Client) (now : Time) (keys : List String) (db : Database V) :
    Option (List (Option (Content V))) :=
  (Programs.run client.send (fun _ => now) faultless 0 (mget keys) db).2.map
    (·.map (·.map CacheEntry.content))

/-- What `get` makes of a record, and what `mget` does. -/
def served (now : Time) : Record V → Option (Content V)
  | ⟨.string json, _⟩ => if json.restore.isExpired now then none else some json.content
  | ⟨.set _, _⟩ => none

def restored : Record V → Option (Content V)
  | ⟨.string json, _⟩ => some json.content
  | ⟨.set _, _⟩ => none

/-- No document there is past the date in it. -/
def NoneStale (now : Time) (db : Database V) (key : String) : Prop :=
  ∀ json t, find db now key = some ⟨.string json, t⟩ → json.restore.isExpired now = false

theorem got_eq (client : Client) (now : Time) (db : Database V) (key : String) :
    got client now db key = (find (client.view db) now key).bind (served now) := by
  rw [got, (Programs.run_view client.view_send _ faultless 0 (get key) db).2]
  cases hfind : find (client.view db) now key with
  | none => rw [run_get_of_missing hfind]; rfl
  | some record =>
    obtain ⟨json | members, t⟩ := record
    · by_cases hexpired : json.restore.isExpired now = true
      · simp [get, serve, Programs.run, Programs.attempt, faultless, Redis.exec, hfind, hexpired,
          served]
      · rw [run_get_of_fresh hfind (Bool.not_eq_true _ ▸ hexpired)]
        simp only [Option.bind_some, served, hexpired, Bool.false_eq_true, ↓reduceIte]
        rfl
    · simp [get, Programs.run, Programs.attempt, faultless, Redis.exec, hfind, served]

theorem gotAll_eq (client : Client) (now : Time) (keys : List String) (db : Database V) :
    gotAll client now keys db =
      some (keys.map fun key => (find (client.view db) now key).bind restored) := by
  rw [gotAll, (Programs.run_view client.view_send _ faultless 0 (mget keys) db).2]
  simp only [mget, Programs.run, Programs.attempt, faultless, Redis.exec, Option.map_some,
    List.map_map]
  refine congrArg some (List.map_congr_left fun key _ => ?_)
  simp only [Function.comp]
  cases find (client.view db) now key with
  | none => rfl
  | some record =>
    obtain ⟨json | members, t⟩ := record <;> rfl

theorem served_eq_restored_iff (now : Time) (db : Database V) (key : String) :
    (find db now key).bind restored = (find db now key).bind (served now) ↔
      NoneStale now db key := by
  unfold NoneStale
  cases find db now key with
  | none => exact iff_of_true rfl fun json t h => by cases h
  | some record =>
    obtain ⟨json | members, t⟩ := record
    · rw [Option.bind_some, Option.bind_some, restored, served]
      constructor
      · intro h json' t' heq
        cases heq
        by_contra hexpired
        rw [if_pos (Bool.not_eq_false _ ▸ hexpired)] at h
        cases h
      · intro h
        rw [if_neg (Bool.eq_false_iff.mp (h json t rfl))]
    · exact iff_of_true rfl fun json t h => by cases h

/-- A read changes what no read returns, its own key included. -/
theorem got_after_get (client : Client) (now : Time) (db : Database V) (key key' : String) :
    got client now (Programs.run client.send (fun _ => now) faultless 0 (get key) db).1 key' =
      got client now db key' := by
  rw [got_eq, got_eq, (Programs.run_view client.view_send _ faultless 0 (get key) db).1]
  by_cases hkey : key = key'
  · subst hkey
    cases hfind : find (client.view db) now key with
    | none => rw [run_get_of_missing hfind, hfind]
    | some record =>
      obtain ⟨json | members, t⟩ := record
      · by_cases hexpired : json.restore.isExpired now = true
        · have hgone : (Programs.run Redis.exec (fun _ => now) faultless 0 (get key)
              (client.view db)).1 key = none := by
            simp [get, serve, Programs.run, Programs.attempt, faultless, Redis.exec, hfind,
              hexpired, Redis.delete]
          rw [find, hgone, Option.bind_some, served, if_pos hexpired]
          rfl
        · have hlive : isLive now (⟨.string (.stringify json.restore.registerHit), t⟩ : Record V) =
              true := (find_eq_some_iff.mp hfind).2
          rw [run_get_of_fresh hfind (Bool.not_eq_true _ ▸ hexpired),
            find_eq_some_iff.mpr ⟨insert_self, hlive⟩]
          rfl
      · have hsame : (Programs.run Redis.exec (fun _ => now) faultless 0 (get key)
            (client.view db)).1 = client.view db := by
          simp [get, Programs.run, Programs.attempt, faultless, Redis.exec, hfind]
        rw [hsame, hfind]
  · rw [find_congr (Redis.run_frame (get_onlyCalls_of_ne hkey) _ faultless 0 (client.view db))]

theorem gotEach_eq (client : Client) (now : Time) (keys : List String) (db : Database V) :
    gotEach client now keys db = keys.map (got client now db) := by
  induction keys generalizing db with
  | nil => rfl
  | cons key rest ih =>
    rw [gotEach, ih, List.map_cons]
    exact congrArg _ (List.map_congr_left fun key' _ => got_after_get client now db key key')

/-- The bulk operations do what the single ones do: `mset` leaves the same entries, tag sets and
times at every point of its list, and `mget` answers the same, whether the keys are then read
each by itself or one after the other. -/
structure BulkAgrees (client : Client) (config : Config) (now : Time) (db : Database V)
    (keys : List String) (entries : List (String × V × SetOptions)) : Prop where
  stored : ∀ before, before <+: entries →
    Same now (Runs.run (afterSet client config now) db before)
      (afterMset client config now db before)
  answered : gotAll client now keys db = some (keys.map (got client now db))
  inOrder : gotAll client now keys db = some (gotEach client now keys db)

/-- The bulk operations do what the single ones do if and only if each item, where the ones
before it have been set, is stored alike, and no document that is read is past its date. -/
theorem bulkAgrees_iff (client : Client) (config : Config) (now : Time) (db : Database V)
    (keys : List String) (entries : List (String × V × SetOptions)) :
    BulkAgrees client config now db keys entries ↔
      Runs.Guarded (afterSet client config now)
          (fun db e => StoredAlike config now (client.view db) e) db entries ∧
        ∀ key ∈ keys, NoneStale now (client.view db) key := by
  have hstored : Runs.Guarded (afterSet client config now)
      (fun db e => StoredAlike config now (client.view db) e) db entries ↔
      ∀ before, before <+: entries → Same now (Runs.run (afterSet client config now) db before)
        (afterMset client config now db before) := by
    have hagree : Runs.Guarded (afterSet client config now)
        (fun db e => StoredAlike config now (client.view db) e) db entries ↔
        ∀ before, before <+: entries → Same now (Runs.run (afterSet client config now) db before)
          (Runs.run (fun db e => afterMset client config now db [e]) db before) :=
      Runs.guarded_iff_agree (fun _ _ => rfl) (fun _ _ => afterMset_eq_afterSet)
        (fun _ _ => storedAlike_of_same_calls) db entries
    rw [hagree]
    refine forall₂_congr fun before _ => ?_
    rw [afterMset_eq_run client config now before db]
  have hread : gotAll client now keys db = some (keys.map (got client now db)) ↔
      ∀ key ∈ keys, NoneStale now (client.view db) key := by
    rw [gotAll_eq, Option.some.injEq, List.map_inj_left]
    refine forall₂_congr fun key _ => ?_
    rw [got_eq]
    exact served_eq_restored_iff now (client.view db) key
  rw [hstored, ← hread]
  refine ⟨fun h => ⟨h.stored, h.answered⟩, fun h => ⟨h.1, h.2, ?_⟩⟩
  rw [gotEach_eq]
  exact h.2

/-- A kept entry is overwritten, a tag set gets no time, and a document past its date is read. -/
theorem not_bulkAgrees_of_kept :
    let now : Time := ⟨5000, by decide⟩
    let client : Client := ⟨"edgecache:"⟩
    let config : Config := ⟨1, 60, by decide, by decide⟩
    let kept : EntryJson ℕ := .stringify (.create ⟨1000, by decide⟩ "a" 1 (.ofNat 60) [] [])
    let stale : EntryJson ℕ := .stringify (.create ⟨1000, by decide⟩ "a" 1 (.ofNat 3) [] [])
    ¬ BulkAgrees client config now
        (insert (fun _ => none) "edgecache:a" ⟨.string kept, some 61000⟩) []
        [("a", 2, ⟨some (.ofNat 60), none, none, true⟩)] ∧
      ¬ BulkAgrees client config now (fun _ => none : Database ℕ) [] [("a", 1, .tagged 60 ["t"])] ∧
      ¬ BulkAgrees client config now
        (insert (fun _ => none) "edgecache:a" ⟨.string stale, none⟩) ["a"] [] := by
  refine ⟨fun h => ?_, fun h => ?_, fun h => ?_⟩
  · exact absurd (h.stored _ (List.prefix_refl _) "edgecache:a") (by decide +kernel)
  · exact absurd (h.stored _ (List.prefix_refl _) "edgecache:__edgecache:tags:t")
      (by decide +kernel)
  · exact absurd h.answered (by decide +kernel)

end Calls

end RedisCacheRepository

end EdgeCache
