import EdgeCache.RedisTags

/-!
What Redis stores, whatever its times: the entries that carry a tag, and the members of the
tag's set. One lemma for each command says what it does to the two. While nothing that is
stored has expired, commands go by what is stored.
-/
namespace EdgeCache

variable {V : Type}

namespace Redis

def valueAt (db : Database V) (key : String) : Option (Stored V) := (db key).map Record.value

/-- An entry with the tag is stored under the key. -/
def Carrier (db : Database V) (key tag : String) : Prop :=
  ∃ json, valueAt db key = some (.string json) ∧ tag ∈ json.tags

def Member (db : Database V) (tag key : String) : Prop :=
  ∃ members, valueAt db (tagKey tag) = some (.set members) ∧ key ∈ members

/-- Every entry is in the sets of its tags, or owed to them. -/
def IndexedBut (owed : String → String → Prop) (db : Database V) : Prop :=
  ∀ key tag, Carrier db key tag → owed key tag ∨ Member db tag key

/-- No time of what is stored has passed. -/
def Unexpired (now : Time) (db : Database V) : Prop :=
  ∀ key record, db key = some record → isLive now record = true

variable {db db' : Database V} {now : Time} {key tag : String}

theorem Unexpired.find (h : Unexpired now db) (key : String) : find db now key = db key := by
  cases hdb : db key with
  | none => rw [Redis.find, hdb, Option.filter_none]
  | some record => exact find_eq_some_iff.mpr ⟨hdb, h key record hdb⟩

theorem valueAt_eq_some {value : Stored V} :
    valueAt db key = some value ↔ ∃ t, db key = some ⟨value, t⟩ := by
  unfold valueAt
  rw [Option.map_eq_some_iff]
  constructor
  · intro h
    obtain ⟨⟨value', t⟩, hdb, rfl⟩ := h
    exact ⟨t, hdb⟩
  · intro h
    obtain ⟨t, hdb⟩ := h
    exact ⟨_, hdb, rfl⟩

theorem valueAt_congr (h : db' key = db key) : valueAt db' key = valueAt db key := by
  rw [valueAt, valueAt, h]

theorem carrier_congr (h : valueAt db' key = valueAt db key) :
    Carrier db' key tag ↔ Carrier db key tag := by
  rw [Carrier, Carrier, h]

theorem member_congr (h : valueAt db' (tagKey tag) = valueAt db (tagKey tag)) :
    Member db' tag key ↔ Member db tag key := by
  rw [Member, Member, h]

theorem Member.unique {members : List String} (h : Member db tag key)
    (hset : valueAt db (tagKey tag) = some (.set members)) : key ∈ members := by
  obtain ⟨members', hmembers, hmem⟩ := h
  obtain rfl := Stored.set.inj (Option.some.inj (hmembers.symm.trans hset))
  exact hmem

theorem valueAt_exec_frame {c : Command V} (h : ¬ Writes key c) :
    valueAt (exec now db c).1 key = valueAt db key := valueAt_congr (exec_frame now db h)

theorem valueAt_del (keys : List String) :
    valueAt (exec now db (.del keys)).1 key = if key ∈ keys then none else valueAt db key := by
  rw [valueAt, exec_del]
  split <;> rfl

theorem valueAt_expire {setKey : String} {seconds : JsNumber}
    (hfuture : ∀ t, expireTime now seconds = some t → now.val < t) :
    valueAt (exec now db (.expire setKey seconds)).1 key = valueAt db key := by
  by_cases hkey : setKey = key
  · subst hkey
    simp only [exec]
    split
    · rfl
    · next t ht =>
      split
      · rfl
      · next record hfind =>
        have hnew : insert db setKey { record with expireAt := some t } setKey =
            some { record with expireAt := some t } := insert_self
        rw [if_neg (not_le.mpr (hfuture t ht)), valueAt, valueAt, (find_eq_some_iff.mp hfind).1]
        exact (congrArg (Option.map Record.value) hnew).trans rfl
  · exact valueAt_exec_frame (c := .expire setKey seconds) hkey

/-! ### Times -/

theorem Unexpired.insert (h : Unexpired now db) {record : Record V}
    (hrecord : isLive now record = true) : Unexpired now (Redis.insert db key record) := by
  intro key' record' hdb
  by_cases hk : key' = key
  · rw [hk, insert_self] at hdb
    exact Option.some.inj hdb ▸ hrecord
  · rw [insert_of_ne hk] at hdb
    exact h key' record' hdb

theorem Unexpired.removed (h : Unexpired now db)
    (hdb : ∀ key, db' key = db key ∨ db' key = none) : Unexpired now db' := by
  intro key record hrecord
  rcases hdb key with hsame | hnone
  · exact h key record (hsame.symm.trans hrecord)
  · cases hnone.symm.trans hrecord

theorem isLive_of_setDeadline {seconds : JsNumber} {t : ℤ} (ht : setDeadline now seconds = some t)
    (value : Stored V) : isLive now ⟨value, some t⟩ = true := by
  obtain ⟨-, hlater⟩ := Option.filter_eq_some_iff.mp ht
  exact (isLive_some t value).mpr (of_decide_eq_true hlater).le

/-- No command makes anything expire at once; only time does. -/
theorem Unexpired.exec (h : Unexpired now db) (c : Command V) :
    Unexpired now (exec now db c).1 := by
  cases c with
  | set key json mode =>
    cases mode with
    | ex seconds =>
      simp only [Redis.exec]
      split
      · exact h
      · next t ht => exact h.insert (isLive_of_setDeadline ht _)
    | exNx seconds =>
      simp only [Redis.exec]
      split
      · exact h
      · next t ht =>
        split
        · exact h
        · exact h.insert (isLive_of_setDeadline ht _)
    | keepTtl =>
      refine h.insert ?_
      cases hdb : db key with
      | none =>
        rw [h.find, hdb]
        rfl
      | some record =>
        rw [h.find, hdb]
        exact h key record hdb
  | del keys =>
    refine h.removed fun key => ?_
    rw [exec_del]
    split
    · exact Or.inr rfl
    · exact Or.inl rfl
  | sadd setKey member =>
    simp only [Redis.exec]
    split
    · exact h.insert rfl
    · next members t hfind =>
      split
      · exact h
      · exact h.insert (find_eq_some_iff.mp hfind).2
    · exact h
  | expire setKey seconds =>
    simp only [Redis.exec]
    split
    · exact h
    · split
      · exact h
      · split
        · refine h.removed fun key => ?_
          by_cases hk : key = setKey
          · exact Or.inr (hk ▸ remove_self)
          · exact Or.inl (remove_of_ne hk)
        · next hfuture => exact h.insert ((isLive_some _ _).mpr (not_le.mp hfuture).le)
  | flushdb => exact fun key record hrecord => by cases hrecord
  | _ =>
    intro key record hrecord
    refine h key record ?_
    rwa [exec_frame now db id] at hrecord

/-! ### Indexing -/

variable {owed owed' : String → String → Prop}

theorem IndexedBut.mono (h : IndexedBut owed db) (howed : ∀ key tag, owed key tag → owed' key tag) :
    IndexedBut owed' db :=
  fun key tag hcarrier => (h key tag hcarrier).imp_left (howed key tag)

theorem IndexedBut.congr (h : IndexedBut owed db) (hdb : ∀ key, valueAt db' key = valueAt db key) :
    IndexedBut owed db' := by
  intro key tag hcarrier
  rw [member_congr (hdb (tagKey tag))]
  exact h key tag ((carrier_congr (hdb key)).mp hcarrier)

/-- A new entry is owed to its tags; it may take the place of a set of which nothing more is
to be expected. -/
theorem IndexedBut.set (h : IndexedBut owed db) {json : EntryJson V} {mode : SetMode}
    (hjson : ∀ tag ∈ json.tags, owed key tag)
    (hspares : ∀ tag key', tagKey tag = key → Carrier db key' tag → key' = key ∨ owed key' tag) :
    IndexedBut owed (exec now db (.set key json mode)).1 := by
  rcases exec_set_cases now db key json mode with hsame | ⟨t, hset⟩
  · rw [hsame]
    exact h
  · rw [hset]
    intro key' tag hcarrier
    by_cases hk : key' = key
    · subst hk
      obtain ⟨json', hjson', htag⟩ := hcarrier
      rw [valueAt, insert_self] at hjson'
      obtain rfl := Stored.string.inj (Option.some.inj hjson')
      exact Or.inl (hjson tag htag)
    · rw [carrier_congr (valueAt_congr (insert_of_ne hk))] at hcarrier
      by_cases htag : tagKey tag = key
      · exact Or.inl ((hspares tag key' htag hcarrier).resolve_left hk)
      · rw [member_congr (valueAt_congr (insert_of_ne htag))]
        exact h key' tag hcarrier

theorem IndexedBut.del (h : IndexedBut owed db) {keys : List String}
    (hspares : ∀ tag key, tagKey tag ∈ keys → Carrier db key tag → key ∈ keys ∨ owed key tag) :
    IndexedBut owed (exec now db (.del keys)).1 := by
  intro key tag hcarrier
  have hkey : key ∉ keys := by
    intro hmem
    obtain ⟨json, hjson, -⟩ := hcarrier
    rw [valueAt_del, if_pos hmem] at hjson
    cases hjson
  rw [carrier_congr (valueAt_exec_frame (c := .del keys) hkey)] at hcarrier
  by_cases htag : tagKey tag ∈ keys
  · exact Or.inl ((hspares tag key htag hcarrier).resolve_left hkey)
  · rw [member_congr (valueAt_exec_frame (c := .del keys) htag)]
    exact h key tag hcarrier

theorem IndexedBut.sadd (h : IndexedBut owed db) (hlive : Unexpired now db) {setKey member : String}
    (hok : (exec now db (.sadd setKey member)).2.isSome)
    (howed : ∀ key tag, owed key tag → owed' key tag ∨ tagKey tag = setKey ∧ key = member) :
    IndexedBut owed' (exec now db (.sadd setKey member)).1 := by
  obtain ⟨members, t, hset, hmem, hbefore⟩ := exec_sadd hok
  intro key tag hcarrier
  have hkey : key ≠ setKey := by
    intro heq
    subst heq
    obtain ⟨json, hjson, -⟩ := hcarrier
    obtain ⟨t', hdb⟩ := valueAt_eq_some.mp hjson
    cases hset.symm.trans hdb
  rw [carrier_congr (valueAt_exec_frame (c := .sadd setKey member) (Ne.symm hkey))] at hcarrier
  by_cases htag : tagKey tag = setKey
  · subst htag
    have hnow : ∀ key', key' ∈ members →
        owed' key' tag ∨ Member (exec now db (.sadd (tagKey tag) member)).1 tag key' :=
      fun key' hk => Or.inr ⟨members, valueAt_eq_some.mpr ⟨t, hset⟩, hk⟩
    rcases h key tag hcarrier with hold | hmember
    · rcases howed key tag hold with hstill | ⟨-, rfl⟩
      · exact Or.inl hstill
      · exact hnow key hmem
    · rw [hlive.find] at hbefore
      obtain ⟨members', hmembers', hin⟩ := hmember
      obtain ⟨t', hdb⟩ := valueAt_eq_some.mp hmembers'
      rcases hbefore with ⟨hnone, -⟩ | ⟨members'', hdb', hsub⟩
      · cases hnone.symm.trans hdb
      · obtain ⟨heq, -⟩ := Record.mk.inj (Option.some.inj (hdb'.symm.trans hdb))
        obtain rfl := Stored.set.inj heq
        exact hnow key (hsub key hin)
  · rw [member_congr (valueAt_exec_frame (c := .sadd setKey member) fun hk => htag hk.symm)]
    rcases h key tag hcarrier with hold | hmember
    · exact (howed key tag hold).imp id fun hpaid => absurd hpaid.1 htag
    · exact Or.inr hmember

end Redis

end EdgeCache
