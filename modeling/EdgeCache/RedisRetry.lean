import EdgeCache.RedisIndex

/-!
Invalidation by tags that fails on the way. The keys of a set are deleted before the set is,
so that whatever a failed call has not deleted is still in the set, and the call can be made
again. The second call then deletes what the first one has left, and counts it.
-/
namespace EdgeCache

open Programs (Program Fault faultless)

variable {V : Type}

namespace Redis

/-- The set of the tag lasts until then, and has the key. -/
def Lists (db : Database V) (now : Time) (tag key : String) : Prop :=
  ∃ members t, find db now (tagKey tag) = some ⟨.set members, t⟩ ∧ key ∈ members

/-- The names of the tags' sets are kept for sets, and no such name is a member of one. -/
def ProperSets (tags : List String) (db : Database V) : Prop :=
  ∀ tag ∈ tags, ∀ record, db (tagKey tag) = some record →
    ∃ members, record.value = .set members ∧
      ∀ key ∈ members, ∀ tag' ∈ tags, key ≠ tagKey tag'

/-- What invalidating the tags may delete: their members and their sets. -/
def Doomed (tags : List String) (db : Database V) (key : String) : Prop :=
  ∃ tag ∈ tags, key = tagKey tag ∨ Member db tag key

variable {db d d' : Database V} {now later : Time} {tags : List String} {tag key : String}

theorem Lists.member (h : Lists db now tag key) : Member db tag key := by
  obtain ⟨members, t, hfind, hmem⟩ := h
  exact ⟨members, valueAt_eq_some.mpr ⟨t, (find_eq_some_iff.mp hfind).1⟩, hmem⟩

theorem lists_congr (h : d (tagKey tag) = db (tagKey tag)) :
    Lists d now tag key ↔ Lists db now tag key := by
  rw [Lists, Lists, find_congr h]

theorem Member.of_deleted (h : Member d tag key)
    (hdeleted : d (tagKey tag) = db (tagKey tag) ∨ d (tagKey tag) = none) : Member db tag key := by
  rcases hdeleted with hsame | hnone
  · exact (member_congr (valueAt_congr hsame)).mp h
  · obtain ⟨members, hmembers, -⟩ := h
    rw [valueAt, hnone] at hmembers
    cases hmembers

theorem Doomed.of_deleted (h : Doomed tags d key) (hdeleted : ∀ key, d key = db key ∨ d key = none) :
    Doomed tags db key := by
  obtain ⟨tag, htag, hdoomed⟩ := h
  exact ⟨tag, htag, hdoomed.imp id fun hmember => hmember.of_deleted (hdeleted _)⟩

theorem ProperSets.ne (h : ProperSets tags db) (htag : tag ∈ tags) (hkey : Member db tag key) :
    ∀ tag' ∈ tags, key ≠ tagKey tag' := by
  obtain ⟨members, hmembers, hmem⟩ := hkey
  obtain ⟨t, hdb⟩ := valueAt_eq_some.mp hmembers
  obtain ⟨members', heq, hproper⟩ := h tag htag _ hdb
  obtain rfl := Stored.set.inj heq
  exact hproper key hmem

theorem ProperSets.of_deleted (h : ProperSets tags db)
    (hdeleted : ∀ key, d key = db key ∨ d key = none) : ProperSets tags d := by
  intro tag htag record hrecord
  rcases hdeleted (tagKey tag) with hsame | hnone
  · exact h tag htag record (hsame ▸ hrecord)
  · cases hnone.symm.trans hrecord

theorem exec_smembers (hproper : ProperSets tags d) (htag : tag ∈ tags) (now : Time) :
    ∃ keys, exec now d (.smembers (tagKey tag)) = (d, some (.members keys)) ∧
      (∀ key ∈ keys, Member d tag key) ∧
      ∀ key later, now ≤ later → Lists d later tag key → key ∈ keys := by
  cases hfind : find d now (tagKey tag) with
  | none =>
    refine ⟨[], by simp only [exec, hfind], fun key hkey => (by cases hkey), ?_⟩
    intro key later hle hlists
    obtain ⟨members, t, hlater, -⟩ := hlists
    rw [find_eq_none_of_le hle hfind] at hlater
    cases hlater
  | some record =>
    obtain ⟨hrecord, -⟩ := find_eq_some_iff.mp hfind
    obtain ⟨members, hvalue, -⟩ := hproper tag htag record hrecord
    obtain ⟨value, t⟩ := record
    obtain rfl : value = .set members := hvalue
    have hmembers : valueAt d (tagKey tag) = some (.set members) :=
      valueAt_eq_some.mpr ⟨t, hrecord⟩
    refine ⟨members, by simp only [exec, hfind], fun key hkey => ⟨members, hmembers, hkey⟩, ?_⟩
    exact fun key later _ hlists => hlists.member.unique hmembers

theorem exec_del_integer (now : Time) (d : Database V) (keys : List String) :
    ∃ deleted : List String, (exec now d (.del keys)).2 = some (.integer deleted.length) ∧
      deleted.Nodup ∧ ∀ key, key ∈ deleted ↔ key ∈ keys ∧ (find d now key).isSome = true := by
  have hfold : ∀ (n : ℕ) (d : Database V), ∃ deleted : List String,
      (keys.foldl (delete now) (d, n)).2 = n + deleted.length ∧ deleted.Nodup ∧
        ∀ key, key ∈ deleted ↔ key ∈ keys ∧ (find d now key).isSome = true := by
    induction keys with
    | nil => exact fun n d => ⟨[], rfl, List.nodup_nil, fun key => by simp⟩
    | cons key rest ih =>
      intro n d
      obtain ⟨deleted, hcount, hnodup, hmem⟩ :=
        ih (n + (find d now key).isSome.toNat) (remove d key)
      have hself : key ∉ deleted := by
        intro hkey
        obtain ⟨-, hfind⟩ := (hmem key).mp hkey
        simp [find] at hfind
      have hother : ∀ key', key' ≠ key → (key' ∈ deleted ↔
          key' ∈ rest ∧ (find d now key').isSome = true) := by
        intro key' hne
        rw [hmem key', find_congr (remove_of_ne hne)]
      by_cases hlive : (find d now key).isSome = true
      · refine ⟨key :: deleted, ?_, List.nodup_cons.mpr ⟨hself, hnodup⟩, fun key' => ?_⟩
        · rw [List.foldl_cons, delete, hcount, hlive, List.length_cons]
          simp only [Bool.toNat_true]
          omega
        · by_cases hk : key' = key
          · simp [hk, hlive]
          · simp [hk, hother key' hk]
      · refine ⟨deleted, ?_, hnodup, fun key' => ?_⟩
        · have hdead : (find d now key).isSome = false := Bool.eq_false_iff.mpr hlive
          rw [List.foldl_cons, delete, hcount, hdead]
          simp only [Bool.toNat_false, Nat.add_zero]
        · by_cases hk : key' = key
          · subst hk
            exact iff_of_false hself fun h => hlive h.2
          · simp [hk, hother key' hk]
  obtain ⟨deleted, hcount, hrest⟩ := hfold 0 d
  rw [Nat.zero_add] at hcount
  exact ⟨deleted, congrArg (fun n => some (Reply.integer n)) hcount, hrest⟩

/-! ### A call that fails anywhere -/

/-- What invalidating the tags leaves of a state at any point: what was indexed in a set that
lasts is deleted, or the set is as it was. -/
structure Retryable (later : Time) (tags : List String) (db d : Database V) : Prop where
  kept : ∀ key, d key = db key ∨ d key = none ∧ Doomed tags db key
  listed : ∀ tag ∈ tags, ∀ key, Lists db later tag key →
    d key = none ∨ d (tagKey tag) = db (tagKey tag)

theorem Retryable.deleted (h : Retryable later tags db d) (key : String) :
    d key = db key ∨ d key = none := (h.kept key).imp id And.left

theorem attempt_del (fault : Fault) (now : Time) (d : Database V) (keys : List String) :
    (∀ key, (Programs.attempt exec fault now d (.del keys)).1 key = d key ∨
      (Programs.attempt exec fault now d (.del keys)).1 key = none ∧ key ∈ keys) ∧
    ((Programs.attempt exec fault now d (.del keys)).2 ≠ none →
      ∀ key ∈ keys, (Programs.attempt exec fault now d (.del keys)).1 key = none) := by
  have hexec : ∀ key, (exec now d (.del keys)).1 key = d key ∨
      (exec now d (.del keys)).1 key = none ∧ key ∈ keys := by
    intro key
    rw [exec_del]
    split
    · next hkey => exact Or.inr ⟨rfl, hkey⟩
    · exact Or.inl rfl
  cases fault with
  | none => exact ⟨hexec, fun _ key hkey => (exec_del now d keys key).trans (if_pos hkey)⟩
  | lost => exact ⟨fun _ => Or.inl rfl, fun h => absurd rfl h⟩
  | late => exact ⟨hexec, fun h => absurd rfl h⟩

theorem Retryable.members (h : Retryable later tags db d) {keys : List String}
    (hkeys : ∀ key ∈ keys, Doomed tags db key ∧ ∀ tag ∈ tags, key ≠ tagKey tag)
    (hdeleted : ∀ key, d' key = d key ∨ d' key = none ∧ key ∈ keys) :
    Retryable later tags db d' := by
  refine ⟨fun key => ?_, fun tag htag key hlists => ?_⟩
  · rcases hdeleted key with hsame | ⟨hnone, hkey⟩
    · rw [hsame]
      exact h.kept key
    · exact Or.inr ⟨hnone, (hkeys key hkey).1⟩
  · have hset : d' (tagKey tag) = d (tagKey tag) :=
      (hdeleted (tagKey tag)).resolve_right fun hgone => (hkeys _ hgone.2).2 tag htag rfl
    rw [hset]
    rcases h.listed tag htag key hlists with hnone | hsame
    · refine Or.inl ?_
      rcases hdeleted key with hsame | hgone
      · exact hsame.trans hnone
      · exact hgone.1
    · exact Or.inr hsame

theorem Retryable.set (h : Retryable later tags db d) {tag : String} (htag : tag ∈ tags)
    (hmembers : ∀ key, Lists db later tag key → d key = none)
    (hdeleted : ∀ key, d' key = d key ∨ d' key = none ∧ key ∈ [tagKey tag]) :
    Retryable later tags db d' := by
  have hnone : ∀ key, d key = none → d' key = none := by
    intro key hkey
    rcases hdeleted key with hsame | hgone
    · exact hsame.trans hkey
    · exact hgone.1
  refine ⟨fun key => ?_, fun tag' htag' key hlists => ?_⟩
  · rcases hdeleted key with hsame | ⟨hgone, hkey⟩
    · rw [hsame]
      exact h.kept key
    · exact Or.inr ⟨hgone, tag, htag, Or.inl (List.mem_singleton.mp hkey)⟩
  · rcases h.listed tag' htag' key hlists with hgone | hsame
    · exact Or.inl (hnone key hgone)
    · rcases hdeleted (tagKey tag') with hkept | ⟨-, hset⟩
      · exact Or.inr (hkept.trans hsame)
      · obtain rfl := tagKey_inj.mp (List.mem_singleton.mp hset)
        exact Or.inl (hnone key (hmembers key hlists))

end Redis

namespace RedisCacheRepository

open Redis

variable {clock : Clock} {fault : ℕ → Fault} {later : Time} {tags : List String}
  {db d : Database V}

theorem retryable_deleteBatches {next : ℕ → RedisProgram V ℕ} (gone : String → Prop)
    {batches : List (List String)}
    (hbatches : ∀ batch ∈ batches, ∀ key ∈ batch,
      Doomed tags db key ∧ ∀ tag ∈ tags, key ≠ tagKey tag)
    (hnext : ∀ i count d, Retryable later tags db d →
      (∀ key, gone key ∨ (∃ batch ∈ batches, key ∈ batch) → d key = none) →
      Retryable later tags db (Programs.run exec clock fault i (next count) d).1)
    (i count : ℕ) (hd : Retryable later tags db d) (hgone : ∀ key, gone key → d key = none) :
    Retryable later tags db
      (Programs.run exec clock fault i (deleteBatches batches count next) d).1 := by
  induction batches generalizing gone i count d with
  | nil => exact hnext i count d hd fun key hkey => hgone key (hkey.resolve_right (by simp))
  | cons batch rest ih =>
    have hrest : ∀ batch' ∈ rest, ∀ key ∈ batch', Doomed tags db key ∧ ∀ tag ∈ tags,
        key ≠ tagKey tag := fun batch' h => hbatches batch' (List.mem_cons_of_mem batch h)
    unfold deleteBatches
    split
    · obtain ⟨hdeleted, hanswered⟩ := attempt_del (fault i) (clock i) d batch
      have hafter := hd.members (hbatches batch List.mem_cons_self) hdeleted
      simp only [Programs.run]
      cases hreply : (Programs.attempt exec (fault i) (clock i) d (.del batch)).2 with
      | none => exact hafter
      | some reply =>
        have hdead := hanswered (by rw [hreply]; exact Option.some_ne_none reply)
        cases reply with
        | integer n =>
          refine ih (fun key => gone key ∨ key ∈ batch) hrest
            (fun i count d hd hall => hnext i count d hd fun key hkey => hall key ?_)
            (i + 1) _ hafter fun key hkey => ?_
          · rcases hkey with hkey | ⟨batch', hbatch', hkey⟩
            · exact Or.inl (Or.inl hkey)
            · rcases List.mem_cons.mp hbatch' with rfl | hin
              · exact Or.inl (Or.inr hkey)
              · exact Or.inr ⟨batch', hin, hkey⟩
          · rcases hkey with hkey | hkey
            · rcases hdeleted key with hsame | hnone
              · exact hsame.trans (hgone key hkey)
              · exact hnone.1
            · exact hdead key hkey
        | _ => exact hafter
    · next hempty =>
      refine ih gone hrest
        (fun i count d hd hall => hnext i count d hd fun key hkey => hall key ?_) i count hd hgone
      rcases hkey with hkey | ⟨batch', hbatch', hkey⟩
      · exact Or.inl hkey
      · rcases List.mem_cons.mp hbatch' with rfl | hin
        · exact absurd (List.length_pos_of_mem hkey) hempty
        · exact Or.inr ⟨batch', hin, hkey⟩

theorem mem_of_mem_chunk {α : Type} {l : List α} {size : ℕ} {batch : List α}
    (hbatch : batch ∈ chunk l size) {a : α} (ha : a ∈ batch) : a ∈ l := by
  obtain ⟨i, -, rfl⟩ := List.mem_map.mp hbatch
  exact List.mem_of_mem_drop (List.mem_of_mem_take ha)

/-- Wherever an invalidation fails, it can be made again. -/
theorem retryable_deleteTags (hproper : ProperSets tags db) (hlater : ∀ i, clock i ≤ later)
    {rest : List String} (hrest : rest ⊆ tags) (i count : ℕ) (hd : Retryable later tags db d) :
    Retryable later tags db (Programs.run exec clock fault i (deleteTags rest count) d).1 := by
  induction rest generalizing i count d with
  | nil => exact hd
  | cons tag rest ih =>
    have htag : tag ∈ tags := hrest List.mem_cons_self
    obtain ⟨keys, hexec, hmembers, hlisted⟩ :=
      exec_smembers (hproper.of_deleted hd.deleted) htag (clock i)
    have hkeys : ∀ batch ∈ chunk keys 100, ∀ key ∈ batch,
        Doomed tags db key ∧ ∀ tag' ∈ tags, key ≠ tagKey tag' := by
      intro batch hbatch key hkey
      have hmember := (hmembers key (mem_of_mem_chunk hbatch hkey)).of_deleted
        (hd.deleted (tagKey tag))
      exact ⟨⟨tag, htag, Or.inr hmember⟩, hproper.ne htag hmember⟩
    have hread : ∀ key, Lists db later tag key → d key = none ∨ key ∈ keys := by
      intro key hlists
      rcases hd.listed tag htag key hlists with hnone | hsame
      · exact Or.inl hnone
      · exact Or.inr (hlisted key later (hlater i) ((lists_congr hsame).mpr hlists))
    cases hfault : fault i with
    | none =>
      simp only [deleteTags, Programs.run, Programs.attempt, hfault, hexec]
      refine retryable_deleteBatches (fun key => d key = none) hkeys
        (fun i count d' hd' hgone => ?_) (i + 1) count hd fun _ h => h
      obtain ⟨hdeleted, -⟩ := attempt_del (fault i) (clock i) d' [tagKey tag]
      have hafter := hd'.set htag (fun key hlists => hgone key ?_) hdeleted
      · simp only [Programs.run]
        cases (Programs.attempt exec (fault i) (clock i) d' (.del [tagKey tag])).2 with
        | none => exact hafter
        | some reply => exact ih (fun _ h => hrest (List.mem_cons_of_mem tag h)) (i + 1) count hafter
      · rcases hread key hlists with hnone | hkey
        · exact Or.inl hnone
        · exact Or.inr (mem_chunk (by decide) hkey)
    | lost =>
      simp only [deleteTags, Programs.run, Programs.attempt, hfault]
      exact hd
    | late =>
      simp only [deleteTags, Programs.run, Programs.attempt, hfault, hexec]
      exact hd

end RedisCacheRepository

/-! ### A call that goes through -/

namespace Redis

/-- The keys have been deleted, apart from tag sets: each was there at some time of the call, and
every key that is gone and was there through the call is among them. -/
structure Deletes (clock : Clock) (tags : List String) (before after : Database V)
    (deleted : List String) : Prop where
  nodup : deleted.Nodup
  gone : ∀ key ∈ deleted, after key = none
  found : ∀ key ∈ deleted, (∃ tag ∈ tags, Member before tag key) ∧
    ∃ i, (find before (clock i) key).isSome = true
  kept : ∀ key, after key = before key ∨ after key = none ∧ Doomed tags before key
  counted : ∀ key later, (∀ tag ∈ tags, key ≠ tagKey tag) → (∀ i, clock i ≤ later) →
    after key = none → (find before later key).isSome = true → key ∈ deleted

variable {clock : Clock} {tags : List String} {before mid after db : Database V}
  {deleted deleted' : List String}

theorem Deletes.refl (clock : Clock) (tags : List String) (db : Database V) :
    Deletes clock tags db db [] := by
  refine ⟨List.nodup_nil, fun _ h => (by cases h), fun _ h => (by cases h), fun _ => Or.inl rfl, ?_⟩
  intro key later _ _ hnone hfind
  simp [find, hnone] at hfind

theorem Deletes.ne_none (h : Deletes clock tags before mid deleted) {key : String} {now : Time}
    (hfind : (find mid now key).isSome = true) : mid key = before key := by
  refine (h.kept key).resolve_right fun hgone => ?_
  simp [find, hgone.1] at hfind

theorem Deletes.of_none (h : Deletes clock tags mid after deleted) {key : String}
    (hnone : mid key = none) : after key = none := by
  rcases h.kept key with hsame | hgone
  · exact hsame.trans hnone
  · exact hgone.1

theorem Deletes.deleted_or (h : Deletes clock tags before mid deleted) (key : String) :
    mid key = before key ∨ mid key = none := (h.kept key).imp id And.left

theorem Deletes.trans (h : Deletes clock tags before mid deleted)
    (h' : Deletes clock tags mid after deleted') :
    Deletes clock tags before after (deleted ++ deleted') := by
  refine ⟨List.nodup_append.mpr ⟨h.nodup, h'.nodup, fun key hkey key' hkey' heq => ?_⟩,
    fun key hkey => ?_, fun key hkey => ?_, fun key => ?_,
    fun key later htag hlater hnone hfind => ?_⟩
  · subst heq
    obtain ⟨-, i, hfind⟩ := h'.found key hkey'
    simp [find, h.gone key hkey] at hfind
  · rcases List.mem_append.mp hkey with hfirst | hsecond
    · exact h'.of_none (h.gone key hfirst)
    · exact h'.gone key hsecond
  · rcases List.mem_append.mp hkey with hfirst | hsecond
    · exact h.found key hfirst
    · obtain ⟨⟨tag, htag, hmember⟩, i, hfind⟩ := h'.found key hsecond
      exact ⟨⟨tag, htag, hmember.of_deleted (h.deleted_or _)⟩, i,
        find_congr (h.ne_none hfind) ▸ hfind⟩
  · rcases h'.kept key with hsame | ⟨hnone, hdoomed⟩
    · rw [hsame]
      exact h.kept key
    · exact Or.inr ⟨hnone, hdoomed.of_deleted h.deleted_or⟩
  · rcases h.kept key with hsame | ⟨hgone, -⟩
    · refine List.mem_append_right _ (h'.counted key later htag hlater hnone ?_)
      rwa [find_congr hsame]
    · exact List.mem_append_left _ (h.counted key later htag hlater hgone hfind)

theorem deletes_members (clock : Clock) (i : ℕ) {keys : List String}
    (hkeys : ∀ key ∈ keys, ∃ tag ∈ tags, Member db tag key) :
    ∃ deleted : List String,
      (exec (clock i) db (.del keys)).2 = some (.integer deleted.length) ∧
      Deletes clock tags db (exec (clock i) db (.del keys)).1 deleted := by
  obtain ⟨deleted, hcount, hnodup, hmem⟩ := exec_del_integer (clock i) db keys
  refine ⟨deleted, hcount, hnodup, fun key hkey => ?_, fun key hkey => ?_, fun key => ?_, ?_⟩
  · rw [exec_del, if_pos ((hmem key).mp hkey).1]
  · obtain ⟨hin, hfind⟩ := (hmem key).mp hkey
    exact ⟨hkeys key hin, i, hfind⟩
  · rw [exec_del]
    split
    · next hin =>
      obtain ⟨tag, htag, hmember⟩ := hkeys key hin
      exact Or.inr ⟨rfl, tag, htag, Or.inr hmember⟩
    · exact Or.inl rfl
  · intro key later _ hlater hnone hfind
    rw [exec_del] at hnone
    split at hnone
    · next hin =>
      obtain ⟨record, hrecord⟩ := Option.isSome_iff_exists.mp hfind
      obtain ⟨hdb, hlive⟩ := find_eq_some_iff.mp hrecord
      have hearlier := find_eq_some_iff.mpr ⟨hdb, isLive_of_le (hlater i) hlive⟩
      exact (hmem key).mpr ⟨hin, hearlier ▸ rfl⟩
    · simp [find, hnone] at hfind

theorem deletes_set (clock : Clock) {tag : String} (htag : tag ∈ tags) (now : Time)
    (db : Database V) :
    Deletes clock tags db (exec now db (.del [tagKey tag])).1 [] := by
  refine ⟨List.nodup_nil, fun _ h => (by cases h), fun _ h => (by cases h), fun key => ?_, ?_⟩
  · rw [exec_del]
    split
    · next hkey => exact Or.inr ⟨rfl, tag, htag, Or.inl (List.mem_singleton.mp hkey)⟩
    · exact Or.inl rfl
  · intro key later hne _ hnone hfind
    rw [exec_del, if_neg fun hkey => hne tag htag (List.mem_singleton.mp hkey)] at hnone
    simp [find, hnone] at hfind

end Redis

namespace RedisCacheRepository

open Redis

variable {clock : Clock} {tags : List String} {db : Database V}

theorem deletes_deleteBatches (clock : Clock) (next : ℕ → RedisProgram V ℕ)
    (batches : List (List String))
    (hbatches : ∀ batch ∈ batches, ∀ key ∈ batch, ∃ tag ∈ tags, Member db tag key)
    (hproper : ProperSets tags db) (i count : ℕ) :
    ∃ j after deleted, Programs.run exec clock faultless i (deleteBatches batches count next) db =
        Programs.run exec clock faultless j (next (count + deleted.length)) after ∧
      Deletes clock tags db after deleted ∧ (∀ batch ∈ batches, ∀ key ∈ batch, after key = none) ∧
      ∀ tag ∈ tags, after (tagKey tag) = db (tagKey tag) := by
  induction batches generalizing i count db with
  | nil =>
    exact ⟨i, db, [], rfl, .refl clock tags db, fun _ h => (by cases h), fun _ _ => rfl⟩
  | cons batch rest ih =>
    have hrest : ∀ batch' ∈ rest, ∀ key ∈ batch', ∃ tag ∈ tags, Member db tag key :=
      fun batch' h => hbatches batch' (List.mem_cons_of_mem batch h)
    unfold deleteBatches
    split
    · have hbatch := hbatches batch List.mem_cons_self
      obtain ⟨deleted, hcount, hdeletes⟩ := deletes_members clock i hbatch
      have hsets : ∀ tag ∈ tags, (exec (clock i) db (.del batch)).1 (tagKey tag) =
          db (tagKey tag) := by
        intro tag htag
        rw [exec_del, if_neg]
        intro hset
        obtain ⟨tag', htag', hmember'⟩ := hbatch _ hset
        exact hproper.ne htag' hmember' tag htag rfl
      have hmembers : ∀ batch' ∈ rest, ∀ key ∈ batch', ∃ tag ∈ tags,
          Member (exec (clock i) db (.del batch)).1 tag key := by
        intro batch' hbatch' key hkey
        obtain ⟨tag, htag, hmember⟩ := hrest batch' hbatch' key hkey
        exact ⟨tag, htag, (member_congr (valueAt_congr (hsets tag htag))).mpr hmember⟩
      obtain ⟨j, after, deleted', hrun, hdeletes', hgone, hsets'⟩ :=
        ih hmembers (hproper.of_deleted hdeletes.deleted_or) (i + 1) (count + deleted.length)
      refine ⟨j, after, deleted ++ deleted', ?_, hdeletes.trans hdeletes', ?_,
        fun tag htag => (hsets' tag htag).trans (hsets tag htag)⟩
      · rw [List.length_append, ← Nat.add_assoc, ← hrun]
        simp only [Programs.run, Programs.attempt, faultless, hcount]
      · intro batch' hbatch' key hkey
        rcases List.mem_cons.mp hbatch' with rfl | hin
        · exact hdeletes'.of_none ((exec_del _ _ _ key).trans (if_pos hkey))
        · exact hgone batch' hin key hkey
    · next hempty =>
      obtain ⟨j, after, deleted, hrun, hdeletes, hgone, hsets⟩ := ih hrest hproper i count
      refine ⟨j, after, deleted, hrun, hdeletes, fun batch' hbatch' key hkey => ?_, hsets⟩
      rcases List.mem_cons.mp hbatch' with rfl | hin
      · exact absurd (List.length_pos_of_mem hkey) hempty
      · exact hgone batch' hin key hkey

/-- An invalidation that goes through deletes what its sets list, and the sets, and counts the
members it has deleted. -/
theorem deletes_deleteTags (clock : Clock) (hproper : ProperSets tags db) {rest : List String}
    (hrest : rest ⊆ tags) (i count : ℕ) :
    ∃ after deleted, Programs.run exec clock faultless i (deleteTags rest count) db =
        (after, some (count + deleted.length)) ∧
      Deletes clock tags db after deleted ∧ (∀ tag ∈ rest, after (tagKey tag) = none) ∧
      ∀ tag ∈ rest, ∀ key later, (∀ i, clock i ≤ later) → Lists db later tag key →
        after key = none := by
  induction rest generalizing i count db with
  | nil =>
    exact ⟨db, [], rfl, .refl clock tags db, fun _ h => (by cases h), fun _ h => (by cases h)⟩
  | cons tag rest ih =>
    have htag : tag ∈ tags := hrest List.mem_cons_self
    obtain ⟨keys, hexec, hmembers, hlisted⟩ := exec_smembers hproper htag (clock i)
    have hkeys : ∀ batch ∈ chunk keys 100, ∀ key ∈ batch, ∃ tag ∈ tags, Member db tag key :=
      fun batch hbatch key hkey => ⟨tag, htag, hmembers key (mem_of_mem_chunk hbatch hkey)⟩
    have hturn : ∃ j mid deleted, Programs.run exec clock faultless i
          (deleteTags (tag :: rest) count) db =
        Programs.run exec clock faultless (j + 1) (deleteTags rest (count + deleted.length))
          (exec (clock j) mid (.del [tagKey tag])).1 ∧
        Deletes clock tags db mid deleted ∧
        (∀ batch ∈ chunk keys 100, ∀ key ∈ batch, mid key = none) ∧
        ∀ tag ∈ tags, mid (tagKey tag) = db (tagKey tag) := by
      simp only [deleteTags, Programs.run, Programs.attempt, faultless, hexec]
      exact deletes_deleteBatches clock _ (chunk keys 100) hkeys hproper (i + 1) count
    obtain ⟨j, mid, deleted, hrun, hdeletes, hgone, hkept⟩ := hturn
    have hset := deletes_set clock htag (clock j) mid
    have hboth := hdeletes.trans hset
    obtain ⟨after, deleted', hrun', hdeletes', hsets, hlists⟩ :=
      ih (hproper.of_deleted hboth.deleted_or) (fun _ h => hrest (List.mem_cons_of_mem tag h))
        (j + 1) (count + deleted.length)
    refine ⟨after, (deleted ++ []) ++ deleted', ?_, hboth.trans hdeletes', ?_, ?_⟩
    · rw [List.append_nil, List.length_append, ← Nat.add_assoc, ← hrun']
      exact hrun
    · intro tag' htag'
      rcases List.mem_cons.mp htag' with rfl | hin
      · exact hdeletes'.of_none ((exec_del _ _ _ _).trans (if_pos (List.mem_singleton_self _)))
      · exact hsets tag' hin
    · intro tag' htag' key later hlater hlist
      by_cases htags : tag' = tag
      · subst htags
        obtain ⟨batch, hbatch, hkey⟩ := mem_chunk (Nat.succ_pos 99)
          (hlisted key later (hlater i) hlist)
        exact hdeletes'.of_none (hset.of_none (hgone batch hbatch key hkey))
      · have hin := (List.mem_cons.mp htag').resolve_left htags
        have hsame : (exec (clock j) mid (.del [tagKey tag])).1 (tagKey tag') =
            db (tagKey tag') := by
          rw [exec_del, if_neg fun h => htags (tagKey_inj.mp (List.mem_singleton.mp h))]
          exact hkept tag' (hrest htag')
        exact hlists tag' hin key later hlater ((lists_congr hsame).mpr hlist)

theorem run_deleteByTags_frame (client : Client) (clock : Clock) (fault : ℕ → Fault)
    (db : Database V) {doomed : String → Prop} (hkept : ∀ key,
      client.view (Programs.run client.send clock fault 0 (deleteByTags tags) db).1 key =
        client.view db key ∨ doomed key)
    {name : String} (hname : ∀ key, doomed key → name ≠ client.keyPrefix ++ key) :
    (Programs.run client.send clock fault 0 (deleteByTags tags) db).1 name = db name := by
  by_cases hkey : ∃ key, name = client.keyPrefix ++ key
  · obtain ⟨key, rfl⟩ := hkey
    exact (hkept key).resolve_right fun hdoomed => hname key hdoomed rfl
  · exact client.run_frame (deleteTags_meets (fun _ h => by cases h) (fun _ h => by cases h) tags 0)
      (fun key heq => hkey ⟨key, heq⟩) clock fault 0 db

/-- Wherever an invalidation fails, every key that one of its tags lists is deleted or still
listed, and nothing else has changed; the next one that goes through deletes those that are
left, and the sets of the tags, and returns the number of keys that it has deleted. -/
theorem deleteByTags_retried (client : Client) (tags : List String) (db : Database V)
    (hproper : ProperSets tags (client.view db)) (clock clock' : Clock) (fault : ℕ → Fault) :
    let first := (Programs.run client.send clock fault 0 (deleteByTags tags) db).1
    let second := Programs.run client.send clock' faultless 0 (deleteByTags tags) first
    (∀ name, (∀ key, Doomed tags (client.view db) key → name ≠ client.keyPrefix ++ key) →
      first name = db name ∧ second.1 name = db name) ∧
    (∀ later, (∀ i, clock i ≤ later) → ∀ tag ∈ tags, ∀ key, Lists (client.view db) later tag key →
      client.view first key = none ∨ Lists (client.view first) later tag key) ∧
    (∀ later, (∀ i, clock i ≤ later) → (∀ i, clock' i ≤ later) → ∀ tag ∈ tags, ∀ key,
      Lists (client.view db) later tag key → client.view second.1 key = none) ∧
    (∀ tag ∈ tags, client.view second.1 (tagKey tag) = none) ∧
    ∃ deleted, second.2 = some deleted.length ∧
      Deletes clock' tags (client.view first) (client.view second.1) deleted := by
  intro first second
  have hview := (Programs.run_view client.view_send clock fault 0 (deleteByTags tags) db).1
  obtain ⟨hview', hresult'⟩ :=
    Programs.run_view client.view_send clock' faultless 0 (deleteByTags tags) first
  have hretry : ∀ later, (∀ i, clock i ≤ later) →
      Retryable later tags (client.view db) (client.view first) := by
    intro later hlater
    have hstart : Retryable later tags (client.view db) (client.view db) :=
      ⟨fun _ => Or.inl rfl, fun _ _ _ _ => Or.inr rfl⟩
    exact hview ▸ retryable_deleteTags hproper hlater (fun _ h => h) 0 0 hstart
  have hkept := (hretry ⟨maxTime, by decide⟩ fun i => (clock i).property.2).kept
  have hdeleted : ∀ key, client.view first key = client.view db key ∨
      client.view first key = none := fun key => (hkept key).imp id And.left
  obtain ⟨after, deleted, hrun, hdeletes, hsets, hlists⟩ := deletes_deleteTags clock'
    (hproper.of_deleted hdeleted) (fun _ h => h) 0 0
  rw [Nat.zero_add] at hrun
  obtain rfl : client.view second.1 = after := hview'.trans (congrArg Prod.fst hrun)
  refine ⟨fun name hname => ?_, fun later hlater tag htag key hlist => ?_,
    fun later hlater hlater' tag htag key hlist => ?_, hsets,
    deleted, hresult'.trans (congrArg Prod.snd hrun), hdeletes⟩
  · have hfirst : first name = db name :=
      run_deleteByTags_frame client clock fault db (fun key => (hkept key).imp id And.right) hname
    refine ⟨hfirst, (run_deleteByTags_frame client clock' faultless first
      (fun key => (hdeletes.kept key).imp id fun hgone => ?_) hname).trans hfirst⟩
    exact hgone.2.of_deleted hdeleted
  · exact ((hretry later hlater).listed tag htag key hlist).imp id fun hsame =>
      (lists_congr hsame).mpr hlist
  · rcases (hretry later hlater).listed tag htag key hlist with hnone | hsame
    · exact hdeletes.of_none hnone
    · exact hlists tag htag key later hlater' ((lists_congr hsame).mpr hlist)

end RedisCacheRepository

/-- An entry, and the set of its tag. -/
def Redis.oneTagged (now : Time) : Database ℕ :=
  Redis.insert (Redis.insert (fun _ => none) "edgecache:a"
    ⟨.string (.stringify (.create now "a" 7 (.ofNat 60) ["t"] [])), some (now.val + 60000)⟩)
    ("edgecache:" ++ tagKey "t") ⟨.set ["a"], some (now.val + 120000)⟩

theorem Redis.properSets_oneTagged (now : Time) :
    Redis.ProperSets ["t"] (Client.view ⟨"edgecache:"⟩ (Redis.oneTagged now)) := by
  intro tag htag record hrecord
  obtain rfl := List.mem_singleton.mp htag
  have hset : Client.view ⟨"edgecache:"⟩ (Redis.oneTagged now) (tagKey "t") =
      some ⟨.set ["a"], some (now.val + 120000)⟩ := by
    simp only [Client.view, Redis.oneTagged, Redis.insert_self]
  obtain rfl := Option.some.inj (hset.symm.trans hrecord)
  refine ⟨["a"], rfl, fun key hkey tag' htag' => ?_⟩
  obtain rfl := List.mem_singleton.mp hkey
  exact (tagKey_ne_of_length_lt (by decide)).symm

/-- The deletion of the batch is lost, and made up for by the next call. -/
theorem RedisCacheRepository.deleteByTags_retried_after_lost :
    let client : Client := ⟨"edgecache:"⟩
    let db := Redis.oneTagged ⟨1000, by decide⟩
    let first := (Programs.run client.send (fun _ => ⟨2000, by decide⟩)
      (fun i => if i = 1 then .lost else .none) 0 (deleteByTags ["t"]) db).1
    client.view first "a" = client.view db "a" ∧
      client.view (Programs.run client.send (fun _ => ⟨3000, by decide⟩) faultless 0
        (deleteByTags ["t"]) first).1 "a" = none := by
  intro client db first
  refine ⟨by decide +kernel, ?_⟩
  obtain ⟨-, -, hgone, -⟩ := deleteByTags_retried client ["t"] db
    (Redis.properSets_oneTagged ⟨1000, by decide⟩) (fun _ => ⟨2000, by decide⟩)
    (fun _ => ⟨3000, by decide⟩) fun i => if i = 1 then .lost else .none
  refine hgone ⟨4000, by decide⟩ (fun _ => Subtype.mk_le_mk.mpr (by decide))
    (fun _ => Subtype.mk_le_mk.mpr (by decide)) "t" (List.mem_singleton_self "t") "a" ?_
  exact ⟨["a"], some 121000, by decide +kernel, List.mem_singleton_self "a"⟩

end EdgeCache
