import EdgeCache.CacheEntry
import Mathlib.Logic.Function.Basic

/-!
The Redis server, as far as the cache uses it: strings holding entries, sets of keys,
times to live. A key whose time has passed is gone for every command, whether or not it
has been swept away. A command that answers with an error has no reply here, since the
client rejects in that case.
-/
namespace EdgeCache

inductive Stored (V : Type) where
  | string (json : EntryJson V)
  | set (members : List String)
  deriving DecidableEq

structure Record (V : Type) where
  value : Stored V
  expireAt : Option ℤ
  deriving DecidableEq

abbrev Database (V : Type) := String → Option (Record V)

inductive SetMode where
  | ex (seconds : JsNumber)
  | exNx (seconds : JsNumber)
  | keepTtl

inductive Command (V : Type) where
  | get (key : String)
  | set (key : String) (json : EntryJson V) (mode : SetMode)
  | del (keys : List String)
  | sadd (key member : String)
  | expire (key : String) (seconds : JsNumber)
  | smembers (key : String)
  | exists_ (key : String)
  | mget (keys : List String)
  | flushdb

inductive Reply (V : Type) where
  | nil
  | ok
  | string (json : EntryJson V)
  | integer (n : ℕ)
  | members (keys : List String)
  | strings (jsons : List (Option (EntryJson V)))

namespace Redis

variable {V : Type}

/-- A key expires when the clock has passed its time. -/
def isLive (now : Time) (record : Record V) : Bool :=
  record.expireAt.all fun t => now.val ≤ t

def find (db : Database V) (now : Time) (key : String) : Option (Record V) :=
  (db key).filter (isLive now)

def insert (db : Database V) (key : String) (record : Record V) : Database V :=
  Function.update db key (some record)

def remove (db : Database V) (key : String) : Database V := Function.update db key none

def longMax : ℤ := 9223372036854775807

/-- `now` plus an argument in seconds, unless it is no integer or overflows. -/
def expireTime (now : Time) : JsNumber → Option ℤ
  | .finite q =>
    if q.den = 1 ∧ |q.num| ≤ longMax / 1000 ∧ now.val + q.num * 1000 ≤ longMax then
      some (now.val + q.num * 1000)
    else none
  | _ => none

/-- `SET` takes no time that is not in the future. -/
def setDeadline (now : Time) (seconds : JsNumber) : Option ℤ :=
  (expireTime now seconds).filter fun t => now.val < t

def delete (now : Time) (state : Database V × ℕ) (key : String) : Database V × ℕ :=
  (remove state.1 key, state.2 + (find state.1 now key).isSome.toNat)

/-- The database after a command, and the reply unless it is an error. -/
def exec (now : Time) (db : Database V) : Command V → Database V × Option (Reply V)
  | .get key =>
    match find db now key with
    | none => (db, some .nil)
    | some ⟨.string json, _⟩ => (db, some (.string json))
    | some ⟨.set _, _⟩ => (db, none)
  | .set key json (.ex seconds) =>
    match setDeadline now seconds with
    | none => (db, none)
    | some t => (insert db key ⟨.string json, some t⟩, some .ok)
  | .set key json (.exNx seconds) =>
    match setDeadline now seconds with
    | none => (db, none)
    | some t =>
      if (find db now key).isSome then (db, some .nil)
      else (insert db key ⟨.string json, some t⟩, some .ok)
  | .set key json .keepTtl =>
    (insert db key ⟨.string json, (find db now key).bind (·.expireAt)⟩, some .ok)
  | .del keys =>
    let (db, n) := keys.foldl (delete now) (db, 0)
    (db, some (.integer n))
  | .sadd key member =>
    match find db now key with
    | none => (insert db key ⟨.set [member], none⟩, some (.integer 1))
    | some ⟨.set members, t⟩ =>
      if member ∈ members then (db, some (.integer 0))
      else (insert db key ⟨.set (members ++ [member]), t⟩, some (.integer 1))
    | some ⟨.string _, _⟩ => (db, none)
  | .expire key seconds =>
    match expireTime now seconds with
    | none => (db, none)
    | some t =>
      match find db now key with
      | none => (db, some (.integer 0))
      | some record =>
        if t ≤ now.val then (remove db key, some (.integer 1))
        else (insert db key { record with expireAt := some t }, some (.integer 1))
  | .smembers key =>
    match find db now key with
    | none => (db, some (.members []))
    | some ⟨.set members, _⟩ => (db, some (.members members))
    | some ⟨.string _, _⟩ => (db, none)
  | .exists_ key => (db, some (.integer (find db now key).isSome.toNat))
  | .mget keys =>
    (db, some (.strings (keys.map fun key =>
      match find db now key with
      | some ⟨.string json, _⟩ => some json
      | _ => none)))
  | .flushdb => (fun _ => none, some .ok)

/-! ### Lookups -/

section Find

variable {db : Database V} {now later : Time} {key : String} {record : Record V}

theorem find_eq_some_iff :
    find db now key = some record ↔ db key = some record ∧ isLive now record = true := by
  simp [find, Option.filter_eq_some_iff]

theorem isLive_some (t : ℤ) (value : Stored V) :
    isLive now ⟨value, some t⟩ = true ↔ now.val ≤ t := by
  simp [isLive]

theorem isLive_of_le (hle : now ≤ later) (h : isLive later record = true) :
    isLive now record = true := by
  have hle' : now.val ≤ later.val := hle
  cases hexpire : record.expireAt with
  | none => simp [isLive, hexpire]
  | some t =>
    simp only [isLive, hexpire, Option.all_some, decide_eq_true_eq] at h ⊢
    omega

theorem find_eq_none_of_le (hle : now ≤ later) (h : find db now key = none) :
    find db later key = none := by
  rw [Option.eq_none_iff_forall_not_mem] at h ⊢
  intro record hrecord
  obtain ⟨hdb, hlive⟩ := find_eq_some_iff.mp hrecord
  exact h record (find_eq_some_iff.mpr ⟨hdb, isLive_of_le hle hlive⟩)

@[simp] theorem insert_self : insert db key record key = some record :=
  Function.update_self ..

theorem insert_of_ne {key' : String} (h : key' ≠ key) : insert db key record key' = db key' :=
  Function.update_of_ne h ..

@[simp] theorem remove_self : remove db key key = none := Function.update_self ..

theorem remove_of_ne {key' : String} (h : key' ≠ key) : remove db key key' = db key' :=
  Function.update_of_ne h ..

theorem find_congr {db' : Database V} (h : db' key = db key) :
    find db' now key = find db now key := by
  rw [find, find, h]

end Find

theorem setDeadline_ofNat {now : Time} {n : ℕ} (hpos : 0 < n) (hle : now.val + n * 1000 ≤ maxTime) :
    setDeadline now (.ofNat n) = some (now.val + n * 1000) := by
  have hnow := now.property.1
  have hmax : maxTime = 8640000000000000 := rfl
  have hlong : longMax = 9223372036854775807 := rfl
  have habs : |(n : ℤ)| = n := abs_of_nonneg (Int.natCast_nonneg n)
  simp only [setDeadline, expireTime, JsNumber.ofNat, Rat.den_natCast, Rat.num_natCast, habs]
  rw [if_pos ⟨trivial, by omega, by omega⟩]
  simp only [Option.filter_some]
  rw [if_pos (decide_eq_true (by omega))]

/-! ### Commands that leave a key alone -/

/-- The keys a command may write; `FLUSHDB` writes them all. -/
def Writes (key : String) : Command V → Prop
  | .set key' _ _ => key' = key
  | .del keys => key ∈ keys
  | .sadd key' _ => key' = key
  | .expire key' _ => key' = key
  | .flushdb => True
  | _ => False

theorem foldl_delete_fst (now : Time) (keys : List String) (state : Database V × ℕ)
    (key : String) :
    (keys.foldl (delete now) state).1 key = if key ∈ keys then none else state.1 key := by
  induction keys generalizing state with
  | nil => rfl
  | cons key' rest ih =>
    rw [List.foldl_cons, ih]
    by_cases hk : key = key'
    · simp [hk, delete]
    · simp [hk, delete, remove_of_ne hk]

theorem exec_del (now : Time) (db : Database V) (keys : List String) (key : String) :
    (exec now db (.del keys)).1 key = if key ∈ keys then none else db key :=
  foldl_delete_fst now keys (db, 0) key

/-- A `SET` stores the document with some time or none, or changes nothing. -/
theorem exec_set_cases (now : Time) (db : Database V) (key : String) (json : EntryJson V)
    (mode : SetMode) :
    (exec now db (.set key json mode)).1 = db ∨
      ∃ expireAt, (exec now db (.set key json mode)).1 = insert db key ⟨.string json, expireAt⟩ := by
  cases mode with
  | ex seconds =>
    simp only [exec]
    split
    · exact Or.inl rfl
    · exact Or.inr ⟨_, rfl⟩
  | exNx seconds =>
    simp only [exec]
    split
    · exact Or.inl rfl
    · split
      · exact Or.inl rfl
      · exact Or.inr ⟨_, rfl⟩
  | keepTtl => exact Or.inr ⟨_, rfl⟩

/-- A command changes nothing under the keys it does not write. -/
theorem exec_frame (now : Time) (db : Database V) {c : Command V} {key : String}
    (h : ¬ Writes key c) : (exec now db c).1 key = db key := by
  have hinsert : ∀ {key' record}, key' ≠ key → insert db key' record key = db key :=
    fun hne => insert_of_ne (Ne.symm hne)
  cases c with
  | get key' =>
    simp only [exec]
    split <;> rfl
  | set key' json mode =>
    rcases exec_set_cases now db key' json mode with heq | ⟨t, heq⟩
    · rw [heq]
    · rw [heq]
      exact hinsert h
  | del keys =>
    rw [exec_del]
    exact if_neg h
  | sadd key' member =>
    simp only [exec]
    split
    · exact hinsert h
    · split
      · rfl
      · exact hinsert h
    · rfl
  | expire key' seconds =>
    simp only [exec]
    split
    · rfl
    · split
      · rfl
      · split
        · exact remove_of_ne (Ne.symm h)
        · exact hinsert h
  | smembers key' =>
    simp only [exec]
    split <;> rfl
  | exists_ key' => rfl
  | mget keys => rfl
  | flushdb => exact absurd trivial h

/-- A document under a key is the one a `SET` has just written, or has not been touched, or
has been given another time while it was there. -/
theorem exec_string_cases {now : Time} {db : Database V} {c : Command V} {key : String}
    {json : EntryJson V} {expireAt : Option ℤ}
    (h : (exec now db c).1 key = some ⟨.string json, expireAt⟩) :
    (∃ mode, c = .set key json mode) ∨ db key = some ⟨.string json, expireAt⟩ ∨
      expireAt.isSome = true ∧ ∃ t, find db now key = some ⟨.string json, t⟩ := by
  by_cases hwrites : Writes key c
  · cases c with
    | set key' json' mode =>
      obtain rfl : key' = key := hwrites
      rcases exec_set_cases now db key' json' mode with heq | ⟨t, heq⟩
      · exact Or.inr (Or.inl (heq ▸ h))
      · simp only [heq, insert_self, Option.some.injEq, Record.mk.injEq, Stored.string.injEq] at h
        exact Or.inl ⟨_, by rw [h.1]⟩
    | del keys =>
      have hmem : key ∈ keys := hwrites
      simp [exec_del, hmem] at h
    | sadd key' member =>
      obtain rfl : key' = key := hwrites
      simp only [exec] at h
      split at h
      · simp at h
      · split at h
        · exact Or.inr (Or.inl h)
        · simp at h
      · exact Or.inr (Or.inl h)
    | expire key' seconds =>
      obtain rfl : key' = key := hwrites
      simp only [exec] at h
      split at h
      · exact Or.inr (Or.inl h)
      · split at h
        · exact Or.inr (Or.inl h)
        · next record hfind =>
          split at h
          · simp at h
          · simp only [insert_self, Option.some.injEq, Record.mk.injEq] at h
            exact Or.inr (Or.inr ⟨h.2 ▸ rfl, record.expireAt, by rw [hfind, ← h.1]⟩)
    | flushdb => simp [exec] at h
    | _ => exact hwrites.elim
  · rw [exec_frame now db hwrites] at h
    exact Or.inr (Or.inl h)

theorem exec_string {now : Time} {db : Database V} {c : Command V} {key : String}
    {json : EntryJson V} {expireAt : Option ℤ}
    (h : (exec now db c).1 key = some ⟨.string json, expireAt⟩) :
    (∃ mode, c = .set key json mode) ∨ ∃ t, db key = some ⟨.string json, t⟩ := by
  rcases exec_string_cases h with hset | hsame | ⟨-, t, hfind⟩
  · exact Or.inl hset
  · exact Or.inr ⟨expireAt, hsame⟩
  · exact Or.inr ⟨t, (find_eq_some_iff.mp hfind).1⟩

end Redis

end EdgeCache
