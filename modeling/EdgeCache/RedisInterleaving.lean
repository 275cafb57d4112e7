import EdgeCache.Library.Runs
import EdgeCache.RedisCache

/-!
Clients of one Redis. Any number of calls are in flight, each a program that Redis
serves one command at a time, in any order, while the clock goes on. A `get` is a read
followed by a write, so a write of another call can come between the two, and the `get`
then puts back what it read or deletes what it found expired. The journal of a key says
what was last written there and which calls read it before; while no call that was
overtaken spoils the last write, every reader sees it, hits apart.
-/
namespace EdgeCache

open Programs (Program Fault)

variable {V : Type}

/-! ### Calls in flight -/

/-- A call of one of the clients; all clients have the same configuration. -/
inductive Request (V : Type) where
  | get (key : String)
  | set (key : String) (value : V) (options : SetOptions)
  | delete (key : String)

/-- What a call does to Redis; its answer is dropped. -/
def Request.program (config : Config) : Request V → RedisProgram V Unit
  | .get key => (RedisCacheRepository.get key).map fun _ => ()
  | .set key value options => RedisCacheRepository.set config key value options
  | .delete key => (RedisCacheRepository.delete key).map fun _ => ()

/-- Calls are numbered in the order they start. -/
structure RedisSystem (V : Type) where
  redis : Database V
  now : Time
  calls : List (Request V × RedisProgram V Unit)

namespace RedisSystem

/-- A call starts, a call in flight goes on by one effect, or time passes. -/
inductive Action (V : Type) where
  | request (request : Request V)
  | advance (i : ℕ) (fault : Fault)
  | tick (t : Time)

def step (client : Client) (config : Config) (s : RedisSystem V) : Action V → RedisSystem V
  | .request request => { s with calls := s.calls ++ [(request, request.program config)] }
  | .advance i fault =>
    match s.calls[i]? with
    | none => s
    | some (request, p) =>
      let (redis, p) := Programs.advance client.send fault s.now s.redis p
      { s with redis := redis, calls := s.calls.set i (request, p) }
  | .tick t => { s with now := max s.now t }

end RedisSystem

/-! ### The journal of a key -/

/-- The last write of a key that Redis has carried out. -/
inductive LastWrite (V : Type) where
  | unknown
  | set (json : EntryJson V) (expireAt : Option ℤ)
  | delete
  deriving DecidableEq

/-- The last write, how many there were, and how many of them each call had behind it
when it read the key. -/
structure Journal (V : Type) where
  last : LastWrite V
  writes : ℕ
  readAt : ℕ → Option ℕ

namespace Journal

def start : Journal V := ⟨.unknown, 0, fun _ => none⟩

def write (j : Journal V) (last : LastWrite V) : Journal V :=
  { j with last := last, writes := j.writes + 1 }

/-- Call `i` sends a command. -/
def noteSent (key : String) (i : ℕ) (j : Journal V) : Request V → Command V → Journal V
  | .get key', .get _ =>
    if key' = key then { j with readAt := Function.update j.readAt i (some j.writes) } else j
  | _, _ => j

def noteDone (key : String) (now : Time) (j : Journal V) :
    Request V → Command V → Option (Reply V) → Journal V
  | .set _ _ _, .set key' json (.ex seconds), some .ok =>
    if key' = key then j.write (.set json (Redis.setDeadline now seconds)) else j
  | .set _ _ _, .set key' json (.exNx seconds), some .ok =>
    if key' = key then j.write (.set json (Redis.setDeadline now seconds)) else j
  | .delete _, .del keys, _ => if key ∈ keys then j.write .delete else j
  | _, _, _ => j

def next (client : Client) (key : String) (s : RedisSystem V) (j : Journal V) :
    RedisSystem.Action V → Journal V
  | .advance i fault =>
    match s.calls[i]? with
    | some (request, .call c _) =>
      let j := j.noteSent key i request c
      if fault = .lost then j
      else j.noteDone key s.now request c (client.send s.now s.redis c).2
    | _ => j
  | _ => j

/-- A write was carried out after the call had read. -/
def Overtaken (j : Journal V) (i : ℕ) : Prop := ∃ n ∈ j.readAt i, n < j.writes

end Journal

/-- An entry that has neither expired nor been dropped by Redis. -/
def InForce (json : EntryJson V) (expireAt : Option ℤ) (now : Time) : Prop :=
  json.restore.isExpired now = false ∧ Redis.isLive now ⟨.string json, expireAt⟩ = true

namespace LastWrite

/-- Redis shows the last write until it expires, hits apart. -/
def Stands (key : String) (now : Time) (db : Database V) : LastWrite V → Prop
  | .unknown => True
  | .set json expireAt => InForce json expireAt now →
      ∃ hits, Redis.find db now key = some ⟨.string { json with hitCount := hits }, expireAt⟩
  | .delete => Redis.find db now key = none

/-- The command of a `get` does not spoil the last write. -/
def Respects (key : String) (now : Time) : LastWrite V → Command V → Prop
  | .set json expireAt, .set key' json' _ => key' = key → InForce json expireAt now →
      ∃ hits, json' = { json with hitCount := hits }
  | .set json expireAt, .del keys => key ∈ keys → ¬ InForce json expireAt now
  | .delete, .set key' _ _ => key' ≠ key
  | _, _ => True

end LastWrite

/-- A system and the journal of one of its keys. -/
structure Watched (V : Type) where
  system : RedisSystem V
  journal : Journal V

namespace Watched

def step (client : Client) (config : Config) (key : String) (w : Watched V)
    (a : RedisSystem.Action V) : Watched V :=
  ⟨w.system.step client config a, w.journal.next client key w.system a⟩

/-- No tag is named so that its set is kept under the key, and a `get` that was overtaken
sends no command that spoils the last write, unless the command is lost. -/
def Undisturbed (key : String) (w : Watched V) : RedisSystem.Action V → Prop
  | .request (.set _ _ options) => ∀ tag ∈ options.tagList, tagKey tag ≠ key
  | .advance i fault =>
    match w.system.calls[i]? with
    | some (.get _, .call c _) => w.journal.Overtaken i → fault ≠ .lost →
        w.journal.last.Respects key w.system.now c
    | _ => True
  | _ => True

def Stands (client : Client) (key : String) (w : Watched V) : Prop :=
  w.journal.last.Stands key w.system.now (client.view w.system.redis)

end Watched

/-! ### Entries in force -/

theorem InForce.of_le {json : EntryJson V} {expireAt : Option ℤ} {now later : Time}
    (hle : now ≤ later) (h : InForce json expireAt later) : InForce json expireAt now := by
  obtain ⟨hfresh, hlive⟩ := h
  refine ⟨?_, Redis.isLive_of_le hle hlive⟩
  rw [← Bool.not_eq_true] at hfresh ⊢
  exact fun hexpired => hfresh (json.restore.isExpired_mono hle hexpired)

theorem InForce.expiresAt_isSome {json : EntryJson V} {expireAt : Option ℤ} {now : Time}
    (h : InForce json expireAt now) : json.expiresAt.isSome := by
  have hnow := now.property.1
  have hfresh := h.1
  cases hdate : json.expiresAt with
  | some t => rfl
  | none => simp [CacheEntry.isExpired, EntryJson.restore, Date.ofJson, Date.isBefore, hdate,
      hnow] at hfresh

theorem EntryJson.stringify_registerHit (json : EntryJson V) (hcreated : json.createdAt.isSome)
    (hexpires : json.expiresAt.isSome) :
    EntryJson.stringify json.restore.registerHit =
      { json with hitCount := json.hitCount + 1 } := by
  obtain ⟨key, value, ttl, _ | created, _ | expires, hitCount, tags, metadata⟩ := json
  · simp at hcreated
  · simp at hcreated
  · simp at hexpires
  · cases ttl <;> rfl

/-! ### What each call may send -/

/-- The commands of a call, where no tag set is kept under `key`. -/
def Request.Issues (key : String) : Request V → Command V → Prop
  | .get key', .get key'' => key'' = key'
  | .get key', .set key'' _ .keepTtl => key'' = key'
  | .get key', .del keys => keys = [key']
  | .set key' _ _, .set key'' json (.ex _) => key'' = key' ∧ json.createdAt.isSome
  | .set key' _ _, .set key'' json (.exNx _) => key'' = key' ∧ json.createdAt.isSome
  | .set _ _ _, .sadd key'' _ => key'' ≠ key
  | .set _ _ _, .expire key'' _ => key'' ≠ key
  | .delete key', .del keys => keys = [key']
  | _, _ => False

theorem Request.onlyCalls_program (config : Config) (key : String) (request : Request V)
    (htags : ∀ key' value options, request = .set key' value options →
      ∀ tag ∈ options.tagList, tagKey tag ≠ key) :
    (request.program config).OnlyCalls (request.Issues key) := by
  cases request with
  | get key' =>
    apply Program.OnlyCalls.map
    exact RedisCacheRepository.get_meets rfl rfl trivial fun _ _ _ _ _ => ⟨rfl, trivial⟩
  | set key' value options =>
    refine RedisCacheRepository.set_meets trivial (fun now _ mode hmode => ?_) fun tag htag => ?_
    · cases mode with
      | ex seconds => exact ⟨rfl, rfl⟩
      | exNx seconds => exact ⟨rfl, rfl⟩
      | keepTtl => exact absurd rfl hmode
    · have hne := htags key' value options rfl tag htag
      exact ⟨hne, fun _ => hne⟩
  | delete key' =>
    apply Program.OnlyCalls.map
    exact RedisCacheRepository.delete_meets rfl fun _ => trivial

/-! ### What a call that was not overtaken still does -/

namespace LastWrite

/-- From `now` on, the rest of a program does not spoil the last write. -/
def Harmless (last : LastWrite V) (key : String) :
    Time → RedisProgram V Unit → Prop
  | now, .now k => ∀ later, now ≤ later → last.Harmless key later (k later)
  | now, .call c k => (∀ later, now ≤ later → last.Respects key later c) ∧
      ∀ r, last.Harmless key now (k r)
  | _, _ => True

variable {last : LastWrite V} {key : String} {now later : Time}

theorem Harmless.of_le {p : RedisProgram V Unit} (hle : now ≤ later)
    (h : last.Harmless key now p) : last.Harmless key later p := by
  induction p generalizing now later with
  | ret a => trivial
  | throw => trivial
  | now k _ => exact fun t ht => h t (hle.trans ht)
  | call c k ih => exact ⟨fun t ht => h.1 t (hle.trans ht), fun r => ih r hle (h.2 r)⟩

/-- Dates of a written document; without them it would not come back as it was. -/
def Dated : LastWrite V → Prop
  | .set json _ => json.createdAt.isSome
  | _ => True

theorem Stands.of_le {db : Database V} (hle : now ≤ later) (h : last.Stands key now db) :
    last.Stands key later db := by
  cases last with
  | unknown => trivial
  | set json expireAt =>
    intro hforce
    obtain ⟨hits, hfind⟩ := h (hforce.of_le hle)
    obtain ⟨hdb, -⟩ := Redis.find_eq_some_iff.mp hfind
    exact ⟨hits, Redis.find_eq_some_iff.mpr ⟨hdb, hforce.2⟩⟩
  | delete => exact Redis.find_eq_none_of_le hle h

/-- A `get` that has just read a key whose last write stands is harmless. -/
theorem Stands.harmless_serve {db : Database V} {json : EntryJson V} {expireAt : Option ℤ}
    (h : last.Stands key now db) (hdated : last.Dated)
    (hfind : Redis.find db now key = some ⟨.string json, expireAt⟩) :
    last.Harmless key now ((RedisCacheRepository.serve key json).map fun _ => ()) := by
  have hread : ∀ written expireAt', last = .set written expireAt' → ∀ later, now ≤ later →
      InForce written expireAt' later → ∃ hits, json = { written with hitCount := hits } := by
    intro written expireAt' hlast later hle hforce
    subst hlast
    obtain ⟨hits, hfind'⟩ := h (hforce.of_le hle)
    have hrecord := Option.some.inj (hfind.symm.trans hfind')
    exact ⟨hits, by injection hrecord with hvalue _; injection hvalue⟩
  intro reading hreading
  simp only
  by_cases hexpired : json.restore.isExpired reading = true
  · simp only [hexpired, ↓reduceIte, Program.map]
    refine ⟨fun later hlater => ?_, fun _ => trivial⟩
    cases last with
    | unknown => trivial
    | set written expireAt' =>
      intro _ hforce
      obtain ⟨hits, rfl⟩ := hread written expireAt' rfl later (hreading.trans hlater) hforce
      have hlate : written.restore.isExpired later = true :=
        CacheEntry.isExpired_mono _ hlater hexpired
      simp [hforce.1] at hlate
    | delete => trivial
  · simp only [hexpired, Bool.false_eq_true, ↓reduceIte, Program.map]
    refine ⟨fun later hlater => ?_, fun r => by cases r <;> trivial⟩
    cases last with
    | unknown => trivial
    | set written expireAt' =>
      intro _ hforce
      obtain ⟨hits, rfl⟩ := hread written expireAt' rfl later (hreading.trans hlater) hforce
      exact ⟨hits + 1, EntryJson.stringify_registerHit _ hdated hforce.expiresAt_isSome⟩
    | delete =>
      rw [Stands, hfind] at h
      exact absurd h (Option.some_ne_none _)

end LastWrite

/-! ### One command -/

section Commands

variable {key : String} {now : Time} {j : Journal V} {db : Database V}

theorem LastWrite.Stands.congr {last : LastWrite V} {db' : Database V} (hdb : db' key = db key)
    (h : last.Stands key now db) : last.Stands key now db' := by
  cases last with
  | unknown => trivial
  | set json expireAt =>
    intro hforce
    rw [Redis.find_congr hdb]
    exact h hforce
  | delete => exact (Redis.find_congr hdb).trans h

theorem Journal.last_noteDone_of_not_writes (request : Request V) {c : Command V}
    (h : ¬ Redis.Writes key c) (reply : Option (Reply V)) :
    (j.noteDone key now request c reply).last = j.last := by
  unfold noteDone
  split
  · exact if_neg h ▸ rfl
  · exact if_neg h ▸ rfl
  · exact if_neg h ▸ rfl
  · rfl

theorem LastWrite.stands_insert (json : EntryJson V) (expireAt : Option ℤ) :
    (LastWrite.set json expireAt).Stands key now (Redis.insert db key ⟨.string json, expireAt⟩) :=
  fun hforce =>
    ⟨json.hitCount, Redis.find_eq_some_iff.mpr ⟨Redis.insert_self, hforce.2⟩⟩

/-- A write-back that respects the last write changes its hits at most. -/
theorem LastWrite.Stands.keepTtl {last : LastWrite V} (h : last.Stands key now db)
    {json : EntryJson V} (hrespects : last.Respects key now (.set key json .keepTtl)) :
    last.Stands key now (Redis.exec now db (.set key json .keepTtl)).1 := by
  cases last with
  | unknown => trivial
  | set written expireAt =>
    intro hforce
    obtain ⟨hits, hfind⟩ := h hforce
    obtain ⟨hits', rfl⟩ := hrespects rfl hforce
    refine ⟨hits', Redis.find_eq_some_iff.mpr ⟨?_, hforce.2⟩⟩
    simp [Redis.exec, hfind]
  | delete => exact absurd rfl hrespects

/-- A `DEL` that respects the last write comes too late to matter. -/
theorem LastWrite.Stands.del {last : LastWrite V} (h : last.Stands key now db)
    {keys : List String} (hrespects : last.Respects key now (.del keys)) :
    last.Stands key now (Redis.exec now db (.del keys)).1 := by
  by_cases hmem : key ∈ keys
  · cases last with
    | unknown => trivial
    | set written expireAt => exact fun hforce => absurd hforce (hrespects hmem)
    | delete => simp [Stands, Redis.find, Redis.exec_del, hmem]
  · exact h.congr (Redis.exec_frame now db hmem)

/-- The `SET` of a set is the last write, unless Redis turns it down. -/
theorem Journal.stands_noteDone_set {key' : String} {value : V} {options : SetOptions}
    {json : EntryJson V} {mode : SetMode} (hmode : mode ≠ .keepTtl)
    (hcreated : json.createdAt.isSome) (hdated : j.last.Dated)
    (hstands : j.last.Stands key now db) :
    (j.noteDone key now (.set key' value options) (.set key json mode)
        (Redis.exec now db (.set key json mode)).2).last.Stands key now
        (Redis.exec now db (.set key json mode)).1 ∧
      (j.noteDone key now (.set key' value options) (.set key json mode)
        (Redis.exec now db (.set key json mode)).2).last.Dated := by
  cases mode with
  | ex seconds =>
    cases ht : Redis.setDeadline now seconds with
    | none =>
      simp only [Redis.exec, ht, noteDone]
      exact ⟨hstands, hdated⟩
    | some t =>
      simp only [Redis.exec, ht, noteDone, ↓reduceIte]
      exact ⟨LastWrite.stands_insert json _, hcreated⟩
  | exNx seconds =>
    cases ht : Redis.setDeadline now seconds with
    | none =>
      simp only [Redis.exec, ht, noteDone]
      exact ⟨hstands, hdated⟩
    | some t =>
      by_cases hsome : (Redis.find db now key).isSome = true
      · simp only [Redis.exec, ht, noteDone, hsome, ↓reduceIte]
        exact ⟨hstands, hdated⟩
      · simp only [Redis.exec, ht, noteDone, hsome, Bool.false_eq_true, ↓reduceIte]
        exact ⟨LastWrite.stands_insert json _, hcreated⟩
  | keepTtl => exact absurd rfl hmode

/-- A command of a call leaves a last write that stands: its own, or the one before. -/
theorem Journal.stands_noteDone {request : Request V} {c : Command V}
    (hissues : request.Issues key c) (hdated : j.last.Dated) (hstands : j.last.Stands key now db)
    (hrespects : ∀ key', request = .get key' → j.last.Respects key now c) :
    (j.noteDone key now request c (Redis.exec now db c).2).last.Stands key now
        (Redis.exec now db c).1 ∧
      (j.noteDone key now request c (Redis.exec now db c).2).last.Dated := by
  by_cases hwrites : Redis.Writes key c
  · cases request with
    | get key' =>
      have hresp := hrespects key' rfl
      cases c with
      | set key'' json mode =>
        obtain rfl : key'' = key := hwrites
        cases mode with
        | ex seconds => exact hissues.elim
        | exNx seconds => exact hissues.elim
        | keepTtl => exact ⟨hstands.keepTtl hresp, hdated⟩
      | del keys => exact ⟨hstands.del hresp, hdated⟩
      | sadd key'' member => exact hissues.elim
      | expire key'' seconds => exact hissues.elim
      | flushdb => exact hissues.elim
      | _ => exact hwrites.elim
    | set key' value options =>
      cases c with
      | set key'' json mode =>
        obtain rfl : key'' = key := hwrites
        refine stands_noteDone_set ?_ ?_ hdated hstands
        · intro heq
          subst heq
          exact hissues
        · cases mode with
          | ex seconds => exact hissues.2
          | exNx seconds => exact hissues.2
          | keepTtl => exact hissues.elim
      | sadd key'' member => exact absurd hwrites hissues
      | expire key'' seconds => exact absurd hwrites hissues
      | del keys => exact hissues.elim
      | flushdb => exact hissues.elim
      | _ => exact hwrites.elim
    | delete key' =>
      cases c with
      | del keys =>
        have hmem : key ∈ keys := hwrites
        simp only [noteDone, hmem, ↓reduceIte]
        refine ⟨?_, trivial⟩
        simp [write, LastWrite.Stands, Redis.find, Redis.exec_del, hmem]
      | set key'' json mode => exact hissues.elim
      | sadd key'' member => exact hissues.elim
      | expire key'' seconds => exact hissues.elim
      | flushdb => exact hissues.elim
      | _ => exact hwrites.elim
  · rw [last_noteDone_of_not_writes request hwrites]
    exact ⟨hstands.congr (Redis.exec_frame now db hwrites), hdated⟩

theorem Journal.noteSent_eq (j : Journal V) (key : String) (i : ℕ) (request : Request V)
    (c : Command V) :
    (j.noteSent key i request c).last = j.last ∧ (j.noteSent key i request c).writes = j.writes ∧
      ∀ i', i' ≠ i → (j.noteSent key i request c).readAt i' = j.readAt i' := by
  unfold noteSent
  split
  · split
    · exact ⟨rfl, rfl, fun i' hne => Function.update_of_ne hne ..⟩
    · exact ⟨rfl, rfl, fun _ _ => rfl⟩
  · exact ⟨rfl, rfl, fun _ _ => rfl⟩

theorem Journal.noteDone_cases (request : Request V) (c : Command V)
    (reply : Option (Reply V)) :
    j.noteDone key now request c reply = j ∨
      (∃ last, j.noteDone key now request c reply = j.write last) ∧
        ∀ key', request ≠ .get key' := by
  unfold noteDone
  split
  · split
    · exact Or.inr ⟨⟨_, rfl⟩, fun key' h => by cases h⟩
    · exact Or.inl rfl
  · split
    · exact Or.inr ⟨⟨_, rfl⟩, fun key' h => by cases h⟩
    · exact Or.inl rfl
  · split
    · exact Or.inr ⟨⟨_, rfl⟩, fun key' h => by cases h⟩
    · exact Or.inl rfl
  · exact Or.inl rfl

end Commands

/-! ### Runs -/

/-- What a `get` sends once it has read. -/
def SendsNoGet (c : Command V) : Prop := ∀ key, c ≠ .get key

theorem RedisCacheRepository.onlyCalls_serve (key : String) (json : EntryJson V) :
    (serve key json).OnlyCalls SendsNoGet := by
  intro now _
  simp only
  split
  · exact ⟨(fun key' h => by cases h), fun _ _ => trivial⟩
  · refine ⟨(fun key' h => by cases h), fun r _ => ?_⟩
    cases r <;> trivial

theorem Request.onlyCalls_of_get {config : Config} {key : String} {c : Command V}
    {k : Option (Reply V) → RedisProgram V Unit}
    (h : (Request.get key).program config = .call c k) (r : Option (Reply V)) :
    (k r).OnlyCalls SendsNoGet := by
  simp only [program, RedisCacheRepository.get, Program.map] at h
  injection h with _ hk
  subst hk
  rcases r with _ | (_ | _ | json | _ | _ | _)
  · trivial
  · trivial
  · trivial
  · exact (RedisCacheRepository.onlyCalls_serve key json).map _
  · trivial
  · trivial
  · trivial

/-- A `get` that reads while the last write stands is harmless from then on. -/
theorem LastWrite.Stands.harmless_get {config : Config} {last : LastWrite V} {key : String}
    {now : Time} {client : Client} {db : Database V} {c : Command V}
    {k : Option (Reply V) → RedisProgram V Unit}
    (h : last.Stands key now (client.view db)) (hdated : last.Dated)
    (hget : (Request.get key).program config = .call c k) (fault : Fault) :
    last.Harmless key now (k (Programs.attempt client.send fault now db c).2) := by
  simp only [Request.program, RedisCacheRepository.get, Program.map] at hget
  injection hget with hc hk
  subst hc hk
  have hreply : (client.send now db (.get key)).2 = (Redis.exec now (client.view db) (.get key)).2 :=
    (client.view_send now db (.get key)).2
  cases fault with
  | lost => trivial
  | late => trivial
  | none =>
    simp only [Programs.attempt, hreply, Redis.exec]
    cases hfind : Redis.find (client.view db) now key with
    | none => trivial
    | some record =>
      obtain ⟨value, expireAt⟩ := record
      cases value with
      | set members => trivial
      | string json => exact h.harmless_serve hdated hfind

theorem LastWrite.respects_of_issues {last : LastWrite V} {key key' : String} {now : Time}
    {c : Command V} (hne : key' ≠ key) (h : (Request.get key').Issues key c) :
    last.Respects key now c := by
  cases c with
  | set key'' json mode =>
    cases mode with
    | ex seconds => exact h.elim
    | exNx seconds => exact h.elim
    | keepTtl =>
      obtain rfl : key'' = key' := h
      cases last with
      | unknown => trivial
      | set written expireAt => exact fun hkey => absurd hkey hne
      | delete => exact hne
  | del keys =>
    obtain rfl : keys = [key'] := h
    cases last with
    | unknown => trivial
    | set written expireAt => exact fun hkey => absurd (List.mem_singleton.mp hkey).symm hne
    | delete => trivial
  | _ => cases last <;> trivial

/-- The last write stands, and a call that read after it will not spoil it. -/
structure Watched.Sound (client : Client) (config : Config) (key : String) (w : Watched V) :
    Prop where
  stands : w.Stands client key
  dated : w.journal.last.Dated
  readAt_le : ∀ i n, w.journal.readAt i = some n → n ≤ w.journal.writes
  readAt_none : ∀ i, w.system.calls.length ≤ i → w.journal.readAt i = none
  issues : ∀ (i : ℕ) (request : Request V) (p : RedisProgram V Unit),
    w.system.calls[i]? = some (request, p) → p.OnlyCalls (request.Issues key)
  unread : ∀ (i : ℕ) (p : RedisProgram V Unit), w.system.calls[i]? = some (Request.get key, p) →
    w.journal.readAt i = none → p = (Request.get key).program config
  sent : ∀ (i : ℕ) (p : RedisProgram V Unit), w.system.calls[i]? = some (Request.get key, p) →
    (w.journal.readAt i).isSome → p.OnlyCalls SendsNoGet
  harmless : ∀ (i : ℕ) (p : RedisProgram V Unit), w.system.calls[i]? = some (Request.get key, p) →
    w.journal.readAt i = some w.journal.writes →
    w.journal.last.Harmless key w.system.now p

namespace Watched

variable {client : Client} {config : Config} {key : String} {w : Watched V}

theorem sound_start (client : Client) (config : Config) (key : String) (db : Database V)
    (now : Time) : Sound client config key ⟨⟨db, now, []⟩, Journal.start⟩ where
  stands := trivial
  dated := trivial
  readAt_le := by
    intro i n h
    simp [Journal.start] at h
  readAt_none := fun _ _ => rfl
  issues := by
    intro i request p h
    simp at h
  unread := by
    intro i p h
    simp at h
  sent := by
    intro i p h
    simp at h
  harmless := by
    intro i p h
    simp at h

theorem Sound.tick (h : Sound client config key w) (t : Time) :
    Sound client config key (w.step client config key (.tick t)) where
  stands := h.stands.of_le (le_max_left _ _)
  dated := h.dated
  readAt_le := h.readAt_le
  readAt_none := h.readAt_none
  issues := h.issues
  unread := h.unread
  sent := h.sent
  harmless := fun i p hp hread => (h.harmless i p hp hread).of_le (le_max_left _ _)

theorem Sound.request (h : Sound client config key w) (request : Request V)
    (hguard : w.Undisturbed key (.request request)) :
    Sound client config key (w.step client config key (.request request)) := by
  have hcalls : ∀ i request' p, (w.system.calls ++ [(request, request.program config)])[i]? =
      some (request', p) → w.system.calls[i]? = some (request', p) ∨
        i = w.system.calls.length ∧ request' = request ∧ p = request.program config := by
    intro i request' p hi
    rw [List.getElem?_append] at hi
    split at hi
    · exact Or.inl hi
    · next hle =>
      have hlt := (List.getElem?_eq_some_iff.mp hi).1
      simp only [List.length_singleton] at hlt
      have hzero : i - w.system.calls.length = 0 := by omega
      rw [hzero] at hi
      simp only [List.getElem?_cons_zero, Option.some.injEq, Prod.mk.injEq] at hi
      exact Or.inr ⟨by omega, hi.1.symm, hi.2.symm⟩
  refine ⟨h.stands, h.dated, h.readAt_le, fun i hi => h.readAt_none i ?_,
    fun i request' p hp => ?_, fun i p hp hread => ?_, fun i p hp hread => ?_,
    fun i p hp hread => ?_⟩
  · simp only [step, RedisSystem.step, List.length_append, List.length_singleton] at hi
    omega
  · rcases hcalls i request' p hp with hold | ⟨-, rfl, rfl⟩
    · exact h.issues i request' p hold
    · refine request'.onlyCalls_program config key fun key' value options hset => ?_
      subst hset
      exact hguard
  · rcases hcalls i _ p hp with hold | ⟨-, rfl, rfl⟩
    · exact h.unread i p hold hread
    · rfl
  · rcases hcalls i _ p hp with hold | ⟨rfl, -, -⟩
    · exact h.sent i p hold hread
    · simp [step, Journal.next, h.readAt_none w.system.calls.length le_rfl] at hread
  · rcases hcalls i _ p hp with hold | ⟨rfl, -, -⟩
    · exact h.harmless i p hold hread
    · simp [step, Journal.next, h.readAt_none w.system.calls.length le_rfl] at hread

/-- Call `i` goes on; the journal may note what it has read, and a write. -/
theorem Sound.progress (h : Sound client config key w) {i : ℕ} {request : Request V}
    {p p' : RedisProgram V Unit} {redis : Database V} {journal : Journal V}
    (hi : w.system.calls[i]? = some (request, p)) (hissues : p'.OnlyCalls (request.Issues key))
    (hstands : journal.last.Stands key w.system.now (client.view redis))
    (hdated : journal.last.Dated)
    (hread : ∀ i', i' ≠ i → journal.readAt i' = w.journal.readAt i')
    (hwrites : journal.writes = w.journal.writes ∧ journal.last = w.journal.last ∨
      journal.writes = w.journal.writes + 1)
    (hself : ∀ n, journal.readAt i = some n → n ≤ journal.writes)
    (hget : request = .get key → p'.OnlyCalls SendsNoGet ∧ (journal.readAt i).isSome ∧
      (journal.readAt i = some journal.writes → journal.last.Harmless key w.system.now p')) :
    Sound client config key
      ⟨{ w.system with redis := redis, calls := w.system.calls.set i (request, p') }, journal⟩ := by
  have hlength : i < w.system.calls.length := (List.getElem?_eq_some_iff.mp hi).1
  have hcalls : ∀ {i' request' p''},
      (w.system.calls.set i (request, p'))[i']? = some (request', p'') →
      i' ≠ i ∧ w.system.calls[i']? = some (request', p'') ∨
        i' = i ∧ request' = request ∧ p'' = p' := by
    intro i' request' p'' hset
    by_cases hii : i' = i
    · subst hii
      rw [List.getElem?_set_self hlength, Option.some.injEq, Prod.mk.injEq] at hset
      exact Or.inr ⟨rfl, hset.1.symm, hset.2.symm⟩
    · rw [List.getElem?_set_ne (Ne.symm hii)] at hset
      exact Or.inl ⟨hii, hset⟩
  refine ⟨hstands, hdated, fun i' n hn => ?_, fun i' hle => ?_, fun i' request' p'' hset => ?_,
    fun i' p'' hset hn => ?_, fun i' p'' hset hn => ?_, fun i' p'' hset hn => ?_⟩
  · by_cases hii : i' = i
    · exact hself n (hii ▸ hn)
    · have hle := h.readAt_le i' n (hread i' hii ▸ hn)
      simp only
      omega
  · simp only [List.length_set] at hle
    simp only [hread i' (by omega)]
    exact h.readAt_none i' hle
  · rcases hcalls hset with ⟨-, hold⟩ | ⟨-, rfl, rfl⟩
    · exact h.issues i' request' p'' hold
    · exact hissues
  · rcases hcalls hset with ⟨hne, hold⟩ | ⟨rfl, rfl, rfl⟩
    · exact h.unread i' p'' hold (hread i' hne ▸ hn)
    · have hsome := (hget rfl).2.1
      simp only at hn
      simp [hn] at hsome
  · rcases hcalls hset with ⟨hne, hold⟩ | ⟨rfl, rfl, rfl⟩
    · exact h.sent i' p'' hold (hread i' hne ▸ hn)
    · exact (hget rfl).1
  · rcases hcalls hset with ⟨hne, hold⟩ | ⟨rfl, rfl, rfl⟩
    · simp only [hread i' hne] at hn ⊢
      rcases hwrites with ⟨hsame, hlast⟩ | hmore
      · rw [hlast]
        exact h.harmless i' p'' hold (hsame ▸ hn)
      · have hle := h.readAt_le i' _ hn
        omega
    · exact (hget rfl).2.2 hn

/-- A call that sends nothing goes on: the journal and Redis stay as they are. -/
theorem Sound.idle (h : Sound client config key w) {i : ℕ} {request : Request V}
    {p p' : RedisProgram V Unit} (hi : w.system.calls[i]? = some (request, p))
    (hp : p.pending = none)
    (hadvance : ∀ issue, p.OnlyCalls issue → p'.OnlyCalls issue)
    (hharmless : w.journal.last.Harmless key w.system.now p →
      w.journal.last.Harmless key w.system.now p') :
    Sound client config key
      ⟨{ w.system with calls := w.system.calls.set i (request, p') }, w.journal⟩ := by
  refine h.progress hi (hadvance _ (h.issues i request p hi)) h.stands h.dated (fun _ _ => rfl)
    (Or.inl ⟨rfl, rfl⟩) (h.readAt_le i) (fun hget => ?_)
  subst hget
  have hsome : (w.journal.readAt i).isSome := by
    rw [Option.isSome_iff_ne_none]
    intro hnone
    rw [h.unread i p hi hnone] at hp
    cases hp
  exact ⟨hadvance _ (h.sent i p hi hsome), hsome, fun hread => hharmless (h.harmless i p hi hread)⟩

theorem Sound.respects (h : Sound client config key w) {i : ℕ} {key' : String} {c : Command V}
    {k : Option (Reply V) → RedisProgram V Unit} {fault : Fault}
    (hi : w.system.calls[i]? = some (.get key', .call c k)) (hlost : fault ≠ .lost)
    (hguard : w.Undisturbed key (.advance i fault)) :
    w.journal.last.Respects key w.system.now c := by
  have hissues := (h.issues i _ _ hi).1
  simp only [Undisturbed, hi] at hguard
  by_cases hkey : key' = key
  · subst hkey
    cases hn : w.journal.readAt i with
    | none =>
      have hp := h.unread i _ hi hn
      simp only [Request.program, RedisCacheRepository.get, Program.map] at hp
      injection hp with hc _
      subst hc
      cases w.journal.last <;> trivial
    | some n =>
      by_cases hnow : n = w.journal.writes
      · exact (h.harmless i _ hi (hnow ▸ hn)).1 _ le_rfl
      · have hle := h.readAt_le i n hn
        exact hguard ⟨n, hn, by omega⟩ hlost
  · exact LastWrite.respects_of_issues hkey hissues

/-- A call sends a command, which is carried out or lost. -/
theorem Sound.command (h : Sound client config key w) {i : ℕ} {request : Request V}
    {c : Command V} {k : Option (Reply V) → RedisProgram V Unit} (fault : Fault)
    {journal : Journal V} {redis : Database V}
    (hi : w.system.calls[i]? = some (request, .call c k))
    (hstands : journal.last.Stands key w.system.now (client.view redis) ∧ journal.last.Dated)
    (hjournal : journal = w.journal.noteSent key i request c ∨
      (∃ last, journal = (w.journal.noteSent key i request c).write last) ∧
        ∀ key', request ≠ .get key') :
    Sound client config key
      ⟨{ w.system with redis := redis, calls := w.system.calls.set i (request,
        k (Programs.attempt client.send fault w.system.now w.system.redis c).2) }, journal⟩ := by
  obtain ⟨hlast, hwrites, hread⟩ :=
    Journal.noteSent_eq w.journal key i request c
  have hle : ∀ n, (w.journal.noteSent key i request c).readAt i = some n →
      n ≤ w.journal.writes := by
    intro n hn
    unfold Journal.noteSent at hn
    split at hn
    · split at hn
      · simp only [Function.update_self, Option.some.injEq] at hn
        exact hn.ge
      · exact h.readAt_le i n hn
    · exact h.readAt_le i n hn
  refine h.progress hi ((h.issues i request _ hi).2 _ fun _ _ => trivial) hstands.1 hstands.2
    (fun i' hne => ?_) ?_ (fun n hn => ?_) (fun hget => ?_)
  · rcases hjournal with rfl | ⟨⟨last, rfl⟩, -⟩ <;> exact hread i' hne
  · rcases hjournal with rfl | ⟨⟨last, rfl⟩, -⟩
    · exact Or.inl ⟨hwrites, hlast⟩
    · exact Or.inr (congrArg (· + 1) hwrites)
  · rcases hjournal with rfl | ⟨⟨last, rfl⟩, -⟩
    · rw [hwrites]
      exact hle n hn
    · have hn' := hle n hn
      simp only [Journal.write]
      omega
  · subst hget
    obtain rfl : journal = w.journal.noteSent key i (.get key) c := by
      rcases hjournal with rfl | ⟨-, hne⟩
      · rfl
      · exact absurd rfl (hne key)
    cases hn : w.journal.readAt i with
    | none =>
      have hp := h.unread i _ hi hn
      refine ⟨Request.onlyCalls_of_get hp.symm _, ?_, fun _ => ?_⟩
      · simp only [Request.program, RedisCacheRepository.get, Program.map] at hp
        injection hp with hc _
        subst hc
        simp [Journal.noteSent]
      · rw [hlast]
        exact h.stands.harmless_get h.dated hp.symm fault
    | some n =>
      have hsent := h.sent i _ hi (by simp [hn])
      have hsame : w.journal.noteSent key i (.get key) c = w.journal := by
        cases c with
        | get key' => exact absurd rfl (hsent.1 key')
        | _ => rfl
      rw [hsame]
      exact ⟨hsent.2 _ fun _ _ => trivial, by simp [hn], fun hread => (h.harmless i _ hi hread).2 _⟩

theorem Sound.advance (h : Sound client config key w) (i : ℕ) (fault : Fault)
    (hguard : w.Undisturbed key (.advance i fault)) :
    Sound client config key (w.step client config key (.advance i fault)) := by
  cases hi : w.system.calls[i]? with
  | none =>
    simp only [step, RedisSystem.step, Journal.next, hi]
    exact h
  | some call =>
    obtain ⟨request, p⟩ := call
    simp only [step, RedisSystem.step, Journal.next, hi]
    cases p with
    | ret a => exact h.idle hi rfl (fun _ h => h) (fun h => h)
    | throw => exact h.idle hi rfl (fun _ h => h) (fun h => h)
    | now k => exact h.idle hi rfl (fun _ h => h _ trivial) (fun h => h _ le_rfl)
    | call c k =>
      obtain ⟨hlast, -, -⟩ := Journal.noteSent_eq w.journal key i request c
      by_cases hlost : fault = .lost
      · subst hlost
        refine h.command .lost hi ?_ (Or.inl rfl)
        simp only [↓reduceIte, hlast]
        exact ⟨h.stands, h.dated⟩
      · obtain ⟨hview, hreply⟩ := client.view_send w.system.now w.system.redis c
        have hredis : (Programs.attempt client.send fault w.system.now w.system.redis c).1 =
            (client.send w.system.now w.system.redis c).1 := by
          cases fault with
          | lost => exact absurd rfl hlost
          | none => rfl
          | late => rfl
        have hbefore : (w.journal.noteSent key i request c).last.Stands key w.system.now
            (client.view w.system.redis) := by
          rw [hlast]
          exact h.stands
        have hstands := Journal.stands_noteDone (h.issues i request _ hi).1 (hlast ▸ h.dated)
          hbefore fun key' hget => hlast ▸ h.respects (hget ▸ hi) hlost hguard
        rw [← hview, ← hreply] at hstands
        simp only [hlost, ↓reduceIte, Programs.advance, hredis]
        exact h.command fault hi hstands (Journal.noteDone_cases request c _)

theorem Sound.step (h : Sound client config key w) (a : RedisSystem.Action V)
    (hguard : w.Undisturbed key a) : Sound client config key (w.step client config key a) := by
  cases a with
  | request request => exact h.request request hguard
  | advance i fault => exact h.advance i fault hguard
  | tick t => exact h.tick t

end Watched

/-- Whatever the calls in flight and the order they move in, the last write of a key that
Redis carried out stands in every state, as long as no `get` that was overtaken by a write
sends a command that spoils it. -/
theorem RedisCacheRepository.lastWrite_stands_of_undisturbed (client : Client) (config : Config)
    (key : String) (db : Database V) (now : Time) (actions : List (RedisSystem.Action V))
    (hrun : Runs.Guarded (Watched.step client config key) (Watched.Undisturbed key)
      ⟨⟨db, now, []⟩, Journal.start⟩ actions) :
    (Runs.run (Watched.step client config key) ⟨⟨db, now, []⟩, Journal.start⟩ actions).Stands
      client key :=
  (hrun.invariant (fun _ a h hguard => h.step a hguard)
    (Watched.sound_start client config key db now)).stands

/-- No `get` that was overtaken goes on at all. -/
def Watched.InOrder (key : String) (w : Watched V) : RedisSystem.Action V → Prop
  | .request (.set _ _ options) => ∀ tag ∈ options.tagList, tagKey tag ≠ key
  | .advance i _ => ∀ n ∈ w.journal.readAt i, w.journal.writes ≤ n
  | _ => True

instance (key : String) (w : Watched V) :
    ∀ a : RedisSystem.Action V, Decidable (w.InOrder key a)
  | .request (.set _ _ options) =>
    inferInstanceAs (Decidable (∀ tag ∈ options.tagList, tagKey tag ≠ key))
  | .request (.get _) => isTrue trivial
  | .request (.delete _) => isTrue trivial
  | .advance i _ => inferInstanceAs (Decidable (∀ n ∈ w.journal.readAt i, w.journal.writes ≤ n))
  | .tick _ => isTrue trivial

theorem Watched.InOrder.undisturbed {key : String} {w : Watched V} {a : RedisSystem.Action V}
    (h : w.InOrder key a) : w.Undisturbed key a := by
  cases a with
  | request request => cases request <;> exact h
  | advance i fault =>
    simp only [Undisturbed]
    split
    · intro hover
      obtain ⟨n, hn, hlt⟩ := hover
      have hle := h n hn
      omega
    · trivial
  | tick t => trivial

/-- Two readers of one entry, each writing back what it read. -/
theorem RedisCacheRepository.lastWrite_stands_of_two_readers :
    (Runs.run (Watched.step ⟨"edgecache:"⟩ ⟨1, 60, by decide, by decide⟩ "a")
      ⟨⟨fun _ => none, ⟨1000, by decide⟩, []⟩, Journal.start⟩
      [.request (.set "a" 7 (.ofTtl 60)), .advance 0 .none, .advance 0 .none,
        .request (.get "a"), .request (.get "a"), .advance 1 .none, .advance 2 .none,
        .advance 1 .none, .advance 2 .none, .advance 2 .none, .advance 1 .late,
        .tick ⟨5000, by decide⟩] : Watched ℕ).Stands ⟨"edgecache:"⟩ "a" := by
  apply lastWrite_stands_of_undisturbed
  apply Runs.Guarded.mono fun _ _ => Watched.InOrder.undisturbed
  decide +kernel

/-- A `get` that has read an entry writes it back after it was deleted, for good. -/
theorem RedisCacheRepository.not_stands_of_write_back :
    ¬ (Runs.run (Watched.step ⟨"edgecache:"⟩ ⟨1, 60, by decide, by decide⟩ "a")
      ⟨⟨fun _ => none, ⟨1000, by decide⟩, []⟩, Journal.start⟩
      [.request (.set "a" 7 (.ofTtl 60)), .advance 0 .none, .advance 0 .none,
        .request (.get "a"), .advance 1 .none, .advance 1 .none,
        .request (.delete "a"), .advance 2 .none,
        .advance 1 .none] : Watched ℕ).Stands ⟨"edgecache:"⟩ "a" := by
  intro hstands
  have hlast : (Runs.run (Watched.step ⟨"edgecache:"⟩ ⟨1, 60, by decide, by decide⟩ "a")
      ⟨⟨fun _ => none, ⟨1000, by decide⟩, []⟩, Journal.start⟩
      [.request (.set "a" 7 (.ofTtl 60)), .advance 0 .none, .advance 0 .none,
        .request (.get "a"), .advance 1 .none, .advance 1 .none,
        .request (.delete "a"), .advance 2 .none,
        .advance 1 .none] : Watched ℕ).journal.last = .delete := by
    decide +kernel
  rw [Watched.Stands, hlast] at hstands
  revert hstands
  apply Option.isSome_iff_ne_none.mp
  decide +kernel

end EdgeCache
