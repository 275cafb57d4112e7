import EdgeCache.Library.InFlight
import EdgeCache.RedisTags

/-!
Whether Redis ever drops an entry by itself. A write gives an entry a time to live; a read
writes the entry back and asks Redis to keep the time that is there. When the entry has gone
between the two commands of a read there is none, and what is written back then stays for
ever. Redis drops a key when its time has passed, which the clock may do between any two
commands.
-/
namespace EdgeCache

open Programs (Program InFlight)

variable {V : Type}

/-! ### Clients of one Redis -/

/-- Calls of any number of clients; they have the same configuration. -/
abbrev RedisClients (V : Type) := InFlight (Command V) (Reply V) Time (Database V) (RedisOp V)

abbrev ClientAction (V : Type) := InFlight.Action Time (RedisOp V)

namespace RedisClients

def step (client : Client) (config : Config) (s : RedisClients V) (a : ClientAction V) :
    RedisClients V :=
  InFlight.step client.send (RedisOp.program config) s a

/-- The calls that clients make from some state of Redis on. -/
def run (client : Client) (config : Config) (redis : Database V) (now : Time)
    (actions : List (ClientAction V)) : RedisClients V :=
  Runs.run (step client config) (.idle redis now) actions

theorem view_step (client : Client) (config : Config) (s : RedisClients V) (a : ClientAction V) :
    client.view (step client config s a).state =
      (s.executed a).elim (client.view s.state) fun c =>
        (Redis.exec s.now (client.view s.state) c).1 := by
  rw [step, InFlight.state_step]
  cases s.executed a with
  | none => rfl
  | some c => exact (client.view_send s.now s.state c).1

end RedisClients

/-! ### Entries with a time to live -/

namespace Redis

/-- Every entry has a time after which it is gone. -/
def EntriesExpire (db : Database V) : Prop :=
  ∀ key json expireAt, db key = some ⟨.string json, expireAt⟩ →
    ∃ t : ℤ, expireAt = some t ∧ ∀ now : Time, t < now.val → find db now key = none

/-- A write-back meets a key that has a time to live. -/
def FindsTime (now : Time) (db : Database V) (c : Command V) : Prop :=
  ∀ key json, c = .set key json .keepTtl →
    ∃ record t, find db now key = some record ∧ record.expireAt = some t

variable {db : Database V} {now : Time}

theorem entriesExpire_iff_isSome : EntriesExpire db ↔
    ∀ key json expireAt, db key = some ⟨.string json, expireAt⟩ → expireAt.isSome := by
  constructor
  · intro h key json expireAt hdb
    obtain ⟨t, rfl, -⟩ := h key json expireAt hdb
    rfl
  · intro h key json expireAt hdb
    obtain ⟨t, rfl⟩ := Option.isSome_iff_exists.mp (h key json expireAt hdb)
    refine ⟨t, rfl, fun later hlater => ?_⟩
    have hdead : isLive later (⟨.string json, some t⟩ : Record V) = false := by
      rw [Bool.eq_false_iff, Ne, isLive_some]
      omega
    rw [find, hdb, Option.filter_some, hdead]
    rfl

theorem EntriesExpire.insert (h : EntriesExpire db) {key : String} {json : EntryJson V} (t : ℤ) :
    EntriesExpire (Redis.insert db key ⟨.string json, some t⟩) := by
  rw [entriesExpire_iff_isSome] at h ⊢
  intro key' json' expireAt hdb
  by_cases hk : key' = key
  · rw [hk, insert_self] at hdb
    obtain ⟨-, rfl⟩ := Record.mk.inj (Option.some.inj hdb)
    rfl
  · rw [insert_of_ne hk] at hdb
    exact h key' json' expireAt hdb

theorem entriesExpire_exec_iff (h : EntriesExpire db) (c : Command V) :
    EntriesExpire (exec now db c).1 ↔ FindsTime now db c := by
  have hother : (∀ key json, c ≠ .set key json .keepTtl) → FindsTime now db c :=
    fun hne key json heq => absurd heq (hne key json)
  cases c with
  | set key json mode =>
    cases mode with
    | keepTtl =>
      simp only [exec]
      constructor
      · intro hafter key' json' heq
        obtain ⟨rfl, -, -⟩ := Command.set.inj heq
        obtain ⟨t, ht, -⟩ := hafter key json _ insert_self
        obtain ⟨record, hfind, ht⟩ := Option.bind_eq_some_iff.mp ht
        exact ⟨record, t, hfind, ht⟩
      · intro hfinds
        obtain ⟨record, t, hfind, ht⟩ := hfinds key json rfl
        rw [hfind, Option.bind_some, ht]
        exact h.insert t
    | ex seconds =>
      refine iff_of_true ?_ (hother fun _ _ heq => by cases heq)
      simp only [exec]
      split
      · exact h
      · exact h.insert _
    | exNx seconds =>
      refine iff_of_true ?_ (hother fun _ _ heq => by cases heq)
      simp only [exec]
      split
      · exact h
      · split
        · exact h
        · exact h.insert _
  | _ =>
    refine iff_of_true ?_ (hother fun _ _ heq => by cases heq)
    rw [entriesExpire_iff_isSome] at h ⊢
    intro key json expireAt hdb
    rcases exec_string_cases hdb with ⟨mode, hset⟩ | hold | ⟨ht, -⟩
    · cases hset
    · exact h key json expireAt hold
    · exact ht

end Redis

/-- The clients leave every entry with a time to live in all states they pass exactly when each
write-back meets a key that has one. -/
theorem RedisCacheRepository.entriesExpire_iff (client : Client) (config : Config)
    (redis : Database V) (now : Time) (hstart : Redis.EntriesExpire (client.view redis))
    (actions : List (ClientAction V)) :
    (∀ before, before <+: actions →
      Redis.EntriesExpire (client.view (RedisClients.run client config redis now before).state)) ↔
    Runs.Guarded (RedisClients.step client config)
      (fun s a => ∀ c ∈ s.executed a, Redis.FindsTime s.now (client.view s.state) c)
      (.idle redis now) actions := by
  have hstep : ∀ (s : RedisClients V) a, True → True → Redis.EntriesExpire (client.view s.state) →
      (Redis.EntriesExpire (client.view (RedisClients.step client config s a).state) ↔
        ∀ c ∈ s.executed a, Redis.FindsTime s.now (client.view s.state) c) := by
    intro s a _ _ hs
    rw [RedisClients.view_step]
    cases hexec : s.executed a with
    | none => exact iff_of_true hs fun c hc => by cases hc
    | some c =>
      rw [Option.elim_some, Redis.entriesExpire_exec_iff hs]
      exact ⟨fun h c' hc' => Option.some.inj hc' ▸ h, fun h => h c rfl⟩
  exact (Runs.guarded_iff_forall_prefix (fun _ _ _ _ => trivial) hstep (fun _ _ => trivial)
    trivial hstart).symm

namespace RedisClients

def readAfterSet : List (ClientAction ℕ) :=
  [.start (.set "a" 7 (.ofTtl 60)), .advance 0 .none, .advance 0 .none, .start (.get "a"),
    .advance 1 .none, .advance 1 .none]

end RedisClients

instance (now : Time) (db : Database V) : ∀ c, Decidable (Redis.FindsTime now db c)
  | .set key _ .keepTtl =>
    decidable_of_iff ((Redis.find db now key).any (·.expireAt.isSome) = true) (by
      rw [Option.any_eq_true]
      constructor
      · intro h key' json' heq
        obtain ⟨rfl, -, -⟩ := Command.set.inj heq
        obtain ⟨record, hfind, ht⟩ := h
        obtain ⟨t, ht⟩ := Option.isSome_iff_exists.mp ht
        exact ⟨record, t, hfind, ht⟩
      · intro h
        obtain ⟨record, t, hfind, ht⟩ := h _ _ rfl
        exact ⟨record, hfind, ht ▸ rfl⟩)
  | .set _ _ (.ex _) => isTrue fun _ _ h => by cases h
  | .set _ _ (.exNx _) => isTrue fun _ _ h => by cases h
  | .get _ => isTrue fun _ _ h => by cases h
  | .del _ => isTrue fun _ _ h => by cases h
  | .sadd _ _ => isTrue fun _ _ h => by cases h
  | .expire _ _ => isTrue fun _ _ h => by cases h
  | .smembers _ => isTrue fun _ _ h => by cases h
  | .exists_ _ => isTrue fun _ _ h => by cases h
  | .mget _ => isTrue fun _ _ h => by cases h
  | .flushdb => isTrue fun _ _ h => by cases h

/-- The entry is still there when the read writes it back. -/
theorem RedisCacheRepository.entriesExpire_iff_in_time :
    Redis.EntriesExpire (Client.view ⟨"edgecache:"⟩ (RedisClients.run ⟨"edgecache:"⟩
      ⟨1, 60, by decide, by decide⟩ (fun _ => none) ⟨1000, by decide⟩
      (RedisClients.readAfterSet ++ [.advance 1 .none])).state) :=
  (entriesExpire_iff ⟨"edgecache:"⟩ ⟨1, 60, by decide, by decide⟩ (fun _ => none)
    ⟨1000, by decide⟩ (fun _ _ _ h => by cases h)
    (RedisClients.readAfterSet ++ [.advance 1 .none])).mpr (by decide +kernel) _ List.prefix_rfl

/-- The entry's time passes between the two commands of a read, which leaves it for ever. -/
theorem RedisCacheRepository.not_entriesExpire_of_tick :
    ¬ ∀ actions : List (ClientAction ℕ), Redis.EntriesExpire (Client.view ⟨"edgecache:"⟩
      (RedisClients.run ⟨"edgecache:"⟩ ⟨1, 60, by decide, by decide⟩ (fun _ => none)
        ⟨1000, by decide⟩ actions).state) := by
  intro hall
  have hstored : Client.view ⟨"edgecache:"⟩ (RedisClients.run ⟨"edgecache:"⟩
      ⟨1, 60, by decide, by decide⟩ (fun _ => none) ⟨1000, by decide⟩
      (RedisClients.readAfterSet ++ [.tick ⟨61001, by decide⟩, .advance 1 .none])).state "a" =
      some ⟨.string (.stringify (CacheEntry.registerHit
        (.create ⟨1000, by decide⟩ "a" 7 (.ofNat 60) [] []))), none⟩ := by
    decide +kernel
  obtain ⟨t, ht, -⟩ := hall _ "a" _ _ hstored
  cases ht

end EdgeCache
