import EdgeCache.LayeredContents
import Mathlib.Data.List.Induction

/-!
What becomes of an overwritten value when Redis comes and goes. A write that Redis does
not carry out reaches the memory tier alone, and Redis keeps what it had; a later read
that misses the memory tier finds it there and promotes it. Nothing else brings a value
back: what a read returns was set, and every later write of the key was one that Redis
did not carry out and that a read from Redis has since undone.
-/
namespace EdgeCache

variable {V : Type}

namespace LayeredCacheRepository

variable {client : Client} {config : Config} {regExp : RegExp} {env : Surroundings}

/-! ### Runs -/

/-- The last of the calls set the value under the key, or there were none and Redis had
it. -/
def LastStored (client : Client) (key : String) (redis : Database V) (value : V)
    (calls : List (LayeredCall V)) : Prop :=
  (∃ before e options, calls = before ++ [e] ∧ e.op = .set key value options) ∨
    calls = [] ∧ ∃ json expireAt, client.view redis key = some ⟨.string json, expireAt⟩ ∧
      json.value = value

/-- Nothing that has been carried out in Redis since has overwritten the value. -/
def KeptByRedis (client : Client) (config : Config) (redis : Database V) (key : String)
    (calls : List (LayeredCall V)) (value : V) : Prop :=
  ∃ old later, calls = old ++ later ∧ LastStored client key redis value old ∧
    ∀ w ∈ later, w.op.Overwrites key → ¬ w.ReachesRedis config

/-- Each write that has overwritten the value since was not carried out in Redis, and a read
from Redis came after it. -/
def Served (client : Client) (config : Config) (regExp : RegExp) (redis : Database V)
    (key : String) (calls : List (LayeredCall V)) (value : V) : Prop :=
  ∃ old later, calls = old ++ later ∧ LastStored client key redis value old ∧
    ∀ before w after, later = before ++ w :: after → w.op.Overwrites key →
      ¬ w.ReachesRedis config ∧ ∃ between r rest, after = between ++ r :: rest ∧
        r.op = .get key ∧ readsRedis client r.env key
          (reachIn client config regExp redis (old ++ before ++ w :: between)) = true

section Runs

variable {redis : Database V} {key : String} {calls : List (LayeredCall V)} {e : LayeredCall V}
  {value : V}

theorem KeptByRedis.concat (h : KeptByRedis client config redis key calls value)
    (he : e.op.Overwrites key → ¬ e.ReachesRedis config) :
    KeptByRedis client config redis key (calls ++ [e]) value := by
  obtain ⟨old, later, rfl, hstored, hlater⟩ := h
  refine ⟨old, later ++ [e], List.append_assoc .., hstored, fun w hw => ?_⟩
  rcases List.mem_append.mp hw with hin | hlast
  · exact hlater w hin
  · obtain rfl := List.mem_singleton.mp hlast
    exact he

theorem keptByRedis_set {options : SetOptions} (hop : e.op = .set key value options) :
    KeptByRedis client config redis key (calls ++ [e]) value :=
  ⟨calls ++ [e], [], (List.append_nil _).symm, Or.inl ⟨calls, e, options, rfl, hop⟩,
    fun _ hw => absurd hw List.not_mem_nil⟩

theorem served_set {options : SetOptions} (hop : e.op = .set key value options) :
    Served client config regExp redis key (calls ++ [e]) value := by
  refine ⟨calls ++ [e], [], (List.append_nil _).symm, Or.inl ⟨calls, e, options, rfl, hop⟩, ?_⟩
  intro before w after hnil
  have hmem : w ∈ before ++ w :: after := List.mem_append_right before List.mem_cons_self
  rw [← hnil] at hmem
  exact absurd hmem List.not_mem_nil

theorem split_concat {later before after : List (LayeredCall V)} {w : LayeredCall V}
    (h : later ++ [e] = before ++ w :: after) :
    w = e ∧ after = [] ∧ before = later ∨
      ∃ after', after = after' ++ [e] ∧ later = before ++ w :: after' := by
  rcases List.eq_nil_or_concat after with rfl | ⟨after', last, rfl⟩
  · obtain ⟨hbefore, hlast⟩ := List.append_inj' h rfl
    exact Or.inl ⟨(List.cons.inj hlast).1.symm, rfl, hbefore.symm⟩
  · rw [List.concat_eq_append, ← List.cons_append, ← List.append_assoc] at h
    obtain ⟨hlater, hlast⟩ := List.append_inj' h rfl
    obtain rfl := (List.cons.inj hlast).1
    exact Or.inr ⟨after', List.concat_eq_append, hlater⟩

theorem Served.concat (h : Served client config regExp redis key calls value)
    (he : ¬ e.op.Overwrites key) :
    Served client config regExp redis key (calls ++ [e]) value := by
  obtain ⟨old, later, rfl, hstored, hlater⟩ := h
  refine ⟨old, later ++ [e], List.append_assoc .., hstored, fun before w after hsplit hw => ?_⟩
  rcases split_concat hsplit with ⟨rfl, -, -⟩ | ⟨after', rfl, hlater'⟩
  · exact absurd hw he
  · obtain ⟨hlost, between, r, rest, rfl, hr⟩ := hlater before w after' hlater' hw
    exact ⟨hlost, between, r, rest ++ [e], by simp, hr⟩

theorem KeptByRedis.served (h : KeptByRedis client config redis key calls value)
    (hop : e.op = .get key)
    (hread : readsRedis client e.env key (reachIn client config regExp redis calls) = true) :
    Served client config regExp redis key (calls ++ [e]) value := by
  obtain ⟨old, later, rfl, hstored, hlater⟩ := h
  refine ⟨old, later ++ [e], List.append_assoc .., hstored, fun before w after hsplit hw => ?_⟩
  rcases split_concat hsplit with ⟨rfl, -, -⟩ | ⟨after', rfl, rfl⟩
  · rw [hop] at hw
    exact hw.elim
  · refine ⟨hlater w (List.mem_append_right before List.mem_cons_self) hw, after', e, [], rfl,
      hop, ?_⟩
    rwa [List.append_assoc]

theorem reachIn_concat (calls : List (LayeredCall V)) (e : LayeredCall V) :
    reachIn client config regExp redis (calls ++ [e]) =
      stepIn client config regExp (reachIn client config regExp redis calls) e :=
  Runs.run_append _ _ calls [e]

/-- What the tiers have under the key, and where it came from. -/
structure Accounted (client : Client) (config : Config) (regExp : RegExp) (redis : Database V)
    (key : String) (calls : List (LayeredCall V)) (s : Tiers V) : Prop where
  l1 : HoldsAt config key
    (fun entry => Served client config regExp redis key calls entry.value) s.l1
  redis : DocumentAt client key
    (fun json => KeptByRedis client config redis key calls json.value) s.redis

theorem Accounted.get (h : Accounted client config regExp redis key calls
      (reachIn client config regExp redis calls)) {key' : String} (hop : e.op = .get key') :
    Accounted client config regExp redis key (calls ++ [e])
        (getIn client e.env key' (reachIn client config regExp redis calls)).1 ∧
      (key' = key → ∀ entry,
        (getIn client e.env key' (reachIn client config regExp redis calls)).2 = some entry →
        Served client config regExp redis key (calls ++ [e]) entry.value) := by
  have hquiet : ¬ e.op.Overwrites key := by
    rw [hop]
    exact id
  obtain ⟨hl1, hredis, hfound⟩ := holds_getIn e.env
    (K := fun c => Served client config regExp redis key calls c.value)
    (N := fun c => KeptByRedis client config redis key calls c.value)
    h.l1 h.redis key'
    (L := fun c => Served client config regExp redis key (calls ++ [e]) c.value)
    (fun c hc => Served.concat hc hquiet)
    (fun hk hread c hc => KeptByRedis.served hc (hk ▸ hop) hread)
  refine ⟨⟨hl1, fun json expireAt hjson => ?_⟩, hfound⟩
  exact (hredis json expireAt hjson).concat fun hw => absurd hw hquiet

theorem Accounted.step (h : Accounted client config regExp redis key calls
      (reachIn client config regExp redis calls)) (he : e.op.IsSingle) :
    Accounted client config regExp redis key (calls ++ [e])
      (reachIn client config regExp redis (calls ++ [e])) := by
  rw [reachIn_concat]
  obtain ⟨op, env⟩ := e
  cases op with
  | get key' => exact (h.get (e := ⟨.get key', env⟩) rfl).1
  | set key' value options =>
    obtain ⟨hl1, hredis⟩ := holds_setIn env
      (K := fun c => Served client config regExp redis key calls c.value)
      (N := fun c => KeptByRedis client config redis key calls c.value)
      h.l1 h.redis key' value options
      (L := fun c => Served client config regExp redis key
        (calls ++ [⟨.set key' value options, env⟩]) c.value)
      (M := fun c => KeptByRedis client config redis key
        (calls ++ [⟨.set key' value options, env⟩]) c.value)
      (fun hk => served_set (by rw [hk]; rfl))
      (fun hk => keptByRedis_set (by rw [hk]; rfl))
      (fun hnx c hc => Served.concat hc (e := ⟨.set key' value options, env⟩) fun hw =>
        absurd (hnx hw.1) (hw.2 ▸ Bool.false_ne_true))
      (fun hlost c hc => KeptByRedis.concat hc fun hw hreach => hlost ⟨hw, hreach⟩)
    exact ⟨hl1, hredis⟩
  | delete key' =>
    obtain ⟨hl1, hredis⟩ := holds_deleteIn env
      (K := fun c => Served client config regExp redis key calls c.value)
      (N := fun c => KeptByRedis client config redis key calls c.value)
      h.l1 h.redis key'
      (L := fun c => Served client config regExp redis key (calls ++ [⟨.delete key', env⟩]) c.value)
      (M := fun c => KeptByRedis client config redis key (calls ++ [⟨.delete key', env⟩]) c.value)
      (fun hne c hc => Served.concat hc (e := ⟨.delete key', env⟩) hne)
      (fun hlost c hc => KeptByRedis.concat hc (e := ⟨.delete key', env⟩)
        fun hw hreach => hlost ⟨hw, hreach⟩)
    exact ⟨hl1, hredis⟩
  | flush =>
    obtain ⟨hl1, hredis⟩ := holds_flushIn env
      (K := fun c => Served client config regExp redis key calls c.value)
      (N := fun c => KeptByRedis client config redis key calls c.value)
      h.l1 h.redis
      (L := fun c => Served client config regExp redis key (calls ++ [⟨.flush, env⟩]) c.value)
      (M := fun c => KeptByRedis client config redis key (calls ++ [⟨.flush, env⟩]) c.value)
      (fun hlost c hc => KeptByRedis.concat hc fun _ => hlost)
    exact ⟨hl1, hredis⟩
  | sweep =>
    refine ⟨(h.l1.mono fun entry hv => hv.concat id).sweep env.l1, fun json expireAt hjson => ?_⟩
    exact (h.redis json expireAt hjson).concat fun hw => hw.elim
  | _ => exact he.elim

theorem accounted_reachIn (redis : Database V) (key : String) (calls : List (LayeredCall V))
    (hsingle : ∀ e ∈ calls, e.op.IsSingle) :
    Accounted client config regExp redis key calls
      (reachIn client config regExp redis calls) := by
  induction calls using List.reverseRecOn with
  | nil =>
    refine ⟨HoldsAt.new config key _, fun json expireAt hjson => ?_⟩
    exact ⟨[], [], rfl, Or.inr ⟨rfl, json, expireAt, hjson, rfl⟩,
      fun w hw => absurd hw List.not_mem_nil⟩
  | append_singleton calls e ih =>
    have hbefore := ih fun e' he' => hsingle e' (List.mem_append_left [e] he')
    exact hbefore.step (hsingle e (List.mem_append_right calls (List.mem_singleton_self e)))

end Runs

/-- Whatever becomes of Redis, what a read returns has outlived only writes that Redis did
not carry out, and each of them before a read from Redis: this one or an earlier one. -/
theorem served_of_getIn (client : Client) (config : Config) (regExp : RegExp)
    (redis : Database V) (key : String) (calls : List (LayeredCall V))
    (hsingle : ∀ e ∈ calls, e.op.IsSingle) (env : Surroundings) (entry : CacheEntry V)
    (hget : (getIn client env key (reachIn client config regExp redis calls)).2 = some entry) :
    Served client config regExp redis key (calls ++ [⟨.get key, env⟩]) entry.value :=
  ((accounted_reachIn redis key calls hsingle).get (e := ⟨.get key, env⟩) rfl).2 rfl entry hget

/-- A deletion while Redis is away: the value is read from Redis again when it is back. -/
def deletedWhileAway (now : Time) : List (LayeredCall ℕ) :=
  [⟨.set "a" 1 (.ofTtl 60), (Conditions.good now).surroundings⟩,
    ⟨.delete "a", Conditions.surroundings ⟨now, false, fun _ => .lost⟩⟩]

theorem value_getIn_deletedWhileAway :
    (getIn ⟨"edgecache:"⟩ (Conditions.good ⟨3000, by decide⟩).surroundings "a"
      (reachIn ⟨"edgecache:"⟩ ⟨1, 60, by decide, by decide⟩ (fun _ => none) (fun _ => none)
        (deletedWhileAway ⟨1000, by decide⟩))).2.map (·.value) = some 1 := by
  decide +kernel

theorem isSingle_deletedWhileAway (now : Time) :
    ∀ e ∈ deletedWhileAway now, e.op.IsSingle := by
  intro e he
  simp only [deletedWhileAway, List.mem_cons, List.not_mem_nil, or_false] at he
  rcases he with rfl | rfl <;> trivial

theorem served_of_getIn_away :
    Served ⟨"edgecache:"⟩ ⟨1, 60, by decide, by decide⟩ (fun _ => none) (fun _ => none) "a"
      (deletedWhileAway ⟨1000, by decide⟩ ++
        [⟨.get "a", (Conditions.good ⟨3000, by decide⟩).surroundings⟩]) 1 := by
  obtain ⟨entry, hentry, hvalue⟩ := Option.map_eq_some_iff.mp value_getIn_deletedWhileAway
  have hserved := served_of_getIn ⟨"edgecache:"⟩ ⟨1, 60, by decide, by decide⟩ (fun _ => none)
    (fun _ => none) "a" _ (isSingle_deletedWhileAway _) _ entry hentry
  rw [hvalue] at hserved
  exact hserved

/-- The deletion has returned, and a read returns a value that was set before it. -/
theorem not_overwritten_while_away :
    ¬ ∀ (before : List (LayeredCall ℕ)) (w : LayeredCall ℕ) (after : List (LayeredCall ℕ))
        (env : Surroundings) (entry : CacheEntry ℕ),
      (∀ e ∈ before ++ w :: after, e.op.IsSingle) → w.op.Overwrites "a" →
      (getIn ⟨"edgecache:"⟩ env "a" (reachIn ⟨"edgecache:"⟩ ⟨1, 60, by decide, by decide⟩
        (fun _ => none) (fun _ => none) (before ++ w :: after))).2 = some entry →
      ∃ e ∈ w :: after, ∃ options, e.op = .set "a" entry.value options := by
  intro hall
  obtain ⟨entry, hentry, -⟩ := Option.map_eq_some_iff.mp value_getIn_deletedWhileAway
  obtain ⟨e, he, options, hset⟩ := hall
    [⟨.set "a" 1 (.ofTtl 60), (Conditions.good ⟨1000, by decide⟩).surroundings⟩]
    ⟨.delete "a", Conditions.surroundings ⟨⟨1000, by decide⟩, false, fun _ => .lost⟩⟩ []
    _ entry (isSingle_deletedWhileAway _) rfl hentry
  obtain rfl := List.mem_singleton.mp he
  cases hset

end LayeredCacheRepository

end EdgeCache
