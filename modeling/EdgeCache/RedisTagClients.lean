import EdgeCache.RedisExpiry
import EdgeCache.RedisIndex

/-!
Invalidation by tags while other clients write. A set stores the entry and then adds its key
to the sets of its tags, command by command; an invalidation reads a set, deletes the keys it
has read, and at last the set. What was added to the set in between is in no set then. As long
as an invalidation drops a set only when every entry with the tag has its indexing still before
it, nothing is lost: every entry is in the sets of its tags, or on the way there.
-/
namespace EdgeCache

open Programs (Program InFlight)

variable {V : Type}

/-! ### What a set promises -/

/-- A reply that Redis gives to the command at some time in some state. -/
def Redis.Replies (c : Command V) (a : Reply V) : Prop :=
  ∃ now db, (Redis.exec now db c).2 = some a

/-- While its commands are answered, a program adds what it stores to the sets of its tags,
and gives sets only times in the future. -/
def Indexes {α : Type} : RedisProgram V α → Prop
  | .ret _ => True
  | .throw => True
  | .now k => ∀ now, Indexes (k now)
  | .call c k =>
    (∀ key json mode, c = .set key json mode → ∀ tag ∈ json.tags, ∀ r,
      (k r).Will (.sadd (tagKey tag) key)) ∧
    (∀ key seconds, c = .expire key seconds → ∀ now t, Redis.expireTime now seconds = some t →
      now.val < t) ∧
    ∀ a, Redis.Replies c a → Indexes (k (some a))

/-- A command that stores nothing, and cuts no time short. -/
def Command.Indexless : Command V → Prop
  | .set _ _ _ => False
  | .expire _ seconds => ∀ now t, Redis.expireTime now seconds = some t → now.val < t
  | _ => True

theorem indexes_of_onlyCalls {α : Type} {p : RedisProgram V α}
    (hp : p.OnlyCalls Command.Indexless) : Indexes p := by
  induction p with
  | ret a => trivial
  | throw => trivial
  | now k ih => exact fun now => ih now (hp now trivial)
  | call c k ih =>
    obtain ⟨hc, hrest⟩ := hp
    refine ⟨fun key json mode heq => ?_, fun key seconds heq => ?_, fun a _ => ?_⟩
    · subst heq
      exact hc.elim
    · subst heq
      exact hc
    · exact ih (some a) (hrest _ fun _ _ => trivial)

theorem indexes_set (config : Config) (key : String) (value : V) (options : SetOptions) :
    Indexes (RedisCacheRepository.set config key value options) := by
  intro now
  refine ⟨?_, ?_, ?_⟩
  · intro key' json mode heq tag htag r
    obtain ⟨rfl, rfl, -⟩ := Command.set.inj heq
    exact Program.will_each (List.mem_flatMap.mpr ⟨tag, htag, List.mem_cons_self⟩) _
  · intro key' seconds heq
    cases heq
  · intro a ha
    have hdeadline : ∃ start t, Redis.setDeadline start
        (options.ttlOr (.ofNat config.cacheDefaultTtl)) = some t := by
      obtain ⟨start, db, hreply⟩ := ha
      refine ⟨start, Option.isSome_iff_exists.mp (Option.isSome_iff_ne_none.mpr fun hnone => ?_)⟩
      cases hnx : options.ifNotExists <;>
        simp [Redis.exec, CacheEntry.create, hnx, hnone] at hreply
    obtain ⟨start, t, ht⟩ := hdeadline
    refine indexes_of_onlyCalls (Program.Meets.each (fun c hc => ?_) trivial)
    obtain ⟨tag, -, hc⟩ := List.mem_flatMap.mp hc
    simp only [List.mem_cons, List.not_mem_nil, or_false] at hc
    rcases hc with rfl | rfl
    · trivial
    · exact fun now b hb => expireTime_plus_of_setDeadline ht hb

theorem indexes_deleteByTags (tags : List String) :
    Indexes ((RedisCacheRepository.deleteByTags tags : RedisProgram V ℕ).map fun _ => ()) := by
  apply indexes_of_onlyCalls
  apply Program.OnlyCalls.map
  exact RedisCacheRepository.deleteTags_meets (fun _ => trivial) (fun _ => trivial) tags 0

/-! ### Steps -/

namespace RedisClients

/-- The requests that write and invalidate. -/
def Tagging : RedisOp V → Prop
  | .set _ _ _ => True
  | .deleteByTags _ => True
  | _ => False

/-- No command fails, and as time passes nothing that is stored expires. -/
structure Smooth (client : Client) (s : RedisClients V) (a : ClientAction V) : Prop where
  faultless : ∀ i fault, a = .advance i fault → fault = .none
  answered : ∀ c ∈ s.pending a, (client.send s.now s.state c).2.isSome = true
  lasting : ∀ t, a = .tick t → Redis.Unexpired (max s.now t) (client.view s.state)

/-- The call that adds the key to the set of the tag is under way. -/
def Awaits (s : RedisClients V) (key tag : String) : Prop := s.Owes (.sadd (tagKey tag) key)

/-- A tag set is taken away, or written over, only when every entry with the tag goes with it
or has its indexing still before it. -/
def SparesIndex (client : Client) (s : RedisClients V) (a : ClientAction V) : Prop :=
  ∀ c ∈ s.pending a, ∀ key tag, Redis.Carrier (client.view s.state) key tag →
    match c with
    | .set key' _ _ => tagKey tag = key' → key = key' ∨ s.Awaits key tag
    | .del keys => tagKey tag ∈ keys → key ∈ keys ∨ s.Awaits key tag
    | _ => True

/-- Every entry is in the sets of its tags or on the way there, and so are those that the
calls under way will store. -/
structure Indexed (client : Client) (s : RedisClients V) : Prop where
  unexpired : Redis.Unexpired s.now (client.view s.state)
  entries : Redis.IndexedBut s.Awaits (client.view s.state)
  calls : ∀ call ∈ s.calls, Indexes call.2

variable {client : Client} {config : Config} {s : RedisClients V} {a : ClientAction V}

theorem executed_of_smooth (h : s.Smooth client a) : s.executed a = s.pending a := by
  cases a with
  | advance i fault =>
    rw [h.faultless i fault rfl]
    rfl
  | _ => rfl

theorem unexpired_step (h : Redis.Unexpired s.now (client.view s.state))
    (hsmooth : s.Smooth client a) : Redis.Unexpired (step client config s a).now
      (client.view (step client config s a).state) := by
  rw [view_step]
  cases a with
  | start request => exact h
  | tick t => exact hsmooth.lasting t rfl
  | advance i fault =>
    have hnow : (step client config s (.advance i fault)).now = s.now := by
      cases hi : s.calls[i]? <;> simp [step, InFlight.step, hi]
    rw [hnow]
    cases s.executed (.advance i fault) with
    | none => exact h
    | some c => exact h.exec c

theorem calls_step (hindexed : s.Indexed client) (hrequest : ∀ request, a = .start request →
    Tagging request) (hsmooth : s.Smooth client a) :
    ∀ call ∈ (step client config s a).calls, Indexes call.2 := by
  refine InFlight.forall_calls_step (fun request ha => ?_) (fun k hk => hk s.now)
    (fun i fault c k ha hc hk => ?_) hindexed.calls
  · have htagging := hrequest request ha
    cases request with
    | set key value options => exact indexes_set config key value options
    | deleteByTags tags => exact indexes_deleteByTags tags
    | _ => exact htagging.elim
  · obtain rfl := hsmooth.faultless i fault ha
    obtain ⟨reply, hreply⟩ := Option.isSome_iff_exists.mp (hsmooth.answered c hc)
    have hattempt : (Programs.attempt client.send .none s.now s.state c).2 = some reply := hreply
    rw [hattempt]
    rw [(client.view_send s.now s.state c).2] at hreply
    exact hk.2.2 reply ⟨s.now, _, hreply⟩

theorem awaits_of_set (hindexed : s.Indexed client) {key : String} {json : EntryJson V}
    {mode : SetMode} (hpending : s.pending a = some (.set key json mode)) :
    ∀ tag ∈ json.tags, s.Awaits key tag := by
  intro tag htag
  obtain ⟨call, hmem, k, hcall⟩ := InFlight.exists_call_of_pending hpending
  have hpromise := hindexed.calls call hmem
  rw [hcall] at hpromise
  refine ⟨call, hmem, ?_⟩
  rw [hcall]
  exact Or.inr (hpromise.1 key json mode rfl tag htag)

theorem Indexed.step (h : s.Indexed client)
    (hrequest : ∀ request, a = .start request → Tagging request) (hsmooth : s.Smooth client a)
    (hspares : s.SparesIndex client a) : (step client config s a).Indexed client := by
  refine ⟨unexpired_step h.unexpired hsmooth, ?_, calls_step h hrequest hsmooth⟩
  have hkept : ∀ key tag, s.Awaits key tag → s.pending a ≠ some (.sadd (tagKey tag) key) →
      (RedisClients.step client config s a).Awaits key tag := fun key tag howes hne => howes.step hne
  rw [view_step, executed_of_smooth hsmooth]
  cases hpending : s.pending a with
  | none => exact h.entries.mono fun key tag howes => hkept key tag howes (by simp [hpending])
  | some c =>
    have hok := hsmooth.answered c hpending
    rw [(client.view_send s.now s.state c).2] at hok
    have hdrops := hspares c hpending
    rw [Option.elim_some]
    have hstill : (∀ key tag, c ≠ .sadd (tagKey tag) key) → ∀ key tag, s.Awaits key tag →
        (RedisClients.step client config s a).Awaits key tag := by
      intro hne key tag howes
      refine hkept key tag howes fun heq => hne key tag ?_
      exact Option.some.inj (hpending.symm.trans heq)
    cases c with
    | set key json mode =>
      refine (h.entries.set (awaits_of_set h hpending) fun tag key' htag hcarrier => ?_).mono
        (hstill fun _ _ heq => by cases heq)
      exact hdrops key' tag hcarrier htag
    | del keys =>
      refine (h.entries.del fun tag key htag hcarrier => ?_).mono
        (hstill fun _ _ heq => by cases heq)
      exact hdrops key tag hcarrier htag
    | sadd setKey member =>
      refine h.entries.sadd h.unexpired hok fun key tag howes => ?_
      by_cases hsent : tagKey tag = setKey ∧ key = member
      · exact Or.inr hsent
      · refine Or.inl (hkept key tag howes fun heq => hsent ?_)
        obtain ⟨hset, hmember⟩ := Command.sadd.inj (Option.some.inj (hpending.symm.trans heq))
        exact ⟨hset.symm, hmember.symm⟩
    | expire setKey seconds =>
      obtain ⟨call, hmem, k, hcall⟩ := InFlight.exists_call_of_pending hpending
      have hpromise := h.calls call hmem
      rw [hcall] at hpromise
      refine (h.entries.congr fun key => ?_).mono (hstill fun _ _ heq => by cases heq)
      exact Redis.valueAt_expire (hpromise.2.1 setKey seconds rfl s.now)
    | flushdb =>
      intro key tag hcarrier
      obtain ⟨json, hjson, -⟩ := hcarrier
      cases hjson
    | _ =>
      refine (h.entries.congr fun key => ?_).mono (hstill fun _ _ heq => by cases heq)
      exact Redis.valueAt_exec_frame id

end RedisClients

/-- In every run of sets and invalidations, while no command fails and nothing expires, every
entry is in the sets of its tags once no call is under way, and invalidating any of them
deletes it, as long as no tag set is taken away that has an entry and not its indexing before
it. -/
theorem RedisCacheRepository.indexed_of_sparesIndex (client : Client) (config : Config)
    (redis : Database V) (now : Time)
    (hstart : Redis.IndexedBut (fun _ _ => False) (client.view redis))
    (hlive : Redis.Unexpired now (client.view redis)) (actions : List (ClientAction V))
    (hrequests : ∀ request, .start request ∈ actions → RedisClients.Tagging request)
    (hsmooth : Runs.Guarded (RedisClients.step client config)
      (fun s a => s.Smooth client a) (.idle redis now) actions)
    (hspares : Runs.Guarded (RedisClients.step client config)
      (fun s a => s.SparesIndex client a) (.idle redis now) actions) :
    let s := RedisClients.run client config redis now actions
    s.Settled → ∀ key tag, Redis.Carrier (client.view s.state) key tag →
      Redis.Member (client.view s.state) tag key ∧
      ∀ clock : Clock, Redis.Unexpired (clock 0) (client.view s.state) →
        client.view (step client config s.state ⟨.deleteByTags [tag], clock⟩) key = none := by
  intro s hsettled key tag hcarrier
  have hrequest : ∀ a ∈ actions, ∀ request, a = .start request → RedisClients.Tagging request :=
    fun a ha request heq => hrequests request (heq ▸ ha)
  have hindexed : s.Indexed client :=
    ((Runs.guarded_of_forall hrequest _).and (hsmooth.and hspares)).invariant
      (I := fun s : RedisClients V => s.Indexed client)
      (fun _ _ hs hguard => hs.step hguard.1 hguard.2.1 hguard.2.2)
      ⟨hlive, hstart.mono fun _ _ h => h.elim, fun call hcall => by cases hcall⟩
  have hmember : Redis.Member (client.view s.state) tag key :=
    (hindexed.entries key tag hcarrier).resolve_left (hsettled.not_owes _)
  refine ⟨hmember, fun clock hlive => ?_⟩
  obtain ⟨members, hmembers, hmem⟩ := hmember
  obtain ⟨t, hset⟩ := Redis.valueAt_eq_some.mp hmembers
  have hview := (Programs.run_view client.view_send clock Programs.faultless 0
    ((RedisOp.deleteByTags [tag]).program config) s.state).1
  refine (congrFun hview key).trans ?_
  rw [RedisOp.program, Programs.run_map_fst]
  exact run_deleteByTags_eq_none ((hlive.find _).trans hset) hmem

namespace RedisClients

/-- Every command is answered, and the clock stands. -/
def Steady (client : Client) (s : RedisClients V) : ClientAction V → Bool
  | .start _ => true
  | .advance i fault => fault = .none && (s.pending (.advance i fault)).all fun c =>
      (client.send s.now s.state c).2.isSome
  | .tick _ => false

theorem smooth_of_steady {client : Client} {s : RedisClients V} {a : ClientAction V}
    (h : s.Steady client a = true) : s.Smooth client a := by
  cases a with
  | start request =>
    exact ⟨fun _ _ h => (by cases h), fun _ h => (by cases h), fun _ h => (by cases h)⟩
  | advance i fault =>
    obtain ⟨hfault, hall⟩ := Bool.and_eq_true_iff.mp h
    refine ⟨fun j fault' heq => ?_, fun c hc => ?_, fun _ h => (by cases h)⟩
    · obtain ⟨rfl, rfl⟩ := InFlight.Action.advance.inj heq
      exact of_decide_eq_true hfault
    · rw [hc] at hall
      exact hall
  | tick t => cases h

/-- Nothing that is named as shortly as this is a tag set. -/
def WritesShort (s : RedisClients V) (a : ClientAction V) : Bool :=
  (s.pending a).all fun
    | .set key _ _ => key.length < 17
    | .del keys => keys.all (·.length < 17)
    | _ => true

theorem sparesIndex_of_writesShort {client : Client} {s : RedisClients V} {a : ClientAction V}
    (h : s.WritesShort a = true) : s.SparesIndex client a := by
  intro c hc key tag _
  rw [WritesShort, hc, Option.all_some] at h
  cases c with
  | set key' json mode => exact fun htag => absurd htag (tagKey_ne_of_length_lt (of_decide_eq_true h))
  | del keys =>
    intro htag
    have hshort := List.all_eq_true.mp h _ htag
    exact absurd rfl (tagKey_ne_of_length_lt (of_decide_eq_true hshort))
  | _ => trivial

def readBeforeIndexing : List (ClientAction ℕ) :=
  [.start (.set "a" 7 (.tagged 60 ["t"])), .advance 0 .none, .advance 0 .none,
    .start (.deleteByTags ["t"]), .advance 1 .none]

end RedisClients

/-- The set is dropped before the entry's key is added to it. -/
theorem RedisCacheRepository.indexed_of_sparesIndex_early :
    let s := RedisClients.run ⟨"edgecache:"⟩ ⟨1, 60, by decide, by decide⟩ (fun _ => none)
      ⟨1000, by decide⟩
      (RedisClients.readBeforeIndexing ++ [.advance 1 .none, .advance 0 .none, .advance 0 .none])
    Redis.Member (Client.view ⟨"edgecache:"⟩ s.state) "t" "a" := by
  intro s
  have hdrop : RedisClients.SparesIndex ⟨"edgecache:"⟩ (RedisClients.run ⟨"edgecache:"⟩
      ⟨1, 60, by decide, by decide⟩ (fun _ => none) ⟨1000, by decide⟩
      RedisClients.readBeforeIndexing) (.advance 1 .none) := by
    intro c hc key tag hcarrier
    obtain rfl : c = .del [tagKey "t"] := Option.some.inj hc.symm
    intro htag
    obtain rfl := tagKey_inj.mp (List.mem_singleton.mp htag)
    have hkey : key = "a" := by
      obtain ⟨json, hjson, -⟩ := hcarrier
      by_contra hne
      have hnone : Redis.insert (fun _ => none) "edgecache:a" (⟨.string (.stringify (.create
          ⟨1000, by decide⟩ "a" 7 (.ofNat 60) ["t"] [])), some 61000⟩ : Record ℕ)
          ("edgecache:" ++ key) = none :=
        Redis.insert_of_ne fun heq => hne ((Client.append_inj ⟨"edgecache:"⟩).mp heq)
      exact Option.some_ne_none _ (hjson.symm.trans (congrArg (Option.map Record.value) hnone))
    subst hkey
    refine Or.inr ⟨_, List.mem_cons_self, ?_⟩
    exact Program.will_each List.mem_cons_self _
  have hspares : Runs.Guarded (RedisClients.step ⟨"edgecache:"⟩ ⟨1, 60, by decide, by decide⟩)
      (fun s a => s.SparesIndex ⟨"edgecache:"⟩ a) (.idle (fun _ => none) ⟨1000, by decide⟩)
      (RedisClients.readBeforeIndexing ++
        [.advance 1 .none, .advance 0 .none, .advance 0 .none]) := by
    apply Runs.Guarded.append
    · exact Runs.Guarded.mono (fun _ _ => RedisClients.sparesIndex_of_writesShort)
        (by decide +kernel)
    · exact ⟨hdrop, Runs.Guarded.mono (fun _ _ => RedisClients.sparesIndex_of_writesShort)
        (by decide +kernel)⟩
  have hmember := indexed_of_sparesIndex ⟨"edgecache:"⟩ ⟨1, 60, by decide, by decide⟩
    (fun _ => none) ⟨1000, by decide⟩ (fun _ _ h => by
      obtain ⟨json, hjson, -⟩ := h
      cases hjson)
    (fun _ _ h => by cases h)
    (RedisClients.readBeforeIndexing ++ [.advance 1 .none, .advance 0 .none, .advance 0 .none])
    (by
      intro request h
      simp only [RedisClients.readBeforeIndexing, List.cons_append, List.nil_append, List.mem_cons,
        List.not_mem_nil, or_false, reduceCtorEq, InFlight.Action.start.injEq, false_or] at h
      rcases h with rfl | rfl <;> trivial)
    (Runs.Guarded.mono (fun _ _ => RedisClients.smooth_of_steady) (by decide +kernel))
    hspares
  refine (hmember ?_ "a" "t" ⟨.stringify (.create ⟨1000, by decide⟩ "a" 7 (.ofNat 60) ["t"] []),
    by decide +kernel, List.mem_singleton_self "t"⟩).1
  exact List.all_eq_true.mp (by decide +kernel)

/-- A key that is added to the set after it has been read is in no set when it is dropped. -/
theorem RedisCacheRepository.not_indexed_of_late_sadd :
    ¬ ∀ actions : List (ClientAction ℕ),
      (∀ request, .start request ∈ actions → RedisClients.Tagging request) →
      Runs.Guarded (RedisClients.step ⟨"edgecache:"⟩ ⟨1, 60, by decide, by decide⟩)
        (fun s a => s.Smooth ⟨"edgecache:"⟩ a) (.idle (fun _ => none) ⟨1000, by decide⟩) actions →
      let s := RedisClients.run ⟨"edgecache:"⟩ ⟨1, 60, by decide, by decide⟩ (fun _ => none)
        ⟨1000, by decide⟩ actions
      s.Settled → ∀ key tag, Redis.Carrier (Client.view ⟨"edgecache:"⟩ s.state) key tag →
        Redis.Member (Client.view ⟨"edgecache:"⟩ s.state) tag key := by
  intro hall
  have hmember := hall [.start (.deleteByTags ["t"]), .advance 0 .none,
      .start (.set "a" 7 (.tagged 60 ["t"])), .advance 1 .none, .advance 1 .none, .advance 1 .none,
      .advance 1 .none, .advance 0 .none]
    (by
      intro request h
      simp only [List.mem_cons, List.not_mem_nil, or_false, reduceCtorEq,
        InFlight.Action.start.injEq, false_or] at h
      rcases h with rfl | rfl <;> trivial)
    (Runs.Guarded.mono (fun _ _ => RedisClients.smooth_of_steady) (by decide +kernel))
    (List.all_eq_true.mp (by decide +kernel)) "a" "t"
    ⟨.stringify (.create ⟨1000, by decide⟩ "a" 7 (.ofNat 60) ["t"] []), by decide +kernel,
      List.mem_singleton_self "t"⟩
  obtain ⟨members, hmembers, -⟩ := hmember
  revert hmembers
  apply ne_of_eq_of_ne (b := none)
  · decide +kernel
  · exact (Option.some_ne_none _).symm

end EdgeCache
