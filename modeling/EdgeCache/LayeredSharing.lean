import EdgeCache.LayeredAgreement

/-!
What one instance sets, the others read. A set that Redis carries out replaces what was there,
and Redis keeps it for its time. An instance whose first tier serves nothing older reads the new
value, whatever becomes of Redis in between and whatever the first tiers evict, as long as nobody
takes the key out of Redis or brings another value.
-/
namespace EdgeCache

open Programs (Program faultless)

variable {V : Type}

/-- An unconditional set that Redis carries out, for a whole number of seconds that ends at a
date. -/
structure SetsForAll (config : Config) (key : String) (options : SetOptions) (seconds : ℕ)
    (start : Time) (env : Surroundings) : Prop where
  unconditional : options.ifNotExists = false
  ttl : options.ttlOr (.ofNat config.cacheDefaultTtl) = .ofNat seconds
  seconds_pos : 0 < seconds
  tags : ∀ tag ∈ options.tagList, tagKey tag ≠ key
  sound : env.Sound
  reads : env.Reads fun now => start ≤ now ∧ now.val + seconds * 1000 ≤ maxTime

namespace SetsForAll

variable {client : Client} {config : Config} {key : String} {options : SetOptions} {seconds : ℕ}
  {start : Time} {env : Surroundings}

/-- Redis has the document of the set, whatever was there. -/
theorem keeping (h : SetsForAll config key options seconds start env) (client : Client) (value : V)
    (redis : Database V) :
    Keeping client key value (start.val + seconds * 1000)
      (LayeredCacheRepository.callL2In client env
        (RedisCacheRepository.set config key value options) redis).1 := by
  have hfault : env.fault = faultless := funext h.sound.answered
  obtain ⟨hstart, hdate⟩ := h.reads.l2 0
  obtain ⟨hstart', hdate'⟩ := h.reads.l2 1
  have hdeadline : Redis.setDeadline (env.clock 1) (.ofNat seconds) =
      some ((env.clock 1).val + seconds * 1000) := Redis.setDeadline_ofNat h.seconds_pos hdate'
  have hrecord : client.view (LayeredCacheRepository.callL2In client env
      (RedisCacheRepository.set config key value options) redis).1 key =
        some ⟨.string (.stringify (.create (env.clock 0) key value (.ofNat seconds)
          options.tagList options.metadataList)), some ((env.clock 1).val + seconds * 1000)⟩ := by
    rw [LayeredCacheRepository.callL2In, hfault, (Programs.run_view client.view_send _ _ _ _ _).1]
    simp only [RedisCacheRepository.set, RedisCacheRepository.setCommands, h.unconditional,
      Bool.false_eq_true, ↓reduceIte, Program.each, Programs.run, Programs.attempt, faultless,
      Redis.exec, CacheEntry.create, h.ttl, hdeadline]
    rw [Redis.run_frame (RedisCacheRepository.tagCommands_onlyCalls h.tags _), Redis.insert_self]
  refine ⟨_, hrecord, _, rfl, EntryJson.lasts_create hstart hdate _ _, fun t ht => ?_⟩
  obtain rfl := Option.some.inj ht
  have hle : start.val ≤ (env.clock 1).val := hstart'
  show start.val + (seconds : ℤ) * 1000 ≤ (env.clock 1).val + seconds * 1000
  omega

/-- The instance that sets the key serves the value, whatever its first tier had. -/
theorem agreeing (h : SetsForAll config key options seconds start env) (value : V) {s : Tiers V}
    (hl1 : HoldsAt config key (fun _ => True) s.l1) :
    Agreeing client config key value start (start.val + seconds * 1000)
      (LayeredCacheRepository.setIn client config env key value options s) := by
  obtain ⟨v, hv, -⟩ := hl1
  have hfree : s.l1.suppressed env.l1 key options = false := by
    simp only [MemoryCacheRepository.suppressed, h.unconditional, Bool.false_and]
  have hentry := MemoryCacheRepository.entryAt_set hv env.l1 key value options hfree
  have hafter : HoldsAt config key (fun _ => True) (s.l1.set env.l1 key value options) :=
    ⟨_, hv.set env.l1 key value options, fun _ _ => trivial⟩
  rw [setIn_of_sound h.sound]
  refine ⟨hafter.intro_entryAt fun entry hentry' => Or.inl ?_, h.keeping client value s.redis⟩
  obtain rfl := Option.some.inj (hentry.symm.trans hentry')
  rfl

end SetsForAll

namespace Cluster

variable {ι : Type} [DecidableEq ι] {client : Client} {config : Config} {regExp : RegExp}
  {key : String} {value : V} {options : SetOptions} {seconds : ℕ} {start : Time}
  {env : Surroundings}

theorem forall_l1_stepIn {P : ι → MemoryCacheRepository V → Prop} {s : Cluster ι V}
    {e : ClusterCall ι V} (hself : P e.instance_ (LayeredCacheRepository.stepIn client config regExp
      (s.tiers e.instance_) e.call).l1) (hothers : ∀ i, i ≠ e.instance_ → P i (s.l1 i)) (i : ι) :
    P i ((s.stepIn client config regExp e).l1 i) := by
  by_cases hi : i = e.instance_
  · rw [← tiers_stepIn] at hself
    exact hi ▸ hself
  · rw [l1_stepIn_of_ne s e hi]
    exact hothers i hi

/-- All instances serve the value up to the deadline, if the other ones had nothing older. -/
theorem allAgreeing_of_set {redis : Database V} {calls later : List (ClusterCall ι V)} {i : ι}
    (hset : SetsForAll config key options seconds start env)
    (hothers : ∀ j, j ≠ i → ∀ entry,
      ((reachIn client config regExp redis calls).l1 j).entryAt key = some entry →
      ServesAtMost value start entry)
    (hlater : Runs.Guarded (stepIn client config regExp)
      (Admits client config regExp key value start (start.val + seconds * 1000))
      (reachIn client config regExp redis (calls ++ [⟨i, .set key value options, env⟩])) later) :
    AllAgreeing client config key value start (start.val + seconds * 1000)
      (reachIn client config regExp redis
        (calls ++ ⟨i, .set key value options, env⟩ :: later)) := by
  rw [List.append_cons, reachIn, Runs.run_append]
  refine hlater.invariant (fun _ _ hs he => hs.stepIn he) ?_
  have hsetter : Agreeing client config key value start (start.val + seconds * 1000)
      (LayeredCacheRepository.stepIn client config regExp
        ((reachIn client config regExp redis calls).tiers i) ⟨.set key value options, env⟩) :=
    hset.agreeing value (holds_reachIn config redis calls key i)
  rw [reachIn, Runs.run_append]
  refine fun j => ⟨forall_l1_stepIn (P := fun _ => HoldsAt config key (ServesAtMost value start))
    hsetter.l1 (fun j hj => ?_) j, hsetter.redis⟩
  exact (holds_reachIn config redis calls key j).intro_entryAt (hothers j hj)

end Cluster

end EdgeCache
