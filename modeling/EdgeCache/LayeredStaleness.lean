import EdgeCache.LayeredCache
import EdgeCache.Library.Runs
import Mathlib.Data.List.Induction

/-!
How long a value can live. Instances with a memory tier each share one Redis that may be
away or fail at any command. A value moves between the tiers with an expiry that is
recomputed on the way, and never later than the expiry of the set it came from: every
copy can be traced to a set of the run whose time is not over while the copy is served.
-/
namespace EdgeCache

variable {V : Type}

/-! ### Deadlines -/

/-- The date is no later than `t`; an invalid one is later than every valid one. -/
def Date.EndsBy (date : Date) (t : ℤ) : Prop :=
  match date with
  | some d => d ≤ t
  | none => maxTime < t

namespace Date.EndsBy

variable {date : Date} {t : ℤ}

/-- The trip through a document only makes an invalid date earlier. -/
theorem document (h : date.EndsBy t) (ht : 0 ≤ t) : (Date.ofJson date.toJson).EndsBy t := by
  cases date with
  | some d => exact h
  | none => exact ht

theorem le_of_not_isBefore {now : Time} (h : date.EndsBy t) (hfresh : date.isBefore now = false) :
    now.val ≤ t := by
  cases date with
  | some d =>
    simp only [Date.isBefore, decide_eq_false_iff_not, not_lt] at hfresh
    exact hfresh.trans h
  | none => exact now.property.2.trans h.le

end Date.EndsBy

theorem endsBy_create (start : Time) (key : String) (value : V) (n : ℕ) (tags : List String)
    (metadata : Metadata) :
    (CacheEntry.create start key value (.ofNat n) tags metadata).expiresAt.EndsBy
      (start.val + n * 1000) := by
  simp only [CacheEntry.create, JsNumber.toDate_after_ofNat]
  split
  · exact le_rfl
  · next hlate => exact not_le.mp hlate

theorem endsBy_promotion (config : Config) {entry : CacheEntry V} {now : Time} {t : ℤ}
    (h : entry.expiresAt.EndsBy t) (hfresh : entry.isExpired now = false) (key : String) :
    (MemoryView.newEntry config now key entry.value
      (LayeredCacheRepository.promotion entry now)).expiresAt.EndsBy t := by
  have hle := h.le_of_not_isBefore hfresh
  cases hdate : entry.expiresAt with
  | none =>
    have hnone : (MemoryView.newEntry config now key entry.value
        (LayeredCacheRepository.promotion entry now)).expiresAt = none := by
      simp [MemoryView.newEntry, LayeredCacheRepository.promotion, SetOptions.ttlOr,
        CacheEntry.create, CacheEntry.remainingTtl, Date.secondsFrom, hdate, JsNumber.after,
        JsNumber.toDate]
    rw [hnone]
    rwa [hdate] at h
  | some d =>
    obtain ⟨n, hn, hdeadline⟩ := entry.remainingTtl_eq hdate hfresh
    have hcreate := endsBy_create now key entry.value n entry.tags entry.metadata
    have heq : MemoryView.newEntry config now key entry.value
        (LayeredCacheRepository.promotion entry now) =
        CacheEntry.create now key entry.value (.ofNat n) entry.tags entry.metadata := by
      rw [← hn]
      rfl
    rw [hdate] at h
    have hd : d ≤ t := h
    rw [heq]
    revert hcreate
    cases (CacheEntry.create now key entry.value (.ofNat n) entry.tags entry.metadata).expiresAt with
    | some d' =>
      intro hd'
      exact hd'.trans (hdeadline.trans hd)
    | none =>
      intro hlate
      exact lt_of_lt_of_le hlate (hdeadline.trans hd)

/-! ### Instances -/

/-- Each instance has a memory tier of its own; Redis is one. -/
structure Cluster (ι V : Type) where
  l1 : ι → MemoryCacheRepository V
  redis : Database V

structure ClusterEvent (ι V : Type) where
  instance_ : ι
  event : LayeredEvent V

namespace Cluster

variable {ι : Type} [DecidableEq ι]

def new (config : Config) : Cluster ι V := ⟨fun _ => .new config, fun _ => none⟩

def tiers (s : Cluster ι V) (i : ι) : Tiers V := ⟨s.l1 i, s.redis⟩

def step (client : Client) (config : Config) (s : Cluster ι V) (e : ClusterEvent ι V) :
    Cluster ι V :=
  let tiers := LayeredCacheRepository.step client config (s.tiers e.instance_) e.event
  ⟨Function.update s.l1 e.instance_ tiers.l1, tiers.redis⟩

end Cluster

namespace Cluster

variable {ι : Type} [DecidableEq ι]

def reach (client : Client) (config : Config) (events : List (ClusterEvent ι V)) : Cluster ι V :=
  Runs.run (step client config) (new config) events

theorem reach_concat (client : Client) (config : Config) (events : List (ClusterEvent ι V))
    (e : ClusterEvent ι V) :
    reach client config (events ++ [e]) = (reach client config events).step client config e :=
  Runs.run_append _ _ events [e]

/-- In the run, a set of the key with this value wrote its entry to a tier of its instance,
and its time ends at `t`. -/
def WroteUntil (client : Client) (config : Config) (key : String)
    (events : List (ClusterEvent ι V)) (value : V) (t : ℤ) : Prop :=
  ∃ before e, before ++ [e] <+: events ∧ ∃ options, ∃ n : ℕ,
    e.event.op = .set key value options ∧
    options.ttlOr (.ofNat config.cacheDefaultTtl) = .ofNat n ∧
    LayeredCacheRepository.Wrote client config e.event.conditions key value options
      ((reach client config (before ++ [e])).tiers e.instance_) ∧
    t = e.event.conditions.now.val + n * 1000

/-- The entry has its value from a set of the run, and ends no later than that set. -/
def Sourced (client : Client) (config : Config) (key : String)
    (events : List (ClusterEvent ι V)) (entry : CacheEntry V) : Prop :=
  ∃ t, WroteUntil client config key events entry.value t ∧ 0 ≤ t ∧ entry.expiresAt.EndsBy t

variable {client : Client} {config : Config} {key : String} {events : List (ClusterEvent ι V)}

theorem Sourced.of_prefix {events' : List (ClusterEvent ι V)} (hleading : events <+: events')
    {entry : CacheEntry V} (h : Sourced client config key events entry) :
    Sourced client config key events' entry := by
  obtain ⟨t, ⟨before, e, hbefore, hset⟩, hends⟩ := h
  exact ⟨t, ⟨before, e, hbefore.trans hleading, hset⟩, hends⟩

theorem portable_sourced (client : Client) (config : Config) (key : String)
    (events : List (ClusterEvent ι V)) :
    Portable config key (Sourced client config key events) where
  hit := fun _ h => h
  document := by
    intro entry h
    obtain ⟨t, hwrote, hpos, hends⟩ := h
    exact ⟨t, hwrote, hpos, hends.document hpos⟩
  promoted := by
    intro entry now h hfresh
    obtain ⟨t, hwrote, hpos, hends⟩ := h
    exact ⟨t, hwrote, hpos, endsBy_promotion config hends hfresh key⟩

/-- Every copy of a key's value, in every tier, comes from a set of the run. -/
def Traced (client : Client) (config : Config) (key : String) (events : List (ClusterEvent ι V))
    (s : Cluster ι V) : Prop :=
  ∀ i, BothHold client config key (Sourced client config key events) (s.tiers i)

theorem sourced_newEntry {e : ClusterEvent ι V} {value : V} {options : SetOptions}
    (hop : e.event.op = .set key value options)
    (httl : ∃ n : ℕ, options.ttlOr (.ofNat config.cacheDefaultTtl) = .ofNat n)
    (hwrote : LayeredCacheRepository.Wrote client config e.event.conditions key value options
      ((reach client config (events ++ [e])).tiers e.instance_)) :
    Sourced client config key (events ++ [e])
      (MemoryView.newEntry config e.event.conditions.now key value options) := by
  obtain ⟨n, hn⟩ := httl
  have hpos := e.event.conditions.now.property.1
  refine ⟨e.event.conditions.now.val + n * 1000,
    ⟨events, e, List.prefix_rfl, options, n, hop, hn, hwrote, rfl⟩, by omega, ?_⟩
  rw [MemoryView.newEntry, hn]
  exact endsBy_create _ _ _ n _ _

theorem Traced.step {e : ClusterEvent ι V}
    (h : Traced client config key events (reach client config events))
    (httl : ∀ value options, e.event.op = .set key value options →
      ∃ n : ℕ, options.ttlOr (.ofNat config.cacheDefaultTtl) = .ofNat n) :
    Traced client config key (events ++ [e]) (reach client config (events ++ [e])) := by
  have hbefore : Traced client config key (events ++ [e]) (reach client config events) :=
    fun i => (h i).mono fun _ => Sourced.of_prefix (List.prefix_append events [e])
  have htiers : (reach client config (events ++ [e])).tiers e.instance_ =
      LayeredCacheRepository.step client config ((reach client config events).tiers e.instance_)
        e.event := by
    simp [reach_concat, Cluster.step, tiers]
  have hstep := (hbefore e.instance_).step (portable_sourced client config key _) e.event
    fun value options hop hwrote =>
      sourced_newEntry hop (httl value options hop) (htiers ▸ hwrote)
  intro i
  by_cases hi : i = e.instance_
  · subst hi
    exact htiers ▸ hstep
  · have hl1 : (reach client config (events ++ [e])).l1 i = (reach client config events).l1 i := by
      rw [reach_concat]
      exact Function.update_of_ne hi ..
    refine ⟨?_, (congrArg Tiers.redis htiers ▸ hstep.redis)⟩
    simp only [tiers, hl1]
    exact (hbefore i).l1

theorem traced_reach (events : List (ClusterEvent ι V))
    (httl : ∀ e ∈ events, ∀ value options, e.event.op = .set key value options →
      ∃ n : ℕ, options.ttlOr (.ofNat config.cacheDefaultTtl) = .ofNat n) :
    Traced client config key events (reach client config events) := by
  induction events using List.reverseRecOn with
  | nil => exact fun _ => ⟨HoldsAt.new config key _, fun json expireAt hjson => by cases hjson⟩
  | append_singleton events e ih =>
    have hbefore := ih fun e' he' => httl e' (List.mem_append_left [e] he')
    exact hbefore.step (httl e (List.mem_append_right events (List.mem_singleton_self e)))

end Cluster

/-- Whatever the instances do, in whatever order, and whatever becomes of Redis, a value
that is read was written by a set whose time is not over. -/
theorem LayeredCacheRepository.get_of_wrote_in_time {ι : Type} [DecidableEq ι] (client : Client)
    (config : Config) (key : String) (events : List (ClusterEvent ι V))
    (httl : ∀ e ∈ events, ∀ value options, e.event.op = .set key value options →
      ∃ n : ℕ, 0 < n ∧ options.ttlOr (.ofNat config.cacheDefaultTtl) = .ofNat n)
    (i : ι) (c : Conditions) (entry : CacheEntry V)
    (hget : (get client c key ((Cluster.reach client config events).tiers i)).2 = some entry) :
    ∃ t, Cluster.WroteUntil client config key events entry.value t ∧ c.now.val ≤ t := by
  have htraced : Cluster.Traced client config key events (Cluster.reach client config events) := by
    apply Cluster.traced_reach
    intro e he value options hop
    obtain ⟨n, -, hn⟩ := httl e he value options hop
    exact ⟨n, hn⟩
  obtain ⟨hsourced, hfresh⟩ :=
    ((htraced i).get (Cluster.portable_sourced client config key events) c key).2 entry hget rfl
  obtain ⟨t, hwrote, -, hends⟩ := hsourced
  exact ⟨t, hwrote, hends.le_of_not_isBefore hfresh⟩

/-- One instance sets, another reads it from Redis, and then from its own tier while Redis
is away. -/
theorem LayeredCacheRepository.get_of_wrote_in_time_while_away :
    ∃ t, Cluster.WroteUntil ⟨"edgecache:"⟩ ⟨1, 60, by decide, by decide⟩ "a"
      ([⟨0, .set "a" 7 (.ofTtl 60), .good ⟨1000, by decide⟩⟩,
        ⟨1, .get "a", .good ⟨2500, by decide⟩⟩] : List (ClusterEvent ℕ ℕ)) 7 t ∧ 3000 ≤ t := by
  have hfound : ((get ⟨"edgecache:"⟩ ⟨⟨3000, by decide⟩, false, fun _ => .lost⟩ "a"
      ((Cluster.reach ⟨"edgecache:"⟩ ⟨1, 60, by decide, by decide⟩
        ([⟨0, .set "a" 7 (.ofTtl 60), .good ⟨1000, by decide⟩⟩,
          ⟨1, .get "a", .good ⟨2500, by decide⟩⟩] : List (ClusterEvent ℕ ℕ))).tiers 1)).2.map
            (·.value)) = some 7 := by
    decide +kernel
  obtain ⟨entry, hentry, hvalue⟩ := Option.map_eq_some_iff.mp hfound
  have hwrote := get_of_wrote_in_time ⟨"edgecache:"⟩ ⟨1, 60, by decide, by decide⟩ "a" _
    (by
      intro e he value options hop
      simp only [List.mem_cons, List.not_mem_nil, or_false] at he
      rcases he with rfl | rfl
      · simp only [LayeredOp.set.injEq] at hop
        exact ⟨60, by decide, by rw [← hop.2.2]; rfl⟩
      · cases hop) 1 _ entry hentry
  rw [hvalue] at hwrote
  exact hwrote

end EdgeCache
