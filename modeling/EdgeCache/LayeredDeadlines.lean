import EdgeCache.LayeredSharing

/-!
How long a value can be read when calls take time. The document that a set leaves in Redis is
dated when it is made, and the copy that a read makes of it for its first tier is dated when
the read is done: each of them may end later than the set asked for, by the time that a call
takes. Nothing is copied twice, so that this is all, in any number of instances and whatever
becomes of Redis.
-/
namespace EdgeCache

variable {V : Type}

/-- The call has its readings of the clock within this many milliseconds. -/
def Surroundings.Takes (duration : ℕ) (env : Surroundings) : Prop :=
  ∃ first : Time, env.Reads fun now => first ≤ now ∧ now.val ≤ first.val + duration

/-- The call puts the value under the key, alone or with others. -/
def Op.Puts (key : String) (value : V) (options : SetOptions) : Op V → Prop
  | .set key' value' options' => key' = key ∧ value' = value ∧ options' = options
  | .mset entries => (key, value, options) ∈ entries
  | _ => False

/-! ### Deadlines of copies -/

theorem Date.EndsBy.mono {date : Date} {t t' : ℤ} (hle : t ≤ t') (h : date.EndsBy t) :
    date.EndsBy t' := by
  cases date with
  | some d => exact le_trans h hle
  | none => exact lt_of_lt_of_le h hle

theorem endsBy_later_promotion (config : Config) {entry : CacheEntry V}
    {checked now later : Time} {t : ℤ} {duration : ℕ} (h : entry.expiresAt.EndsBy t)
    (hfresh : entry.isExpired checked = false) (hchecked : later.val ≤ checked.val + duration)
    (hlater : later.val ≤ now.val + duration) (key : String) :
    (MemoryView.newEntry config later key entry.value
      (LayeredCacheRepository.promotion entry now)).expiresAt.EndsBy (t + duration) := by
  have hle := h.le_of_not_isBefore hfresh
  cases hdate : entry.expiresAt with
  | none =>
    have hnone : (MemoryView.newEntry config later key entry.value
        (LayeredCacheRepository.promotion entry now)).expiresAt = none := by
      simp [MemoryView.newEntry, LayeredCacheRepository.promotion, SetOptions.ttlOr,
        CacheEntry.create, CacheEntry.remainingTtl, Date.secondsFrom, hdate, JsNumber.after,
        JsNumber.toDate]
    rw [hnone]
    rw [hdate] at h
    exact Date.EndsBy.mono (by omega) h
  | some d =>
    have hremaining : entry.remainingTtl now = .ofNat ((d - now.val) / 1000).toNat := by
      simp [CacheEntry.remainingTtl, hdate, Date.secondsFrom]
    have heq : MemoryView.newEntry config later key entry.value
        (LayeredCacheRepository.promotion entry now) =
        CacheEntry.create later key entry.value (.ofNat ((d - now.val) / 1000).toNat) entry.tags
          entry.metadata := by
      rw [← hremaining]
      rfl
    have hcreate := endsBy_create later key entry.value ((d - now.val) / 1000).toNat entry.tags
      entry.metadata
    rw [hdate] at h
    have hd : d ≤ t := h
    have hfresh' : checked.val ≤ d := by
      simpa only [CacheEntry.isExpired, hdate, Date.isBefore, decide_eq_false_iff_not, not_lt]
        using hfresh
    rw [heq]
    refine hcreate.mono ?_
    omega

/-- The content has a source, and the entry ends by the deadline of that source and some
slack. -/
def EndsWithin (source : Content V → ℤ → Prop) (slack : ℕ) (entry : CacheEntry V) : Prop :=
  ∃ t, source entry.content t ∧ 0 ≤ t ∧ entry.expiresAt.EndsBy (t + slack)

/-- The same of a document. -/
def EndsWithinAt (source : Content V → ℤ → Prop) (slack : ℕ) (json : EntryJson V) : Prop :=
  EndsWithin source slack json.restore

section Rule

variable {client : Client} {config : Config} {key : String} {source : Content V → ℤ → Prop}
  {slack : ℕ}

theorem EndsWithin.document {entry : CacheEntry V} (h : EndsWithin source slack entry) :
    EndsWithinAt source slack (.stringify entry) := by
  obtain ⟨t, hsource, hpos, hends⟩ := h
  exact ⟨t, hsource, hpos, hends.document (by omega)⟩

/-- A set that starts at some time ends by the deadline it asks for, and the time it takes. -/
theorem endsWithin_create {start now : Time} {value : V} {options : SetOptions} {n : ℕ}
    (httl : options.ttlOr (.ofNat config.cacheDefaultTtl) = .ofNat n)
    (hsource : source (options.content value) (start.val + n * 1000))
    (hnow : now.val ≤ start.val + slack) :
    EndsWithin source slack (MemoryView.newEntry config now key value options) := by
  have hpos := start.property.1
  refine ⟨start.val + n * 1000, hsource, by omega, ?_⟩
  rw [MemoryView.newEntry, httl]
  exact (endsBy_create _ _ _ n _ _).mono (by omega)

theorem endsWithin_rule (client : Client) (config : Config) (key : String)
    (source : Content V → ℤ → Prop) (duration : ℕ) (first : Time) :
    TierRule client config key (fun now => first ≤ now ∧ now.val ≤ first.val + duration)
      (RepliesAt key (EndsWithinAt source duration)) (IssuesAt key (EndsWithinAt source duration))
      (EndsWithin source (duration + duration))
      (fun entry => EndsWithin source duration entry ∧
        ∃ now : Time, first ≤ now ∧ entry.isExpired now = false)
      (DocumentAt client key (EndsWithinAt source duration)) where
  serves := (serves_at client key _).mono fun _ _ => trivial
  hit := fun _ h => h
  get := fun key' => RedisCacheRepository.get_meets trivial trivial
    (fun _ _ h => by cases h) (by
      intro json now hnow hreply hfresh
      refine ⟨fun hk => EndsWithin.document (hreply hk), fun hk entry hentry => ?_⟩
      obtain rfl : json.restore.registerHit = entry := Option.some.inj hentry
      exact ⟨hreply hk, now, hnow.1, hfresh⟩)
  promoted := by
    rintro entry ⟨⟨t, hsource, hpos, hends⟩, checked, hchecked, hfresh⟩ now later hnow hlater
    have hchecked' : first.val ≤ checked.val := hchecked
    have hnow' : first.val ≤ now.val := hnow.1
    have hlate := hlater.2
    refine ⟨t, hsource, hpos, ?_⟩
    have hcopy : (MemoryView.newEntry config later key entry.value
        (LayeredCacheRepository.promotion entry now)).expiresAt.EndsBy (t + duration + duration) :=
      endsBy_later_promotion config hends hfresh (by omega) (by omega) key
    rwa [add_assoc] at hcopy

end Rule

/-! ### Instances -/

namespace Cluster

variable {ι : Type} [DecidableEq ι] {client : Client} {config : Config} {regExp : RegExp}
  {key : String} {source : Content V → ℤ → Prop} {duration : ℕ}

/-- What a call puts under the key is from the source, with the deadline it asks for. -/
def Sources (config : Config) (key : String) (source : Content V → ℤ → Prop)
    (e : LayeredCall V) : Prop :=
  ∀ value options, e.op.Puts key value options → ∃ n : ℕ,
    options.ttlOr (.ofNat config.cacheDefaultTtl) = .ofNat n ∧
      source (options.content value) ((e.env.l1 0).val + n * 1000)

/-- Every copy in every tier ends by the deadline of its source and the time of its calls. -/
structure AllWithin (client : Client) (config : Config) (key : String)
    (source : Content V → ℤ → Prop) (duration : ℕ) (s : Cluster ι V) : Prop where
  l1 : ∀ i, HoldsAt config key (EndsWithin source (duration + duration)) (s.l1 i)
  redis : DocumentAt client key (EndsWithinAt source duration) s.redis

theorem brings_of_sources {e : LayeredCall V} {first : Time}
    (hreads : e.env.Reads fun now => first ≤ now ∧ now.val ≤ first.val + duration)
    (hsources : Sources config key source e) (s : Tiers V) :
    TierRule.Brings config key (fun now => first ≤ now ∧ now.val ≤ first.val + duration)
      (RepliesAt key (EndsWithinAt source duration)) (IssuesAt key (EndsWithinAt source duration))
      (EndsWithin source (duration + duration)) e.env s e.op := by
  have hstart : first.val ≤ (e.env.l1 0).val := (hreads.l1 0).1
  have hset : ∀ key' value options, (key' = key → e.op.Puts key value options) →
      (RedisCacheRepository.set config key' value options).Meets
        (fun now => first ≤ now ∧ now.val ≤ first.val + duration)
        (RepliesAt key (EndsWithinAt source duration))
        (IssuesAt key (EndsWithinAt source duration)) fun _ => True := by
    intro key' value options hputs
    refine RedisCacheRepository.set_meets trivial (fun now hnow mode _ hk => ?_)
      fun tag _ => ⟨trivial, fun _ => trivial⟩
    obtain ⟨n, httl, hsource⟩ := hsources value options (hputs hk)
    have hlate := hnow.2
    exact (endsWithin_create httl hsource (by omega)).document
  have hnew : ∀ value options, e.op.Puts key value options → ∀ now : Time,
      (first ≤ now ∧ now.val ≤ first.val + duration) →
      EndsWithin source (duration + duration)
        (MemoryView.newEntry config now key value options) := by
    intro value options hputs now hnow
    obtain ⟨n, httl, hsource⟩ := hsources value options hputs
    have hlate := hnow.2
    refine endsWithin_create httl hsource ?_
    rw [Nat.cast_add]
    omega
  obtain ⟨op, env⟩ := e
  cases op with
  | set key' value options =>
    exact ⟨fun hk _ => hnew value options ⟨hk, rfl, rfl⟩ _ (hreads.l1 1),
      hset key' value options fun hk => ⟨hk, rfl, rfl⟩⟩
  | mset entries =>
    refine ⟨fun value options hmem now hnow => hnew value options hmem now hnow, fun p hp => ?_⟩
    exact hset p.1 p.2.1 p.2.2 fun hk => hk ▸ hp
  | deleteByTags tags => exact ⟨fun _ => trivial, fun _ => trivial⟩
  | deleteByPattern pattern => exact fun _ => trivial
  | _ => trivial

theorem AllWithin.stepIn {s : Cluster ι V} (h : AllWithin client config key source duration s)
    {e : ClusterCall ι V} (htakes : e.call.env.Takes duration)
    (hsources : Sources config key source e.call) :
    AllWithin client config key source duration (s.stepIn client config regExp e) := by
  obtain ⟨first, hreads⟩ := htakes
  obtain ⟨hl1, hredis⟩ := (endsWithin_rule client config key source duration first).callIn
    hreads (h.l1 e.instance_) h.redis regExp
    (brings_of_sources hreads hsources (s.tiers e.instance_))
  exact ⟨forall_l1_stepIn hl1 fun i _ => h.l1 i, hredis⟩

/-- In the run, a call has put the content under the key, with a deadline. -/
def PutUntil (config : Config) (key : String) (calls : List (ClusterCall ι V)) (c : Content V)
    (t : ℤ) : Prop :=
  ∃ e ∈ calls, ∃ value options, ∃ n : ℕ, e.call.op.Puts key value options ∧
    options.ttlOr (.ofNat config.cacheDefaultTtl) = .ofNat n ∧ c = options.content value ∧
    t = (e.call.env.l1 0).val + n * 1000

/-- Over any instances and whatever becomes of Redis, what a read finds was put there before, and
no longer ago than it was to last and two calls may take. -/
theorem putUntil_of_getIn {redis : Database V} {calls : List (ClusterCall ι V)}
    (hredis : DocumentAt client key (fun _ => False) redis)
    (htakes : ∀ e ∈ calls, e.call.env.Takes duration)
    (httl : ∀ e ∈ calls, ∀ value options, e.call.op.Puts key value options → ∃ n : ℕ,
      options.ttlOr (.ofNat config.cacheDefaultTtl) = .ofNat n)
    {env : Surroundings} (henv : env.Takes duration) {i : ι} {entry : CacheEntry V}
    (hget : (LayeredCacheRepository.getIn client env key
      ((reachIn client config regExp redis calls).tiers i)).2 = some entry) :
    ∃ t, PutUntil config key calls entry.content t ∧
      (env.l1 0).val ≤ t + (duration + duration) := by
  have hstep : ∀ e ∈ calls, e.call.env.Takes duration ∧
      Sources config key (PutUntil config key calls) e.call := by
    refine fun e he => ⟨htakes e he, fun value options hputs => ?_⟩
    obtain ⟨n, hn⟩ := httl e he value options hputs
    exact ⟨n, hn, e, he, value, options, n, hputs, hn, rfl, rfl⟩
  have hall : AllWithin client config key (PutUntil config key calls) duration
      (reachIn client config regExp redis calls) :=
    (Runs.guarded_of_forall hstep _).invariant (fun _ _ hs he => hs.stepIn he.1 he.2)
      ⟨fun _ => HoldsAt.new config key _, fun json t hjson => (hredis json t hjson).elim⟩
  obtain ⟨first, hreads⟩ := henv
  obtain ⟨-, -, hfound⟩ := (endsWithin_rule client config key (PutUntil config key calls) duration
    first).getIn (s := (reachIn client config regExp redis calls).tiers i) hreads (hall.l1 i)
      hall.redis key
  rcases hfound rfl entry hget with ⟨hends, hfresh⟩ | ⟨hends, now, hnow, hfresh⟩
  · obtain ⟨t, hput, -, hends⟩ := hends
    exact ⟨t, hput, by simpa using hends.le_of_not_isBefore hfresh⟩
  · obtain ⟨t, hput, -, hends⟩ := hends
    have hlast := hends.le_of_not_isBefore hfresh
    have hfirst : first.val ≤ now.val := hnow
    have hread := (hreads.l1 0).2
    exact ⟨t, hput, by omega⟩

end Cluster

end EdgeCache
