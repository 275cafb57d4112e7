import EdgeCache.LayeredConditional
import EdgeCache.LayeredPatterns
import EdgeCache.LayeredResilience
import EdgeCache.ProxyRuns

/-!
Age and hit counter of what successive reads of a key return. Each tier has a copy of its own,
with its own dates and counter: a hit is counted in the tier that serves it, and a promotion
makes a copy that is dated anew and starts from no hits. What the reads return is one entry
growing older as long as one tier serves them all. Where another tier takes over, it depends
on the copy that this tier has.
-/
namespace EdgeCache

open Programs (Program faultless)

variable {V : Type}

/-! ### Entries of the same age -/

/-- The same dates, and more hits. -/
def CacheEntry.Precedes (earlier later : CacheEntry V) : Prop :=
  later.createdAt = earlier.createdAt ∧ later.expiresAt = earlier.expiresAt ∧
    earlier.hitCount < later.hitCount

namespace CacheEntry.Precedes

variable {earlier later : CacheEntry V}

instance : Decidable (earlier.Precedes later) :=
  inferInstanceAs (Decidable (_ ∧ _ ∧ _))

theorem registerHit_self (entry : CacheEntry V) : entry.Precedes entry.registerHit :=
  ⟨rfl, rfl, Nat.lt_succ_self _⟩

theorem registerHit_iff :
    earlier.registerHit.Precedes later.registerHit ↔ earlier.Precedes later := by
  unfold CacheEntry.Precedes
  exact and_congr Iff.rfl (and_congr Iff.rfl Nat.succ_lt_succ_iff)

theorem registerHit (h : earlier.Precedes later) : earlier.Precedes later.registerHit :=
  ⟨h.1, h.2.1, Nat.lt_succ_of_lt h.2.2⟩

theorem document {json : EntryJson V} (h : earlier.Precedes json.restore) :
    earlier.Precedes (EntryJson.stringify json.restore.registerHit).restore :=
  ⟨h.1, h.2.1, Nat.lt_succ_of_lt h.2.2⟩

end CacheEntry.Precedes

/-- `x <= y`, which is false of `NaN`. -/
def JsNumber.AtMost : JsNumber → JsNumber → Prop
  | .finite x, .finite y => x ≤ y
  | .nan, _ => False
  | _, .nan => False
  | .negInfinity, _ => True
  | _, .infinity => True
  | _, _ => False

theorem Date.secondsSince_mono {date : Date} (hdate : date.isSome = true) {now later : Time}
    (hle : now ≤ later) : (date.secondsSince now).AtMost (date.secondsSince later) := by
  obtain ⟨t, rfl⟩ := Option.isSome_iff_exists.mp hdate
  have hle' : now.val ≤ later.val := hle
  have hseconds : (now.val - t) / 1000 ≤ (later.val - t) / 1000 := by omega
  exact Int.cast_le.mpr hseconds

/-! ### What the services report -/

theorem GetCacheUseCase.cacheAge_of_execute {S E : Type} {repository : ICacheRepository S E V}
    {env : E} {clock : Clock} {key : String} {s : S} {output : GetCacheOutput V}
    (h : (execute repository env clock key s).2 = .ok output) :
    ∃ cacheKey, CacheKey.fromRaw key = .ok cacheKey ∧
      (repository.get env cacheKey.value s).2 = some output.entry ∧
      output.cacheAge = output.entry.createdAt.secondsSince (clock 0) := by
  unfold execute at h
  split at h
  · cases h
  · next cacheKey hkey =>
    split at h
    · cases h
    · next s' entry hget =>
      obtain rfl := Except.ok.inj h
      exact ⟨cacheKey, hkey, congrArg Prod.snd hget, rfl⟩

theorem ProxyCacheService.cacheAge_of_lookUp {S E : Type} {config : Config}
    {R : Wiring config S E V} {platform : Platform} {upstreamConfig : UpstreamConfig}
    {request : ProxyRequest} {arrival : Arrival E} {s : ProxyState S} {response : ProxyResponse V}
    (h : (lookUp R.toICacheRepository platform upstreamConfig request arrival s).2 =
      .hit response) :
    ∃ entry, (R.get arrival.env (key platform request) s.repository).2 = some entry ∧
      response.cacheAge = some (entry.createdAt.secondsSince (arrival.clock 1)) := by
  obtain ⟨entry, hget, rfl⟩ := Gateway.lookUp_eq_hit h
  exact ⟨entry, hget, rfl⟩

/-! ### Reads -/

inductive Tier where
  | memory
  | redis
  deriving DecidableEq

/-- The first tier's copy, if it is fresh for a read. -/
def copyInL1 (env : Surroundings) (key : String) (s : Tiers V) : Option (CacheEntry V) :=
  (s.l1.entryAt key).filter fun entry => !entry.isExpired (env.l1 0)

/-- The copy that Redis has, if it is fresh for a read. -/
def copyInRedis (client : Client) (env : Surroundings) (key : String) (s : Tiers V) :
    Option (CacheEntry V) :=
  match Redis.find (client.view s.redis) (env.clock 0) key with
  | some ⟨.string json, _⟩ => if json.restore.isExpired (env.clock 1) then none
    else some json.restore
  | _ => none

/-- The tier that a read is served by, with its copy. -/
def source (client : Client) (env : Surroundings) (key : String) (s : Tiers V) :
    Option (Tier × CacheEntry V) :=
  ((copyInL1 env key s).map (Prod.mk Tier.memory)).or
    ((copyInRedis client env key s).map (Prod.mk Tier.redis))

/-- A call, and the reading of the clock at which the age of what it returns is reported. -/
structure ReportedCall (V : Type) where
  call : LayeredCall V
  reportedAt : Time

/-- A read that returns an entry. -/
structure Reading (V : Type) where
  source : Option (Tier × CacheEntry V)
  entry : CacheEntry V
  reportedAt : Time

namespace Reading

/-- `Math.floor((Date.now() - entry.createdAt.getTime()) / 1000)` -/
def cacheAge (r : Reading V) : JsNumber := r.entry.createdAt.secondsSince r.reportedAt

/-- The entry is the same, with more hits, and its age has not decreased. -/
structure Precedes (r r' : Reading V) : Prop where
  entry : r.entry.Precedes r'.entry
  cacheAge : r.cacheAge.AtMost r'.cacheAge

/-- The same tier serves both reads, or the one that takes over has a copy with the dates of
the other one's and with more hits. -/
def Continues (r r' : Reading V) : Prop :=
  ∀ served ∈ r.source, ∀ served' ∈ r'.source,
    served'.1 = served.1 ∨ served.2.Precedes served'.2

instance (r r' : Reading V) : Decidable (r.Continues r') :=
  inferInstanceAs (Decidable (∀ served ∈ r.source, ∀ served' ∈ r'.source, _ ∨ _))

end Reading

namespace LayeredCacheRepository

variable (client : Client) (config : Config) (regExp : RegExp) (key : String)

/-- What a call shows of the key: the entry, if it is a read of it that returns one. -/
def readingOf (s : Tiers V) (e : ReportedCall V) : Option (Reading V) :=
  match e.call.op with
  | .get key' =>
    if key' = key then
      (getIn client e.call.env key s).2.map fun entry =>
        ⟨source client e.call.env key s, entry, e.reportedAt⟩
    else none
  | _ => none

def readings (s : Tiers V) (calls : List (ReportedCall V)) : List (Reading V) :=
  Runs.observed (fun s e => stepIn client config regExp s e.call) (readingOf client key) s calls

end LayeredCacheRepository

/-- A call while Redis is there and answers: it sets no entry under the key, and reads it only
by itself. -/
structure ReportedCall.Spares (key : String) (e : ReportedCall V) : Prop where
  sound : e.call.env.Sound
  not_sets : ¬ e.call.op.Sets key
  not_mget : ∀ keys, e.call.op = .mget keys → key ∉ keys

/-! ### One read -/

section Read

open LayeredCacheRepository (getIn callL2In callIn stepIn)

variable {client : Client} {config : Config} {env : Surroundings} {key : String} {s : Tiers V}
  {copy : CacheEntry V}

theorem map_copyInRedis (client : Client) (env : Surroundings) (key : String) (s : Tiers V) :
    (copyInRedis client env key s).map CacheEntry.registerHit =
      servedFrom (env.clock 1) (Redis.find (client.view s.redis) (env.clock 0) key) := by
  unfold copyInRedis servedFrom
  rcases Redis.find (client.view s.redis) (env.clock 0) key with _ | ⟨json | members, t⟩
  · rfl
  · dsimp only
    split <;> rfl
  · rfl

theorem snd_getIn_eq_source {v : MemoryView V}
    (hs : MemoryCacheRepository.Shows config s.l1 v) (hsound : env.Sound) (key : String) :
    (getIn client env key s).2 =
      (source client env key s).map fun served => served.2.registerHit := by
  rw [snd_getIn hsound, MemoryCacheRepository.snd_get hs, ← map_copyInRedis]
  unfold source copyInL1
  cases (s.l1.entryAt key).filter fun entry => !entry.isExpired (env.l1 0) with
  | some entry => rfl
  | none => cases copyInRedis client env key s <;> rfl

theorem source_eq_memory (h : source client env key s = some (.memory, copy)) :
    s.l1.entryAt key = some copy ∧ copy.isExpired (env.l1 0) = false := by
  unfold source at h
  cases hfirst : copyInL1 env key s with
  | none =>
    rw [hfirst] at h
    cases hsecond : copyInRedis client env key s with
    | none => simp [hsecond] at h
    | some found => simp [hsecond] at h
  | some found =>
    rw [hfirst] at h
    obtain rfl := (Prod.mk.inj (Option.some.inj h)).2
    obtain ⟨hentry, hfresh⟩ := Option.filter_eq_some_iff.mp hfirst
    exact ⟨hentry, (Bool.not_eq_true' _).mp hfresh⟩

theorem source_eq_redis (h : source client env key s = some (.redis, copy)) :
    copyInL1 env key s = none ∧ ∃ json t,
      Redis.find (client.view s.redis) (env.clock 0) key = some ⟨.string json, t⟩ ∧
        json.restore.isExpired (env.clock 1) = false ∧ copy = json.restore := by
  unfold source at h
  cases hfirst : copyInL1 env key s with
  | some found =>
    rw [hfirst] at h
    cases (Prod.mk.inj (Option.some.inj h)).1
  | none =>
    rw [hfirst, Option.map_none, Option.none_or, Option.map_eq_some_iff] at h
    obtain ⟨found, hfound, heq⟩ := h
    obtain rfl := (Prod.mk.inj heq).2
    refine ⟨rfl, ?_⟩
    unfold copyInRedis at hfound
    split at hfound
    · next json t hfind =>
      split at hfound
      · cases hfound
      · next hfresh =>
        exact ⟨json, t, hfind, Bool.not_eq_true _ ▸ hfresh, (Option.some.inj hfound).symm⟩
    · cases hfound

/-- A read that Redis serves leaves the document there with its hit. -/
theorem view_callL2In_get (hanswered : ∀ i, env.fault i = .none) {json : EntryJson V}
    {t : Option ℤ} {redis : Database V}
    (hfind : Redis.find (client.view redis) (env.clock 0) key = some ⟨.string json, t⟩)
    (hfresh : json.restore.isExpired (env.clock 1) = false) :
    ∃ t', client.view (callL2In client env (RedisCacheRepository.get key) redis).1 key =
      some ⟨.string (.stringify json.restore.registerHit), t'⟩ := by
  have hfault : env.fault = faultless := funext hanswered
  rw [Client.find_view] at hfind
  simp only [callL2In, hfault, RedisCacheRepository.get, Programs.run, Programs.attempt,
    faultless, Client.send, Command.prefixed, Redis.exec, hfind, RedisCacheRepository.serve, hfresh,
    Bool.false_eq_true, ↓reduceIte, Client.view, Redis.insert_self]
  exact ⟨_, rfl⟩

end Read

/-! ### What the reads leave behind -/

section Calls

open LayeredCacheRepository (getIn callL2In callIn stepIn Serves promoteAll)

variable {client : Client} {config : Config} {regExp : RegExp} {key : String}
  {P : CacheEntry V → Prop} {J : EntryJson V → Prop} {s : Tiers V} {copy : CacheEntry V}

theorem HoldsAt.step {l1 : MemoryCacheRepository V} (h : HoldsAt config key P l1)
    (hhit : ∀ entry, P entry → P entry.registerHit) (regExp : RegExp) {op : Op V}
    (hop : ¬ op.Sets key) (clock : Clock) : HoldsAt config key P (l1.step regExp ⟨op, clock⟩) := by
  cases op with
  | get key' => exact (h.get hhit clock key').1
  | set key' value options => exact h.set clock key' value options fun hk => absurd hk hop
  | delete key' => exact h.delete key'
  | deleteByTags tags => exact h.deleteByTags tags
  | deleteByPattern pattern => exact h.deleteByPattern regExp pattern
  | exists_ key' => exact h.exists_ clock key'
  | getStats memoryUsageMb => exact h
  | flush => exact h.flush
  | keys pattern => exact h
  | mget keys => exact h.mget hhit clock keys
  | mset entries =>
    exact h.mset clock fun value options hmem => absurd ⟨_, hmem, rfl⟩ hop
  | sweep => exact h.sweep clock

theorem HoldsAt.promoteAll {l1 : MemoryCacheRepository V} (h : HoldsAt config key P l1)
    {promotions : List (Promoted V)} (hother : ∀ p ∈ promotions, p.key ≠ key) :
    HoldsAt config key P (promoteAll l1 promotions) := by
  unfold LayeredCacheRepository.promoteAll
  refine List.foldlRecOn (motive := HoldsAt config key P) _ _ h fun l1 hl1 p hp => ?_
  exact hl1.promote p.clock p.key p.entry fun hk => absurd hk (hother p hp)

theorem ne_of_serves {e : ReportedCall V} (he : e.Spares key)
    (hunseen : LayeredCacheRepository.readingOf client key s e = none) {alone : Answer V}
    {p : Promoted V} (hp : Serves e.call.op alone
      (callIn client config regExp e.call.env e.call.op s).2 p) : p.key ≠ key := by
  obtain ⟨⟨op, env⟩, reportedAt⟩ := e
  cases op with
  | get key' =>
    obtain ⟨-, rfl, -, hanswer⟩ := hp
    rintro rfl
    have hserved : (getIn client env p.key s).2 = some p.entry := Answer.entry.inj hanswer
    simp [LayeredCacheRepository.readingOf, hserved] at hunseen
  | mget keys =>
    obtain ⟨found, served, -, -, hkey, -⟩ := hp
    rintro rfl
    exact he.not_mget keys rfl (List.mem_of_getElem? hkey)
  | _ => exact hp.elim

/-- A document that stays what it was through hits, whatever other keys are set. -/
theorem document_rule (client : Client) (config : Config) (key : String)
    (hhit : ∀ json, J json → J (.stringify json.restore.registerHit)) :
    TierRule client config key (fun _ => True) (RepliesAt key J) (IssuesAt key J) (fun _ => True)
      (fun _ => True) (DocumentAt client key J) where
  serves := serves_at client key J
  hit := fun _ _ => trivial
  get := fun _ => RedisCacheRepository.get_meets trivial trivial (fun _ _ _ => trivial)
    fun json _ _ hreply _ => ⟨fun hk => hhit json (hreply hk), fun _ _ _ => trivial⟩
  promoted := fun _ _ _ _ _ _ => trivial

theorem issuesAt_of_ne {c : Command V} (h : ∀ json mode, c ≠ .set key json mode) :
    IssuesAt key J c := by
  cases c with
  | set key' json mode => exact fun hk => absurd (hk ▸ rfl) (h json mode)
  | _ => trivial

def Dated (entry : CacheEntry V) : Prop := entry.createdAt.isSome = true

/-- What the tier has under the key, if anything, is the copy with more hits. -/
def Tier.HasPast (client : Client) (config : Config) (key : String) (copy : CacheEntry V)
    (s : Tiers V) : Tier → Prop
  | .memory => HoldsAt config key copy.Precedes s.l1
  | .redis => DocumentAt client key (fun json => copy.Precedes json.restore) s.redis

theorem Tier.HasPast.step {tier : Tier} (hs : HoldsAt config key Dated s.l1)
    (h : tier.HasPast client config key copy s) (regExp : RegExp) {e : ReportedCall V}
    (he : e.Spares key) (hunseen : LayeredCacheRepository.readingOf client key s e = none) :
    tier.HasPast client config key copy (stepIn client config regExp s e.call) := by
  cases tier with
  | memory =>
    obtain ⟨⟨op, env⟩, reportedAt⟩ := e
    obtain ⟨promotions, -, hserves, hl1⟩ : ∃ promotions, _ ∧ _ ∧
        (callIn client config regExp env op s).1.l1 = _ :=
      LayeredCacheRepository.callIn_promotes client config regExp s op
    have hstep := HoldsAt.step h (fun _ => CacheEntry.Precedes.registerHit) regExp he.not_sets
      env.l1
    have hpromoted := hstep.promoteAll fun p hp => ne_of_serves he hunseen (hserves p hp)
    exact Eq.mpr (congrArg (HoldsAt config key copy.Precedes) hl1) hpromoted
  | redis =>
    exact ((document_rule client config key fun _ => CacheEntry.Precedes.document).callIn
      e.call.env.reads_true (hs.mono fun _ _ => trivial) h regExp
      (brings_of_not_sets (fun _ => issuesAt_of_ne) he.not_sets e.call.env s)).2

theorem Tier.HasPast.precedes {tier : Tier} (h : tier.HasPast client config key copy s)
    {env : Surroundings} {copy' : CacheEntry V}
    (hsource : source client env key s = some (tier, copy')) : copy.Precedes copy' := by
  cases tier with
  | memory => exact HoldsAt.of_entryAt h (source_eq_memory hsource).1
  | redis =>
    obtain ⟨-, json, t, hfind, -, rfl⟩ := source_eq_redis hsource
    exact h json t (Redis.find_eq_some_iff.mp hfind).1

theorem dated_of_source (hs : HoldsAt config key Dated s.l1) {env : Surroundings} {tier : Tier}
    (hsource : source client env key s = some (tier, copy)) : Dated copy := by
  cases tier with
  | memory => exact hs.of_entryAt (source_eq_memory hsource).1
  | redis =>
    obtain ⟨-, json, t, -, -, rfl⟩ := source_eq_redis hsource
    exact rfl

theorem Tier.hasPast_getIn {env : Surroundings} {tier : Tier} (hsound : env.Sound)
    (hs : HoldsAt config key Dated s.l1)
    (hsource : source client env key s = some (tier, copy)) :
    tier.HasPast client config key copy (getIn client env key s).1 := by
  obtain ⟨v, hv, -⟩ := id hs
  cases tier with
  | memory =>
    obtain ⟨hentry, hfresh⟩ := source_eq_memory hsource
    have hfound := MemoryCacheRepository.get_of_fresh hv hentry hfresh
    have hl1 : (getIn client env key s).1.l1 = (s.l1.get env.l1 key).1 := by
      rcases LayeredCacheRepository.getIn_cases client env s key with hl1 | ⟨hmissed, -⟩
      · exact hl1
      · cases hmissed.symm.trans hfound
    have hkept := (hs.get (fun _ h => h) env.l1 key).1
    refine Eq.mpr (congrArg (HoldsAt config key copy.Precedes) hl1)
      (hkept.intro_entryAt fun entry hentry' => ?_)
    rw [MemoryCacheRepository.entryAt_get hv, hfound] at hentry'
    exact Option.some.inj hentry' ▸ CacheEntry.Precedes.registerHit_self copy
  | redis =>
    obtain ⟨hfirst, json, t, hfind, hfresh, rfl⟩ := source_eq_redis hsource
    have hmissed : (s.l1.get env.l1 key).2 = none := by
      rw [MemoryCacheRepository.snd_get hv]
      exact Option.map_eq_none_iff.mpr hfirst
    obtain ⟨t', hview⟩ := view_callL2In_get hsound.answered hfind hfresh
    intro json' t'' hjson'
    rw [(LayeredCacheRepository.getIn_of_missed client hmissed hsound.available).1, hview] at hjson'
    obtain rfl := Stored.string.inj (Record.mk.inj (Option.some.inj hjson')).1
    exact CacheEntry.Precedes.registerHit_self json.restore

theorem readingOf_eq_some {r : Reading V} {e : ReportedCall V} (hs : HoldsAt config key Dated s.l1)
    (hsound : e.call.env.Sound)
    (h : LayeredCacheRepository.readingOf client key s e = some r) :
    e.call.op = .get key ∧ ∃ tier copy, source client e.call.env key s = some (tier, copy) ∧
      r = ⟨some (tier, copy), copy.registerHit, e.reportedAt⟩ := by
  obtain ⟨v, hv, -⟩ := hs
  unfold LayeredCacheRepository.readingOf at h
  split at h
  · next key' hop =>
    split at h
    · next hk =>
      subst hk
      rw [snd_getIn_eq_source hv hsound] at h
      cases hsource : source client e.call.env key' s with
      | none => simp [hsource] at h
      | some served =>
        simp only [hsource, Option.map_some, Option.some.injEq] at h
        exact ⟨hop, served.1, served.2, rfl, h.symm⟩
    · cases h
  · cases h

def Reading.Left (client : Client) (config : Config) (key : String) (r : Reading V)
    (s : Tiers V) : Prop :=
  ∃ tier copy, r.source = some (tier, copy) ∧ r.entry = copy.registerHit ∧ Dated copy ∧
    tier.HasPast client config key copy s

/-- Two reads in a row return the same entry, grown older, exactly when one continues the
other. -/
theorem precedes_iff_continues {r r' : Reading V} {e : ReportedCall V} (he : e.Spares key)
    (hs : HoldsAt config key Dated s.l1) (hr : r.Left client config key s)
    (hr' : LayeredCacheRepository.readingOf client key s e = some r')
    (hclock : r.reportedAt ≤ r'.reportedAt) : r.Precedes r' ↔ r.Continues r' := by
  obtain ⟨tier, copy, hsource, hentry, hdated, hpast⟩ := hr
  obtain ⟨-, tier', copy', hsource', rfl⟩ := readingOf_eq_some hs he.sound hr'
  have hcopies : r.Precedes ⟨some (tier', copy'), copy'.registerHit, e.reportedAt⟩ ↔
      copy.Precedes copy' := by
    constructor
    · intro h
      have hentries := h.entry
      rw [hentry] at hentries
      exact CacheEntry.Precedes.registerHit_iff.mp hentries
    · intro h
      refine ⟨hentry ▸ CacheEntry.Precedes.registerHit_iff.mpr h, ?_⟩
      have hcreated : copy'.createdAt = copy.createdAt := h.1
      unfold Reading.cacheAge
      rw [hentry]
      exact (congrArg (fun date => (Date.secondsSince copy.createdAt r.reportedAt).AtMost
        (Date.secondsSince date e.reportedAt)) hcreated).mpr (Date.secondsSince_mono hdated hclock)
  rw [hcopies]
  simp only [Reading.Continues, hsource, Option.mem_some_iff, forall_eq']
  refine ⟨Or.inr, fun h => h.elim (fun htier => ?_) id⟩
  subst htier
  exact hpast.precedes hsource'

/-- The reads of a run are linked by what each leaves behind. -/
theorem links_readings (client : Client) (config : Config) (regExp : RegExp) (key : String) :
    Runs.Links (fun (s : Tiers V) e => stepIn client config regExp s e.call)
      (LayeredCacheRepository.readingOf client key) (ReportedCall.Spares key)
      (fun s => HoldsAt config key Dated s.l1) (Reading.Left client config key)
      (fun r r' => r.reportedAt ≤ r'.reportedAt → (r.Precedes r' ↔ r.Continues r')) where
  keeps := fun s e _ hs => LayeredCacheRepository.holds_stepIn_of_new client regExp
    (fun _ h => h) (fun _ _ _ => rfl) hs e.call
  leaves := by
    intro s e r he hs hr
    obtain ⟨hop, tier, copy, hsource, rfl⟩ := readingOf_eq_some hs he.sound hr
    refine ⟨tier, copy, rfl, rfl, dated_of_source hs hsource, ?_⟩
    have hpast := Tier.hasPast_getIn he.sound hs hsource
    unfold LayeredCacheRepository.stepIn
    rw [hop]
    exact hpast
  unseen := by
    rintro s e r he hs ⟨tier, copy, hsource, hentry, hdated, hpast⟩ hunseen
    exact ⟨tier, copy, hsource, hentry, hdated, hpast.step hs regExp he hunseen⟩
  related := fun _ _ _ _ he hs hr hr' => precedes_iff_continues he hs hr hr'

end Calls

namespace LayeredCacheRepository

theorem dated_reachIn (client : Client) (config : Config) (regExp : RegExp) (key : String)
    (redis : Database V) (calls : List (LayeredCall V)) :
    HoldsAt config key Dated (reachIn client config regExp redis calls).l1 :=
  holds_reachIn_of_new client regExp (fun _ h => h) (fun _ _ _ => rfl) redis calls

theorem reportedAt_readings (client : Client) (config : Config) (regExp : RegExp) (key : String)
    {s : Tiers V} {calls : List (ReportedCall V)}
    (hclock : calls.Pairwise fun e e' => e.reportedAt ≤ e'.reportedAt) :
    (readings client config regExp key s calls).IsChain
      fun r r' => r.reportedAt ≤ r'.reportedAt := by
  have hreported : ∀ (s : Tiers V) e (r : Reading V), readingOf client key s e = some r →
      r.reportedAt = e.reportedAt := by
    intro s e r hr
    unfold readingOf at hr
    split at hr
    · split at hr
      · obtain ⟨entry, -, rfl⟩ := Option.map_eq_some_iff.mp hr
        rfl
      · cases hr
    · cases hr
  have hsublist : ((readings client config regExp key s calls).map Reading.reportedAt).Sublist
      (calls.map ReportedCall.reportedAt) := Runs.map_observed_sublist hreported s calls
  have htimes := (List.pairwise_map.mpr hclock).sublist hsublist
  exact (List.pairwise_map.mp htimes).isChain

/-- After any calls, reads of one key while nothing is set there: what they return is one
entry that grows older, with more hits each time, exactly when each read continues the one
before it. -/
theorem readings_precede_iff (client : Client) (config : Config) (regExp : RegExp) (key : String)
    (redis : Database V) (before : List (LayeredCall V)) (calls : List (ReportedCall V))
    (hcalls : ∀ e ∈ calls, e.Spares key)
    (hclock : calls.Pairwise fun e e' => e.reportedAt ≤ e'.reportedAt) :
    let s := reachIn client config regExp redis before
    (readings client config regExp key s calls).IsChain Reading.Precedes ↔
      (readings client config regExp key s calls).IsChain Reading.Continues := by
  intro s
  have hs := dated_reachIn client config regExp key redis before
  exact Runs.isChain_congr (reportedAt_readings client config regExp key hclock)
    ((links_readings client config regExp key).isChain hcalls hs)

/-- Two reads from the first tier, with a read of another key between them. -/
theorem readings_precede_iff_memory :
    (readings ⟨"edgecache:"⟩ ⟨2, 60, by decide, by decide⟩ (fun _ => none) "a"
      (reachIn ⟨"edgecache:"⟩ ⟨2, 60, by decide, by decide⟩ (fun _ => none) (fun _ => none)
        [⟨.set "a" 7 (.ofTtl 60), (Conditions.good ⟨1000, by decide⟩).surroundings⟩])
      [⟨⟨.get "a", (Conditions.good ⟨2000, by decide⟩).surroundings⟩, ⟨2000, by decide⟩⟩,
        ⟨⟨.get "b", (Conditions.good ⟨2500, by decide⟩).surroundings⟩, ⟨2500, by decide⟩⟩,
        ⟨⟨.get "a", (Conditions.good ⟨3000, by decide⟩).surroundings⟩,
          ⟨3000, by decide⟩⟩]).IsChain Reading.Precedes := by
  refine (readings_precede_iff ⟨"edgecache:"⟩ ⟨2, 60, by decide, by decide⟩ (fun _ => none) "a"
    (fun _ => none) _ _ (fun e he => ?_) (by decide)).mpr (by decide +kernel)
  simp only [List.mem_cons, List.not_mem_nil, or_false] at he
  rcases he with rfl | rfl | rfl
  all_goals exact ⟨⟨rfl, fun _ => rfl⟩, fun h => h, fun keys h => (by cases h)⟩

/-- The first read is served by Redis and promotes; the second one returns the promoted copy,
younger than the entry and without its hits. -/
theorem not_readings_precede_of_promotion :
    ¬ ∀ (before : List (LayeredCall ℕ)) (calls : List (ReportedCall ℕ)),
      (∀ e ∈ calls, e.Spares "a") →
      calls.Pairwise (fun e e' => e.reportedAt ≤ e'.reportedAt) →
      (readings ⟨"edgecache:"⟩ ⟨1, 60, by decide, by decide⟩ (fun _ => none) "a"
        (reachIn ⟨"edgecache:"⟩ ⟨1, 60, by decide, by decide⟩ (fun _ => none) (fun _ => none)
          before) calls).IsChain Reading.Precedes := by
  intro hall
  have hchain := hall
    [⟨.set "a" 7 (.ofTtl 60), (Conditions.good ⟨1000, by decide⟩).surroundings⟩,
      ⟨.set "b" 8 (.ofTtl 60), (Conditions.good ⟨1000, by decide⟩).surroundings⟩]
    [⟨⟨.get "a", (Conditions.good ⟨2000, by decide⟩).surroundings⟩, ⟨2000, by decide⟩⟩,
      ⟨⟨.get "a", (Conditions.good ⟨2500, by decide⟩).surroundings⟩, ⟨2500, by decide⟩⟩]
    (fun e he => by
      simp only [List.mem_cons, List.not_mem_nil, or_false] at he
      rcases he with rfl | rfl
      all_goals exact ⟨⟨rfl, fun _ => rfl⟩, fun h => h, fun keys h => (by cases h)⟩) (by decide)
  have hsame := (List.isChain_map (fun r : Reading ℕ => r.entry.createdAt)).mpr
    (hchain.imp fun _ _ h => h.entry.1.symm)
  revert hsame
  decide +kernel

end LayeredCacheRepository

end EdgeCache
