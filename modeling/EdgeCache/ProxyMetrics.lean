import EdgeCache.ProxyHeaders

/-!
What the metrics count of the calls of `ProxyCacheService.proxy`. A call that may be cached is
counted when it is answered from the cache, or by its target with a status that is cached. An
answer with another status and a failure of the target are counted nowhere; `recordError` is
not called.
-/
namespace EdgeCache

variable {V : Type}

/-- What became of a call that may be cached. -/
inductive Verdict where
  | hit
  | miss
  | error
  deriving DecidableEq

/-- The metrics count the calls by what became of them. -/
structure Metrics.Accounts (m : Metrics) (calls : List Verdict) : Prop where
  hits : m.hits = calls.count .hit
  misses : m.misses = calls.count .miss
  errors : m.errors = calls.count .error
  hitRate : IsPercentage m.hitRate (calls.count .hit) (calls.count .hit + calls.count .miss)

theorem Metrics.isPercentage_hitRate (m : Metrics) :
    IsPercentage m.hitRate m.hits (m.hits + m.misses) := by
  unfold Metrics.hitRate
  dsimp only
  split_ifs with hnone
  · rw [IsPercentage, if_pos hnone]
  · apply isPercentage_inHundredths hnone
    have hpercent := (near_div (Nat.le_add_right m.hits m.misses)).scale 100
      (by norm_num) (by decide +kernel)
    have hhundredths := hpercent.scale 100 (by norm_num) (by decide +kernel)
    calc |double (double (double (m.hits / (m.hits + m.misses : ℕ)) * 100) * 100) -
          m.hits / (m.hits + m.misses : ℕ) * 10000|
        = |double (double (double (m.hits / (m.hits + m.misses : ℕ)) * 100) * 100) -
          m.hits / (m.hits + m.misses : ℕ) * 100 * 100| := by rw [mul_assoc _ 100 100]; norm_num
      _ ≤ (1 / 2 ^ 53 * 100 + 1 * 100 / 2 ^ 53) * 100 + 1 * 100 * 100 / 2 ^ 53 :=
        hhundredths.close
      _ ≤ 1 / 2 ^ 37 := by norm_num

theorem Metrics.accounts_iff {m : Metrics} {calls : List Verdict} :
    m.Accounts calls ↔ m.hits = calls.count .hit ∧ m.misses = calls.count .miss ∧
      m.errors = calls.count .error := by
  refine ⟨fun h => ⟨h.hits, h.misses, h.errors⟩, ?_⟩
  rintro ⟨hhits, hmisses, herrors⟩
  refine ⟨hhits, hmisses, herrors, ?_⟩
  rw [← hhits, ← hmisses]
  exact m.isPercentage_hitRate

namespace ProxyCacheService

section Calls

variable {S E : Type} {repository : ICacheRepository S E V} {platform : Platform}
  {config : Config} {upstreamConfig : UpstreamConfig} {reader : BodyReader V}
  {request : ProxyRequest} {start : Time} {arrival : Arrival E} {departure : Departure E}
  {s : ProxyState S}

/-- The target of the request replies with a status that is cached. -/
def RepliesCacheably (platform : Platform) (upstreamConfig : UpstreamConfig)
    (request : ProxyRequest) (upstream : Upstream) : Prop :=
  ∃ url reply, Url.parse platform request.targetUrl = .web url ∧
    upstream (options upstreamConfig url request) = .replied reply ∧
    reply.statusCode.getD 200 ∈ cacheableStatusCodes

theorem kept_eq_none_iff (hcacheable : isCacheable request = true) :
    kept platform upstreamConfig reader request departure = none ↔
      ¬ RepliesCacheably platform upstreamConfig request departure.upstream := by
  have hstored : ∀ answer : UpstreamAnswer V, isStored request answer = true ↔
      answer.statusCode ∈ cacheableStatusCodes := by
    intro answer
    rw [isStored, hcacheable, Bool.true_and, decide_eq_true_eq]
  unfold kept
  rw [Option.filter_eq_none_iff]
  constructor
  · rintro hall ⟨url, reply, hparse, hreply, hstatus⟩
    refine hall ⟨reply.statusCode.getD 200, joinHeaders reply.headers,
      (reader.parse reply.raw).getD (reader.text reply.raw)⟩ ?_ ((hstored _).mpr hstatus)
    simp only [fetchUpstream, hparse, hreply, Except.toOption]
  · intro hno answer hanswer hkept
    refine hno ?_
    cases hparse : Url.parse platform request.targetUrl with
    | invalid => simp [fetchUpstream, hparse, Except.toOption] at hanswer
    | other => simp [fetchUpstream, hparse, Except.toOption] at hanswer
    | web url =>
      cases hreply : departure.upstream (options upstreamConfig url request) with
      | replied reply =>
        refine ⟨url, reply, hparse, hreply, ?_⟩
        simp only [fetchUpstream, hparse, hreply, Except.toOption, Option.some.injEq] at hanswer
        rw [← hanswer] at hkept
        exact (hstored _).mp hkept
      | timedOut => simp [fetchUpstream, hparse, hreply, Except.toOption] at hanswer
      | failed message => simp [fetchUpstream, hparse, hreply, Except.toOption] at hanswer
      | broken message => simp [fetchUpstream, hparse, hreply, Except.toOption] at hanswer

theorem metrics_lookUp :
    (lookUp repository platform upstreamConfig request arrival s).1.metrics =
      match (lookUp repository platform upstreamConfig request arrival s).2 with
      | .hit response => s.metrics.recordHit response.latencyMs
      | _ => s.metrics := by
  unfold lookUp
  split
  · rfl
  · split
    · split <;> rfl
    · rfl

theorem cacheable_of_hit {response : ProxyResponse V}
    (h : (lookUp repository platform upstreamConfig request arrival s).2 = .hit response) :
    isCacheable request = true := by
  unfold lookUp at h
  split at h
  · cases h
  · split at h
    · next hcacheable => exact hcacheable
    · cases h

theorem metrics_complete_of_kept (repository : ICacheRepository S E V) (config : Config)
    (start : Time) (s : ProxyState S) {answer : UpstreamAnswer V}
    (h : kept platform upstreamConfig reader request departure = some answer) :
    (complete repository platform config upstreamConfig reader request start departure
        s).1.metrics = s.metrics.recordMiss (departure.now.val - start.val) ∧
      ∃ response, (complete repository platform config upstreamConfig reader request start departure
        s).2 = .ok response := by
  obtain ⟨hfetch, hstored⟩ := Option.filter_eq_some_iff.mp h
  have hok := eq_ok_of_toOption hfetch
  unfold complete
  simp only [hok, hstored, ↓reduceIte]
  exact ⟨trivial, _, rfl⟩

end Calls

end ProxyCacheService

/-! ### Runs -/

namespace Gateway

section Accounting

variable {S E : Type} (repository : ICacheRepository S E V) (platform : Platform)
  (config : Config) (upstreamConfig : UpstreamConfig) (reader : BodyReader V)

/-- What becomes of a call that may be cached: it is answered when it arrives, or its target
answers or fails. -/
def verdict (g : Gateway S) : GatewayAction E V → Option Verdict
  | .arrive request arrival =>
    if ProxyCacheService.isCacheable request then
      match (ProxyCacheService.lookUp repository platform upstreamConfig request arrival
          g.proxy).2 with
      | .hit _ => some .hit
      | _ => none
    else none
  | .depart i departure =>
    match g.waiting[i]? with
    | some (some w) =>
      if ProxyCacheService.isCacheable w.request then
        match (ProxyCacheService.complete repository platform config upstreamConfig reader
            w.request w.start departure g.proxy).2 with
        | .ok _ => some .miss
        | .error _ => some .error
      else none
    | _ => none
  | _ => none

/-- Whenever a call that may be cached goes to its target, the target replies with a status
that is cached. -/
def TargetReplies (g : Gateway S) (a : GatewayAction E V) : Prop :=
  ∀ i departure w, a = .depart i departure → g.waiting[i]? = some (some w) →
    ProxyCacheService.isCacheable w.request = true →
    ProxyCacheService.RepliesCacheably platform upstreamConfig w.request departure.upstream

variable {repository platform config upstreamConfig reader}

theorem accounts_arrive {g : Gateway S} {seen : List Verdict} (h : g.proxy.metrics.Accounts seen)
    (request : ProxyRequest) (arrival : Arrival E) :
    (step repository platform config upstreamConfig reader g
        (.arrive request arrival)).proxy.metrics.Accounts
      (seen ++ (verdict repository platform config upstreamConfig reader g
        (.arrive request arrival)).toList) := by
  rw [proxy_step_arrive, ProxyCacheService.metrics_lookUp]
  cases hlookup : (ProxyCacheService.lookUp repository platform upstreamConfig request arrival
      g.proxy).2 with
  | throws e => simpa [verdict, hlookup] using h
  | miss => simpa [verdict, hlookup] using h
  | hit response =>
    have hverdict : verdict repository platform config upstreamConfig reader g
        (.arrive request arrival) = some .hit := by
      simp only [verdict, ProxyCacheService.cacheable_of_hit hlookup, hlookup, ↓reduceIte]
    obtain ⟨hhits, hmisses, herrors, -⟩ := Metrics.counters_recordHit g.proxy.metrics
      response.latencyMs
    rw [hverdict, Metrics.accounts_iff, hhits, hmisses, herrors, h.hits, h.misses, h.errors]
    simp

/-- A call that goes to its target is accounted for exactly when the target replies with a
status that is cached. -/
theorem accounts_depart {g : Gateway S} {seen : List Verdict} (h : g.proxy.metrics.Accounts seen)
    {i : ℕ} {w : Waiting} (hwaiting : g.waiting[i]? = some (some w))
    (hcacheable : ProxyCacheService.isCacheable w.request = true) (departure : Departure E) :
    (step repository platform config upstreamConfig reader g
        (.depart i departure)).proxy.metrics.Accounts
      (seen ++ (verdict repository platform config upstreamConfig reader g
        (.depart i departure)).toList) ↔
      ProxyCacheService.RepliesCacheably platform upstreamConfig w.request departure.upstream := by
  simp only [step, verdict, hwaiting, hcacheable, ↓reduceIte]
  cases hkept : ProxyCacheService.kept platform upstreamConfig reader w.request departure with
  | none =>
    rw [ProxyCacheService.complete_of_kept_none hkept]
    refine iff_of_false (fun hafter => ?_)
      ((ProxyCacheService.kept_eq_none_iff hcacheable).mp hkept)
    cases hresult : (ProxyCacheService.complete repository platform config upstreamConfig reader
        w.request w.start departure g.proxy).2 with
    | ok response =>
      have hmisses := hafter.misses
      rw [hresult, h.misses] at hmisses
      simp at hmisses
    | error e =>
      have herrors := hafter.errors
      rw [hresult, h.errors] at herrors
      simp at herrors
  | some answer =>
    obtain ⟨hmetrics, response, hresult⟩ := ProxyCacheService.metrics_complete_of_kept repository
      config w.start g.proxy hkept
    have hreplies : ProxyCacheService.RepliesCacheably platform upstreamConfig w.request
        departure.upstream := by
      by_contra hno
      rw [(ProxyCacheService.kept_eq_none_iff hcacheable).mpr hno] at hkept
      cases hkept
    refine iff_of_true (Metrics.accounts_iff.mpr ?_) hreplies
    obtain ⟨hhits, hmisses, herrors, -⟩ := Metrics.counters_recordMiss g.proxy.metrics
      (departure.now.val - w.start.val)
    rw [hmetrics, hresult, hhits, hmisses, herrors, h.hits, h.misses, h.errors]
    simp

theorem accounts_step {g : Gateway S} {seen : List Verdict} (h : g.proxy.metrics.Accounts seen)
    (a : GatewayAction E V) :
    (step repository platform config upstreamConfig reader g a).proxy.metrics.Accounts
        (seen ++ (verdict repository platform config upstreamConfig reader g a).toList) ↔
      TargetReplies platform upstreamConfig g a := by
  have hsame : ∀ a : GatewayAction E V,
      (step repository platform config upstreamConfig reader g a).proxy.metrics =
        g.proxy.metrics →
      verdict repository platform config upstreamConfig reader g a = none →
      (step repository platform config upstreamConfig reader g a).proxy.metrics.Accounts
        (seen ++ (verdict repository platform config upstreamConfig reader g a).toList) := by
    intro a hmetrics hverdict
    rw [hmetrics, hverdict, Option.toList_none, List.append_nil]
    exact h
  cases a with
  | put input env now =>
    exact iff_of_true (hsame _ (by simp only [step, withRepository]) rfl)
      fun _ _ _ ha => (by cases ha)
  | read key env clock =>
    exact iff_of_true (hsame _ (by simp only [step, withRepository]) rfl)
      fun _ _ _ ha => (by cases ha)
  | remove key env => exact iff_of_true (hsame _ rfl rfl) fun _ _ _ ha => (by cases ha)
  | flush env => exact iff_of_true (hsame _ rfl rfl) fun _ _ _ ha => (by cases ha)
  | arrive request arrival =>
    exact iff_of_true (accounts_arrive h request arrival) fun _ _ _ ha => (by cases ha)
  | depart i departure =>
    have hguard : TargetReplies platform upstreamConfig g
        (.depart i departure : GatewayAction E V) ↔
        ∀ w, g.waiting[i]? = some (some w) → ProxyCacheService.isCacheable w.request = true →
          ProxyCacheService.RepliesCacheably platform upstreamConfig w.request
            departure.upstream := by
      constructor
      · exact fun hall w => hall i departure w rfl
      · intro hall j departure' w ha
        obtain ⟨rfl, rfl⟩ := GatewayAction.depart.inj ha
        exact hall w
    rw [hguard]
    by_cases hcalls : ∃ w, g.waiting[i]? = some (some w) ∧
        ProxyCacheService.isCacheable w.request = true
    · obtain ⟨w, hwaiting, hcacheable⟩ := hcalls
      rw [accounts_depart h hwaiting hcacheable]
      constructor
      · intro hreplies w' hwaiting' _
        obtain rfl : w = w' := Option.some.inj (Option.some.inj (hwaiting.symm.trans hwaiting'))
        exact hreplies
      · exact fun hall => hall w hwaiting hcacheable
    · refine iff_of_true (hsame _ ?_ ?_) fun w hwaiting hcacheable =>
        absurd ⟨w, hwaiting, hcacheable⟩ hcalls
      · simp only [step]
        split
        · next w hwaiting =>
          have hnot : ProxyCacheService.isCacheable w.request = false :=
            Bool.eq_false_iff.mpr fun hcacheable => hcalls ⟨w, hwaiting, hcacheable⟩
          rw [ProxyCacheService.complete_of_kept_none
            (ProxyCacheService.kept_of_not_cacheable hnot)]
        · rfl
      · simp only [verdict]
        split
        · next w hwaiting =>
          rw [if_neg fun hcacheable => hcalls ⟨w, hwaiting, hcacheable⟩]
        · rfl

/-- The metrics account for every call that may be cached exactly when the targets reply to all
of those that go there, each with a status that is cached. -/
theorem accounts_iff_targetReplies (repository : ICacheRepository S E V) (platform : Platform)
    (config : Config) (upstreamConfig : UpstreamConfig) (reader : BodyReader V) (now : Time) (r : S)
    (actions : List (GatewayAction E V)) :
    Runs.Guarded (step repository platform config upstreamConfig reader)
        (TargetReplies platform upstreamConfig) ⟨⟨r, .new now⟩, []⟩ actions ↔
      ∀ before, before <+: actions →
        (reach repository platform config upstreamConfig reader ⟨r, .new now⟩
            before).proxy.metrics.Accounts
          (Runs.observed (step repository platform config upstreamConfig reader)
            (verdict repository platform config upstreamConfig reader) ⟨⟨r, .new now⟩, []⟩
            before) := by
  have hstep : ∀ (g : Gateway S) (a : GatewayAction E V) (seen : List Verdict),
      g.proxy.metrics.Accounts seen →
      ((step repository platform config upstreamConfig reader g a).proxy.metrics.Accounts
        (seen ++ (verdict repository platform config upstreamConfig reader g a).toList) ↔
        TargetReplies platform upstreamConfig g a) := fun _ a _ h => accounts_step h a
  have hstart : (⟨⟨r, .new now⟩, []⟩ : Gateway S).proxy.metrics.Accounts [] :=
    Metrics.accounts_iff.mpr ⟨rfl, rfl, rfl⟩
  exact Runs.guarded_iff_observed hstep hstart actions

end Accounting

/-- A target that fails, and one that replies that it cannot. -/
def unavailable : Upstream := fun _ => .failed "connect ECONNREFUSED"

def overloaded : Upstream := fun _ => .replied ⟨some 503, [], "later"⟩

/-- Neither call is counted. -/
theorem not_accounts_of_overloaded :
    let R := MemoryCacheRepository.wiring (V := String) ⟨2, 60, by decide, by decide⟩
    let now : Time := ⟨1000, by decide⟩
    let start : ProxyState (MemoryCacheRepository String) :=
      ⟨.new ⟨2, 60, by decide, by decide⟩, .new now⟩
    ¬ ∀ actions : List (GatewayAction Clock String),
      (reach R.toICacheRepository .plain ⟨2, 60, by decide, by decide⟩ ⟨[], 1000⟩
          ProxyCacheService.plainReader start actions).proxy.metrics.Accounts
        (Runs.observed (step R.toICacheRepository .plain ⟨2, 60, by decide, by decide⟩ ⟨[], 1000⟩
            ProxyCacheService.plainReader)
          (verdict R.toICacheRepository .plain ⟨2, 60, by decide, by decide⟩ ⟨[], 1000⟩
            ProxyCacheService.plainReader) ⟨start, []⟩ actions) := by
  intro R now start hall
  have hmisses := (hall [
    .arrive (ProxyCacheService.pageRequest "http://h/x" [] none)
      ⟨now, fun _ => now, fun _ => now⟩,
    .depart 0 ⟨overloaded, now, fun _ => now⟩,
    .arrive (ProxyCacheService.pageRequest "http://h/x" [] none)
      ⟨now, fun _ => now, fun _ => now⟩,
    .depart 1 ⟨unavailable, now, fun _ => now⟩]).misses
  revert hmisses
  decide +kernel

end Gateway

end EdgeCache
