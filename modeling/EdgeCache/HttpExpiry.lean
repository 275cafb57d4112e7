import EdgeCache.ProxyRuns

/-!
Whether what is written over HTTP expires. The cache's own interface checks the ttl it is
given; the proxy reads one from its query and takes it as it is, so that an entry expires
exactly when the number read there is one the other path would have let through.
-/
namespace EdgeCache

variable {V : Type}

/-- The entry under the key has a ttl of at most a week or the default one, a date to match,
and is not found past that date. -/
def Expires (config : Config) (key : String) (l1 : MemoryCacheRepository V) : Prop :=
  ∃ entry, ∃ n : ℕ, ∃ created : ℤ, l1.entryAt key = some entry ∧
    0 < n ∧ (n ≤ maxTtl ∨ n = config.cacheDefaultTtl) ∧ entry.ttl = .ofNat n ∧
    entry.createdAt = some created ∧ entry.expiresAt = some (created + n * 1000) ∧
    ∀ clock : Clock, created + n * 1000 < (clock 0).val → (l1.get clock key).2 = none

namespace MemoryCacheRepository

variable {config : Config} {s : MemoryCacheRepository V}

theorem expires_set_iff {v : MemoryView V} (hs : Shows config s v) (clock : Clock) (key : String)
    (value : V) (options : SetOptions) (hnew : s.suppressed clock key options = false) :
    Expires config key (s.set clock key value options) ↔
      ∃ n : ℕ, 0 < n ∧ (n ≤ maxTtl ∨ n = config.cacheDefaultTtl) ∧
        options.ttlOr (.ofNat config.cacheDefaultTtl) = .ofNat n ∧
        (clock 1).val + n * 1000 ≤ maxTime := by
  have hset := entryAt_set hs clock key value options hnew
  constructor
  · intro h
    obtain ⟨entry, n, created, hentry, hpos, hmax, httl, -, hdate, -⟩ := h
    rw [hset, Option.some.injEq] at hentry
    subst hentry
    have httl' : options.ttlOr (.ofNat config.cacheDefaultTtl) = .ofNat n := httl
    refine ⟨n, hpos, hmax, httl', not_lt.mp fun hlate => ?_⟩
    simp only [MemoryView.newEntry, CacheEntry.create, httl', JsNumber.toDate_after_ofNat,
      if_neg (not_le.mpr hlate)] at hdate
    cases hdate
  · intro h
    obtain ⟨n, hpos, hmax, httl, hdate⟩ := h
    have hexpires : (MemoryView.newEntry config (clock 1) key value options).expiresAt =
        some ((clock 1).val + n * 1000) := by
      simp only [MemoryView.newEntry, CacheEntry.create, httl, JsNumber.toDate_after_ofNat,
        if_pos hdate]
    refine ⟨_, n, (clock 1).val, hset, hpos, hmax, httl, rfl, hexpires, fun clock' hlate => ?_⟩
    apply get_of_expired (hs.set clock key value options) hset
    simp only [CacheEntry.isExpired, hexpires, Date.isBefore, decide_eq_true_eq]
    exact hlate

end MemoryCacheRepository

/-! ### The two paths -/

/-- The ttl that the body of a request asks for. -/
def putTtl (config : Config) (ttl : Option Json) : JsNumber :=
  match ttl with
  | some (.number x _) => x
  | _ => .ofNat config.cacheDefaultTtl

def queryTtl (config : Config) (ttl : Option Json) : JsNumber :=
  match ttl.filter Json.isTruthy with
  | none => .ofNat config.cacheDefaultTtl
  | some ttl => (ttl.toText.map parseInt).getD .nan

theorem getD_validTtl {config : Config} {ttl : Option Json} {x : Option JsNumber}
    (h : SetCacheUseCase.validTtl ttl = .ok x) :
    x.getD (.ofNat config.cacheDefaultTtl) = putTtl config ttl := by
  unfold SetCacheUseCase.validTtl at h
  split at h
  · rw [← Except.ok.inj h]
    rfl
  · split at h
    · cases h
    · split at h
      · cases h
      · rw [← Except.ok.inj h]
        rfl
  · split at h <;> cases h

theorem le_of_validTtl {config : Config} {ttl : Option Json} {x : Option JsNumber}
    (h : SetCacheUseCase.validTtl ttl = .ok x) {n : ℕ}
    (hn : x.getD (.ofNat config.cacheDefaultTtl) = .ofNat n) :
    0 < n ∧ (n ≤ maxTtl ∨ n = config.cacheDefaultTtl) := by
  rcases SetCacheUseCase.validTtl_eq_ok h with rfl | ⟨m, hpos, hmax, rfl⟩
  · obtain rfl := JsNumber.ofNat_inj hn
    exact ⟨config.defaultTtl_pos, Or.inr rfl⟩
  · obtain rfl := JsNumber.ofNat_inj hn
    exact ⟨hpos, Or.inl hmax⟩

theorem getD_cacheTtl {config : Config} {ttl : Option Json} {x : Option JsNumber}
    (h : ProxyController.cacheTtl ttl = .ok x) :
    x.getD (.ofNat config.cacheDefaultTtl) = queryTtl config ttl := by
  unfold ProxyController.cacheTtl at h
  unfold queryTtl
  cases hasked : ttl.filter Json.isTruthy with
  | none =>
    rw [hasked] at h
    rw [← Except.ok.inj h]
    rfl
  | some ttl' =>
    rw [hasked] at h
    simp only at h
    cases htext : ttl'.toText with
    | none =>
      rw [htext] at h
      cases h
    | some text =>
      rw [htext] at h
      simp only [htext, ← Except.ok.inj h]
      rfl

theorem cacheTtl_request {method : Method} {query : ProxyQuery} {headers : Headers} {body : Json}
    {request : ProxyRequest}
    (h : ProxyController.request method query headers body = .ok request) :
    ProxyController.cacheTtl query.ttl = .ok request.cacheTtl := by
  unfold ProxyController.request at h
  split at h
  · cases h
  · split at h
    · cases h
    · next ttl httl =>
      split at h
      · cases h
      · rw [httl, ← Except.ok.inj h]

/-- A request of the cache's own interface leaves an entry that expires whenever its date
can be represented; one of the proxy does if the ttl read from the query is also an
integer from 1 to a week, or the default. -/
theorem expires_of_http {S E : Type} {config : Config} (R : Wiring config S E V)
    (platform : Platform) (upstreamConfig : UpstreamConfig) (reader : BodyReader V)
    (start : ProxyState S) (hstart : R.Sound start.repository)
    (actions : List (GatewayAction E V)) :
    let s := (Gateway.reach R.toICacheRepository platform config upstreamConfig reader start
      actions).proxy
    (∀ env now input output,
      (SetCacheUseCase.execute R.toICacheRepository config env now input s.repository).2 =
        .ok output →
      (R.l1 s.repository).suppressed (R.clock env) output.key
        (SetCacheUseCase.options config input none) = false →
      (Expires config output.key
          (R.l1 (SetCacheUseCase.execute R.toICacheRepository config env now input
            s.repository).1) ↔
        ∃ n : ℕ, putTtl config input.ttl = .ofNat n ∧
          (R.clock env 1).val + n * 1000 ≤ maxTime)) ∧
    ∀ method query headers body request begun departure answer,
      ProxyController.request method query headers body = .ok request →
      ProxyCacheService.fetchUpstream platform upstreamConfig reader departure.upstream request =
        .ok answer →
      ProxyCacheService.isStored request answer = true →
      (Expires config (ProxyCacheService.key platform request)
          (R.l1 (ProxyCacheService.complete R.toICacheRepository platform config upstreamConfig
            reader request begun departure s).1.repository) ↔
        ∃ n : ℕ, 0 < n ∧ (n ≤ maxTtl ∨ n = config.cacheDefaultTtl) ∧
          queryTtl config query.ttl = .ofNat n ∧
          (R.clock departure.env 1).val + n * 1000 ≤ maxTime) := by
  intro s
  obtain ⟨v, hv⟩ : ∃ v, MemoryCacheRepository.Shows config (R.l1 s.repository) v :=
    R.shows (Gateway.sound_reach (R := R) hstart "")
  constructor
  · intro env now input output hok hnew
    obtain ⟨value, ttl, -, httl, -, hset⟩ := SetCacheUseCase.execute_eq_ok hok
    have hnew' : (R.l1 s.repository).suppressed (R.clock env) output.key
        (SetCacheUseCase.options config input ttl) = false := hnew
    have hasked : (SetCacheUseCase.options config input ttl).ttlOr
        (.ofNat config.cacheDefaultTtl) = ttl.getD (.ofNat config.cacheDefaultTtl) := rfl
    rw [hset, R.l1_set, MemoryCacheRepository.expires_set_iff hv _ _ _ _ hnew', hasked,
      ← getD_validTtl httl]
    constructor
    · intro h
      obtain ⟨n, -, -, hn, hdate⟩ := h
      exact ⟨n, hn, hdate⟩
    · intro h
      obtain ⟨n, hn, hdate⟩ := h
      obtain ⟨hpos, hmax⟩ := le_of_validTtl httl hn
      exact ⟨n, hpos, hmax, hn, hdate⟩
  · intro method query headers body request begun departure answer hrequest hfetch hstored
    have hset : (ProxyCacheService.complete R.toICacheRepository platform config upstreamConfig
        reader request begun departure s).1.repository =
          R.set departure.env (ProxyCacheService.key platform request) answer.body
            (ProxyCacheService.storedOptions config request answer) s.repository := by
      unfold ProxyCacheService.complete
      simp only [hfetch, hstored, ↓reduceIte]
    have hasked : (ProxyCacheService.storedOptions config request answer).ttlOr
        (.ofNat config.cacheDefaultTtl) = queryTtl config query.ttl := by
      change request.cacheTtl.getD _ = _
      exact getD_cacheTtl (cacheTtl_request hrequest)
    rw [hset, R.l1_set, MemoryCacheRepository.expires_set_iff hv _ _ _ _ rfl, hasked]

/-- The request that a query for a page and a ttl makes. -/
def timedRequest (ttl : String) : ProxyRequest :=
  ⟨.get, "http://h/x", [], none, some (parseInt ttl), none, false⟩

theorem request_timed (ttl : String) (hne : ttl ≠ "") :
    ProxyController.request .get ⟨some "http://h/x", some (.string ttl), none, none⟩ []
      (.object []) = .ok (timedRequest ttl) := by
  have htruthy : Json.isTruthy (.string ttl) = true := bne_iff_ne.mpr hne
  simp only [ProxyController.request, ProxyController.cacheTtl, ProxyController.cacheTags,
    Json.keyCount, Option.filter_some, htruthy, ↓reduceIte, Json.toText]
  rfl

/-- A minute, followed by its unit. -/
theorem expires_of_http_minute :
    let R := MemoryCacheRepository.wiring (V := String) ⟨2, 60, by decide, by decide⟩
    let now : Time := ⟨1000, by decide⟩
    Expires ⟨2, 60, by decide, by decide⟩ (ProxyCacheService.key .plain (timedRequest "60s"))
      (R.l1 (ProxyCacheService.complete R.toICacheRepository .plain ⟨2, 60, by decide, by decide⟩
        ⟨[], 1000⟩ ProxyCacheService.plainReader (timedRequest "60s") now
        ⟨ProxyCacheService.target "page", now, fun _ => now⟩
        ⟨.new ⟨2, 60, by decide, by decide⟩, .new now⟩).1.repository) := by
  intro R now
  have hiff := (expires_of_http R .plain ⟨[], 1000⟩ ProxyCacheService.plainReader
    ⟨.new ⟨2, 60, by decide, by decide⟩, .new now⟩ (fun _ => HoldsAt.new _ _ _) []).2 .get
    ⟨some "http://h/x", some (.string "60s"), none, none⟩ [] (.object []) (timedRequest "60s") now
    ⟨ProxyCacheService.target "page", now, fun _ => now⟩ ⟨200, [], "page"⟩
    (request_timed "60s" (by decide)) (by decide +kernel) (by decide +kernel)
  exact hiff.mpr ⟨60, by decide, Or.inr rfl, by decide +kernel, by decide⟩

/-- A word for a ttl: the entry has no date at which it expires. -/
theorem not_expires_of_word :
    let R := MemoryCacheRepository.wiring (V := String) ⟨2, 60, by decide, by decide⟩
    let now : Time := ⟨1000, by decide⟩
    ¬ ∀ query request, ProxyController.request .get query [] (.object []) = .ok request →
      Expires ⟨2, 60, by decide, by decide⟩ (ProxyCacheService.key .plain request)
        (R.l1 (ProxyCacheService.complete R.toICacheRepository .plain
          ⟨2, 60, by decide, by decide⟩ ⟨[], 1000⟩ ProxyCacheService.plainReader request now
          ⟨ProxyCacheService.target "page", now, fun _ => now⟩
          ⟨.new ⟨2, 60, by decide, by decide⟩, .new now⟩).1.repository) := by
  intro R now hall
  obtain ⟨entry, n, -, hentry, -, -, httl, -⟩ := hall _ _ (request_timed "soon" (by decide))
  have hword : ((R.l1 (ProxyCacheService.complete R.toICacheRepository .plain
      ⟨2, 60, by decide, by decide⟩ ⟨[], 1000⟩ ProxyCacheService.plainReader
      (timedRequest "soon") now ⟨ProxyCacheService.target "page", now, fun _ => now⟩
      ⟨.new ⟨2, 60, by decide, by decide⟩, .new now⟩).1.repository).entryAt
        (ProxyCacheService.key .plain (timedRequest "soon"))).map (·.ttl) = some .nan := by
    decide +kernel
  rw [hentry, Option.map_some, Option.some.injEq, httl] at hword
  cases hword

end EdgeCache
