import EdgeCache.HttpCalls

/-!
Requests by what they are for, whatever else is in them: an entry of the cache, or a page by
way of the proxy. A request for an entry is answered with what the repository gives under the
trimmed key.
-/
namespace EdgeCache

variable {V : Type}

/-! ### Requests for an entry -/

/-- A request for `/cache/:key`, whose body parses. -/
structure HttpRequest.IsFor (request : HttpRequest V) (method key : String) : Prop where
  method_eq : request.method.val = method
  body : ∃ body, request.body = some body
  path : ∃ literal param, request.path = [literal, param] ∧
    literal.raw.toList.map Char.toLower = "cache".toList ∧ param.raw ≠ "" ∧
    param.decoded = some key

namespace HttpRequest.IsFor

variable {request : HttpRequest V} {key : String}

theorem dispatch_get (h : request.IsFor "GET" key) :
    dispatch request.method.val request.path buildRoutes false = .handler .get [key] := by
  obtain ⟨literal, param, hpath, hliteral, hraw, hdecoded⟩ := h.path
  rw [hpath, h.method_eq]
  simp [buildRoutes, dispatch, matchPath, hliteral, hraw, hdecoded, Route.handles]

theorem dispatch_put (h : request.IsFor "PUT" key) :
    dispatch request.method.val request.path buildRoutes false = .handler .set [key] := by
  obtain ⟨literal, param, hpath, hliteral, hraw, hdecoded⟩ := h.path
  rw [hpath, h.method_eq]
  simp [buildRoutes, dispatch, matchPath, hliteral, hraw, hdecoded, Route.handles]

theorem dispatch_delete (h : request.IsFor "DELETE" key) :
    dispatch request.method.val request.path buildRoutes false = .handler .delete [key] := by
  obtain ⟨literal, param, hpath, hliteral, hraw, hdecoded⟩ := h.path
  rw [hpath, h.method_eq]
  simp [buildRoutes, dispatch, matchPath, hliteral, hraw, hdecoded, Route.handles]

end HttpRequest.IsFor

/-- A request for `/cache/:key` as plain clients send it. -/
def HttpRequest.ofKey (method : Method) (key : String) (body : RequestBody V) : HttpRequest V where
  method := method
  path := [⟨"cache", some "cache"⟩, ⟨key, some key⟩]
  originalUrl := "/cache/" ++ key
  pattern := none
  proxyQuery := ⟨none, none, none, none⟩
  headers := []
  body := some body

theorem HttpRequest.isFor_ofKey (method : Method) {key : String} (hkey : key ≠ "")
    (body : RequestBody V) : (ofKey method key body).IsFor method.val key where
  method_eq := rfl
  body := ⟨body, rfl⟩
  path := ⟨_, _, rfl, by decide, hkey, rfl⟩

/-- The body of a request that sends a value, or nothing. -/
def RequestBody.ofValue (value : Option V) : RequestBody V :=
  ⟨value, none, none, none, false, none, .object []⟩

/-- A request to the proxy, and what the controller makes of it. -/
structure HttpRequest.IsProxied (request : HttpRequest V) (proxied : ProxyRequest) : Prop where
  body : ∃ body, request.body = some body ∧ ProxyController.request request.method
    request.proxyQuery request.headers body.json = .ok proxied
  path : ∃ literal, request.path = [literal] ∧
    literal.raw.toList.map Char.toLower = "proxy".toList

theorem HttpRequest.IsProxied.dispatch_eq {request : HttpRequest V} {proxied : ProxyRequest}
    (h : request.IsProxied proxied) :
    dispatch request.method.val request.path buildRoutes false = .handler .proxy [] := by
  obtain ⟨literal, hpath, hliteral⟩ := h.path
  rw [hpath]
  simp [buildRoutes, dispatch, matchPath, hliteral, Route.handles]

theorem minute_pos : 0 < 60 := by omega

/-- Two entries fit, and stay for a minute. -/
def Config.twoPlaces : Config := ⟨2, 60, Nat.zero_lt_two, minute_pos⟩

theorem oneSecond_valid : 0 < (1000 : ℤ) ∧ (1000 : ℤ) ≤ maxTime := by decide

/-- When the clock of a server starts that is looked at as an example. -/
def Time.oneSecond : Time := ⟨1000, oneSecond_valid⟩

/-- Redis is there, or fails. -/
def Context.whenRedis (up : Bool) : Context Surroundings :=
  let c : Conditions := ⟨.oneSecond, true, fun _ => if up then .none else .lost⟩
  ⟨c.surroundings, c.now, c.clock, 0, true⟩

/-- Requests that set and get an entry, and one for a page. -/
def HttpRequest.ofPut (key value : String) : HttpRequest String :=
  ofKey ⟨"PUT", by decide +kernel⟩ key (.ofValue (some value))

def HttpRequest.ofGet (key : String) : HttpRequest String := ofKey .get key (.ofValue none)

def HttpRequest.ofDelete (key : String) : HttpRequest String :=
  ofKey ⟨"DELETE", by decide +kernel⟩ key (.ofValue none)

def HttpRequest.ofPage (targetUrl : String) : HttpRequest String where
  method := .get
  path := [⟨"proxy", some "proxy"⟩]
  originalUrl := "/proxy"
  pattern := none
  proxyQuery := ⟨some targetUrl, none, none, none⟩
  headers := []
  body := some (.ofValue none)

theorem HttpRequest.isProxied_ofPage (targetUrl : String) :
    (ofPage targetUrl).IsProxied (ProxyCacheService.pageRequest targetUrl [] none) where
  body := ⟨_, rfl, rfl⟩
  path := ⟨_, rfl, by decide⟩

namespace CacheController

variable {S E : Type} {repository : Repository S E V} {ctx : Context E} {key : String} {s : S}

/-- What is answered with an entry has been found under the trimmed key. -/
theorem get_eq_entry {status : StatusCode} {headers : List ResponseHeader}
    {output : GetCacheOutput V}
    (h : (get repository ctx key s).2 = ⟨status, headers, .entry output⟩) :
    (repository.interface.get ctx.env (trim key) s).2 = some output.entry := by
  unfold get GetCacheUseCase.execute at h
  cases hraw : CacheKey.fromRaw key with
  | error e =>
    rw [hraw] at h
    cases h
  | ok cacheKey =>
    rw [hraw] at h
    rw [← CacheKey.value_of_fromRaw hraw]
    rcases hfound : repository.interface.get ctx.env cacheKey.value s with ⟨s', _ | entry⟩
    · simp only [hfound] at h
      cases h
    · simp only [hfound] at h
      cases h
      rfl

theorem get_of_some (hkey : WellFormedKey key) {entry : CacheEntry V}
    (h : (repository.interface.get ctx.env (trim key) s).2 = some entry) :
    (get repository ctx key s).2 =
      ⟨.number 200, [.xCache true, .xCacheAge (entry.createdAt.secondsSince (ctx.clock 0)),
          .xCacheTtl (entry.remainingTtl (ctx.clock 1))],
        .entry ⟨entry, entry.createdAt.secondsSince (ctx.clock 0),
          entry.remainingTtl (ctx.clock 1)⟩⟩ := by
  unfold get GetCacheUseCase.execute
  rw [CacheKey.fromRaw_of_wellFormed hkey]
  rcases hfound : repository.interface.get ctx.env (trim key) s with ⟨s', found⟩
  rw [hfound] at h
  obtain rfl : found = some entry := h
  simp only [hfound]

theorem get_of_none (hkey : WellFormedKey key)
    (h : (repository.interface.get ctx.env (trim key) s).2 = none) :
    (get repository ctx key s).2 =
      failed (.notFoundError ("Cache entry '" ++ key ++ "' not found")) := by
  unfold get GetCacheUseCase.execute
  rw [CacheKey.fromRaw_of_wellFormed hkey]
  rcases hfound : repository.interface.get ctx.env (trim key) s with ⟨s', found⟩
  rw [hfound] at h
  obtain rfl : found = none := h
  simp only [hfound]

end CacheController

namespace Server

theorem respond_get {S E : Type} (repository : Repository S E V) (platform : Platform)
    (config : Config) (upstreamConfig : UpstreamConfig) {request : HttpRequest V} {key : String}
    (h : request.IsFor "GET" key) (ctx : Context E) (g : Gateway S) :
    (respond repository platform config upstreamConfig request ctx g).2 =
      some (CacheController.get repository ctx key g.proxy.repository).2 := by
  obtain ⟨body, hbody⟩ := h.body
  simp only [respond, hbody, h.dispatch_get, handle, List.headD_cons, Prod.map_snd]

theorem callOf_put {S E : Type} {platform : Platform} {config : Config}
    {upstreamConfig : UpstreamConfig} {reader : BodyReader V} {request : HttpRequest V}
    {key : String} (hrequest : request.IsFor "PUT" key) {body : RequestBody V}
    (hbody : request.body = some body) (hkey : WellFormedKey key) {value : V}
    (hvalue : body.value = some value) {ttl : Option JsNumber}
    (httl : SetCacheUseCase.validTtl body.ttl = .ok ttl) {ctx : Context E} {g : Gateway S} :
    callOf platform config upstreamConfig reader g (.request request ctx) =
      some (ctx.env, .set (trim key) value (SetCacheUseCase.options config
        ⟨key, body.value, body.ttl, body.tags, body.metadata, body.ifNotExists⟩ ttl)) := by
  have hvalid : SetCacheUseCase.validate ⟨key, body.value, body.ttl, body.tags, body.metadata,
      body.ifNotExists⟩ = .ok (value, ttl) :=
    SetCacheUseCase.validate_of_wellFormed hkey hvalue httl
  simp only [callOf, requestOp, hbody, Option.bind_some, hrequest.dispatch_put, opOf,
    List.headD_cons, SetCacheUseCase.op, hvalid, CacheKey.fromRaw_of_wellFormed hkey,
    Except.toOption, Option.map_some]

theorem callOf_delete {S E : Type} {platform : Platform} {config : Config}
    {upstreamConfig : UpstreamConfig} {reader : BodyReader V} {request : HttpRequest V}
    {key : String} (hrequest : request.IsFor "DELETE" key) (hkey : WellFormedKey key)
    {ctx : Context E} {g : Gateway S} :
    callOf platform config upstreamConfig reader g (.request request ctx) =
      some (ctx.env, .delete (trim key)) := by
  obtain ⟨body, hbody⟩ := hrequest.body
  have hne : key ≠ "" := by
    rintro rfl
    exact hkey.1 rfl
  simp only [callOf, requestOp, hbody, Option.bind_some, hrequest.dispatch_delete, opOf,
    List.headD_cons, DeleteCacheUseCase.op, DeleteCacheUseCase.validate_key hne,
    Option.getD_some, hne, ne_eq, not_false_eq_true, ↓reduceIte,
    CacheKey.fromRaw_of_wellFormed hkey, Except.toOption, Option.map_some]

theorem respond_of_found {S E : Type} {repository : Repository S E V} {platform : Platform}
    (config : Config) {upstreamConfig : UpstreamConfig} {request : HttpRequest V}
    {proxied : ProxyRequest} (hrequest : request.IsProxied proxied)
    (htarget : ProxyCacheService.validateTarget platform upstreamConfig proxied.targetUrl = .ok ())
    (hcacheable : ProxyCacheService.isCacheable proxied = true) (ctx : Context E) {g : Gateway S}
    {entry : CacheEntry V}
    (hget : (repository.interface.get ctx.env (ProxyCacheService.key platform proxied)
      g.proxy.repository).2 = some entry) :
    let response := ProxyCacheService.replay ctx.start ctx.clock entry
    (respond repository platform config upstreamConfig request ctx g).1.waiting = g.waiting ∧
      (respond repository platform config upstreamConfig request ctx g).2 =
        some (ProxyController.respond response) := by
  intro response
  obtain ⟨body, hbody, hproxied⟩ := hrequest.body
  rcases hresult : repository.interface.get ctx.env (ProxyCacheService.key platform proxied)
    g.proxy.repository with ⟨r, found⟩
  obtain rfl : found = some entry := (congrArg Prod.snd hresult).symm.trans hget
  have hlookUp : ProxyCacheService.lookUp repository.interface platform upstreamConfig proxied
      ⟨ctx.start, ctx.env, ctx.clock⟩ g.proxy =
      (⟨r, g.proxy.metrics.recordHit response.latencyMs⟩, .hit response) := by
    simp only [ProxyCacheService.lookUp, htarget, hcacheable, ↓reduceIte, hresult, response]
  simp only [respond, hbody, hrequest.dispatch_eq, proxy, hproxied, hlookUp, and_self]

theorem respond_of_missed {S E : Type} {repository : Repository S E V} {platform : Platform}
    (config : Config) {upstreamConfig : UpstreamConfig} {request : HttpRequest V}
    {proxied : ProxyRequest} (hrequest : request.IsProxied proxied)
    (htarget : ProxyCacheService.validateTarget platform upstreamConfig proxied.targetUrl = .ok ())
    (hcacheable : ProxyCacheService.isCacheable proxied = true) (ctx : Context E) {g : Gateway S}
    (hget : (repository.interface.get ctx.env (ProxyCacheService.key platform proxied)
      g.proxy.repository).2 = none) :
    (respond repository platform config upstreamConfig request ctx g).1.waiting =
        g.waiting ++ [some ⟨proxied, ctx.start⟩] ∧
      (respond repository platform config upstreamConfig request ctx g).2 = none := by
  obtain ⟨body, hbody, hproxied⟩ := hrequest.body
  rcases hresult : repository.interface.get ctx.env (ProxyCacheService.key platform proxied)
    g.proxy.repository with ⟨r, found⟩
  obtain rfl : found = none := (congrArg Prod.snd hresult).symm.trans hget
  have hlookUp : ProxyCacheService.lookUp repository.interface platform upstreamConfig proxied
      ⟨ctx.start, ctx.env, ctx.clock⟩ g.proxy = (⟨r, g.proxy.metrics⟩, .miss) := by
    simp only [ProxyCacheService.lookUp, htarget, hcacheable, ↓reduceIte, hresult]
  simp only [respond, hbody, hrequest.dispatch_eq, proxy, hproxied, hlookUp, and_self]

end Server

end EdgeCache
