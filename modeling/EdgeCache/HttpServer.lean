import EdgeCache.HttpErrors
import EdgeCache.LayeredOutage
import EdgeCache.ProxyRuns

/-!
The service as it answers HTTP: the routes, the controllers and the error handlers over
either repository. A request is matched against the routes in their order, each handler
makes at most one call of the repository, and what it throws goes to `errorHandler`. A
request to the proxy that misses the cache waits for its target; every other one is
answered where it stands, unless a scan of Redis goes on. A call of the repository is one
step: while it waits for Redis, no other call comes in.
-/
namespace EdgeCache

variable {V : Type}

/-! ### Repositories -/

/-- `ICacheRepository` as a whole: what a call leaves behind and what it returns. -/
structure Repository (S E V : Type) where
  call : E → Op V → S → S × Answer V

def MemoryCacheRepository.repository (regExp : RegExp) :
    Repository (MemoryCacheRepository V) Clock V where
  call := fun clock op s => (step regExp s ⟨op, clock⟩, answer regExp s ⟨op, clock⟩)

def LayeredCacheRepository.repository (client : Client) (config : Config) (regExp : RegExp) :
    Repository (Tiers V) Surroundings V where
  call := callIn client config regExp

namespace Repository

variable {S E : Type} (repository : Repository S E V)

/-- The calls that the use cases and the proxy make. -/
def interface : ICacheRepository S E V where
  get := fun env key s =>
    match repository.call env (.get key) s with
    | (s, .entry found) => (s, found)
    | (s, _) => (s, none)
  set := fun env key value options s => (repository.call env (.set key value options) s).1
  delete := fun env key s =>
    match repository.call env (.delete key) s with
    | (s, .flag deleted) => (s, deleted)
    | (s, _) => (s, false)
  flush := fun env s => (repository.call env .flush s).1

def deletions : Deletions S E V where
  delete := repository.interface.delete
  deleteByTags := fun env tags s =>
    match repository.call env (.deleteByTags tags) s with
    | (s, .count count) => (s, count)
    | (s, _) => (s, 0)
  deleteByPattern := fun env pattern s => repository.call env (.deleteByPattern pattern) s

end Repository

/-! ### Responses -/

inductive ResponseHeader where
  | xCache (hit : Bool)
  | xCacheAge (age : JsNumber)
  | xCacheTtl (ttl : JsNumber)
  | xResponseTime (latencyMs : ℤ)
  deriving DecidableEq

structure HealthReport where
  status : String
  redis : String
  note : Option String
  hitRate : ℚ
  totalEntries : ℕ
  memoryUsageMb : ℚ
  requestsPerSecond : ℤ
  avgLatencyMs : ℤ
  p95LatencyMs : Option ℤ
  p99LatencyMs : Option ℤ
  cacheHitRate : ℚ
  deriving DecidableEq

/-- What the body of a response tells. -/
inductive ResponseBody (V : Type) where
  | entry (output : GetCacheOutput V)
  | stored (output : SetCacheOutput)
  | deleted (output : DeleteCacheOutput)
  | stats (stats : MemoryCacheRepository.CacheStats)
  | message (text : String)
  | keys (keys : List String) (count : ℕ)
  | proxied (data : V) (latencyMs : ℤ) (cached : Bool) (cacheAge : Option JsNumber)
  | health (report : HealthReport)
  | ready
  | alive
  | error (code message : String)

structure HttpResponse (V : Type) where
  status : StatusCode
  headers : List ResponseHeader
  body : ResponseBody V

/-- What `errorHandler` makes of an error. -/
def failed (e : Thrown) : HttpResponse V :=
  let response := errorHandler e
  ⟨.number response.status, [], .error response.code response.message⟩

/-- What is sent of the body of a request; the proxy sends it on as a whole. -/
structure RequestBody (V : Type) where
  value : Option V
  ttl : Option Json
  tags : Option (List String)
  metadata : Option Metadata
  ifNotExists : Bool
  pattern : Option String
  json : Json

/-- What a handler reads from its surroundings: those of the repository, the clock, and the
state of the process. -/
structure Context (E : Type) where
  env : E
  start : Time
  clock : Clock
  memoryUsageMb : ℚ
  redisConnected : Bool

/-! ### Controllers -/

namespace CacheController

variable {S E : Type} (repository : Repository S E V) (config : Config)

def get (ctx : Context E) (key : String) (s : S) : S × HttpResponse V :=
  match GetCacheUseCase.execute repository.interface ctx.env ctx.clock key s with
  | (s, .error e) => (s, failed e)
  | (s, .ok output) =>
    (s, ⟨.number 200, [.xCache true, .xCacheAge output.cacheAge, .xCacheTtl output.remainingTtl],
      .entry output⟩)

def set (ctx : Context E) (key : String) (body : RequestBody V) (s : S) : S × HttpResponse V :=
  let input := ⟨key, body.value, body.ttl, body.tags, body.metadata, body.ifNotExists⟩
  match SetCacheUseCase.execute repository.interface config ctx.env (ctx.clock 0) input s with
  | (s, .error e) => (s, failed e)
  | (s, .ok output) => (s, ⟨.number 201, [], .stored output⟩)

/-- What a deletion is answered with; a pattern that does not compile throws a plain error. -/
def answerDeletion : DeleteOutcome → Option (HttpResponse V)
  | .returns output => some ⟨.number 200, [], .deleted output⟩
  | .throws e => some (failed e)
  | .rejects => some (failed (.error "Invalid regular expression"))
  | .pending => none

def delete (ctx : Context E) (key : String) (s : S) : S × Option (HttpResponse V) :=
  let (s, outcome) :=
    DeleteCacheUseCase.execute repository.deletions ctx.env ⟨some key, none, none⟩ s
  (s, answerDeletion outcome)

def invalidate (ctx : Context E) (body : RequestBody V) (s : S) : S × Option (HttpResponse V) :=
  let (s, outcome) :=
    DeleteCacheUseCase.execute repository.deletions ctx.env ⟨none, body.tags, body.pattern⟩ s
  (s, answerDeletion outcome)

def stats (ctx : Context E) (s : S) : S × HttpResponse V :=
  match repository.call ctx.env (.getStats ctx.memoryUsageMb) s with
  | (s, .stats stats) => (s, ⟨.number 200, [], .stats stats⟩)
  | (s, _) => (s, failed (.error ""))

def flush (ctx : Context E) (s : S) : S × HttpResponse V :=
  ((repository.call ctx.env .flush s).1, ⟨.number 200, [], .message "Cache flushed"⟩)

def keys (ctx : Context E) (pattern : Option String) (s : S) : S × Option (HttpResponse V) :=
  match repository.call ctx.env (.keys pattern) s with
  | (s, .keys keys) => (s, some ⟨.number 200, [], .keys keys keys.length⟩)
  | (s, .pending) => (s, none)
  | (s, _) => (s, some (failed (.error "Invalid regular expression")))

end CacheController

/-- The metrics are read before the repository. -/
def HealthController.health {S E : Type} (repository : Repository S E V) (ctx : Context E)
    (s : ProxyState S) : S × HttpResponse V :=
  let snapshot := s.metrics.snapshot (ctx.clock 0) (ctx.clock 1) (.finite ctx.memoryUsageMb)
    ctx.redisConnected
  match repository.call ctx.env (.getStats ctx.memoryUsageMb) s.repository with
  | (r, .stats stats) =>
    let status := if ctx.redisConnected then "healthy" else "degraded"
    (r, ⟨.number (if status = "healthy" then 200 else 207), [], .health {
      status := status
      redis := if ctx.redisConnected then "connected" else "disconnected"
      note := if ctx.redisConnected then none else some "Operating in L1-only fallback mode"
      hitRate := stats.hitRate
      totalEntries := stats.totalEntries
      memoryUsageMb := stats.memoryUsageMb
      requestsPerSecond := snapshot.requestsPerSecond
      avgLatencyMs := snapshot.avgLatencyMs
      p95LatencyMs := snapshot.p95LatencyMs
      p99LatencyMs := snapshot.p99LatencyMs
      cacheHitRate := s.metrics.hitRate }⟩)
  | (r, _) => (r, failed (.error ""))

/-- The response to a request that the service has answered. -/
def ProxyController.respond (response : ProxyResponse V) : HttpResponse V where
  status := response.statusCode
  headers := [.xCache response.cached, .xResponseTime response.latencyMs] ++
    match response.cached, response.cacheAge with
    | true, some age => [.xCacheAge age]
    | _, _ => []
  body := .proxied response.body response.latencyMs response.cached response.cacheAge

/-! ### Routes -/

inductive Handler where
  | health
  | ready
  | live
  | get
  | set
  | delete
  | invalidate
  | flush
  | keys
  | stats
  | proxy
  deriving DecidableEq

/-- A route; `router.all` takes every method, and `none` in a path is a parameter. -/
structure Route where
  method : Option String
  path : List (Option String)
  handler : Handler

def buildRoutes : List Route :=
  [⟨some "GET", [some "health"], .health⟩,
    ⟨some "GET", [some "health", some "ready"], .ready⟩,
    ⟨some "GET", [some "health", some "live"], .live⟩,
    ⟨some "GET", [some "cache", none], .get⟩,
    ⟨some "PUT", [some "cache", none], .set⟩,
    ⟨some "DELETE", [some "cache", none], .delete⟩,
    ⟨some "POST", [some "cache", some "invalidate"], .invalidate⟩,
    ⟨some "DELETE", [some "cache"], .flush⟩,
    ⟨some "GET", [some "cache"], .keys⟩,
    ⟨some "GET", [some "stats"], .stats⟩,
    ⟨none, [some "proxy"], .proxy⟩]

/-- A piece of a path between two slashes, and what `decodeURIComponent` makes of it. -/
structure Segment where
  raw : String
  decoded : Option String

/-- Whether a path matches that of a route, and with which parameters; one of them may not be
decodable. -/
inductive PathMatch where
  | no
  | undecodable
  | yes (params : List String)
  deriving DecidableEq

/-- Letters match in either case, and a parameter is not empty. -/
def matchPath : List (Option String) → List Segment → PathMatch
  | [], [] => .yes []
  | some literal :: route, segment :: path =>
    if segment.raw.toList.map Char.toLower = literal.toList then matchPath route path else .no
  | none :: route, segment :: path =>
    if segment.raw = "" then .no
    else
      match matchPath route path, segment.decoded with
      | .yes params, some param => .yes (param :: params)
      | .yes _, none => .undecodable
      | other, _ => other
  | _, _ => .no

/-- A route for GET also takes HEAD. -/
def Route.handles (route : Route) (method : String) : Bool :=
  match route.method with
  | none => true
  | some name => name = method || (method = "HEAD" && name = "GET")

/-- Where a request goes: to a handler with the parameters of its route, to none, or to the
error handler when a parameter could not be decoded on the way. -/
inductive Dispatch where
  | handler (handler : Handler) (params : List String)
  | notFound
  | undecodable
  deriving DecidableEq

def dispatch (method : String) (path : List Segment) : List Route → Bool → Dispatch
  | [], undecodable => if undecodable then .undecodable else .notFound
  | route :: rest, undecodable =>
    match matchPath route.path path with
    | .no => dispatch method path rest undecodable
    | .undecodable => dispatch method path rest true
    | .yes params =>
      if route.handles method then
        if undecodable then .undecodable else .handler route.handler params
      else dispatch method path rest undecodable

/-! ### The server -/

/-- A request below the prefix of the API. Its path is cut at the slashes, and one at the end
does not count; a body that does not parse is `none`. -/
structure HttpRequest (V : Type) where
  method : Method
  path : List Segment
  originalUrl : String
  pattern : Option String
  proxyQuery : ProxyQuery
  headers : Headers
  body : Option (RequestBody V)

def notFoundHandler (request : HttpRequest V) : HttpResponse V :=
  ⟨.number 404, [], .error "NOT_FOUND"
    ("Route " ++ request.method.val ++ " " ++ request.originalUrl ++ " not found")⟩

/-- A request comes in, a target has answered, or the eviction interval fires. -/
inductive HttpAction (E V : Type) where
  | request (request : HttpRequest V) (ctx : Context E)
  | depart (i : ℕ) (departure : Departure E)
  | sweep (env : E)

namespace Server

section Steps

variable {S E : Type} (repository : Repository S E V) (platform : Platform) (config : Config)
  (upstreamConfig : UpstreamConfig) (reader : BodyReader V)

/-- The handlers other than the proxy's. -/
def handle (handler : Handler) (params : List String) (request : HttpRequest V)
    (body : RequestBody V) (ctx : Context E) (s : ProxyState S) : S × Option (HttpResponse V) :=
  let r := s.repository
  let key := params.headD ""
  match handler with
  | .health => (HealthController.health repository ctx s).map id some
  | .ready => (r, some ⟨.number 200, [], .ready⟩)
  | .live => (r, some ⟨.number 200, [], .alive⟩)
  | .get => (CacheController.get repository ctx key r).map id some
  | .set => (CacheController.set repository config ctx key body r).map id some
  | .delete => CacheController.delete repository ctx key r
  | .invalidate => CacheController.invalidate repository ctx body r
  | .flush => (CacheController.flush repository ctx r).map id some
  | .keys => CacheController.keys repository ctx request.pattern r
  | .stats => (CacheController.stats repository ctx r).map id some
  | .proxy => (r, none)

/-- A request to the proxy up to the point where it is answered or has missed the cache. -/
def proxy (request : HttpRequest V) (body : RequestBody V) (ctx : Context E) (g : Gateway S) :
    Gateway S × Option (HttpResponse V) :=
  match ProxyController.request request.method request.proxyQuery request.headers body.json with
  | .error e => (g, some (failed e))
  | .ok proxied =>
    match ProxyCacheService.lookUp repository.interface platform upstreamConfig proxied
        ⟨ctx.start, ctx.env, ctx.clock⟩ g.proxy with
    | (s, .hit response) => (⟨s, g.waiting⟩, some (ProxyController.respond response))
    | (s, .throws e) => (⟨s, g.waiting⟩, some (failed e))
    | (s, .miss) => (⟨s, g.waiting ++ [some ⟨proxied, ctx.start⟩]⟩, none)

/-- The response of a request, when there is one yet. -/
def respond (request : HttpRequest V) (ctx : Context E) (g : Gateway S) :
    Gateway S × Option (HttpResponse V) :=
  match request.body with
  | none => (g, some (failed (.error "")))
  | some body =>
    match dispatch request.method.val request.path buildRoutes false with
    | .notFound => (g, some (notFoundHandler request))
    | .undecodable => (g, some (failed (.error "")))
    | .handler .proxy _ => proxy repository platform upstreamConfig request body ctx g
    | .handler handler params =>
      let (r, response) := handle repository config handler params request body ctx g.proxy
      (g.withRepository r, response)

def act (g : Gateway S) : HttpAction E V → Gateway S × Option (HttpResponse V)
  | .request request ctx => respond repository platform config upstreamConfig request ctx g
  | .depart i departure =>
    match g.waiting[i]? with
    | some (some w) =>
      let (s, result) := ProxyCacheService.complete repository.interface platform config
        upstreamConfig reader w.request w.start departure g.proxy
      (⟨s, g.waiting.set i none⟩, some (match result with
        | .ok response => ProxyController.respond response
        | .error e => failed e))
    | _ => (g, none)
  | .sweep env => (g.withRepository (repository.call env .sweep g.proxy.repository).1, none)

def step (g : Gateway S) (a : HttpAction E V) : Gateway S :=
  (act repository platform config upstreamConfig reader g a).1

end Steps

end Server

end EdgeCache
