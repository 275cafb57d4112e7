import EdgeCache.Metrics
import EdgeCache.UseCases
import EdgeCache.Url

/-!
`ProxyCacheService`: answers a request from the cache, or sends it on to the target and
keeps the answer. A call suspends between the two halves, once it has missed the cache and
while the target answers. `ProxyController` makes a request of the service from a query.
-/
namespace EdgeCache

variable {V : Type}

structure UpstreamConfig where
  allowedHosts : List String
  timeoutMs : ℕ

abbrev Headers := List (String × String)

/-- `{ ...headers, ...more }`: a name that is there keeps its place. -/
def Headers.spread (headers more : Headers) : Headers :=
  more.foldl (fun headers (name, value) =>
    if headers.any (·.1 = name) then
      headers.map fun header => if header.1 = name then (name, value) else header
    else headers ++ [(name, value)]) headers

structure ProxyRequest where
  method : Method
  targetUrl : String
  headers : Headers
  body : Option Json
  cacheTtl : Option JsNumber
  cacheTags : Option (List String)
  bypassCache : Bool

/-! ### The target -/

structure UpstreamRequest where
  secure : Bool
  hostname : String
  port : String
  path : String
  method : String
  headers : Headers
  timeoutMs : ℕ
  body : Option String
  deriving DecidableEq

inductive HeaderValue where
  | one (value : String)
  | many (values : List String)

structure UpstreamReply where
  statusCode : Option ℕ
  headers : List (String × HeaderValue)
  raw : String

/-- What becomes of a request; the connection may also break while the answer arrives. -/
inductive UpstreamOutcome where
  | replied (reply : UpstreamReply)
  | timedOut
  | failed (message : String)
  | broken (message : String)

abbrev Upstream := UpstreamRequest → UpstreamOutcome

structure UpstreamAnswer (V : Type) where
  statusCode : ℕ
  headers : Headers
  body : V
  deriving DecidableEq

/-- How the text of an answer is read: as JSON, or else as a string. -/
structure BodyReader (V : Type) where
  parse : String → Option V
  text : String → V

/-- A status that is read back from metadata is still a text. -/
inductive StatusCode where
  | number (n : ℕ)
  | text (s : String)
  deriving DecidableEq

structure ProxyResponse (V : Type) where
  statusCode : StatusCode
  headers : Headers
  body : V
  cached : Bool
  cacheAge : Option JsNumber
  latencyMs : ℤ

namespace ProxyCacheService

def pageRequest (targetUrl : String) (headers : Headers) (body : Option Json) : ProxyRequest :=
  ⟨.get, targetUrl, headers, body, none, none, false⟩

def cacheableMethods : List String := ["GET", "HEAD"]

def cacheableStatusCodes : List ℕ := [200, 203, 204, 206, 300, 301, 304, 307, 308, 404, 410]

def isCacheable (request : ProxyRequest) : Bool :=
  request.method.toUpperCase ∈ cacheableMethods && !request.bypassCache

variable (platform : Platform) (upstreamConfig : UpstreamConfig)

def key (request : ProxyRequest) : String :=
  (CacheKey.fromRequest platform request.method request.targetUrl request.body).value

def validateTarget (url : String) : Except Thrown Unit :=
  match Url.parse platform url with
  | .invalid => .error (.validationError ("Invalid target URL: " ++ url))
  | .other => .error (.validationError "Only HTTP and HTTPS protocols are allowed")
  | .web parsed =>
    if upstreamConfig.allowedHosts = [] || upstreamConfig.allowedHosts.any fun h =>
        parsed.hostname = h || ("." ++ h).toList.isSuffixOf parsed.hostname.toList then .ok ()
    else .error (.validationError
      ("Host '" ++ parsed.hostname ++ "' is not in the allowed upstream list"))

/-- The text that is sent of a body that is an object. -/
def sentBody (body : Option Json) : Option String :=
  (body.filter Json.isObject).map Json.stringify

/-- `http.RequestOptions`, and the text that is written. -/
def options (url : Url) (request : ProxyRequest) : UpstreamRequest where
  secure := url.protocol = "https:"
  hostname := url.hostname
  port := if url.port ≠ "" then url.port else if url.protocol = "https:" then "443" else "80"
  path := url.pathname ++ url.search
  method := request.method.val
  headers :=
    let defaults := [("Content-Type", "application/json"), ("Accept", "application/json"),
      ("User-Agent", "EdgeCache-API/1.0")]
    let length := match sentBody request.body with
      | some text => [("Content-Length", toString text.utf8ByteSize)]
      | none => []
    Headers.spread (defaults ++ length) request.headers
  timeoutMs := upstreamConfig.timeoutMs
  body := sentBody request.body

/-- Headers without a value are left out, and several values are joined. -/
def joinHeaders (headers : List (String × HeaderValue)) : Headers :=
  headers.filterMap fun (name, value) =>
    match value with
    | .one value => if value = "" then none else some (name, value)
    | .many values => some (name, String.intercalate ", " values)

def fetchUpstream (reader : BodyReader V) (upstream : Upstream) (request : ProxyRequest) :
    Except Thrown (UpstreamAnswer V) :=
  match Url.parse platform request.targetUrl with
  | .web url =>
    match upstream (options upstreamConfig url request) with
    | .replied reply =>
      .ok ⟨reply.statusCode.getD 200, joinHeaders reply.headers,
        (reader.parse reply.raw).getD (reader.text reply.raw)⟩
    | .timedOut => .error (.upstreamError ("Upstream request timed out after " ++
        toString upstreamConfig.timeoutMs ++ "ms"))
    | .failed message => .error (.upstreamError ("Upstream request failed: " ++ message))
    | .broken message => .error (.error message)
  | _ => .error .typeError

/-! ### A call -/

/-- `cached.metadata['statusCode'] ?? 200` -/
def storedStatus (metadata : Metadata) : StatusCode :=
  match metadata.lookup "statusCode" with
  | some text => .text text
  | none => .number 200

/-- The answer from an entry; `start` was read when the request came in. -/
def replay (start : Time) (clock : Clock) (entry : CacheEntry V) : ProxyResponse V where
  statusCode := storedStatus entry.metadata
  headers := entry.metadata
  body := entry.value
  cached := true
  cacheAge := some (entry.createdAt.secondsSince (clock 1))
  latencyMs := (clock 0).val - start.val

def storedMetadata (answer : UpstreamAnswer V) : Metadata :=
  [("statusCode", toString answer.statusCode),
    ("contentType", (answer.headers.lookup "content-type").getD "application/json")]

def storedOptions (config : Config) (request : ProxyRequest) (answer : UpstreamAnswer V) :
    SetOptions where
  ttl := some (request.cacheTtl.getD (.ofNat config.cacheDefaultTtl))
  tags := some (request.cacheTags.getD [])
  metadata := some (storedMetadata answer)
  ifNotExists := false

/-- Whether an answer is kept. -/
def isStored (request : ProxyRequest) (answer : UpstreamAnswer V) : Bool :=
  isCacheable request && answer.statusCode ∈ cacheableStatusCodes

end ProxyCacheService

/-- The state of the service: that of its repository, and its metrics. -/
structure ProxyState (S : Type) where
  repository : S
  metrics : Metrics

/-- The readings and the surroundings of the first half of a call. -/
structure Arrival (E : Type) where
  start : Time
  env : E
  clock : Clock

/-- Those of the second half, and the target. -/
structure Departure (E : Type) where
  upstream : Upstream
  now : Time
  env : E

/-- The first half of a call answers, throws, or goes on to the target. -/
inductive Lookup (V : Type) where
  | hit (response : ProxyResponse V)
  | throws (e : Thrown)
  | miss

namespace ProxyCacheService

section Calls

variable {S E : Type} (repository : ICacheRepository S E V) (platform : Platform)
  (config : Config) (upstreamConfig : UpstreamConfig) (reader : BodyReader V)

def lookUp (request : ProxyRequest) (arrival : Arrival E) (s : ProxyState S) :
    ProxyState S × Lookup V :=
  match validateTarget platform upstreamConfig request.targetUrl with
  | .error e => (s, .throws e)
  | .ok () =>
    if isCacheable request then
      match repository.get arrival.env (key platform request) s.repository with
      | (r, some entry) =>
        let response := replay arrival.start arrival.clock entry
        (⟨r, s.metrics.recordHit response.latencyMs⟩, .hit response)
      | (r, none) => (⟨r, s.metrics⟩, .miss)
    else (s, .miss)

/-- The second half, with what the target answered. -/
def complete (request : ProxyRequest) (start : Time) (departure : Departure E)
    (s : ProxyState S) : ProxyState S × Except Thrown (ProxyResponse V) :=
  match fetchUpstream platform upstreamConfig reader departure.upstream request with
  | .error e => (s, .error e)
  | .ok answer =>
    let latencyMs := departure.now.val - start.val
    let response : ProxyResponse V :=
      ⟨.number answer.statusCode, answer.headers, answer.body, false, none, latencyMs⟩
    if isStored request answer then
      (⟨repository.set departure.env (key platform request) answer.body
        (storedOptions config request answer) s.repository, s.metrics.recordMiss latencyMs⟩,
        .ok response)
    else (s, .ok response)

def proxy (request : ProxyRequest) (arrival : Arrival E) (departure : Departure E)
    (s : ProxyState S) : ProxyState S × Except Thrown (ProxyResponse V) :=
  match lookUp repository platform upstreamConfig request arrival s with
  | (s, .hit response) => (s, .ok response)
  | (s, .throws e) => (s, .error e)
  | (s, .miss) =>
    complete repository platform config upstreamConfig reader request arrival.start departure s

end Calls

end ProxyCacheService

/-! ### The controller -/

/-- The query of a request; its values are strings, arrays and objects. A target that is no
string is left out. -/
structure ProxyQuery where
  url : Option String
  ttl : Option Json
  tags : Option Json
  bypassCache : Option Json

namespace ProxyController

/-- `ttl ? parseInt(ttl) : undefined` -/
def cacheTtl (ttl : Option Json) : Except Thrown (Option JsNumber) :=
  match ttl.filter Json.isTruthy with
  | none => .ok none
  | some ttl =>
    match ttl.toText with
    | none => .error .typeError
    | some text => .ok (some (parseInt text))

/-- `tags ? tags.split(',').filter(Boolean) : undefined` -/
def cacheTags (tags : Option Json) : Except Thrown (Option (List String)) :=
  match tags.filter Json.isTruthy with
  | none => .ok none
  | some (.string s) =>
    .ok (some (((s.toList.splitOn ',').map String.ofList).filter (· != "")))
  | some _ => .error .typeError

def request (method : Method) (query : ProxyQuery) (headers : Headers) (body : Json) :
    Except Thrown ProxyRequest :=
  match body.keyCount with
  | none => .error .typeError
  | some count =>
    match cacheTtl query.ttl with
    | .error e => .error e
    | .ok ttl =>
      match cacheTags query.tags with
      | .error e => .error e
      | .ok tags => .ok {
          method := method
          targetUrl := query.url.getD ""
          headers := headers
          body := if 0 < count then some body else none
          cacheTtl := ttl
          cacheTags := tags
          bypassCache := match query.bypassCache with
            | some (.string s) => s = "true"
            | _ => false
        }

end ProxyController

end EdgeCache
