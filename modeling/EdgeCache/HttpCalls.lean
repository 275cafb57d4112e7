import EdgeCache.HttpServer
import EdgeCache.Library.Projections

/-!
What the server asks of its repository. Every action makes at most one call, which its
request and the state decide, so the repository after a run of the server is the repository
after the run of these calls. For either repository this is a run of it on its own.
-/
namespace EdgeCache

variable {V : Type}

/-! ### The call of a use case -/

/-- The call that a request to get an entry makes. -/
def GetCacheUseCase.op (key : String) : Option (Op V) :=
  (CacheKey.fromRaw key).toOption.map fun cacheKey => .get cacheKey.value

def SetCacheUseCase.op (config : Config) (input : SetCacheInput V) : Option (Op V) :=
  (validate input).toOption.bind fun checked =>
    (CacheKey.fromRaw input.key).toOption.map fun cacheKey =>
      .set cacheKey.value checked.1 (options config input checked.2)

def DeleteCacheUseCase.op (input : DeleteCacheInput) : Option (Op V) :=
  match validate input with
  | .error _ => none
  | .ok () =>
    if input.key.getD "" ≠ "" then
      (CacheKey.fromRaw (input.key.getD "")).toOption.map fun cacheKey => .delete cacheKey.value
    else if 0 < (input.tags.getD []).length then some (.deleteByTags (input.tags.getD []))
    else if input.pattern.getD "" ≠ "" then some (.deleteByPattern (input.pattern.getD ""))
    else none

namespace Repository

variable {S E : Type} (repository : Repository S E V)

def after (s : S) (call : E × Op V) : S := (repository.call call.1 call.2 s).1

@[simp] theorem fst_get (env : E) (key : String) (s : S) :
    (repository.interface.get env key s).1 = repository.after s (env, .get key) := by
  simp only [interface, after]
  split
  · next h => rw [h]
  · next h => rw [h]

@[simp] theorem fst_delete (env : E) (key : String) (s : S) :
    (repository.deletions.delete env key s).1 = repository.after s (env, .delete key) := by
  simp only [deletions, interface, after]
  split
  · next h => rw [h]
  · next h => rw [h]

@[simp] theorem fst_deleteByTags (env : E) (tags : List String) (s : S) :
    (repository.deletions.deleteByTags env tags s).1 =
      repository.after s (env, .deleteByTags tags) := by
  simp only [deletions, after]
  split
  · next h => rw [h]
  · next h => rw [h]

/-- At most one call is made. -/
def afterSome (s : S) (call : Option (E × Op V)) : S := call.elim s (repository.after s)

end Repository

section UseCases

variable {S E : Type} (repository : Repository S E V) (config : Config) (env : E)

theorem GetCacheUseCase.fst_execute (clock : Clock) (key : String) (s : S) :
    (execute repository.interface env clock key s).1 =
      repository.afterSome s ((op key).map (env, ·)) := by
  unfold execute op
  cases CacheKey.fromRaw key with
  | error e => rfl
  | ok cacheKey =>
    have hget := repository.fst_get env cacheKey.value s
    simp only [Except.toOption, Option.map_some, Repository.afterSome, Option.elim_some]
    rw [← hget]
    split
    · next h => rw [h]
    · next h => rw [h]

theorem SetCacheUseCase.fst_execute (now : Time) (input : SetCacheInput V) (s : S) :
    (execute repository.interface config env now input s).1 =
      repository.afterSome s ((op config input).map (env, ·)) := by
  unfold execute op
  cases validate input with
  | error e => rfl
  | ok checked =>
    obtain ⟨value, ttl⟩ := checked
    cases CacheKey.fromRaw input.key with
    | error e => rfl
    | ok cacheKey => rfl

theorem DeleteCacheUseCase.fst_execute (input : DeleteCacheInput) (s : S) :
    (execute repository.deletions env input s).1 =
      repository.afterSome s ((op input).map (env, ·)) := by
  unfold execute op
  cases validate input with
  | error e => rfl
  | ok _ =>
    simp only
    split
    · cases CacheKey.fromRaw (input.key.getD "") with
      | error e => rfl
      | ok cacheKey => exact repository.fst_delete env cacheKey.value s
    · split
      · exact repository.fst_deleteByTags env _ s
      · split
        · have hpattern : repository.deletions.deleteByPattern env (input.pattern.getD "") s =
              repository.call env (.deleteByPattern (input.pattern.getD "")) s := rfl
          simp only [hpattern, Option.map_some, Repository.afterSome, Option.elim_some,
            Repository.after]
          split
          · next h => rw [h]
          · next h => rw [h]
          · next h => rw [h]
        · rfl

end UseCases

/-! ### The call of an action -/

/-- The calls that some action makes; nothing asks whether a key exists, and none is a bulk
call. -/
def Op.IsRouted : Op V → Prop
  | .exists_ _ => False
  | .mget _ => False
  | .mset _ => False
  | _ => True

namespace Server

section Calls

variable {S E : Type} (repository : Repository S E V) (platform : Platform) (config : Config)
  (upstreamConfig : UpstreamConfig) (reader : BodyReader V)

def opOf (handler : Handler) (params : List String) (request : HttpRequest V)
    (body : RequestBody V) (ctx : Context E) : Option (Op V) :=
  let key := params.headD ""
  match handler with
  | .health => some (.getStats ctx.memoryUsageMb)
  | .ready => none
  | .live => none
  | .get => GetCacheUseCase.op key
  | .set => SetCacheUseCase.op config
      ⟨key, body.value, body.ttl, body.tags, body.metadata, body.ifNotExists⟩
  | .delete => DeleteCacheUseCase.op ⟨some key, none, none⟩
  | .invalidate => DeleteCacheUseCase.op ⟨none, body.tags, body.pattern⟩
  | .flush => some .flush
  | .keys => some (.keys request.pattern)
  | .stats => some (.getStats ctx.memoryUsageMb)
  | .proxy => none

def lookUpOp (proxied : ProxyRequest) : Option (Op V) :=
  match ProxyCacheService.validateTarget platform upstreamConfig proxied.targetUrl with
  | .error _ => none
  | .ok () =>
    if ProxyCacheService.isCacheable proxied then
      some (.get (ProxyCacheService.key platform proxied))
    else none

def proxyOp (request : HttpRequest V) (body : RequestBody V) : Option (Op V) :=
  (ProxyController.request request.method request.proxyQuery request.headers
    body.json).toOption.bind (lookUpOp platform upstreamConfig)

def requestOp (request : HttpRequest V) (ctx : Context E) : Option (Op V) :=
  request.body.bind fun body =>
    match dispatch request.method.val request.path buildRoutes false with
    | .notFound => none
    | .undecodable => none
    | .handler .proxy _ => proxyOp platform upstreamConfig request body
    | .handler handler params => opOf config handler params request body ctx

/-- The call that an answer of a target brings about. -/
def departOp (w : Waiting) (departure : Departure E) : Option (Op V) :=
  match ProxyCacheService.fetchUpstream platform upstreamConfig reader departure.upstream
      w.request with
  | .error _ => none
  | .ok answer =>
    if ProxyCacheService.isStored w.request answer then
      some (.set (ProxyCacheService.key platform w.request) answer.body
        (ProxyCacheService.storedOptions config w.request answer))
    else none

def callOf (g : Gateway S) : HttpAction E V → Option (E × Op V)
  | .request request ctx =>
    (requestOp platform config upstreamConfig request ctx).map (ctx.env, ·)
  | .depart i departure =>
    match g.waiting[i]? with
    | some (some w) =>
      (departOp platform config upstreamConfig reader w departure).map (departure.env, ·)
    | _ => none
  | .sweep env => some (env, .sweep)

theorem fst_handle {handler : Handler} (params : List String) (request : HttpRequest V)
    (body : RequestBody V) (ctx : Context E) (s : ProxyState S) :
    (handle repository config handler params request body ctx s).1 =
      repository.afterSome s.repository
        ((opOf config handler params request body ctx).map (ctx.env, ·)) := by
  cases handler with
  | health =>
    simp only [handle, opOf, HealthController.health, Prod.map_fst, id_eq, Option.map_some,
      Repository.afterSome, Option.elim_some, Repository.after]
    split
    · next h => rw [h]
    · next h => rw [h]
  | get =>
    simp only [handle, opOf, CacheController.get, Prod.map_fst, id_eq]
    rw [← GetCacheUseCase.fst_execute repository ctx.env ctx.clock]
    split
    · next h => rw [h]
    · next h => rw [h]
  | set =>
    simp only [handle, opOf, CacheController.set, Prod.map_fst, id_eq]
    rw [← SetCacheUseCase.fst_execute repository config ctx.env (ctx.clock 0)]
    split
    · next h => rw [h]
    · next h => rw [h]
  | delete => exact DeleteCacheUseCase.fst_execute repository ctx.env _ s.repository
  | invalidate => exact DeleteCacheUseCase.fst_execute repository ctx.env _ s.repository
  | keys =>
    simp only [handle, opOf, CacheController.keys, Option.map_some, Repository.afterSome,
      Option.elim_some, Repository.after]
    split
    · next h => rw [h]
    · next h => rw [h]
    · next h => rw [h]
  | stats =>
    simp only [handle, opOf, CacheController.stats, Prod.map_fst, id_eq, Option.map_some,
      Repository.afterSome, Option.elim_some, Repository.after]
    split
    · next h => rw [h]
    · next h => rw [h]
  | _ => rfl

theorem repository_lookUp (proxied : ProxyRequest) (arrival : Arrival E) (s : ProxyState S) :
    (ProxyCacheService.lookUp repository.interface platform upstreamConfig proxied arrival
        s).1.repository =
      repository.afterSome s.repository
        ((lookUpOp platform upstreamConfig proxied).map (arrival.env, ·)) := by
  unfold ProxyCacheService.lookUp lookUpOp
  cases ProxyCacheService.validateTarget platform upstreamConfig proxied.targetUrl with
  | error e => rfl
  | ok _ =>
    simp only
    split
    · have hget := repository.fst_get arrival.env (ProxyCacheService.key platform proxied)
        s.repository
      simp only [Option.map_some, Repository.afterSome, Option.elim_some]
      rw [← hget]
      split
      · next h => rw [h]
      · next h => rw [h]
    · rfl

theorem repository_proxy (request : HttpRequest V) (body : RequestBody V) (ctx : Context E)
    (g : Gateway S) :
    (proxy repository platform upstreamConfig request body ctx g).1.proxy.repository =
      repository.afterSome g.proxy.repository
        ((proxyOp platform upstreamConfig request body).map (ctx.env, ·)) := by
  unfold proxy proxyOp
  cases ProxyController.request request.method request.proxyQuery request.headers body.json with
  | error e => rfl
  | ok proxied =>
    have hlookUp := repository_lookUp repository platform upstreamConfig proxied
      ⟨ctx.start, ctx.env, ctx.clock⟩ g.proxy
    simp only [Except.toOption, Option.bind_some]
    rw [← hlookUp]
    split
    · next h => rw [h]
    · next h => rw [h]
    · next h => rw [h]

theorem respond_of_handler {request : HttpRequest V} {body : RequestBody V}
    (hbody : request.body = some body) {handler : Handler} {params : List String}
    (hroute : dispatch request.method.val request.path buildRoutes false = .handler handler params)
    (hproxy : handler ≠ .proxy) (ctx : Context E) (g : Gateway S) :
    respond repository platform config upstreamConfig request ctx g =
      let (r, response) := handle repository config handler params request body ctx g.proxy
      (g.withRepository r, response) := by
  simp only [respond, hbody, hroute]

theorem requestOp_of_handler {request : HttpRequest V} {body : RequestBody V}
    (hbody : request.body = some body) {handler : Handler} {params : List String}
    (hroute : dispatch request.method.val request.path buildRoutes false = .handler handler params)
    (hproxy : handler ≠ .proxy) (ctx : Context E) :
    requestOp platform config upstreamConfig request ctx =
      opOf config handler params request body ctx := by
  simp only [requestOp, hbody, Option.bind_some, hroute]

theorem repository_respond (request : HttpRequest V) (ctx : Context E) (g : Gateway S) :
    (respond repository platform config upstreamConfig request ctx g).1.proxy.repository =
      repository.afterSome g.proxy.repository
        ((requestOp platform config upstreamConfig request ctx).map (ctx.env, ·)) := by
  cases hbody : request.body with
  | none => simp only [respond, requestOp, hbody, Option.bind_none, Option.map_none]; rfl
  | some body =>
    cases hroute : dispatch request.method.val request.path buildRoutes false with
    | notFound =>
      simp only [respond, requestOp, hbody, hroute, Option.bind_some, Option.map_none]
      rfl
    | undecodable =>
      simp only [respond, requestOp, hbody, hroute, Option.bind_some, Option.map_none]
      rfl
    | handler handler params =>
      by_cases hproxy : handler = .proxy
      · subst hproxy
        simp only [respond, requestOp, hbody, hroute, Option.bind_some]
        exact repository_proxy repository platform upstreamConfig request body ctx g
      · rw [respond_of_handler repository platform config upstreamConfig hbody hroute hproxy,
          requestOp_of_handler platform config upstreamConfig hbody hroute hproxy]
        exact fst_handle repository config params request body ctx g.proxy

theorem repository_complete (w : Waiting) (departure : Departure E) (s : ProxyState S) :
    (ProxyCacheService.complete repository.interface platform config upstreamConfig reader
        w.request w.start departure s).1.repository =
      repository.afterSome s.repository
        ((departOp platform config upstreamConfig reader w departure).map (departure.env, ·)) := by
  unfold ProxyCacheService.complete departOp
  cases ProxyCacheService.fetchUpstream platform upstreamConfig reader departure.upstream
      w.request with
  | error e => rfl
  | ok answer =>
    simp only
    split <;> rfl

/-- The repository takes the calls of the actions, one at a time. -/
theorem drives (repository : Repository S E V) (platform : Platform) (config : Config)
    (upstreamConfig : UpstreamConfig) (reader : BodyReader V) :
    Runs.Drives (step repository platform config upstreamConfig reader) repository.after
      (callOf platform config upstreamConfig reader) fun g => g.proxy.repository := by
  intro g a
  cases a with
  | request request ctx =>
    exact repository_respond repository platform config upstreamConfig request ctx g
  | depart i departure =>
    simp only [step, act, callOf]
    rcases g.waiting[i]? with _ | _ | w
    · rfl
    · rfl
    · exact repository_complete repository platform config upstreamConfig reader w departure g.proxy
  | sweep env => rfl

/-! ### Which calls are made -/

variable {platform config upstreamConfig reader}

theorem routed_of_deletion {input : DeleteCacheInput} {op : Op V}
    (h : DeleteCacheUseCase.op input = some op) : op.IsRouted := by
  unfold DeleteCacheUseCase.op at h
  split at h
  · cases h
  · split at h
    · obtain ⟨cacheKey, -, rfl⟩ := Option.map_eq_some_iff.mp h
      trivial
    · split at h
      · cases h
        trivial
      · split at h
        · cases h
          trivial
        · cases h

theorem routed_of_opOf {handler : Handler} {params : List String} {request : HttpRequest V}
    {body : RequestBody V} {ctx : Context E} {op : Op V}
    (h : opOf config handler params request body ctx = some op) : op.IsRouted := by
  cases handler with
  | get =>
    obtain ⟨cacheKey, -, rfl⟩ := Option.map_eq_some_iff.mp h
    trivial
  | set =>
    obtain ⟨checked, -, hset⟩ := Option.bind_eq_some_iff.mp h
    obtain ⟨cacheKey, -, rfl⟩ := Option.map_eq_some_iff.mp hset
    trivial
  | delete => exact routed_of_deletion h
  | invalidate => exact routed_of_deletion h
  | health => cases h; trivial
  | flush => cases h; trivial
  | keys => cases h; trivial
  | stats => cases h; trivial
  | _ => cases h

theorem routed_of_lookUpOp {proxied : ProxyRequest} {op : Op V}
    (h : lookUpOp platform upstreamConfig proxied = some op) : op.IsRouted := by
  unfold lookUpOp at h
  split at h
  · cases h
  · split at h
    · cases h
      trivial
    · cases h

theorem routed_of_requestOp {request : HttpRequest V} {ctx : Context E} {op : Op V}
    (h : requestOp platform config upstreamConfig request ctx = some op) : op.IsRouted := by
  obtain ⟨body, hbody, hop⟩ := Option.bind_eq_some_iff.mp h
  cases hroute : dispatch request.method.val request.path buildRoutes false with
  | notFound =>
    rw [hroute] at hop
    cases hop
  | undecodable =>
    rw [hroute] at hop
    cases hop
  | handler handler params =>
    by_cases hproxy : handler = .proxy
    · subst hproxy
      rw [hroute] at hop
      obtain ⟨proxied, -, hlookUp⟩ := Option.bind_eq_some_iff.mp hop
      exact routed_of_lookUpOp hlookUp
    · rw [requestOp_of_handler platform config upstreamConfig hbody hroute hproxy] at h
      exact routed_of_opOf h

theorem routed_of_callOf {g : Gateway S} {a : HttpAction E V} {env : E} {op : Op V}
    (h : callOf platform config upstreamConfig reader g a = some (env, op)) : op.IsRouted := by
  cases a with
  | request request ctx =>
    obtain ⟨op', hop, heq⟩ := Option.map_eq_some_iff.mp h
    obtain ⟨-, rfl⟩ := Prod.mk.inj heq
    exact routed_of_requestOp hop
  | depart i departure =>
    simp only [callOf] at h
    rcases hwaiting : g.waiting[i]? with _ | _ | w
    · rw [hwaiting] at h
      cases h
    · rw [hwaiting] at h
      cases h
    · rw [hwaiting] at h
      obtain ⟨op', hop, heq⟩ := Option.map_eq_some_iff.mp h
      obtain ⟨-, rfl⟩ := Prod.mk.inj heq
      unfold departOp at hop
      split at hop
      · cases hop
      · split at hop
        · cases hop
          trivial
        · cases hop
  | sweep env =>
    cases h
    trivial

end Calls

end Server

end EdgeCache
