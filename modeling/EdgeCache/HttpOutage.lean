import EdgeCache.HttpInstances

/-!
Two wirings of the server that answer alike. When the calls of one repository return what
those of another one return, in states that correspond, every request is answered alike,
whatever its handler does with the results. So the server over both tiers, while no Redis
command succeeds, answers as the server without Redis.
-/
namespace EdgeCache

variable {V : Type}

/-! ### Repositories that answer alike -/

section Mirrors

variable {S S' E E' : Type}

/-- In surroundings that `fit`, the calls of the second repository return what those of the
first one return, and leave behind what is seen of its states. -/
def Repository.Mirrors (repository : Repository S E V) (repository' : Repository S' E' V)
    (fit : E → Prop) (within : E → E') (seen : S → S') : Prop :=
  ∀ env op s, fit env → op.IsRouted →
    repository'.call (within env) op (seen s) =
      (repository.call env op s).map seen id

def ProxyState.map (seen : S → S') (s : ProxyState S) : ProxyState S' :=
  ⟨seen s.repository, s.metrics⟩

def Gateway.map (seen : S → S') (g : Gateway S) : Gateway S' := ⟨g.proxy.map seen, g.waiting⟩

def Context.map (within : E → E') (ctx : Context E) : Context E' where
  env := within ctx.env
  start := ctx.start
  clock := ctx.clock
  memoryUsageMb := ctx.memoryUsageMb
  redisConnected := ctx.redisConnected

def Departure.map (within : E → E') (departure : Departure E) : Departure E' :=
  ⟨departure.upstream, departure.now, within departure.env⟩

/-- The same action in the other surroundings. -/
def HttpAction.map (within : E → E') : HttpAction E V → HttpAction E' V
  | .request r ctx => .request r (ctx.map within)
  | .depart i departure => .depart i (departure.map within)
  | .sweep env => .sweep (within env)

/-- The surroundings in which an action calls the repository. -/
def HttpAction.env : HttpAction E V → E
  | .request _ ctx => ctx.env
  | .depart _ departure => departure.env
  | .sweep env => env

namespace Repository.Mirrors

variable {repository : Repository S E V} {repository' : Repository S' E' V} {fit : E → Prop}
  {within : E → E'} {seen : S → S'} (h : repository.Mirrors repository' fit within seen)
  {env : E} (henv : fit env)
include h henv

theorem get (key : String) (s : S) :
    repository'.interface.get (within env) key (seen s) =
      (repository.interface.get env key s).map seen id := by
  simp only [interface, h env (.get key) s henv trivial]
  rcases repository.call env (.get key) s with ⟨r, answer⟩
  cases answer <;> rfl

theorem set (key : String) (value : V) (options : SetOptions) (s : S) :
    repository'.interface.set (within env) key value options (seen s) =
      seen (repository.interface.set env key value options s) := by
  simp only [interface, h env (.set key value options) s henv trivial]
  rfl

theorem delete (key : String) (s : S) :
    repository'.deletions.delete (within env) key (seen s) =
      (repository.deletions.delete env key s).map seen id := by
  simp only [deletions, interface, h env (.delete key) s henv trivial]
  rcases repository.call env (.delete key) s with ⟨r, answer⟩
  cases answer <;> rfl

theorem deleteByTags (tags : List String) (s : S) :
    repository'.deletions.deleteByTags (within env) tags (seen s) =
      (repository.deletions.deleteByTags env tags s).map seen id := by
  simp only [deletions, h env (.deleteByTags tags) s henv trivial]
  rcases repository.call env (.deleteByTags tags) s with ⟨r, answer⟩
  cases answer <;> rfl

theorem deleteByPattern (pattern : String) (s : S) :
    repository'.deletions.deleteByPattern (within env) pattern (seen s) =
      (repository.deletions.deleteByPattern env pattern s).map seen id :=
  h env (.deleteByPattern pattern) s henv trivial

/-! ### Use cases -/

theorem executeGet (clock : Clock) (key : String) (s : S) :
    GetCacheUseCase.execute repository'.interface (within env) clock key (seen s) =
      (GetCacheUseCase.execute repository.interface env clock key s).map seen id := by
  unfold GetCacheUseCase.execute
  cases CacheKey.fromRaw key with
  | error e => rfl
  | ok cacheKey =>
    simp only [h.get henv]
    rcases repository.interface.get env cacheKey.value s with ⟨r, _ | entry⟩ <;> rfl

theorem executeSet (config : Config) (now : Time) (input : SetCacheInput V) (s : S) :
    SetCacheUseCase.execute repository'.interface config (within env) now input (seen s) =
      (SetCacheUseCase.execute repository.interface config env now input s).map seen id := by
  unfold SetCacheUseCase.execute
  cases SetCacheUseCase.validate input with
  | error e => rfl
  | ok checked =>
    obtain ⟨value, ttl⟩ := checked
    cases CacheKey.fromRaw input.key with
    | error e => rfl
    | ok cacheKey =>
      simp only [h.set henv]
      rfl

theorem executeDelete (input : DeleteCacheInput) (s : S) :
    DeleteCacheUseCase.execute repository'.deletions (within env) input (seen s) =
      (DeleteCacheUseCase.execute repository.deletions env input s).map seen id := by
  unfold DeleteCacheUseCase.execute
  cases DeleteCacheUseCase.validate input with
  | error e => rfl
  | ok u =>
    simp only
    split
    · cases CacheKey.fromRaw (input.key.getD "") with
      | error e => rfl
      | ok cacheKey =>
        simp only [h.delete henv]
        rfl
    · split
      · simp only [h.deleteByTags henv]
        rfl
      · split
        · simp only [h.deleteByPattern henv]
          rcases repository.deletions.deleteByPattern env (input.pattern.getD "") s with
            ⟨r, answer⟩
          cases answer <;> rfl
        · rfl

/-! ### Handlers -/

omit henv in
theorem handle (config : Config) (handler : Handler) (params : List String)
    (request : HttpRequest V) (body : RequestBody V) {ctx : Context E} (hctx : fit ctx.env)
    (s : ProxyState S) :
    Server.handle repository' config handler params request body (ctx.map within) (s.map seen) =
      (Server.handle repository config handler params request body ctx s).map seen id := by
  cases handler with
  | health =>
    simp only [Server.handle, HealthController.health, Context.map, ProxyState.map,
      h ctx.env (.getStats ctx.memoryUsageMb) s.repository hctx trivial]
    rcases repository.call ctx.env (.getStats ctx.memoryUsageMb) s.repository with ⟨r, answer⟩
    cases answer <;> rfl
  | get =>
    simp only [Server.handle, CacheController.get, Context.map, ProxyState.map, h.executeGet hctx]
    rcases GetCacheUseCase.execute repository.interface ctx.env ctx.clock (params.headD "")
      s.repository with ⟨r, _ | output⟩ <;> rfl
  | set =>
    simp only [Server.handle, CacheController.set, Context.map, ProxyState.map, h.executeSet hctx]
    rcases SetCacheUseCase.execute repository.interface config ctx.env (ctx.clock 0)
      ⟨params.headD "", body.value, body.ttl, body.tags, body.metadata, body.ifNotExists⟩
      s.repository with ⟨r, _ | output⟩ <;> rfl
  | delete =>
    simp only [Server.handle, CacheController.delete, Context.map, ProxyState.map,
      h.executeDelete hctx]
    rfl
  | invalidate =>
    simp only [Server.handle, CacheController.invalidate, Context.map, ProxyState.map,
      h.executeDelete hctx]
    rfl
  | flush =>
    simp only [Server.handle, CacheController.flush, Context.map, ProxyState.map,
      h ctx.env .flush s.repository hctx trivial]
    rfl
  | keys =>
    simp only [Server.handle, CacheController.keys, Context.map, ProxyState.map,
      h ctx.env (.keys request.pattern) s.repository hctx trivial]
    rcases repository.call ctx.env (.keys request.pattern) s.repository with ⟨r, answer⟩
    cases answer <;> rfl
  | stats =>
    simp only [Server.handle, CacheController.stats, Context.map, ProxyState.map,
      h ctx.env (.getStats ctx.memoryUsageMb) s.repository hctx trivial]
    rcases repository.call ctx.env (.getStats ctx.memoryUsageMb) s.repository with ⟨r, answer⟩
    cases answer <;> rfl
  | _ => rfl

theorem lookUp (platform : Platform) (upstreamConfig : UpstreamConfig) (proxied : ProxyRequest)
    (begun : Time) (clock : Clock) (s : ProxyState S) :
    ProxyCacheService.lookUp repository'.interface platform upstreamConfig proxied
        ⟨begun, within env, clock⟩ (s.map seen) =
      (ProxyCacheService.lookUp repository.interface platform upstreamConfig proxied
        ⟨begun, env, clock⟩ s).map (ProxyState.map seen) id := by
  unfold ProxyCacheService.lookUp
  cases ProxyCacheService.validateTarget platform upstreamConfig proxied.targetUrl with
  | error e => rfl
  | ok u =>
    simp only
    split
    · simp only [ProxyState.map, h.get henv]
      rcases repository.interface.get env (ProxyCacheService.key platform proxied) s.repository with
        ⟨r, _ | entry⟩ <;> rfl
    · rfl

theorem complete (platform : Platform) (config : Config) (upstreamConfig : UpstreamConfig)
    (reader : BodyReader V) (proxied : ProxyRequest) (begun now : Time) (upstream : Upstream)
    (s : ProxyState S) :
    ProxyCacheService.complete repository'.interface platform config upstreamConfig reader proxied
        begun ⟨upstream, now, within env⟩ (s.map seen) =
      (ProxyCacheService.complete repository.interface platform config upstreamConfig reader proxied
        begun ⟨upstream, now, env⟩ s).map (ProxyState.map seen) id := by
  unfold ProxyCacheService.complete
  simp only
  cases ProxyCacheService.fetchUpstream platform upstreamConfig reader upstream proxied with
  | error e => rfl
  | ok answer =>
    simp only
    split
    · simp only [ProxyState.map, h.set henv]
      rfl
    · rfl

omit henv in
theorem proxy (platform : Platform) (upstreamConfig : UpstreamConfig) (request : HttpRequest V)
    (body : RequestBody V) {ctx : Context E} (hctx : fit ctx.env) (g : Gateway S) :
    Server.proxy repository' platform upstreamConfig request body (ctx.map within) (g.map seen) =
      (Server.proxy repository platform upstreamConfig request body ctx g).map
        (Gateway.map seen) id := by
  unfold Server.proxy
  cases ProxyController.request request.method request.proxyQuery request.headers body.json with
  | error e => rfl
  | ok proxied =>
    simp only [Context.map, Gateway.map, h.lookUp hctx]
    rcases ProxyCacheService.lookUp repository.interface platform upstreamConfig proxied
      ⟨ctx.start, ctx.env, ctx.clock⟩ g.proxy with ⟨s, found⟩
    cases found <;> rfl

omit henv in
theorem respond (platform : Platform) (config : Config) (upstreamConfig : UpstreamConfig)
    (request : HttpRequest V) {ctx : Context E} (hctx : fit ctx.env) (g : Gateway S) :
    Server.respond repository' platform config upstreamConfig request (ctx.map within)
        (g.map seen) =
      (Server.respond repository platform config upstreamConfig request ctx g).map
        (Gateway.map seen) id := by
  cases hbody : request.body with
  | none => simp only [Server.respond, hbody, Prod.map_apply, id_eq]
  | some body =>
    cases hroute : dispatch request.method.val request.path buildRoutes false with
    | notFound => simp only [Server.respond, hbody, hroute, Prod.map_apply, id_eq]
    | undecodable => simp only [Server.respond, hbody, hroute, Prod.map_apply, id_eq]
    | handler handler params =>
      by_cases hproxy : handler = .proxy
      · subst hproxy
        simp only [Server.respond, hbody, hroute]
        exact h.proxy platform upstreamConfig request body hctx g
      · have hhandle := h.handle config handler params request body hctx g.proxy
        rw [Server.respond_of_handler _ _ _ _ hbody hroute hproxy,
          Server.respond_of_handler _ _ _ _ hbody hroute hproxy]
        simp only [Gateway.map, hhandle]
        rfl

omit henv in
/-- Corresponding servers answer the same action alike, and stay corresponding. -/
theorem act (platform : Platform) (config : Config) (upstreamConfig : UpstreamConfig)
    (reader : BodyReader V) (g : Gateway S) {a : HttpAction E V} (ha : fit a.env) :
    Server.act repository' platform config upstreamConfig reader (g.map seen) (a.map within) =
      (Server.act repository platform config upstreamConfig reader g a).map
        (Gateway.map seen) id := by
  cases a with
  | request request ctx => exact h.respond platform config upstreamConfig request ha g
  | depart i departure =>
    obtain ⟨upstream, now, env⟩ := departure
    have hfit : fit env := ha
    simp only [Server.act, HttpAction.map, Departure.map, Gateway.map]
    rcases g.waiting[i]? with _ | _ | w
    · rfl
    · rfl
    · simp only [h.complete hfit]
      rfl
  | sweep env =>
    simp only [Server.act, HttpAction.map, Gateway.map, Gateway.withRepository, ProxyState.map,
      h env .sweep g.proxy.repository ha trivial]
    rfl

end Repository.Mirrors

end Mirrors

/-! ### An outage -/

theorem LayeredCacheRepository.mirrors_of_out (client : Client) (config : Config)
    (regExp : RegExp) :
    (repository client config regExp : Repository (Tiers V) Surroundings V).Mirrors
      (MemoryCacheRepository.repository regExp) Surroundings.Out Surroundings.l1 Tiers.l1 := by
  intro env op s hout _
  obtain ⟨hl1, hanswer⟩ := callIn_of_out client config regExp hout op s
  exact Prod.ext hl1.symm hanswer.symm

namespace InstanceAction

/-- The same action of a server without Redis; it does not see what others do. -/
def alone : InstanceAction V → Option (HttpAction Clock V)
  | .here a => some (a.map Surroundings.l1)
  | .elsewhere _ => none

def Out : InstanceAction V → Prop
  | .here a => a.env.Out
  | .elsewhere _ => True

end InstanceAction

namespace LayeredServer

variable (server : LayeredServer V)

theorem act_of_out (g : Gateway (Tiers V)) {a : HttpAction Surroundings V} (ha : a.env.Out) :
    server.toMemoryServer.act (g.map Tiers.l1) (a.map Surroundings.l1) =
      (server.act g (.here a)).map (Gateway.map Tiers.l1) id :=
  (LayeredCacheRepository.mirrors_of_out server.client server.config server.regExp).act
    server.platform server.config server.upstreamConfig server.reader g ha

/-- While no Redis command succeeds, a server over both tiers answers every request as a server
without Redis does that gets the same requests at the same readings of the clock; it leaves the
same memory tier, the same metrics and the same requests waiting. -/
theorem answers_of_out (redis : Database V) {actions : List (InstanceAction V)}
    (hout : ∀ a ∈ actions, a.Out) {a : HttpAction Surroundings V} (ha : a.env.Out) :
    let g := server.reach redis actions
    let g' := server.toMemoryServer.reach (actions.filterMap InstanceAction.alone)
    (server.act g (.here a)).2 = (server.toMemoryServer.act g' (a.map Surroundings.l1)).2 ∧
      g.map Tiers.l1 = g' := by
  intro g g'
  have hsame : g.map Tiers.l1 = g' := by
    have hstep : ∀ (g : Gateway (Tiers V)) (a : InstanceAction V), a.Out →
        (server.step g a).map Tiers.l1 =
          a.alone.elim (g.map Tiers.l1) (server.toMemoryServer.step (g.map Tiers.l1)) := by
      intro g a ha
      cases a with
      | here a => exact (congrArg Prod.fst (server.act_of_out g ha)).symm
      | elsewhere redis => rfl
    exact Runs.run_filterMap hstep hout (server.start redis)
  refine ⟨?_, hsame⟩
  rw [← hsame, server.act_of_out g ha]
  rfl

/-- A page is fetched and kept, and then served, while every command is lost. -/
theorem answers_of_out_lost :
    let page : HttpAction Surroundings String := .request (.ofPage "http://h/x") (.whenRedis false)
    let depart : HttpAction Surroundings String := .depart 0
      ⟨ProxyCacheService.target "page", .oneSecond, (Context.whenRedis false).env⟩
    (ofTwoPlaces.act (ofTwoPlaces.reach (fun _ => none) [.here page, .here depart])
        (.here page)).2 =
      (MemoryServer.small.act (MemoryServer.small.reach
        [page.map Surroundings.l1, depart.map Surroundings.l1]) (page.map Surroundings.l1)).2 := by
  intro page depart
  have hlost : (Context.whenRedis false).env.Out :=
    ⟨fun _ => Programs.Fault.noConfusion, fun _ hturn => absurd hturn List.not_mem_nil⟩
  have hout : ∀ a ∈ [InstanceAction.here page, InstanceAction.here depart], a.Out := by
    intro a ha
    simp only [List.mem_cons, List.not_mem_nil, or_false] at ha
    rcases ha with rfl | rfl
    · exact hlost
    · exact hlost
  exact (answers_of_out ofTwoPlaces (fun _ => none) hout (a := page) hlost).1

end LayeredServer

end EdgeCache
