import EdgeCache.HttpCluster
import EdgeCache.HttpContents

/-!
Where the entries come from that any of several instances answers with. What the tiers of all of
them have under a key was brought there by an action of one of them. Under a key that no client
sets, the proxy of every instance therefore answers as its targets do, when these always answer
alike.
-/
namespace EdgeCache

variable {V : Type}

namespace ServerCluster

variable {ι : Type} [DecidableEq ι] (server : LayeredServer V)

def service : HttpService (Tiers V) Surroundings V where
  repository := LayeredCacheRepository.repository server.client server.config server.regExp
  contents := LayeredCacheRepository.contents server.client server.config server.regExp
  platform := server.platform
  config := server.config
  upstreamConfig := server.upstreamConfig
  reader := server.reader

/-- Every tier of every instance has only these contents under the key. -/
structure Everywhere (key : String) (K : Content V → Prop) (s : ServerCluster ι V) : Prop where
  l1 : ∀ i, HoldsAt server.config key (fun entry => K entry.content)
    (s.instances i).proxy.repository
  redis : DocumentAt server.client key (fun json => K json.content) s.redis

/-- If a target answers a request with the key now, its answer has this body and this status. -/
def Stable (key : String) (origin : UpstreamAnswer V) (s : ServerCluster ι V)
    (a : ClusterAction ι V) : Prop :=
  (service server).Stable key origin (s.gateway a.instance_) a.action

/-- No client sets the key. -/
def Reserves (key : String) (s : ServerCluster ι V) (a : ClusterAction ι V) : Prop :=
  (service server).Reserves key (s.gateway a.instance_) a.action

/-- The request of the proxy that is answered by an action, if it is answered now. -/
def IsAnswered (s : ServerCluster ι V) (proxied : ProxyRequest) (a : ClusterAction ι V) : Prop :=
  HttpService.IsAnswered (s.gateway a.instance_) proxied a.action

variable {server} {key : String} {K : Content V → Prop} {s : ServerCluster ι V}
  {a : ClusterAction ι V}

omit [DecidableEq ι] in
theorem Everywhere.holds (h : Everywhere server key K s) (i : ι) :
    (service server).contents.Holds key K (s.gateway i).proxy.repository :=
  ⟨h.l1 i, h.redis⟩

theorem Everywhere.step (h : Everywhere server key K s)
    (hkept : (service server).contents.Holds key K ((service server).step
      (s.gateway a.instance_) a.action).proxy.repository) :
    Everywhere server key K (step server s a) := by
  obtain ⟨hl1, hredis⟩ := hkept
  refine ⟨fun i => ?_, hredis⟩
  by_cases hi : i = a.instance_
  · subst hi
    simp only [ServerCluster.step, act, Function.update_self]
    exact hl1
  · simp only [ServerCluster.step, act, Function.update_of_ne hi]
    exact h.l1 i

omit [DecidableEq ι] in
theorem everywhere_initial {metrics : ι → Metrics} {redis : Database V}
    (hredis : DocumentAt server.client key (fun _ => False) redis) :
    Everywhere server key K (initial server metrics redis) :=
  ⟨fun _ => HoldsAt.new _ _ _, fun json t hjson => (hredis json t hjson).elim⟩

/-- The proxy of any instance is transparent: if the targets always answer a key alike, and no
client of any instance sets it, every response to a request of the proxy with the key has the
body and the status that its target gives, whichever instance has fetched what is answered with,
and whatever becomes of Redis. -/
theorem transparent_cluster {metrics : ι → Metrics} {redis : Database V} {proxied : ProxyRequest}
    {origin : UpstreamAnswer V} {actions : List (ClusterAction ι V)}
    (hkey : ProxyCacheService.key server.platform proxied = key)
    (hredis : DocumentAt server.client key (fun _ => False) redis)
    (hreserved : Runs.Guarded (step server) (Reserves server key) (initial server metrics redis)
      actions)
    (hstable : Runs.Guarded (step server) (Stable server key origin)
      (initial server metrics redis) (actions ++ [a]))
    (hanswered : IsAnswered (reach server metrics redis actions) proxied a) {status : StatusCode}
    {headers : List ResponseHeader} {data : V} {latencyMs : ℤ} {cached : Bool}
    {cacheAge : Option JsNumber}
    (hresponse : (act server (reach server metrics redis actions) a).2 =
      some ⟨status, headers, .proxied data latencyMs cached cacheAge⟩) :
    data = origin.body ∧ HttpService.statusText status = toString origin.statusCode := by
  subst hkey
  obtain ⟨hbefore, hlast⟩ := hstable.of_append
  have heverywhere : Everywhere server (ProxyCacheService.key server.platform proxied)
      (HttpService.FromOrigin origin) (reach server metrics redis actions) :=
    (hreserved.and hbefore).invariant (fun s a hs hguard => hs.step
      (HttpService.fromOrigin_step (hs.holds a.instance_) hguard.1 hguard.2))
      (everywhere_initial hredis)
  have hrespond : ((service server).act ((reach server metrics redis actions).gateway a.instance_)
      a.action).2 = some ⟨status, headers, .proxied data latencyMs cached cacheAge⟩ := hresponse
  exact HttpService.origin_of_response (heverywhere.holds a.instance_) hlast.1 hanswered hrespond

/-- A page that one instance has fetched is what the other one answers with. -/
theorem transparent_cluster_two :
    let page : HttpAction Surroundings String := .request (.ofPage "http://h/x") (.whenRedis true)
    let depart : HttpAction Surroundings String := .depart 0
      ⟨ProxyCacheService.target "page", .oneSecond, (Context.whenRedis true).env⟩
    ∃ status headers data latencyMs cached cacheAge,
      (act LayeredServer.ofTwoPlaces (twoInstances [⟨false, page⟩, ⟨false, depart⟩])
        ⟨true, page⟩).2 = some ⟨status, headers, .proxied data latencyMs cached cacheAge⟩ ∧
      data = "page" := by
  intro page depart
  have hkey : ProxyCacheService.key LayeredServer.ofTwoPlaces.platform
      (ProxyCacheService.pageRequest "http://h/x" [] none) = "GET:http://h/x" := by
    decide +kernel
  have hread : ((service LayeredServer.ofTwoPlaces).repository.interface.get
      (Context.whenRedis true).env (ProxyCacheService.key LayeredServer.ofTwoPlaces.platform
        (ProxyCacheService.pageRequest "http://h/x" [] none))
      ((twoInstances [⟨false, page⟩, ⟨false, depart⟩]).gateway true).proxy.repository).2.isSome =
        true := by
    decide +kernel
  obtain ⟨entry, hentry⟩ := Option.isSome_iff_exists.mp hread
  have hresponse : (act LayeredServer.ofTwoPlaces (twoInstances [⟨false, page⟩, ⟨false, depart⟩])
      ⟨true, page⟩).2 = _ :=
    (Server.respond_of_found (service LayeredServer.ofTwoPlaces).config
      (HttpRequest.isProxied_ofPage "http://h/x") rfl rfl (.whenRedis true) hentry).2
  have hreserved : Runs.Guarded (step LayeredServer.ofTwoPlaces)
      (Reserves LayeredServer.ofTwoPlaces "GET:http://h/x") (twoInstances [])
      [⟨false, page⟩, ⟨false, depart⟩] := by
    refine ⟨fun request ctx heq env value options hcall => ?_, fun request ctx heq => ?_, trivial⟩
    · obtain ⟨rfl, rfl⟩ := HttpAction.request.inj heq
      cases hcall
    · cases heq
  have hstable : Runs.Guarded (step LayeredServer.ofTwoPlaces)
      (Stable LayeredServer.ofTwoPlaces "GET:http://h/x" ⟨200, [], "page"⟩) (twoInstances [])
      ([⟨false, page⟩, ⟨false, depart⟩] ++ [⟨true, page⟩]) := by
    refine ⟨fun i departure w answer heq => ?_, fun i departure w answer heq hw _ hanswer => ?_,
      fun i departure w answer heq => ?_, trivial⟩
    · simp only [page, reduceCtorEq] at heq
    · cases heq
      cases hw
      cases hanswer
      exact ⟨rfl, rfl⟩
    · simp only [page, reduceCtorEq] at heq
  have hanswered : IsAnswered (twoInstances [⟨false, page⟩, ⟨false, depart⟩])
      (ProxyCacheService.pageRequest "http://h/x" [] none) ⟨true, page⟩ :=
    HttpRequest.isProxied_ofPage "http://h/x"
  exact ⟨_, _, _, _, _, _, hresponse,
    (transparent_cluster hkey (fun _ _ h => (by cases h)) hreserved hstable hanswered hresponse).1⟩

end ServerCluster

end EdgeCache
