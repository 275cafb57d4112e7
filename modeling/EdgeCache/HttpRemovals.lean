import EdgeCache.HttpCluster
import EdgeCache.LayeredRemoval

/-!
What a request deletes at one of several instances, while no read of it is under way. The instance
answers at once that it is not there, and the others as soon as the copies they had have expired,
until it is stored again: no instance brings it back. A page is then fetched anew.
-/
namespace EdgeCache

variable {V : Type}

namespace ServerCluster

variable {ι : Type} [DecidableEq ι] (server : LayeredServer V)

/-- The action takes the key out of Redis and out of the memory tier of its instance. -/
def Removes (s : ServerCluster ι V) (a : ClusterAction ι V) (key : String) (now : Time) : Prop :=
  ∃ env op, callOf server s a = some ⟨a.instance_, op, env⟩ ∧
    op.Removes server.client server.config server.regExp key now env
      (s.repositories.tiers a.instance_)

/-- The copies that the other instances have end by these times. -/
def CopiesEnd (s : ServerCluster ι V) (i : ι) (key : String) (ends : ι → Time) : Prop :=
  ∀ j, j ≠ i → ∀ entry, (s.instances j).proxy.repository.entryAt key = some entry →
    entry.isExpired (ends j) = true

/-- No later action reads the clock before that time or sets the key. -/
def Withholds (key : String) (now : Time) (s : ServerCluster ι V)
    (actions : List (ClusterAction ι V)) : Prop :=
  ∀ call ∈ callsFrom server s actions, call.call.env.Reads (now ≤ ·) ∧ ¬ call.call.op.Sets key

variable {server} {metrics : ι → Metrics} {redis : Database V} {key : String} {now : Time}
  {before after : List (ClusterAction ι V)} {a : ClusterAction ι V} {ends : ι → Time}

omit [DecidableEq ι] in
theorem removes_of_delete {request : HttpRequest V} {key : String}
    (hrequest : request.IsFor "DELETE" key) (hkey : WellFormedKey key)
    {ctx : Context Surroundings} (havailable : ctx.env.redisAvailable 0 = true)
    (hcarried : ctx.env.fault 0 ≠ .lost) (s : ServerCluster ι V) (i : ι) :
    Removes server s ⟨i, .request request ctx⟩ (trim key) now := by
  have hcall : callOf server s ⟨i, .request request ctx⟩ =
      some ⟨i, .delete (trim key), ctx.env⟩ := by
    rw [callOf, LayeredServer.callOf, Server.callOf_delete hrequest hkey]
    rfl
  exact ⟨ctx.env, _, hcall, rfl, havailable, hcarried⟩

theorem allGone_of_removes
    (ha : Removes server (reach server metrics redis before) a key now)
    (hcopies : CopiesEnd (reach server metrics redis before) a.instance_ key ends)
    (hafter : Withholds server key now (reach server metrics redis (before ++ [a])) after) :
    Cluster.AllGone server.client server.config key now (Function.update ends a.instance_ now)
      (reach server metrics redis (before ++ a :: after)).repositories := by
  obtain ⟨env, op, hcall, hremoves⟩ := ha
  have hshown : (reach server metrics redis before).repositories =
      Cluster.reachIn server.client server.config server.regExp redis
        (callsFrom server (initial server metrics redis) before) :=
    repositories_reach server metrics redis before
  rw [hshown] at hremoves
  rw [repositories_reach, callsFrom_append_cons hcall]
  refine Cluster.allGone_of_removes hremoves (fun j hj entry hentry => ?_) ?_ hafter
  · rw [Function.update_of_ne hj]
    rw [← hshown] at hentry
    exact hcopies j hj entry hentry
  · rw [Function.update_self]

theorem getIn_eq_none_of_removes
    (ha : Removes server (reach server metrics redis before) a key now)
    (hcopies : CopiesEnd (reach server metrics redis before) a.instance_ key ends)
    (hafter : Withholds server key now (reach server metrics redis (before ++ [a])) after)
    {env : Surroundings} (hreads : env.Reads (now ≤ ·)) {i : ι}
    (hends : i ≠ a.instance_ → ends i ≤ env.l1 0) :
    (LayeredCacheRepository.getIn server.client env key
      ((reach server metrics redis (before ++ a :: after)).repositories.tiers i)).2 = none := by
  refine (allGone_of_removes ha hcopies hafter).getIn_eq_none hreads ?_
  by_cases hi : i = a.instance_
  · rw [hi, Function.update_self]
    exact hreads.l1 0
  · rw [Function.update_of_ne hi]
    exact hends hi

/-- What one instance has deleted, none answers with any more: the instance itself at once, the
others when their copies have expired, and whatever becomes of Redis, until it is set again. -/
theorem notFound_of_removes {key : String} (hkey : WellFormedKey key)
    (ha : Removes server (reach server metrics redis before) a (trim key) now)
    (hcopies : CopiesEnd (reach server metrics redis before) a.instance_ (trim key) ends)
    (hafter : Withholds server (trim key) now (reach server metrics redis (before ++ [a])) after)
    {request : HttpRequest V} (hrequest : request.IsFor "GET" key) {ctx : Context Surroundings}
    (hreads : ctx.env.Reads (now ≤ ·)) {i : ι}
    (hends : i ≠ a.instance_ → ends i ≤ ctx.env.l1 0) :
    (act server (reach server metrics redis (before ++ a :: after)) ⟨i, .request request ctx⟩).2 =
      some (failed (.notFoundError ("Cache entry '" ++ key ++ "' not found"))) :=
  (respond_get hrequest ctx _ i).trans (congrArg some
    (CacheController.get_of_none hkey
      (getIn_eq_none_of_removes ha hcopies hafter hreads hends)))

/-- Put at one instance and deleted at the other one. When its copy has expired, the first does
not find it again, even without Redis. -/
theorem notFound_of_removes_two :
    let put : ClusterAction Bool String := ⟨false, .request (.ofPut "a" "x") (.whenRedis true)⟩
    let delete : ClusterAction Bool String := ⟨true, .request (.ofDelete "a") (.whenRedis true)⟩
    let later : Conditions := ⟨⟨62000, by decide⟩, false, fun _ => .none⟩
    let get : ClusterAction Bool String := ⟨false, .request (.ofGet "a")
      ⟨later.surroundings, later.now, later.clock, 0, false⟩⟩
    (act LayeredServer.ofTwoPlaces (twoInstances ([put] ++ delete :: [])) get).2.map
      HttpResponse.status = some (.number 404) := by
  intro put delete later get
  have hdelete : (HttpRequest.ofDelete "a").IsFor "DELETE" "a" :=
    HttpRequest.isFor_ofKey _ (by decide) _
  have hrequest : (HttpRequest.ofGet "a").IsFor "GET" "a" := HttpRequest.isFor_ofKey _ (by decide) _
  have hremoves : Removes LayeredServer.ofTwoPlaces (twoInstances [put]) delete (trim "a")
      .oneSecond := removes_of_delete hdelete (by decide) rfl (by decide) _ true
  have hcopy : ∀ entry ∈ ((twoInstances [put]).instances false).proxy.repository.entryAt (trim "a"),
      entry.isExpired later.now = true := by
    decide +kernel
  have hcopies : CopiesEnd (twoInstances [put]) true (trim "a") fun _ => later.now := by
    intro j hj entry hentry
    obtain rfl : j = false := Bool.eq_false_of_not_eq_true hj
    exact hcopy entry hentry
  have hwithholds : Withholds LayeredServer.ofTwoPlaces (trim "a") .oneSecond
      (twoInstances ([put] ++ [delete])) [] := fun call h => (by cases h)
  have hreads : later.surroundings.Reads (Time.oneSecond ≤ ·) :=
    Conditions.reads_surroundings (by decide)
  have hresponse : (act LayeredServer.ofTwoPlaces (twoInstances ([put] ++ delete :: []))
      get).2 = _ :=
    notFound_of_removes (by decide) hremoves hcopies hwithholds hrequest hreads fun _ => le_rfl
  exact congrArg (Option.map HttpResponse.status) hresponse

/-- A page that one instance has deleted is fetched anew. -/
theorem fetch_of_removes {request : HttpRequest V} {proxied : ProxyRequest}
    (hrequest : request.IsProxied proxied)
    (htarget : ProxyCacheService.validateTarget server.platform server.upstreamConfig
      proxied.targetUrl = .ok ())
    (hcacheable : ProxyCacheService.isCacheable proxied = true)
    (hkey : ProxyCacheService.key server.platform proxied = key)
    (ha : Removes server (reach server metrics redis before) a key now)
    (hcopies : CopiesEnd (reach server metrics redis before) a.instance_ key ends)
    (hafter : Withholds server key now (reach server metrics redis (before ++ [a])) after)
    {ctx : Context Surroundings} (hreads : ctx.env.Reads (now ≤ ·)) {i : ι}
    (hends : i ≠ a.instance_ → ends i ≤ ctx.env.l1 0) :
    let s := reach server metrics redis (before ++ a :: after)
    let asked := act server s ⟨i, .request request ctx⟩
    (asked.1.instances i).waiting = (s.instances i).waiting ++ [some ⟨proxied, ctx.start⟩] ∧
      asked.2 = none := by
  intro s asked
  subst hkey
  have hmissed : ((LayeredCacheRepository.repository server.client server.config
      server.regExp).interface.get ctx.env (ProxyCacheService.key server.platform proxied)
        (s.gateway i).proxy.repository).2 = none :=
    getIn_eq_none_of_removes ha hcopies hafter hreads hends
  obtain ⟨hwaiting, hresponse⟩ :=
    Server.respond_of_missed server.config hrequest htarget hcacheable ctx hmissed
  refine ⟨?_, hresponse⟩
  simp only [asked, act, Function.update_self]
  exact hwaiting

/-- Fetched by one instance, deleted at the other one and asked of it. -/
theorem fetch_of_removes_two :
    let page : HttpAction Surroundings String := .request (.ofPage "http://h/x") (.whenRedis true)
    let depart : ClusterAction Bool String := ⟨false, .depart 0
      ⟨ProxyCacheService.target "page", .oneSecond, (Context.whenRedis true).env⟩⟩
    let delete : ClusterAction Bool String :=
      ⟨true, .request (.ofDelete "GET:http://h/x") (.whenRedis true)⟩
    ((act LayeredServer.ofTwoPlaces (twoInstances ([⟨false, page⟩, depart] ++ delete :: []))
      ⟨true, page⟩).1.instances true).waiting.length = 1 := by
  intro page depart delete
  have hdelete : (HttpRequest.ofDelete "GET:http://h/x").IsFor "DELETE" "GET:http://h/x" :=
    HttpRequest.isFor_ofKey _ (by decide) _
  have hkey : ProxyCacheService.key LayeredServer.ofTwoPlaces.platform
      (ProxyCacheService.pageRequest "http://h/x" [] none) = trim "GET:http://h/x" := by
    decide +kernel
  have hremoves : Removes LayeredServer.ofTwoPlaces (twoInstances [⟨false, page⟩, depart]) delete
      (trim "GET:http://h/x") .oneSecond :=
    removes_of_delete hdelete (by decide +kernel) rfl (by decide) _ true
  have hcopy : ∀ entry ∈ ((twoInstances [⟨false, page⟩, depart]).instances
      false).proxy.repository.entryAt (trim "GET:http://h/x"),
        entry.isExpired ⟨62000, by decide⟩ = true := by
    decide +kernel
  have hcopies : CopiesEnd (twoInstances [⟨false, page⟩, depart]) true (trim "GET:http://h/x")
      fun _ => ⟨62000, by decide⟩ := by
    intro j hj entry hentry
    obtain rfl : j = false := Bool.eq_false_of_not_eq_true hj
    exact hcopy entry hentry
  have hwithholds : Withholds LayeredServer.ofTwoPlaces (trim "GET:http://h/x") .oneSecond
      (twoInstances ([⟨false, page⟩, depart] ++ [delete])) [] := fun call h => (by cases h)
  obtain ⟨hwaiting, -⟩ := fetch_of_removes (HttpRequest.isProxied_ofPage "http://h/x")
    (by decide +kernel) (by decide +kernel) hkey hremoves hcopies hwithholds
    (reads_whenRedis le_rfl true) (i := true) fun h => absurd rfl h
  exact (congrArg List.length hwaiting).trans (by decide +kernel)

end ServerCluster

end EdgeCache
