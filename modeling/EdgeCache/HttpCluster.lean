import EdgeCache.HttpExpiry
import EdgeCache.HttpInstances
import EdgeCache.LayeredDeadlines

/-!
The service as several instances over one Redis. Each has a memory tier, metrics and waiting
requests of its own; requests and answers of targets come to any of them in any order. The
repositories of the instances go through the calls as a cluster of repositories does. What one
instance has stored, all of them answer with; and whatever becomes of Redis, none answers with
what was stored too long ago.
-/
namespace EdgeCache

variable {V : Type}

/-- The instances without Redis, and the Redis they share. -/
structure ServerCluster (ι V : Type) where
  instances : ι → Gateway (MemoryCacheRepository V)
  redis : Database V

/-- An action of one of the instances. -/
structure ClusterAction (ι V : Type) where
  instance_ : ι
  action : HttpAction Surroundings V

namespace ServerCluster

variable {ι : Type} [DecidableEq ι] (server : LayeredServer V)

def gateway (s : ServerCluster ι V) (i : ι) : Gateway (Tiers V) :=
  let g := s.instances i
  ⟨⟨⟨g.proxy.repository, s.redis⟩, g.proxy.metrics⟩, g.waiting⟩

def act (s : ServerCluster ι V) (a : ClusterAction ι V) :
    ServerCluster ι V × Option (HttpResponse V) :=
  let (g, response) := server.act (s.gateway a.instance_) (.here a.action)
  let memory := ⟨⟨g.proxy.repository.l1, g.proxy.metrics⟩, g.waiting⟩
  (⟨Function.update s.instances a.instance_ memory, g.proxy.repository.redis⟩, response)

def step (s : ServerCluster ι V) (a : ClusterAction ι V) : ServerCluster ι V := (act server s a).1

/-- Each instance has been started at its own time, and Redis may have something in it. -/
def initial (metrics : ι → Metrics) (redis : Database V) : ServerCluster ι V :=
  ⟨fun i => ⟨⟨.new server.config, metrics i⟩, []⟩, redis⟩

def reach (metrics : ι → Metrics) (redis : Database V) (actions : List (ClusterAction ι V)) :
    ServerCluster ι V :=
  Runs.run (step server) (initial server metrics redis) actions

/-- The call that an action makes of the repository of its instance. -/
def callOf (s : ServerCluster ι V) (a : ClusterAction ι V) : Option (ClusterCall ι V) :=
  (server.callOf (s.gateway a.instance_) (.here a.action)).map fun call =>
    ⟨a.instance_, call.2, call.1⟩

/-- The calls of the actions that follow a state. -/
def callsFrom (s : ServerCluster ι V) (actions : List (ClusterAction ι V)) :
    List (ClusterCall ι V) :=
  Runs.observed (step server) (callOf server) s actions

def repositories (s : ServerCluster ι V) : Cluster ι V :=
  ⟨fun i => (s.instances i).proxy.repository, s.redis⟩

theorem drives : Runs.Drives (step server)
    (Cluster.stepIn server.client server.config server.regExp) (callOf server)
    (repositories : ServerCluster ι V → Cluster ι V) := by
  intro s a
  have hcall := Server.drives
    (LayeredCacheRepository.repository server.client server.config server.regExp)
    server.platform server.config server.upstreamConfig server.reader (s.gateway a.instance_)
    a.action
  have hstep : (step server s a).repositories =
      ⟨Function.update s.repositories.l1 a.instance_
        (server.step (s.gateway a.instance_) (.here a.action)).proxy.repository.l1,
        (server.step (s.gateway a.instance_) (.here a.action)).proxy.repository.redis⟩ := by
    refine congrArg (Cluster.mk · _) (funext fun i => ?_)
    by_cases hi : i = a.instance_
    · subst hi
      simp only [step, act, Function.update_self]
      rfl
    · simp only [step, act, Function.update_of_ne hi]
      rfl
  have hrepository : (server.step (s.gateway a.instance_) (.here a.action)).proxy.repository =
      (server.callOf (s.gateway a.instance_) (.here a.action)).elim (s.repositories.tiers a.instance_)
        ((LayeredCacheRepository.repository server.client server.config server.regExp).after
          (s.repositories.tiers a.instance_)) := hcall
  rw [hstep, hrepository, callOf]
  cases server.callOf (s.gateway a.instance_) (.here a.action) with
  | none =>
    rw [Option.map_none, Option.elim_none, Option.elim_none]
    exact congrArg (Cluster.mk · _) (Function.update_eq_self _ _)
  | some call => rfl

theorem repositories_reach (metrics : ι → Metrics) (redis : Database V)
    (actions : List (ClusterAction ι V)) :
    (reach server metrics redis actions).repositories =
      Cluster.reachIn server.client server.config server.regExp redis
        (callsFrom server (initial server metrics redis) actions) :=
  (drives server).run (initial server metrics redis) actions

/-- The action sets the key everywhere: Redis carries the set out, and the other instances have
nothing older that is still served. -/
def Shares (s : ServerCluster ι V) (a : ClusterAction ι V) (key : String) (value : V)
    (seconds : ℕ) (start : Time) : Prop :=
  ∃ env options, callOf server s a = some ⟨a.instance_, .set key value options, env⟩ ∧
    SetsForAll server.config key options seconds start env ∧
    ∀ j, j ≠ a.instance_ → ∀ entry, (s.instances j).proxy.repository.entryAt key = some entry →
      ServesAtMost value start entry

/-- The action falls into the time of the set, and neither takes the key out of Redis nor brings
another value. -/
def Spares (key : String) (value : V) (seconds : ℕ) (start : Time) (s : ServerCluster ι V)
    (a : ClusterAction ι V) : Prop :=
  ∀ call, callOf server s a = some call →
    Cluster.Admits server.client server.config server.regExp key value start
      (start.val + seconds * 1000) s.repositories call

variable {server} {metrics : ι → Metrics} {redis : Database V} {key : String} {value : V}
  {seconds : ℕ} {start : Time} {before after : List (ClusterAction ι V)} {a : ClusterAction ι V}

theorem reach_concat (actions : List (ClusterAction ι V)) (a : ClusterAction ι V) :
    reach server metrics redis (actions ++ [a]) =
      step server (reach server metrics redis actions) a :=
  Runs.run_append _ _ actions [a]

theorem callsFrom_append_cons {call : ClusterCall ι V}
    (ha : callOf server (reach server metrics redis before) a = some call) :
    callsFrom server (initial server metrics redis) (before ++ a :: after) =
      callsFrom server (initial server metrics redis) before ++
        call :: callsFrom server (reach server metrics redis (before ++ [a])) after := by
  rw [callsFrom, Runs.observed_append, reach_concat]
  exact congrArg _ (Runs.observed_cons_of_some ha after)

theorem exists_of_mem_callsFrom {actions : List (ClusterAction ι V)} {call : ClusterCall ι V}
    (h : call ∈ callsFrom server (initial server metrics redis) actions) :
    ∃ before a after, actions = before ++ a :: after ∧
      callOf server (reach server metrics redis before) a = some call := by
  obtain ⟨earlier, later, hcalls⟩ := List.append_of_mem h
  obtain ⟨before, a, after, hactions, -, ha, -⟩ := Runs.exists_of_observed_eq hcalls
  exact ⟨before, a, after, hactions, ha⟩

omit [DecidableEq ι] in
theorem of_callOf {s : ServerCluster ι V} {call : ClusterCall ι V}
    (h : callOf server s a = some call) :
    call.instance_ = a.instance_ ∧ call.call.op.IsRouted := by
  obtain ⟨⟨env, op⟩, hcall, rfl⟩ := Option.map_eq_some_iff.mp h
  exact ⟨rfl, Server.routed_of_callOf hcall⟩

theorem respond_get {request : HttpRequest V} {key : String} (hrequest : request.IsFor "GET" key)
    (ctx : Context Surroundings) (s : ServerCluster ι V) (i : ι) :
    (act server s ⟨i, .request request ctx⟩).2 = some (CacheController.get
      (LayeredCacheRepository.repository server.client server.config server.regExp) ctx key
      (s.repositories.tiers i)).2 :=
  Server.respond_get (LayeredCacheRepository.repository server.client server.config server.regExp)
    server.platform server.config server.upstreamConfig hrequest ctx (s.gateway i)

/-! ### What one instance has stored -/

omit [DecidableEq ι] in
/-- The call that a valid request to set an entry makes. -/
theorem callOf_put {request : HttpRequest V} {key : String} (hrequest : request.IsFor "PUT" key)
    {body : RequestBody V} (hbody : request.body = some body) (hkey : WellFormedKey key)
    (hvalue : body.value = some value) {ttl : Option JsNumber}
    (httl : SetCacheUseCase.validTtl body.ttl = .ok ttl) (ctx : Context Surroundings)
    (s : ServerCluster ι V) (i : ι) :
    callOf server s ⟨i, .request request ctx⟩ =
      some ⟨i, .set (trim key) value (SetCacheUseCase.options server.config
        ⟨key, body.value, body.ttl, body.tags, body.metadata, body.ifNotExists⟩ ttl), ctx.env⟩ := by
  rw [callOf, LayeredServer.callOf, Server.callOf_put hrequest hbody hkey hvalue httl]
  rfl

omit [DecidableEq ι] in
/-- A valid request to set an entry, unless it is conditional, sets it everywhere when Redis
answers and the other instances have nothing older. -/
theorem shares_of_put {request : HttpRequest V} {key : String} (hrequest : request.IsFor "PUT" key)
    {body : RequestBody V} (hbody : request.body = some body) (hkey : WellFormedKey key)
    (hvalue : body.value = some value) {ttl : Option JsNumber}
    (httl : SetCacheUseCase.validTtl body.ttl = .ok ttl)
    (hseconds : ttl.getD (.ofNat server.config.cacheDefaultTtl) = .ofNat seconds)
    (hfree : body.ifNotExists = false) (htags : ∀ tag ∈ body.tags.getD [], tagKey tag ≠ trim key)
    {ctx : Context Surroundings} (hsound : ctx.env.Sound)
    (hreads : ctx.env.Reads fun now => start ≤ now ∧ now.val + seconds * 1000 ≤ maxTime)
    {s : ServerCluster ι V} {i : ι} (hothers : ∀ j, j ≠ i → ∀ entry,
      (s.instances j).proxy.repository.entryAt (trim key) = some entry →
      ServesAtMost value start entry) :
    Shares server s ⟨i, .request request ctx⟩ (trim key) value seconds start := by
  refine ⟨ctx.env, _, callOf_put hrequest hbody hkey hvalue httl ctx s i, ?_, hothers⟩
  exact ⟨hfree, hseconds, (le_of_validTtl httl hseconds).1, htags, hsound, hreads⟩

omit [DecidableEq ι] in
theorem shares_of_depart {s : ServerCluster ι V} {i : ι} {n : ℕ} {w : Waiting}
    (hw : (s.instances i).waiting[n]? = some (some w)) {departure : Departure Surroundings}
    {answer : UpstreamAnswer V}
    (hanswer : ProxyCacheService.fetchUpstream server.platform server.upstreamConfig server.reader
      departure.upstream w.request = .ok answer)
    (hstored : ProxyCacheService.isStored w.request answer = true) (hpos : 0 < seconds)
    (hseconds : w.request.cacheTtl.getD (.ofNat server.config.cacheDefaultTtl) = .ofNat seconds)
    (htags : ∀ tag ∈ w.request.cacheTags.getD [],
      tagKey tag ≠ ProxyCacheService.key server.platform w.request)
    (hsound : departure.env.Sound)
    (hreads : departure.env.Reads fun now => start ≤ now ∧ now.val + seconds * 1000 ≤ maxTime)
    (hothers : ∀ j, j ≠ i → ∀ entry, (s.instances j).proxy.repository.entryAt
      (ProxyCacheService.key server.platform w.request) = some entry →
      ServesAtMost answer.body start entry) :
    Shares server s ⟨i, .depart n departure⟩ (ProxyCacheService.key server.platform w.request)
      answer.body seconds start := by
  have hw' : (s.gateway i).waiting[n]? = some (some w) := hw
  have hcall : callOf server s ⟨i, .depart n departure⟩ =
      some ⟨i, .set (ProxyCacheService.key server.platform w.request) answer.body
        (ProxyCacheService.storedOptions server.config w.request answer), departure.env⟩ := by
    simp only [callOf, LayeredServer.callOf, Server.callOf, hw', Server.departOp, hanswer, hstored,
      ↓reduceIte, Option.map_some]
  exact ⟨departure.env, _, hcall, ⟨rfl, hseconds, hpos, htags, hsound, hreads⟩, hothers⟩

theorem agreeing_of_shares
    (ha : Shares server (reach server metrics redis before) a key value seconds start)
    (hafter : Runs.Guarded (step server) (Spares server key value seconds start)
      (reach server metrics redis (before ++ [a])) after) (i : ι) :
    Agreeing server.client server.config key value start (start.val + seconds * 1000)
      ((reach server metrics redis (before ++ a :: after)).repositories.tiers i) := by
  obtain ⟨env, options, hcall, hset, hothers⟩ := ha
  have hlater := ((drives server).guarded_iff _ after).mpr hafter
  have hshown : ∀ j, ((Cluster.reachIn server.client server.config server.regExp redis
      (callsFrom server (initial server metrics redis) before)).l1 j) =
        ((reach server metrics redis before).instances j).proxy.repository := fun j => by
    rw [← repositories_reach]
    rfl
  have hbefore : (reach server metrics redis (before ++ [a])).repositories =
      Cluster.reachIn server.client server.config server.regExp redis
        (callsFrom server (initial server metrics redis) before ++
          [⟨a.instance_, .set key value options, env⟩]) := by
    rw [repositories_reach, callsFrom_append_cons hcall]
    rfl
  rw [hbefore] at hlater
  rw [repositories_reach, callsFrom_append_cons hcall]
  refine Cluster.allAgreeing_of_set hset (fun j hj entry hentry => ?_) hlater i
  rw [hshown] at hentry
  exact hothers j hj entry hentry

/-- What one instance has stored is what every instance answers a request for the key with, up
to the deadline: whatever the requests in between do besides, and whatever becomes of Redis
while they do it. -/
theorem get_of_shares {key : String} (hkey : WellFormedKey key)
    (ha : Shares server (reach server metrics redis before) a (trim key) value seconds start)
    (hafter : Runs.Guarded (step server) (Spares server (trim key) value seconds start)
      (reach server metrics redis (before ++ [a])) after)
    {request : HttpRequest V} (hrequest : request.IsFor "GET" key) {ctx : Context Surroundings}
    (hsound : ctx.env.Sound)
    (hreads : ctx.env.Reads (Within start (start.val + seconds * 1000))) (i : ι) :
    ∃ entry, entry.value = value ∧
      (act server (reach server metrics redis (before ++ a :: after)) ⟨i, .request request ctx⟩).2 =
        some ⟨.number 200, [.xCache true,
            .xCacheAge (entry.createdAt.secondsSince (ctx.clock 0)),
            .xCacheTtl (entry.remainingTtl (ctx.clock 1))],
          .entry ⟨entry, entry.createdAt.secondsSince (ctx.clock 0),
            entry.remainingTtl (ctx.clock 1)⟩⟩ := by
  obtain ⟨entry, hentry, hvalue⟩ := (agreeing_of_shares ha hafter i).getIn hsound hreads
  exact ⟨entry, hvalue, (respond_get hrequest ctx _ i).trans
    (congrArg some (CacheController.get_of_some hkey hentry))⟩

/-- Two instances with two places each, over one Redis. -/
def twoInstances (actions : List (ClusterAction Bool String)) : ServerCluster Bool String :=
  reach LayeredServer.ofTwoPlaces (fun _ => .new .oneSecond) (fun _ => none) actions

theorem sound_whenRedis : (Context.whenRedis true).env.Sound := ⟨rfl, fun _ => rfl⟩

theorem reads_whenRedis {read : Time → Prop} (h : read .oneSecond) (up : Bool) :
    (Context.whenRedis up).env.Reads read :=
  Conditions.reads_surroundings h

/-- Put at one instance, and read at the other one. -/
theorem get_of_shares_two :
    let put : ClusterAction Bool String := ⟨false, .request (.ofPut "a" "x") (.whenRedis true)⟩
    (act LayeredServer.ofTwoPlaces (twoInstances ([] ++ put :: [])) ⟨true, .request (.ofGet "a")
      (.whenRedis true)⟩).2.map HttpResponse.status = some (.number 200) := by
  intro put
  have hput : (HttpRequest.ofPut "a" "x").IsFor "PUT" "a" := HttpRequest.isFor_ofKey _ (by decide) _
  have hrequest : (HttpRequest.ofGet "a").IsFor "GET" "a" := HttpRequest.isFor_ofKey _ (by decide) _
  have hshares : Shares LayeredServer.ofTwoPlaces (twoInstances []) put (trim "a") "x" 60
      .oneSecond :=
    shares_of_put hput rfl (by decide) rfl rfl rfl rfl (fun _ h => (by cases h)) sound_whenRedis
      (reads_whenRedis ⟨le_rfl, by decide⟩ true)
      fun _ _ _ h => (HoldsAt.new Config.twoPlaces _ _).of_entryAt h
  have hspares : Runs.Guarded (step LayeredServer.ofTwoPlaces)
      (Spares LayeredServer.ofTwoPlaces (trim "a") "x" 60 .oneSecond) (twoInstances ([] ++ [put]))
      [] := trivial
  have hwithin : Within .oneSecond (Time.oneSecond.val + (60 : ℕ) * 1000) .oneSecond :=
    ⟨le_rfl, by decide⟩
  obtain ⟨entry, -, hresponse⟩ := get_of_shares (by decide) hshares hspares hrequest
    sound_whenRedis (reads_whenRedis hwithin true) true
  exact congrArg (Option.map HttpResponse.status) hresponse

/-- A page that one instance has fetched and stored is not fetched again: every instance answers
requests for it from the cache. -/
theorem replay_of_shares {request : HttpRequest V} {proxied : ProxyRequest}
    (hrequest : request.IsProxied proxied)
    (htarget : ProxyCacheService.validateTarget server.platform server.upstreamConfig
      proxied.targetUrl = .ok ())
    (hcacheable : ProxyCacheService.isCacheable proxied = true)
    (hkey : ProxyCacheService.key server.platform proxied = key)
    (ha : Shares server (reach server metrics redis before) a key value seconds start)
    (hafter : Runs.Guarded (step server) (Spares server key value seconds start)
      (reach server metrics redis (before ++ [a])) after)
    {ctx : Context Surroundings} (hsound : ctx.env.Sound)
    (hreads : ctx.env.Reads (Within start (start.val + seconds * 1000))) (i : ι) :
    let s := reach server metrics redis (before ++ a :: after)
    let answered := act server s ⟨i, .request request ctx⟩
    ∃ entry, entry.value = value ∧
      (answered.1.instances i).waiting = (s.instances i).waiting ∧
      answered.2 =
        some (ProxyController.respond (ProxyCacheService.replay ctx.start ctx.clock entry)) := by
  intro s answered
  subst hkey
  obtain ⟨entry, hentry, hvalue⟩ := (agreeing_of_shares ha hafter i).getIn hsound hreads
  have hfound : ((LayeredCacheRepository.repository server.client server.config
      server.regExp).interface.get ctx.env (ProxyCacheService.key server.platform proxied)
        (s.gateway i).proxy.repository).2 = some entry := hentry
  obtain ⟨hwaiting, hresponse⟩ :=
    Server.respond_of_found server.config hrequest htarget hcacheable ctx hfound
  refine ⟨entry, hvalue, ?_, hresponse⟩
  simp only [answered, act, Function.update_self]
  exact hwaiting

/-- Fetched by one instance, and asked of the other one. -/
theorem replay_of_shares_two :
    let arrive : ClusterAction Bool String :=
      ⟨false, .request (.ofPage "http://h/x") (.whenRedis true)⟩
    let depart : ClusterAction Bool String := ⟨false, .depart 0
      ⟨ProxyCacheService.target "page", .oneSecond, (Context.whenRedis true).env⟩⟩
    ∃ entry : CacheEntry String, entry.value = "page" ∧
      (act LayeredServer.ofTwoPlaces (twoInstances ([arrive] ++ depart :: []))
        ⟨true, .request (.ofPage "http://h/x") (.whenRedis true)⟩).2 =
        some (ProxyController.respond (ProxyCacheService.replay .oneSecond
          (Context.whenRedis true).clock entry)) := by
  intro arrive depart
  have hwaits : ((twoInstances [arrive]).instances false).waiting[0]? =
      some (some ⟨ProxyCacheService.pageRequest "http://h/x" [] none, .oneSecond⟩) := rfl
  have hanswer : ProxyCacheService.fetchUpstream LayeredServer.ofTwoPlaces.platform
      LayeredServer.ofTwoPlaces.upstreamConfig LayeredServer.ofTwoPlaces.reader
      (ProxyCacheService.target "page") (ProxyCacheService.pageRequest "http://h/x" [] none) =
      .ok ⟨200, [], "page"⟩ := rfl
  have hothers : ∀ j, j ≠ false → ∀ entry,
      ((twoInstances [arrive]).instances j).proxy.repository.entryAt
        (ProxyCacheService.key LayeredServer.ofTwoPlaces.platform
          (ProxyCacheService.pageRequest "http://h/x" [] none)) = some entry →
      ServesAtMost "page" .oneSecond entry := by
    intro j hj entry h
    obtain rfl : j = true := Bool.eq_true_of_not_eq_false hj
    exact (HoldsAt.new Config.twoPlaces _ _).of_entryAt h
  have hwithin : .oneSecond ≤ Time.oneSecond ∧ Time.oneSecond.val + (60 : ℕ) * 1000 ≤ maxTime :=
    ⟨le_rfl, by decide⟩
  have hshares : Shares LayeredServer.ofTwoPlaces (twoInstances [arrive]) depart
      (ProxyCacheService.key LayeredServer.ofTwoPlaces.platform
        (ProxyCacheService.pageRequest "http://h/x" [] none))
      (UpstreamAnswer.body ⟨200, [], "page"⟩) 60 .oneSecond :=
    shares_of_depart hwaits hanswer rfl (Nat.zero_lt_succ _) rfl (fun _ h => (by cases h))
      sound_whenRedis (reads_whenRedis hwithin true) hothers
  have hspares : Runs.Guarded (step LayeredServer.ofTwoPlaces)
      (Spares LayeredServer.ofTwoPlaces (ProxyCacheService.key LayeredServer.ofTwoPlaces.platform
        (ProxyCacheService.pageRequest "http://h/x" [] none)) "page" 60 .oneSecond)
      (twoInstances ([arrive] ++ [depart])) [] := trivial
  have hnow : Within .oneSecond (Time.oneSecond.val + (60 : ℕ) * 1000) .oneSecond :=
    ⟨le_rfl, by decide⟩
  obtain ⟨entry, hvalue, -, hresponse⟩ := replay_of_shares
    (HttpRequest.isProxied_ofPage "http://h/x") (by decide +kernel) (by decide +kernel) rfl hshares
    hspares sound_whenRedis (reads_whenRedis hnow true) true
  exact ⟨entry, hvalue, hresponse⟩

/-! ### What is stored too long ago -/

/-- An entry that any instance answers a request for a key with was set by a request or an
answer of a target at one of them, no longer ago than it was to last and two calls may take. -/
theorem set_in_time_of_get {actions : List (ClusterAction ι V)} {key : String} {duration : ℕ}
    (hredis : DocumentAt server.client (trim key) (fun _ => False) redis)
    (htakes : ∀ call ∈ callsFrom server (initial server metrics redis) actions,
      call.call.env.Takes duration)
    (httl : ∀ call ∈ callsFrom server (initial server metrics redis) actions,
      ∀ value options, call.call.op.Puts (trim key) value options →
        ∃ n : ℕ, options.ttlOr (.ofNat server.config.cacheDefaultTtl) = .ofNat n)
    {request : HttpRequest V} (hrequest : request.IsFor "GET" key) {ctx : Context Surroundings}
    (hctx : ctx.env.Takes duration) {i : ι} {status : StatusCode} {headers : List ResponseHeader}
    {output : GetCacheOutput V}
    (hresponse : (act server (reach server metrics redis actions) ⟨i, .request request ctx⟩).2 =
      some ⟨status, headers, .entry output⟩) :
    ∃ before a after env value options, ∃ n : ℕ, actions = before ++ a :: after ∧
      callOf server (reach server metrics redis before) a =
        some ⟨a.instance_, .set (trim key) value options, env⟩ ∧
      options.ttlOr (.ofNat server.config.cacheDefaultTtl) = .ofNat n ∧
      output.entry.content = options.content value ∧
      (ctx.env.l1 0).val ≤ (env.l1 0).val + n * 1000 + (duration + duration) := by
  have hget := CacheController.get_eq_entry
    (Option.some.inj ((respond_get hrequest ctx _ i).symm.trans hresponse))
  rw [repositories_reach] at hget
  obtain ⟨t, ⟨call, hmem, value, options, n, hputs, hn, hcontent, rfl⟩, hlate⟩ :=
    Cluster.putUntil_of_getIn hredis htakes httl hctx hget
  obtain ⟨before, a, after, hactions, ha⟩ := exists_of_mem_callsFrom hmem
  obtain ⟨hinstance, hrouted⟩ := of_callOf ha
  obtain ⟨j, op, env⟩ := call
  obtain rfl : j = a.instance_ := hinstance
  refine ⟨before, a, after, env, value, options, n, hactions, ?_, hn, hcontent, hlate⟩
  cases op with
  | set key' value' options' =>
    obtain ⟨rfl, rfl, rfl⟩ := hputs
    exact ha
  | mset entries => exact hrouted.elim
  | _ => exact hputs.elim

/-- Put at one instance, and read at the other one, at the same moment. -/
theorem set_in_time_of_get_two :
    let put : ClusterAction Bool String := ⟨false, .request (.ofPut "a" "x") (.whenRedis true)⟩
    ∃ before a after env value options, ∃ n : ℕ, [put] = before ++ a :: after ∧
      callOf LayeredServer.ofTwoPlaces (twoInstances before) a =
        some ⟨a.instance_, .set "a" value options, env⟩ ∧ value = "x" ∧
      1000 ≤ (env.l1 0).val + n * 1000 := by
  intro put
  have hput : (HttpRequest.ofPut "a" "x").IsFor "PUT" "a" := HttpRequest.isFor_ofKey _ (by decide) _
  have hrequest : (HttpRequest.ofGet "a").IsFor "GET" "a" := HttpRequest.isFor_ofKey _ (by decide) _
  have hcall : callOf LayeredServer.ofTwoPlaces (twoInstances []) put = _ :=
    callOf_put hput rfl (by decide) rfl rfl (.whenRedis true) (twoInstances []) false
  have hcalls : callsFrom LayeredServer.ofTwoPlaces (twoInstances []) [put] = _ :=
    Runs.observed_cons_of_some hcall []
  have hread : ((LayeredCacheRepository.repository LayeredServer.ofTwoPlaces.client
      LayeredServer.ofTwoPlaces.config LayeredServer.ofTwoPlaces.regExp).interface.get
        (Context.whenRedis true).env "a" ((twoInstances [put]).repositories.tiers true)).2.map
          CacheEntry.value = some "x" := by
    decide +kernel
  obtain ⟨entry, hentry, hvalue⟩ := Option.map_eq_some_iff.mp hread
  have hresponse := (respond_get hrequest (.whenRedis true) (twoInstances [put]) true).trans
    (congrArg some (CacheController.get_of_some (by decide) hentry))
  have htakes : ∀ up, (Context.whenRedis up).env.Takes 0 :=
    fun up => ⟨.oneSecond, reads_whenRedis ⟨le_rfl, by decide⟩ up⟩
  obtain ⟨before, a, after, env, value, options, n, hactions, ha, -, hcontent, hlate⟩ :=
    set_in_time_of_get (fun _ _ h => (by cases h))
      (fun call h => by
        obtain rfl := List.mem_singleton.mp (hcalls ▸ h)
        exact htakes true)
      (fun call h value options hputs => by
        obtain rfl := List.mem_singleton.mp (hcalls ▸ h)
        obtain ⟨-, -, rfl⟩ := hputs
        exact ⟨60, rfl⟩) hrequest (htakes true) hresponse
  have hnow : ((Context.whenRedis true).env.l1 0).val = 1000 := rfl
  refine ⟨before, a, after, env, value, options, n, hactions, ha,
    (congrArg Content.value hcontent).symm.trans hvalue, ?_⟩
  omega

end ServerCluster

end EdgeCache
