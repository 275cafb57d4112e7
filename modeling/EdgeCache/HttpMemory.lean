import EdgeCache.HttpRequests
import EdgeCache.MemoryWorkingSet

/-!
What clients may rely on without Redis. An entry that a request for a key is answered with is
what the last request or target has put there, and nobody has removed it since; and what has
been put there is served up to its deadline, while the keys in use besides it are fewer than
the memory tier holds. Requests of all kinds, answers of targets and sweeps may come in
between in any order.
-/
namespace EdgeCache

variable {V : Type}

/-! ### The server without Redis -/

/-- What the server is started with when there is no Redis. -/
structure MemoryServer (V : Type) where
  regExp : RegExp
  platform : Platform
  config : Config
  upstreamConfig : UpstreamConfig
  reader : BodyReader V
  metrics : Metrics

namespace MemoryServer

variable (server : MemoryServer V)

def act (g : Gateway (MemoryCacheRepository V)) (a : HttpAction Clock V) :
    Gateway (MemoryCacheRepository V) × Option (HttpResponse V) :=
  Server.act (MemoryCacheRepository.repository server.regExp) server.platform server.config
    server.upstreamConfig server.reader g a

def step (g : Gateway (MemoryCacheRepository V)) (a : HttpAction Clock V) :
    Gateway (MemoryCacheRepository V) :=
  (server.act g a).1

def start : Gateway (MemoryCacheRepository V) := ⟨⟨.new server.config, server.metrics⟩, []⟩

def reach (actions : List (HttpAction Clock V)) : Gateway (MemoryCacheRepository V) :=
  Runs.run server.step server.start actions

def eventOf (g : Gateway (MemoryCacheRepository V)) (a : HttpAction Clock V) : Option (Event V) :=
  (Server.callOf server.platform server.config server.upstreamConfig server.reader g a).map
    fun call => ⟨call.2, call.1⟩

/-- The calls of the actions that follow a state. -/
def eventsFrom (g : Gateway (MemoryCacheRepository V)) (actions : List (HttpAction Clock V)) :
    List (Event V) :=
  Runs.observed server.step server.eventOf g actions

/-- The action puts a value under a key: a request to set it, or an answer of a target. -/
def Stores (g : Gateway (MemoryCacheRepository V)) (a : HttpAction Clock V) (key : String)
    (clock : Clock) (value : V) (options : SetOptions) : Prop :=
  server.eventOf g a = some ⟨.set key value options, clock⟩ ∧
    g.proxy.repository.suppressed clock key options = false

/-- The action neither removes nor replaces what is under the key. -/
def Spares (key : String) (g : Gateway (MemoryCacheRepository V)) (a : HttpAction Clock V) : Prop :=
  ∀ e, server.eventOf g a = some e →
    MemoryCacheRepository.Spares server.regExp key g.proxy.repository e

def readsFrom (key : String) (g : Gateway (MemoryCacheRepository V))
    (actions : List (HttpAction Clock V)) : ℕ :=
  (server.eventsFrom g actions).countP (MemoryCacheRepository.readsKey key)

/-- The other keys that the actions after a state touch. -/
def othersFrom (key : String) (g : Gateway (MemoryCacheRepository V))
    (actions : List (HttpAction Clock V)) : Finset String :=
  MemoryCacheRepository.workingSet server.regExp g.proxy.repository key
    (server.eventsFrom g actions)

theorem drives : Runs.Drives server.step (MemoryCacheRepository.step server.regExp)
    server.eventOf fun g => g.proxy.repository := by
  intro g a
  have hcall := Server.drives (MemoryCacheRepository.repository server.regExp) server.platform
    server.config server.upstreamConfig server.reader g a
  refine hcall.trans ?_
  unfold eventOf
  cases Server.callOf server.platform server.config server.upstreamConfig server.reader g a <;> rfl

theorem repository_reach (actions : List (HttpAction Clock V)) :
    (server.reach actions).proxy.repository =
      MemoryCacheRepository.reach server.regExp server.config
        (server.eventsFrom server.start actions) :=
  server.drives.run server.start actions

theorem reach_append (before after : List (HttpAction Clock V)) :
    server.reach (before ++ after) = Runs.run server.step (server.reach before) after :=
  Runs.run_append _ _ before after

variable {server}

theorem expand_of_eventOf {g : Gateway (MemoryCacheRepository V)} {a : HttpAction Clock V}
    {e : Event V} (h : server.eventOf g a = some e) : e.expand = [e] := by
  obtain ⟨⟨clock, op⟩, hcall, rfl⟩ := Option.map_eq_some_iff.mp h
  have hrouted := Server.routed_of_callOf hcall
  cases op with
  | mget keys => exact hrouted.elim
  | mset entries => exact hrouted.elim
  | _ => rfl

theorem expand_of_mem_eventsFrom {g : Gateway (MemoryCacheRepository V)}
    {actions : List (HttpAction Clock V)} {e : Event V} (h : e ∈ server.eventsFrom g actions) :
    e.expand = [e] := by
  induction actions generalizing g with
  | nil => cases h
  | cons a rest ih =>
    rcases List.mem_append.mp h with hfirst | hrest
    · exact expand_of_eventOf (Option.mem_toList.mp hfirst)
    · exact ih hrest

theorem eventsFrom_append_cons {before after : List (HttpAction Clock V)} {a : HttpAction Clock V}
    {e : Event V} (ha : server.eventOf (server.reach before) a = some e) :
    server.eventsFrom server.start (before ++ a :: after) =
      server.eventsFrom server.start before ++
        e :: server.eventsFrom (server.reach (before ++ [a])) after := by
  rw [eventsFrom, Runs.observed_append, reach_append]
  exact congrArg _ (Runs.observed_cons_of_some ha after)

theorem exists_of_eventsFrom_eq {actions : List (HttpAction Clock V)} {earlier later : List (Event V)}
    {e : Event V} (h : server.eventsFrom server.start actions = earlier ++ e :: later) :
    ∃ before a after, actions = before ++ a :: after ∧
      server.eventsFrom server.start before = earlier ∧
      server.eventOf (server.reach before) a = some e ∧
      server.eventsFrom (server.reach (before ++ [a])) after = later :=
  Runs.exists_of_observed_eq h

theorem repository_reach_concat {before : List (HttpAction Clock V)} {a : HttpAction Clock V}
    {e : Event V} (ha : server.eventOf (server.reach before) a = some e) :
    (server.reach (before ++ [a])).proxy.repository =
      MemoryCacheRepository.reach server.regExp server.config
        (server.eventsFrom server.start before ++ [e]) := by
  rw [repository_reach, eventsFrom_append_cons ha]
  rfl

/-- A server with two places, for texts, and a moment to look at it. -/
def small : MemoryServer String where
  regExp := fun _ => none
  platform := .plain
  config := .twoPlaces
  upstreamConfig := ⟨[], 1000⟩
  reader := ProxyCacheService.plainReader
  metrics := .new .oneSecond

def moment (now : Time) : Context Clock := ⟨fun _ => now, now, fun _ => now, 0, false⟩

/-! ### Writes -/

theorem stores_of_depart {g : Gateway (MemoryCacheRepository V)} {i : ℕ} {w : Waiting}
    (hw : g.waiting[i]? = some (some w)) {departure : Departure Clock} {answer : UpstreamAnswer V}
    (hanswer : ProxyCacheService.fetchUpstream server.platform server.upstreamConfig server.reader
      departure.upstream w.request = .ok answer)
    (hstored : ProxyCacheService.isStored w.request answer = true) :
    server.Stores g (.depart i departure) (ProxyCacheService.key server.platform w.request)
      departure.env answer.body
      (ProxyCacheService.storedOptions server.config w.request answer) := by
  constructor
  · simp only [eventOf, Server.callOf, hw, Server.departOp, hanswer, hstored, ↓reduceIte,
      Option.map_some]
  · rfl

/-- A valid request to set an entry, if it is not conditional, puts the value under the trimmed
key. -/
theorem stores_of_put {request : HttpRequest V} {key : String} (hrequest : request.IsFor "PUT" key)
    {body : RequestBody V} (hbody : request.body = some body) (hkey : WellFormedKey key)
    {value : V} (hvalue : body.value = some value) {ttl : Option JsNumber}
    (httl : SetCacheUseCase.validTtl body.ttl = .ok ttl) (hfree : body.ifNotExists = false)
    (ctx : Context Clock) (g : Gateway (MemoryCacheRepository V)) :
    server.Stores g (.request request ctx) (trim key) ctx.env value
      (SetCacheUseCase.options server.config
        ⟨key, body.value, body.ttl, body.tags, body.metadata, body.ifNotExists⟩ ttl) := by
  constructor
  · rw [eventOf, Server.callOf_put hrequest hbody hkey hvalue httl]
    rfl
  · simp only [MemoryCacheRepository.suppressed, SetCacheUseCase.options, hfree, Bool.false_and]

/-! ### Reads -/

/-- An entry that a request for a key is answered with was put there by the last request or
target that put anything there, with the reads since and this one counted; nothing in between
has removed or replaced it, and it has not expired. -/
theorem stored_of_get {actions : List (HttpAction Clock V)} {request : HttpRequest V} {key : String}
    (hrequest : request.IsFor "GET" key) {ctx : Context Clock} {status : StatusCode}
    {headers : List ResponseHeader} {output : GetCacheOutput V}
    (hresponse : (server.act (server.reach actions) (.request request ctx)).2 =
      some ⟨status, headers, .entry output⟩) :
    ∃ before a after clock value options, actions = before ++ a :: after ∧
      server.Stores (server.reach before) a (trim key) clock value options ∧
      Runs.Guarded server.step (server.Spares (trim key)) (server.reach (before ++ [a])) after ∧
      output.entry = { MemoryView.newEntry server.config (clock 1) (trim key) value options with
        hitCount := server.readsFrom (trim key) (server.reach (before ++ [a])) after + 1 } ∧
      output.entry.isExpired (ctx.env 0) = false := by
  have hget := Server.respond_get (MemoryCacheRepository.repository server.regExp) server.platform
    server.config server.upstreamConfig hrequest ctx (server.reach actions)
  have hread : ((server.reach actions).proxy.repository.get ctx.env (trim key)).2 =
      some output.entry :=
    CacheController.get_eq_entry (Option.some.inj (hget.symm.trans hresponse))
  rw [repository_reach] at hread
  obtain ⟨v, hv, -⟩ := MemoryCacheRepository.ordered_reach server.regExp server.config
    (server.eventsFrom server.start actions)
  rw [MemoryCacheRepository.snd_get hv] at hread
  obtain ⟨entry, hentry, hhit⟩ := Option.map_eq_some_iff.mp hread
  obtain ⟨hstored, hfresh⟩ := Option.filter_eq_some_iff.mp hentry
  obtain ⟨stored, hits, hlast, rfl⟩ := MemoryCacheRepository.lastStored_of_entryAt server.regExp
    server.config (fun e he => expand_of_mem_eventsFrom he) hstored
  obtain ⟨earlier, later, clock, value, options, hevents, hnew, rfl, hspares, rfl⟩ := hlast
  obtain ⟨before, a, after, rfl, rfl, ha, rfl⟩ := exists_of_eventsFrom_eq hevents
  rw [← repository_reach_concat ha] at hspares
  refine ⟨before, a, after, clock, value, options, rfl, ⟨ha, ?_⟩, ?_, hhit.symm, ?_⟩
  · rw [repository_reach]
    exact hnew
  · exact (server.drives.guarded_iff _ after).mp hspares
  · rw [← hhit]
    exact (Bool.not_eq_eq_eq_not).mp hfresh

/-- The entry that was put there a moment ago. -/
theorem stored_of_get_small :
    let put : HttpAction Clock String := .request (.ofPut "a" "x") (moment ⟨1000, by decide⟩)
    ∃ before a after clock value options, [put] = before ++ a :: after ∧
      small.Stores (small.reach before) a "a" clock value options ∧ value = "x" := by
  intro put
  have hread : ((small.reach [put]).proxy.repository.get (fun _ => ⟨2000, by decide⟩)
      "a").2.map CacheEntry.value = some "x" := by
    decide +kernel
  obtain ⟨entry, hentry, hvalue⟩ := Option.map_eq_some_iff.mp hread
  have hrequest : (HttpRequest.ofGet "a").IsFor "GET" "a" := HttpRequest.isFor_ofKey _ (by decide) _
  have hresponse := (Server.respond_get (MemoryCacheRepository.repository small.regExp)
    small.platform small.config small.upstreamConfig hrequest (moment ⟨2000, by decide⟩)
    (small.reach [put])).trans (congrArg some (CacheController.get_of_some (by decide) hentry))
  obtain ⟨before, a, after, clock, value, options, hactions, hstores, -, houtput, -⟩ :=
    stored_of_get hrequest hresponse
  refine ⟨before, a, after, clock, value, options, hactions, hstores, ?_⟩
  rw [← hvalue]
  exact (congrArg CacheEntry.value houtput).symm

/-- What stays of a value until its deadline, unless the memory tier is too small for the keys
in use. -/
theorem read_of_stores {before after : List (HttpAction Clock V)} {a : HttpAction Clock V}
    {key : String} {clock : Clock} {value : V} {options : SetOptions}
    (ha : server.Stores (server.reach before) a key clock value options)
    (hspares : Runs.Guarded server.step (server.Spares key) (server.reach (before ++ [a])) after)
    (hfew : (server.othersFrom key (server.reach (before ++ [a])) after).card <
      server.config.cacheMaxMemoryEntries)
    (hfresh : ∀ e ∈ server.eventsFrom (server.reach (before ++ [a])) after, ∀ i,
      (MemoryView.newEntry server.config (clock 1) key value options).isExpired (e.clock i) = false)
    {clock' : Clock} (hnow :
      (MemoryView.newEntry server.config (clock 1) key value options).isExpired (clock' 0) = false) :
    ((server.reach (before ++ a :: after)).proxy.repository.get clock' key).2 =
      some { MemoryView.newEntry server.config (clock 1) key value options with
        hitCount := server.readsFrom key (server.reach (before ++ [a])) after + 1 } := by
  obtain ⟨hcall, hnew⟩ := ha
  rw [repository_reach] at hnew
  have hspares' := (server.drives.guarded_iff _ after).mpr hspares
  rw [othersFrom, repository_reach_concat hcall] at hfew
  rw [repository_reach_concat hcall] at hspares'
  rw [repository_reach, eventsFrom_append_cons hcall]
  exact MemoryCacheRepository.get_of_workingSet server.regExp server.config _ hnew
    (fun e he => expand_of_mem_eventsFrom he) hfew hspares' hfresh hnow

/-- A value that a request or a target has put under a key is what a later request for the key
is answered with, up to its deadline: nothing in between removes or replaces it, and the other
keys in use are fewer than fit. -/
theorem get_of_stores {before after : List (HttpAction Clock V)} {a : HttpAction Clock V}
    {key : String} (hkey : WellFormedKey key) {clock : Clock} {value : V} {options : SetOptions}
    (ha : server.Stores (server.reach before) a (trim key) clock value options)
    (hspares : Runs.Guarded server.step (server.Spares (trim key))
      (server.reach (before ++ [a])) after)
    (hfew : (server.othersFrom (trim key) (server.reach (before ++ [a])) after).card <
      server.config.cacheMaxMemoryEntries)
    (hfresh : ∀ e ∈ server.eventsFrom (server.reach (before ++ [a])) after, ∀ i,
      (MemoryView.newEntry server.config (clock 1) (trim key) value options).isExpired
        (e.clock i) = false)
    {request : HttpRequest V} (hrequest : request.IsFor "GET" key) (ctx : Context Clock)
    (hnow : (MemoryView.newEntry server.config (clock 1) (trim key) value options).isExpired
      (ctx.env 0) = false) :
    let entry := { MemoryView.newEntry server.config (clock 1) (trim key) value options with
      hitCount := server.readsFrom (trim key) (server.reach (before ++ [a])) after + 1 }
    let cacheAge := entry.createdAt.secondsSince (ctx.clock 0)
    let remainingTtl := entry.remainingTtl (ctx.clock 1)
    (server.act (server.reach (before ++ a :: after)) (.request request ctx)).2 =
      some ⟨.number 200, [.xCache true, .xCacheAge cacheAge, .xCacheTtl remainingTtl],
        .entry ⟨entry, cacheAge, remainingTtl⟩⟩ := by
  intro entry cacheAge remainingTtl
  have hget := Server.respond_get (MemoryCacheRepository.repository server.regExp) server.platform
    server.config server.upstreamConfig hrequest ctx (server.reach (before ++ a :: after))
  refine hget.trans (congrArg some ?_)
  exact CacheController.get_of_some hkey (read_of_stores ha hspares hfew hfresh hnow)

/-- Read on the last millisecond, after a sweep. -/
theorem get_of_stores_small :
    let now : Time := ⟨1000, by decide⟩
    let put : HttpAction Clock String := .request (.ofPut " a" "x") (moment now)
    let sweep : HttpAction Clock String := .sweep fun _ => now
    (small.act (small.reach ([] ++ put :: [sweep])) (.request (.ofGet " a")
      (moment ⟨61000, by decide⟩))).2.map HttpResponse.status = some (.number 200) := by
  intro now put sweep
  have hput : (HttpRequest.ofPut " a" "x").IsFor "PUT" " a" := HttpRequest.isFor_ofKey _ (by decide) _
  have hrequest : (HttpRequest.ofGet " a").IsFor "GET" " a" := HttpRequest.isFor_ofKey _ (by decide) _
  have hstores : small.Stores (small.reach []) put (trim " a") (fun _ => now) "x"
      (SetCacheUseCase.options small.config ⟨" a", some "x", none, none, none, false⟩ none) :=
    stores_of_put hput rfl (by decide) rfl rfl rfl (moment now) (small.reach [])
  have hspares : Runs.Guarded small.step (small.Spares (trim " a")) (small.reach ([] ++ [put]))
      [sweep] :=
    ⟨fun e he => (by cases he; trivial), trivial⟩
  have hfresh : (MemoryView.newEntry small.config now (trim " a") "x" (SetCacheUseCase.options
      small.config ⟨" a", some "x", none, none, none, false⟩ none)).isExpired now = false := by
    decide +kernel
  have hevents : small.eventsFrom (small.reach ([] ++ [put])) [sweep] =
      [⟨.sweep, fun _ => now⟩] := rfl
  have hget := get_of_stores (by decide) hstores hspares (by decide +kernel)
    (fun e he i => List.mem_singleton.mp (hevents ▸ he) ▸ hfresh) hrequest
    (moment ⟨61000, by decide⟩) (by decide +kernel)
  exact congrArg (Option.map HttpResponse.status) hget

/-- Up to its deadline an answer is not asked for again: a request of the proxy with the same key
is answered with it, and waits for nothing. -/
theorem replay_of_stores {before after : List (HttpAction Clock V)} {a : HttpAction Clock V}
    {request : HttpRequest V} {proxied : ProxyRequest} (hrequest : request.IsProxied proxied)
    (htarget : ProxyCacheService.validateTarget server.platform server.upstreamConfig
      proxied.targetUrl = .ok ())
    (hcacheable : ProxyCacheService.isCacheable proxied = true) {clock : Clock} {value : V}
    {options : SetOptions} {key : String}
    (hkey : ProxyCacheService.key server.platform proxied = key)
    (ha : server.Stores (server.reach before) a key clock value options)
    (hspares : Runs.Guarded server.step (server.Spares key) (server.reach (before ++ [a])) after)
    (hfew : (server.othersFrom key (server.reach (before ++ [a])) after).card <
      server.config.cacheMaxMemoryEntries)
    (hfresh : ∀ e ∈ server.eventsFrom (server.reach (before ++ [a])) after, ∀ i,
      (MemoryView.newEntry server.config (clock 1) key value options).isExpired (e.clock i) = false)
    (ctx : Context Clock) (hnow : (MemoryView.newEntry server.config (clock 1) key value
      options).isExpired (ctx.env 0) = false) :
    let g := server.reach (before ++ a :: after)
    let entry := { MemoryView.newEntry server.config (clock 1) key value options with
      hitCount := server.readsFrom key (server.reach (before ++ [a])) after + 1 }
    (server.act g (.request request ctx)).1.waiting = g.waiting ∧
      (server.act g (.request request ctx)).2 =
        some (ProxyController.respond (ProxyCacheService.replay ctx.start ctx.clock entry)) := by
  intro g entry
  subst hkey
  exact Server.respond_of_found server.config hrequest htarget hcacheable ctx
    (read_of_stores ha hspares hfew hfresh hnow)

/-- The target is asked once for a page that two clients want. -/
theorem replay_of_stores_small :
    let now := moment ⟨1000, by decide⟩
    let arrive : HttpAction Clock String := .request (.ofPage "http://h/x") now
    let depart : HttpAction Clock String := .depart 0 ⟨ProxyCacheService.target "page",
      ⟨1000, by decide⟩, fun _ => ⟨1000, by decide⟩⟩
    (small.act (small.reach ([arrive] ++ depart :: [])) (.request (.ofPage "http://h/x")
      now)).2.map HttpResponse.headers =
        some [.xCache true, .xResponseTime 0, .xCacheAge (.ofNat 0)] := by
  intro now arrive depart
  have hwaits : (small.reach [arrive]).waiting[0]? =
      some (some ⟨ProxyCacheService.pageRequest "http://h/x" [] none, ⟨1000, by decide⟩⟩) := rfl
  have hanswer : ProxyCacheService.fetchUpstream small.platform small.upstreamConfig small.reader
      (ProxyCacheService.target "page") (ProxyCacheService.pageRequest "http://h/x" [] none) =
      .ok ⟨200, [], "page"⟩ := rfl
  have hstores : small.Stores (small.reach [arrive]) depart _ _ _ _ :=
    stores_of_depart hwaits hanswer rfl
  have hspares : Runs.Guarded small.step (small.Spares (ProxyCacheService.key small.platform
      (ProxyCacheService.pageRequest "http://h/x" [] none))) (small.reach ([arrive] ++ [depart]))
      [] := trivial
  have hreplay := replay_of_stores (HttpRequest.isProxied_ofPage "http://h/x") (by decide +kernel)
    (by decide +kernel) rfl hstores hspares (by decide +kernel) (fun e he => (by cases he)) now
    (by decide +kernel)
  rw [hreplay.2]
  decide +kernel

end MemoryServer

end EdgeCache
