import EdgeCache.HttpRequests
import EdgeCache.LayeredRules

/-!
Where the entries come from that the server answers with, over either repository and
whatever becomes of Redis. What is found under a key was sent there before: by a request to
set it, or by a target in answer to a request of the proxy. Under keys that no client sets,
the proxy therefore answers as its targets do, when these always answer alike.
-/
namespace EdgeCache

variable {V : Type}

/-! ### What repositories hold -/

/-- What the states of a repository hold under a key, which no call adds to but a set. -/
structure Repository.Contents {S E : Type} (repository : Repository S E V) where
  Holds : String → (Content V → Prop) → S → Prop
  mono : ∀ {key s} {K L : Content V → Prop}, (∀ c, K c → L c) → Holds key K s → Holds key L s
  holds_call : ∀ {key K s}, Holds key K s → ∀ env op, op.IsRouted →
    (∀ value options, op = .set key value options → K (options.content value)) →
    Holds key K (repository.call env op s).1
  of_get : ∀ {key K s}, Holds key K s → ∀ env entry,
    (repository.interface.get env key s).2 = some entry → K entry.content

theorem MemoryCacheRepository.holdsAt_mono {config : Config} {key : String}
    {s : MemoryCacheRepository V} {K L : Content V → Prop} (hKL : ∀ c, K c → L c)
    (h : HoldsAt config key (fun entry => K entry.content) s) :
    HoldsAt config key (fun entry => L entry.content) s :=
  h.mono fun entry => hKL entry.content

def MemoryCacheRepository.contents (config : Config) (regExp : RegExp) :
    (repository (V := V) regExp).Contents where
  Holds := fun key K s => HoldsAt config key (fun entry => K entry.content) s
  mono := @holdsAt_mono V config
  holds_call := by
    intro key K s h clock op hop hset
    cases op with
    | get key' => exact (h.get (fun _ hentry => hentry) clock key').1
    | set key' value options =>
      exact h.set clock key' value options fun hk _ => hset value options (hk ▸ rfl)
    | delete key' => exact h.delete key'
    | deleteByTags tags => exact h.deleteByTags tags
    | deleteByPattern pattern => exact h.deleteByPattern regExp pattern
    | getStats memoryUsageMb => exact h
    | flush => exact h.flush
    | keys pattern => exact h
    | sweep => exact h.sweep clock
    | _ => exact hop.elim
  of_get := fun h clock entry hentry =>
    ((h.get (fun _ hc => hc) clock _).2 rfl entry hentry).1

theorem contents_rule (client : Client) (config : Config) (key : String) (K : Content V → Prop) :
    TierRule client config key (fun _ => True) (RepliesAt key fun json => K json.content)
      (IssuesAt key fun json => K json.content) (fun entry => K entry.content)
      (fun entry => K entry.content) (DocumentAt client key fun json => K json.content) where
  serves := serves_at client key _
  hit := fun _ h => h
  get := fun key' => RedisCacheRepository.get_meets trivial trivial
    (fun _ _ h => by cases h) (by
      intro json now _ hreply _
      refine ⟨fun hk => hreply hk, fun hk entry hentry => ?_⟩
      obtain rfl : json.restore.registerHit = entry := Option.some.inj hentry
      exact hreply hk)
  promoted := fun _ h _ _ _ _ => h

theorem LayeredCacheRepository.holds_mono {client : Client} {config : Config} {key : String}
    {s : Tiers V} {K L : Content V → Prop} (hKL : ∀ c, K c → L c)
    (h : HoldsAt config key (fun entry => K entry.content) s.l1 ∧
      DocumentAt client key (fun json => K json.content) s.redis) :
    HoldsAt config key (fun entry => L entry.content) s.l1 ∧
      DocumentAt client key (fun json => L json.content) s.redis :=
  ⟨h.1.mono fun entry => hKL entry.content,
    fun json expireAt hjson => hKL json.content (h.2 json expireAt hjson)⟩

def LayeredCacheRepository.contents (client : Client) (config : Config) (regExp : RegExp) :
    (repository (V := V) client config regExp).Contents where
  Holds := fun key K s => HoldsAt config key (fun entry => K entry.content) s.l1 ∧
    DocumentAt client key (fun json => K json.content) s.redis
  mono := @holds_mono V client config
  holds_call := by
    intro key K s h env op hop hset
    refine (contents_rule client config key K).callIn env.reads_true h.1 h.2 regExp ?_
    cases op with
    | set key' value options =>
      refine ⟨fun hk _ => hset value options (hk ▸ rfl), ?_⟩
      exact RedisCacheRepository.set_meets trivial
        (fun now _ mode _ hk => hset value options (hk ▸ rfl))
        fun tag _ => ⟨trivial, fun _ => trivial⟩
    | deleteByTags tags => exact ⟨fun _ => trivial, fun _ => trivial⟩
    | deleteByPattern pattern => exact fun _ => trivial
    | exists_ key' => exact hop.elim
    | mget keys => exact hop.elim
    | mset entries => exact hop.elim
    | _ => trivial
  of_get := by
    intro key K s h env entry hentry
    exact (holds_getIn env h.1 h.2 key (fun _ hc => hc) fun _ _ _ hc => hc).2.2 rfl entry hentry

/-! ### The server -/

/-- A server as it is wired, with what its repository holds. -/
structure HttpService (S E V : Type) where
  repository : Repository S E V
  contents : repository.Contents
  platform : Platform
  config : Config
  upstreamConfig : UpstreamConfig
  reader : BodyReader V

namespace HttpService

variable {S E : Type} (service : HttpService S E V)

def act (g : Gateway S) (a : HttpAction E V) : Gateway S × Option (HttpResponse V) :=
  Server.act service.repository service.platform service.config service.upstreamConfig
    service.reader g a

def step (g : Gateway S) (a : HttpAction E V) : Gateway S := (service.act g a).1

def reach (start : ProxyState S) (actions : List (HttpAction E V)) : Gateway S :=
  Runs.run service.step ⟨start, []⟩ actions

def callOf (g : Gateway S) (a : HttpAction E V) : Option (E × Op V) :=
  Server.callOf service.platform service.config service.upstreamConfig service.reader g a

theorem reach_concat (start : ProxyState S) (actions : List (HttpAction E V)) (a : HttpAction E V) :
    service.reach start (actions ++ [a]) = service.step (service.reach start actions) a :=
  Runs.run_append _ _ actions [a]

/-- An action of the run put the content under the key. -/
def Sent (start : ProxyState S) (actions : List (HttpAction E V)) (key : String) (c : Content V) :
    Prop :=
  ∃ before a after env value options, actions = before ++ a :: after ∧
    service.callOf (service.reach start before) a = some (env, .set key value options) ∧
    c = options.content value

variable {service} {start : ProxyState S} {actions : List (HttpAction E V)} {key : String}

theorem Sent.concat {c : Content V} (h : service.Sent start actions key c) (a : HttpAction E V) :
    service.Sent start (actions ++ [a]) key c := by
  obtain ⟨before, a', after, env, value, options, rfl, hcall⟩ := h
  exact ⟨before, a', after ++ [a], env, value, options, by simp, hcall⟩

theorem holds_step {K : Content V → Prop} {g : Gateway S}
    (h : service.contents.Holds key K g.proxy.repository) (a : HttpAction E V)
    (hset : ∀ env value options, service.callOf g a = some (env, .set key value options) →
      K (options.content value)) :
    service.contents.Holds key K (service.step g a).proxy.repository := by
  have hdrives := Server.drives service.repository service.platform service.config
    service.upstreamConfig service.reader g a
  have hstep : (service.step g a).proxy.repository =
      (service.callOf g a).elim g.proxy.repository (service.repository.after g.proxy.repository) :=
    hdrives
  rw [hstep]
  rcases hcall : service.callOf g a with _ | ⟨env, op⟩
  · exact h
  · refine service.contents.holds_call h env op (Server.routed_of_callOf hcall) ?_
    rintro value options rfl
    exact hset env value options hcall

/-- Under a key there is only what was sent there. -/
theorem holds_reach (hstart : service.contents.Holds key (fun _ => False) start.repository)
    (actions : List (HttpAction E V)) :
    service.contents.Holds key (service.Sent start actions key)
      (service.reach start actions).proxy.repository := by
  induction actions using List.reverseRecOn with
  | nil => exact service.contents.mono (fun _ hc => hc.elim) hstart
  | append_singleton actions a ih =>
    rw [reach_concat]
    refine holds_step (service.contents.mono (fun _ hc => hc.concat a) ih) a ?_
    intro env value options hcall
    exact ⟨actions, a, [], env, value, options, rfl, hcall, rfl⟩

/-- Whatever becomes of Redis, an entry that a request for a key is answered with has the value,
the tags and the metadata that an earlier request or answer of a target brought there. -/
theorem sent_of_get {request : HttpRequest V} (hrequest : request.IsFor "GET" key)
    (hstart : service.contents.Holds (trim key) (fun _ => False) start.repository)
    {ctx : Context E} {status : StatusCode} {headers : List ResponseHeader}
    {output : GetCacheOutput V}
    (hresponse : (service.act (service.reach start actions) (.request request ctx)).2 =
      some ⟨status, headers, .entry output⟩) :
    service.Sent start actions (trim key) output.entry.content := by
  have hget := Server.respond_get service.repository service.platform service.config
    service.upstreamConfig hrequest ctx (service.reach start actions)
  have hfound := CacheController.get_eq_entry (Option.some.inj (hget.symm.trans hresponse))
  exact service.contents.of_get (holds_reach hstart actions) ctx.env output.entry hfound

/-- A server over Redis, for texts, from its start. -/
def overRedis : HttpService (Tiers String) Surroundings String where
  repository := LayeredCacheRepository.repository ⟨"edge:"⟩ .twoPlaces fun _ => none
  contents := LayeredCacheRepository.contents _ _ _
  platform := .plain
  config := .twoPlaces
  upstreamConfig := ⟨[], 1000⟩
  reader := ProxyCacheService.plainReader

def fresh : ProxyState (Tiers String) :=
  ⟨⟨.new .twoPlaces, fun _ => none⟩, .new .oneSecond⟩

theorem holds_fresh (key : String) (K : Content String → Prop) :
    overRedis.contents.Holds key K fresh.repository :=
  ⟨HoldsAt.new _ _ _, fun json expireAt hjson => (by cases hjson)⟩

/-- Put while Redis was there, and read when it fails. -/
theorem sent_of_get_outage :
    ∃ c, overRedis.Sent fresh [.request (.ofPut "a" "x") (.whenRedis true)] "a" c ∧
      c.value = "x" := by
  have hread : (overRedis.repository.interface.get (Context.whenRedis false).env "a"
      (overRedis.reach fresh [.request (.ofPut "a" "x")
        (.whenRedis true)]).proxy.repository).2.map CacheEntry.value = some "x" := by
    decide +kernel
  obtain ⟨entry, hentry, hvalue⟩ := Option.map_eq_some_iff.mp hread
  have hrequest : (HttpRequest.ofGet "a").IsFor "GET" "a" := HttpRequest.isFor_ofKey _ (by decide) _
  have hresponse := (Server.respond_get overRedis.repository overRedis.platform overRedis.config
    overRedis.upstreamConfig hrequest (.whenRedis false) (overRedis.reach fresh
      [.request (.ofPut "a" "x") (.whenRedis true)])).trans
    (congrArg some (CacheController.get_of_some (by decide) hentry))
  exact ⟨_, sent_of_get hrequest (holds_fresh _ _) hresponse, hvalue⟩

/-! ### Targets that always answer alike -/

/-- The key that a request of the proxy is kept under. -/
def keyOf (service : HttpService S E V) (proxied : ProxyRequest) : String :=
  ProxyCacheService.key service.platform proxied

/-- If a target answers a request with the key now, its answer has this body and this status. -/
def Stable (service : HttpService S E V) (key : String) (origin : UpstreamAnswer V) (g : Gateway S)
    (a : HttpAction E V) : Prop :=
  ∀ i departure w answer, a = .depart i departure → g.waiting[i]? = some (some w) →
    service.keyOf w.request = key →
    ProxyCacheService.fetchUpstream service.platform service.upstreamConfig service.reader
      departure.upstream w.request = .ok answer →
    answer.body = origin.body ∧ answer.statusCode = origin.statusCode

/-- No client sets the key. -/
def Reserves (service : HttpService S E V) (key : String) (g : Gateway S) (a : HttpAction E V) :
    Prop :=
  ∀ request ctx, a = .request request ctx → ∀ env value options,
    service.callOf g a ≠ some (env, .set key value options)

/-- The request of the proxy that is answered by an action, if it is answered now. -/
def IsAnswered (g : Gateway S) (proxied : ProxyRequest) : HttpAction E V → Prop
  | .request request _ => request.IsProxied proxied
  | .depart i _ => ∃ begun, g.waiting[i]? = some (some ⟨proxied, begun⟩)
  | .sweep _ => False

variable {origin : UpstreamAnswer V}

theorem eq_of_depart {g : Gateway S} {i : ℕ} {departure : Departure E}
    (hstable : service.Stable key origin g (.depart i departure)) {env : E} {value : V}
    {options : SetOptions}
    (hcall : service.callOf g (.depart i departure) = some (env, .set key value options)) :
    value = origin.body ∧
      ProxyCacheService.storedStatus options.metadataList = .text (toString origin.statusCode) := by
  simp only [callOf, Server.callOf] at hcall
  rcases hwaiting : g.waiting[i]? with _ | _ | w
  · rw [hwaiting] at hcall
    cases hcall
  · rw [hwaiting] at hcall
    cases hcall
  · rw [hwaiting] at hcall
    obtain ⟨op, hop, heq⟩ := Option.map_eq_some_iff.mp hcall
    obtain ⟨-, rfl⟩ := Prod.mk.inj heq
    unfold Server.departOp at hop
    split at hop
    · cases hop
    · next answer hanswer =>
      split at hop
      · obtain ⟨hkey, rfl, rfl⟩ := Op.set.inj (Option.some.inj hop)
        obtain ⟨hbody, hstatus⟩ := hstable i departure w answer rfl hwaiting hkey hanswer
        exact ⟨hbody, congrArg (fun n : ℕ => StatusCode.text (toString n)) hstatus⟩
      · cases hop

/-- The one body and the one status, as they are kept. -/
def FromOrigin (origin : UpstreamAnswer V) (c : Content V) : Prop :=
  c.value = origin.body ∧
    ProxyCacheService.storedStatus c.metadata = .text (toString origin.statusCode)

theorem fromOrigin_step {g : Gateway S}
    (h : service.contents.Holds key (FromOrigin origin) g.proxy.repository) {a : HttpAction E V}
    (hreserved : service.Reserves key g a) (hstable : service.Stable key origin g a) :
    service.contents.Holds key (FromOrigin origin) (service.step g a).proxy.repository := by
  refine holds_step h a fun env value options hcall => ?_
  cases a with
  | request request ctx => exact absurd hcall (hreserved request ctx rfl env value options)
  | depart i departure =>
    exact eq_of_depart hstable hcall
  | sweep env' => cases hcall

/-- A key that no client sets has the one body and status, if it has anything. -/
theorem fromOrigin_reach (hstart : service.contents.Holds key (fun _ => False) start.repository)
    (hreserved : Runs.Guarded service.step (service.Reserves key) ⟨start, []⟩ actions)
    (hstable : Runs.Guarded service.step (service.Stable key origin) ⟨start, []⟩ actions) :
    service.contents.Holds key (FromOrigin origin)
      (service.reach start actions).proxy.repository :=
  (hreserved.and hstable).invariant
    (I := fun g : Gateway S => service.contents.Holds key (FromOrigin origin) g.proxy.repository)
    (fun _ _ h hguard => fromOrigin_step h hguard.1 hguard.2)
    (service.contents.mono (fun _ hc => hc.elim) hstart)

/-- The status line has the same text for both. -/
def statusText : StatusCode → String
  | .number n => toString n
  | .text s => s

theorem replayed_of_hit {repository : ICacheRepository S E V} {platform : Platform}
    {upstreamConfig : UpstreamConfig} {proxied : ProxyRequest} {arrival : Arrival E}
    {s s' : ProxyState S} {response : ProxyResponse V}
    (h : ProxyCacheService.lookUp repository platform upstreamConfig proxied arrival s =
      (s', .hit response)) :
    ∃ entry, (repository.get arrival.env (ProxyCacheService.key platform proxied)
        s.repository).2 = some entry ∧
      response = ProxyCacheService.replay arrival.start arrival.clock entry := by
  unfold ProxyCacheService.lookUp at h
  split at h
  · cases h
  · split at h
    · split at h
      · next r entry hget =>
        exact ⟨entry, congrArg Prod.snd hget, (Lookup.hit.inj (Prod.mk.inj h).2).symm⟩
      · cases h
    · cases h

theorem snd_complete {platform : Platform} {upstreamConfig : UpstreamConfig}
    (repository : ICacheRepository S E V) (config : Config) (begun : Time) (reader : BodyReader V)
    (departure : Departure E) (s : ProxyState S) {proxied : ProxyRequest}
    {answer : UpstreamAnswer V}
    (h : ProxyCacheService.fetchUpstream platform upstreamConfig reader departure.upstream proxied =
      .ok answer) :
    (ProxyCacheService.complete repository platform config upstreamConfig reader proxied begun
        departure s).2 =
      .ok ⟨.number answer.statusCode, answer.headers, answer.body, false, none,
        departure.now.val - begun.val⟩ := by
  unfold ProxyCacheService.complete
  rw [h]
  simp only
  split <;> rfl

/-- Where only the one body and status are kept, a response to a request of the proxy has them,
from the cache or not. -/
theorem origin_of_response {g : Gateway S} {proxied : ProxyRequest} {a : HttpAction E V}
    (hholds : service.contents.Holds (service.keyOf proxied) (FromOrigin origin) g.proxy.repository)
    (hstable : service.Stable (service.keyOf proxied) origin g a)
    (hanswered : IsAnswered g proxied a) {status : StatusCode} {headers : List ResponseHeader}
    {data : V} {latencyMs : ℤ} {cached : Bool} {cacheAge : Option JsNumber}
    (hresponse : (service.act g a).2 =
      some ⟨status, headers, .proxied data latencyMs cached cacheAge⟩) :
    data = origin.body ∧ statusText status = toString origin.statusCode := by
  cases a with
  | request request ctx =>
    obtain ⟨body, hbody, hproxied⟩ := hanswered.body
    simp only [act, Server.act, Server.respond, hbody, hanswered.dispatch_eq, Server.proxy,
      hproxied] at hresponse
    split at hresponse
    · next s' response hlookUp =>
      obtain ⟨entry, hget, rfl⟩ := replayed_of_hit hlookUp
      obtain ⟨hvalue, hstatus⟩ := service.contents.of_get hholds ctx.env entry hget
      cases hresponse
      exact ⟨hvalue, congrArg statusText hstatus⟩
    · cases hresponse
    · cases hresponse
  | depart i departure =>
    obtain ⟨begun, hwaiting⟩ := hanswered
    simp only [act, Server.act, hwaiting] at hresponse
    cases hfetch : ProxyCacheService.fetchUpstream service.platform service.upstreamConfig
        service.reader departure.upstream proxied with
    | error e =>
      simp only [ProxyCacheService.complete, hfetch] at hresponse
      cases hresponse
    | ok answer =>
      obtain ⟨hbody, hstatus⟩ :=
        hstable i departure ⟨proxied, begun⟩ answer rfl hwaiting rfl hfetch
      have hcomplete := snd_complete service.repository.interface service.config begun
        service.reader departure g.proxy hfetch
      rw [hcomplete] at hresponse
      cases hresponse
      exact ⟨hbody, congrArg (fun n : ℕ => toString n) hstatus⟩
  | sweep env => exact hanswered.elim

/-- The proxy is transparent: if targets always answer a key alike, and no client sets it, every
response to a request of the proxy with the key has the body and the status that its target
gives, from the cache or not, and whatever becomes of Redis. -/
theorem transparent {proxied : ProxyRequest} (hkey : service.keyOf proxied = key)
    (hstart : service.contents.Holds key (fun _ => False) start.repository)
    {a : HttpAction E V}
    (hreserved : Runs.Guarded service.step (service.Reserves key) ⟨start, []⟩ actions)
    (hstable : Runs.Guarded service.step (service.Stable key origin) ⟨start, []⟩ (actions ++ [a]))
    (hanswered : IsAnswered (service.reach start actions) proxied a) {status : StatusCode}
    {headers : List ResponseHeader} {data : V} {latencyMs : ℤ} {cached : Bool}
    {cacheAge : Option JsNumber}
    (hresponse : (service.act (service.reach start actions) a).2 =
      some ⟨status, headers, .proxied data latencyMs cached cacheAge⟩) :
    data = origin.body ∧ statusText status = toString origin.statusCode := by
  subst hkey
  obtain ⟨hbefore, hlast⟩ := hstable.of_append
  exact origin_of_response (fromOrigin_reach hstart hreserved hbefore) hlast.1 hanswered hresponse

/-- A page is answered from the cache when Redis fails. -/
theorem transparent_outage :
    let page : HttpAction Surroundings String :=
      .request (.ofPage "http://h/x") (.whenRedis false)
    let actions : List (HttpAction Surroundings String) :=
      [page, .depart 0
        ⟨ProxyCacheService.target "page", ⟨1000, by decide⟩, (Context.whenRedis true).env⟩]
    ∃ status headers data latencyMs cached cacheAge,
      (overRedis.act (overRedis.reach fresh actions) page).2 =
        some ⟨status, headers, .proxied data latencyMs cached cacheAge⟩ ∧ data = "page" := by
  intro page actions
  have hread : (overRedis.repository.interface.get (Context.whenRedis false).env
      (overRedis.keyOf (ProxyCacheService.pageRequest "http://h/x" [] none))
      (overRedis.reach fresh actions).proxy.repository).2.isSome = true := by
    decide +kernel
  obtain ⟨entry, hentry⟩ := Option.isSome_iff_exists.mp hread
  have hresponse : (overRedis.act (overRedis.reach fresh actions) page).2 = _ :=
    (Server.respond_of_found overRedis.config (HttpRequest.isProxied_ofPage "http://h/x") rfl rfl
      (.whenRedis false) hentry).2
  have hkey : overRedis.keyOf (ProxyCacheService.pageRequest "http://h/x" [] none) =
      "GET:http://h/x" := by
    decide +kernel
  have hreserved : Runs.Guarded overRedis.step (overRedis.Reserves "GET:http://h/x")
      ⟨fresh, []⟩ actions := by
    refine ⟨fun request ctx heq env value options hcall => ?_, fun request ctx heq => ?_, trivial⟩
    · obtain ⟨rfl, rfl⟩ := HttpAction.request.inj heq
      cases hcall
    · cases heq
  have hstable : Runs.Guarded overRedis.step (overRedis.Stable "GET:http://h/x"
      ⟨200, [], "page"⟩) ⟨fresh, []⟩ (actions ++ [page]) := by
    refine ⟨fun i departure w answer heq => ?_, fun i departure w answer heq hw _ hanswer => ?_,
      fun i departure w answer heq => ?_, trivial⟩
    · simp only [page, reduceCtorEq] at heq
    · cases heq
      cases hw
      cases hanswer
      exact ⟨rfl, rfl⟩
    · simp only [page, reduceCtorEq] at heq
  have hanswered : IsAnswered (overRedis.reach fresh actions)
      (ProxyCacheService.pageRequest "http://h/x" [] none) page :=
    HttpRequest.isProxied_ofPage "http://h/x"
  exact ⟨_, _, _, _, _, _, hresponse,
    (transparent hkey (holds_fresh _ _) hreserved hstable hanswered hresponse).1⟩

end HttpService

end EdgeCache
