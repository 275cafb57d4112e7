import EdgeCache.ProxyCache
import Mathlib.Data.List.Induction

/-!
The whole service at work: requests of the cache's own interface, and requests to the
proxy in their two halves, in any order on one repository. What the proxy answers from the
cache under a key that no request of the other interface has written was given by a target
to an earlier request of the proxy.
-/
namespace EdgeCache

variable {V : Type}

/-! ### Runs -/

/-- A request that has missed the cache and waits for its target. -/
structure Waiting where
  request : ProxyRequest
  start : Time

structure Gateway (S : Type) where
  proxy : ProxyState S
  waiting : List (Option Waiting)

inductive GatewayAction (E V : Type) where
  | put (input : SetCacheInput V) (env : E) (now : Time)
  | read (key : String) (env : E) (clock : Clock)
  | remove (key : String) (env : E)
  | flush (env : E)
  | arrive (request : ProxyRequest) (arrival : Arrival E)
  | depart (i : ℕ) (departure : Departure E)

namespace Gateway

section Runs

variable {S E : Type} (repository : ICacheRepository S E V) (platform : Platform)
  (config : Config) (upstreamConfig : UpstreamConfig) (reader : BodyReader V)

/-- What a request of the cache's own interface leaves of the repository. -/
def withRepository (g : Gateway S) (r : S) : Gateway S :=
  { g with proxy := { g.proxy with repository := r } }

def step (g : Gateway S) (a : GatewayAction E V) : Gateway S :=
  let r := g.proxy.repository
  match a with
  | .put input env now =>
    g.withRepository (SetCacheUseCase.execute repository config env now input r).1
  | .read key env clock =>
    g.withRepository (GetCacheUseCase.execute repository env clock key r).1
  | .remove key env => g.withRepository (DeleteCacheUseCase.executeKey repository env key r).1
  | .flush env => g.withRepository (repository.flush env r)
  | .arrive request arrival =>
    match ProxyCacheService.lookUp repository platform upstreamConfig request arrival g.proxy with
    | (s, .miss) => ⟨s, g.waiting ++ [some ⟨request, arrival.start⟩]⟩
    | (s, _) => ⟨s, g.waiting⟩
  | .depart i departure =>
    match g.waiting[i]? with
    | some (some w) =>
      ⟨(ProxyCacheService.complete repository platform config upstreamConfig reader w.request
        w.start departure g.proxy).1, g.waiting.set i none⟩
    | _ => g

def reach (start : ProxyState S) (actions : List (GatewayAction E V)) : Gateway S :=
  Runs.run (step repository platform config upstreamConfig reader) ⟨start, []⟩ actions

theorem reach_concat (start : ProxyState S) (actions : List (GatewayAction E V))
    (a : GatewayAction E V) :
    reach repository platform config upstreamConfig reader start (actions ++ [a]) =
      step repository platform config upstreamConfig reader
        (reach repository platform config upstreamConfig reader start actions) a :=
  Runs.run_append _ _ actions [a]

/-- In the run, a target answered a request of the proxy with this key, and the answer was
kept. -/
def Kept (start : ProxyState S) (key : String) (actions : List (GatewayAction E V))
    (answer : UpstreamAnswer V) : Prop :=
  ∃ before after i departure w, actions = before ++ .depart i departure :: after ∧
    (reach repository platform config upstreamConfig reader start before).waiting[i]? =
      some (some w) ∧
    ProxyCacheService.key platform w.request = key ∧
    ProxyCacheService.fetchUpstream platform upstreamConfig reader departure.upstream w.request =
      .ok answer ∧
    ProxyCacheService.isStored w.request answer = true

end Runs

section Provenance

variable {S E : Type} {config : Config} (R : Wiring config S E V) (platform : Platform)
  (upstreamConfig : UpstreamConfig) (reader : BodyReader V)

/-- The content was made from an answer of the run. -/
def FromUpstream (start : ProxyState S) (key : String) (actions : List (GatewayAction E V))
    (c : Content V) : Prop :=
  ∃ answer, Kept R.toICacheRepository platform config upstreamConfig reader start key actions
      answer ∧
    c.value = answer.body ∧ c.metadata = ProxyCacheService.storedMetadata answer

variable {R platform upstreamConfig reader}
variable {start : ProxyState S} {key : String} {actions : List (GatewayAction E V)}

theorem FromUpstream.concat {c : Content V}
    (h : FromUpstream R platform upstreamConfig reader start key actions c)
    (a : GatewayAction E V) :
    FromUpstream R platform upstreamConfig reader start key (actions ++ [a]) c := by
  obtain ⟨answer, ⟨before, after, i, departure, w, rfl, hkept⟩, hcontent⟩ := h
  exact ⟨answer, ⟨before, after ++ [a], i, departure, w, by simp, hkept⟩, hcontent⟩

theorem lookUp_eq_hit {request : ProxyRequest} {arrival : Arrival E} {s : ProxyState S}
    {response : ProxyResponse V}
    (h : (ProxyCacheService.lookUp R.toICacheRepository platform upstreamConfig request arrival
      s).2 = .hit response) :
    ∃ entry, (R.get arrival.env (ProxyCacheService.key platform request) s.repository).2 =
        some entry ∧
      response = ProxyCacheService.replay arrival.start arrival.clock entry := by
  unfold ProxyCacheService.lookUp at h
  split at h
  · cases h
  · split at h
    · split at h
      · next r entry hget =>
        exact ⟨entry, congrArg Prod.snd hget, (Lookup.hit.inj h).symm⟩
      · cases h
    · cases h

theorem repository_lookUp (request : ProxyRequest) (arrival : Arrival E) (s : ProxyState S) :
    (ProxyCacheService.lookUp R.toICacheRepository platform upstreamConfig request arrival
        s).1.repository = s.repository ∨
      (ProxyCacheService.lookUp R.toICacheRepository platform upstreamConfig request arrival
        s).1.repository =
        (R.get arrival.env (ProxyCacheService.key platform request) s.repository).1 := by
  unfold ProxyCacheService.lookUp
  split
  · exact Or.inl rfl
  · split
    · split
      · next hget => exact Or.inr (congrArg Prod.fst hget).symm
      · next hget => exact Or.inr (congrArg Prod.fst hget).symm
    · exact Or.inl rfl

theorem repository_complete (request : ProxyRequest) (begun : Time) (departure : Departure E)
    (s : ProxyState S) :
    (ProxyCacheService.complete R.toICacheRepository platform config upstreamConfig reader request
        begun departure s).1 = s ∨
      ∃ answer, ProxyCacheService.fetchUpstream platform upstreamConfig reader departure.upstream
          request = .ok answer ∧ ProxyCacheService.isStored request answer = true ∧
        (ProxyCacheService.complete R.toICacheRepository platform config upstreamConfig reader
          request begun departure s).1.repository =
          R.set departure.env (ProxyCacheService.key platform request) answer.body
            (ProxyCacheService.storedOptions config request answer) s.repository := by
  unfold ProxyCacheService.complete
  split
  · exact Or.inl rfl
  · next answer hanswer =>
    simp only
    split
    · next hstored => exact Or.inr ⟨answer, hanswer, hstored, rfl⟩
    · exact Or.inl rfl

theorem proxy_step_arrive {repository : ICacheRepository S E V} (g : Gateway S)
    (request : ProxyRequest) (arrival : Arrival E) :
    (step repository platform config upstreamConfig reader g (.arrive request arrival)).proxy =
      (ProxyCacheService.lookUp repository platform upstreamConfig request arrival
        g.proxy).1 := by
  simp only [step]
  split
  · next hlookup => exact (congrArg Prod.fst hlookup).symm
  · next hlookup => exact (congrArg Prod.fst hlookup).symm

theorem proxy_step_depart (g : Gateway S) (i : ℕ) (departure : Departure E) :
    (step R.toICacheRepository platform config upstreamConfig reader g
        (.depart i departure)).proxy = g.proxy ∨
      ∃ w, g.waiting[i]? = some (some w) ∧
        (step R.toICacheRepository platform config upstreamConfig reader g
          (.depart i departure)).proxy =
          (ProxyCacheService.complete R.toICacheRepository platform config upstreamConfig reader
            w.request w.start departure g.proxy).1 := by
  simp only [step]
  split
  · next w hwaiting => exact Or.inr ⟨w, hwaiting, rfl⟩
  · exact Or.inl rfl

/-- One action brings under a key what is put there, or an answer that is kept. -/
theorem holds_step {K : Content V → Prop} {g : Gateway S} (h : R.Holds key K g.proxy.repository)
    (a : GatewayAction E V)
    (hput : ∀ input env now, a = .put input env now → CacheKey.fromRaw input.key = .ok ⟨key⟩ →
      ∀ c, K c)
    (hdepart : ∀ i departure w answer, a = .depart i departure → g.waiting[i]? = some (some w) →
      ProxyCacheService.key platform w.request = key →
      ProxyCacheService.fetchUpstream platform upstreamConfig reader departure.upstream w.request =
        .ok answer →
      ProxyCacheService.isStored w.request answer = true →
      K ((ProxyCacheService.storedOptions config w.request answer).content answer.body)) :
    R.Holds key K (step R.toICacheRepository platform config upstreamConfig reader g
      a).proxy.repository := by
  cases a with
  | put input env now =>
    simp only [step, withRepository]
    exact SetCacheUseCase.holds_execute h env now input (hput input env now rfl)
  | read key' env clock =>
    simp only [step, withRepository]
    exact GetCacheUseCase.holds_execute h env clock key'
  | remove key' env => exact DeleteCacheUseCase.holds_executeKey h env key'
  | flush env => exact R.holds_flush h env
  | arrive request arrival =>
    rw [proxy_step_arrive]
    rcases repository_lookUp (R := R) request arrival _ with hsame | hget
    · rw [hsame]
      exact h
    · rw [hget]
      exact (R.holds_get h _ _).1
  | depart i departure =>
    rcases proxy_step_depart (R := R) _ i departure with hsame | ⟨w, hwaiting, hproxy⟩
    · rw [hsame]
      exact h
    · rw [hproxy]
      rcases repository_complete (R := R) w.request w.start departure _
        with hsame | ⟨answer, hfetch, hstored, hset⟩
      · rw [hsame]
        exact h
      · rw [hset]
        exact R.holds_set h _ _ _ _ fun hk =>
          hdepart i departure w answer rfl hwaiting hk hfetch hstored

/-- Under a key that the cache's own interface does not write, there are only answers of
targets. -/
theorem holds_reach (R : Wiring config S E V) (platform : Platform)
    (upstreamConfig : UpstreamConfig) (reader : BodyReader V) {start : ProxyState S} {key : String}
    {actions : List (GatewayAction E V)} (hstart : R.Holds key (fun _ => False) start.repository)
    (hput : ∀ input env now, GatewayAction.put input env now ∈ actions →
      CacheKey.fromRaw input.key ≠ .ok ⟨key⟩) :
    R.Holds key (FromUpstream R platform upstreamConfig reader start key actions)
      (reach R.toICacheRepository platform config upstreamConfig reader start
        actions).proxy.repository := by
  induction actions using List.reverseRecOn with
  | nil => exact R.mono (fun _ hc => hc.elim) hstart
  | append_singleton actions a ih =>
    have hbefore := R.mono (fun c hc => FromUpstream.concat hc a)
      (ih fun input env now hmem => hput input env now (List.mem_append_left [a] hmem))
    have hlast : a ∈ actions ++ [a] := List.mem_append_right actions (List.mem_singleton_self a)
    rw [reach_concat]
    refine holds_step hbefore a ?_ ?_
    · intro input env now ha hkey
      exact absurd hkey (hput input env now (ha ▸ hlast))
    · intro i departure w answer ha hwaiting hkey hfetch hstored
      refine ⟨answer, ⟨actions, [], i, departure, w, by rw [ha], hwaiting, hkey, hfetch, hstored⟩,
        rfl, rfl⟩

theorem sound_reach (hstart : R.Sound start.repository) :
    R.Sound (reach R.toICacheRepository platform config upstreamConfig reader start
      actions).proxy.repository := by
  intro key
  refine Runs.run_invariant
    (I := fun g : Gateway S => R.Holds key (fun _ => True) g.proxy.repository) ?_ (hstart key)
    actions
  intro g a h
  exact holds_step h a (fun _ _ _ _ _ _ => trivial) fun _ _ _ _ _ _ _ _ _ => trivial

end Provenance

end Gateway

namespace ProxyCacheService

variable {S E : Type} {config : Config}

theorem lookUp_of_cached {repository : ICacheRepository S E V} {platform : Platform}
    {upstreamConfig : UpstreamConfig} {reader : BodyReader V} {request : ProxyRequest}
    {arrival : Arrival E} {departure : Departure E} {s : ProxyState S}
    {response : ProxyResponse V}
    (h : (proxy repository platform config upstreamConfig reader request arrival departure s).2 =
      .ok response) (hcached : response.cached = true) :
    (lookUp repository platform upstreamConfig request arrival s).2 = .hit response := by
  unfold proxy at h
  split at h
  · next hlookup =>
    rw [hlookup]
    exact congrArg Lookup.hit (Except.ok.inj h)
  · cases h
  · next hlookup =>
    unfold complete at h
    split at h
    · cases h
    · simp only at h
      split at h
      · obtain rfl := Except.ok.inj h
        cases hcached
      · obtain rfl := Except.ok.inj h
        cases hcached

/-- An answer of the cache replays the answer of a target that stands under its key. -/
theorem replayed_of_cached {R : Wiring config S E V} {platform : Platform}
    {upstreamConfig : UpstreamConfig} {reader : BodyReader V} {request : ProxyRequest}
    {arrival : Arrival E} {departure : Departure E} {s : ProxyState S}
    {response : ProxyResponse V} {K : Content V → Prop} {P : UpstreamAnswer V → Prop}
    (hK : ∀ c, K c → ∃ answer, P answer ∧ c.value = answer.body ∧
      c.metadata = storedMetadata answer)
    (h : R.Holds (key platform request) K s.repository)
    (hresponse : (proxy R.toICacheRepository platform config upstreamConfig reader request arrival
      departure s).2 = .ok response) (hcached : response.cached = true) :
    ∃ answer, P answer ∧ response.body = answer.body ∧ response.headers = storedMetadata answer ∧
      response.statusCode = .text (toString answer.statusCode) := by
  obtain ⟨entry, hget, rfl⟩ := Gateway.lookUp_eq_hit (lookUp_of_cached hresponse hcached)
  obtain ⟨answer, hP, hvalue, hmetadata⟩ := hK _ ((R.holds_get h _ _).2 rfl entry hget)
  refine ⟨answer, hP, hvalue, hmetadata, ?_⟩
  have hstatus : entry.metadata = storedMetadata answer := hmetadata
  simp only [replay, hstatus]
  rfl

/-- What is answered from the cache, under a key that no request of the cache's own interface
has written, is an answer that a target gave to an earlier request with this key. -/
theorem kept_of_cached (R : Wiring config S E V) (platform : Platform)
    (upstreamConfig : UpstreamConfig) (reader : BodyReader V) (start : ProxyState S)
    (actions : List (GatewayAction E V)) (request : ProxyRequest)
    (hstart : R.Holds (key platform request) (fun _ => False) start.repository)
    (hput : ∀ input env now, GatewayAction.put input env now ∈ actions →
      CacheKey.fromRaw input.key ≠ .ok ⟨key platform request⟩)
    (arrival : Arrival E) (departure : Departure E) (response : ProxyResponse V)
    (hresponse : (proxy R.toICacheRepository platform config upstreamConfig reader request arrival
      departure (Gateway.reach R.toICacheRepository platform config upstreamConfig reader start
        actions).proxy).2 = .ok response)
    (hcached : response.cached = true) :
    ∃ answer, Gateway.Kept R.toICacheRepository platform config upstreamConfig reader start
        (key platform request) actions answer ∧
      response.body = answer.body ∧ response.headers = storedMetadata answer ∧
      response.statusCode = .text (toString answer.statusCode) := by
  have hholds := Gateway.holds_reach R platform upstreamConfig reader hstart hput
  exact replayed_of_cached (fun _ hkept => hkept) hholds hresponse hcached

theorem eq_ok_of_toOption {ε α : Type} {x : Except ε α} {a : α} (h : x.toOption = some a) :
    x = .ok a := by
  cases x with
  | error e => cases h
  | ok b => exact congrArg Except.ok (Option.some.inj h)

/-- Texts that are no JSON. -/
def plainReader : BodyReader String := ⟨fun _ => none, id⟩

/-- A target that answers with the text. -/
def target (text : String) : Upstream := fun _ => .replied ⟨some 200, [], text⟩

/-- A request is answered by its target, and the next one from the cache. -/
theorem kept_of_cached_again :
    let R := MemoryCacheRepository.wiring (V := String) ⟨2, 60, by decide, by decide⟩
    let now : Time := ⟨1000, by decide⟩
    let request := pageRequest "http://h/x" [] none
    let start := ⟨.new ⟨2, 60, by decide, by decide⟩, .new now⟩
    let actions : List (GatewayAction Clock String) :=
      [.arrive request ⟨now, fun _ => now, fun _ => now⟩,
        .depart 0 ⟨target "page", now, fun _ => now⟩]
    ∃ answer, Gateway.Kept R.toICacheRepository .plain ⟨2, 60, by decide, by decide⟩ ⟨[], 1000⟩
        plainReader start (key .plain request) actions answer ∧ answer.body = "page" := by
  intro R now request start actions
  have hnow : ((proxy R.toICacheRepository .plain ⟨2, 60, by decide, by decide⟩ ⟨[], 1000⟩
      plainReader request ⟨now, fun _ => now, fun _ => now⟩
      ⟨target "", now, fun _ => now⟩ (Gateway.reach R.toICacheRepository .plain
        ⟨2, 60, by decide, by decide⟩ ⟨[], 1000⟩ plainReader start actions).proxy).2.toOption.map
          fun r => (r.cached, r.body)) = some (true, "page") := by
    decide +kernel
  obtain ⟨response, hresponse, hpage⟩ := Option.map_eq_some_iff.mp hnow
  obtain ⟨hcached, hbody⟩ := Prod.mk.inj hpage
  obtain ⟨answer, hkept, hanswer, -⟩ := kept_of_cached R .plain ⟨[], 1000⟩ plainReader start
    actions request (HoldsAt.new _ _ _) (by simp [actions]) _ _ response
    (eq_ok_of_toOption hresponse) hcached
  exact ⟨answer, hkept, hanswer ▸ hbody⟩

/-- An entry put under the key of a request is replayed to it. -/
theorem not_kept_of_cached_put :
    let R := MemoryCacheRepository.wiring (V := String) ⟨2, 60, by decide, by decide⟩
    let now : Time := ⟨1000, by decide⟩
    let start := ⟨.new ⟨2, 60, by decide, by decide⟩, .new now⟩
    ¬ ∀ (actions : List (GatewayAction Clock String)) (request : ProxyRequest)
        (arrival : Arrival Clock) (departure : Departure Clock) (response : ProxyResponse String),
      (proxy R.toICacheRepository .plain ⟨2, 60, by decide, by decide⟩ ⟨[], 1000⟩ plainReader
        request arrival departure (Gateway.reach R.toICacheRepository .plain
          ⟨2, 60, by decide, by decide⟩ ⟨[], 1000⟩ plainReader start actions).proxy).2 =
            .ok response →
      response.cached = true →
      ∃ answer, Gateway.Kept R.toICacheRepository .plain ⟨2, 60, by decide, by decide⟩ ⟨[], 1000⟩
        plainReader start (key .plain request) actions answer ∧ response.body = answer.body := by
  intro R now start hall
  have hreplayed : ((proxy R.toICacheRepository .plain ⟨2, 60, by decide, by decide⟩ ⟨[], 1000⟩
      plainReader (pageRequest "http://h/x" [] none) ⟨now, fun _ => now, fun _ => now⟩
      ⟨target "", now, fun _ => now⟩ (Gateway.reach R.toICacheRepository .plain
        ⟨2, 60, by decide, by decide⟩ ⟨[], 1000⟩ plainReader start
        [.put ⟨"GET:http://h/x", some "planted", none, none, none, false⟩ (fun _ => now)
          now]).proxy).2.toOption.map (·.cached)) = some true := by
    decide +kernel
  obtain ⟨response, hresponse, hcached⟩ := Option.map_eq_some_iff.mp hreplayed
  obtain ⟨answer, ⟨before, after, i, departure, w, hactions, -⟩, -⟩ :=
    hall _ _ _ _ response (eq_ok_of_toOption hresponse) hcached
  have hdepart : GatewayAction.depart i departure ∈ before ++ .depart i departure :: after :=
    List.mem_append_right before List.mem_cons_self
  rw [← hactions] at hdepart
  cases List.mem_singleton.mp hdepart

end ProxyCacheService

end EdgeCache
