import EdgeCache.HttpContents
import EdgeCache.ProxyHeaders
import EdgeCache.ProxyTargets

/-!
Where the service connects to, from the text of its environment on. The text of
`UPSTREAM_ALLOWED_HOSTS` names hosts between its commas, blanks and all; without any name in it
every page of the web may be asked for. In every run a request to the proxy gets as far as its
target only when the text permits it.
-/
namespace EdgeCache

variable {V : Type}

/-- `v.split(',').filter(Boolean)` -/
def UpstreamConfig.hostsOf (v : String) : List String :=
  ((v.toList.splitOn ',').map String.ofList).filter (· != "")

/-- The upstream part of the configuration, as it is read from the environment. -/
def UpstreamConfig.ofEnv (allowedHosts : String) (timeoutMs : ℕ) : UpstreamConfig where
  allowedHosts := hostsOf allowedHosts
  timeoutMs := timeoutMs

namespace ProxyCacheService

/-- The target is a page of the web, on a host that the text names between its commas or below
one; or the text has nothing but commas. -/
def PermittedBy (platform : Platform) (v target : String) : Prop :=
  ∃ url, Url.parse platform target = .web url ∧
    ((∀ c ∈ v.toList, c = ',') ∨
      ∃ host : String, host ≠ "" ∧ host.toList ∈ v.toList.splitOn ',' ∧
        labels host <:+ labels url.hostname)

theorem mem_hostsOf_iff {v host : String} :
    host ∈ UpstreamConfig.hostsOf v ↔ host ≠ "" ∧ host.toList ∈ v.toList.splitOn ',' := by
  rw [UpstreamConfig.hostsOf, List.mem_filter, List.mem_map, bne_iff_ne, and_comm]
  refine and_congr_right fun _ => ⟨?_, fun h => ⟨host.toList, h, String.ofList_toList⟩⟩
  rintro ⟨part, hpart, rfl⟩
  rwa [String.toList_ofList]

theorem hostsOf_eq_nil_iff {v : String} :
    UpstreamConfig.hostsOf v = [] ↔ ∀ c ∈ v.toList, c = ',' := by
  rw [← Separated.splitOn_all_nil_iff, List.eq_nil_iff_forall_not_mem]
  constructor
  · intro hnone part hpart
    by_contra hne
    refine hnone (String.ofList part) (mem_hostsOf_iff.mpr ⟨fun h => hne ?_, ?_⟩)
    · rw [← String.toList_ofList (l := part), h]
      rfl
    · rwa [String.toList_ofList]
  · intro hall host hhost
    obtain ⟨hne, hmem⟩ := mem_hostsOf_iff.mp hhost
    exact hne (String.toList_inj.mp (hall host.toList hmem))

theorem validateTarget_ofEnv_iff {platform : Platform} {v target : String} {timeoutMs : ℕ} :
    validateTarget platform (.ofEnv v timeoutMs) target = .ok () ↔
      PermittedBy platform v target := by
  by_cases hnone : UpstreamConfig.hostsOf v = []
  · have hcommas := hostsOf_eq_nil_iff.mp hnone
    unfold validateTarget
    constructor
    · intro h
      split at h
      · cases h
      · cases h
      · next url hparse => exact ⟨url, hparse, Or.inl hcommas⟩
    · rintro ⟨url, hparse, -⟩
      simp only [hparse, UpstreamConfig.ofEnv, hnone, decide_true, Bool.true_or, ↓reduceIte]
  · rw [validateTarget_eq_ok_iff hnone]
    have hnamed : ¬ ∀ c ∈ v.toList, c = ',' := fun h => hnone (hostsOf_eq_nil_iff.mpr h)
    constructor
    · rintro ⟨url, hurl⟩
      obtain ⟨host, hhost, hlabels⟩ := hurl.listed
      obtain ⟨hne, hmem⟩ := mem_hostsOf_iff.mp hhost
      exact ⟨url, hurl.parsed, Or.inr ⟨host, hne, hmem, hlabels⟩⟩
    · rintro ⟨url, hparse, hall | ⟨host, hne, hmem, hlabels⟩⟩
      · exact absurd hall hnamed
      · exact ⟨url, hparse, protocol_of_parse hparse, host, mem_hostsOf_iff.mpr ⟨hne, hmem⟩,
          hlabels⟩

theorem not_throws_of_valid {S E : Type} {repository : ICacheRepository S E V} {platform : Platform}
    {upstreamConfig : UpstreamConfig} {proxied : ProxyRequest} {arrival : Arrival E}
    {s s' : ProxyState S} {e : Thrown}
    (hvalid : validateTarget platform upstreamConfig proxied.targetUrl = .ok ()) :
    lookUp repository platform upstreamConfig proxied arrival s ≠
      (s', .throws e) := by
  intro h
  unfold lookUp at h
  simp only [hvalid] at h
  split at h
  · split at h
    · cases h
    · cases h
  · cases h

end ProxyCacheService

namespace HttpService

open ProxyCacheService (PermittedBy)

variable {S E : Type} {service : HttpService S E V}

theorem waiting_step {g : Gateway S} {a : HttpAction E V} {w : Waiting}
    (h : some w ∈ (service.step g a).waiting) :
    some w ∈ g.waiting ∨ ProxyCacheService.validateTarget service.platform service.upstreamConfig
      w.request.targetUrl = .ok () := by
  cases a with
  | request request ctx =>
    simp only [step, act, Server.act, Server.respond] at h
    split at h
    · exact Or.inl h
    · split at h
      · exact Or.inl h
      · exact Or.inl h
      · unfold Server.proxy at h
        split at h
        · exact Or.inl h
        · split at h
          · exact Or.inl h
          · exact Or.inl h
          · next s hlookUp =>
            rcases List.mem_append.mp h with hold | hnew
            · exact Or.inl hold
            · obtain rfl := Option.some.inj (List.mem_singleton.mp hnew)
              exact Or.inr (ProxyCacheService.valid_of_miss (congrArg Prod.snd hlookUp))
      · exact Or.inl h
  | depart i departure =>
    simp only [step, act, Server.act] at h
    split at h
    · exact Or.inl ((List.mem_or_eq_of_mem_set h).resolve_right fun hnone => by cases hnone)
    · exact Or.inl h
  | sweep env => exact Or.inl h

theorem valid_of_waiting (start : ProxyState S) (actions : List (HttpAction E V)) {w : Waiting}
    (h : some w ∈ (service.reach start actions).waiting) :
    ProxyCacheService.validateTarget service.platform service.upstreamConfig
      w.request.targetUrl = .ok () := by
  refine Runs.run_invariant (I := fun g : Gateway S => ∀ w, some w ∈ g.waiting →
    ProxyCacheService.validateTarget service.platform service.upstreamConfig
      w.request.targetUrl = .ok ()) (fun g a hg w hw => ?_) (fun w hw => ?_) actions w h
  · rcases waiting_step hw with hold | hvalid
    · exact hg w hold
    · exact hvalid
  · cases hw

theorem refused_iff {request : HttpRequest V} {proxied : ProxyRequest}
    (hrequest : request.IsProxied proxied) (ctx : Context E) (g : Gateway S) :
    (∃ message, service.act g (.request request ctx) =
        (g, some (failed (.validationError message)))) ↔
      ProxyCacheService.validateTarget service.platform service.upstreamConfig proxied.targetUrl ≠
        .ok () := by
  obtain ⟨body, hbody, hproxied⟩ := hrequest.body
  have hact : service.act g (.request request ctx) = Server.proxy service.repository
      service.platform service.upstreamConfig request body ctx g := by
    simp only [act, Server.act, Server.respond, hbody, hrequest.dispatch_eq]
  rw [hact]
  simp only [Server.proxy, hproxied]
  constructor
  · rintro ⟨message, hrefused⟩ hvalid
    have hresponse := congrArg Prod.snd hrefused
    cases hlookUp : ProxyCacheService.lookUp service.repository.interface service.platform
        service.upstreamConfig proxied ⟨ctx.start, ctx.env, ctx.clock⟩ g.proxy with
    | mk s result =>
      rw [hlookUp] at hresponse
      cases result with
      | hit response =>
        have hbodies := congrArg (Option.map HttpResponse.body) hresponse
        cases hbodies
      | throws e => exact ProxyCacheService.not_throws_of_valid hvalid hlookUp
      | miss => cases hresponse
  · intro hinvalid
    cases hvalid : ProxyCacheService.validateTarget service.platform service.upstreamConfig
        proxied.targetUrl with
    | ok u => exact absurd hvalid hinvalid
    | error e =>
      obtain ⟨message, rfl⟩ := ProxyCacheService.exists_message_of_validateTarget hvalid
      refine ⟨message, ?_⟩
      simp only [ProxyCacheService.lookUp, hvalid]

/-- With the upstream hosts read from a text, a request waits for a target in some run only when
the text permits the target, and all others are refused, with nothing done. -/
theorem targets_permitted {v : String} {timeoutMs : ℕ}
    (hconfig : service.upstreamConfig = .ofEnv v timeoutMs) (start : ProxyState S)
    (actions : List (HttpAction E V)) :
    let g := service.reach start actions
    (∀ w, some w ∈ g.waiting → PermittedBy service.platform v w.request.targetUrl) ∧
      ∀ request proxied ctx, request.IsProxied proxied →
        ((∃ message, service.act g (.request request ctx) =
            (g, some (failed (.validationError message)))) ↔
          ¬ PermittedBy service.platform v proxied.targetUrl) := by
  intro g
  refine ⟨fun w hw => ?_, fun request proxied ctx hrequest => ?_⟩
  · have hvalid := valid_of_waiting start actions hw
    rw [hconfig] at hvalid
    exact ProxyCacheService.validateTarget_ofEnv_iff.mp hvalid
  · rw [refused_iff hrequest ctx g, hconfig]
    exact not_congr ProxyCacheService.validateTarget_ofEnv_iff

/-- A blank after a comma belongs to the host that follows it, which then names nothing. -/
theorem targets_permitted_blank :
    let listed : HttpService (Tiers String) Surroundings String :=
      { overRedis with upstreamConfig := .ofEnv "a.b, c.d" 1000 }
    ∃ message, listed.act ⟨fresh, []⟩ (.request (.ofPage "http://c.d/x") (.whenRedis true)) =
      (⟨fresh, []⟩, some (failed (.validationError message))) := by
  intro listed
  have hparse : Url.parse .plain "http://c.d/x" = .web ⟨"http:", "c.d", "", "/x", ""⟩ := by
    decide +kernel
  have hnot : ¬ PermittedBy .plain "a.b, c.d" "http://c.d/x" := by
    rintro ⟨url, hurl, hcommas | ⟨host, -, hhost, hlabels⟩⟩
    · exact absurd (hcommas 'a' (by decide)) (by decide)
    · obtain rfl := ParsedUrl.web.inj (hurl.symm.trans hparse)
      have hparts : "a.b, c.d".toList.splitOn ',' = ["a.b".toList, " c.d".toList] := by
        decide +kernel
      rw [hparts, List.mem_cons, List.mem_singleton, String.toList_inj, String.toList_inj] at hhost
      rcases hhost with rfl | rfl
      · revert hlabels
        decide +kernel
      · revert hlabels
        decide +kernel
  have hconfig : listed.upstreamConfig = .ofEnv "a.b, c.d" 1000 := rfl
  exact ((targets_permitted hconfig fresh []).2 _ _ (.whenRedis true)
    (HttpRequest.isProxied_ofPage "http://c.d/x")).mpr hnot

end HttpService

end EdgeCache
