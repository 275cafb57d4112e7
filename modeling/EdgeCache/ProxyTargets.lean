import EdgeCache.ProxyCache
import EdgeCache.Library.Programs
import EdgeCache.Library.Separated

/-!
A call of `ProxyCacheService.proxy` as a program: what it asks of the repository, of the
metrics and of the network, effect by effect. Served by them it is the call of the model.
With an upstream list, it has an effect only for a target on a host of the list or below one,
label by label; and the connection is to the host that was looked up in the list.
-/
namespace EdgeCache

variable {V : Type}

inductive ProxyCommand (V : Type) where
  | get (key : String)
  | set (key : String) (value : V) (options : SetOptions)
  | recordHit (latencyMs : ℤ)
  | recordMiss (latencyMs : ℤ)
  | connect (connection : UpstreamRequest)

inductive ProxyReply (V : Type) where
  | entry (entry : Option (CacheEntry V))
  | outcome (outcome : UpstreamOutcome)
  | done

abbrev ProxyProgram (V : Type) :=
  Programs.Program (ProxyCommand V) (ProxyReply V) Time (Except Thrown (ProxyResponse V))

namespace ProxyCacheService

section Effects

variable (platform : Platform) (config : Config) (upstreamConfig : UpstreamConfig)
  (reader : BodyReader V)

def fetchCalls (request : ProxyRequest) (k : UpstreamAnswer V → ProxyProgram V) :
    ProxyProgram V :=
  match Url.parse platform request.targetUrl with
  | .web url =>
    .call (.connect (options upstreamConfig url request)) fun reply =>
      match reply with
      | some (.outcome outcome) =>
        match fetchUpstream platform upstreamConfig reader (fun _ => outcome) request with
        | .ok answer => k answer
        | .error e => .ret (.error e)
      | _ => .throw
  | _ => .ret (.error .typeError)

def missCalls (request : ProxyRequest) (start : Time) : ProxyProgram V :=
  fetchCalls platform upstreamConfig reader request fun answer =>
    .now fun now =>
      let latencyMs := now.val - start.val
      let response : ProxyResponse V :=
        ⟨.number answer.statusCode, answer.headers, answer.body, false, none, latencyMs⟩
      if isStored request answer then
        .call (.set (key platform request) answer.body (storedOptions config request answer))
          fun reply =>
            match reply with
            | none => .throw
            | some _ => .call (.recordMiss latencyMs) fun _ => .ret (.ok response)
      else .ret (.ok response)

def hitCalls (start : Time) (entry : CacheEntry V) : ProxyProgram V :=
  .now fun now =>
    .call (.recordHit (now.val - start.val)) fun _ =>
      .now fun later =>
        .ret (.ok (replay start (fun i => if i = 0 then now else later) entry))

/-- `proxy`, effect by effect. -/
def proxyCalls (request : ProxyRequest) : ProxyProgram V :=
  .now fun start =>
    match validateTarget platform upstreamConfig request.targetUrl with
    | .error e => .ret (.error e)
    | .ok () =>
      if isCacheable request then
        .call (.get (key platform request)) fun reply =>
          match reply with
          | some (.entry (some entry)) => hitCalls start entry
          | some (.entry none) => missCalls platform config upstreamConfig reader request start
          | _ => .throw
      else missCalls platform config upstreamConfig reader request start

end Effects

/-! ### Served by the repository, the metrics and the network -/

section Service

variable {S E : Type} (repository : ICacheRepository S E V) (readEnv writeEnv : E)
  (upstream : Upstream)

def serve (_ : Time) (s : ProxyState S) : ProxyCommand V → ProxyState S × Option (ProxyReply V)
  | .get key =>
    let (r, entry) := repository.get readEnv key s.repository
    ({ s with repository := r }, some (.entry entry))
  | .set key value options =>
    ({ s with repository := repository.set writeEnv key value options s.repository }, some .done)
  | .recordHit latencyMs => ({ s with metrics := s.metrics.recordHit latencyMs }, some .done)
  | .recordMiss latencyMs => ({ s with metrics := s.metrics.recordMiss latencyMs }, some .done)
  | .connect connection => (s, some (.outcome (upstream connection)))

variable (platform : Platform) (config : Config) (upstreamConfig : UpstreamConfig)
  (reader : BodyReader V)

theorem run_missCalls (request : ProxyRequest) (start : Time) (clock : ℕ → Time) (i : ℕ)
    (s : ProxyState S) :
    Programs.run (serve repository readEnv writeEnv upstream) clock Programs.faultless i
        (missCalls platform config upstreamConfig reader request start) s =
      let result := complete repository platform config upstreamConfig reader request start
        ⟨upstream, clock (i + 1), writeEnv⟩ s
      (result.1, some result.2) := by
  unfold missCalls fetchCalls complete
  cases hparse : Url.parse platform request.targetUrl with
  | invalid => simp only [fetchUpstream, hparse, Programs.run]
  | other => simp only [fetchUpstream, hparse, Programs.run]
  | web url =>
    have hsame : fetchUpstream platform upstreamConfig reader upstream request =
        fetchUpstream platform upstreamConfig reader
          (fun _ => upstream (options upstreamConfig url request)) request := by
      simp only [fetchUpstream, hparse]
    simp only [Programs.run, Programs.attempt, Programs.faultless, serve, hsame]
    cases fetchUpstream platform upstreamConfig reader
        (fun _ => upstream (options upstreamConfig url request)) request with
    | error e => rfl
    | ok answer =>
      simp only [Programs.run]
      split
      · rfl
      · rfl

/-- The effects of a call, carried out one after the other, are the call. -/
theorem run_proxyCalls (request : ProxyRequest) (clock : ℕ → Time) (s : ProxyState S) :
    Programs.run (serve repository readEnv writeEnv upstream) clock Programs.faultless 0
        (proxyCalls platform config upstreamConfig reader request) s =
      let result := proxy repository platform config upstreamConfig reader request
        ⟨clock 0, readEnv, fun i => clock (2 + 2 * i)⟩
        ⟨upstream, clock (if isCacheable request then 3 else 2), writeEnv⟩ s
      (result.1, some result.2) := by
  unfold proxyCalls proxy lookUp
  simp only [Programs.run]
  cases validateTarget platform upstreamConfig request.targetUrl with
  | error e => rfl
  | ok u =>
    cases hcacheable : isCacheable request with
    | false =>
      simp only [Bool.false_eq_true, ↓reduceIte]
      exact run_missCalls repository readEnv writeEnv upstream platform config upstreamConfig
        reader request (clock 0) clock 1 s
    | true =>
      obtain ⟨r, found, hget⟩ : ∃ r found,
          repository.get readEnv (key platform request) s.repository = (r, found) := ⟨_, _, rfl⟩
      have hserve : serve repository readEnv writeEnv upstream (clock 1) s
          (.get (key platform request)) = (⟨r, s.metrics⟩, some (.entry found)) := by
        simp only [serve, hget]
      simp only [↓reduceIte, Programs.run, Programs.attempt, Programs.faultless, hserve, hget]
      cases found with
      | some entry => rfl
      | none =>
        exact run_missCalls repository readEnv writeEnv upstream platform config upstreamConfig
          reader request (clock 0) clock 2 _

end Service

/-! ### The upstream list -/

def labels (host : String) : List (List Char) := host.toList.splitOn '.'

/-- The target is a page of the web on a host that is, label by label, one of the list or
below one. -/
structure IsAllowed (platform : Platform) (upstreamConfig : UpstreamConfig) (target : String)
    (url : Url) : Prop where
  parsed : Url.parse platform target = .web url
  scheme : url.protocol = "http:" ∨ url.protocol = "https:"
  listed : ∃ h ∈ upstreamConfig.allowedHosts, labels h <:+ labels url.hostname

/-- The test of the service is the one by labels: a host that merely ends with the same letters
does not pass. -/
theorem labels_suffix_iff (h hostname : String) :
    labels h <:+ labels hostname ↔
      (hostname = h || ("." ++ h).toList.isSuffixOf hostname.toList) = true := by
  have hdot : ("." ++ h).toList = '.' :: h.toList := by
    rw [String.toList_append]
    rfl
  unfold labels
  rw [Separated.splitOn_suffix_iff, Bool.or_eq_true, decide_eq_true_eq, List.isSuffixOf_iff_suffix,
    hdot, String.toList_inj]

theorem protocol_of_parse {platform : Platform} {target : String} {url : Url}
    (h : Url.parse platform target = .web url) :
    url.protocol = "http:" ∨ url.protocol = "https:" := by
  unfold Url.parse at h
  split at h
  · cases h
  · next scheme rest hsplit =>
    split at h
    · next hweb =>
      split at h
      · cases h
      · obtain rfl := ParsedUrl.web.inj h
        simp only [Url.isWeb, Bool.or_eq_true, decide_eq_true_eq] at hweb
        rcases hweb with rfl | rfl
        · exact Or.inl (show String.ofList "http".toList ++ ":" = "http:" by decide)
        · exact Or.inr (show String.ofList "https".toList ++ ":" = "https:" by decide)
    · split at h
      · cases h
      · cases h

variable {platform : Platform} {upstreamConfig : UpstreamConfig} {target : String}

theorem validateTarget_eq_ok_iff (hne : upstreamConfig.allowedHosts ≠ []) :
    validateTarget platform upstreamConfig target = .ok () ↔
      ∃ url, IsAllowed platform upstreamConfig target url := by
  unfold validateTarget
  cases hparse : Url.parse platform target with
  | invalid =>
    refine iff_of_false (fun h => by cases h) ?_
    rintro ⟨url, hurl⟩
    exact absurd (hparse.symm.trans hurl.parsed) (fun h => by cases h)
  | other =>
    refine iff_of_false (fun h => by cases h) ?_
    rintro ⟨url, hurl⟩
    exact absurd (hparse.symm.trans hurl.parsed) (fun h => by cases h)
  | web url =>
    have hlisted : (upstreamConfig.allowedHosts.any fun h =>
        url.hostname = h || ("." ++ h).toList.isSuffixOf url.hostname.toList) = true ↔
        ∃ url, IsAllowed platform upstreamConfig target url := by
      rw [List.any_eq_true]
      constructor
      · rintro ⟨h, hmem, hsuffix⟩
        exact ⟨url, hparse, protocol_of_parse hparse, h, hmem,
          (labels_suffix_iff h url.hostname).mpr hsuffix⟩
      · rintro ⟨url', hurl'⟩
        obtain rfl : url' = url := ParsedUrl.web.inj (hurl'.parsed.symm.trans hparse)
        obtain ⟨h, hmem, hsuffix⟩ := hurl'.listed
        exact ⟨h, hmem, (labels_suffix_iff h url'.hostname).mp hsuffix⟩
    simp only [hne, decide_false, Bool.false_or]
    rw [← hlisted]
    split
    · next hany => exact iff_of_true rfl hany
    · next hany => exact iff_of_false (fun h => by cases h) hany

theorem exists_message_of_validateTarget {e : Thrown}
    (h : validateTarget platform upstreamConfig target = .error e) :
    ∃ message, e = .validationError message := by
  unfold validateTarget at h
  split at h
  · exact ⟨_, (Except.error.inj h).symm⟩
  · exact ⟨_, (Except.error.inj h).symm⟩
  · split at h
    · cases h
    · exact ⟨_, (Except.error.inj h).symm⟩

section Reach

variable {config : Config} {reader : BodyReader V} {request : ProxyRequest}
  {issue : ProxyCommand V → Prop}

theorem onlyCalls_missCalls (start : Time) (hset : ∀ key value options,
      issue (.set key value options)) (hmiss : ∀ latencyMs, issue (.recordMiss latencyMs))
    (hconnect : ∀ url, Url.parse platform request.targetUrl = .web url →
      issue (.connect (options upstreamConfig url request))) :
    (missCalls platform config upstreamConfig reader request start).OnlyCalls issue := by
  unfold missCalls fetchCalls
  split
  · next url hparse =>
    refine ⟨hconnect url hparse, fun reply _ => ?_⟩
    beta_reduce
    split
    · split
      · intro now _
        beta_reduce
        split
        · refine ⟨hset _ _ _, fun reply _ => ?_⟩
          beta_reduce
          split
          · trivial
          · exact ⟨hmiss _, fun _ _ => trivial⟩
        · trivial
      · trivial
    · trivial
  · trivial

/-- Once the target is valid, a call reads, counts and writes, and connects where the target
leads. -/
theorem onlyCalls_proxyCalls (hget : ∀ key, issue (.get key))
    (hhit : ∀ latencyMs, issue (.recordHit latencyMs))
    (hset : ∀ key value options, issue (.set key value options))
    (hmiss : ∀ latencyMs, issue (.recordMiss latencyMs))
    (hconnect : ∀ url, Url.parse platform request.targetUrl = .web url →
      issue (.connect (options upstreamConfig url request))) :
    (proxyCalls platform config upstreamConfig reader request).OnlyCalls issue := by
  intro start _
  split
  · trivial
  · have hmissed : (missCalls platform config upstreamConfig reader request start).OnlyCalls
        issue := onlyCalls_missCalls start hset hmiss hconnect
    split
    · refine ⟨hget _, fun reply _ => ?_⟩
      beta_reduce
      split
      · exact fun now _ => ⟨hhit _, fun _ _ later _ => trivial⟩
      · exact hmissed
      · trivial
    · exact hmissed

end Reach

/-- With an upstream list, a call has an effect only for an allowed target, and connects to the
host that was found in the list; any other target is rejected before all else. -/
theorem effects_of_allowedHosts (platform : Platform) (config : Config)
    (upstreamConfig : UpstreamConfig) (reader : BodyReader V) (request : ProxyRequest)
    (hne : upstreamConfig.allowedHosts ≠ []) :
    (proxyCalls platform config upstreamConfig reader request).OnlyCalls (fun command =>
      ∃ url, IsAllowed platform upstreamConfig request.targetUrl url ∧
        ∀ connection, command = .connect connection → connection.hostname = url.hostname) ∧
    ((∀ url, ¬ IsAllowed platform upstreamConfig request.targetUrl url) →
      ∃ message, proxyCalls platform config upstreamConfig reader request =
          .now (fun _ => .ret (.error (.validationError message))) ∧
        ∀ (S E : Type) (repository : ICacheRepository S E V) (arrival : Arrival E)
          (departure : Departure E) (s : ProxyState S),
          proxy repository platform config upstreamConfig reader request arrival departure s =
            (s, .error (.validationError message))) := by
  constructor
  · by_cases hallowed : ∃ url, IsAllowed platform upstreamConfig request.targetUrl url
    · obtain ⟨url, hurl⟩ := hallowed
      refine onlyCalls_proxyCalls (fun key => ⟨url, hurl, ?_⟩) (fun latencyMs => ⟨url, hurl, ?_⟩)
        (fun key value options => ⟨url, hurl, ?_⟩) (fun latencyMs => ⟨url, hurl, ?_⟩)
        fun url' hparse => ⟨url, hurl, ?_⟩
      · exact fun connection h => by cases h
      · exact fun connection h => by cases h
      · exact fun connection h => by cases h
      · exact fun connection h => by cases h
      · intro connection hconnection
        obtain rfl : url = url' := ParsedUrl.web.inj (hurl.parsed.symm.trans hparse)
        rw [← ProxyCommand.connect.inj hconnection]
        rfl
    · intro start _
      split
      · trivial
      · next hok => exact absurd ((validateTarget_eq_ok_iff hne).mp hok) hallowed
  · intro hnone
    cases hvalid : validateTarget platform upstreamConfig request.targetUrl with
    | ok u =>
      obtain ⟨url, hurl⟩ := (validateTarget_eq_ok_iff hne).mp hvalid
      exact absurd hurl (hnone url)
    | error e =>
      obtain ⟨message, rfl⟩ := exists_message_of_validateTarget hvalid
      refine ⟨message, ?_, fun S E repository arrival departure s => ?_⟩
      · unfold proxyCalls
        rw [hvalid]
      · unfold proxy lookUp
        rw [hvalid]

/-- A host that only looks like one of the list. -/
theorem effects_of_allowedHosts_lookalike :
    ∃ message, proxyCalls .plain ⟨2, 60, by decide, by decide⟩ ⟨["a.b"], 1000⟩
        (⟨fun _ => none, id⟩ : BodyReader String) (pageRequest "http://xa.b/a.b" [] none) =
      .now (fun _ => .ret (.error (.validationError message))) := by
  have hparse : Url.parse .plain "http://xa.b/a.b" =
      .web ⟨"http:", "xa.b", "", "/a.b", ""⟩ := by decide +kernel
  obtain ⟨message, hcalls, -⟩ := (effects_of_allowedHosts .plain ⟨2, 60, by decide, by decide⟩
    ⟨["a.b"], 1000⟩ (⟨fun _ => none, id⟩ : BodyReader String)
    (pageRequest "http://xa.b/a.b" [] none) (by decide)).2 (by
      intro url hurl
      obtain rfl : url = ⟨"http:", "xa.b", "", "/a.b", ""⟩ :=
        ParsedUrl.web.inj (hurl.parsed.symm.trans hparse)
      have hlisted := hurl.listed
      revert hlisted
      decide +kernel)
  exact ⟨message, hcalls⟩

end ProxyCacheService

end EdgeCache
