import EdgeCache.ProxyRuns

/-!
What the headers of one request have to do with the answer to another one. They are not
part of the key: an answer that a target gave to one request is replayed to all requests
with the same method, URL and body. Headers matter to others in no other way.
-/
namespace EdgeCache

variable {V : Type}

namespace ProxyCacheService

/-! ### What a call answers and what it leaves -/

section Calls

variable {S E : Type} (repository : ICacheRepository S E V) (platform : Platform)
  (config : Config) (upstreamConfig : UpstreamConfig) (reader : BodyReader V)

def fetched (request : ProxyRequest) (start : Time) (departure : Departure E) :
    Except Thrown (ProxyResponse V) :=
  (fetchUpstream platform upstreamConfig reader departure.upstream request).map fun answer =>
    ⟨.number answer.statusCode, answer.headers, answer.body, false, none,
      departure.now.val - start.val⟩

/-- The answer of the target that is kept. -/
def kept (request : ProxyRequest) (departure : Departure E) : Option (UpstreamAnswer V) :=
  (fetchUpstream platform upstreamConfig reader departure.upstream request).toOption.filter
    (isStored request)

variable {repository platform config upstreamConfig reader}
variable {request : ProxyRequest} {start : Time} {arrival : Arrival E} {departure : Departure E}
  {s : ProxyState S}

theorem complete_snd : (complete repository platform config upstreamConfig reader request start
    departure s).2 = fetched platform upstreamConfig reader request start departure := by
  unfold complete fetched
  split
  · next e hfetch =>
    rw [hfetch]
    rfl
  · next answer hfetch =>
    rw [hfetch]
    simp only
    split <;> rfl

theorem complete_of_kept_none
    (h : kept platform upstreamConfig reader request departure = none) :
    (complete repository platform config upstreamConfig reader request start departure s).1 =
      s := by
  unfold kept at h
  unfold complete
  split
  · rfl
  · next answer hfetch =>
    rw [hfetch] at h
    have hstored : isStored request answer = false :=
      Bool.eq_false_iff.mpr fun hstored => by simp [Except.toOption, hstored] at h
    simp only [hstored, Bool.false_eq_true, ↓reduceIte]

theorem complete_of_kept {answer : UpstreamAnswer V}
    (h : kept platform upstreamConfig reader request departure = some answer) :
    (complete repository platform config upstreamConfig reader request start departure
      s).1.repository = repository.set departure.env (key platform request) answer.body
        (storedOptions config request answer) s.repository := by
  unfold kept at h
  obtain ⟨hfetch, hstored⟩ := Option.filter_eq_some_iff.mp h
  unfold complete
  split
  · next e hfetch' =>
    rw [hfetch'] at hfetch
    cases hfetch
  · next answer' hfetch' =>
    rw [hfetch'] at hfetch
    obtain rfl := Option.some.inj hfetch
    simp only [hstored, ↓reduceIte]

theorem kept_of_not_cacheable (h : isCacheable request = false) :
    kept platform upstreamConfig reader request departure = none := by
  unfold kept
  refine Option.filter_eq_none_iff.mpr fun answer _ hstored => ?_
  simp only [isStored, h, Bool.false_and, Bool.false_eq_true] at hstored

theorem proxy_snd (hvalid : validateTarget platform upstreamConfig request.targetUrl = .ok ())
    (hcacheable : isCacheable request = true) :
    (proxy repository platform config upstreamConfig reader request arrival departure s).2 =
      match (repository.get arrival.env (key platform request) s.repository).2 with
      | some entry => .ok (replay arrival.start arrival.clock entry)
      | none => fetched platform upstreamConfig reader request arrival.start departure := by
  unfold proxy lookUp
  simp only [hvalid, hcacheable, ↓reduceIte]
  cases hget : repository.get arrival.env (key platform request) s.repository with
  | mk r found =>
    cases found with
    | some entry => rfl
    | none => exact complete_snd

theorem proxy_fst_of_miss
    (h : (lookUp repository platform upstreamConfig request arrival s).2 = .miss) :
    (proxy repository platform config upstreamConfig reader request arrival departure s).1 =
      (complete repository platform config upstreamConfig reader request arrival.start departure
        (lookUp repository platform upstreamConfig request arrival s).1).1 := by
  unfold proxy
  split
  · next hlookup =>
    rw [hlookup] at h
    cases h
  · next hlookup =>
    rw [hlookup] at h
    cases h
  · next hlookup => rw [hlookup]

/-- A call that keeps nothing leaves what it looked up. -/
theorem proxy_fst_of_kept_none
    (h : (lookUp repository platform upstreamConfig request arrival s).2 = .miss →
      kept platform upstreamConfig reader request departure = none) :
    (proxy repository platform config upstreamConfig reader request arrival departure s).1 =
      (lookUp repository platform upstreamConfig request arrival s).1 := by
  cases hresult : (lookUp repository platform upstreamConfig request arrival s).2 with
  | miss => rw [proxy_fst_of_miss hresult, complete_of_kept_none (h hresult)]
  | hit response =>
    unfold proxy
    split
    · next hlookup => rw [hlookup]
    · next hlookup => rw [hlookup]
    · next hlookup =>
      rw [hlookup] at hresult
      cases hresult
  | throws e =>
    unfold proxy
    split
    · next hlookup => rw [hlookup]
    · next hlookup => rw [hlookup]
    · next hlookup =>
      rw [hlookup] at hresult
      cases hresult

theorem lookUp_of_not_cacheable (h : isCacheable request = false) :
    (lookUp repository platform upstreamConfig request arrival s).1 = s := by
  unfold lookUp
  split
  · rfl
  · rw [if_neg (by rw [h]; exact Bool.false_ne_true)]

theorem valid_of_miss
    (h : (lookUp repository platform upstreamConfig request arrival s).2 = .miss) :
    validateTarget platform upstreamConfig request.targetUrl = .ok () := by
  unfold lookUp at h
  split at h
  · cases h
  · next hvalid => exact hvalid

theorem lookUp_of_cacheable
    (hvalid : validateTarget platform upstreamConfig request.targetUrl = .ok ())
    (hcacheable : isCacheable request = true) :
    (lookUp repository platform upstreamConfig request arrival s).1.repository =
        (repository.get arrival.env (key platform request) s.repository).1 ∧
      ((lookUp repository platform upstreamConfig request arrival s).2 = .miss ↔
        (repository.get arrival.env (key platform request) s.repository).2 = none) := by
  unfold lookUp
  simp only [hvalid, hcacheable, ↓reduceIte]
  cases hget : repository.get arrival.env (key platform request) s.repository with
  | mk r found => cases found <;> simp

theorem proxy_snd_of_not_cacheable (h : isCacheable request = false) (s s' : ProxyState S) :
    (proxy repository platform config upstreamConfig reader request arrival departure s).2 =
      (proxy repository platform config upstreamConfig reader request arrival departure s').2 := by
  unfold proxy lookUp
  cases validateTarget platform upstreamConfig request.targetUrl with
  | error e => rfl
  | ok u =>
    simp only [h, Bool.false_eq_true, ↓reduceIte]
    rw [complete_snd, complete_snd]

theorem proxy_snd_of_invalid {e : Thrown}
    (h : validateTarget platform upstreamConfig request.targetUrl = .error e) :
    proxy repository platform config upstreamConfig reader request arrival departure s =
      (s, .error e) := by
  unfold proxy lookUp
  simp only [h]

end Calls

/-! ### One request after another -/

section Pairs

variable {S E : Type} {config : Config} (R : Wiring config S E V) (platform : Platform)
  (upstreamConfig : UpstreamConfig) (reader : BodyReader V)

/-- The call leaves an answer of its target, to be found at a later time. -/
structure Leaves (request : ProxyRequest) (arrival : Arrival E) (departure : Departure E)
    (s : ProxyState S) (later : Time) (answer : UpstreamAnswer V) : Prop where
  cacheable : isCacheable request = true
  missed : (lookUp R.toICacheRepository platform upstreamConfig request arrival s).2 = .miss
  kept : kept platform upstreamConfig reader request departure = some answer
  fresh : (MemoryView.newEntry config (R.clock departure.env 1) (key platform request) answer.body
    (storedOptions config request answer)).isExpired later = false

variable {R platform upstreamConfig reader}
variable {r r' : ProxyRequest} {arrival arrival' : Arrival E} {departure departure' : Departure E}
  {s : ProxyState S}

theorem key_congr (hmethod : r.method = r'.method) (hurl : r.targetUrl = r'.targetUrl)
    (hbody : r.body = r'.body) : key platform r = key platform r' := by
  unfold key
  rw [hmethod, hurl, hbody]

/-- What a call leaves is the answer to the next one. -/
theorem replayed_of_leaves (hkey : key platform r = key platform r')
    (hurl : r.targetUrl = r'.targetUrl) (hs : R.Sound s.repository)
    (hcacheable : isCacheable r' = true) {answer : UpstreamAnswer V}
    (h : Leaves R platform upstreamConfig reader r arrival departure s
      (R.clock arrival'.env 0) answer) :
    ∃ response, (proxy R.toICacheRepository platform config upstreamConfig reader r' arrival'
        departure' (proxy R.toICacheRepository platform config upstreamConfig reader r arrival
          departure s).1).2 = .ok response ∧
      response.cached = true ∧ response.body = answer.body ∧
      response.headers = storedMetadata answer ∧
      response.statusCode = .text (toString answer.statusCode) := by
  have hvalid := valid_of_miss h.missed
  have hlookup : (lookUp R.toICacheRepository platform upstreamConfig r arrival s).1.repository =
      (R.get arrival.env (key platform r) s.repository).1 :=
    (lookUp_of_cacheable hvalid h.cacheable).1
  obtain ⟨v, hv⟩ := R.shows (R.holds_get (hs (key platform r)) arrival.env (key platform r)).1
  have hentry := MemoryCacheRepository.entryAt_set hv (R.clock departure.env) (key platform r)
    answer.body (storedOptions config r answer) rfl
  have hset := hv.set (R.clock departure.env) (key platform r) answer.body
    (storedOptions config r answer)
  have hfound : (((R.l1 _).set _ _ _ _).get (R.clock arrival'.env) (key platform r)).2 = _ :=
    MemoryCacheRepository.get_of_fresh hset hentry h.fresh
  rw [← R.l1_set] at hfound
  have hget := R.get_of_l1 _ _ _ _ hfound
  rw [proxy_snd (hurl ▸ hvalid) hcacheable, proxy_fst_of_miss h.missed, complete_of_kept h.kept,
    hlookup, ← hkey, hget]
  exact ⟨_, rfl, rfl, rfl, rfl, rfl⟩

theorem proxy_fst_of_headers (headers : Headers)
    (h : (lookUp R.toICacheRepository platform upstreamConfig r arrival s).2 = .miss →
      kept platform upstreamConfig reader r departure = none ∧
        kept platform upstreamConfig reader { r with headers := headers } departure = none) :
    (proxy R.toICacheRepository platform config upstreamConfig reader
        { r with headers := headers } arrival departure s).1 =
      (proxy R.toICacheRepository platform config upstreamConfig reader r arrival
        departure s).1 := by
  have hwith : (proxy R.toICacheRepository platform config upstreamConfig reader
      { r with headers := headers } arrival departure s).1 =
      (lookUp R.toICacheRepository platform upstreamConfig r arrival s).1 :=
    proxy_fst_of_kept_none fun hmiss => (h hmiss).2
  exact hwith.trans (proxy_fst_of_kept_none fun hmiss => (h hmiss).1).symm

end Pairs

/-- Over the memory tier alone, what a call does not leave, the next one does not notice. -/
theorem response_of_not_leaves {config : Config} {platform : Platform}
    {upstreamConfig : UpstreamConfig} {reader : BodyReader V} {r r' : ProxyRequest}
    (hkey : key platform r = key platform r') (hurl : r.targetUrl = r'.targetUrl)
    (hcacheable : isCacheable r = true) (hcacheable' : isCacheable r' = true)
    {s : ProxyState (MemoryCacheRepository V)}
    (hs : (MemoryCacheRepository.wiring config).Sound s.repository)
    {arrival arrival' : Arrival Clock} (hclock : arrival.env 0 ≤ arrival'.env 0)
    {departure departure' : Departure Clock}
    (h : ∀ answer, ¬ Leaves (MemoryCacheRepository.wiring config) platform upstreamConfig reader r
      arrival departure s (arrival'.env 0) answer) :
    (proxy (MemoryCacheRepository.wiring config).toICacheRepository platform config upstreamConfig
        reader r' arrival' departure'
        (proxy (MemoryCacheRepository.wiring config).toICacheRepository platform config
          upstreamConfig reader r arrival departure s).1).2 =
      (proxy (MemoryCacheRepository.wiring config).toICacheRepository platform config
        upstreamConfig reader r' arrival' departure' s).2 := by
  cases hvalid : validateTarget platform upstreamConfig r.targetUrl with
  | error e => rw [proxy_snd_of_invalid hvalid]
  | ok u =>
    obtain ⟨v, hv⟩ : ∃ v, MemoryCacheRepository.Shows config s.repository v :=
      (MemoryCacheRepository.wiring config).shows (hs (key platform r))
    obtain ⟨hread, hmissed⟩ : (lookUp (MemoryCacheRepository.wiring config).toICacheRepository
          platform upstreamConfig r arrival s).1.repository =
          (s.repository.get arrival.env (key platform r)).1 ∧
        ((lookUp (MemoryCacheRepository.wiring config).toICacheRepository platform upstreamConfig
          r arrival s).2 = .miss ↔ (s.repository.get arrival.env (key platform r)).2 = none) :=
      lookUp_of_cacheable hvalid hcacheable
    rw [proxy_snd (hurl ▸ hvalid) hcacheable', proxy_snd (hurl ▸ hvalid) hcacheable', ← hkey]
    by_cases hkept : (lookUp (MemoryCacheRepository.wiring config).toICacheRepository platform
        upstreamConfig r arrival s).2 = .miss →
          kept platform upstreamConfig reader r departure = none
    · -- the first call has only read
      rw [proxy_fst_of_kept_none hkept, hread]
      rcases MemoryCacheRepository.get_get hv hclock (key platform r) with
        ⟨hnone, hafter⟩ | ⟨entry, hsome, hafter⟩
      · simp only [MemoryCacheRepository.wiring] at hafter hnone ⊢
        rw [hafter, hnone]
      · simp only [MemoryCacheRepository.wiring] at hafter hsome ⊢
        rw [hafter, hsome]
        rfl
    · -- what it has kept is out of date
      obtain ⟨hmiss, hsome⟩ := Classical.not_imp.mp hkept
      obtain ⟨answer, hanswer⟩ := Option.ne_none_iff_exists'.mp hsome
      have hnone := MemoryCacheRepository.get_eq_none_of_le hv hclock (hmissed.mp hmiss)
      rw [proxy_fst_of_miss hmiss, complete_of_kept hanswer, hread]
      have hv' := (hv.get arrival.env (key platform r)).1
      have hentry := MemoryCacheRepository.entryAt_set hv' departure.env (key platform r)
        answer.body (storedOptions config r answer) rfl
      have hpast : (MemoryView.newEntry config (departure.env 1) (key platform r) answer.body
          (storedOptions config r answer)).isExpired (arrival'.env 0) = true :=
        eq_true_of_ne_false fun hfresh => h answer ⟨hcacheable, hmiss, hanswer, hfresh⟩
      have hexpired := MemoryCacheRepository.get_of_expired
        (hv'.set departure.env (key platform r) answer.body (storedOptions config r answer))
        hentry hpast
      simp only [MemoryCacheRepository.wiring] at hnone hexpired ⊢
      rw [hexpired, hnone]

/-- A request is noticed by a later one with the same method, URL and body only through an
answer that it leaves; that answer is then replayed, whatever the headers of either. -/
theorem response_after_proxy {S E : Type} {config : Config} (R : Wiring config S E V)
    (platform : Platform) (upstreamConfig : UpstreamConfig) (reader : BodyReader V)
    (r r' : ProxyRequest) (hmethod : r.method = r'.method) (hurl : r.targetUrl = r'.targetUrl)
    (hbody : r.body = r'.body) :
    (∀ (s : ProxyState S) (arrival arrival' : Arrival E) (departure departure' : Departure E),
      R.Sound s.repository →
      let after := fun r : ProxyRequest => (proxy R.toICacheRepository platform config
        upstreamConfig reader r arrival departure s).1
      let response := fun s => (proxy R.toICacheRepository platform config upstreamConfig reader
        r' arrival' departure' s).2
      (isCacheable r = false ∨ isCacheable r' = false → response (after r) = response s) ∧
      (∀ headers,
        ((lookUp R.toICacheRepository platform upstreamConfig r arrival s).2 = .miss →
          kept platform upstreamConfig reader r departure = none ∧
          kept platform upstreamConfig reader { r with headers := headers } departure = none) →
        response (after { r with headers := headers }) = response (after r)) ∧
      ∀ answer, isCacheable r' = true →
        Leaves R platform upstreamConfig reader r arrival departure s (R.clock arrival'.env 0)
          answer →
        ∃ found, response (after r) = .ok found ∧ found.cached = true ∧
          found.body = answer.body ∧ found.headers = storedMetadata answer ∧
          found.statusCode = .text (toString answer.statusCode)) ∧
    ∀ (s : ProxyState (MemoryCacheRepository V)) (arrival arrival' : Arrival Clock)
      (departure departure' : Departure Clock),
      (MemoryCacheRepository.wiring config).Sound s.repository →
      arrival.env 0 ≤ arrival'.env 0 →
      (∀ answer, ¬ Leaves (MemoryCacheRepository.wiring config) platform upstreamConfig reader r
        arrival departure s (arrival'.env 0) answer) →
      (proxy (MemoryCacheRepository.wiring config).toICacheRepository platform config
          upstreamConfig reader r' arrival' departure'
          (proxy (MemoryCacheRepository.wiring config).toICacheRepository platform config
            upstreamConfig reader r arrival departure s).1).2 =
        (proxy (MemoryCacheRepository.wiring config).toICacheRepository platform config
          upstreamConfig reader r' arrival' departure' s).2 := by
  have hkey : key platform r = key platform r' := key_congr hmethod hurl hbody
  have huncached : ∀ {S E : Type} (R : Wiring config S E V) (s : ProxyState S)
      (arrival arrival' : Arrival E) (departure departure' : Departure E),
      isCacheable r = false ∨ isCacheable r' = false →
      (proxy R.toICacheRepository platform config upstreamConfig reader r' arrival' departure'
          (proxy R.toICacheRepository platform config upstreamConfig reader r arrival
            departure s).1).2 =
        (proxy R.toICacheRepository platform config upstreamConfig reader r' arrival' departure'
          s).2 := by
    intro S E R s arrival arrival' departure departure' h
    rcases h with hfirst | hsecond
    · rw [proxy_fst_of_kept_none fun _ => kept_of_not_cacheable hfirst,
        lookUp_of_not_cacheable hfirst]
    · exact proxy_snd_of_not_cacheable hsecond _ _
  constructor
  · intro s arrival arrival' departure departure' hs
    refine ⟨huncached R s arrival arrival' departure departure', fun headers hkept => ?_,
      fun answer hcacheable hleaves => ?_⟩
    · exact congrArg (fun s => (proxy R.toICacheRepository platform config upstreamConfig reader
        r' arrival' departure' s).2) (proxy_fst_of_headers headers hkept)
    · exact replayed_of_leaves hkey hurl hs hcacheable hleaves
  · intro s arrival arrival' departure departure' hs hclock hleaves
    cases hfirst : isCacheable r with
    | false => exact huncached _ s arrival arrival' departure departure' (Or.inl hfirst)
    | true =>
      cases hsecond : isCacheable r' with
      | false => exact huncached _ s arrival arrival' departure departure' (Or.inr hsecond)
      | true => exact response_of_not_leaves hkey hurl hfirst hsecond hs hclock hleaves

def mirror : Upstream := fun request =>
  .replied ⟨some 200, [], (request.headers.lookup "authorization").getD ""⟩

/-- The page of one client is shown to the next one. -/
theorem response_after_proxy_mirror :
    let R := MemoryCacheRepository.wiring (V := String) ⟨2, 60, by decide, by decide⟩
    let now : Time := ⟨1000, by decide⟩
    let start : ProxyState (MemoryCacheRepository String) :=
      ⟨.new ⟨2, 60, by decide, by decide⟩, .new now⟩
    let arrival : Arrival Clock := ⟨now, fun _ => now, fun _ => now⟩
    let departure : Departure Clock := ⟨mirror, now, fun _ => now⟩
    ∃ found, (proxy R.toICacheRepository .plain ⟨2, 60, by decide, by decide⟩ ⟨[], 1000⟩
        plainReader (pageRequest "http://h/x" [("authorization", "yours")] none) arrival departure
        (proxy R.toICacheRepository .plain ⟨2, 60, by decide, by decide⟩ ⟨[], 1000⟩ plainReader
          (pageRequest "http://h/x" [("authorization", "mine")] none) arrival departure
          start).1).2 = .ok found ∧ found.cached = true ∧ found.body = "mine" := by
  intro R now start arrival departure
  have hsound : R.Sound start.repository := fun key => HoldsAt.new _ _ _
  have hmissed : (lookUp R.toICacheRepository .plain ⟨[], 1000⟩
      (pageRequest "http://h/x" [("authorization", "mine")] none) arrival start).2 = .miss :=
    (lookUp_of_cacheable (by decide +kernel) (by decide +kernel)).2.mpr rfl
  obtain ⟨found, hfound, hcached, hbody, -⟩ := ((response_after_proxy R .plain ⟨[], 1000⟩
    plainReader (pageRequest "http://h/x" [("authorization", "mine")] none)
    (pageRequest "http://h/x" [("authorization", "yours")] none) rfl rfl rfl).1 start arrival
    arrival departure departure hsound).2.2 ⟨200, [], "mine"⟩ (by decide +kernel)
    ⟨by decide +kernel, hmissed, by decide +kernel, by decide +kernel⟩
  exact ⟨found, hfound, hcached, hbody⟩

/-- Without the request before it, the second one gets a page of its own. -/
theorem not_same_response_after_proxy :
    let R := MemoryCacheRepository.wiring (V := String) ⟨2, 60, by decide, by decide⟩
    let now : Time := ⟨1000, by decide⟩
    let arrival : Arrival Clock := ⟨now, fun _ => now, fun _ => now⟩
    let departure : Departure Clock := ⟨mirror, now, fun _ => now⟩
    let call := proxy R.toICacheRepository .plain ⟨2, 60, by decide, by decide⟩ ⟨[], 1000⟩
      plainReader
    ¬ ∀ (s : ProxyState (MemoryCacheRepository String)) (r r' : ProxyRequest),
      r.method = r'.method → r.targetUrl = r'.targetUrl → r.body = r'.body →
      (call r' arrival departure (call r arrival departure s).1).2.toOption.map (·.body) =
        (call r' arrival departure s).2.toOption.map (·.body) := by
  intro R now arrival departure call hall
  have hsame := hall ⟨.new ⟨2, 60, by decide, by decide⟩, .new now⟩
    (pageRequest "http://h/x" [("authorization", "mine")] none)
    (pageRequest "http://h/x" [("authorization", "yours")] none) rfl rfl rfl
  revert hsame
  decide +kernel

end ProxyCacheService

end EdgeCache
