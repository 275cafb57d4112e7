import EdgeCache.ProxyHeaders

/-!
What comes back of the answer of a target when the same request is answered from the cache.
The body does. The status went in as a text, and comes back as one; the metadata of the entry
stands for the headers, and there is no `content-type` among them.
-/
namespace EdgeCache

variable {V : Type}

namespace ProxyCacheService

/-- The content was made from the answer of a target. -/
def IsAnswer (c : Content V) : Prop :=
  ∃ answer : UpstreamAnswer V, c.value = answer.body ∧ c.metadata = storedMetadata answer

/-- The second response is the first one again: its status, as a number, its body and the type
of its content. -/
structure Replays (first second : ProxyResponse V) : Prop where
  number : ∃ n, second.statusCode = .number n
  statusCode : second.statusCode = first.statusCode
  body : second.body = first.body
  contentType : second.headers.lookup "content-type" = first.headers.lookup "content-type"

/-- A call, what the service does then, and the same call again. -/
structure Repetition (E V : Type) where
  request : ProxyRequest
  arrival : Arrival E
  departure : Departure E
  between : List (GatewayAction E V)
  arrival' : Arrival E
  departure' : Departure E

section Replay

variable {S E : Type} {config : Config} (R : Wiring config S E V) (platform : Platform)
  (upstreamConfig : UpstreamConfig) (reader : BodyReader V)

namespace Repetition

def first (c : Repetition E V) (g : Gateway S) :
    ProxyState S × Except Thrown (ProxyResponse V) :=
  proxy R.toICacheRepository platform config upstreamConfig reader c.request c.arrival c.departure
    g.proxy

def later (c : Repetition E V) (g : Gateway S) : Gateway S :=
  Runs.run (Gateway.step R.toICacheRepository platform config upstreamConfig reader)
    ⟨(c.first R platform upstreamConfig reader g).1, g.waiting⟩ c.between

def second (c : Repetition E V) (g : Gateway S) :
    ProxyState S × Except Thrown (ProxyResponse V) :=
  proxy R.toICacheRepository platform config upstreamConfig reader c.request c.arrival'
    c.departure' (c.later R platform upstreamConfig reader g).proxy

def Missed (c : Repetition E V) (g : Gateway S) (first : ProxyResponse V) : Prop :=
  (c.first R platform upstreamConfig reader g).2 = .ok first ∧ first.cached = false ∧
    (kept platform upstreamConfig reader c.request c.departure).isSome

def Hit (c : Repetition E V) (g : Gateway S) (second : ProxyResponse V) : Prop :=
  (c.second R platform upstreamConfig reader g).2 = .ok second ∧ second.cached = true

end Repetition

variable {R platform upstreamConfig reader} {request : ProxyRequest}

theorem holds_proxy {s : ProxyState S} (h : R.Holds (key platform request) IsAnswer s.repository)
    (arrival : Arrival E) (departure : Departure E) :
    R.Holds (key platform request) IsAnswer (proxy R.toICacheRepository platform config
      upstreamConfig reader request arrival departure s).1.repository := by
  have hread : R.Holds (key platform request) IsAnswer (lookUp R.toICacheRepository platform
      upstreamConfig request arrival s).1.repository := by
    rcases Gateway.repository_lookUp (R := R) request arrival s with hsame | hget
    · rw [hsame]
      exact h
    · rw [hget]
      exact (R.holds_get h _ _).1
  by_cases hmiss : (lookUp R.toICacheRepository platform upstreamConfig request arrival s).2 =
      .miss
  · rw [proxy_fst_of_miss hmiss]
    rcases Gateway.repository_complete (R := R) request arrival.start departure _
      with hsame | ⟨answer, -, -, hset⟩
    · rw [hsame]
      exact hread
    · rw [hset]
      exact R.holds_set hread _ _ _ _ fun _ => ⟨answer, rfl, rfl⟩
  · rw [proxy_fst_of_kept_none fun h => absurd h hmiss]
    exact hread

/-- Requests to the proxy bring only answers of targets under a key. -/
theorem holds_run {key : String} {g : Gateway S} (h : R.Holds key IsAnswer g.proxy.repository)
    {actions : List (GatewayAction E V)}
    (hput : ∀ input env now, GatewayAction.put input env now ∈ actions →
      CacheKey.fromRaw input.key ≠ .ok ⟨key⟩) :
    R.Holds key IsAnswer (Runs.run (Gateway.step R.toICacheRepository platform config
      upstreamConfig reader) g actions).proxy.repository := by
  induction actions generalizing g with
  | nil => exact h
  | cons a rest ih =>
    refine ih (Gateway.holds_step h a ?_ ?_) fun input env now hmem =>
      hput input env now (List.mem_cons_of_mem a hmem)
    · intro input env now ha hkey
      exact absurd hkey (hput input env now (ha ▸ List.mem_cons_self))
    · exact fun _ _ _ answer _ _ _ _ _ => ⟨answer, rfl, rfl⟩

/-- Where only answers of targets stand under the key of a request, no second call that is
answered from the cache replays a first one that its target answered. -/
theorem not_replays_of_hit (R : Wiring config S E V) (platform : Platform)
    (upstreamConfig : UpstreamConfig) (reader : BodyReader V) (g : Gateway S)
    (c : Repetition E V) (hg : R.Holds (key platform c.request) IsAnswer g.proxy.repository)
    (hput : ∀ input env now, GatewayAction.put input env now ∈ c.between →
      CacheKey.fromRaw input.key ≠ .ok ⟨key platform c.request⟩)
    (hmissed : ∃ first, c.Missed R platform upstreamConfig reader g first)
    (hhit : ∃ second, c.Hit R platform upstreamConfig reader g second) :
    ¬ ∀ first second, c.Missed R platform upstreamConfig reader g first →
      c.Hit R platform upstreamConfig reader g second → Replays first second := by
  obtain ⟨first, hfirst⟩ := hmissed
  obtain ⟨second, hsecond⟩ := hhit
  intro hall
  have hstart : R.Holds (key platform c.request) IsAnswer
      (⟨(c.first R platform upstreamConfig reader g).1, g.waiting⟩ :
        Gateway S).proxy.repository := holds_proxy hg c.arrival c.departure
  have hlater : R.Holds (key platform c.request) IsAnswer
      (c.later R platform upstreamConfig reader g).proxy.repository := holds_run hstart hput
  obtain ⟨answer, -, -, -, htext⟩ := replayed_of_cached (P := fun _ => True)
    (fun _ hanswer => hanswer.imp fun _ hboth => ⟨trivial, hboth⟩) hlater hsecond.1 hsecond.2
  obtain ⟨n, hnumber⟩ := (hall first second hfirst hsecond).number
  rw [htext] at hnumber
  cases hnumber

end Replay

def again (now : Time) : Repetition Clock String :=
  let arrival : Arrival Clock := ⟨now, fun _ => now, fun _ => now⟩
  let departure : Departure Clock := ⟨target "page", now, fun _ => now⟩
  ⟨pageRequest "http://h/x" [] none, arrival, departure, [], arrival, departure⟩

def started (config : Config) (now : Time) : Gateway (MemoryCacheRepository String) :=
  ⟨⟨.new config, .new now⟩, []⟩

theorem exists_missed_again :
    ∃ first, (again ⟨1000, by decide⟩).Missed
      (MemoryCacheRepository.wiring ⟨2, 60, by decide, by decide⟩) .plain ⟨[], 1000⟩ plainReader
      (started ⟨2, 60, by decide, by decide⟩ ⟨1000, by decide⟩) first := by
  have hcall : (((again ⟨1000, by decide⟩).first
      (MemoryCacheRepository.wiring ⟨2, 60, by decide, by decide⟩) .plain ⟨[], 1000⟩ plainReader
      (started ⟨2, 60, by decide, by decide⟩ ⟨1000, by decide⟩)).2.toOption.map (·.cached)) =
        some false := by
    decide +kernel
  obtain ⟨first, hfirst, hcached⟩ := Option.map_eq_some_iff.mp hcall
  exact ⟨first, eq_ok_of_toOption hfirst, hcached, by decide +kernel⟩

theorem exists_hit_again :
    ∃ second, (again ⟨1000, by decide⟩).Hit
      (MemoryCacheRepository.wiring ⟨2, 60, by decide, by decide⟩) .plain ⟨[], 1000⟩ plainReader
      (started ⟨2, 60, by decide, by decide⟩ ⟨1000, by decide⟩) second ∧
      second.statusCode = .text "200" := by
  have hcall : (((again ⟨1000, by decide⟩).second
      (MemoryCacheRepository.wiring ⟨2, 60, by decide, by decide⟩) .plain ⟨[], 1000⟩ plainReader
      (started ⟨2, 60, by decide, by decide⟩ ⟨1000, by decide⟩)).2.toOption.map
        fun r => (r.cached, r.statusCode)) = some (true, .text "200") := by
    decide +kernel
  obtain ⟨second, hsecond, hboth⟩ := Option.map_eq_some_iff.mp hcall
  obtain ⟨hcached, hstatus⟩ := Prod.mk.inj hboth
  exact ⟨second, ⟨eq_ok_of_toOption hsecond, hcached⟩, hstatus⟩

theorem not_replays_again :
    ¬ ∀ first second,
      (again ⟨1000, by decide⟩).Missed
        (MemoryCacheRepository.wiring ⟨2, 60, by decide, by decide⟩) .plain ⟨[], 1000⟩ plainReader
        (started ⟨2, 60, by decide, by decide⟩ ⟨1000, by decide⟩) first →
      (again ⟨1000, by decide⟩).Hit
        (MemoryCacheRepository.wiring ⟨2, 60, by decide, by decide⟩) .plain ⟨[], 1000⟩ plainReader
        (started ⟨2, 60, by decide, by decide⟩ ⟨1000, by decide⟩) second →
      Replays first second := by
  obtain ⟨second, hsecond, -⟩ := exists_hit_again
  exact not_replays_of_hit (MemoryCacheRepository.wiring ⟨2, 60, by decide, by decide⟩) .plain
    ⟨[], 1000⟩ plainReader _ (again ⟨1000, by decide⟩) (HoldsAt.new _ _ _)
    (by simp [again]) exists_missed_again ⟨second, hsecond⟩

/-- The second call answers `'200'` where the first one answered `200`. -/
theorem not_forall_replays :
    ¬ ∀ (g : Gateway (MemoryCacheRepository String)) (c : Repetition Clock String)
        (first second : ProxyResponse String),
      c.Missed (MemoryCacheRepository.wiring ⟨2, 60, by decide, by decide⟩) .plain ⟨[], 1000⟩
        plainReader g first →
      c.Hit (MemoryCacheRepository.wiring ⟨2, 60, by decide, by decide⟩) .plain ⟨[], 1000⟩
        plainReader g second →
      Replays first second := by
  intro hall
  obtain ⟨first, hfirst⟩ := exists_missed_again
  obtain ⟨second, hsecond, htext⟩ := exists_hit_again
  obtain ⟨n, hnumber⟩ := (hall _ _ first second hfirst hsecond).number
  rw [htext] at hnumber
  cases hnumber

end ProxyCacheService

end EdgeCache
