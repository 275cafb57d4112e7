import EdgeCache.HttpMemory
import EdgeCache.LayeredResilience

/-!
One instance of the service among others. They share a Redis, which other clients may leave
in any state between two requests of the instance, and which may be away or fail at any
command. The memory tier goes through the calls of the instance and the promotions of what
Redis has served; an instance therefore reads what it has written, up to the deadline, while
the keys in use besides it are fewer than its memory tier holds.
-/
namespace EdgeCache

variable {V : Type}

/-! ### The memory tier of a call -/

namespace LayeredCacheRepository

variable (client : Client) (config : Config) (regExp : RegExp) (env : Surroundings)

/-- What a read puts into the memory tier when Redis has served it. -/
def promotionsOf (s : Tiers V) : Op V → List (Event V)
  | .get key =>
    match (s.l1.get env.l1 key).2, (getIn client env key s).2 with
    | none, some entry =>
      [⟨.set key entry.value (promotion entry (env.promotion 0)), fun i => env.promotion (i + 1)⟩]
    | _, _ => []
  | _ => []

def l1EventsOf (s : Tiers V) (op : Op V) : List (Event V) :=
  ⟨op, env.l1⟩ :: promotionsOf client env s op

variable {client config regExp env} {s : Tiers V}

theorem snd_getIn_of_l1 {key : String} {entry : CacheEntry V}
    (h : (s.l1.get env.l1 key).2 = some entry) : (getIn client env key s).2 = some entry := by
  rcases hget : s.l1.get env.l1 key with ⟨l1, found⟩
  rw [hget] at h
  obtain rfl : found = some entry := h
  simp only [getIn, hget]

theorem promotionsOf_cases (client : Client) (env : Surroundings) (s : Tiers V) (op : Op V) :
    promotionsOf client env s op = [] ∨
      ∃ key value options clock, op = .get key ∧ (s.l1.get env.l1 key).2 = none ∧
        promotionsOf client env s op = [⟨.set key value options, clock⟩] := by
  cases op with
  | get key =>
    cases hmissed : (s.l1.get env.l1 key).2 with
    | some entry =>
      refine Or.inl ?_
      simp only [promotionsOf, hmissed]
    | none =>
      cases hserved : (getIn client env key s).2 with
      | none =>
        refine Or.inl ?_
        simp only [promotionsOf, hmissed, hserved]
      | some entry =>
        refine Or.inr ⟨key, entry.value, promotion entry (env.promotion 0),
          fun i => env.promotion (i + 1), rfl, hmissed, ?_⟩
        simp only [promotionsOf, hmissed, hserved]
  | _ => exact Or.inl rfl

theorem l1_getIn (key : String) :
    (getIn client env key s).1.l1 =
      Runs.run (MemoryCacheRepository.step regExp) s.l1 (l1EventsOf client env s (.get key)) := by
  unfold l1EventsOf promotionsOf
  rcases hget : s.l1.get env.l1 key with ⟨l1, _ | entry⟩
  · have hstep : s.l1.step regExp ⟨.get key, env.l1⟩ = l1 := congrArg Prod.fst hget
    rw [Runs.run_cons, hstep]
    by_cases havailable : env.redisAvailable 0 = true
    · rcases hcall : callL2In client env (RedisCacheRepository.get key) s.redis with
        ⟨redis, _ | _ | entry⟩
      · simp only [getIn, hget, havailable, ↓reduceIte, hcall, Runs.run_nil]
      · simp only [getIn, hget, havailable, ↓reduceIte, hcall, Runs.run_nil]
      · simp only [getIn, hget, havailable, ↓reduceIte, hcall]
        rfl
    · simp only [getIn, hget, havailable, Bool.false_eq_true, ↓reduceIte, Runs.run_nil]
  · have hstep : s.l1.step regExp ⟨.get key, env.l1⟩ = l1 := congrArg Prod.fst hget
    simp only [getIn, hget, Runs.run_cons, Runs.run_nil, hstep]

theorem l1_callIn {op : Op V} (hop : op.IsRouted) :
    (callIn client config regExp env op s).1.l1 =
      Runs.run (MemoryCacheRepository.step regExp) s.l1 (l1EventsOf client env s op) := by
  have halone : (∀ key, op ≠ .get key) → (∀ keys, op ≠ .mget keys) →
      (callIn client config regExp env op s).1.l1 = s.l1.step regExp ⟨op, env.l1⟩ := by
    intro hget hmget
    obtain ⟨promotions, -, hserves, hl1⟩ := @callIn_promotes V client env config regExp s op
    have hnone : promotions = [] := by
      refine List.eq_nil_iff_forall_not_mem.mpr fun p hp => ?_
      have hserved := hserves p hp
      cases op with
      | get key => exact hget key rfl
      | mget keys => exact hmget keys rfl
      | _ => exact hserved
    rw [hl1, hnone]
    rfl
  cases op with
  | get key => exact l1_getIn key
  | mget keys => exact hop.elim
  | mset entries => exact hop.elim
  | exists_ key => exact hop.elim
  | _ => exact halone (fun _ h => (by cases h)) (fun _ h => (by cases h))

theorem expand_of_mem_l1EventsOf {op : Op V} (hop : op.IsRouted) {e : Event V}
    (he : e ∈ l1EventsOf client env s op) : e.expand = [e] := by
  rcases List.mem_cons.mp he with rfl | hpromoted
  · cases op with
    | mget keys => exact hop.elim
    | mset entries => exact hop.elim
    | _ => rfl
  · rcases promotionsOf_cases client env s op with hnone | ⟨key, value, options, clock, -, -, hone⟩
    · rw [hnone] at hpromoted
      cases hpromoted
    · rw [hone] at hpromoted
      rw [List.mem_singleton.mp hpromoted]
      rfl

end LayeredCacheRepository

/-! ### The instance -/

/-- What the server is started with when there is a Redis. -/
structure LayeredServer (V : Type) extends MemoryServer V where
  client : Client

/-- What an instance sees: its own actions, and what others leave in Redis. -/
inductive InstanceAction (V : Type) where
  | here (action : HttpAction Surroundings V)
  | elsewhere (redis : Database V)

namespace LayeredServer

variable (server : LayeredServer V)

def act (g : Gateway (Tiers V)) : InstanceAction V → Gateway (Tiers V) × Option (HttpResponse V)
  | .here a =>
    Server.act (LayeredCacheRepository.repository server.client server.config server.regExp)
      server.platform server.config server.upstreamConfig server.reader g a
  | .elsewhere redis => (g.withRepository ⟨g.proxy.repository.l1, redis⟩, none)

def step (g : Gateway (Tiers V)) (a : InstanceAction V) : Gateway (Tiers V) := (server.act g a).1

def start (redis : Database V) : Gateway (Tiers V) :=
  ⟨⟨⟨.new server.config, redis⟩, server.metrics⟩, []⟩

/-- The state after the actions; Redis may have had something in it. -/
def reach (redis : Database V) (actions : List (InstanceAction V)) : Gateway (Tiers V) :=
  Runs.run server.step (server.start redis) actions

/-- The call that the instance makes of its repository. -/
def callOf (g : Gateway (Tiers V)) : InstanceAction V → Option (Surroundings × Op V)
  | .here a =>
    Server.callOf server.platform server.config server.upstreamConfig server.reader g a
  | .elsewhere _ => none

def eventsOf (g : Gateway (Tiers V)) (a : InstanceAction V) : List (Event V) :=
  (server.callOf g a).elim [] fun call =>
    LayeredCacheRepository.l1EventsOf server.client call.1 g.proxy.repository call.2

/-- The calls of the memory tier that the actions after a state make. -/
def eventsFrom (g : Gateway (Tiers V)) (actions : List (InstanceAction V)) : List (Event V) :=
  Runs.emitted server.step server.eventsOf g actions

/-- The action puts a value under a key, whatever Redis does. -/
def Stores (g : Gateway (Tiers V)) (a : InstanceAction V) (key : String) (clock : Clock) (value : V)
    (options : SetOptions) : Prop :=
  server.eventsOf g a = [⟨.set key value options, clock⟩] ∧
    g.proxy.repository.l1.suppressed clock key options = false

/-- The action neither removes nor replaces what the instance has under the key. -/
def Spares (key : String) (g : Gateway (Tiers V)) (a : InstanceAction V) : Prop :=
  ∀ env op, server.callOf g a = some (env, op) →
    MemoryCacheRepository.Spares server.regExp key g.proxy.repository.l1 ⟨op, env.l1⟩

def readsFrom (key : String) (g : Gateway (Tiers V)) (actions : List (InstanceAction V)) : ℕ :=
  (server.eventsFrom g actions).countP (MemoryCacheRepository.readsKey key)

/-- The other keys that the actions after a state touch, those promoted among them. -/
def othersFrom (key : String) (g : Gateway (Tiers V)) (actions : List (InstanceAction V)) :
    Finset String :=
  MemoryCacheRepository.workingSet server.regExp g.proxy.repository.l1 key
    (server.eventsFrom g actions)

theorem emits : Runs.Emits server.step (MemoryCacheRepository.step server.regExp) server.eventsOf
    fun g => g.proxy.repository.l1 := by
  intro g a
  cases a with
  | elsewhere redis => rfl
  | here a =>
    have hdrives := Server.drives
      (LayeredCacheRepository.repository server.client server.config server.regExp)
      server.platform server.config server.upstreamConfig server.reader g a
    have hrepository : (server.step g (.here a)).proxy.repository =
        (server.callOf g (.here a)).elim g.proxy.repository
          ((LayeredCacheRepository.repository server.client server.config server.regExp).after
            g.proxy.repository) := hdrives
    simp only [hrepository, eventsOf]
    cases hcall : server.callOf g (.here a) with
    | none => rfl
    | some call => exact LayeredCacheRepository.l1_callIn (Server.routed_of_callOf hcall)

theorem l1_reach (redis : Database V) (actions : List (InstanceAction V)) :
    (server.reach redis actions).proxy.repository.l1 =
      MemoryCacheRepository.reach server.regExp server.config
        (server.eventsFrom (server.start redis) actions) :=
  server.emits.run (server.start redis) actions

variable {server}

theorem expand_of_mem_eventsOf {g : Gateway (Tiers V)} {a : InstanceAction V} {e : Event V}
    (he : e ∈ server.eventsOf g a) : e.expand = [e] := by
  unfold eventsOf at he
  cases hcall : server.callOf g a with
  | none =>
    rw [hcall] at he
    cases he
  | some call =>
    rw [hcall] at he
    cases a with
    | here a =>
      exact LayeredCacheRepository.expand_of_mem_l1EventsOf (Server.routed_of_callOf hcall) he
    | elsewhere redis => cases hcall

theorem expand_of_mem_eventsFrom {g : Gateway (Tiers V)} {actions : List (InstanceAction V)}
    {e : Event V} (he : e ∈ server.eventsFrom g actions) : e.expand = [e] := by
  obtain ⟨g', a, hmem⟩ := Runs.exists_of_mem_emitted he
  exact expand_of_mem_eventsOf hmem

theorem eventsFrom_append_cons {redis : Database V} {before after : List (InstanceAction V)}
    {a : InstanceAction V} {e : Event V} (ha : server.eventsOf (server.reach redis before) a = [e]) :
    server.eventsFrom (server.start redis) (before ++ a :: after) =
      server.eventsFrom (server.start redis) before ++
        e :: server.eventsFrom (server.reach redis (before ++ [a])) after := by
  rw [List.append_cons, eventsFrom, Runs.emitted_append, Runs.emitted_concat, ← reach, ← reach, ha,
    List.append_assoc]
  rfl

theorem l1_reach_concat {redis : Database V} {before : List (InstanceAction V)}
    {a : InstanceAction V} {e : Event V} (ha : server.eventsOf (server.reach redis before) a = [e]) :
    (server.reach redis (before ++ [a])).proxy.repository.l1 =
      MemoryCacheRepository.reach server.regExp server.config
        (server.eventsFrom (server.start redis) before ++ [e]) := by
  rw [l1_reach, eventsFrom_append_cons ha]
  rfl

/-- A valid request to set an entry puts the value under the trimmed key, if it is not
conditional. -/
theorem stores_of_put {request : HttpRequest V} {key : String} (hrequest : request.IsFor "PUT" key)
    {body : RequestBody V} (hbody : request.body = some body) (hkey : WellFormedKey key)
    {value : V} (hvalue : body.value = some value) {ttl : Option JsNumber}
    (httl : SetCacheUseCase.validTtl body.ttl = .ok ttl) (hfree : body.ifNotExists = false)
    (ctx : Context Surroundings) (g : Gateway (Tiers V)) :
    server.Stores g (.here (.request request ctx)) (trim key) ctx.env.l1 value
      (SetCacheUseCase.options server.config
        ⟨key, body.value, body.ttl, body.tags, body.metadata, body.ifNotExists⟩ ttl) := by
  constructor
  · rw [eventsOf, callOf, Server.callOf_put hrequest hbody hkey hvalue httl]
    rfl
  · simp only [MemoryCacheRepository.suppressed, SetCacheUseCase.options, hfree, Bool.false_and]

/-! ### Reading what was written -/

section Reads

variable {redis : Database V} {key : String} {clock : Clock} {value : V} {options : SetOptions}

theorem guarded_promotionsOf {s : Tiers V} {env : Surroundings}
    (hfound : (s.l1.get env.l1 key).2 ≠ none) (op : Op V) (l1 : MemoryCacheRepository V) :
    Runs.Guarded (MemoryCacheRepository.step server.regExp)
      (MemoryCacheRepository.Spares server.regExp key) l1
      (LayeredCacheRepository.promotionsOf server.client env s op) := by
  rcases LayeredCacheRepository.promotionsOf_cases server.client env s op with
    hnone | ⟨key', value, options, clock, -, hmissed, hone⟩
  · rw [hnone]
    trivial
  · rw [hone]
    refine ⟨fun hk => ?_, trivial⟩
    exact absurd (hk ▸ hmissed) hfound

/-- A run of actions that spare the key makes calls of the memory tier that spare it, too: the
promotions among them are of other keys. -/
theorem guarded_eventsFrom {g : Gateway (Tiers V)} {log : List String}
    (horder : MemoryCacheRepository.Ordered server.config log g.proxy.repository.l1)
    (htouched : log.getLast? = some key)
    (hentry : g.proxy.repository.l1.entryAt key =
      some (recorded server.config key (clock 1) value options 0))
    {actions : List (InstanceAction V)}
    (hfew : (server.othersFrom key g actions).card < server.config.cacheMaxMemoryEntries)
    (hspares : Runs.Guarded server.step (server.Spares key) g actions)
    (hfresh : ∀ e ∈ server.eventsFrom g actions, ∀ i,
      (MemoryView.newEntry server.config (clock 1) key value options).isExpired
        (e.clock i) = false) :
    Runs.Guarded (MemoryCacheRepository.step server.regExp)
      (MemoryCacheRepository.Spares server.regExp key) g.proxy.repository.l1
      (server.eventsFrom g actions) := by
  induction actions using List.reverseRecOn with
  | nil => trivial
  | append_singleton actions a ih =>
    obtain ⟨hbefore, hlast⟩ := hspares.of_append
    rw [eventsFrom, Runs.emitted_concat] at hfresh ⊢
    have hle := Finset.card_le_card (MemoryCacheRepository.workingSet_append_subset server.regExp
      g.proxy.repository.l1 key (server.eventsFrom g actions)
      (server.eventsOf (Runs.run server.step g actions) a))
    rw [othersFrom, eventsFrom, Runs.emitted_concat] at hfew
    have hfew' := hle.trans_lt hfew
    have hfresh' : ∀ e ∈ server.eventsFrom g actions, ∀ i,
        (MemoryView.newEntry server.config (clock 1) key value options).isExpired
          (e.clock i) = false :=
      fun e he => hfresh e (List.mem_append_left _ he)
    have hguarded := ih hfew' hbefore hfresh'
    have hsingle : ∀ e ∈ server.eventsFrom g actions, e.expand = [e] :=
      fun e he => expand_of_mem_eventsFrom he
    have hfound := horder.entryAt_run htouched hentry hsingle hfew' hguarded hfresh'
    obtain ⟨v, hv, -⟩ := horder.run server.regExp hsingle
    have hl1 : (Runs.run server.step g actions).proxy.repository.l1 =
        Runs.run (MemoryCacheRepository.step server.regExp) g.proxy.repository.l1
          (server.eventsFrom g actions) :=
      server.emits.run g actions
    refine hguarded.append ?_
    rw [← hl1] at hfound hv ⊢
    cases hcall : server.callOf (Runs.run server.step g actions) a with
    | none =>
      rw [eventsOf, hcall]
      trivial
    | some call =>
      obtain ⟨env, op⟩ := call
      rw [eventsOf, hcall] at hfresh ⊢
      have hnow := hfresh ⟨op, env.l1⟩ (List.mem_append_right _ List.mem_cons_self) 0
      have hserved := MemoryCacheRepository.get_of_fresh hv hfound hnow
      refine ⟨hlast.1 env op hcall, guarded_promotionsOf ?_ op _⟩
      rw [hserved]
      exact Option.some_ne_none _

/-- What an instance has put under a key is what it answers a later request for the key with, up
to the deadline: whatever becomes of Redis and whatever other clients do there, provided that
its own actions neither remove nor replace it and keep fewer other keys in use than fit. -/
theorem get_of_own_stores {before after : List (InstanceAction V)} {a : InstanceAction V}
    (hkey : WellFormedKey key)
    (ha : server.Stores (server.reach redis before) a (trim key) clock value options)
    (hspares : Runs.Guarded server.step (server.Spares (trim key))
      (server.reach redis (before ++ [a])) after)
    (hfew : (server.othersFrom (trim key) (server.reach redis (before ++ [a])) after).card <
      server.config.cacheMaxMemoryEntries)
    (hfresh : ∀ e ∈ server.eventsFrom (server.reach redis (before ++ [a])) after, ∀ i,
      (MemoryView.newEntry server.config (clock 1) (trim key) value options).isExpired
        (e.clock i) = false)
    {request : HttpRequest V} (hrequest : request.IsFor "GET" key) (ctx : Context Surroundings)
    (hnow : (MemoryView.newEntry server.config (clock 1) (trim key) value options).isExpired
      (ctx.env.l1 0) = false) :
    let entry := { MemoryView.newEntry server.config (clock 1) (trim key) value options with
      hitCount := server.readsFrom (trim key) (server.reach redis (before ++ [a])) after + 1 }
    let cacheAge := entry.createdAt.secondsSince (ctx.clock 0)
    let remainingTtl := entry.remainingTtl (ctx.clock 1)
    (server.act (server.reach redis (before ++ a :: after)) (.here (.request request ctx))).2 =
      some ⟨.number 200, [.xCache true, .xCacheAge cacheAge, .xCacheTtl remainingTtl],
        .entry ⟨entry, cacheAge, remainingTtl⟩⟩ := by
  intro entry cacheAge remainingTtl
  obtain ⟨hevents, hnew⟩ := ha
  rw [l1_reach] at hnew
  obtain ⟨log, htouched, horder, hentry⟩ := MemoryCacheRepository.ordered_of_set server.regExp
    server.config (server.eventsFrom (server.start redis) before) value hnew
  rw [← l1_reach_concat hevents] at horder hentry
  have hguarded := guarded_eventsFrom horder htouched hentry hfew hspares hfresh
  rw [othersFrom, l1_reach_concat hevents] at hfew
  rw [l1_reach_concat hevents] at hguarded
  have hread := MemoryCacheRepository.get_of_workingSet server.regExp server.config
    (server.eventsFrom (server.start redis) before) hnew (fun e he => expand_of_mem_eventsFrom he)
    hfew hguarded hfresh hnow
  rw [← eventsFrom_append_cons hevents, ← l1_reach] at hread
  have hget := Server.respond_get
    (LayeredCacheRepository.repository server.client server.config server.regExp) server.platform
    server.config server.upstreamConfig hrequest ctx (server.reach redis (before ++ a :: after))
  refine hget.trans (congrArg some (CacheController.get_of_some hkey ?_))
  exact LayeredCacheRepository.snd_getIn_of_l1 hread

end Reads

def ofTwoPlaces : LayeredServer String := { MemoryServer.small with client := ⟨"edge:"⟩ }

/-- Put while Redis is there; then another client empties it, and it fails. -/
theorem get_of_own_stores_emptied :
    let put : InstanceAction String := .here (.request (.ofPut "a" "x") (.whenRedis true))
    let emptied : InstanceAction String := .elsewhere fun _ => none
    (ofTwoPlaces.act (ofTwoPlaces.reach (fun _ => none) ([] ++ put :: [emptied]))
      (.here (.request (.ofGet "a") (.whenRedis false)))).2.map HttpResponse.status =
        some (.number 200) := by
  intro put emptied
  have hput : (HttpRequest.ofPut "a" "x").IsFor "PUT" "a" := HttpRequest.isFor_ofKey _ (by decide) _
  have hrequest : (HttpRequest.ofGet "a").IsFor "GET" "a" := HttpRequest.isFor_ofKey _ (by decide) _
  have hstores : ofTwoPlaces.Stores (ofTwoPlaces.reach (fun _ => none) []) put (trim "a")
      (Context.whenRedis true).env.l1 "x" (SetCacheUseCase.options ofTwoPlaces.config
        ⟨"a", some "x", none, none, none, false⟩ none) :=
    stores_of_put hput rfl (by decide) rfl rfl rfl (.whenRedis true) _
  have hspares : Runs.Guarded ofTwoPlaces.step (ofTwoPlaces.Spares (trim "a"))
      (ofTwoPlaces.reach (fun _ => none) ([] ++ [put])) [emptied] :=
    ⟨fun env op hcall => (by cases hcall), trivial⟩
  have hget := get_of_own_stores (by decide) hstores hspares (by decide +kernel)
    (fun e he => (by cases he)) hrequest (.whenRedis false) (by decide +kernel)
  exact congrArg (Option.map HttpResponse.status) hget

end LayeredServer

end EdgeCache
