import EdgeCache.CacheKey
import EdgeCache.LayeredContents

/-!
The use cases of the cache's own interface, over whichever repository `createApp` wires:
the memory tier alone, or over Redis. What the two have in common is what callers may rely
on: the memory tier that is written and read first, and that nothing is found under a key
but what was stored there.
-/
namespace EdgeCache

variable {V : Type}

/-! ### Repositories -/

/-- The calls that name one key, and `flush`; each in surroundings of its own. -/
structure ICacheRepository (S E V : Type) where
  get : E → String → S → S × Option (CacheEntry V)
  set : E → String → V → SetOptions → S → S
  delete : E → String → S → S × Bool
  flush : E → S → S

/-- A repository as it is wired, with the tier in memory that it is or has, and what its
states hold under a key. -/
structure Wiring (config : Config) (S E V : Type) extends ICacheRepository S E V where
  l1 : S → MemoryCacheRepository V
  clock : E → Clock
  Holds : String → (Content V → Prop) → S → Prop
  l1_set : ∀ env key value options s,
    l1 (set env key value options s) = (l1 s).set (clock env) key value options
  get_of_l1 : ∀ env key s entry, ((l1 s).get (clock env) key).2 = some entry →
    (get env key s).2 = some entry
  shows : ∀ {key K s}, Holds key K s → ∃ v, MemoryCacheRepository.Shows config (l1 s) v
  mono : ∀ {key s} {K L : Content V → Prop}, (∀ c, K c → L c) → Holds key K s → Holds key L s
  holds_get : ∀ {key K s}, Holds key K s → ∀ env key', Holds key K (get env key' s).1 ∧
    (key' = key → ∀ entry, (get env key' s).2 = some entry → K entry.content)
  holds_set : ∀ {key K s}, Holds key K s → ∀ env key' value options,
    (key' = key → K (options.content value)) → Holds key K (set env key' value options s)
  holds_delete : ∀ {key K s}, Holds key K s → ∀ env key', Holds key K (delete env key' s).1
  holds_flush : ∀ {key K s}, Holds key K s → ∀ env, Holds key K (flush env s)

def MemoryCacheRepository.wiring (config : Config) :
    Wiring config (MemoryCacheRepository V) Clock V where
  get := fun clock key s => s.get clock key
  set := fun clock key value options s => s.set clock key value options
  delete := fun _ key s => s.delete key
  flush := fun _ s => s.flush
  l1 := id
  clock := id
  Holds := fun key K s => HoldsAt config key (fun entry => K entry.content) s
  l1_set := fun _ _ _ _ _ => rfl
  get_of_l1 := fun _ _ _ _ h => h
  shows := fun ⟨v, hv, _⟩ => ⟨v, hv⟩
  mono := fun hKL h => h.mono fun entry => hKL entry.content
  holds_get := by
    intro key K s h clock key'
    obtain ⟨hholds, hfound⟩ := h.get (fun _ hentry => hentry) clock key'
    exact ⟨hholds, fun hk entry hentry => (hfound hk entry hentry).1⟩
  holds_set := fun h clock key' value options hnew => h.set clock key' value options
    fun hk _ => hnew hk
  holds_delete := fun h _ key' => h.delete key'
  holds_flush := fun h _ => h.flush

def LayeredCacheRepository.wiring (client : Client) (config : Config) :
    Wiring config (Tiers V) Surroundings V where
  get := getIn client
  set := setIn client config
  delete := deleteIn client
  flush := flushIn client
  l1 := Tiers.l1
  clock := Surroundings.l1
  Holds := fun key K s => HoldsAt config key (fun entry => K entry.content) s.l1 ∧
    DocumentAt client key (fun json => K json.content) s.redis
  l1_set := by
    intro env key value options s
    unfold setIn
    simp only
    split <;> rfl
  get_of_l1 := by
    intro env key s entry h
    unfold getIn
    split
    · next l1 found hfound =>
      rw [hfound] at h
      exact h
    · next l1 hfound =>
      rw [hfound] at h
      cases h
  shows := fun ⟨⟨v, hv, _⟩, _⟩ => ⟨v, hv⟩
  mono := fun hKL h => ⟨h.1.mono fun entry => hKL entry.content,
    fun json expireAt hjson => hKL json.content (h.2 json expireAt hjson)⟩
  holds_get := by
    intro key K s h env key'
    obtain ⟨hl1, hredis, hfound⟩ := holds_getIn env h.1 h.2 key' (fun _ hc => hc)
      fun _ _ _ hc => hc
    exact ⟨⟨hl1, hredis⟩, hfound⟩
  holds_set := fun h env key' value options hnew =>
    holds_setIn env h.1 h.2 key' value options hnew hnew (fun _ _ hc => hc) fun _ _ hc => hc
  holds_delete := fun h env key' =>
    holds_deleteIn env h.1 h.2 key' (fun _ _ hc => hc) fun _ _ hc => hc
  holds_flush := fun h env => holds_flushIn env h.1 h.2 fun _ _ hc => hc

/-! ### Use cases -/

/-- `Math.floor((now - date.getTime()) / 1000)` -/
def Date.secondsSince (date : Date) (now : Time) : JsNumber :=
  match date with
  | some t => .finite ((now.val - t) / 1000 : ℤ)
  | none => .nan

/-- The body of a request to set an entry. A missing field is `none`, and null is missing
where a default stands in for it; the value and the ttl are whatever was sent. -/
structure SetCacheInput (V : Type) where
  key : String
  value : Option V
  ttl : Option Json
  tags : Option (List String)
  metadata : Option Metadata
  ifNotExists : Bool

structure SetCacheOutput where
  key : String
  ttl : JsNumber
  expiresAt : Date

/-- `ttl > 0 && Number.isInteger(ttl)` -/
def JsNumber.isPositiveInteger : JsNumber → Bool
  | .finite q => 0 < q && q.den = 1
  | _ => false

/-- `86400 * 7` -/
def maxTtl : ℕ := 604800

def JsNumber.exceedsMaxTtl : JsNumber → Bool
  | .finite q => (maxTtl : ℚ) < q
  | .infinity => true
  | _ => false

namespace SetCacheUseCase

/-- The checks of the ttl. Only a number is an integer, and comparing with 0 throws of what
does not convert. -/
def validTtl : Option Json → Except Thrown (Option JsNumber)
  | none => .ok none
  | some (.number x _) =>
    if !x.isPositiveInteger then
      .error (.validationError "TTL must be a positive integer (seconds)")
    else if x.exceedsMaxTtl then
      .error (.validationError "TTL cannot exceed 7 days (604800 seconds)")
    else .ok (some x)
  | some json =>
    if json.toText.isSome then
      .error (.validationError "TTL must be a positive integer (seconds)")
    else .error .typeError

def validate (input : SetCacheInput V) : Except Thrown (V × Option JsNumber) :=
  if trim input.key = "" then .error (.validationError "Cache key is required")
  else if 512 < utf16Length input.key then
    .error (.validationError "Cache key cannot exceed 512 characters")
  else
    match validTtl input.ttl with
    | .error e => .error e
    | .ok ttl =>
      match input.value with
      | none => .error (.validationError "Cache value is required")
      | some value => .ok (value, ttl)

def options (config : Config) (input : SetCacheInput V) (ttl : Option JsNumber) : SetOptions where
  ttl := some (ttl.getD (.ofNat config.cacheDefaultTtl))
  tags := some (input.tags.getD [])
  metadata := some (input.metadata.getD [])
  ifNotExists := input.ifNotExists

/-- `now` is read after the entry has been stored. -/
def execute {S E : Type} (repository : ICacheRepository S E V) (config : Config) (env : E)
    (now : Time) (input : SetCacheInput V) (s : S) : S × Except Thrown SetCacheOutput :=
  match validate input with
  | .error e => (s, .error e)
  | .ok (value, ttl) =>
    match CacheKey.fromRaw input.key with
    | .error e => (s, .error e)
    | .ok cacheKey =>
      let ttl' := ttl.getD (.ofNat config.cacheDefaultTtl)
      (repository.set env cacheKey.value value (options config input ttl) s,
        .ok ⟨cacheKey.value, ttl', (ttl'.after now).toDate⟩)

theorem validTtl_eq_ok {json : Option Json} {ttl : Option JsNumber}
    (h : validTtl json = .ok ttl) :
    ttl = none ∨ ∃ n : ℕ, 0 < n ∧ n ≤ maxTtl ∧ ttl = some (.ofNat n) := by
  unfold validTtl at h
  split at h
  · exact Or.inl (Except.ok.inj h).symm
  · next x _ =>
    split at h
    · cases h
    · next hpositive =>
      split at h
      · cases h
      · next hmax =>
        cases x with
        | finite q =>
          simp only [JsNumber.isPositiveInteger, JsNumber.exceedsMaxTtl, Bool.not_eq_true',
            Bool.not_eq_false, Bool.and_eq_true, decide_eq_true_eq, not_lt] at hpositive hmax
          obtain ⟨hpos, hden⟩ := hpositive
          have hnum : q = (q.num : ℚ) := (Rat.den_eq_one_iff q).mp hden |>.symm
          have hnonneg : 0 ≤ q.num := Rat.num_nonneg.mpr hpos.le
          obtain ⟨n, hn⟩ := Int.eq_ofNat_of_zero_le hnonneg
          have hq : q = (n : ℚ) := by
            rw [hnum, hn]
            rfl
          refine Or.inr ⟨n, ?_, ?_, ?_⟩
          · exact_mod_cast hq ▸ hpos
          · exact_mod_cast hq ▸ hmax
          · rw [← Except.ok.inj h, hq]
            rfl
        | nan => exact absurd rfl hpositive
        | infinity => exact absurd rfl hpositive
        | negInfinity => exact absurd rfl hpositive
  · split at h <;> cases h

theorem validate_eq_ok {input : SetCacheInput V} {value : V} {ttl : Option JsNumber}
    (h : validate input = .ok (value, ttl)) :
    input.value = some value ∧ validTtl input.ttl = .ok ttl := by
  unfold validate at h
  split at h
  · cases h
  · split at h
    · cases h
    · split at h
      · cases h
      · next ttl' httl =>
        split at h
        · cases h
        · next value' hvalue =>
          obtain ⟨rfl, rfl⟩ := Prod.mk.inj (Except.ok.inj h)
          exact ⟨hvalue, httl⟩

/-- A request that is answered has made its call, under the trimmed key. -/
theorem execute_eq_ok {S E : Type} {repository : ICacheRepository S E V} {config : Config}
    {env : E} {now : Time} {input : SetCacheInput V} {s : S} {output : SetCacheOutput}
    (h : (execute repository config env now input s).2 = .ok output) :
    ∃ value ttl, input.value = some value ∧ validTtl input.ttl = .ok ttl ∧
      output.key = trim input.key ∧
      (execute repository config env now input s).1 =
        repository.set env output.key value (options config input ttl) s := by
  unfold execute at h ⊢
  split at h
  · cases h
  · next value ttl hvalid =>
    obtain ⟨hvalue, httl⟩ := validate_eq_ok hvalid
    split at h
    · cases h
    · next cacheKey hkey =>
      obtain rfl := Except.ok.inj h
      exact ⟨value, ttl, hvalue, httl, CacheKey.value_of_fromRaw hkey, rfl⟩

end SetCacheUseCase

structure GetCacheOutput (V : Type) where
  entry : CacheEntry V
  cacheAge : JsNumber
  remainingTtl : JsNumber

/-- The age and the time left are read from the clock in this order. -/
def GetCacheUseCase.execute {S E : Type} (repository : ICacheRepository S E V) (env : E)
    (clock : Clock) (key : String) (s : S) : S × Except Thrown (GetCacheOutput V) :=
  match CacheKey.fromRaw key with
  | .error e => (s, .error e)
  | .ok cacheKey =>
    match repository.get env cacheKey.value s with
    | (s, none) => (s, .error (.notFoundError ("Cache entry '" ++ key ++ "' not found")))
    | (s, some entry) =>
      (s, .ok ⟨entry, entry.createdAt.secondsSince (clock 0), entry.remainingTtl (clock 1)⟩)

/-- A deletion by key; the number of entries deleted. -/
def DeleteCacheUseCase.executeKey {S E : Type} (repository : ICacheRepository S E V) (env : E)
    (key : String) (s : S) : S × Except Thrown ℕ :=
  if key = "" then
    (s, .error (.validationError "At least one of key, tags, or pattern is required"))
  else
    match CacheKey.fromRaw key with
    | .error e => (s, .error e)
    | .ok cacheKey =>
      let (s, deleted) := repository.delete env cacheKey.value s
      (s, .ok deleted.toNat)

/-! ### Deletions -/

/-- The deletions of a repository. The one by pattern may reject, and while its scan goes on it
has not returned. -/
structure Deletions (S E V : Type) where
  delete : E → String → S → S × Bool
  deleteByTags : E → List String → S → S × ℕ
  deleteByPattern : E → String → S → S × Answer V

def LayeredCacheRepository.deletions (client : Client) (regExp : RegExp) :
    Deletions (Tiers V) Surroundings V where
  delete := deleteIn client
  deleteByTags := deleteByTagsIn client
  deleteByPattern := deleteByPatternIn client regExp

structure DeleteCacheInput where
  key : Option String
  tags : Option (List String)
  pattern : Option String

inductive DeleteStrategy where
  | key
  | tags
  | pattern
  deriving DecidableEq

structure DeleteCacheOutput where
  deletedCount : ℕ
  strategy : DeleteStrategy
  deriving DecidableEq

/-- How a deletion ends; one by a pattern that does not compile rejects. -/
inductive DeleteOutcome where
  | returns (output : DeleteCacheOutput)
  | throws (e : Thrown)
  | rejects
  | pending
  deriving DecidableEq

namespace DeleteCacheUseCase

/-- A string that is there and not empty is truthy, and a list that is there. -/
def strategies (input : DeleteCacheInput) : List Bool :=
  [input.key.any (· ≠ ""), input.tags.isSome, input.pattern.any (· ≠ "")].filter id

def validate (input : DeleteCacheInput) : Except Thrown Unit :=
  if (strategies input).length = 0 then
    .error (.validationError "At least one of key, tags, or pattern is required")
  else if 1 < (strategies input).length then
    .error (.validationError "Only one of key, tags, or pattern can be specified")
  else if 50 < (input.tags.getD []).length then
    .error (.validationError "Cannot invalidate more than 50 tags at once")
  else if 512 < utf16Length (input.pattern.getD "") then
    .error (.validationError "Pattern cannot exceed 512 characters")
  else .ok ()

def execute {S E : Type} (repository : Deletions S E V) (env : E) (input : DeleteCacheInput)
    (s : S) : S × DeleteOutcome :=
  match validate input with
  | .error e => (s, .throws e)
  | .ok () =>
    if input.key.getD "" ≠ "" then
      match CacheKey.fromRaw (input.key.getD "") with
      | .error e => (s, .throws e)
      | .ok cacheKey =>
        let (s, deleted) := repository.delete env cacheKey.value s
        (s, .returns ⟨if deleted then 1 else 0, .key⟩)
    else if 0 < (input.tags.getD []).length then
      let (s, count) := repository.deleteByTags env (input.tags.getD []) s
      (s, .returns ⟨count, .tags⟩)
    else if input.pattern.getD "" ≠ "" then
      match repository.deleteByPattern env (input.pattern.getD "") s with
      | (s, .count count) => (s, .returns ⟨count, .pattern⟩)
      | (s, .pending) => (s, .pending)
      | (s, _) => (s, .rejects)
    else (s, .throws (.validationError "Provide key, tags, or pattern for deletion"))

def outcomeOfKey : Except Thrown ℕ → DeleteOutcome
  | .ok count => .returns ⟨count, .key⟩
  | .error e => .throws e

theorem execute_key {S E : Type} (repository : ICacheRepository S E V)
    (deletions : Deletions S E V) (hdelete : deletions.delete = repository.delete) (env : E)
    (key : String) (s : S) :
    execute deletions env ⟨some key, none, none⟩ s =
      ((executeKey repository env key s).1, outcomeOfKey (executeKey repository env key s).2) := by
  unfold execute executeKey validate strategies
  by_cases hkey : key = ""
  · simp [hkey, outcomeOfKey]
  · have hlength : utf16Length "" = 0 := rfl
    simp only [Option.any_some, ne_eq, hkey, not_false_eq_true, decide_true, Option.isSome_none,
      Option.any_none, List.filter_cons, id_eq, ↓reduceIte, Bool.false_eq_true, List.filter_nil,
      List.length_cons, List.length_nil, Option.getD_some, Option.getD_none, hlength, hdelete]
    cases CacheKey.fromRaw key with
    | error e => rfl
    | ok cacheKey =>
      cases hresult : repository.delete env cacheKey.value s with
      | mk s' deleted => cases deleted <;> simp [hresult, outcomeOfKey]

/-- What a request that returns has done: the deletion of its strategy, and nothing else. -/
theorem execute_eq_returns {S E : Type} {repository : Deletions S E V} {env : E}
    {input : DeleteCacheInput} {s s' : S} {output : DeleteCacheOutput}
    (h : execute repository env input s = (s', .returns output)) :
    (∃ cacheKey deleted, CacheKey.fromRaw (input.key.getD "") = .ok cacheKey ∧
        repository.delete env cacheKey.value s = (s', deleted) ∧
        output = ⟨if deleted then 1 else 0, .key⟩) ∨
      (∃ count, repository.deleteByTags env (input.tags.getD []) s = (s', count) ∧
        output = ⟨count, .tags⟩) ∨
      ∃ count, repository.deleteByPattern env (input.pattern.getD "") s = (s', .count count) ∧
        output = ⟨count, .pattern⟩ := by
  unfold execute at h
  split at h
  · cases h
  · split at h
    · split at h
      · cases h
      · next cacheKey hkey =>
        obtain ⟨rfl, houtput⟩ := Prod.mk.inj h
        exact Or.inl ⟨cacheKey, _, hkey, rfl, (DeleteOutcome.returns.inj houtput).symm⟩
    · split at h
      · obtain ⟨rfl, houtput⟩ := Prod.mk.inj h
        exact Or.inr (Or.inl ⟨_, rfl, (DeleteOutcome.returns.inj houtput).symm⟩)
      · split at h
        · split at h
          · next count hresult =>
            obtain ⟨rfl, houtput⟩ := Prod.mk.inj h
            exact Or.inr (Or.inr ⟨count, hresult, (DeleteOutcome.returns.inj houtput).symm⟩)
          · cases h
          · cases h
        · cases h

end DeleteCacheUseCase

/-! ### What the use cases keep -/

/-- The memory tier of the state is in order. -/
def Wiring.Sound {S E : Type} {config : Config} (R : Wiring config S E V) (s : S) : Prop :=
  ∀ key, R.Holds key (fun _ => True) s

section Holds

variable {S E : Type} {config : Config} {R : Wiring config S E V} {key : String}
  {K : Content V → Prop} {s : S}

theorem SetCacheUseCase.holds_execute (h : R.Holds key K s) (env : E) (now : Time)
    (input : SetCacheInput V) (hnew : CacheKey.fromRaw input.key = .ok ⟨key⟩ → ∀ c, K c) :
    R.Holds key K (execute R.toICacheRepository config env now input s).1 := by
  unfold execute
  split
  · exact h
  · split
    · exact h
    · next cacheKey hkey =>
      refine R.holds_set h env cacheKey.value _ _ fun hk => hnew ?_ _
      rw [hkey, ← hk]

theorem GetCacheUseCase.holds_execute (h : R.Holds key K s) (env : E) (clock : Clock)
    (key' : String) : R.Holds key K (execute R.toICacheRepository env clock key' s).1 := by
  unfold execute
  split
  · exact h
  · next cacheKey _ =>
    have hget := (R.holds_get h env cacheKey.value).1
    split
    · next hfound => exact congrArg Prod.fst hfound ▸ hget
    · next hfound => exact congrArg Prod.fst hfound ▸ hget

theorem DeleteCacheUseCase.holds_executeKey (h : R.Holds key K s) (env : E) (key' : String) :
    R.Holds key K (executeKey R.toICacheRepository env key' s).1 := by
  unfold executeKey
  split
  · exact h
  · split
    · exact h
    · exact R.holds_delete h env _

end Holds

end EdgeCache
