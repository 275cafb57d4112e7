import EdgeCache.UseCases

/-!
What a client is told of a key that the cache does not take. `errorHandler` answers an
`AppError` with its own status and anything else with 500. The use cases that set, get and
delete an entry take the same keys and pass on the same normalised key, but only the first
checks the key itself: the others leave it to `CacheKey.fromRaw`, which throws a plain `Error`.
-/
namespace EdgeCache

variable {V : Type}

/-! ### Errors -/

namespace Thrown

def isAppError : Thrown → Bool
  | .error _ => false
  | .typeError => false
  | .validationError _ => true
  | .notFoundError _ => true
  | .upstreamError _ => true

end Thrown

/-- Status, code and message of the answer to a request that failed. -/
structure ErrorResponse where
  status : ℕ
  code : String
  message : String
  deriving DecidableEq

/-- The global error handler, for the errors that are thrown here. -/
def errorHandler (err : Thrown) : ErrorResponse :=
  match err with
  | .validationError message => ⟨err.statusCode, "VALIDATION_ERROR", message⟩
  | .notFoundError message => ⟨err.statusCode, "NOT_FOUND", message⟩
  | .upstreamError message => ⟨err.statusCode, "UPSTREAM_ERROR", message⟩
  | .error _ => ⟨500, "INTERNAL_SERVER_ERROR", "An unexpected error occurred"⟩
  | .typeError => ⟨500, "INTERNAL_SERVER_ERROR", "An unexpected error occurred"⟩

/-- An error that blames the request: an `AppError` of status 4xx. -/
def Thrown.IsClientError (e : Thrown) : Prop :=
  e.isAppError = true ∧ 400 ≤ (errorHandler e).status ∧ (errorHandler e).status < 500

theorem Thrown.isClientError_validationError (message : String) :
    (validationError message).IsClientError := by
  refine ⟨rfl, le_rfl, ?_⟩
  show 400 < 500
  omega

theorem Thrown.not_isClientError_error (message : String) : ¬ (error message).IsClientError :=
  fun h => Bool.noConfusion h.1

/-! ### Keys -/

/-- A key that is not blank and not too long; its length is taken as it was sent. -/
def WellFormedKey (key : String) : Prop := trim key ≠ "" ∧ utf16Length key ≤ 512

instance (key : String) : Decidable (WellFormedKey key) := instDecidableAnd

namespace CacheKey

theorem fromRaw_of_wellFormed {key : String} (h : WellFormedKey key) :
    fromRaw key = .ok ⟨trim key⟩ := by
  rw [fromRaw, if_neg h.1, if_neg (not_lt.mpr h.2)]

theorem fromRaw_of_malformed {key : String} (h : ¬ WellFormedKey key) :
    ∃ message, fromRaw key = .error (.error message) := by
  rw [fromRaw]
  by_cases hblank : trim key = ""
  · rw [if_pos hblank]
    exact ⟨_, rfl⟩
  · have hlong : 512 < utf16Length key := by
      by_contra hshort
      exact h ⟨hblank, not_lt.mp hshort⟩
    rw [if_neg hblank, if_pos hlong]
    exact ⟨_, rfl⟩

end CacheKey

theorem SetCacheUseCase.validate_of_malformed {input : SetCacheInput V}
    (h : ¬ WellFormedKey input.key) :
    ∃ message, validate input = .error (.validationError message) := by
  rw [validate]
  by_cases hblank : trim input.key = ""
  · rw [if_pos hblank]
    exact ⟨_, rfl⟩
  · have hlong : 512 < utf16Length input.key := by
      by_contra hshort
      exact h ⟨hblank, not_lt.mp hshort⟩
    rw [if_neg hblank, if_pos hlong]
    exact ⟨_, rfl⟩

theorem SetCacheUseCase.validate_of_wellFormed {input : SetCacheInput V} {value : V}
    {ttl : Option JsNumber} (h : WellFormedKey input.key) (hvalue : input.value = some value)
    (httl : validTtl input.ttl = .ok ttl) : validate input = .ok (value, ttl) := by
  rw [validate, if_neg h.1, if_neg (not_lt.mpr h.2), httl, hvalue]

/-! ### The three use cases -/

/-- Whatever the repository, the three use cases hand it `key'` for `key`; for the first the
rest of the input is valid. -/
structure AcceptAs (V : Type) (key key' : String) : Prop where
  set : ∀ {S E : Type} (repository : ICacheRepository S E V) (config : Config) (env : E)
    (now : Time) (input : SetCacheInput V) (value : V) (ttl : Option JsNumber) (s : S),
    input.key = key → input.value = some value → SetCacheUseCase.validTtl input.ttl = .ok ttl →
    ∃ output, output.key = key' ∧
      SetCacheUseCase.execute repository config env now input s =
        (repository.set env key' value (SetCacheUseCase.options config input ttl) s, .ok output)
  get : ∀ {S E : Type} (repository : ICacheRepository S E V) (env : E) (clock : Clock) (s : S),
    (GetCacheUseCase.execute repository env clock key s).1 = (repository.get env key' s).1 ∧
      ((GetCacheUseCase.execute repository env clock key s).2.toOption.map GetCacheOutput.entry =
        (repository.get env key' s).2)
  delete : ∀ {S E : Type} (repository : Deletions S E V) (env : E) (s : S),
    DeleteCacheUseCase.execute repository env ⟨some key, none, none⟩ s =
      ((repository.delete env key' s).1,
        .returns ⟨if (repository.delete env key' s).2 then 1 else 0, .key⟩)

/-- Whatever the repository, the three use cases leave it alone and blame the request. -/
structure Refuse (V : Type) (key : String) : Prop where
  set : ∀ {S E : Type} (repository : ICacheRepository S E V) (config : Config) (env : E)
    (now : Time) (input : SetCacheInput V) (value : V) (ttl : Option JsNumber) (s : S),
    input.key = key → input.value = some value → SetCacheUseCase.validTtl input.ttl = .ok ttl →
    ∃ e, e.IsClientError ∧
      SetCacheUseCase.execute repository config env now input s = (s, .error e)
  get : ∀ {S E : Type} (repository : ICacheRepository S E V) (env : E) (clock : Clock) (s : S),
    ∃ e, e.IsClientError ∧ GetCacheUseCase.execute repository env clock key s = (s, .error e)
  delete : ∀ {S E : Type} (repository : Deletions S E V) (env : E) (s : S),
    ∃ e, e.IsClientError ∧
      DeleteCacheUseCase.execute repository env ⟨some key, none, none⟩ s = (s, .throws e)

/-- The use cases agree on a key. -/
def Agree (V : Type) (key : String) : Prop := (∃ key', AcceptAs V key key') ∨ Refuse V key

theorem DeleteCacheUseCase.validate_key {key : String} (hkey : key ≠ "") :
    validate ⟨some key, none, none⟩ = .ok () := by
  have hlength : utf16Length "" = 0 := rfl
  simp [validate, strategies, hkey, hlength]

theorem DeleteCacheUseCase.execute_of_ok {S E : Type} (repository : Deletions S E V) (env : E)
    {key : String} (hkey : key ≠ "") {cacheKey : CacheKey}
    (hraw : CacheKey.fromRaw key = .ok cacheKey) (s : S) :
    execute repository env ⟨some key, none, none⟩ s =
      ((repository.delete env cacheKey.value s).1,
        .returns ⟨if (repository.delete env cacheKey.value s).2 then 1 else 0, .key⟩) := by
  unfold execute
  rw [validate_key hkey]
  simp only [Option.getD_some]
  rw [if_pos hkey, hraw]

theorem DeleteCacheUseCase.execute_of_error {S E : Type} (repository : Deletions S E V) (env : E)
    {key : String} (hkey : key ≠ "") {e : Thrown} (hraw : CacheKey.fromRaw key = .error e) (s : S) :
    execute repository env ⟨some key, none, none⟩ s = (s, .throws e) := by
  unfold execute
  rw [validate_key hkey]
  simp only [Option.getD_some]
  rw [if_pos hkey, hraw]

theorem acceptAs_of_wellFormed {key : String} (h : WellFormedKey key) :
    AcceptAs V key (trim key) where
  set := by
    intro S E repository config env now input value ttl s hkey hvalue httl
    subst hkey
    rw [SetCacheUseCase.execute, SetCacheUseCase.validate_of_wellFormed h hvalue httl,
      CacheKey.fromRaw_of_wellFormed h]
    exact ⟨_, rfl, rfl⟩
  get := by
    intro S E repository env clock s
    rw [GetCacheUseCase.execute, CacheKey.fromRaw_of_wellFormed h]
    cases hget : repository.get env (trim key) s with
    | mk s' found =>
      cases found with
      | none =>
        simp only [hget]
        exact ⟨trivial, rfl⟩
      | some entry =>
        simp only [hget]
        exact ⟨trivial, rfl⟩
  delete := by
    intro S E repository env s
    have hkey : key ≠ "" := by
      rintro rfl
      exact h.1 rfl
    exact DeleteCacheUseCase.execute_of_ok repository env hkey (CacheKey.fromRaw_of_wellFormed h) s

theorem GetCacheUseCase.execute_of_malformed {S E : Type} (repository : ICacheRepository S E V)
    (env : E) (clock : Clock) {key : String} (h : ¬ WellFormedKey key) (s : S) :
    ∃ message, execute repository env clock key s = (s, .error (.error message)) := by
  obtain ⟨message, hraw⟩ := CacheKey.fromRaw_of_malformed h
  rw [execute, hraw]
  exact ⟨message, rfl⟩

theorem SetCacheUseCase.execute_of_malformed {S E : Type} (repository : ICacheRepository S E V)
    (config : Config) (env : E) (now : Time) {input : SetCacheInput V}
    (h : ¬ WellFormedKey input.key) (s : S) :
    ∃ message, execute repository config env now input s =
      (s, .error (.validationError message)) := by
  obtain ⟨message, hvalid⟩ := validate_of_malformed h
  rw [execute, hvalid]
  exact ⟨message, rfl⟩

theorem DeleteCacheUseCase.execute_of_malformed {S E : Type} (repository : Deletions S E V)
    (env : E) {key : String} (h : ¬ WellFormedKey key) (s : S) :
    ∃ e, execute repository env ⟨some key, none, none⟩ s = (s, .throws e) ∧
      (errorHandler e).status = if key = "" then 400 else 500 := by
  by_cases hkey : key = ""
  · subst hkey
    exact ⟨_, rfl, rfl⟩
  · obtain ⟨message, hraw⟩ := CacheKey.fromRaw_of_malformed h
    rw [if_neg hkey]
    exact ⟨_, execute_of_error repository env hkey hraw s, rfl⟩

/-- No use case calls the repository for a malformed key, but the blame differs: the request is
blamed when an entry is set, the server when one is looked up, and either when one is deleted. -/
theorem blame_of_malformed {S E : Type} (repository : ICacheRepository S E V)
    (deletions : Deletions S E V) (config : Config) (env : E) (now : Time) (clock : Clock)
    {input : SetCacheInput V} (h : ¬ WellFormedKey input.key) (s : S) :
    (∃ e, SetCacheUseCase.execute repository config env now input s = (s, .error e) ∧
        e.IsClientError) ∧
      (∃ e, GetCacheUseCase.execute repository env clock input.key s = (s, .error e) ∧
        (errorHandler e).status = 500) ∧
      ∃ e, DeleteCacheUseCase.execute deletions env ⟨some input.key, none, none⟩ s =
          (s, .throws e) ∧ (errorHandler e).status = if input.key = "" then 400 else 500 := by
  obtain ⟨setMessage, hset⟩ :=
    SetCacheUseCase.execute_of_malformed repository config env now h s
  obtain ⟨getMessage, hget⟩ := GetCacheUseCase.execute_of_malformed repository env clock h s
  refine ⟨⟨_, hset, Thrown.isClientError_validationError setMessage⟩, ⟨_, hget, rfl⟩, ?_⟩
  exact DeleteCacheUseCase.execute_of_malformed deletions env h s

/-- Whether it has looked anything up. -/
def probe : ICacheRepository Bool Unit V where
  get := fun _ _ _ => (true, none)
  set := fun _ _ _ _ _ => true
  delete := fun _ _ _ => (true, false)
  flush := fun _ _ => true

theorem not_agree_of_malformed {key : String} (h : ¬ WellFormedKey key) : ¬ Agree V key := by
  intro hagree
  obtain ⟨message, hget⟩ :=
    GetCacheUseCase.execute_of_malformed (V := V) probe () (fun _ => ⟨1, by decide⟩) h false
  rcases hagree with ⟨key', haccept⟩ | hrefuse
  · have hstate := (haccept.get probe () (fun _ => ⟨1, by decide⟩) false).1
    rw [hget] at hstate
    exact Bool.noConfusion hstate
  · obtain ⟨e, hclient, heq⟩ := hrefuse.get probe () (fun _ => ⟨1, by decide⟩) false
    rw [hget] at heq
    have he : Thrown.error message = e := Except.error.inj (Prod.mk.inj heq).2
    exact Thrown.not_isClientError_error message (he ▸ hclient)

/-- The three use cases agree on a key exactly when it is well formed: any other is answered
with 500 when an entry is looked up under it. -/
theorem useCases_agree_iff (V : Type) (key : String) : Agree V key ↔ WellFormedKey key := by
  constructor
  · intro hagree
    by_contra hmalformed
    exact not_agree_of_malformed hmalformed hagree
  · intro h
    exact Or.inl ⟨trim key, acceptAs_of_wellFormed h⟩

/-- A blank key. -/
theorem useCases_disagree_blank : ¬ Agree Json " " := not_agree_of_malformed (by decide)

end EdgeCache
