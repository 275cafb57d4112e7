import EdgeCache.UseCases

/-!
What a request to set an entry is answered with, against what the memory tier holds then. The
answer is made from the request; the repository's `set` returns nothing, and says nothing
of an entry that it has left alone because the key was taken. What is answered is what is stored
exactly when the entry that took the key is as good as the one that was sent.
-/
namespace EdgeCache

variable {V : Type}

/-- `ttl ?? config.CACHE_DEFAULT_TTL`, for the ttl of a request that passes the checks. -/
def SetCacheInput.ttlOr (input : SetCacheInput V) (config : Config) : JsNumber :=
  match input.ttl with
  | some (.number x _) => x
  | _ => .ofNat config.cacheDefaultTtl

theorem SetCacheInput.ttlOr_of_valid {input : SetCacheInput V} {ttl : Option JsNumber}
    (h : SetCacheUseCase.validTtl input.ttl = .ok ttl) (config : Config) :
    input.ttlOr config = ttl.getD (.ofNat config.cacheDefaultTtl) := by
  unfold SetCacheUseCase.validTtl at h
  unfold SetCacheInput.ttlOr
  split at h
  · next hnone =>
    rw [hnone, ← Except.ok.inj h]
    rfl
  · next x text hsome =>
    rw [hsome]
    split at h
    · cases h
    · split at h
      · cases h
      · rw [← Except.ok.inj h]
        rfl
  · split at h <;> cases h

theorem SetCacheUseCase.output_of_ok {S E : Type} {repository : ICacheRepository S E V}
    {config : Config} {env : E} {now : Time} {input : SetCacheInput V} {s : S}
    {output : SetCacheOutput}
    (h : (execute repository config env now input s).2 = .ok output) :
    output = ⟨trim input.key, input.ttlOr config, ((input.ttlOr config).after now).toDate⟩ := by
  unfold execute at h
  split at h
  · cases h
  · next value ttl hvalid =>
    split at h
    · cases h
    · next cacheKey hkey =>
      obtain rfl := Except.ok.inj h
      obtain ⟨-, httl⟩ := validate_eq_ok hvalid
      rw [SetCacheInput.ttlOr_of_valid httl, CacheKey.value_of_fromRaw hkey]

/-- The date is not after the other; an invalid one lies beyond all others. -/
def Date.NoLater : Date → Date → Prop
  | _, none => True
  | none, some _ => False
  | some t, some t' => t ≤ t'

theorem Date.noLater_after {n : ℕ} {t t' : Time} (h : t ≤ t') :
    NoLater ((JsNumber.ofNat n).after t).toDate ((JsNumber.ofNat n).after t').toDate := by
  have hle : t.val ≤ t'.val := h
  rw [JsNumber.toDate_after_ofNat, JsNumber.toDate_after_ofNat]
  by_cases hlater : t'.val + n * 1000 ≤ maxTime
  · have hearlier : t.val + n * 1000 ≤ maxTime := by omega
    rw [if_pos hearlier, if_pos hlater]
    show t.val + n * 1000 ≤ t'.val + n * 1000
    omega
  · rw [if_neg hlater]
    trivial

theorem SetCacheInput.exists_ttlOr_eq {input : SetCacheInput V} {ttl : Option JsNumber}
    (h : SetCacheUseCase.validTtl input.ttl = .ok ttl) (config : Config) :
    ∃ n, input.ttlOr config = .ofNat n := by
  rw [ttlOr_of_valid h]
  rcases SetCacheUseCase.validTtl_eq_ok h with rfl | ⟨n, -, -, rfl⟩
  · exact ⟨config.cacheDefaultTtl, rfl⟩
  · exact ⟨n, rfl⟩

/-- An entry is what a request answered with `ttl` and `expiresAt` has asked for. -/
structure SetCacheInput.Asks (input : SetCacheInput V) (ttl : JsNumber) (expiresAt : Date)
    (entry : CacheEntry V) : Prop where
  ttl_eq : entry.ttl = ttl
  expiresAt_le : entry.expiresAt.NoLater expiresAt
  value_eq : some entry.value = input.value
  tags_eq : entry.tags = input.tags.getD []
  metadata_eq : entry.metadata = input.metadata.getD []

/-- What is answered is what the tier holds under the key that is named. -/
def MemoryCacheRepository.Bears (s : MemoryCacheRepository V) (input : SetCacheInput V)
    (output : SetCacheOutput) : Prop :=
  ∃ entry, s.entryAt output.key = some entry ∧ input.Asks output.ttl output.expiresAt entry

/-- A live entry that keeps the request from storing its own is as good as that one. -/
def SetCacheInput.NotBarred (config : Config) (clock : Clock) (now : Time)
    (input : SetCacheInput V) (s : MemoryCacheRepository V) : Prop :=
  ∀ held, input.ifNotExists = true → s.entryAt (trim input.key) = some held →
    held.isExpired (clock 0) = false →
    input.Asks (input.ttlOr config) ((input.ttlOr config).after now).toDate held

/-- A request to set an entry where the memory tier is the repository. -/
abbrev SetCacheUseCase.executeOn (config : Config) (clock : Clock) (now : Time)
    (input : SetCacheInput V) (s : MemoryCacheRepository V) :
    MemoryCacheRepository V × Except Thrown SetCacheOutput :=
  execute (MemoryCacheRepository.wiring config).toICacheRepository config clock now input s

open SetCacheUseCase (executeOn)

section Set

variable {config : Config} {clock : Clock} {now : Time} {input : SetCacheInput V}
  {s : MemoryCacheRepository V} {v : MemoryView V} {output : SetCacheOutput}

theorem SetCacheInput.asks_newEntry {value : V} {ttl : Option JsNumber} (hnow : clock 1 ≤ now)
    (hvalue : input.value = some value) (httl : SetCacheUseCase.validTtl input.ttl = .ok ttl)
    (key : String) :
    input.Asks (input.ttlOr config) ((input.ttlOr config).after now).toDate
      (MemoryView.newEntry config (clock 1) key value
        (SetCacheUseCase.options config input ttl)) := by
  obtain ⟨n, hn⟩ := exists_ttlOr_eq httl config
  have hstored : (SetCacheUseCase.options config input ttl).ttlOr (.ofNat config.cacheDefaultTtl) =
      input.ttlOr config := (ttlOr_of_valid httl config).symm
  refine ⟨hstored, ?_, hvalue.symm, rfl, rfl⟩
  show Date.NoLater (JsNumber.after (clock 1) _).toDate _
  rw [hstored, hn]
  exact Date.noLater_after hnow

theorem bears_of_stored (hs : MemoryCacheRepository.Shows config s v) (hnow : clock 1 ≤ now)
    (houtput : (executeOn config clock now input s).2 = .ok output)
    (hfree : ∀ held, input.ifNotExists = true → s.entryAt (trim input.key) = some held →
      held.isExpired (clock 0) = true) :
    (executeOn config clock now input s).1.Bears input output := by
  obtain ⟨value, ttl, hvalue, httl, hkey, hstate⟩ := SetCacheUseCase.execute_eq_ok houtput
  have hnew : s.suppressed clock output.key (SetCacheUseCase.options config input ttl) = false := by
    rw [hkey, MemoryCacheRepository.suppressed]
    show (input.ifNotExists && _) = false
    cases hnx : input.ifNotExists with
    | false => rfl
    | true =>
      rw [Bool.true_and]
      cases hheld : s.entryAt (trim input.key) with
      | none => rfl
      | some held =>
        rw [Option.any_some, hfree held hnx hheld]
        rfl
  refine ⟨MemoryView.newEntry config (clock 1) output.key value
    (SetCacheUseCase.options config input ttl), ?_, ?_⟩
  · rw [hstate]
    exact MemoryCacheRepository.entryAt_set hs clock output.key value _ hnew
  · have hanswer := SetCacheUseCase.output_of_ok houtput
    rw [hanswer]
    exact SetCacheInput.asks_newEntry hnow hvalue httl _

theorem execute_of_suppressed {held : CacheEntry V}
    (houtput : (executeOn config clock now input s).2 = .ok output)
    (hnx : input.ifNotExists = true) (hheld : s.entryAt (trim input.key) = some held)
    (hlive : held.isExpired (clock 0) = false) :
    (executeOn config clock now input s).1 = s := by
  obtain ⟨value, ttl, -, -, hkey, hstate⟩ := SetCacheUseCase.execute_eq_ok houtput
  have htaken :
      s.suppressed clock output.key (SetCacheUseCase.options config input ttl) = true := by
    rw [hkey, MemoryCacheRepository.suppressed, hheld, Option.any_some, hlive]
    show (input.ifNotExists && true) = true
    rw [hnx, Bool.and_true]
  rw [hstate]
  show s.set clock output.key value _ = s
  rw [MemoryCacheRepository.set, if_pos htaken]

theorem bears_execute_iff (hs : MemoryCacheRepository.Shows config s v) (hnow : clock 1 ≤ now)
    (houtput : (executeOn config clock now input s).2 = .ok output) :
    (executeOn config clock now input s).1.Bears input output ↔
      input.NotBarred config clock now s := by
  have hanswer := SetCacheUseCase.output_of_ok houtput
  constructor
  · intro hbears held hnx hheld hlive
    rw [execute_of_suppressed houtput hnx hheld hlive] at hbears
    obtain ⟨entry, hentry, hasks⟩ := hbears
    rw [hanswer] at hentry hasks
    exact Option.some.inj (hheld.symm.trans hentry) ▸ hasks
  · intro hfair
    by_cases hbarred : ∃ held, input.ifNotExists = true ∧ s.entryAt (trim input.key) = some held ∧
        held.isExpired (clock 0) = false
    · obtain ⟨held, hnx, hheld, hlive⟩ := hbarred
      rw [execute_of_suppressed houtput hnx hheld hlive, hanswer]
      exact ⟨held, hheld, hfair held hnx hheld hlive⟩
    · refine bears_of_stored hs hnow houtput fun held hnx hheld => ?_
      by_contra hlive
      exact hbarred ⟨held, hnx, hheld, Bool.eq_false_iff.mpr hlive⟩

end Set

/-- On the memory tier, whatever calls have been made before, an accepted request to set an entry
reports what is held under its key exactly when no live entry of another make bars it. -/
theorem set_reports_stored_iff (config : Config) (regExp : RegExp) (events : List (Event V))
    (clock : Clock) (now : Time) (hnow : clock 1 ≤ now) (input : SetCacheInput V)
    (output : SetCacheOutput)
    (houtput : (executeOn config clock now input
      (MemoryCacheRepository.reach regExp config events)).2 = .ok output) :
    (executeOn config clock now input
      (MemoryCacheRepository.reach regExp config events)).1.Bears input output ↔
      input.NotBarred config clock now (MemoryCacheRepository.reach regExp config events) := by
  have hshown : ∃ v, MemoryCacheRepository.Shows config
      (MemoryCacheRepository.reach regExp config events) v ∧ True :=
    MemoryCacheRepository.exists_shows_of_reach trivial (fun _ _ => trivial) events
  obtain ⟨v, hv, -⟩ := hshown
  exact bears_execute_iff hv hnow houtput

def earlierSet (setAt : Time) : List (Event ℕ) := [⟨.set "a" 1 (.ofTtl 60), fun _ => setAt⟩]

def laterRequest (ifNotExists : Bool) : SetCacheInput ℕ :=
  ⟨"a", some 2, none, some ["t"], none, ifNotExists⟩

theorem set_reports_stored_overwritten :
    let config : Config := ⟨2, 60, by decide, by decide⟩
    let s := MemoryCacheRepository.reach (fun _ => none) config (earlierSet ⟨1000, by decide⟩)
    let clock : Clock := fun _ => ⟨2000, by decide⟩
    (executeOn config clock ⟨2000, by decide⟩ (laterRequest false) s).1.Bears (laterRequest false)
        ⟨"a", .ofNat 60, ((JsNumber.ofNat 60).after ⟨2000, by decide⟩).toDate⟩ ↔
      (laterRequest false).NotBarred config clock ⟨2000, by decide⟩ s :=
  set_reports_stored_iff ⟨2, 60, by decide, by decide⟩ (fun _ => none)
    (earlierSet ⟨1000, by decide⟩) (fun _ => ⟨2000, by decide⟩) ⟨2000, by decide⟩ le_rfl
    (laterRequest false)
    ⟨"a", .ofNat 60, ((JsNumber.ofNat 60).after ⟨2000, by decide⟩).toDate⟩ rfl

theorem not_bears_of_barred :
    let config : Config := ⟨2, 60, by decide, by decide⟩
    let s := MemoryCacheRepository.reach (fun _ => none) config (earlierSet ⟨1000, by decide⟩)
    let now : Time := ⟨2000, by decide⟩
    ∃ output, (executeOn config (fun _ => now) now (laterRequest true) s).2 = .ok output ∧
      ¬ (executeOn config (fun _ => now) now (laterRequest true) s).1.Bears
        (laterRequest true) output := by
  refine ⟨⟨"a", .ofNat 60, ((JsNumber.ofNat 60).after ⟨2000, by decide⟩).toDate⟩, rfl, ?_⟩
  rintro ⟨entry, hentry, hasks⟩
  have hvalue : ((executeOn ⟨2, 60, by decide, by decide⟩ (fun _ => ⟨2000, by decide⟩)
      ⟨2000, by decide⟩ (laterRequest true) (MemoryCacheRepository.reach (fun _ => none)
        ⟨2, 60, by decide, by decide⟩ (earlierSet ⟨1000, by decide⟩))).1.entryAt "a").map
          (·.value) = some 1 := by
    decide +kernel
  have hstored : some entry.value = some 1 := by
    rw [← hvalue]
    exact (congrArg (Option.map CacheEntry.value) hentry).symm
  have hsent : some entry.value = some 2 := hasks.value_eq
  rw [hstored, Option.some.injEq] at hsent
  omega

end EdgeCache
