import EdgeCache.MemoryRefinement

/-!
Reads of the memory tier in terms of the history of one key: the effective sets, the
hits, and the removals other than expiry. A `get` returns an entry exactly when the
latest set was not removed since and its deadline has not passed, and the entry is what
that set stored, with the hits counted. Nothing is asked of the clock but that no earlier
reading is later than the time of the `get`.
-/
namespace EdgeCache

variable {V : Type}

/-- What can happen to a key, expiry apart. -/
inductive Happening (V : Type) where
  | stored (start : Time) (value : V) (options : SetOptions)
  | hit
  | removed
  deriving DecidableEq

/-- The history ends with an effective set and a number of hits after it. -/
def LatestSet (history : List (Happening V)) (start : Time) (value : V) (options : SetOptions)
    (hits : ℕ) : Prop :=
  ∃ before, history = before ++ .stored start value options :: List.replicate hits .hit

section LatestSet

variable {history : List (Happening V)} {start : Time} {value : V} {options : SetOptions}
  {hits : ℕ}

theorem latestSet_concat {last : Happening V} :
    LatestSet (history ++ [last]) start value options hits ↔
      (last = .stored start value options ∧ hits = 0) ∨
        ∃ n, hits = n + 1 ∧ last = .hit ∧ LatestSet history start value options n := by
  constructor
  · intro hset
    obtain ⟨before, h⟩ := hset
    cases hits with
    | zero =>
      obtain ⟨-, h⟩ := List.append_inj' h rfl
      exact Or.inl ⟨List.singleton_inj.mp h, rfl⟩
    | succ n =>
      rw [List.replicate_succ', ← List.cons_append, ← List.append_assoc] at h
      obtain ⟨hbefore, h⟩ := List.append_inj' h rfl
      exact Or.inr ⟨n, rfl, List.singleton_inj.mp h, before, hbefore⟩
  · rintro (⟨rfl, rfl⟩ | ⟨n, rfl, rfl, before, rfl⟩)
    · exact ⟨history, rfl⟩
    · exact ⟨before, by rw [List.replicate_succ', ← List.cons_append, List.append_assoc]⟩

theorem latestSet_concat_stored {start' : Time} {value' : V} {options' : SetOptions} :
    LatestSet (history ++ [.stored start' value' options']) start value options hits ↔
      start = start' ∧ value = value' ∧ options = options' ∧ hits = 0 := by
  rw [latestSet_concat]
  constructor
  · rintro (⟨heq, rfl⟩ | ⟨n, -, hhit, -⟩)
    · obtain ⟨rfl, rfl, rfl⟩ := Happening.stored.inj heq
      exact ⟨rfl, rfl, rfl, rfl⟩
    · cases hhit
  · rintro ⟨rfl, rfl, rfl, rfl⟩
    exact Or.inl ⟨rfl, rfl⟩

theorem latestSet_concat_hit :
    LatestSet (history ++ [.hit]) start value options hits ↔
      ∃ n, hits = n + 1 ∧ LatestSet history start value options n := by
  rw [latestSet_concat]
  constructor
  · rintro (⟨hstored, -⟩ | ⟨n, rfl, -, hset⟩)
    · cases hstored
    · exact ⟨n, rfl, hset⟩
  · rintro ⟨n, rfl, hset⟩
    exact Or.inr ⟨n, rfl, rfl, hset⟩

theorem not_latestSet_concat_removed :
    ¬ LatestSet (history ++ [.removed]) start value options hits := by
  rw [latestSet_concat]
  rintro (⟨hstored, -⟩ | ⟨n, -, hhit, -⟩)
  · cases hstored
  · cases hhit

theorem not_latestSet_nil : ¬ LatestSet ([] : List (Happening V)) start value options hits := by
  intro hset
  obtain ⟨before, h⟩ := hset
  simp at h

theorem LatestSet.mem (h : LatestSet history start value options hits) :
    Happening.stored start value options ∈ history := by
  obtain ⟨before, rfl⟩ := h
  simp

end LatestSet

/-! ### Entries and histories -/

/-- What a set has stored after a number of hits. -/
def recorded (config : Config) (key : String) (start : Time) (value : V) (options : SetOptions)
    (hits : ℕ) : CacheEntry V :=
  { MemoryView.newEntry config start key value options with hitCount := hits }

theorem isExpired_recorded (config : Config) (key : String) (start now : Time) (value : V)
    (options : SetOptions) (hits : ℕ) {n : ℕ}
    (hn : options.ttlOr (.ofNat config.cacheDefaultTtl) = .ofNat n) :
    (recorded config key start value options hits).isExpired now = true ↔
      start.val + n * 1000 < now.val := by
  rw [← CacheEntry.isExpired_create start now key value n options.tagList options.metadataList,
    ← hn]
  rfl

/-- What is found under a key agrees with its history; an entry that is missing has
expired at some reading of the clock. -/
structure Tracks (config : Config) (key : String) (read : Time → Prop)
    (history : List (Happening V)) (found : Option (CacheEntry V)) : Prop where
  of_found : ∀ entry, found = some entry → ∃ start value options hits,
    LatestSet history start value options hits ∧
      entry = recorded config key start value options hits
  of_latest : ∀ start value options hits, LatestSet history start value options hits →
    found = some (recorded config key start value options hits) ∨
      found = none ∧ ∃ t, read t ∧ (recorded config key start value options hits).isExpired t = true

namespace Tracks

variable {config : Config} {key : String} {read : Time → Prop}
  {history : List (Happening V)} {found found' : Option (CacheEntry V)}

theorem nil : Tracks config key read ([] : List (Happening V)) none where
  of_found entry h := by simp at h
  of_latest start value options hits h := absurd h not_latestSet_nil

theorem stored (start : Time) (value : V) (options : SetOptions) :
    Tracks config key read (history ++ [.stored start value options])
      (some (MemoryView.newEntry config start key value options)) where
  of_found entry h := by
    refine ⟨start, value, options, 0, latestSet_concat_stored.mpr ⟨rfl, rfl, rfl, rfl⟩, ?_⟩
    rw [← Option.some.inj h]
    rfl
  of_latest start' value' options' hits hlatest := by
    obtain ⟨rfl, rfl, rfl, rfl⟩ := latestSet_concat_stored.mp hlatest
    exact Or.inl rfl

theorem hit {entry : CacheEntry V} (h : Tracks config key read history (some entry)) :
    Tracks config key read (history ++ [.hit]) (some entry.registerHit) where
  of_found entry' h' := by
    obtain ⟨start, value, options, hits, hlatest, rfl⟩ := h.of_found entry rfl
    refine ⟨start, value, options, hits + 1, latestSet_concat_hit.mpr ⟨hits, rfl, hlatest⟩, ?_⟩
    rw [← Option.some.inj h']
    rfl
  of_latest start value options hits hlatest := by
    obtain ⟨n, rfl, hearlier⟩ := latestSet_concat_hit.mp hlatest
    rcases h.of_latest start value options n hearlier with hfound | ⟨hnone, -⟩
    · refine Or.inl ?_
      rw [Option.some.inj hfound]
      rfl
    · simp at hnone

theorem expired {entry : CacheEntry V} (h : Tracks config key read history (some entry))
    {t : Time} (ht : read t) (hexpired : entry.isExpired t = true) :
    Tracks config key read history none where
  of_found entry h := by simp at h
  of_latest start value options hits hlatest := by
    rcases h.of_latest start value options hits hlatest with hfound | ⟨hnone, -⟩
    · exact Or.inr ⟨rfl, t, ht, Option.some.inj hfound ▸ hexpired⟩
    · simp at hnone

/-- A read finds an entry exactly when the latest set has not expired. -/
theorem isSome_get_iff {a : Recency V} {now : Time}
    (h : Tracks config key (fun t => t ≤ now) history (a.lookup key)) :
    (a.get now key).2.isSome ↔ ∃ start value options hits,
      LatestSet history start value options hits ∧
        (recorded config key start value options hits).isExpired now = false := by
  rw [Option.isSome_iff_exists]
  constructor
  · intro hget
    obtain ⟨entry, hentry⟩ := hget
    obtain ⟨stored, hstored, hfresh, -⟩ := (Recency.get_eq_some_iff key).mp hentry
    obtain ⟨start, value, options, hits, hlatest, rfl⟩ := h.of_found stored hstored
    exact ⟨start, value, options, hits, hlatest, hfresh⟩
  · intro hset
    obtain ⟨start, value, options, hits, hlatest, hfresh⟩ := hset
    rcases h.of_latest start value options hits hlatest with hstored | ⟨-, t, ht, hexpired⟩
    · exact ⟨_, (Recency.get_eq_some_iff key).mpr ⟨_, hstored, hfresh, rfl⟩⟩
    · rw [CacheEntry.isExpired_mono _ ht hexpired] at hfresh
      cases hfresh

theorem eq_of_get {a : Recency V} {now : Time} (h : Tracks config key read history (a.lookup key))
    {entry : CacheEntry V} (hentry : (a.get now key).2 = some entry) {start : Time} {value : V}
    {options : SetOptions} {hits : ℕ} (hlatest : LatestSet history start value options hits) :
    entry = (recorded config key start value options hits).registerHit := by
  obtain ⟨stored, hstored, -, rfl⟩ := (Recency.get_eq_some_iff key).mp hentry
  rcases h.of_latest start value options hits hlatest with hrecorded | ⟨hnone, -⟩
  · rw [Option.some.inj (hstored.symm.trans hrecorded)]
  · rw [hstored] at hnone
    cases hnone

theorem filter (h : Tracks config key read history found) {keep : CacheEntry V → Bool}
    (hdrop : ∀ entry, keep entry = false → ∃ t, read t ∧ entry.isExpired t = true) :
    Tracks config key read history (found.filter keep) := by
  cases found with
  | none => exact h
  | some entry =>
    cases hkeep : keep entry with
    | true => simpa [Option.filter, hkeep] using h
    | false =>
      obtain ⟨t, ht, hexpired⟩ := hdrop entry hkeep
      simpa [Option.filter, hkeep] using h.expired ht hexpired

theorem get {a : Recency V} (h : Tracks config key read history (a.lookup key)) {now : Time}
    (hnow : read now) :
    Tracks config key read (history ++ if (a.get now key).2.isSome then [.hit] else [])
      ((a.get now key).1.lookup key) := by
  rw [Recency.lookup_get_self]
  unfold Recency.get
  cases hl : a.lookup key with
  | none =>
    rw [hl] at h
    simpa using h
  | some entry =>
    rw [hl] at h
    by_cases hexpired : entry.isExpired now = true
    · simpa [hexpired] using h.expired hnow hexpired
    · simpa [hexpired] using h.hit

theorem fade (h : Tracks config key read history found) (hfade : found' = found ∨ found' = none) :
    Tracks config key read
      (history ++ if found.isSome ∧ ¬ found'.isSome then [.removed] else []) found' := by
  rcases hfade with rfl | rfl
  · rwa [if_neg fun hboth => hboth.2 hboth.1, List.append_nil]
  · cases found with
    | none => simpa using h
    | some entry =>
      refine ⟨fun entry h => by simp at h, fun start value options hits hlatest => ?_⟩
      exact absurd (by simpa using hlatest) not_latestSet_concat_removed

end Tracks

namespace MemoryCacheRepository

variable (regExp : RegExp) (key : String)

/-- A removal, when the call takes the key out of the map. -/
def removalBy (s : MemoryCacheRepository V) (e : Event V) : List (Happening V) :=
  if key ∈ s.map.keys ∧ key ∉ (s.step regExp e).map.keys then [.removed] else []

/-- What one call means to the key. An entry that a `set` of another key takes out of the
map has been evicted. -/
def happeningsOf (s : MemoryCacheRepository V) (e : Event V) : List (Happening V) :=
  match e.op with
  | .get key' => if key' = key ∧ (s.get e.clock key').2.isSome then [.hit] else []
  | .set key' value options =>
    if key' = key then
      if s.suppressed e.clock key' options then [] else [.stored (e.clock 1) value options]
    else s.removalBy regExp key e
  | .delete _ | .deleteByTags _ | .deleteByPattern _ | .flush => s.removalBy regExp key e
  | _ => []

def historyOf : MemoryCacheRepository V → List (Event V) → List (Happening V)
  | _, [] => []
  | s, e :: rest => s.happeningsOf regExp key e ++ historyOf (s.step regExp e) rest

variable {regExp key} {config : Config}

theorem removalBy_eq (key : String) {s : MemoryCacheRepository V} {v v' : MemoryView V} {e : Event V}
    (h : Shows config s v) (h' : Shows config (s.step regExp e) v') :
    s.removalBy regExp key e =
      if (v.recency.lookup key).isSome ∧ ¬ (v'.recency.lookup key).isSome then [.removed]
      else [] := by
  simp only [removalBy, h.mem_keys_iff_isSome, h'.mem_keys_iff_isSome]

/-- One call keeps what is found in agreement with the history. -/
theorem Shows.tracks {s : MemoryCacheRepository V} {v : MemoryView V} (h : Shows config s v)
    (regExp : RegExp)
    {read : Time → Prop} {history : List (Happening V)}
    (htracks : Tracks config key read history (v.recency.lookup key)) {e : Event V}
    (he : e.expand = [e]) (hread : ∀ i, read (e.clock i)) :
    ∃ v', Shows config (s.step regExp e) v' ∧
      Tracks config key read (history ++ s.happeningsOf regExp key e)
        (v'.recency.lookup key) := by
  obtain ⟨v', hstep, hshows⟩ := h.step regExp he
  refine ⟨v', hshows, ?_⟩
  have hremoval := removalBy_eq key h hshows
  have hfade : v'.recency.lookup key = v.recency.lookup key ∨ v'.recency.lookup key = none →
      Tracks config key read (history ++ s.removalBy regExp key e) (v'.recency.lookup key) :=
    fun hor => hremoval ▸ htracks.fade hor
  have hsame : Tracks config key read (history ++ []) (v.recency.lookup key) := by
    rwa [List.append_nil]
  cases hstep with
  | get key' clock =>
    simp only [happeningsOf, (h.get clock key').2]
    by_cases hk : key' = key
    · subst hk
      simpa only [true_and] using htracks.get (hread 0)
    · simp only [hk, false_and, ↓reduceIte]
      rw [Recency.lookup_get_ne _ _ _ (Ne.symm hk)]
      exact hsame
  | set key' value options clock =>
    simp only [happeningsOf]
    by_cases hk : key' = key
    · subst hk
      simp only [↓reduceIte, h.suppressed_eq, MemoryView.set]
      split
      · exact hsame
      · rw [MemoryView.store, Recency.lookup_store_self]
        exact Tracks.stored (clock 1) value options
    · simp only [hk, ↓reduceIte]
      refine hfade ?_
      unfold MemoryView.set
      split
      · exact Or.inl rfl
      · exact Recency.lookup_store_or _ _ _ _ (Ne.symm hk)
  | delete key' clock => exact hfade (Recency.lookup_erase_or _ _ _)
  | deleteByTags tags clock => exact hfade (MemoryView.lookup_deleteByTags_or tags v key)
  | deleteByPattern pattern clock =>
    refine hfade ?_
    unfold MemoryView.deleteByPattern
    cases regExp (globSource pattern) with
    | none => exact Or.inl rfl
    | some test => exact Recency.lookup_retain_or _ _ _
  | exists_ key' clock =>
    simp only [happeningsOf, List.append_nil, Recency.dropIf_eq_retain, Recency.lookup_retain]
    refine htracks.filter fun entry hdrop => ⟨clock 0, hread 0, ?_⟩
    simp only [Bool.not_eq_false', Bool.and_eq_true] at hdrop
    exact hdrop.2
  | getStats memoryUsageMb clock => exact hsame
  | flush clock => exact hfade (Or.inr rfl)
  | keys pattern clock => exact hsame
  | sweep clock readings hreadings =>
    simp only [happeningsOf, List.append_nil, MemoryView.retain, Recency.lookup_retain]
    obtain ⟨i, hi⟩ := hreadings key
    refine htracks.filter fun entry hdrop => ⟨clock i, hread i, ?_⟩
    rw [← hi]
    simpa using hdrop

theorem tracks_run (regExp : RegExp) {s : MemoryCacheRepository V} {v : MemoryView V}
    (h : Shows config s v)
    {read : Time → Prop} {history : List (Happening V)}
    (htracks : Tracks config key read history (v.recency.lookup key)) {events : List (Event V)}
    (hsingle : ∀ e ∈ events, e.expand = [e]) (hread : ∀ e ∈ events, ∀ i, read (e.clock i)) :
    ∃ v', Shows config (Runs.run (step regExp) s events) v' ∧
      Tracks config key read (history ++ historyOf regExp key s events)
        (v'.recency.lookup key) := by
  induction events generalizing s v history with
  | nil => exact ⟨v, h, by simpa [historyOf] using htracks⟩
  | cons e rest ih =>
    obtain ⟨v', hv', htracks'⟩ := h.tracks regExp htracks
      (hsingle e List.mem_cons_self) (hread e List.mem_cons_self)
    obtain ⟨v'', hv'', htracks''⟩ := ih hv' htracks'
      (fun e' he' => hsingle e' (List.mem_cons_of_mem e he'))
      (fun e' he' => hread e' (List.mem_cons_of_mem e he'))
    exact ⟨v'', hv'', by rwa [List.append_assoc] at htracks''⟩

theorem exists_of_stored_mem {s : MemoryCacheRepository V} {events : List (Event V)}
    {start : Time} {value : V} {options : SetOptions}
    (h : Happening.stored start value options ∈ historyOf regExp key s events) :
    ∃ e ∈ events, e.op = .set key value options := by
  induction events generalizing s with
  | nil => simp [historyOf] at h
  | cons e rest ih =>
    rcases List.mem_append.mp h with hfirst | hrest
    · refine ⟨e, List.mem_cons_self, ?_⟩
      obtain ⟨op, clock⟩ := e
      unfold happeningsOf removalBy at hfirst
      cases op with
      | set key' value' options' =>
        by_cases hk : key' = key
        · subst hk
          by_cases hsuppressed : s.suppressed clock key' options' = true <;>
            simp [hsuppressed] at hfirst
          simp [hfirst.2.1, hfirst.2.2]
        · simp [hk] at hfirst
      | _ => simp at hfirst
    · obtain ⟨e', he', hop⟩ := ih hrest
      exact ⟨e', List.mem_cons_of_mem e he', hop⟩

/-- After any run, a `get` returns an entry exactly when the latest effective set of the
key was not removed since and has not passed its deadline; the entry is the set's, with
the hits counted. -/
theorem get_of_history (regExp : RegExp) (config : Config) (events : List (Event V))
    (key : String) (now : Time)
    (httl : ∀ e ∈ events.flatMap Event.expand, ∀ value options,
      e.op = .set key value options →
        ∃ n : ℕ, 0 < n ∧ options.ttlOr (.ofNat config.cacheDefaultTtl) = .ofNat n)
    (hnow : ∀ e ∈ events, ∀ i, e.clock i ≤ now) :
    let found := ((reach regExp config events).get (fun _ => now) key).2
    let history := historyOf regExp key (new config) (events.flatMap Event.expand)
    (found.isSome ↔ ∃ start value options hits, ∃ n : ℕ,
      LatestSet history start value options hits ∧
      options.ttlOr (.ofNat config.cacheDefaultTtl) = .ofNat n ∧
      now.val ≤ start.val + n * 1000) ∧
    ∀ entry start value options hits, found = some entry →
      LatestSet history start value options hits →
      entry.value = value ∧ entry.tags = options.tagList ∧
        entry.metadata = options.metadataList ∧ entry.hitCount = 1 + hits := by
  intro found history
  have hsingle : ∀ e ∈ events.flatMap Event.expand, e.expand = [e] :=
    fun e he => Event.expand_of_mem_flatMap he
  have hread : ∀ e ∈ events.flatMap Event.expand, ∀ i, e.clock i ≤ now := by
    intro e he i
    obtain ⟨e', he', hmem⟩ := List.mem_flatMap.mp he
    obtain ⟨j, hj⟩ := Event.clock_of_mem hmem i
    exact hj ▸ hnow e' he' j
  have hstart : Tracks config key (fun t => t ≤ now) ([] : List (Happening V))
      ((MemoryView.empty : MemoryView V).recency.lookup key) := Tracks.nil
  obtain ⟨v, hv, htracks⟩ := tracks_run regExp (Shows.new config) hstart hsingle hread
  rw [List.nil_append] at htracks
  have hreach : reach regExp config events =
      Runs.run (step regExp) (new config) (events.flatMap Event.expand) :=
    reach_expand regExp config events
  rw [← hreach] at hv
  have hfound : found = (v.recency.get now key).2 := (hv.get (fun _ => now) key).2
  have hseconds : ∀ {start value options hits}, LatestSet history start value options hits →
      ∃ n : ℕ, options.ttlOr (.ofNat config.cacheDefaultTtl) = .ofNat n := by
    intro start value options hits hlatest
    obtain ⟨e, he, hop⟩ := exists_of_stored_mem hlatest.mem
    obtain ⟨n, -, hn⟩ := httl e he value options hop
    exact ⟨n, hn⟩
  refine ⟨?_, fun entry start value options hits hentry hlatest => ?_⟩
  · rw [hfound, htracks.isSome_get_iff]
    constructor
    · intro hstored
      obtain ⟨start, value, options, hits, hlatest, hfresh⟩ := hstored
      obtain ⟨n, hn⟩ := hseconds hlatest
      refine ⟨start, value, options, hits, n, hlatest, hn, ?_⟩
      rw [← not_lt, ← isExpired_recorded config key start now value options hits hn, hfresh]
      exact Bool.false_ne_true
    · intro hintime
      obtain ⟨start, value, options, hits, n, hlatest, hn, hintime⟩ := hintime
      refine ⟨start, value, options, hits, hlatest, ?_⟩
      rw [← Bool.not_eq_true, isExpired_recorded config key start now value options hits hn]
      exact not_lt.mpr hintime
  · rw [hfound] at hentry
    obtain rfl := htracks.eq_of_get hentry hlatest
    exact ⟨rfl, rfl, rfl, Nat.add_comm hits 1⟩

/-- On its last millisecond, with one hit counted. -/
theorem get_of_history_at_deadline :
    ((reach (fun _ => none) ⟨1, 60, by decide, by decide⟩
      [⟨.set "a" 7 (.ofTtl 5), fun _ => ⟨1000, by decide⟩⟩,
        ⟨.get "a", fun _ => ⟨2000, by decide⟩⟩] : MemoryCacheRepository ℕ).get
        (fun _ => ⟨6000, by decide⟩) "a").2.isSome := by
  have hall := get_of_history (fun _ => none) ⟨1, 60, by decide, by decide⟩
    [⟨.set "a" 7 (.ofTtl 5), fun _ => ⟨1000, by decide⟩⟩,
      ⟨.get "a", fun _ => ⟨2000, by decide⟩⟩] "a" ⟨6000, by decide⟩
    (by
      intro e he value options hop
      simp only [List.flatMap_cons, List.flatMap_nil, Event.expand, List.mem_append,
        List.mem_singleton, List.not_mem_nil, or_false] at he
      rcases he with rfl | rfl
      · simp only [Op.set.injEq] at hop
        exact ⟨5, by decide, by rw [← hop.2.2]; rfl⟩
      · simp at hop)
    (by
      intro e he i
      simp only [List.mem_cons, List.not_mem_nil, or_false] at he
      rcases he with rfl | rfl <;> exact Subtype.mk_le_mk.mpr (by decide))
  exact hall.1.mpr ⟨⟨1000, by decide⟩, 7, .ofTtl 5, 1, 5, ⟨[], by decide +kernel⟩, rfl, by decide⟩

end MemoryCacheRepository

end EdgeCache
