import EdgeCache.MemoryRecency
import EdgeCache.MemoryStats
import EdgeCache.Library.Slack

/-!
More memory never costs a hit. Two memory tiers of different sizes that take the same calls
hold the same entries in the same order, but for some that the smaller one has evicted. The
larger one therefore serves whatever the smaller one serves, with the same hits counted, and
evicts less. Conditional sets are left out: one that the larger tier suppresses, because it
still has the key, is carried out by the smaller one.
-/
namespace EdgeCache

open Slack (Lags)

variable {V : Type}

/-! ### Recency lists of two sizes -/

namespace Recency

theorem entries_evict (a : Recency V) : a.evict.entries = a.entries.dropLast := by
  unfold evict
  rcases List.eq_nil_or_concat' a.entries with hnil | ⟨before, last, hentries⟩
  · have hkeys : a.keys = [] := by
      rw [AList.keys, hnil]
      rfl
    rw [hkeys]
    exact hnil.trans (by rw [hnil, List.dropLast_nil])
  · have hkeys : a.keys = before.keys ++ [last.1] := by
      rw [AList.keys, hentries]
      exact List.map_append
    have hnodup := a.keys_nodup
    rw [hkeys] at hnodup
    have hlast : last.1 ∉ before.keys := fun hmem =>
      List.disjoint_of_nodup_append hnodup hmem List.mem_cons_self
    rw [hkeys, List.getLast?_concat]
    simp only [erase_eq_retain]
    show a.entries.filter _ = _
    rw [hentries, List.filter_append, List.dropLast_concat, List.filter_eq_self.mpr]
    · simp
    · intro e he
      have hne : e.1 ≠ last.1 := fun heq => hlast (heq ▸ List.mem_keys_of_mem he)
      simp [hne]

def room (maxEntries : ℕ) (key : String) (a : Recency V) : Recency V :=
  if key ∈ a then a.erase key else if maxEntries ≤ a.keys.length then a.evict else a

theorem entries_store (maxEntries : ℕ) (key : String) (entry : CacheEntry V) (a : Recency V) :
    (a.store maxEntries key entry).entries = ⟨key, entry⟩ :: (a.room maxEntries key).entries := by
  unfold store room
  split
  · rfl
  · next hnew =>
    split
    · have hnew' : key ∉ a.evict := by
        intro hmem
        have hsub := (keys_evict_sublist a).subset (AList.mem_keys.mp hmem)
        exact hnew (AList.mem_keys.mpr hsub)
      rw [AList.entries_insert_of_notMem hnew']
    · rw [AList.entries_insert_of_notMem hnew]

variable {slack : ℕ} {a b : Recency V}

theorem lookup_of_lags (h : Lags slack a.entries b.entries) {key : String} {entry : CacheEntry V}
    (hentry : a.lookup key = some entry) : b.lookup key = some entry :=
  AList.mem_lookup_iff.mpr (h.sublist.subset (AList.mem_lookup_iff.mp hentry))

theorem mem_of_lags (h : Lags slack a.entries b.entries) {key : String} (hkey : key ∈ a) :
    key ∈ b := by
  obtain ⟨entry, hentry⟩ := Option.isSome_iff_exists.mp (AList.lookup_isSome.mpr hkey)
  exact AList.lookup_isSome.mp (by rw [lookup_of_lags h hentry]; rfl)

theorem lags_retain (h : Lags slack a.entries b.entries) (keep : String → CacheEntry V → Bool) :
    Lags slack (a.retain keep).entries (b.retain keep).entries :=
  h.filter fun e => keep e.1 e.2

theorem lags_erase (h : Lags slack a.entries b.entries) (key : String) :
    Lags slack (a.erase key).entries (b.erase key).entries := by
  rw [erase_eq_retain, erase_eq_retain]
  exact lags_retain h _

theorem lags_room (h : Lags slack a.entries b.entries) (maxEntries : ℕ) (key : String) :
    Lags slack (a.room maxEntries key).entries (b.room (maxEntries + slack) key).entries := by
  have hlength : ∀ c : Recency V, c.keys.length = c.entries.length := fun c => List.length_map _
  have hle := h.length_le
  unfold room
  by_cases hsmall : key ∈ a
  · rw [if_pos hsmall, if_pos (mem_of_lags h hsmall)]
    exact lags_erase h key
  · rw [if_neg hsmall]
    by_cases hlarge : key ∈ b
    · have herased := lags_erase h key
      have hcount := keys_erase_length b key
      rw [erase_of_notMem a hsmall] at herased
      rw [if_pos hlarge] at hcount ⊢
      split
      · rw [entries_evict]
        refine herased.dropLast_left ?_
        rw [hlength, hlength] at hcount
        omega
      · exact herased
    · rw [if_neg hlarge]
      split
      · split
        · rw [entries_evict, entries_evict]
          exact h.dropLast
        · next hfull hroom =>
          rw [entries_evict]
          refine h.dropLast_left ?_
          rw [hlength] at hfull hroom
          omega
      · next hroom =>
        rw [if_neg]
        · exact h
        · rw [hlength] at hroom ⊢
          omega

theorem lags_store (h : Lags slack a.entries b.entries) (maxEntries : ℕ) (key : String)
    (entry : CacheEntry V) :
    Lags slack (a.store maxEntries key entry).entries
      (b.store (maxEntries + slack) key entry).entries := by
  rw [entries_store, entries_store]
  exact (lags_room h maxEntries key).cons _

/-- What the smaller list has fresh is served by both, and what only the larger one has moves to
its front alone. -/
theorem lags_get (h : Lags slack a.entries b.entries) (now : Time) (key : String) :
    Lags slack (a.get now key).1.entries (b.get now key).1.entries := by
  unfold get
  cases hsmall : a.lookup key with
  | some entry =>
    rw [lookup_of_lags h hsmall]
    simp only
    split
    · exact lags_erase h key
    · exact (lags_erase h key).cons _
  | none =>
    have herased := lags_erase h key
    rw [erase_of_notMem a (AList.lookup_eq_none.mp hsmall)] at herased
    cases hlarge : b.lookup key with
    | none => exact h
    | some entry =>
      simp only
      split
      · exact herased
      · refine ⟨herased.sublist.cons _, ?_⟩
        have hcount := keys_erase_length b key
        rw [if_pos (AList.lookup_isSome.mp (by rw [hlarge]; rfl))] at hcount
        have hkeys : ∀ c : Recency V, c.keys.length = c.entries.length :=
          fun c => List.length_map _
        have hle := h.length_le
        rw [hkeys, hkeys] at hcount
        show (b.erase key).entries.length + 1 ≤ _
        omega

/-- A read that the smaller list serves is served alike by the larger one. -/
theorem get_of_lags (h : Lags slack a.entries b.entries) {now : Time} {key : String}
    {entry : CacheEntry V} (hentry : (a.get now key).2 = some entry) :
    (b.get now key).2 = some entry := by
  obtain ⟨stored, hstored, hfresh, rfl⟩ := (get_eq_some_iff key).mp hentry
  exact (get_eq_some_iff key).mpr ⟨stored, lookup_of_lags h hstored, hfresh, rfl⟩

end Recency

/-! ### Views of two sizes -/

/-- The same index, and a recency list that lags. -/
structure MemoryView.Includes (slack : ℕ) (v w : MemoryView V) : Prop where
  index_eq : v.index = w.index
  recency : Lags slack v.recency.entries w.recency.entries

namespace MemoryView.Includes

variable {slack : ℕ} {v w : MemoryView V} (h : MemoryView.Includes slack v w)
include h

theorem retain (keep : String → CacheEntry V → Bool) :
    Includes slack (v.retain keep) (w.retain keep) :=
  ⟨h.index_eq, Recency.lags_retain h.recency keep⟩

theorem deleteByTag (tag : String) : Includes slack (v.deleteByTag tag) (w.deleteByTag tag) := by
  unfold MemoryView.deleteByTag
  rw [h.index_eq]
  split
  · exact h
  · exact ⟨rfl, Recency.lags_retain h.recency _⟩

theorem deleteByTags (tags : List String) :
    Includes slack (v.deleteByTags tags) (w.deleteByTags tags) := by
  unfold MemoryView.deleteByTags
  induction tags generalizing v w with
  | nil => exact h
  | cons tag rest ih => exact ih (h.deleteByTag tag)

end MemoryView.Includes

/-- No set of the call is conditional, and a sweep reads the clock of one moment. -/
def Event.Plain (e : Event V) : Prop :=
  match e.op with
  | .set _ _ options => options.ifNotExists = false
  | .mset entries => ∀ p ∈ entries, p.2.2.ifNotExists = false
  | .sweep => ∀ i, e.clock i = e.clock 0
  | _ => True

theorem Event.plain_of_mem {e e' : Event V} (h : e.Plain) (he' : e' ∈ e.expand) : e'.Plain := by
  obtain ⟨op, clock⟩ := e
  cases op with
  | mget keys =>
    obtain ⟨p, -, rfl⟩ := List.mem_map.mp he'
    trivial
  | mset entries =>
    obtain ⟨⟨entry, i⟩, hmem, rfl⟩ := List.mem_map.mp he'
    exact h entry (List.fst_mem_of_mem_zipIdx hmem)
  | _ =>
    rw [List.mem_singleton.mp he']
    exact h

/-- A call keeps one tier in the other. -/
theorem MemoryView.Includes.step {slack : ℕ} {config config' : Config} {regExp : RegExp}
    {v w v' w' : MemoryView V} (h : Includes slack v w)
    (hsize : config'.cacheMaxMemoryEntries = config.cacheMaxMemoryEntries + slack)
    (httl : config'.cacheDefaultTtl = config.cacheDefaultTtl) {e : Event V} (hplain : e.Plain)
    (hv : Step config regExp v e v') (hw : Step config' regExp w e w') : Includes slack v' w' := by
  cases hv with
  | get key clock =>
    cases hw
    exact ⟨h.index_eq, Recency.lags_get h.recency _ key⟩
  | set key value options clock =>
    cases hw
    have hfree : options.ifNotExists = false := hplain
    simp only [MemoryView.set, suppressed, hfree, Bool.false_and, Bool.false_eq_true, ↓reduceIte,
      store, newEntry, hsize, httl, h.index_eq]
    exact ⟨rfl, Recency.lags_store h.recency _ key _⟩
  | delete key clock =>
    cases hw
    exact ⟨h.index_eq, Recency.lags_erase h.recency key⟩
  | deleteByTags tags clock =>
    cases hw
    exact h.deleteByTags tags
  | deleteByPattern pattern clock =>
    cases hw
    unfold MemoryView.deleteByPattern
    cases regExp (globSource pattern) with
    | none => exact h
    | some test => exact h.retain _
  | exists_ key clock =>
    cases hw
    simp only [Recency.dropIf_eq_retain]
    exact ⟨h.index_eq, Recency.lags_retain h.recency _⟩
  | getStats memoryUsageMb clock =>
    cases hw
    exact h
  | flush clock =>
    cases hw
    exact ⟨rfl, Lags.nil slack⟩
  | keys pattern clock =>
    cases hw
    exact h
  | sweep clock readings hreadings =>
    cases hw with
    | sweep _ readings' hreadings' =>
      have hone : ∀ i, clock i = clock 0 := hplain
      have hsame : readings' = readings := by
        funext key
        obtain ⟨i, hi⟩ := hreadings key
        obtain ⟨j, hj⟩ := hreadings' key
        rw [hi, hj, hone i, hone j]
      rw [hsame]
      exact h.retain _

/-! ### Two tiers side by side -/

namespace MemoryCacheRepository

variable {slack : ℕ} {config config' : Config} {regExp : RegExp} {s s' : MemoryCacheRepository V}

/-- The second tier holds what the first one holds, and has served more and evicted less. -/
structure Dominated (config config' : Config) (slack : ℕ) (s s' : MemoryCacheRepository V) :
    Prop where
  views : ∃ v w, Shows config s v ∧ Shows config' s' w ∧ v.Includes slack w
  hits_le : s.stats.hits ≤ s'.stats.hits
  misses_le : s'.stats.misses ≤ s.stats.misses
  evictions_le : s'.evictions.length ≤ s.evictions.length

/-- What the smaller tier serves, the larger one serves. -/
theorem Dominated.get_eq (h : Dominated config config' slack s s') {clock : Clock} {key : String}
    {entry : CacheEntry V} (hentry : (s.get clock key).2 = some entry) :
    (s'.get clock key).2 = some entry := by
  obtain ⟨v, w, hv, hw, hincludes⟩ := h.views
  rw [(hv.get clock key).2] at hentry
  rw [(hw.get clock key).2]
  exact Recency.get_of_lags hincludes.recency hentry

theorem Dominated.hitsOf_le (h : Dominated config config' slack s s') {e : Event V}
    (he : e.expand = [e]) :
    s.hitsOf e ≤ s'.hitsOf e ∧ s'.missesOf e ≤ s.missesOf e := by
  obtain ⟨op, clock⟩ := e
  cases op with
  | get key =>
    simp only [hitsOf, missesOf]
    cases hfound : (s.get clock key).2 with
    | none => cases (s'.get clock key).2 <;> simp
    | some entry => simp [h.get_eq hfound]
  | mget keys => exact absurd he (Event.expand_mget_ne keys clock)
  | _ => exact ⟨le_rfl, le_rfl⟩

theorem Dominated.overflows (h : Dominated config config' slack s s')
    (hsize : config'.cacheMaxMemoryEntries = config.cacheMaxMemoryEntries + slack) {e : Event V}
    (hplain : e.Plain) (hoverflow : Overflows s' e) : Overflows s e := by
  obtain ⟨v, w, hv, hw, hincludes⟩ := h.views
  obtain ⟨op, clock⟩ := e
  obtain ⟨key, value, options, rfl, -, hnew, hfull⟩ := hoverflow
  have hfree : options.ifNotExists = false := hplain
  have hle := hincludes.recency.length_le
  have hkeys : ∀ a : Recency V, a.keys.length = a.entries.length := fun a => List.length_map _
  have hbounded := hv.bounded
  rw [hw.size_eq, hw.maxEntries_eq, hkeys] at hfull
  rw [hkeys] at hbounded
  refine ⟨key, value, options, rfl, ?_, fun hmem => hnew ?_, ?_⟩
  · simp only [suppressed, hfree, Bool.false_and]
  · rw [hv.mem_keys_iff, ← AList.mem_keys] at hmem
    rw [hw.mem_keys_iff, ← AList.mem_keys]
    exact Recency.mem_of_lags hincludes.recency hmem
  · rw [hv.size_eq, hv.maxEntries_eq, hkeys]
    omega

/-- The eviction log grows by at most one key, and by one when the call overflows. -/
theorem length_evictions_step {v : MemoryView V} (hv : Shows config s v) (regExp : RegExp)
    {e : Event V} (he : e.expand = [e]) :
    (¬ Overflows s e → (s.step regExp e).evictions.length = s.evictions.length) ∧
      (Overflows s e → (s.step regExp e).evictions.length = s.evictions.length + 1) := by
  refine ⟨fun hstays => by rw [hv.evictions_step regExp he hstays], fun hoverflow => ?_⟩
  obtain ⟨victim, -, hevictions, -⟩ := hv.overflow_step regExp hoverflow
  rw [hevictions, List.length_append, List.length_singleton]

theorem Dominated.step (h : Dominated config config' slack s s') (regExp : RegExp)
    (hsize : config'.cacheMaxMemoryEntries = config.cacheMaxMemoryEntries + slack)
    (httl : config'.cacheDefaultTtl = config.cacheDefaultTtl) {e : Event V} (he : e.expand = [e])
    (hplain : e.Plain) :
    Dominated config config' slack (s.step regExp e) (s'.step regExp e) := by
  obtain ⟨v, w, hv, hw, hincludes⟩ := h.views
  obtain ⟨v', hv', hshows⟩ := hv.step regExp he
  obtain ⟨w', hw', hshows'⟩ := hw.step regExp he
  obtain ⟨hhits, hmisses⟩ := h.hitsOf_le he
  obtain ⟨hstays, hevicts⟩ := length_evictions_step hv regExp he
  obtain ⟨hstays', hevicts'⟩ := length_evictions_step hw regExp he
  have hhits' := h.hits_le
  have hmisses' := h.misses_le
  have hevictions := h.evictions_le
  refine ⟨⟨v', w', hshows, hshows', hincludes.step hsize httl hplain hv' hw'⟩, ?_, ?_, ?_⟩
  · rw [stats_step hv regExp e, stats_step hw regExp e]
    show s.stats.hits + s.hitsOf e ≤ s'.stats.hits + s'.hitsOf e
    omega
  · rw [stats_step hv regExp e, stats_step hw regExp e]
    show s'.stats.misses + s'.missesOf e ≤ s.stats.misses + s.missesOf e
    omega
  · by_cases hlarge : Overflows s' e
    · rw [hevicts' hlarge, hevicts (h.overflows hsize hplain hlarge)]
      omega
    · rw [hstays' hlarge]
      by_cases hsmall : Overflows s e
      · rw [hevicts hsmall]
        omega
      · rw [hstays hsmall]
        exact hevictions

theorem Dominated.run (h : Dominated config config' slack s s') (regExp : RegExp)
    (hsize : config'.cacheMaxMemoryEntries = config.cacheMaxMemoryEntries + slack)
    (httl : config'.cacheDefaultTtl = config.cacheDefaultTtl) {events : List (Event V)}
    (hsingle : ∀ e ∈ events, e.expand = [e]) (hplain : ∀ e ∈ events, e.Plain) :
    Dominated config config' slack (Runs.run (MemoryCacheRepository.step regExp) s events)
      (Runs.run (MemoryCacheRepository.step regExp) s' events) := by
  induction events generalizing s s' with
  | nil => exact h
  | cons e rest ih =>
    have hstep := h.step regExp hsize httl (hsingle e List.mem_cons_self)
      (hplain e List.mem_cons_self)
    exact ih hstep (fun e' he' => hsingle e' (List.mem_cons_of_mem e he'))
      fun e' he' => hplain e' (List.mem_cons_of_mem e he')

theorem dominated_new (config config' : Config) (slack : ℕ) :
    Dominated config config' slack (new config : MemoryCacheRepository V) (new config') :=
  ⟨⟨_, _, Shows.new config, Shows.new config', rfl, Lags.nil _⟩, le_rfl, le_rfl, le_rfl⟩

/-- The memory tier has no Belady anomaly: over the same calls, none of whose sets is
conditional, a larger tier serves every read that a smaller one serves, with the same entry, has
counted at least its hits and at most its misses, and has evicted no more keys. -/
theorem get_of_larger (regExp : RegExp) {config config' : Config}
    (hle : config.cacheMaxMemoryEntries ≤ config'.cacheMaxMemoryEntries)
    (httl : config'.cacheDefaultTtl = config.cacheDefaultTtl) {events : List (Event V)}
    (hplain : ∀ e ∈ events, e.Plain) :
    let small := reach regExp config events
    let large := reach regExp config' events
    (∀ clock key entry, (small.get clock key).2 = some entry →
      (large.get clock key).2 = some entry) ∧
      small.stats.hits ≤ large.stats.hits ∧ large.stats.misses ≤ small.stats.misses ∧
      large.evictions.length ≤ small.evictions.length := by
  intro small large
  have hsize : config'.cacheMaxMemoryEntries = config.cacheMaxMemoryEntries +
      (config'.cacheMaxMemoryEntries - config.cacheMaxMemoryEntries) := by
    omega
  have hplain' : ∀ e ∈ events.flatMap Event.expand, e.Plain := by
    intro e he
    obtain ⟨e', he', hmem⟩ := List.mem_flatMap.mp he
    exact Event.plain_of_mem (hplain e' he') hmem
  have hsingle : ∀ e ∈ events.flatMap Event.expand, e.expand = [e] :=
    fun e he => Event.expand_of_mem_flatMap he
  have hrun := (dominated_new config config' _).run regExp hsize httl hsingle hplain'
  rw [← reach, ← reach, ← reach_expand, ← reach_expand] at hrun
  exact ⟨fun _ _ _ hentry => hrun.get_eq hentry, hrun.hits_le, hrun.misses_le, hrun.evictions_le⟩

/-- One place and two, when two keys take turns. -/
theorem get_of_larger_two :
    let now : Time := ⟨1000, by decide⟩
    let events : List (Event ℕ) := [⟨.set "a" 1 (.ofTtl 5), fun _ => now⟩,
      ⟨.set "b" 2 (.ofTtl 5), fun _ => now⟩, ⟨.get "a", fun _ => now⟩, ⟨.sweep, fun _ => now⟩]
    ∀ key entry,
      ((reach (fun _ => none) ⟨1, 60, by decide, by decide⟩ events).get (fun _ => now) key).2 =
        some entry →
      ((reach (fun _ => none) ⟨2, 60, by decide, by decide⟩ events).get (fun _ => now) key).2 =
        some entry := by
  intro now events key entry hentry
  have hplain : ∀ e ∈ events, e.Plain := by
    intro e he
    simp only [events, List.mem_cons, List.not_mem_nil, or_false] at he
    rcases he with rfl | rfl | rfl | rfl
    · rfl
    · rfl
    · trivial
    · exact fun _ => rfl
  have hle : (⟨1, 60, by decide, by decide⟩ : Config).cacheMaxMemoryEntries ≤
      (⟨2, 60, by decide, by decide⟩ : Config).cacheMaxMemoryEntries := by
    decide
  exact (get_of_larger (fun _ => none) hle rfl hplain).1 _ key entry hentry

end MemoryCacheRepository

end EdgeCache
