import EdgeCache.MemoryRefinement

/-!
The LRU order. A run of the memory tier logs its touches: a `get` that returns an entry
and a `set` that stores one. The list from head to tail is the stored keys by their last
place in this log, latest first, and an eviction takes the last of them, when a new key
finds the cache full and never otherwise.
-/
namespace EdgeCache

open LinkedList (Visits)

variable {V : Type}

/-! ### Logs of touches -/

/-- The place of the last touch of a key, counted from one; zero when there is none. -/
def lastTouch (log : List String) (key : String) : ℕ := log.length - log.reverse.idxOf key

theorem lastTouch_le (log : List String) (key : String) : lastTouch log key ≤ log.length :=
  Nat.sub_le _ _

theorem lastTouch_concat_self (log : List String) (key : String) :
    lastTouch (log ++ [key]) key = log.length + 1 := by
  simp [lastTouch]

theorem lastTouch_concat_ne (log : List String) {key key' : String} (h : key' ≠ key) :
    lastTouch (log ++ [key]) key' = lastTouch log key' := by
  simp [lastTouch, List.idxOf_cons_ne _ h.symm]

/-- The keys are in the order of their last touches, latest first. -/
structure ByLastTouch (log keys : List String) : Prop where
  pairwise : keys.Pairwise fun key key' => lastTouch log key' < lastTouch log key
  touched : ∀ key ∈ keys, key ∈ log

namespace ByLastTouch

variable {log keys kept : List String}

theorem sublist (h : ByLastTouch log keys) (hkept : kept.Sublist keys) :
    ByLastTouch log kept :=
  ⟨h.pairwise.sublist hkept, fun key hkey => h.touched key (hkept.subset hkey)⟩

theorem touch (h : ByLastTouch log kept) {key : String} (hkey : key ∉ kept) :
    ByLastTouch (log ++ [key]) (key :: kept) := by
  have hne : ∀ key' ∈ kept, key' ≠ key := by
    intro key' hkey' heq
    subst heq
    exact hkey hkey'
  constructor
  · refine List.pairwise_cons.mpr ⟨fun key' hkey' => ?_, ?_⟩
    · rw [lastTouch_concat_self, lastTouch_concat_ne log (hne key' hkey')]
      exact Nat.lt_succ_of_le (lastTouch_le log key')
    · refine h.pairwise.imp_of_mem fun {a b} ha hb hlt => ?_
      rwa [lastTouch_concat_ne log (hne a ha), lastTouch_concat_ne log (hne b hb)]
  · intro key' hkey'
    rcases List.mem_cons.mp hkey' with rfl | hkey'
    · simp
    · exact List.mem_append_left _ (h.touched key' hkey')

theorem lt_of_last (h : ByLastTouch log keys) {victim : String}
    (hlast : keys.getLast? = some victim) {key : String} (hkey : key ∈ keys)
    (hne : key ≠ victim) : lastTouch log victim < lastTouch log key := by
  obtain ⟨before, rfl⟩ := List.getLast?_eq_some_iff.mp hlast
  have hbefore : key ∈ before := by simpa [hne] using hkey
  exact (List.pairwise_append.mp h.pairwise).2.2 key hbefore victim (List.mem_singleton_self _)

end ByLastTouch

/-! ### What a step does to the order -/

/-- A step puts the keys it touches in front and keeps the order of the rest. -/
def Reorders (touched before after : List String) : Prop :=
  ∃ kept : List String, kept.Sublist before ∧ after = touched ++ kept ∧
    ∀ key ∈ touched, key ∉ kept

theorem ByLastTouch.reorder {log before after touched : List String}
    (h : ByLastTouch log before) (hstep : Reorders touched before after)
    (hone : touched.length ≤ 1) : ByLastTouch (log ++ touched) after := by
  obtain ⟨kept, hkept, rfl, hfresh⟩ := hstep
  match touched, hone with
  | [], _ => simpa using h.sublist hkept
  | [key], _ => exact (h.sublist hkept).touch (hfresh key (List.mem_singleton_self key))

namespace Recency

variable (a : Recency V)

theorem reorders_of_sublist {a a' : Recency V} (h : a'.keys.Sublist a.keys) :
    Reorders [] a.keys a'.keys :=
  ⟨a'.keys, h, rfl, by simp⟩

theorem reorders_get (now : Time) (key : String) :
    Reorders (if (a.get now key).2.isSome then [key] else []) a.keys (a.get now key).1.keys := by
  refine ⟨a.keys.erase key, List.erase_sublist, ?_, fun key' hkey' => ?_⟩
  · unfold get
    cases hl : a.lookup key with
    | none =>
      have hnotMem : key ∉ a.keys := mt AList.mem_keys.mpr (AList.lookup_eq_none.mp hl)
      simp [List.erase_of_not_mem hnotMem]
    | some entry =>
      by_cases hexp : entry.isExpired now = true
      · simp [hexp, AList.keys_erase]
      · simp [hexp, AList.keys_insert]
  · have heq : key' = key := by
      split at hkey'
      · exact List.mem_singleton.mp hkey'
      · simp at hkey'
    rw [heq]
    exact a.keys_nodup.not_mem_erase

theorem keys_erase_sublist (key : String) : (a.erase key).keys.Sublist a.keys := by
  rw [AList.keys_erase]
  exact List.erase_sublist

theorem keys_evict_sublist : a.evict.keys.Sublist a.keys := by
  rw [keys_evict]
  exact List.dropLast_sublist _

theorem keys_dropIf_sublist (p : String → CacheEntry V → Bool) (key : String) :
    (a.dropIf p key).keys.Sublist a.keys := by
  unfold dropIf
  split
  · exact List.Sublist.refl _
  · split
    · exact keys_erase_sublist a key
    · exact List.Sublist.refl _

theorem reorders_store (maxEntries : ℕ) (key : String) (entry : CacheEntry V) :
    Reorders [key] a.keys (a.store maxEntries key entry).keys := by
  have hinsert : ∀ a' : Recency V, a'.keys.Sublist a.keys →
      Reorders [key] a.keys (a'.insert key entry).keys := by
    intro a' hsub
    refine ⟨a'.keys.erase key, List.erase_sublist.trans hsub, AList.keys_insert a', ?_⟩
    intro key' hkey'
    rw [List.mem_singleton.mp hkey']
    exact a'.keys_nodup.not_mem_erase
  unfold store
  split
  · exact hinsert a (List.Sublist.refl _)
  · refine hinsert _ ?_
    split
    · exact keys_evict_sublist a
    · exact List.Sublist.refl _

end Recency

theorem MemoryView.keys_deleteByTags_sublist (tags : List String) (v : MemoryView V) :
    (v.deleteByTags tags).recency.keys.Sublist v.recency.keys := by
  unfold deleteByTags
  induction tags generalizing v with
  | nil => exact List.Sublist.refl _
  | cons tag rest ih =>
    refine (ih (v.deleteByTag tag)).trans ?_
    unfold deleteByTag
    split
    · exact List.Sublist.refl _
    · exact Recency.keys_retain_sublist _ _

namespace MemoryCacheRepository

/-- The keys from the head of the list to its tail. -/
def Spells (s : MemoryCacheRepository V) (keys : List String) : Prop :=
  ∃ l, Visits s.nextOf s.head l ∧ l.map (fun r => s.nodes[r]?.map (·.key)) = keys.map some

def touchedBy (s : MemoryCacheRepository V) (e : Event V) : List String :=
  match e.op with
  | .get key => if (s.get e.clock key).2.isSome then [key] else []
  | .set key _ options => if s.suppressed e.clock key options then [] else [key]
  | _ => []

/-- The touches of a run, in order. -/
def touchLog (regExp : RegExp) : MemoryCacheRepository V → List (Event V) → List String
  | _, [] => []
  | s, e :: rest => s.touchedBy e ++ touchLog regExp (s.step regExp e) rest

/-- The call stores a key the map lacks while the map is full. -/
def Overflows (s : MemoryCacheRepository V) (e : Event V) : Prop :=
  ∃ key value options, e.op = .set key value options ∧
    s.suppressed e.clock key options = false ∧ key ∉ s.map.keys ∧ s.map.size = s.maxEntries

theorem length_touchedBy_le (s : MemoryCacheRepository V) (e : Event V) :
    (s.touchedBy e).length ≤ 1 := by
  unfold touchedBy
  split
  · split <;> simp
  · split <;> simp
  · exact Nat.zero_le 1

variable {config : Config} {regExp : RegExp}

theorem Shows.spells {s : MemoryCacheRepository V} {v : MemoryView V} (h : Shows config s v) :
    Spells s v.recency.keys := by
  obtain ⟨l, hl⟩ := h.list
  refine ⟨l, hl.spelled.visits_next, ?_⟩
  rw [← hl.keys_eq]
  exact List.map_congr_left fun r _ => by simp [item, Function.comp_def]

/-- One call in terms of the order of the keys. -/
theorem Shows.reorders {s : MemoryCacheRepository V} {v : MemoryView V} (h : Shows config s v)
    {e : Event V} (he : e.expand = [e]) :
    ∃ v', Shows config (s.step regExp e) v' ∧
      Reorders (s.touchedBy e) v.recency.keys v'.recency.keys := by
  obtain ⟨v', hstep, hshows⟩ := h.step regExp he
  refine ⟨v', hshows, ?_⟩
  have hsame : Reorders [] v.recency.keys v.recency.keys :=
    Recency.reorders_of_sublist (List.Sublist.refl _)
  cases hstep with
  | get key clock =>
    simp only [touchedBy, (h.get clock key).2]
    exact Recency.reorders_get v.recency (clock 0) key
  | set key value options clock =>
    simp only [touchedBy, h.suppressed_eq, MemoryView.set]
    split
    · exact hsame
    · exact Recency.reorders_store v.recency _ key _
  | delete key clock => exact Recency.reorders_of_sublist (Recency.keys_erase_sublist _ key)
  | deleteByTags tags clock =>
    exact Recency.reorders_of_sublist (MemoryView.keys_deleteByTags_sublist tags v)
  | deleteByPattern pattern clock =>
    refine Recency.reorders_of_sublist ?_
    unfold MemoryView.deleteByPattern
    cases regExp (globSource pattern) with
    | none => exact List.Sublist.refl _
    | some test => exact Recency.keys_retain_sublist _ _
  | exists_ key clock => exact Recency.reorders_of_sublist (Recency.keys_dropIf_sublist _ _ key)
  | getStats memoryUsageMb clock => exact hsame
  | flush clock => exact Recency.reorders_of_sublist (List.nil_sublist _)
  | keys pattern clock => exact hsame
  | sweep clock readings hreadings =>
    exact Recency.reorders_of_sublist (Recency.keys_retain_sublist _ _)

/-- The list is in the order of the last touches. -/
def Ordered (config : Config) (log : List String) (s : MemoryCacheRepository V) : Prop :=
  ∃ v, Shows config s v ∧ ByLastTouch log v.recency.keys

theorem Ordered.step {log : List String} {s : MemoryCacheRepository V}
    (h : Ordered config log s) (regExp : RegExp) {e : Event V} (he : e.expand = [e]) :
    Ordered config (log ++ s.touchedBy e) (s.step regExp e) := by
  obtain ⟨v, hv, horder⟩ := h
  obtain ⟨v', hv', hreorders⟩ := hv.reorders he
  exact ⟨v', hv', horder.reorder hreorders (length_touchedBy_le s e)⟩

theorem Ordered.run {log : List String} {s : MemoryCacheRepository V}
    (h : Ordered config log s) (regExp : RegExp) {events : List (Event V)}
    (hsingle : ∀ e ∈ events, e.expand = [e]) :
    Ordered config (log ++ touchLog regExp s events)
      (Runs.run (MemoryCacheRepository.step regExp) s events) := by
  induction events generalizing s log with
  | nil => simpa [touchLog] using h
  | cons e rest ih =>
    have hstep := h.step regExp (hsingle e List.mem_cons_self)
    have hrest := ih hstep fun e' he' => hsingle e' (List.mem_cons_of_mem e he')
    rwa [List.append_assoc] at hrest

/-! ### Evictions -/

theorem evictions_delete (s : MemoryCacheRepository V) (key : String) :
    (s.delete key).1.evictions = s.evictions := by
  unfold delete
  split
  · rfl
  · exact (sameRest_removeNode s _).evictions_eq

theorem evictions_get (clock : Clock) (key : String) (s : MemoryCacheRepository V) :
    (s.get clock key).1.evictions = s.evictions := by
  unfold get
  split
  · rfl
  · split
    · rfl
    · split
      · exact (sameRest_removeNode s _).evictions_eq
      · exact (sameRest_moveToFront s _).evictions_eq

theorem evictions_deleteByTag (state : MemoryCacheRepository V × ℕ) (tag : String) :
    (deleteByTag state tag).1.evictions = state.1.evictions := by
  unfold deleteByTag
  split
  · rfl
  · next keys hget =>
    exact SlotMap.visit_invariant
      (I := fun state' : MemoryCacheRepository V × ℕ => state'.1.evictions = state.1.evictions)
      (fun _ state' e h => (evictions_delete state'.1 e.1).trans h) rfl

theorem evictions_deleteByTags (tags : List String) (s : MemoryCacheRepository V) :
    (s.deleteByTags tags).1.evictions = s.evictions :=
  List.foldlRecOn (motive := fun state : MemoryCacheRepository V × ℕ =>
    state.1.evictions = s.evictions) tags deleteByTag (b := (s, 0)) rfl
    fun state h tag _ => (evictions_deleteByTag state tag).trans h

theorem evictions_deleteByPattern (regExp : RegExp) (pattern : String)
    (s : MemoryCacheRepository V) :
    (s.deleteByPattern regExp pattern).1.evictions = s.evictions := by
  unfold deleteByPattern
  split
  · rfl
  · refine SlotMap.visit_invariant
      (I := fun state : MemoryCacheRepository V × ℕ => state.1.evictions = s.evictions)
      (fun _ state e h => ?_) rfl
    split
    · exact (evictions_delete state.1 e.1).trans h
    · exact h

theorem evictions_exists_ (clock : Clock) (key : String) (s : MemoryCacheRepository V) :
    (s.exists_ clock key).1.evictions = s.evictions := by
  unfold exists_
  split
  · rfl
  · split
    · exact evictions_delete s key
    · rfl

theorem evictions_sweep (clock : Clock) (s : MemoryCacheRepository V) :
    (s.sweep clock).evictions = s.evictions := by
  refine SlotMap.visit_invariant
    (I := fun s' : MemoryCacheRepository V => s'.evictions = s.evictions) (fun _ s' e h => ?_) rfl
  unfold sweepEntry
  split
  · exact h
  · split
    · exact (sameRest_removeNode s' e.2).evictions_eq.trans h
    · exact h

theorem evictions_indexTags (key : String) (tags : List String) (s : MemoryCacheRepository V) :
    (tags.foldl (indexTag key) s).evictions = s.evictions := by
  refine List.foldlRecOn (motive := fun s' : MemoryCacheRepository V => s'.evictions = s.evictions)
    tags (indexTag key) (b := s) rfl fun s' h tag _ => ?_
  rw [← h, indexTag_eq]

theorem evictions_insertNode (key : String) (entry : CacheEntry V)
    (s : MemoryCacheRepository V) : (s.insertNode key entry).evictions = s.evictions :=
  (sameRest_linkFront (s.allocate key entry) s.nodes.length).evictions_eq

namespace Shows

variable {s : MemoryCacheRepository V} {v : MemoryView V}

theorem evictions_evictLRU (h : Shows config s v) {victim : String}
    (hlast : v.recency.keys.getLast? = some victim) :
    s.evictLRU.evictions = s.evictions ++ [victim] := by
  obtain ⟨l, hl⟩ := h.list
  rw [hl.getLast?_keys, Option.bind_eq_some_iff] at hlast
  obtain ⟨node, htail, hnode⟩ := hlast
  obtain ⟨n, hn, rfl⟩ := Option.map_eq_some_iff.mp hnode
  rw [evictLRU, htail]
  simp only [hn]

theorem evictions_step (h : Shows config s v) (regExp : RegExp) {e : Event V}
    (he : e.expand = [e]) (hoverflow : ¬ Overflows s e) :
    (s.step regExp e).evictions = s.evictions := by
  obtain ⟨op, clock⟩ := e
  cases op with
  | get key => exact evictions_get clock key s
  | set key value options =>
    simp only [MemoryCacheRepository.step, MemoryCacheRepository.set]
    split
    · rfl
    · next hsuppressed =>
      rw [countSet, evictions_indexTags, MemoryCacheRepository.store]
      cases hget : s.map.get key with
      | some node => exact (sameRest_moveToFront _ node).evictions_eq
      | none =>
        have hroom : ¬ s.maxEntries ≤ s.map.size := by
          intro hfull
          have hbounded := h.bounded
          rw [← h.size_eq, ← h.maxEntries_eq] at hbounded
          refine hoverflow ⟨key, value, options, rfl, by simpa using hsuppressed, ?_,
            Nat.le_antisymm hbounded hfull⟩
          exact (SlotMap.get_eq_none_iff s.map key).mp hget
        simp only [hroom, ↓reduceIte]
        exact evictions_insertNode key _ s
  | delete key => exact evictions_delete s key
  | deleteByTags tags => exact evictions_deleteByTags tags s
  | deleteByPattern pattern => exact evictions_deleteByPattern regExp pattern s
  | exists_ key => exact evictions_exists_ clock key s
  | mget keys => exact absurd he (Event.expand_mget_ne keys clock)
  | mset entries => exact absurd he (Event.expand_mset_ne entries clock)
  | sweep => exact evictions_sweep clock s
  | _ => rfl

theorem overflow_step (h : Shows config s v) (regExp : RegExp) {e : Event V}
    (hoverflow : Overflows s e) :
    ∃ victim, v.recency.keys.getLast? = some victim ∧
      (s.step regExp e).evictions = s.evictions ++ [victim] ∧
      ∀ key ∈ s.map.keys, key ∉ (s.step regExp e).map.keys ↔ key = victim := by
  obtain ⟨op, clock⟩ := e
  obtain ⟨key, value, options, rfl, hsuppressed, hkey, hfull⟩ := hoverflow
  have hkey' : key ∉ v.recency.keys := fun hmem => hkey ((h.mem_keys_iff key).mpr hmem)
  have hlength : v.recency.keys.length = config.cacheMaxMemoryEntries := by
    rw [← h.size_eq, hfull, h.maxEntries_eq]
  have hpos := config.maxMemoryEntries_pos
  obtain ⟨victim, hlast⟩ : ∃ victim, v.recency.keys.getLast? = some victim := by
    refine Option.ne_none_iff_exists'.mp fun hnone => ?_
    rw [List.getLast?_eq_none_iff.mp hnone] at hlength
    exact hpos.ne hlength
  refine ⟨victim, hlast, ?_, fun key' hkey'' => ?_⟩
  · simp only [MemoryCacheRepository.step, MemoryCacheRepository.set, hsuppressed,
      Bool.false_eq_true, ↓reduceIte]
    rw [countSet, evictions_indexTags, MemoryCacheRepository.store,
      (SlotMap.get_eq_none_iff s.map key).mpr hkey]
    simp only [hfull, le_refl, ↓reduceIte]
    rw [evictions_insertNode]
    exact h.evictions_evictLRU hlast
  · have hset := h.set clock key value options
    rw [h.suppressed_eq] at hsuppressed
    have hmem : key ∉ v.recency := mt AList.mem_keys.mp hkey'
    simp only [MemoryView.set, hsuppressed, Bool.false_eq_true, ↓reduceIte, MemoryView.store,
      Recency.store, if_neg hmem, hlength, le_refl] at hset
    have hne : key' ≠ key := by
      intro heq
      subst heq
      exact hkey hkey''
    rw [h.mem_keys_iff] at hkey''
    rw [MemoryCacheRepository.step, hset.mem_keys_iff, AList.keys_insert, List.mem_cons,
      Recency.keys_evict]
    obtain ⟨before, hbefore⟩ := List.getLast?_eq_some_iff.mp hlast
    have hnodup := v.recency.keys_nodup
    rw [hbefore] at hkey'' hnodup ⊢
    have hvictim : victim ∉ before := fun hmem' =>
      List.disjoint_of_nodup_append hnodup hmem' List.mem_cons_self
    simp only [List.dropLast_concat, hne, false_or, List.mem_erase_of_ne hne]
    constructor
    · intro hout
      simpa [hout] using hkey''
    · intro heq
      subst heq
      exact hvictim

end Shows

/-- In every state a run reaches, the list from head to tail is the stored keys in the
order of their last touches. A call evicts exactly when it overflows, and then it removes
the one key touched earliest. -/
theorem recency_of_reach (regExp : RegExp) (config : Config) (events : List (Event V)) :
    let s := reach regExp config events
    let log := touchLog regExp (new config) (events.flatMap Event.expand)
    (∃ keys, Spells s keys ∧ (∀ key, key ∈ keys ↔ key ∈ s.map.keys) ∧ ByLastTouch log keys) ∧
      (∀ e, e.expand = [e] → ¬ Overflows s e → (s.step regExp e).evictions = s.evictions) ∧
      (∀ e, Overflows s e → ∃ victim ∈ s.map.keys,
        (s.step regExp e).evictions = s.evictions ++ [victim] ∧
        (∀ key ∈ s.map.keys, key ∉ (s.step regExp e).map.keys ↔ key = victim) ∧
        ∀ key ∈ s.map.keys, key ≠ victim → lastTouch log victim < lastTouch log key) := by
  intro s log
  have hsingle : ∀ e ∈ events.flatMap Event.expand, e.expand = [e] :=
    fun e he => Event.expand_of_mem_flatMap he
  have hstart : Ordered config [] (new config : MemoryCacheRepository V) :=
    ⟨_, Shows.new config, List.Pairwise.nil, fun key hkey => absurd hkey List.not_mem_nil⟩
  have hrun := hstart.run regExp hsingle
  rw [List.nil_append] at hrun
  obtain ⟨v, hv, horder⟩ : Ordered config log s := by
    have hs : s = Runs.run (step regExp) (new config) (events.flatMap Event.expand) :=
      reach_expand regExp config events
    rw [hs]
    exact hrun
  refine ⟨⟨v.recency.keys, hv.spells, fun key => (hv.mem_keys_iff key).symm, horder⟩,
    fun e he hoverflow => hv.evictions_step regExp he hoverflow, fun e hoverflow => ?_⟩
  obtain ⟨victim, hlast, hevictions, hremoved⟩ := hv.overflow_step regExp hoverflow
  refine ⟨victim, (hv.mem_keys_iff victim).mpr (List.mem_of_getLast? hlast), hevictions,
    hremoved, fun key hkey hne => ?_⟩
  exact horder.lt_of_last hlast ((hv.mem_keys_iff key).mp hkey) hne

end MemoryCacheRepository

end EdgeCache
