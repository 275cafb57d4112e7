import EdgeCache.MemoryView

/-!
The code of the memory tier implements its views. `Shows config s v` relates a heap
to the view it stands for; there is one theorem for each method, saying what the
method does to the view and what it returns, and `shows_step` puts them together.
Nothing outside this module looks into the heap to learn what a method does.
-/
namespace EdgeCache

open LinkedList (Ref Links IsList)

variable {V : Type}

namespace MemoryCacheRepository

/-- The index holds, for each tag, a set of its own with the keys of the view. -/
structure Indexed (s : MemoryCacheRepository V) (index : String → Option (List String)) :
    Prop where
  keys_eq : ∀ tag, s.taggedKeys tag = index tag
  valid : ∀ tag ref, s.tagIndex.get tag = some ref → ref < s.sets.length
  separate : ∀ tag tag' ref, s.tagIndex.get tag = some ref → s.tagIndex.get tag' = some ref →
    tag = tag'

structure Shows (config : Config) (s : MemoryCacheRepository V) (v : MemoryView V) : Prop where
  list : ∃ l, Holds s v.recency l
  index : Indexed s v.index
  bounded : v.recency.keys.length ≤ config.cacheMaxMemoryEntries
  maxEntries_eq : s.maxEntries = config.cacheMaxMemoryEntries
  defaultTtl_eq : s.defaultTtl = .ofNat config.cacheDefaultTtl

/-- The two states have the same index and the same limits. -/
structure SameIndex (s s' : MemoryCacheRepository V) : Prop where
  tagIndex_eq : s'.tagIndex = s.tagIndex
  sets_eq : s'.sets = s.sets
  maxEntries_eq : s'.maxEntries = s.maxEntries
  defaultTtl_eq : s'.defaultTtl = s.defaultTtl

theorem SameRest.sameIndex {s s' : MemoryCacheRepository V} (h : SameRest s s') :
    SameIndex s s' :=
  ⟨h.tagIndex_eq, h.sets_eq, h.maxEntries_eq, h.defaultTtl_eq⟩

theorem SameIndex.trans {s s' s'' : MemoryCacheRepository V} (h : SameIndex s s')
    (h' : SameIndex s' s'') : SameIndex s s'' where
  tagIndex_eq := h'.tagIndex_eq.trans h.tagIndex_eq
  sets_eq := h'.sets_eq.trans h.sets_eq
  maxEntries_eq := h'.maxEntries_eq.trans h.maxEntries_eq
  defaultTtl_eq := h'.defaultTtl_eq.trans h.defaultTtl_eq

theorem Indexed.frame {s s' : MemoryCacheRepository V} {index : String → Option (List String)}
    (h : Indexed s index) (hsame : SameIndex s s') : Indexed s' index where
  keys_eq tag := by rw [taggedKeys, hsame.tagIndex_eq, hsame.sets_eq]; exact h.keys_eq tag
  valid tag ref := by rw [hsame.tagIndex_eq, hsame.sets_eq]; exact h.valid tag ref
  separate tag tag' ref := by rw [hsame.tagIndex_eq]; exact h.separate tag tag' ref

namespace Shows

variable {config : Config} {s s' : MemoryCacheRepository V} {v : MemoryView V}

/-- The same index over another list that still fits. -/
theorem ofList (h : Shows config s v) {a : Recency V} (hlist : ∃ l, Holds s' a l)
    (hsame : SameIndex s s') (hlength : a.keys.length ≤ config.cacheMaxMemoryEntries) :
    Shows config s' { v with recency := a } where
  list := hlist
  index := h.index.frame hsame
  bounded := hlength
  maxEntries_eq := hsame.maxEntries_eq.trans h.maxEntries_eq
  defaultTtl_eq := hsame.defaultTtl_eq.trans h.defaultTtl_eq

/-- Counters are no part of the view. -/
theorem count (h : Shows config s v) (stats : Stats) : Shows config { s with stats := stats } v := by
  obtain ⟨l, hl⟩ := h.list
  exact h.ofList ⟨l, hl.frame rfl rfl rfl rfl⟩ ⟨rfl, rfl, rfl, rfl⟩ h.bounded

theorem entryAt_eq (h : Shows config s v) (key : String) : s.entryAt key = v.recency.lookup key := by
  obtain ⟨l, hl⟩ := h.list
  exact hl.entryAt_eq key

theorem size_eq (h : Shows config s v) : s.map.size = v.recency.keys.length := by
  obtain ⟨l, hl⟩ := h.list
  exact hl.size_eq

theorem mem_keys_iff (h : Shows config s v) (key : String) :
    key ∈ s.map.keys ↔ key ∈ v.recency.keys := by
  obtain ⟨l, hl⟩ := h.list
  exact hl.mem_keys_iff key

theorem mem_keys_iff_isSome (h : Shows config s v) (key : String) :
    key ∈ s.map.keys ↔ (v.recency.lookup key).isSome = true := by
  rw [h.mem_keys_iff, ← AList.mem_keys, AList.lookup_isSome]

theorem new (config : Config) :
    Shows config (MemoryCacheRepository.new config : MemoryCacheRepository V) .empty where
  list := ⟨[], Holds.empty rfl rfl rfl⟩
  index := {
    keys_eq := fun _ => rfl
    valid := fun _ _ h => by simp [MemoryCacheRepository.new] at h
    separate := fun _ _ _ h => by simp [MemoryCacheRepository.new] at h
  }
  bounded := Nat.zero_le _
  maxEntries_eq := rfl
  defaultTtl_eq := rfl

theorem removed (h : Shows config s v) {key : String} {node : Ref}
    (hkey : s.map.get key = some node) :
    Shows config ((s.removeNode node).removeFromMap key)
      { v with recency := v.recency.erase key } := by
  obtain ⟨l, hl⟩ := h.list
  have hrest := sameRest_removeNode s node
  refine h.ofList ⟨_, hl.remove hkey⟩ (hrest.sameIndex.trans ⟨rfl, rfl, rfl, rfl⟩) ?_
  have hle := Recency.keys_erase_length v.recency key
  have hbounded := h.bounded
  omega

theorem get (h : Shows config s v) (clock : Clock) (key : String) :
    Shows config (s.get clock key).1 { v with recency := (v.recency.get (clock 0) key).1 } ∧
      (s.get clock key).2 = (v.recency.get (clock 0) key).2 := by
  obtain ⟨l, hl⟩ := h.list
  unfold MemoryCacheRepository.get Recency.get
  cases hget : s.map.get key with
  | none =>
    simp only [(hl.get_eq_none_iff key).mp hget, and_true]
    exact h.count _
  | some node =>
    obtain ⟨entry, hitem, hlookup⟩ := hl.item_mem hget
    obtain ⟨n, hn, -, hentry⟩ := item_eq_some s node _ hitem
    simp only at hentry
    subst hentry
    simp only [hn, hlookup]
    by_cases hexp : n.entry.isExpired (clock 0) = true
    · simp only [hexp, ↓reduceIte, and_true]
      exact (h.removed hget).count _
    · simp only [hexp, Bool.false_eq_true, ↓reduceIte, and_true]
      have hrest := sameRest_moveToFront s node
      have hlength := Recency.keys_get_length_le (clock 0) key v.recency
      simp only [Recency.get, hlookup, hexp, Bool.false_eq_true, ↓reduceIte] at hlength
      have hlist := hl.moveToFront_setEntry hget n.entry.registerHit
      exact (h.ofList ⟨_, hlist⟩ (hrest.sameIndex.trans ⟨rfl, rfl, rfl, rfl⟩)
        (hlength.trans h.bounded)).count _

theorem sameIndex_evictLRU (s : MemoryCacheRepository V) : SameIndex s s.evictLRU := by
  unfold evictLRU
  cases s.tail with
  | none => exact ⟨rfl, rfl, rfl, rfl⟩
  | some node =>
    have hrest := (sameRest_removeNode s node).sameIndex
    cases hn : s.nodes[node]? with
    | none => simpa only [hn] using (⟨rfl, rfl, rfl, rfl⟩ : SameIndex s s)
    | some n =>
      simp only [hn]
      exact hrest.trans ⟨rfl, rfl, rfl, rfl⟩

theorem evicted (h : Shows config s v) :
    Shows config s.evictLRU { v with recency := v.recency.evict } := by
  obtain ⟨l, hl⟩ := h.list
  obtain ⟨l', hl'⟩ := hl.evictLRU
  refine h.ofList ⟨l', hl'⟩ (sameIndex_evictLRU s) ?_
  have hbounded := h.bounded
  rw [Recency.keys_evict, List.length_dropLast]
  omega

theorem inserted (h : Shows config s v) {key : String} (hkey : key ∉ v.recency)
    (hroom : v.recency.keys.length < config.cacheMaxMemoryEntries) (entry : CacheEntry V) :
    Shows config (s.insertNode key entry) { v with recency := v.recency.insert key entry } := by
  obtain ⟨l, hl⟩ := h.list
  have hget := (hl.get_eq_none_iff key).mpr (AList.lookup_eq_none.mpr hkey)
  have hfresh : SameIndex s (s.allocate key entry) := ⟨rfl, rfl, rfl, rfl⟩
  have hlink := (sameRest_linkFront (s.allocate key entry) s.nodes.length).sameIndex
  have hsame : SameIndex s (s.insertNode key entry) :=
    (hfresh.trans hlink).trans ⟨rfl, rfl, rfl, rfl⟩
  refine h.ofList ⟨_, hl.insertNode hget entry⟩ hsame ?_
  rw [Recency.keys_insert_length, Recency.erase_of_notMem v.recency hkey]
  exact hroom

theorem store (h : Shows config s v) (key : String) (entry : CacheEntry V) :
    Shows config (s.store key entry)
      { v with recency := v.recency.store config.cacheMaxMemoryEntries key entry } := by
  have hlength := Recency.keys_store_length_le config.cacheMaxMemoryEntries key entry v.recency
    config.maxMemoryEntries_pos h.bounded
  obtain ⟨l, hl⟩ := h.list
  unfold MemoryCacheRepository.store
  cases hget : s.map.get key with
  | some node =>
    have hmem : key ∈ v.recency := by
      obtain ⟨old, -, hlookup⟩ := hl.item_mem hget
      exact AList.lookup_isSome.mp (by simp [hlookup])
    simp only [Recency.store, if_pos hmem] at hlength ⊢
    have hentry : SameRest s (s.setEntry node entry) := rfl
    have hrest := hentry.trans (sameRest_moveToFront (s.setEntry node entry) node)
    exact h.ofList ⟨_, hl.setEntry_moveToFront hget entry⟩ hrest.sameIndex hlength
  | none =>
    have hmem : key ∉ v.recency := AList.lookup_eq_none.mp ((hl.get_eq_none_iff key).mp hget)
    simp only [Recency.store, if_neg hmem, h.size_eq, h.maxEntries_eq]
    by_cases hfull : config.cacheMaxMemoryEntries ≤ v.recency.keys.length
    · simp only [hfull, ↓reduceIte]
      refine h.evicted.inserted ?_ ?_ entry
      · rw [← AList.lookup_eq_none, Recency.lookup_evict, AList.lookup_eq_none.mpr hmem, ite_self]
      · rw [Recency.keys_evict, List.length_dropLast]
        have hcapacity := config.maxMemoryEntries_pos
        have hbounded := h.bounded
        omega
    · simp only [hfull, ↓reduceIte]
      exact h.inserted hmem (Nat.lt_of_not_le hfull) entry

end Shows

/-! ### The index -/

namespace Indexed

variable {s : MemoryCacheRepository V} {index : String → Option (List String)}

theorem get_eq_none_iff (h : Indexed s index) (tag : String) :
    s.tagIndex.get tag = none ↔ index tag = none := by
  rw [← h.keys_eq tag, taggedKeys]
  cases hget : s.tagIndex.get tag with
  | none => simp
  | some ref => simp [List.getElem?_eq_getElem (h.valid tag ref hget)]

theorem set_of_get (h : Indexed s index) {tag : String} {ref : SetRef}
    (hget : s.tagIndex.get tag = some ref) :
    ∃ keys, s.sets[ref]? = some keys ∧ index tag = some keys.keys := by
  have hset := List.getElem?_eq_getElem (h.valid tag ref hget)
  exact ⟨_, hset, by rw [← h.keys_eq tag, taggedKeys, hget, Option.bind_some, hset]; rfl⟩

private theorem addSet (h : Indexed s index) (tag : String) :
    Indexed { s with
      tagIndex := s.tagIndex.set tag s.sets.length, sets := s.sets ++ [SlotMap.empty] }
      (Function.update index tag (some [])) where
  keys_eq tag' := by
    simp only [taggedKeys, SlotMap.get_set]
    by_cases htag : tag' = tag
    · simp [htag]
    · simp only [htag, ↓reduceIte, ne_eq, not_false_eq_true, Function.update_of_ne]
      rw [← h.keys_eq tag', taggedKeys]
      cases hget' : s.tagIndex.get tag' with
      | none => rfl
      | some ref => simp [List.getElem?_append_left (h.valid tag' ref hget')]
  valid tag' ref hget' := by
    rw [List.length_append, List.length_singleton]
    rw [SlotMap.get_set] at hget'
    by_cases htag : tag' = tag
    · simp only [htag, ↓reduceIte, Option.some.injEq] at hget'
      exact hget' ▸ Nat.lt_succ_self _
    · simp only [htag, ↓reduceIte] at hget'
      exact Nat.lt_succ_of_lt (h.valid tag' ref hget')
  separate tag' tag'' ref hget' hget'' := by
    rw [SlotMap.get_set] at hget' hget''
    by_cases htag : tag' = tag <;> by_cases htag' : tag'' = tag
    · rw [htag, htag']
    · simp only [htag, htag', ↓reduceIte, Option.some.injEq] at hget' hget''
      exact absurd (hget' ▸ h.valid tag'' ref hget'') (Nat.lt_irrefl _)
    · simp only [htag, htag', ↓reduceIte, Option.some.injEq] at hget' hget''
      exact absurd (hget'' ▸ h.valid tag' ref hget') (Nat.lt_irrefl _)
    · simp only [htag, htag', ↓reduceIte] at hget' hget''
      exact h.separate tag' tag'' ref hget' hget''

private theorem addKey (h : Indexed s index) {tag : String} {ref : SetRef}
    (hget : s.tagIndex.get tag = some ref) (key : String) :
    Indexed { s with sets := s.sets.modify ref (·.set key ()) }
      (MemoryView.indexTag key index tag) where
  keys_eq tag' := by
    obtain ⟨keys, hset, hkeys⟩ := h.set_of_get hget
    by_cases htag : tag' = tag
    · subst htag
      simp only [taggedKeys, hget, Option.bind_some, List.getElem?_modify_eq, hset,
        MemoryView.indexTag, hkeys, Option.getD_some, Function.update_self]
      by_cases hmem : key ∈ keys.keys
      · rw [if_pos hmem]
        exact congrArg some (SlotMap.keys_set_present keys key () hmem)
      · rw [if_neg hmem]
        exact congrArg some (SlotMap.keys_set_absent keys key () hmem)
    · rw [MemoryView.indexTag, Function.update_of_ne htag, ← h.keys_eq tag', taggedKeys,
        taggedKeys]
      cases hget' : s.tagIndex.get tag' with
      | none => rfl
      | some ref' =>
        have hne : ref ≠ ref' := by
          intro heq
          subst heq
          exact htag (h.separate tag' tag ref hget' hget)
        simp [hne]
  valid tag' ref' hget' := by
    rw [List.length_modify]
    exact h.valid tag' ref' hget'
  separate := h.separate

theorem indexTag (h : Indexed s index) (key tag : String) :
    Indexed (s.indexTag key tag) (MemoryView.indexTag key index tag) := by
  unfold MemoryCacheRepository.indexTag
  cases hget : s.tagIndex.get tag with
  | some ref =>
    simp only [SlotMap.has, hget, Option.isSome_some, ↓reduceIte]
    exact h.addKey hget key
  | none =>
    simp only [SlotMap.has, hget, Option.isSome_none, Bool.false_eq_true, ↓reduceIte,
      SlotMap.get_set]
    have hadd := h.addSet tag
    have hself : (s.tagIndex.set tag s.sets.length).get tag = some s.sets.length := by
      simp [SlotMap.get_set]
    have hnew := hadd.addKey hself key
    have hnone := (h.get_eq_none_iff tag).mp hget
    convert hnew using 1
    simp [MemoryView.indexTag, hnone]

/-- `this.tagIndex.delete(tag)` -/
theorem dropTag (h : Indexed s index) (tag : String) :
    Indexed { s with tagIndex := s.tagIndex.delete tag } (Function.update index tag none) where
  keys_eq tag' := by
    simp only [taggedKeys, SlotMap.get_delete]
    by_cases htag : tag' = tag
    · simp [htag]
    · simp only [htag, ↓reduceIte, ne_eq, not_false_eq_true, Function.update_of_ne]
      exact h.keys_eq tag'
  valid tag' ref hget := by
    rw [SlotMap.get_delete] at hget
    by_cases htag : tag' = tag
    · simp [htag] at hget
    · exact h.valid tag' ref (by simpa [htag] using hget)
  separate tag' tag'' ref hget hget' := by
    rw [SlotMap.get_delete] at hget hget'
    by_cases htag : tag' = tag <;> by_cases htag' : tag'' = tag
    · rw [htag, htag']
    · simp [htag] at hget
    · simp [htag'] at hget'
    · exact h.separate tag' tag'' ref (by simpa [htag] using hget) (by simpa [htag'] using hget')

end Indexed

/-! ### The methods -/

/-- Indexing a key touches the index alone. -/
theorem indexTag_eq (s : MemoryCacheRepository V) (key tag : String) :
    s.indexTag key tag =
      { s with tagIndex := (s.indexTag key tag).tagIndex, sets := (s.indexTag key tag).sets } := by
  unfold indexTag
  by_cases htag : s.tagIndex.has tag = true
  · simp only [htag, ↓reduceIte]
    split <;> rfl
  · simp only [htag, Bool.false_eq_true, ↓reduceIte]
    split <;> rfl

namespace Shows

variable {config : Config} {s s' : MemoryCacheRepository V} {v : MemoryView V}

theorem indexed (h : Shows config s v) (key : String) (tags : List String) :
    Shows config (tags.foldl (MemoryCacheRepository.indexTag key) s)
      { v with index := tags.foldl (MemoryView.indexTag key) v.index } := by
  induction tags generalizing s v with
  | nil => exact h
  | cons tag rest ih =>
    obtain ⟨l, hl⟩ := h.list
    have hsame := indexTag_eq s key tag
    exact ih (v := { v with index := MemoryView.indexTag key v.index tag }) {
      list := by
        rw [hsame]
        exact ⟨l, hl.frame rfl rfl rfl rfl⟩
      index := h.index.indexTag key tag
      bounded := h.bounded
      maxEntries_eq := by
        rw [hsame]
        exact h.maxEntries_eq
      defaultTtl_eq := by
        rw [hsame]
        exact h.defaultTtl_eq
    }

theorem suppressed_eq (h : Shows config s v) (clock : Clock) (key : String)
    (options : SetOptions) :
    s.suppressed clock key options = v.suppressed (clock 0) key options := by
  rw [MemoryCacheRepository.suppressed, MemoryView.suppressed, h.entryAt_eq]

theorem set (h : Shows config s v) (clock : Clock) (key : String) (value : V)
    (options : SetOptions) :
    Shows config (s.set clock key value options) (v.set config clock key value options) := by
  unfold MemoryCacheRepository.set MemoryView.set
  rw [h.suppressed_eq]
  split
  · exact h
  · rw [h.defaultTtl_eq]
    exact ((h.store key _).indexed key options.tagList).count _

theorem delete (h : Shows config s v) (key : String) :
    Shows config (s.delete key).1 { v with recency := v.recency.erase key } ∧
      (s.delete key).2 = decide (key ∈ v.recency) ∧
      SameIndex s (s.delete key).1 := by
  obtain ⟨l, hl⟩ := h.list
  unfold MemoryCacheRepository.delete
  cases hget : s.map.get key with
  | none =>
    have hnone : key ∉ v.recency := AList.lookup_eq_none.mp ((hl.get_eq_none_iff key).mp hget)
    rw [Recency.erase_of_notMem _ hnone]
    exact ⟨h, by simp [hnone], rfl, rfl, rfl, rfl⟩
  | some node =>
    obtain ⟨entry, -, hlookup⟩ := hl.item_mem hget
    have hmem : key ∈ v.recency := AList.lookup_isSome.mp (by simp [hlookup])
    have hrest := (sameRest_removeNode s node).sameIndex
    exact ⟨(h.removed hget).count _, by simp [hmem], hrest.trans ⟨rfl, rfl, rfl, rfl⟩⟩

/-- What a counting deletion keeps: the count and the number of entries left. -/
theorem deleteCounting {state : MemoryCacheRepository V × ℕ} (h : Shows config state.1 v)
    (key : String) :
    Shows config (MemoryCacheRepository.deleteCounting state key).1
        { v with recency := v.recency.erase key } ∧
      (MemoryCacheRepository.deleteCounting state key).2 + (v.recency.erase key).keys.length =
        state.2 + v.recency.keys.length ∧
      SameIndex state.1 (MemoryCacheRepository.deleteCounting state key).1 := by
  obtain ⟨hshows, hdeleted, hsame⟩ := h.delete key
  refine ⟨hshows, ?_, hsame⟩
  have hlength := Recency.keys_erase_length v.recency key
  simp only [MemoryCacheRepository.deleteCounting, hdeleted]
  by_cases hmem : key ∈ v.recency
  · simp only [hmem, ↓reduceIte, decide_true, Bool.toNat_true] at hlength ⊢
    omega
  · simp only [hmem, ↓reduceIte, decide_false, Bool.toNat_false] at hlength ⊢
    omega

end Shows

/-! ### The loops -/

theorem setSlots_eq {s s' : MemoryCacheRepository V} (h : SameIndex s s') (keys : SetRef) :
    setSlots keys s' = setSlots keys s := by
  rw [setSlots, setSlots, h.sets_eq]

theorem sameIndex_delete (s : MemoryCacheRepository V) (key : String) :
    SameIndex s (s.delete key).1 := by
  unfold delete
  split
  · exact ⟨rfl, rfl, rfl, rfl⟩
  · exact (sameRest_removeNode s _).sameIndex.trans ⟨rfl, rfl, rfl, rfl⟩

theorem map_delete (s : MemoryCacheRepository V) (key : String) :
    (s.delete key).1.map = s.map ∨ (s.delete key).1.map = s.map.delete key := by
  unfold delete
  split
  · exact Or.inl rfl
  · refine Or.inr ?_
    rw [← (sameRest_removeNode s _).map_eq]
    rfl

private theorem keys_concat {β : Type} (es : List (Σ _ : String, β)) (e : Σ _ : String, β) :
    (es ++ [e]).keys = es.keys ++ [e.1] := by simp [List.keys]

namespace Shows

variable {config : Config} {s s' : MemoryCacheRepository V} {v : MemoryView V}

theorem deleteByTag {state : MemoryCacheRepository V × ℕ} (h : Shows config state.1 v)
    (tag : String) :
    Shows config (MemoryCacheRepository.deleteByTag state tag).1 (v.deleteByTag tag) ∧
      (MemoryCacheRepository.deleteByTag state tag).2 + (v.deleteByTag tag).recency.keys.length =
        state.2 + v.recency.keys.length := by
  unfold MemoryCacheRepository.deleteByTag MemoryView.deleteByTag
  cases hget : state.1.tagIndex.get tag with
  | none =>
    rw [(h.index.get_eq_none_iff tag).mp hget]
    exact ⟨h, rfl⟩
  | some ref =>
    obtain ⟨keys, hset, hkeys⟩ := h.index.set_of_get hget
    have hslots : setSlots ref state.1 = keys.slots := by simp [setSlots, hset]
    simp only [hkeys]
    have hloop := SlotMap.visit_rule (fun state => setSlots ref state.1)
      (fun _ state e => MemoryCacheRepository.deleteCounting state e.1)
      (fun state _ e _ j _ =>
        congrArg (fun slots => slots[j]?) (setSlots_eq (sameIndex_delete state.1 e.1) ref))
      state
      (P := fun visited state' =>
        Shows config state'.1
          { v with recency := v.recency.dropAmong (fun _ _ => true) visited.keys } ∧
        state'.2 + (v.recency.dropAmong (fun _ _ => true) visited.keys).keys.length =
          state.2 + v.recency.keys.length ∧
        SameIndex state.1 state'.1)
      ?_ ?_
    · rw [hslots] at hloop
      obtain ⟨hshows, hcount, hsame⟩ := hloop
      have hretain : v.recency.dropAmong (fun _ _ => true) keys.slots.reduceOption.keys =
          v.recency.retain fun key _ => key ∉ keys.keys := by
        unfold Recency.dropAmong
        congr 1
        funext key entry
        by_cases hmem : key ∈ keys.slots.reduceOption.keys <;>
          simp [SlotMap.keys, SlotMap.entries, hmem]
      rw [hretain] at hshows hcount
      refine ⟨?_, hcount⟩
      obtain ⟨l, hl⟩ := hshows.list
      exact {
        list := ⟨l, hl.frame rfl rfl rfl rfl⟩
        index := hshows.index.dropTag tag
        bounded := hshows.bounded
        maxEntries_eq := hshows.maxEntries_eq
        defaultTtl_eq := hshows.defaultTtl_eq
      }
    · rw [List.keys_nil, Recency.dropAmong_nil]
      exact ⟨h, rfl, rfl, rfl, rfl, rfl⟩
    · rintro i state' e ⟨hshows, hcount, hsame⟩ - -
      rw [keys_concat, ← Recency.dropAmong_concat, Recency.dropIf_of_key]
      obtain ⟨hshows', hcount', hsame'⟩ := hshows.deleteCounting e.1
      exact ⟨hshows', hcount'.trans hcount, hsame.trans hsame'⟩

theorem deleteByTags (h : Shows config s v) (tags : List String) :
    Shows config (s.deleteByTags tags).1 (v.deleteByTags tags) ∧
      (s.deleteByTags tags).2 + (v.deleteByTags tags).recency.keys.length =
        v.recency.keys.length := by
  have hfold : ∀ (tags : List String) (v : MemoryView V) (state : MemoryCacheRepository V × ℕ),
      Shows config state.1 v →
      Shows config (tags.foldl MemoryCacheRepository.deleteByTag state).1
          (tags.foldl MemoryView.deleteByTag v) ∧
        (tags.foldl MemoryCacheRepository.deleteByTag state).2 +
            (tags.foldl MemoryView.deleteByTag v).recency.keys.length =
          state.2 + v.recency.keys.length := by
    intro tags
    induction tags with
    | nil => exact fun v state h => ⟨h, rfl⟩
    | cons tag rest ih =>
      intro v state h
      obtain ⟨hshows, hcount⟩ := h.deleteByTag tag
      obtain ⟨hshows', hcount'⟩ := ih _ _ hshows
      exact ⟨hshows', hcount'.trans hcount⟩
  have hall := hfold tags v (s, 0) h
  rwa [Nat.zero_add] at hall

theorem keepsLaterSlots_delete {s : MemoryCacheRepository V} {i j : ℕ}
    {e : Σ _ : String, Ref} (hi : s.map.slots[i]? = some (some e)) (hj : i < j) :
    (s.delete e.1).1.map.slots[j]? = s.map.slots[j]? := by
  rcases map_delete s e.1 with hmap | hmap
  · rw [hmap]
  · rw [hmap]
    exact SlotMap.slots_delete_ne s.map i j e hi hj.ne'

theorem deleteByPattern (h : Shows config s v) (regExp : RegExp) (pattern : String) :
    Shows config (s.deleteByPattern regExp pattern).1 (v.deleteByPattern regExp pattern) ∧
      ∀ count, (s.deleteByPattern regExp pattern).2 = some count →
        count + (v.deleteByPattern regExp pattern).recency.keys.length =
          v.recency.keys.length := by
  unfold MemoryCacheRepository.deleteByPattern MemoryView.deleteByPattern
  cases htest : regExp (globSource pattern) with
  | none => exact ⟨h, by simp⟩
  | some test =>
    have hloop := SlotMap.visit_rule
      (fun state : MemoryCacheRepository V × ℕ => state.1.map.slots)
      (fun _ state e =>
        if test e.1 then MemoryCacheRepository.deleteCounting state e.1 else state)
      (fun state i e hi j hj => by
        beta_reduce
        split
        · exact keepsLaterSlots_delete hi hj
        · rfl)
      (s, 0)
      (P := fun visited state =>
        Shows config state.1
          { v with recency := v.recency.dropAmong (fun key _ => test key) visited.keys } ∧
        state.2 + (v.recency.dropAmong (fun key _ => test key) visited.keys).keys.length =
          v.recency.keys.length)
      ?_ ?_
    · have hall : ∀ key ∈ v.recency.keys, key ∈ s.map.slots.reduceOption.keys :=
        fun key hkey => (h.mem_keys_iff key).mpr hkey
      rw [Recency.dropAmong_all _ _ _ hall] at hloop
      exact ⟨hloop.1, fun count hcount => Option.some.inj hcount ▸ hloop.2⟩
    · rw [List.keys_nil, Recency.dropAmong_nil]
      exact ⟨h, Nat.zero_add _⟩
    · rintro i state e ⟨hshows, hcount⟩ - -
      rw [keys_concat, ← Recency.dropAmong_concat, Recency.dropIf_of_key]
      split
      · obtain ⟨hshows', hcount', -⟩ := hshows.deleteCounting e.1
        exact ⟨hshows', hcount'.trans hcount⟩
      · exact ⟨hshows, hcount⟩

theorem exists_ (h : Shows config s v) (clock : Clock) (key : String) :
    Shows config (s.exists_ clock key).1
        { v with recency := v.recency.dropIf (fun _ entry => entry.isExpired (clock 0)) key } ∧
      (s.exists_ clock key).2 = (v.recency.lookup key).any fun entry =>
        !entry.isExpired (clock 0) := by
  unfold MemoryCacheRepository.exists_ Recency.dropIf
  rw [h.entryAt_eq]
  cases v.recency.lookup key with
  | none => exact ⟨h, rfl⟩
  | some entry =>
    by_cases hexp : entry.isExpired (clock 0) = true
    · simp only [hexp, ↓reduceIte, Option.any_some, Bool.not_true, and_true]
      exact (h.delete key).1
    · simp only [hexp, Bool.false_eq_true, ↓reduceIte, Option.any_some, Bool.not_false, and_true]
      exact h

theorem flush (h : Shows config s v) : Shows config s.flush .empty where
  list := ⟨[], Holds.empty (SlotMap.keys_clear _) rfl rfl⟩
  index := {
    keys_eq := fun _ => by simp [MemoryCacheRepository.flush, taggedKeys, MemoryView.empty]
    valid := fun _ _ hget => by simp [MemoryCacheRepository.flush] at hget
    separate := fun _ _ _ hget => by simp [MemoryCacheRepository.flush] at hget
  }
  bounded := Nat.zero_le _
  maxEntries_eq := h.maxEntries_eq
  defaultTtl_eq := h.defaultTtl_eq

end Shows

/-- The slot of a key in the map. -/
def slotOf (s : MemoryCacheRepository V) (key : String) : ℕ :=
  s.map.slots.findIdx fun o => o.any fun e => e.1 = key

theorem slotOf_eq {s : MemoryCacheRepository V} {i : ℕ} {e : Σ _ : String, Ref}
    (hi : s.map.slots[i]? = some (some e)) : s.slotOf e.1 = i := by
  obtain ⟨hlt, hget⟩ := List.getElem?_eq_some_iff.mp hi
  refine (List.findIdx_eq hlt).mpr ⟨by simp [hget], fun j hj => ?_⟩
  have hpair := List.nodupKeys_iff_pairwise.mp s.map.nodupKeys
  rw [List.reduceOption, List.pairwise_filterMap, List.pairwise_iff_getElem] at hpair
  cases hslot : s.map.slots[j] with
  | none => rfl
  | some e' => simpa [hslot] using hpair j i (by omega) hlt hj e' hslot e hget

theorem Shows.sweep {config : Config} {s : MemoryCacheRepository V} {v : MemoryView V}
    (h : Shows config s v) (clock : Clock) :
    Shows config (s.sweep clock)
      (v.retain fun key entry => !entry.isExpired (clock (s.slotOf key))) := by
  have hloop := SlotMap.visit_rule
    (fun s : MemoryCacheRepository V => s.map.slots)
    (sweepEntry clock) ?_ s
    (P := fun visited s' => Shows config s' { v with
      recency := v.recency.dropAmong
        (fun key entry => entry.isExpired (clock (s.slotOf key))) visited.keys })
    ?_ ?_
  · have hall : ∀ key ∈ v.recency.keys, key ∈ s.map.slots.reduceOption.keys :=
      fun key hkey => (h.mem_keys_iff key).mpr hkey
    rw [Recency.dropAmong_all _ _ _ hall] at hloop
    exact hloop
  · intro s i e hi j hj
    have hmap := (sameRest_removeNode s e.2).map_eq
    beta_reduce
    unfold sweepEntry
    split
    · rfl
    · split
      · simp only [removeFromMap, hmap]
        exact SlotMap.slots_delete_ne s.map i j e hi hj.ne'
      · rfl
  · rw [List.keys_nil, Recency.dropAmong_nil]
    exact h
  · intro i s' e hshows hi hi'
    rw [keys_concat, ← Recency.dropAmong_concat]
    have hget := SlotMap.get_of_slot s'.map i e hi'
    obtain ⟨l, hl⟩ := hshows.list
    obtain ⟨entry, hitem, hlookup⟩ := hl.item_mem hget
    obtain ⟨n, hn, -, hentry⟩ := item_eq_some s' e.2 _ hitem
    simp only at hentry
    subst hentry
    rw [Recency.dropIf, hlookup, sweepEntry]
    simp only [hn, slotOf_eq hi]
    split
    · exact hshows.removed hget
    · exact hshows

namespace Shows

variable {config : Config} {s s' : MemoryCacheRepository V} {v : MemoryView V}

/-- One step of the code is one step of the view. -/
theorem step (h : Shows config s v) (regExp : RegExp) {e : Event V} (he : e.expand = [e]) :
    ∃ v', MemoryView.Step config regExp v e v' ∧
      Shows config (MemoryCacheRepository.step regExp s e) v' := by
  obtain ⟨op, clock⟩ := e
  cases op with
  | get key => exact ⟨_, .get v key clock, (h.get clock key).1⟩
  | set key value options => exact ⟨_, .set v key value options clock, h.set clock key value options⟩
  | delete key => exact ⟨_, .delete v key clock, (h.delete key).1⟩
  | deleteByTags tags => exact ⟨_, .deleteByTags v tags clock, (h.deleteByTags tags).1⟩
  | deleteByPattern pattern =>
    exact ⟨_, .deleteByPattern v pattern clock, (h.deleteByPattern regExp pattern).1⟩
  | exists_ key => exact ⟨_, .exists_ v key clock, (h.exists_ clock key).1⟩
  | getStats memoryUsageMb => exact ⟨_, .getStats v memoryUsageMb clock, h⟩
  | flush => exact ⟨_, .flush v clock, h.flush⟩
  | keys pattern => exact ⟨_, .keys v pattern clock, h⟩
  | mget keys => exact absurd he (Event.expand_mget_ne keys clock)
  | mset entries => exact absurd he (Event.expand_mset_ne entries clock)
  | sweep => exact ⟨_, .sweep v clock (fun key => clock (s.slotOf key)) (fun _ => ⟨_, rfl⟩),
      h.sweep clock⟩

end Shows

/-- What holds of the empty view and is kept by its steps holds of a view that the state
reached by a run shows. -/
theorem exists_shows_of_reach {config : Config} {regExp : RegExp} {P : MemoryView V → Prop}
    (hempty : P .empty) (hstep : ∀ {v e v'}, MemoryView.Step config regExp v e v' → P v → P v')
    (events : List (Event V)) : ∃ v, Shows config (reach regExp config events) v ∧ P v := by
  have hrun : ∀ (events : List (Event V)) (s : MemoryCacheRepository V),
      (∀ e ∈ events, e.expand = [e]) → (∃ v, Shows config s v ∧ P v) →
      ∃ v, Shows config (Runs.run (step regExp) s events) v ∧ P v := by
    intro events
    induction events with
    | nil => exact fun s _ h => h
    | cons e rest ih =>
      intro s hsingle hshown
      obtain ⟨v, hv, hP⟩ := hshown
      obtain ⟨v', hv', hshows⟩ := hv.step regExp (hsingle e List.mem_cons_self)
      exact ih _ (fun e' he' => hsingle e' (List.mem_cons_of_mem e he'))
        ⟨v', hshows, hstep hv' hP⟩
  rw [reach_expand]
  exact hrun _ _ (fun e he => Event.expand_of_mem_flatMap he) ⟨_, Shows.new config, hempty⟩

/-! ### An entry from its set to its deadline -/

section Entry

variable {config : Config} {s : MemoryCacheRepository V} {v : MemoryView V}

theorem entryAt_set (hs : Shows config s v) (clock : Clock) (key : String)
    (value : V) (options : SetOptions) (hnew : s.suppressed clock key options = false) :
    (s.set clock key value options).entryAt key =
      some (MemoryView.newEntry config (clock 1) key value options) := by
  rw [(hs.set clock key value options).entryAt_eq, MemoryView.set, if_neg]
  · rw [MemoryView.store, Recency.lookup_store_self]
  · rw [← hs.suppressed_eq, hnew]
    exact Bool.false_ne_true

theorem get_of_expired (hs : Shows config s v) {clock : Clock} {key : String}
    {entry : CacheEntry V} (hentry : s.entryAt key = some entry)
    (hexpired : entry.isExpired (clock 0) = true) : (s.get clock key).2 = none := by
  rw [(hs.get clock key).2]
  rw [hs.entryAt_eq] at hentry
  cases hfound : (v.recency.get (clock 0) key).2 with
  | none => rfl
  | some found =>
    obtain ⟨stored, hstored, hfresh, -⟩ := (Recency.get_eq_some_iff key).mp hfound
    rw [hentry, Option.some.injEq] at hstored
    rw [← hstored, hexpired] at hfresh
    cases hfresh

theorem get_of_fresh (hs : Shows config s v) {clock : Clock} {key : String} {entry : CacheEntry V}
    (hentry : s.entryAt key = some entry) (hfresh : entry.isExpired (clock 0) = false) :
    (s.get clock key).2 = some entry.registerHit := by
  rw [(hs.get clock key).2]
  rw [hs.entryAt_eq] at hentry
  exact (Recency.get_eq_some_iff key).mpr ⟨entry, hentry, hfresh, rfl⟩

theorem snd_get (hs : Shows config s v) (clock : Clock) (key : String) :
    (s.get clock key).2 = ((s.entryAt key).filter fun entry =>
      !entry.isExpired (clock 0)).map CacheEntry.registerHit := by
  rw [(hs.get clock key).2, hs.entryAt_eq]
  unfold Recency.get
  cases hlookup : v.recency.lookup key with
  | none => rfl
  | some stored =>
    by_cases hexpired : stored.isExpired (clock 0) = true
    · simp [hexpired]
    · simp [hexpired]

theorem get_eq_none_of_le (hs : Shows config s v) {earlier clock : Clock}
    (hle : earlier 0 ≤ clock 0) {key : String} (h : (s.get earlier key).2 = none) :
    (s.get clock key).2 = none := by
  rw [(hs.get earlier key).2] at h
  rw [(hs.get clock key).2]
  cases hfound : (v.recency.get (clock 0) key).2 with
  | none => rfl
  | some entry =>
    obtain ⟨stored, hstored, hfresh, -⟩ := (Recency.get_eq_some_iff key).mp hfound
    have hearlier : stored.isExpired (earlier 0) = false := by
      refine Bool.eq_false_iff.mpr fun hexpired => ?_
      rw [stored.isExpired_mono hle hexpired] at hfresh
      cases hfresh
    rw [(Recency.get_eq_some_iff key).mpr ⟨stored, hstored, hearlier, rfl⟩] at h
    cases h

theorem entryAt_get (hs : Shows config s v) (clock : Clock) (key : String) :
    (s.get clock key).1.entryAt key = (s.get clock key).2 := by
  obtain ⟨hv', hfound⟩ := hs.get clock key
  rw [hv'.entryAt_eq, hfound]
  exact Recency.lookup_get_self _ _ _

theorem get_get (hs : Shows config s v) {earlier clock : Clock} (hle : earlier 0 ≤ clock 0)
    (key : String) :
    ((s.get clock key).2 = none ∧ ((s.get earlier key).1.get clock key).2 = none) ∨
      ∃ entry, (s.get clock key).2 = some entry ∧
        ((s.get earlier key).1.get clock key).2 = some entry.registerHit := by
  rw [((hs.get earlier key).1.get clock key).2, (hs.get clock key).2]
  unfold Recency.get
  cases hlookup : v.recency.lookup key with
  | none => exact Or.inl ⟨rfl, by simp only [hlookup]⟩
  | some stored =>
    by_cases hearlier : stored.isExpired (earlier 0) = true
    · have hlater := stored.isExpired_mono hle hearlier
      refine Or.inl ⟨by simp only [hlater, ↓reduceIte], ?_⟩
      simp only [hearlier, ↓reduceIte, AList.lookup_erase]
    · simp only [hearlier, Bool.false_eq_true, ↓reduceIte, AList.lookup_insert]
      have hdate : stored.registerHit.isExpired (clock 0) = stored.isExpired (clock 0) := rfl
      rw [hdate]
      by_cases hlater : stored.isExpired (clock 0) = true
      · simp only [hlater, ↓reduceIte, and_self, true_or]
      · simp only [hlater, Bool.false_eq_true, ↓reduceIte]
        exact Or.inr ⟨_, rfl, rfl⟩

end Entry

end MemoryCacheRepository

end EdgeCache
