import EdgeCache.MemoryRefinement

/-!
The tag index. It always covers the stored entries: each is indexed under all its tags,
so that an invalidation misses nothing. The converse only holds while no operation but
`deleteByTags` and `flush` takes away an entry that carries tags, or a tag from an entry:
the other operations leave the key in the index. `KeepsTags` says when a call is of this
kind, and then the index stays exact.
-/
namespace EdgeCache

variable {V : Type}

/-! ### Covering -/

namespace MemoryView

/-- Every entry is indexed under each of its tags. -/
def Covers (v : MemoryView V) : Prop :=
  ∀ key entry tag, v.recency.lookup key = some entry → tag ∈ entry.tags → key ∈ v.keysOf tag

theorem Covers.shrink {v v' : MemoryView V} (h : v.Covers) (hindex : v'.index = v.index)
    (hlookup : ∀ key entry', v'.recency.lookup key = some entry' →
      ∃ entry, v.recency.lookup key = some entry ∧ entry.tags = entry'.tags) : v'.Covers := by
  intro key entry' tag hentry' htag
  obtain ⟨entry, hentry, htags⟩ := hlookup key entry' hentry'
  rw [keysOf, hindex]
  exact h key entry tag hentry (htags ▸ htag)

theorem Covers.fade {v v' : MemoryView V} (h : v.Covers) (hindex : v'.index = v.index)
    (hlookup : ∀ key, v'.recency.lookup key = v.recency.lookup key ∨
      v'.recency.lookup key = none) : v'.Covers := by
  refine h.shrink hindex fun key entry' hentry' => ⟨entry', ?_, rfl⟩
  rcases hlookup key with hsame | hnone
  · rw [← hsame, hentry']
  · simp [hnone] at hentry'

theorem Covers.deleteByTags {v : MemoryView V} (h : v.Covers) (tags : List String) :
    (v.deleteByTags tags).Covers := by
  intro key entry tag hentry htag
  rw [lookup_deleteByTags] at hentry
  split at hentry
  · simp at hentry
  · next hkept =>
    have hin := h key entry tag hentry htag
    have hout : tag ∉ tags := fun hmem => hkept ⟨tag, hmem, hin⟩
    rw [keysOf, index_deleteByTags, if_neg hout]
    exact hin

theorem Covers.store {v : MemoryView V} (h : v.Covers) (config : Config) (key : String)
    (entry : CacheEntry V) : (v.store config key entry).Covers := by
  intro key' entry' tag hentry' htag
  rw [keysOf, MemoryView.store, mem_indexTags]
  by_cases hk : key' = key
  · subst hk
    rw [MemoryView.store, Recency.lookup_store_self, Option.some.injEq] at hentry'
    exact Or.inr ⟨rfl, hentry' ▸ htag⟩
  · rcases Recency.lookup_store_or v.recency key' config.cacheMaxMemoryEntries entry hk with
      hsame | hnone
    · rw [MemoryView.store, hsame] at hentry'
      exact Or.inl (h key' entry' tag hentry' htag)
    · rw [MemoryView.store, hnone] at hentry'
      simp at hentry'

theorem Covers.step {config : Config} {regExp : RegExp} {v v' : MemoryView V} {e : Event V}
    (h : v.Covers) (hstep : Step config regExp v e v') : v'.Covers := by
  cases hstep with
  | get key clock =>
    refine h.shrink rfl fun key' entry' hentry' => ?_
    by_cases hk : key' = key
    · subst hk
      simp only [Recency.lookup_get_self] at hentry'
      obtain ⟨stored, hstored, -, rfl⟩ := (Recency.get_eq_some_iff key').mp hentry'
      exact ⟨stored, hstored, rfl⟩
    · simp only [Recency.lookup_get_ne _ _ _ hk] at hentry'
      exact ⟨entry', hentry', rfl⟩
  | set key value options clock =>
    unfold MemoryView.set
    split
    · exact h
    · exact h.store config key _
  | delete key clock => exact h.fade rfl fun key' => Recency.lookup_erase_or _ key' key
  | deleteByTags tags clock => exact h.deleteByTags tags
  | deleteByPattern pattern clock =>
    unfold MemoryView.deleteByPattern
    cases regExp (globSource pattern) with
    | none => exact h
    | some test => exact h.fade rfl fun key' => Recency.lookup_retain_or _ key' _
  | exists_ key clock =>
    refine h.fade rfl fun key' => ?_
    simp only [Recency.dropIf_eq_retain]
    exact Recency.lookup_retain_or _ key' _
  | getStats memoryUsageMb clock => exact h
  | flush clock =>
    intro key entry tag hentry
    simp [MemoryView.empty] at hentry
  | keys pattern clock => exact h
  | sweep clock readings hreadings => exact h.fade rfl fun key' => Recency.lookup_retain_or _ key' _

end MemoryView

private theorem length_filter_notMem {keys keys' : List String} (hkeys : keys.Nodup)
    (hkeys' : keys'.Nodup) (hsub : ∀ key ∈ keys', key ∈ keys) :
    (keys.filter (· ∉ keys')).length + keys'.length = keys.length := by
  have hperm : (keys.filter (· ∈ keys')).Perm keys' := by
    refine (List.perm_ext_iff_of_nodup (hkeys.filter _) hkeys').mpr fun key => ?_
    simp only [List.mem_filter, decide_eq_true_eq]
    exact ⟨fun h => h.2, fun h => ⟨hsub key h, h⟩⟩
  have hsplit := List.length_eq_length_filter_add (l := keys) (fun key => decide (key ∈ keys'))
  rw [hperm.length_eq] at hsplit
  rw [hsplit, Nat.add_comm]
  congr 2
  exact List.filter_congr fun key _ => by simp

namespace MemoryCacheRepository

variable {config : Config} {regExp : RegExp}

theorem Shows.mem_taggedKeys_iff {s : MemoryCacheRepository V} {v : MemoryView V}
    (h : Shows config s v) (tag key : String) :
    (∃ keys, s.taggedKeys tag = some keys ∧ key ∈ keys) ↔ key ∈ v.keysOf tag := by
  rw [MemoryView.mem_keysOf, h.index.keys_eq]

/-- In every state a run reaches, the entries are indexed under all their tags, and an
invalidation removes every entry with one of its tags, counts what it removes, and leaves
the rest as it was and indexed. -/
theorem deleteByTags_of_reach (regExp : RegExp) (config : Config) (events : List (Event V)) :
    let s := reach regExp config events
    (∀ key entry tag, s.entryAt key = some entry → tag ∈ entry.tags →
      ∃ keys, s.taggedKeys tag = some keys ∧ key ∈ keys) ∧
    ∀ tags, let r := s.deleteByTags tags
      (∀ key entry, r.1.entryAt key = some entry → s.entryAt key = some entry ∧
        (∀ tag ∈ tags, tag ∉ entry.tags) ∧
        ∀ tag ∈ entry.tags, ∃ keys, r.1.taggedKeys tag = some keys ∧ key ∈ keys) ∧
      r.2 = (s.map.keys.filter (· ∉ r.1.map.keys)).length := by
  intro s
  obtain ⟨v, hv, hcovers⟩ := exists_shows_of_reach (P := MemoryView.Covers)
    (fun key entry tag hentry => by simp [MemoryView.empty] at hentry)
    (fun hstep h => h.step hstep) events
  refine ⟨fun key entry tag hentry htag => ?_, fun tags => ?_⟩
  · rw [hv.entryAt_eq] at hentry
    exact (hv.mem_taggedKeys_iff tag key).mpr (hcovers key entry tag hentry htag)
  · intro r
    obtain ⟨hr, hcount⟩ := hv.deleteByTags tags
    have hcovers' := hcovers.deleteByTags tags
    refine ⟨fun key entry hentry => ?_, ?_⟩
    · rw [hr.entryAt_eq] at hentry
      refine ⟨?_, fun tag htag hmem => ?_, fun tag htag => ?_⟩
      · rw [hv.entryAt_eq]
        rcases v.lookup_deleteByTags_or tags key with hsame | hnone
        · rw [← hsame, hentry]
        · simp [hnone] at hentry
      · have hin := hcovers' key entry tag hentry hmem
        rw [MemoryView.keysOf, MemoryView.index_deleteByTags, if_pos htag] at hin
        exact absurd hin List.not_mem_nil
      · exact (hr.mem_taggedKeys_iff tag key).mpr (hcovers' key entry tag hentry htag)
    · have hsub : ∀ key ∈ r.1.map.keys, key ∈ s.map.keys := by
        intro key hkey
        rw [hr.mem_keys_iff_isSome] at hkey
        rw [hv.mem_keys_iff_isSome]
        rcases v.lookup_deleteByTags_or tags key with hsame | hnone
        · rwa [← hsame]
        · simp [hnone] at hkey
      have hlength := length_filter_notMem s.map.keys_nodup r.1.map.keys_nodup hsub
      rw [SlotMap.length_keys, SlotMap.length_keys, hr.size_eq, hv.size_eq] at hlength
      exact Nat.add_right_cancel (hcount.trans hlength.symm)

end MemoryCacheRepository

/-! ### Exactness -/

namespace MemoryView

def Carries (v : MemoryView V) (key tag : String) : Prop :=
  ∃ entry, v.recency.lookup key = some entry ∧ tag ∈ entry.tags

/-- What is indexed under a tag carries it. -/
def Sound (v : MemoryView V) : Prop := ∀ tag key, key ∈ v.keysOf tag → v.Carries key tag

variable {v : MemoryView V}

theorem sound_congr {v' : MemoryView V} (hindex : v'.index = v.index)
    (hcarries : ∀ key tag, v'.Carries key tag ↔ v.Carries key tag) : v'.Sound ↔ v.Sound := by
  simp only [Sound, keysOf, hindex, hcarries]

theorem sound_retain_iff (hcovers : v.Covers) (hsound : v.Sound)
    (keep : String → CacheEntry V → Bool) :
    (v.retain keep).Sound ↔ ∀ key entry, v.recency.lookup key = some entry →
      keep key entry = false → entry.tags = [] := by
  constructor
  · intro h key entry hentry hkeep
    refine List.eq_nil_iff_forall_not_mem.mpr fun tag htag => ?_
    obtain ⟨entry', hentry', -⟩ := h tag key (hcovers key entry tag hentry htag)
    simp [retain, Recency.lookup_retain, hentry, Option.filter, hkeep] at hentry'
  · intro h tag key hkey
    obtain ⟨entry, hentry, htag⟩ := hsound tag key hkey
    cases hkeep : keep key entry with
    | true =>
      exact ⟨entry, by simp [retain, Recency.lookup_retain, hentry, Option.filter, hkeep], htag⟩
    | false => simp [h key entry hentry hkeep] at htag

theorem sound_erase_iff (hcovers : v.Covers) (hsound : v.Sound) (key : String) :
    ({ v with recency := v.recency.erase key } : MemoryView V).Sound ↔
      ∀ entry, v.recency.lookup key = some entry → entry.tags = [] := by
  rw [Recency.erase_eq_retain]
  refine (sound_retain_iff hcovers hsound _).trans ⟨fun h entry hentry => ?_, ?_⟩
  · exact h key entry hentry (by simp)
  · intro h key' entry hentry hkey
    obtain rfl : key' = key := by simpa using hkey
    exact h entry hentry

theorem sound_dropIf_iff (hcovers : v.Covers) (hsound : v.Sound)
    (p : String → CacheEntry V → Bool) (key : String) :
    ({ v with recency := v.recency.dropIf p key } : MemoryView V).Sound ↔
      ∀ entry, v.recency.lookup key = some entry → p key entry = true → entry.tags = [] := by
  rw [Recency.dropIf_eq_retain]
  refine (sound_retain_iff hcovers hsound _).trans ⟨fun h entry hentry hp => ?_, ?_⟩
  · exact h key entry hentry (by simp [hp])
  · intro h key' entry hentry hkey
    simp only [Bool.not_eq_eq_eq_not, Bool.not_false, Bool.and_eq_true, decide_eq_true_eq] at hkey
    obtain ⟨rfl, hp⟩ := hkey
    exact h entry hentry hp

theorem sound_get_iff (hcovers : v.Covers) (hsound : v.Sound) (now : Time) (key : String) :
    ({ v with recency := (v.recency.get now key).1 } : MemoryView V).Sound ↔
      ∀ entry, v.recency.lookup key = some entry → entry.isExpired now = true →
        entry.tags = [] := by
  rw [← sound_dropIf_iff hcovers hsound (fun _ entry => entry.isExpired now) key]
  refine sound_congr rfl fun key' tag => ?_
  unfold Recency.get Recency.dropIf Carries
  cases hl : v.recency.lookup key with
  | none => exact Iff.rfl
  | some entry =>
    by_cases hexpired : entry.isExpired now = true
    · simp only [hexpired, ↓reduceIte]
    · simp only [hexpired, Bool.false_eq_true, ↓reduceIte]
      by_cases hk : key' = key
      · subst hk
        simp [hl]
      · rw [AList.lookup_insert_ne hk]

theorem sound_store_iff (hcovers : v.Covers) (hsound : v.Sound) (config : Config) (key : String)
    (entry : CacheEntry V) :
    (v.store config key entry).Sound ↔
      (∀ old, v.recency.lookup key = some old → ∀ tag ∈ old.tags, tag ∈ entry.tags) ∧
      (key ∉ v.recency → config.cacheMaxMemoryEntries ≤ v.recency.keys.length →
        ∀ victim old, v.recency.keys.getLast? = some victim →
          v.recency.lookup victim = some old → old.tags = []) := by
  have hkeep : ∀ {tag key'}, key' ∈ v.keysOf tag → key' ∈ (v.store config key entry).keysOf tag :=
    fun h => (mem_indexTags key entry.tags v.index _ _).mpr (Or.inl h)
  constructor
  · intro h
    refine ⟨fun old hold tag htag => ?_, fun hnew hfull victim old hlast hold => ?_⟩
    · obtain ⟨entry', hentry', htag'⟩ := h tag key (hkeep (hcovers key old tag hold htag))
      rw [store, Recency.lookup_store_self, Option.some.injEq] at hentry'
      exact hentry' ▸ htag'
    · refine List.eq_nil_iff_forall_not_mem.mpr fun tag htag => ?_
      obtain ⟨entry', hentry', -⟩ := h tag victim (hkeep (hcovers victim old tag hold htag))
      have hne : victim ≠ key := by
        intro heq
        subst heq
        exact hnew (AList.lookup_isSome.mp (by simp [hold]))
      rw [store, Recency.store, if_neg hnew, if_pos hfull, AList.lookup_insert_ne hne,
        Recency.lookup_evict, if_pos hlast] at hentry'
      simp at hentry'
  · intro hkept tag key' hkey'
    obtain ⟨hold, hvictim⟩ := hkept
    have hself : tag ∈ entry.tags → (v.store config key entry).Carries key tag := fun htag =>
      ⟨entry, Recency.lookup_store_self v.recency key _ entry, htag⟩
    rcases (mem_indexTags key entry.tags v.index tag key').mp hkey' with hin | ⟨rfl, htag⟩
    · obtain ⟨old, hl, htag⟩ := hsound tag key' hin
      by_cases hk : key' = key
      · subst hk
        exact hself (hold old hl tag htag)
      · refine ⟨old, ?_, htag⟩
        unfold store Recency.store
        by_cases hmem : key ∈ v.recency
        · simp only [hmem, ↓reduceIte, AList.lookup_insert_ne hk, hl]
        · by_cases hfull : config.cacheMaxMemoryEntries ≤ v.recency.keys.length
          · have hlast : v.recency.keys.getLast? ≠ some key' := fun hlast => by
              simp [hvictim hmem hfull key' old hlast hl] at htag
            simp only [hmem, hfull, ↓reduceIte, AList.lookup_insert_ne hk, Recency.lookup_evict,
              hlast, hl]
          · simp only [hmem, hfull, ↓reduceIte, AList.lookup_insert_ne hk, hl]
    · exact hself htag

theorem sound_deleteByTags_iff (hcovers : v.Covers) (hsound : v.Sound) (tags : List String) :
    (v.deleteByTags tags).Sound ↔ ∀ key entry, v.recency.lookup key = some entry →
      (∃ tag ∈ tags, tag ∈ entry.tags) → ∀ tag ∈ entry.tags, tag ∈ tags := by
  constructor
  · intro h key entry hentry hcarries tag' hcarried'
    obtain ⟨tag, htag, hcarried⟩ := hcarries
    by_contra hout
    have hin := hcovers key entry tag' hentry hcarried'
    have hindex := v.index_deleteByTags tags tag'
    rw [if_neg hout] at hindex
    rw [keysOf, ← hindex] at hin
    obtain ⟨entry', hentry', -⟩ := h tag' key hin
    rw [lookup_deleteByTags, if_pos ⟨tag, htag, hcovers key entry tag hentry hcarried⟩] at hentry'
    simp at hentry'
  · intro h tag key hkey
    rw [keysOf, index_deleteByTags] at hkey
    split at hkey
    · simp at hkey
    · next hout =>
      obtain ⟨entry, hentry, htag⟩ := hsound tag key hkey
      refine ⟨entry, ?_, htag⟩
      rw [lookup_deleteByTags, if_neg, hentry]
      intro hany
      obtain ⟨tag', htag', hkey'⟩ := hany
      obtain ⟨entry', hentry', hcarried⟩ := hsound tag' key hkey'
      obtain rfl : entry = entry' := Option.some.inj (hentry.symm.trans hentry')
      exact hout (h key entry hentry ⟨tag', htag', hcarried⟩ tag htag)

end MemoryView

namespace MemoryCacheRepository

variable {config : Config}

/-- What a call must not do if the index is to stay exact, told from the state before it:
take away a stored entry that carries tags, unless it is a `deleteByTags` with all of
them, or overwrite an entry without one of its tags. -/
def KeepsTags (regExp : RegExp) (s : MemoryCacheRepository V) (e : Event V) : Prop :=
  match e.op with
  | .get key | .exists_ key => ∀ entry, s.entryAt key = some entry →
      entry.isExpired (e.clock 0) = true → entry.tags = []
  | .set key _ options => s.suppressed e.clock key options = false →
      (∀ entry, s.entryAt key = some entry → ∀ tag ∈ entry.tags, tag ∈ options.tagList) ∧
      (s.map.get key = none → s.maxEntries ≤ s.map.size →
        ∀ node n, s.tail = some node → s.nodes[node]? = some n → n.entry.tags = [])
  | .delete key => ∀ entry, s.entryAt key = some entry → entry.tags = []
  | .deleteByTags tags => ∀ key entry, s.entryAt key = some entry →
      (∃ tag ∈ tags, tag ∈ entry.tags) → ∀ tag ∈ entry.tags, tag ∈ tags
  | .deleteByPattern pattern => ∀ test, regExp (globSource pattern) = some test →
      ∀ key entry, s.entryAt key = some entry → test key = true → entry.tags = []
  | .sweep => ∀ key entry, s.entryAt key = some entry →
      entry.isExpired (e.clock (s.slotOf key)) = true → entry.tags = []
  | _ => True

theorem Shows.tail_iff {s : MemoryCacheRepository V} {v : MemoryView V} (h : Shows config s v)
    {p : CacheEntry V → Prop} :
    (∀ node n, s.tail = some node → s.nodes[node]? = some n → p n.entry) ↔
      ∀ victim old, v.recency.keys.getLast? = some victim →
        v.recency.lookup victim = some old → p old := by
  obtain ⟨l, hl⟩ := h.list
  have hlookup : ∀ node n, s.tail = some node → s.nodes[node]? = some n →
      v.recency.lookup n.key = some n.entry := by
    intro node n htail hn
    obtain ⟨key, hkey⟩ := (hl.stored node).mp (hl.spelled.tail_mem htail)
    obtain ⟨entry, hitem, hentry⟩ := hl.item_mem hkey
    obtain ⟨n', hn', rfl, rfl⟩ := item_eq_some s node _ hitem
    obtain rfl := Option.some.inj (hn.symm.trans hn')
    exact hentry
  constructor
  · intro hp victim old hlast hold
    rw [hl.getLast?_keys, Option.bind_eq_some_iff] at hlast
    obtain ⟨node, htail, hnode⟩ := hlast
    obtain ⟨n, hn, rfl⟩ := Option.map_eq_some_iff.mp hnode
    obtain rfl := Option.some.inj ((hlookup node n htail hn).symm.trans hold)
    exact hp node n htail hn
  · intro hp node n htail hn
    refine hp n.key n.entry ?_ (hlookup node n htail hn)
    rw [hl.getLast?_keys, htail, Option.bind_some, hn, Option.map_some]

/-- From an exact index, a call leads to an exact one just when it keeps the tags. -/
theorem Shows.sound_step_iff {regExp : RegExp} {s : MemoryCacheRepository V} {v : MemoryView V}
    (h : Shows config s v) (hcovers : v.Covers) (hsound : v.Sound) {e : Event V}
    (he : e.expand = [e]) :
    ∃ v', Shows config (s.step regExp e) v' ∧ (v'.Sound ↔ s.KeepsTags regExp e) := by
  obtain ⟨op, clock⟩ := e
  cases op with
  | get key =>
    refine ⟨_, (h.get clock key).1, ?_⟩
    simp only [KeepsTags, h.entryAt_eq]
    exact MemoryView.sound_get_iff hcovers hsound (clock 0) key
  | set key value options =>
    refine ⟨_, h.set clock key value options, ?_⟩
    obtain ⟨l, hl⟩ := h.list
    have hnew : s.map.get key = none ↔ key ∉ v.recency :=
      (hl.get_eq_none_iff key).trans AList.lookup_eq_none
    simp only [KeepsTags, h.entryAt_eq, h.suppressed_eq, MemoryView.set, hnew, h.size_eq,
      h.maxEntries_eq]
    rw [h.tail_iff (p := fun entry => entry.tags = [])]
    by_cases hsuppressed : v.suppressed (clock 0) key options = true
    · simp [hsuppressed, hsound]
    · simp only [hsuppressed, Bool.false_eq_true, ↓reduceIte, forall_const]
      exact MemoryView.sound_store_iff hcovers hsound config key _
  | delete key =>
    refine ⟨_, (h.delete key).1, ?_⟩
    simp only [KeepsTags, h.entryAt_eq]
    exact MemoryView.sound_erase_iff hcovers hsound key
  | deleteByTags tags =>
    refine ⟨_, (h.deleteByTags tags).1, ?_⟩
    simp only [KeepsTags, h.entryAt_eq]
    exact MemoryView.sound_deleteByTags_iff hcovers hsound tags
  | deleteByPattern pattern =>
    refine ⟨_, (h.deleteByPattern regExp pattern).1, ?_⟩
    simp only [KeepsTags, h.entryAt_eq, MemoryView.deleteByPattern]
    cases regExp (globSource pattern) with
    | none => simp [hsound]
    | some test =>
      have hiff := MemoryView.sound_retain_iff hcovers hsound fun key _ => !test key
      simpa using hiff
  | exists_ key =>
    refine ⟨_, (h.exists_ clock key).1, ?_⟩
    simp only [KeepsTags, h.entryAt_eq]
    exact MemoryView.sound_dropIf_iff hcovers hsound _ key
  | flush =>
    refine ⟨_, h.flush, ?_⟩
    simp [KeepsTags, MemoryView.Sound, MemoryView.keysOf, MemoryView.empty]
  | mget keys => exact absurd he (Event.expand_mget_ne keys clock)
  | mset entries => exact absurd he (Event.expand_mset_ne entries clock)
  | sweep =>
    refine ⟨_, h.sweep clock, ?_⟩
    simp only [KeepsTags, h.entryAt_eq]
    have hiff := MemoryView.sound_retain_iff hcovers hsound
      fun key entry => !entry.isExpired (clock (s.slotOf key))
    simpa using hiff
  | _ => exact ⟨v, h, by simp [KeepsTags, hsound]⟩

/-- All the references the index holds. -/
def references (s : MemoryCacheRepository V) : List (String × String) :=
  s.tagIndex.keys.flatMap fun tag => ((s.taggedKeys tag).getD []).map fun key => (tag, key)

/-- All the tags the stored entries carry. -/
def carriedTags (s : MemoryCacheRepository V) : List (String × String) :=
  s.map.keys.flatMap fun key =>
    ((s.entryAt key).elim [] fun entry => entry.tags).map fun tag => (tag, key)

/-- The index agrees with the stored entries, and what follows for invalidations and for
its size. -/
structure IndexExact (s : MemoryCacheRepository V) : Prop where
  sound : ∀ tag keys key, s.taggedKeys tag = some keys → key ∈ keys →
    ∃ entry, s.entryAt key = some entry ∧ tag ∈ entry.tags
  invalidates : ∀ tags key entry, s.entryAt key = some entry → (∀ tag ∈ tags, tag ∉ entry.tags) →
    (s.deleteByTags tags).1.entryAt key = some entry
  references_le : s.references.length ≤ s.carriedTags.length
  bounded : ∀ tag keys, s.taggedKeys tag = some keys → keys.length ≤ s.maxEntries

theorem nodup_taggedKeys (s : MemoryCacheRepository V) (tag : String) :
    ((s.taggedKeys tag).getD []).Nodup := by
  unfold taggedKeys
  cases s.tagIndex.get tag with
  | none => exact List.nodup_nil
  | some ref =>
    cases hset : s.sets[ref]? with
    | none => simp [hset]
    | some keys => simpa [hset] using keys.keys_nodup

theorem nodup_references (s : MemoryCacheRepository V) : s.references.Nodup := by
  refine List.nodup_flatMap.mpr ⟨fun tag _ => ?_, ?_⟩
  · exact (nodup_taggedKeys s tag).map fun key key' h => (Prod.mk.inj h).2
  · refine s.tagIndex.keys_nodup.imp fun {tag tag'} hne p hp hp' => ?_
    obtain ⟨key, -, rfl⟩ := List.mem_map.mp hp
    obtain ⟨key', -, heq⟩ := List.mem_map.mp hp'
    exact hne (Prod.mk.inj heq).1.symm

theorem Shows.indexExact_iff {s : MemoryCacheRepository V} {v : MemoryView V}
    (h : Shows config s v) : IndexExact s ↔ v.Sound := by
  constructor
  · intro hexact tag key hkey
    obtain ⟨keys, hkeys, hmem⟩ := (h.mem_taggedKeys_iff tag key).mpr hkey
    obtain ⟨entry, hentry, htag⟩ := hexact.sound tag keys key hkeys hmem
    exact ⟨entry, (h.entryAt_eq key) ▸ hentry, htag⟩
  · intro hsound
    have hsound' : ∀ tag keys key, s.taggedKeys tag = some keys → key ∈ keys →
        ∃ entry, s.entryAt key = some entry ∧ tag ∈ entry.tags := by
      intro tag keys key hkeys hmem
      simp only [h.entryAt_eq]
      exact hsound tag key ((h.mem_taggedKeys_iff tag key).mp ⟨keys, hkeys, hmem⟩)
    have hstored : ∀ tag keys key, s.taggedKeys tag = some keys → key ∈ keys →
        key ∈ s.map.keys := by
      intro tag keys key hkeys hmem
      obtain ⟨entry, hentry, -⟩ := hsound' tag keys key hkeys hmem
      rw [h.entryAt_eq] at hentry
      rw [h.mem_keys_iff_isSome, hentry]
      rfl
    refine ⟨hsound', fun tags key entry hentry hnone => ?_, ?_, fun tag keys hkeys => ?_⟩
    · obtain ⟨hr, -⟩ := h.deleteByTags tags
      rw [hr.entryAt_eq, MemoryView.lookup_deleteByTags, if_neg, ← h.entryAt_eq, hentry]
      intro hany
      obtain ⟨tag, htag, hkey⟩ := hany
      obtain ⟨entry', hentry', hcarried⟩ := hsound tag key hkey
      rw [← h.entryAt_eq, hentry, Option.some.injEq] at hentry'
      exact hnone tag htag (hentry' ▸ hcarried)
    · refine (List.subperm_of_subset (nodup_references s) fun p hp => ?_).length_le
      obtain ⟨tag, -, hp⟩ := List.mem_flatMap.mp hp
      obtain ⟨key, hkey, rfl⟩ := List.mem_map.mp hp
      obtain ⟨keys, hkeys, hmem⟩ : ∃ keys, s.taggedKeys tag = some keys ∧ key ∈ keys := by
        cases hkeys : s.taggedKeys tag with
        | none => simp [hkeys] at hkey
        | some keys => exact ⟨keys, rfl, by simpa [hkeys] using hkey⟩
      obtain ⟨entry, hentry, htag⟩ := hsound' tag keys key hkeys hmem
      refine List.mem_flatMap.mpr ⟨key, hstored tag keys key hkeys hmem, ?_⟩
      exact List.mem_map.mpr ⟨tag, by simpa [hentry] using htag, rfl⟩
    · have hnodup := nodup_taggedKeys s tag
      rw [hkeys, Option.getD_some] at hnodup
      have hle := (List.subperm_of_subset hnodup fun key hkey =>
        hstored tag keys key hkeys hkey).length_le
      rw [SlotMap.length_keys, h.size_eq] at hle
      rw [h.maxEntries_eq]
      exact hle.trans h.bounded

/-- The index is exact in every state of a run just when every step of it keeps the
tags. -/
theorem indexExact_iff_keepsTags (regExp : RegExp) (config : Config) (events : List (Event V)) :
    Runs.Guarded (step regExp) (KeepsTags regExp) (new config) (events.flatMap Event.expand) ↔
      ∀ before, before <+: events.flatMap Event.expand →
        IndexExact (reach regExp config before) := by
  have hsingle : ∀ e ∈ events.flatMap Event.expand, e.expand = [e] :=
    fun e he => Event.expand_of_mem_flatMap he
  refine Runs.guarded_iff_forall_prefix (Q := fun e : Event V => e.expand = [e])
    (J := fun s : MemoryCacheRepository V => ∃ v, Shows config s v ∧ v.Covers)
    ?_ ?_ hsingle ?_ ?_
  · intro s e he hshown
    obtain ⟨v, hv, hcovers⟩ := hshown
    obtain ⟨v', hstep, hv'⟩ := hv.step regExp he
    exact ⟨v', hv', hcovers.step hstep⟩
  · intro s e he hshown hexact
    obtain ⟨v, hv, hcovers⟩ := hshown
    obtain ⟨v', hv', hiff⟩ := hv.sound_step_iff hcovers (hv.indexExact_iff.mp hexact) he
    exact hv'.indexExact_iff.trans hiff
  · exact ⟨_, Shows.new config, fun key entry tag hentry => by simp [MemoryView.empty] at hentry⟩
  · refine (Shows.new config).indexExact_iff.mpr fun tag key hkey => ?_
    simp [MemoryView.keysOf, MemoryView.empty] at hkey

/-- An overwrite with other tags leaves the key indexed under the old one. -/
theorem not_indexExact_of_overwrite :
    ¬ IndexExact (reach (fun _ => none) ⟨1, 60, by decide, by decide⟩
      [⟨.set "a" 1 (.tagged 60 ["t"]), fun _ => ⟨1000, by decide⟩⟩,
        ⟨.set "a" 2 (.ofTtl 60), fun _ => ⟨2000, by decide⟩⟩] : MemoryCacheRepository ℕ) := by
  intro h
  obtain ⟨entry, hentry, htag⟩ := h.sound "t" ["a"] "a" (by decide) (by decide)
  have htags : entry.tags = [] := by
    rw [← Option.some.inj hentry]
    rfl
  simp [htags] at htag

end MemoryCacheRepository

end EdgeCache
