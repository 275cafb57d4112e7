import EdgeCache.MemoryRepresentation

/-!
What the memory tier is for, with no heap: a `MemoryView` is a recency list together
with, for each tag, the keys indexed under it. The operations say what each method
means for the view; `Step` collects them. The sweep compares each entry with some
reading of its clock, so a step is a relation.
-/
namespace EdgeCache

variable {V : Type}

/-! ### Recency lists -/

namespace Recency

def get (now : Time) (key : String) (a : Recency V) : Recency V × Option (CacheEntry V) :=
  match a.lookup key with
  | none => (a, none)
  | some entry =>
    if entry.isExpired now then (a.erase key, none)
    else (a.insert key entry.registerHit, some entry.registerHit)

/-- Store an entry; a new key makes room first when the list is full. -/
def store (maxEntries : ℕ) (key : String) (entry : CacheEntry V) (a : Recency V) : Recency V :=
  if key ∈ a then a.insert key entry
  else (if maxEntries ≤ a.keys.length then a.evict else a).insert key entry

/-- Drop a key when its entry satisfies `p`. -/
def dropIf (p : String → CacheEntry V → Bool) (a : Recency V) (key : String) : Recency V :=
  match a.lookup key with
  | none => a
  | some entry => if p key entry then a.erase key else a

theorem dropIf_eq_retain (p : String → CacheEntry V → Bool) (a : Recency V)
    (key : String) :
    a.dropIf p key = a.retain fun key' entry => !(decide (key' = key) && p key' entry) := by
  have hstay : (∀ entry, a.lookup key = some entry → p key entry = false) →
      a.retain (fun key' entry => !(decide (key' = key) && p key' entry)) = a := by
    intro h
    apply AList.ext
    refine List.filter_eq_self.mpr fun e he => ?_
    by_cases hk : e.1 = key
    · have hlookup : a.lookup key = some e.2 := AList.mem_lookup_iff.mpr (hk ▸ he)
      have hp := h e.2 hlookup
      simp [hk, hp]
    · simp [hk]
  unfold dropIf
  cases hl : a.lookup key with
  | none => exact (hstay (by simp [hl])).symm
  | some entry =>
    by_cases hp : p key entry
    · simp only [hp, ↓reduceIte, erase_eq_retain]
      apply AList.ext
      refine List.filter_congr fun e he => ?_
      by_cases hk : e.1 = key
      · have he' : e.2 = entry := by
          have hmem : a.lookup key = some e.2 := AList.mem_lookup_iff.mpr (hk ▸ he)
          exact Option.some.inj (hmem.symm.trans hl)
        simp [hk, he', hp]
      · simp [hk]
    · simp only [hp]
      exact (hstay (by simpa [hl] using hp)).symm

/-- Drop those of `keys` whose entry satisfies `p`. -/
def dropAmong (p : String → CacheEntry V → Bool) (keys : List String) (a : Recency V) :
    Recency V :=
  a.retain fun key entry => !(decide (key ∈ keys) && p key entry)

theorem dropAmong_nil (p : String → CacheEntry V → Bool) (a : Recency V) :
    a.dropAmong p [] = a := by
  apply AList.ext
  exact List.filter_eq_self.mpr fun e _ => by simp

theorem dropAmong_concat (p : String → CacheEntry V → Bool) (keys : List String) (key : String)
    (a : Recency V) : (a.dropAmong p keys).dropIf p key = a.dropAmong p (keys ++ [key]) := by
  rw [dropIf_eq_retain]
  apply AList.ext
  change List.filter _ (List.filter _ _) = List.filter _ _
  rw [List.filter_filter]
  refine List.filter_congr fun ⟨key', entry⟩ _ => ?_
  by_cases hk : key' = key
  · subst hk
    cases hp : p key' entry <;> simp [hp]
  · simp [hk]

theorem dropAmong_all (p : String → CacheEntry V → Bool) (keys : List String) (a : Recency V)
    (hall : ∀ key ∈ a.keys, key ∈ keys) :
    a.dropAmong p keys = a.retain fun key entry => !p key entry := by
  apply AList.ext
  refine List.filter_congr fun e he => ?_
  have hmem : e.1 ∈ keys := hall e.1 (List.mem_keys_of_mem he)
  simp [hmem]

theorem dropIf_of_key (test : String → Bool) (a : Recency V) (key : String) :
    a.dropIf (fun key _ => test key) key = if test key then a.erase key else a := by
  unfold dropIf
  cases hl : a.lookup key with
  | none =>
    rw [erase_of_notMem a (AList.lookup_eq_none.mp hl), ite_self]
  | some entry => rfl

theorem keys_get_length_le (now : Time) (key : String) (a : Recency V) :
    (a.get now key).1.keys.length ≤ a.keys.length := by
  unfold get
  have herase := keys_erase_length a key
  split
  · exact le_rfl
  · next entry hl =>
    have hmem : key ∈ a := AList.lookup_isSome.mp (by simp [hl])
    rw [if_pos hmem] at herase
    split
    · simp only
      omega
    · simp only [keys_insert_length]
      omega

theorem keys_store_length_le (maxEntries : ℕ) (key : String) (entry : CacheEntry V)
    (a : Recency V) (hpos : 0 < maxEntries) (hle : a.keys.length ≤ maxEntries) :
    (a.store maxEntries key entry).keys.length ≤ maxEntries := by
  unfold store
  have herase := keys_erase_length a key
  by_cases hmem : key ∈ a
  · rw [if_pos hmem] at herase ⊢
    rw [keys_insert_length]
    omega
  · rw [if_neg hmem] at herase ⊢
    rw [keys_insert_length]
    split
    · have hevict := keys_erase_length a.evict key
      rw [keys_evict, List.length_dropLast] at hevict
      omega
    · omega

end Recency

/-! ### Lookups after a step -/

namespace Recency

variable (a : Recency V) (key : String)

theorem lookup_erase_or (key' : String) :
    (a.erase key').lookup key = a.lookup key ∨ (a.erase key').lookup key = none := by
  by_cases hk : key = key'
  · rw [hk]
    exact Or.inr (AList.lookup_erase key' a)
  · exact Or.inl (AList.lookup_erase_ne hk)

theorem lookup_retain_or (keep : String → CacheEntry V → Bool) :
    (a.retain keep).lookup key = a.lookup key ∨ (a.retain keep).lookup key = none := by
  rw [lookup_retain]
  cases a.lookup key with
  | none => exact Or.inl rfl
  | some entry => by_cases hkeep : keep key entry = true <;> simp [Option.filter, hkeep]

theorem get_eq_some_iff {a : Recency V} {now : Time} {entry : CacheEntry V} :
    (a.get now key).2 = some entry ↔ ∃ stored, a.lookup key = some stored ∧
      stored.isExpired now = false ∧ entry = stored.registerHit := by
  unfold get
  cases a.lookup key with
  | none => simp
  | some stored =>
    by_cases hexpired : stored.isExpired now = true
    · simp [hexpired]
    · simp only [hexpired, Bool.false_eq_true, ↓reduceIte, Option.some.injEq, exists_eq_left',
        true_and]
      exact eq_comm

theorem lookup_get_self (now : Time) : (a.get now key).1.lookup key = (a.get now key).2 := by
  unfold get
  cases hl : a.lookup key with
  | none => exact hl
  | some stored =>
    simp only
    split
    · exact AList.lookup_erase key a
    · exact AList.lookup_insert a

theorem lookup_get_ne (now : Time) {key' : String} (hk : key ≠ key') :
    (a.get now key').1.lookup key = a.lookup key := by
  unfold get
  split
  · rfl
  · split
    · exact AList.lookup_erase_ne hk
    · exact AList.lookup_insert_ne hk

theorem lookup_store_self (maxEntries : ℕ) (entry : CacheEntry V) :
    (a.store maxEntries key entry).lookup key = some entry := by
  unfold store
  split <;> exact AList.lookup_insert _

theorem lookup_store_or (maxEntries : ℕ) (entry : CacheEntry V) {key' : String}
    (hk : key ≠ key') :
    (a.store maxEntries key' entry).lookup key = a.lookup key ∨
      (a.store maxEntries key' entry).lookup key = none := by
  unfold store
  split
  · exact Or.inl (AList.lookup_insert_ne hk)
  · rw [AList.lookup_insert_ne hk]
    split
    · rw [lookup_evict]
      split
      · exact Or.inr rfl
      · exact Or.inl rfl
    · exact Or.inl rfl

end Recency

/-! ### Views -/

structure MemoryView (V : Type) where
  recency : Recency V
  index : String → Option (List String)

namespace MemoryView

def empty : MemoryView V := ⟨∅, fun _ => none⟩

def indexTag (key : String) (index : String → Option (List String)) (tag : String) :
    String → Option (List String) :=
  let keys := (index tag).getD []
  Function.update index tag (some (if key ∈ keys then keys else keys ++ [key]))

def suppressed (now : Time) (key : String) (options : SetOptions) (v : MemoryView V) : Bool :=
  options.ifNotExists && (v.recency.lookup key).any fun entry => !entry.isExpired now

def store (config : Config) (key : String) (entry : CacheEntry V) (v : MemoryView V) :
    MemoryView V :=
  ⟨v.recency.store config.cacheMaxMemoryEntries key entry,
    entry.tags.foldl (indexTag key) v.index⟩

def newEntry (config : Config) (now : Time) (key : String) (value : V) (options : SetOptions) :
    CacheEntry V :=
  CacheEntry.create now key value (options.ttlOr (.ofNat config.cacheDefaultTtl))
    options.tagList options.metadataList

def set (config : Config) (clock : Clock) (key : String) (value : V) (options : SetOptions)
    (v : MemoryView V) : MemoryView V :=
  if v.suppressed (clock 0) key options then v
  else v.store config key (newEntry config (clock 1) key value options)

/-- Erase the keys indexed under a tag and forget the tag. -/
def deleteByTag (v : MemoryView V) (tag : String) : MemoryView V :=
  match v.index tag with
  | none => v
  | some keys => ⟨v.recency.retain fun key _ => key ∉ keys, Function.update v.index tag none⟩

def deleteByTags (tags : List String) (v : MemoryView V) : MemoryView V :=
  tags.foldl deleteByTag v

private theorem foldl_deleteByTag_index (tags : List String) (v : MemoryView V) (tag : String) :
    (tags.foldl deleteByTag v).index tag = if tag ∈ tags then none else v.index tag := by
  induction tags generalizing v with
  | nil => rfl
  | cons tag' rest ih =>
    have hfirst : (v.deleteByTag tag').index tag = if tag = tag' then none else v.index tag := by
      unfold deleteByTag
      cases hv : v.index tag' with
      | none =>
        by_cases htag : tag = tag'
        · simp [htag, hv]
        · simp [htag]
      | some keys =>
        by_cases htag : tag = tag'
        · simp [htag]
        · simp [htag]
    rw [List.foldl_cons, ih, hfirst]
    by_cases htag : tag = tag' <;> simp [htag]

theorem index_deleteByTags (tags : List String) (v : MemoryView V) (tag : String) :
    (v.deleteByTags tags).index tag = if tag ∈ tags then none else v.index tag :=
  foldl_deleteByTag_index tags v tag

/-- The keys indexed under a tag, none when the index lacks it. -/
def keysOf (v : MemoryView V) (tag : String) : List String := (v.index tag).getD []

theorem mem_keysOf (v : MemoryView V) (tag key : String) :
    key ∈ v.keysOf tag ↔ ∃ keys, v.index tag = some keys ∧ key ∈ keys := by
  unfold keysOf
  cases v.index tag <;> simp

private theorem lookup_deleteByTag (v : MemoryView V) (tag key : String) :
    (v.deleteByTag tag).recency.lookup key =
      if key ∈ v.keysOf tag then none else v.recency.lookup key := by
  unfold deleteByTag keysOf
  cases v.index tag with
  | none => simp
  | some keys =>
    rw [Recency.lookup_retain]
    cases v.recency.lookup key with
    | none => simp
    | some entry => by_cases hkey : key ∈ keys <;> simp [Option.filter, hkey]

theorem lookup_deleteByTags (tags : List String) (v : MemoryView V) (key : String) :
    (v.deleteByTags tags).recency.lookup key =
      if ∃ tag ∈ tags, key ∈ v.keysOf tag then none else v.recency.lookup key := by
  unfold deleteByTags
  induction tags generalizing v with
  | nil => simp
  | cons tag rest ih =>
    have hkeysOf : ∀ tag', (v.deleteByTag tag).keysOf tag' =
        if tag' = tag then [] else v.keysOf tag' := by
      intro tag'
      have hindex := foldl_deleteByTag_index [tag] v tag'
      rw [List.foldl_cons, List.foldl_nil] at hindex
      rw [keysOf, hindex]
      by_cases htag : tag' = tag
      · simp [htag]
      · simp [htag, keysOf]
    rw [List.foldl_cons, ih, lookup_deleteByTag]
    by_cases hkey : key ∈ v.keysOf tag
    · simp [hkey]
    · have hiff : (∃ tag' ∈ rest, key ∈ (v.deleteByTag tag).keysOf tag') ↔
          ∃ tag' ∈ tag :: rest, key ∈ v.keysOf tag' := by
        constructor
        · intro hany
          obtain ⟨tag', hmem, hin⟩ := hany
          rw [hkeysOf] at hin
          split at hin
          · simp at hin
          · exact ⟨tag', List.mem_cons_of_mem tag hmem, hin⟩
        · intro hany
          obtain ⟨tag', hmem, hin⟩ := hany
          have hne : tag' ≠ tag := by
            intro heq
            subst heq
            exact hkey hin
          refine ⟨tag', (List.mem_cons.mp hmem).resolve_left hne, ?_⟩
          rwa [hkeysOf, if_neg hne]
      simp only [hiff, hkey, ↓reduceIte]

theorem lookup_deleteByTags_or (tags : List String) (v : MemoryView V) (key : String) :
    (v.deleteByTags tags).recency.lookup key = v.recency.lookup key ∨
      (v.deleteByTags tags).recency.lookup key = none := by
  rw [lookup_deleteByTags]
  split
  · exact Or.inr rfl
  · exact Or.inl rfl

theorem mem_indexTags (key : String) (tags : List String) (index : String → Option (List String))
    (tag key' : String) :
    key' ∈ ((tags.foldl (indexTag key) index) tag).getD [] ↔
      key' ∈ (index tag).getD [] ∨ key' = key ∧ tag ∈ tags := by
  induction tags generalizing index with
  | nil => simp
  | cons tag' rest ih =>
    rw [List.foldl_cons, ih, indexTag]
    by_cases htag : tag = tag'
    · subst htag
      simp only [Function.update_self, Option.getD_some, List.mem_cons, true_or, and_true]
      by_cases hmem : key ∈ (index tag).getD []
      · simp only [hmem, ↓reduceIte]
        constructor
        · intro hor
          rcases hor with h | h
          · exact Or.inl h
          · exact Or.inr h.1
        · intro hor
          rcases hor with h | rfl
          · exact Or.inl h
          · exact Or.inl hmem
      · simp only [hmem, ↓reduceIte, List.mem_append, List.mem_singleton]
        constructor
        · intro hor
          rcases hor with (h | h) | h
          · exact Or.inl h
          · exact Or.inr h
          · exact Or.inr h.1
        · intro hor
          rcases hor with h | h
          · exact Or.inl (Or.inl h)
          · exact Or.inl (Or.inr h)
    · simp [htag]

def retain (keep : String → CacheEntry V → Bool) (v : MemoryView V) : MemoryView V :=
  { v with recency := v.recency.retain keep }

def deleteByPattern (regExp : RegExp) (pattern : String) (v : MemoryView V) : MemoryView V :=
  (regExp (globSource pattern)).elim v fun test => v.retain fun key _ => !test key

/-- What a call that makes no other calls does to the view. -/
inductive Step (config : Config) (regExp : RegExp) : MemoryView V → Event V → MemoryView V → Prop
  | get (v key clock) :
      Step config regExp v ⟨.get key, clock⟩ { v with recency := (v.recency.get (clock 0) key).1 }
  | set (v key value options clock) :
      Step config regExp v ⟨.set key value options, clock⟩ (v.set config clock key value options)
  | delete (v key clock) :
      Step config regExp v ⟨.delete key, clock⟩ { v with recency := v.recency.erase key }
  | deleteByTags (v tags clock) :
      Step config regExp v ⟨.deleteByTags tags, clock⟩ (v.deleteByTags tags)
  | deleteByPattern (v pattern clock) :
      Step config regExp v ⟨.deleteByPattern pattern, clock⟩ (v.deleteByPattern regExp pattern)
  | exists_ (v key clock) :
      Step config regExp v ⟨.exists_ key, clock⟩
        { v with recency := v.recency.dropIf (fun _ entry => entry.isExpired (clock 0)) key }
  | getStats (v memoryUsageMb clock) : Step config regExp v ⟨.getStats memoryUsageMb, clock⟩ v
  | flush (v clock) : Step config regExp v ⟨.flush, clock⟩ empty
  | keys (v pattern clock) : Step config regExp v ⟨.keys pattern, clock⟩ v
  | sweep (v) (clock : Clock) (readings : String → Time)
      (hreadings : ∀ key, ∃ i, readings key = clock i) :
      Step config regExp v ⟨.sweep, clock⟩
        (v.retain fun key entry => !entry.isExpired (readings key))

end MemoryView

end EdgeCache
