import EdgeCache.MemoryListing
import EdgeCache.UseCases

/-!
The memory tier under bodies of requests. Nobody checks what a body sends for tags and metadata:
the tier takes any JSON value for them, `for ... of` throws of what it cannot go through, and that
is after the entry has been stored. The typed record of an entry keeps value, tags and metadata
together as what was sent; its own fields for tags and metadata stay empty, and so does the index
of the typed tier.
-/
namespace EdgeCache

open LinkedList (Visits)

variable {V : Type}

/-! ### The front of the list -/

theorem Recency.store_eq_self_iff {maxEntries : ℕ} {key : String} {entry : CacheEntry V}
    {a : Recency V} :
    a.store maxEntries key entry = a ↔ ∃ rest, a.entries = ⟨key, entry⟩ :: rest := by
  constructor
  · intro h
    have hinsert : ∃ b : Recency V, a.store maxEntries key entry = b.insert key entry := by
      unfold Recency.store
      split
      · exact ⟨a, rfl⟩
      · exact ⟨_, rfl⟩
    obtain ⟨b, hb⟩ := hinsert
    exact ⟨b.entries.kerase key, by rw [← AList.entries_insert, ← hb, h]⟩
  · intro h
    obtain ⟨rest, hrest⟩ := h
    have hmem : key ∈ a := by
      rw [AList.mem_keys, AList.keys, hrest]
      exact List.mem_cons_self
    rw [Recency.store, if_pos hmem]
    apply AList.ext
    have hrest' : List.kerase key (⟨key, entry⟩ :: rest) = rest := List.kerase_cons_eq rfl
    rw [AList.entries_insert, hrest, hrest']

namespace MemoryCacheRepository

theorem Entries.unique {s : MemoryCacheRepository V} {a b : List (Σ _ : String, CacheEntry V)}
    (ha : s.Entries a) (hb : s.Entries b) : a = b := by
  obtain ⟨l, hvisits, hitems⟩ := ha
  obtain ⟨l', hvisits', hitems'⟩ := hb
  obtain rfl := hvisits.unique hvisits'
  exact List.map_injective_iff.mpr (Option.some_injective _) (hitems.symm.trans hitems')

theorem Shows.entries_iff {config : Config} {s : MemoryCacheRepository V} {v : MemoryView V}
    (h : Shows config s v) {entries : List (Σ _ : String, CacheEntry V)} :
    s.Entries entries ↔ v.recency.entries = entries :=
  ⟨fun hentries => h.entries.unique hentries, fun heq => heq ▸ h.entries⟩

theorem map_store_of_get {s : MemoryCacheRepository V} {key : String} {node : LinkedList.Ref}
    (entry : CacheEntry V) (h : s.map.get key = some node) :
    (s.store key entry).map = s.map := by
  have hentry : SameRest s (s.setEntry node entry) := rfl
  rw [store, h]
  exact (hentry.trans (sameRest_moveToFront (s.setEntry node entry) node)).map_eq

theorem stats_insertNode (s : MemoryCacheRepository V) (key : String) (entry : CacheEntry V) :
    (s.insertNode key entry).stats = s.stats :=
  (sameRest_linkFront (s.allocate key entry) s.nodes.length).stats_eq

theorem stats_evictLRU (s : MemoryCacheRepository V) : s.evictLRU.stats = s.stats := by
  unfold evictLRU
  cases s.tail with
  | none => rfl
  | some node =>
    cases hn : s.nodes[node]? with
    | none => simp only [hn]
    | some n =>
      simp only [hn]
      exact (sameRest_removeNode s node).stats_eq

theorem stats_store (s : MemoryCacheRepository V) (key : String) (entry : CacheEntry V) :
    (s.store key entry).stats = s.stats := by
  unfold store
  cases s.map.get key with
  | none =>
    refine (stats_insertNode _ key entry).trans ?_
    split
    · exact stats_evictLRU s
    · rfl
  | some node =>
    have hentry : SameRest s (s.setEntry node entry) := rfl
    exact (hentry.trans (sameRest_moveToFront (s.setEntry node entry) node)).stats_eq

end MemoryCacheRepository

/-! ### Values of any type -/

namespace Json

/-- What `for (const item of json)` and `[...json]` go through: the code points of a string, the
items of an array. Of anything else they throw. -/
def iterate : Json → Option (List Json)
  | .string s => some (s.toList.map fun c => .string c.toString)
  | .array items => some items
  | _ => none

/-- `json ?? fallback`, where a missing field is `none`. -/
def orElse (json : Option Json) (fallback : Json) : Json :=
  match json with
  | none | some .null => fallback
  | some json => json

def units (c : Char) : List ℕ :=
  let n := c.toNat
  if n < 0x10000 then [n]
  else [0xD800 + (n - 0x10000) / 0x400, 0xDC00 + (n - 0x10000) % 0x400]

/-- The value of a property: JSON, or one unit of a string. -/
inductive Property where
  | json (value : Json)
  | unit (n : ℕ)

/-- `{ ...json }`, which throws of nothing. -/
def spread : Json → List (String × Property)
  | .object fields => fields.map fun field => (field.1, .json field.2)
  | .array items => items.mapIdx fun i item => (toString i, .json item)
  | .string s => (s.toList.flatMap units).mapIdx fun i n => (toString i, .unit n)
  | _ => []

end Json

/-- A key of the tag index, as a `Map` compares keys: objects are equal to themselves alone. -/
inductive Tag where
  | null
  | bool (b : Bool)
  | number (x : JsNumber)
  | string (s : String)
  | object (ref : ℕ)
  deriving DecidableEq

def Tag.ofJson (ref : ℕ) : Json → Tag
  | .null => .null
  | .bool b => .bool b
  | .number x _ => .number x
  | .string s => .string s
  | .array _ | .object _ => .object ref

/-- The items of a parsed body as tags; what is an object there is numbered from `ref` on. -/
def tagsOf (ref : ℕ) (items : List Json) : List Tag :=
  items.mapIdx fun i item => Tag.ofJson (ref + i) item

/-- What a body sends, with the defaults for missing tags and metadata. -/
structure Sent where
  value : Json
  tags : Json
  metadata : Json

/-- What the getters `value`, `tags` and `metadata` return. -/
structure Getters where
  value : Json
  tags : List Json
  metadata : List (String × Json.Property)

/-- `none` when a getter throws. -/
def Sent.read (sent : Sent) : Option Getters :=
  sent.tags.iterate.map fun tags => ⟨sent.value, tags, sent.metadata.spread⟩

/-- A request to set an entry. A missing field is `none`. -/
structure SetCacheBody where
  value : Option Json
  ttl : Option Json
  tags : Option Json
  metadata : Option Json
  ifNotExists : Option Json

/-- What the controller hands to the use case. -/
def SetCacheBody.toInput (key : String) (body : SetCacheBody) : SetCacheInput Sent where
  key := key
  value := body.value.map fun value =>
    ⟨value, Json.orElse body.tags (.array []), Json.orElse body.metadata (.object [])⟩
  ttl := body.ttl
  tags := none
  metadata := none
  ifNotExists := body.ifNotExists.any Json.isTruthy

/-! ### The tier -/

structure UntypedRepository where
  lru : MemoryCacheRepository Sent
  tagIndex : SlotMap Tag KeySet

namespace UntypedRepository

def new (config : Config) : UntypedRepository := ⟨.new config, .empty⟩

def countError (s : UntypedRepository) : UntypedRepository :=
  { s with lru := { s.lru with
      stats := { s.lru.stats with errors := s.lru.stats.errors + 1 } } }

/-- `this.tagIndex.get(tag)!.add(key)`, with a new set for a new tag. -/
def indexTag (key : String) (index : SlotMap Tag KeySet) (tag : Tag) : SlotMap Tag KeySet :=
  let index := if index.has tag then index else index.set tag .empty
  match index.get tag with
  | none => index
  | some keys => index.set tag (keys.set key ())

/-- The entry is in its place when the loop over the tags begins. -/
def set (clock : Clock) (ref : ℕ) (key : String) (sent : Sent) (options : SetOptions)
    (s : UntypedRepository) : UntypedRepository :=
  if s.lru.suppressed clock key options then s
  else
    let entry := CacheEntry.create (clock 1) key sent (options.ttlOr s.lru.defaultTtl) [] []
    let s := { s with lru := s.lru.store key entry }
    match sent.tags.iterate with
    | none => s.countError
    | some items =>
      ⟨s.lru.countSet, (tagsOf ref items).foldl (indexTag key) s.tagIndex⟩

/-- The loop over the keys of one tag, followed by dropping the tag. -/
def deleteByTag (state : UntypedRepository × ℕ) (tag : Tag) : UntypedRepository × ℕ :=
  match state.1.tagIndex.get tag with
  | none => state
  | some keys =>
    let (lru, count) := keys.keys.foldl MemoryCacheRepository.deleteCounting (state.1.lru, state.2)
    (⟨lru, state.1.tagIndex.delete tag⟩, count)

/-- `none` when the loop throws: there is no handler here. -/
def deleteByTags (ref : ℕ) (tags : Json) (s : UntypedRepository) :
    UntypedRepository × Option ℕ :=
  match tags.iterate with
  | none => (s, none)
  | some items =>
    let (s, count) := (tagsOf ref items).foldl deleteByTag (s, 0)
    (s, some count)

def flush (s : UntypedRepository) : UntypedRepository := ⟨s.lru.flush, s.tagIndex.clear⟩

/-- The calls that change something; `mget` and `mset` are the single calls they make. -/
inductive Call where
  | get (key : String)
  | set (ref : ℕ) (key : String) (sent : Sent) (options : SetOptions)
  | delete (key : String)
  | deleteByTags (ref : ℕ) (tags : Json)
  | deleteByPattern (pattern : String)
  | exists_ (key : String)
  | flush
  | sweep

/-- A call with the readings of the clock it makes. -/
structure Event where
  call : Call
  clock : Clock

def step (regExp : RegExp) (s : UntypedRepository) (e : Event) : UntypedRepository :=
  match e.call with
  | .get key => { s with lru := (s.lru.get e.clock key).1 }
  | .set ref key sent options => s.set e.clock ref key sent options
  | .delete key => { s with lru := (s.lru.delete key).1 }
  | .deleteByTags ref tags => (s.deleteByTags ref tags).1
  | .deleteByPattern pattern => { s with lru := (s.lru.deleteByPattern regExp pattern).1 }
  | .exists_ key => { s with lru := (s.lru.exists_ e.clock key).1 }
  | .flush => s.flush
  | .sweep => { s with lru := s.lru.sweep e.clock }

/-- The state after calls made one after another on a fresh repository. -/
def reach (config : Config) (regExp : RegExp) (events : List Event) : UntypedRepository :=
  Runs.run (step regExp) (new config) events

/-- The tier as the use cases see it; the objects of a body are numbered from `ref` on. -/
def repository (ref : ℕ) : ICacheRepository UntypedRepository Clock Sent where
  get := fun clock key s => ({ s with lru := (s.lru.get clock key).1 }, (s.lru.get clock key).2)
  set := fun clock key sent options s => s.set clock ref key sent options
  delete := fun _ key s => ({ s with lru := (s.lru.delete key).1 }, (s.lru.delete key).2)
  flush := fun _ s => s.flush

/-! ### What the typed tier knows -/

section Shows

open MemoryCacheRepository (Shows)

variable {config : Config} {s : UntypedRepository} {v : MemoryView Sent}

theorem shows_set (hs : Shows config s.lru v) (clock : Clock) (ref : ℕ) (key : String)
    (sent : Sent) (options : SetOptions) :
    ∃ v', Shows config (s.set clock ref key sent options).lru v' := by
  unfold set
  split
  · exact ⟨v, hs⟩
  · have hstore := hs.store key
      (.create (clock 1) key sent (options.ttlOr s.lru.defaultTtl) [] [])
    cases sent.tags.iterate with
    | none => exact ⟨_, hstore.count _⟩
    | some items => exact ⟨_, hstore.count _⟩

theorem shows_deleteCounting (keys : List String) {state : MemoryCacheRepository Sent × ℕ}
    (hs : Shows config state.1 v) :
    ∃ v', Shows config (keys.foldl MemoryCacheRepository.deleteCounting state).1 v' := by
  induction keys generalizing state v with
  | nil => exact ⟨v, hs⟩
  | cons key rest ih => exact ih (hs.deleteCounting key).1

theorem shows_deleteByTag {state : UntypedRepository × ℕ} (hs : Shows config state.1.lru v)
    (tag : Tag) : ∃ v', Shows config (deleteByTag state tag).1.lru v' := by
  unfold deleteByTag
  cases state.1.tagIndex.get tag with
  | none => exact ⟨v, hs⟩
  | some keys =>
    have hstart : Shows config ((state.1.lru, state.2) : MemoryCacheRepository Sent × ℕ).1 v := hs
    exact shows_deleteCounting keys.keys hstart

theorem shows_deleteTags (tags : List Tag) {state : UntypedRepository × ℕ}
    (hs : Shows config state.1.lru v) :
    ∃ v', Shows config (tags.foldl deleteByTag state).1.lru v' := by
  induction tags generalizing state v with
  | nil => exact ⟨v, hs⟩
  | cons tag rest ih =>
    obtain ⟨v', hv'⟩ := shows_deleteByTag hs tag
    exact ih hv'

theorem shows_deleteByTags (hs : Shows config s.lru v) (ref : ℕ) (tags : Json) :
    ∃ v', Shows config (s.deleteByTags ref tags).1.lru v' := by
  unfold deleteByTags
  cases tags.iterate with
  | none => exact ⟨v, hs⟩
  | some items =>
    have hstart : Shows config ((s, 0) : UntypedRepository × ℕ).1.lru v := hs
    exact shows_deleteTags (tagsOf ref items) hstart

theorem shows_step (hs : Shows config s.lru v) (regExp : RegExp) (e : Event) :
    ∃ v', Shows config (s.step regExp e).lru v' := by
  obtain ⟨call, clock⟩ := e
  cases call with
  | get key => exact ⟨_, (hs.get clock key).1⟩
  | set ref key sent options => exact shows_set hs clock ref key sent options
  | delete key => exact ⟨_, (hs.delete key).1⟩
  | deleteByTags ref tags => exact shows_deleteByTags hs ref tags
  | deleteByPattern pattern => exact ⟨_, (hs.deleteByPattern regExp pattern).1⟩
  | exists_ key => exact ⟨_, (hs.exists_ clock key).1⟩
  | flush => exact ⟨_, hs.flush⟩
  | sweep => exact ⟨_, hs.sweep clock⟩

theorem shows_reach (config : Config) (regExp : RegExp) (events : List Event) :
    ∃ v, Shows config (reach config regExp events).lru v :=
  Runs.run_invariant (I := fun s : UntypedRepository => ∃ v, Shows config s.lru v)
    (fun _ e ⟨_, hs⟩ => shows_step hs regExp e) ⟨_, Shows.new config⟩ events

end Shows

/-! ### All or nothing -/

/-- The set of the tag has the key. -/
def Tagged (index : SlotMap Tag KeySet) (tag : Tag) (key : String) : Prop :=
  ∃ keys, index.get tag = some keys ∧ keys.has key = true

/-- Map, list order, tag index and every entry are as they were. -/
structure Unchanged (s s' : UntypedRepository) : Prop where
  map : s'.lru.map = s.lru.map
  list : ∀ entries, s'.lru.Entries entries ↔ s.lru.Entries entries
  entryAt : ∀ key, s'.lru.entryAt key = s.lru.entryAt key
  tagIndex : s'.tagIndex = s.tagIndex

/-- What was sent is stored and served, every getter returns, and the key is indexed under each
tag. -/
structure Stored (ref : ℕ) (key : String) (sent : Sent) (s' : UntypedRepository) : Prop where
  served : ∃ entry, s'.lru.entryAt key = some entry ∧ entry.value = sent ∧
    ∀ clock : Clock, entry.isExpired (clock 0) = false →
      (s'.lru.get clock key).2 = some entry.registerHit
  readable : ∃ items, sent.read = some ⟨sent.value, items, sent.metadata.spread⟩ ∧
    ∀ tag ∈ tagsOf ref items, Tagged s'.tagIndex tag key

def AllOrNothing (ref : ℕ) (key : String) (sent : Sent) (s s' : UntypedRepository) : Prop :=
  (s'.lru.stats.errors = s.lru.stats.errors + 1 → Unchanged s s') ∧
    (s'.lru.stats.errors ≠ s.lru.stats.errors + 1 → Stored ref key sent s')

theorem get_indexTag (key : String) (index : SlotMap Tag KeySet) (tag tag' : Tag) :
    (indexTag key index tag).get tag' =
      if tag' = tag then some (((index.get tag).getD .empty).set key ()) else index.get tag' := by
  unfold indexTag
  cases hget : index.get tag with
  | some keys =>
    simp only [SlotMap.has, hget, Option.isSome_some, ↓reduceIte, SlotMap.get_set,
      Option.getD_some]
  | none =>
    simp only [SlotMap.has, hget, Option.isSome_none, Bool.false_eq_true, ↓reduceIte,
      SlotMap.get_set, Option.getD_none]
    by_cases htag : tag' = tag <;> simp [htag]

theorem Tagged.indexTag {index : SlotMap Tag KeySet} {tag : Tag} {key : String}
    (h : Tagged index tag key) (tag' : Tag) : Tagged (indexTag key index tag') tag key := by
  obtain ⟨keys, hget, hkey⟩ := h
  unfold Tagged
  rw [get_indexTag]
  split
  · next htag =>
    subst htag
    rw [hget]
    exact ⟨_, rfl, by simp [SlotMap.has, SlotMap.get_set]⟩
  · exact ⟨keys, hget, hkey⟩

theorem tagged_indexTag (index : SlotMap Tag KeySet) (tag : Tag) (key : String) :
    Tagged (indexTag key index tag) tag key := by
  refine ⟨_, (get_indexTag key index tag tag).trans (if_pos rfl), ?_⟩
  simp [SlotMap.has, SlotMap.get_set]

theorem Tagged.indexTags {index : SlotMap Tag KeySet} {tag : Tag} {key : String}
    (h : Tagged index tag key) (tags : List Tag) :
    Tagged (tags.foldl (UntypedRepository.indexTag key) index) tag key := by
  induction tags generalizing index with
  | nil => exact h
  | cons tag' rest ih => exact ih (h.indexTag tag')

theorem tagged_indexTags (key : String) (tags : List Tag) (index : SlotMap Tag KeySet) :
    ∀ tag ∈ tags, Tagged (tags.foldl (indexTag key) index) tag key := by
  induction tags generalizing index with
  | nil => exact fun tag htag => absurd htag List.not_mem_nil
  | cons tag' rest ih =>
    intro tag htag
    rcases List.mem_cons.mp htag with rfl | htag
    · exact (tagged_indexTag index tag key).indexTags rest
    · exact ih _ tag htag

section Set

open MemoryCacheRepository (Shows)

variable {config : Config} {s : UntypedRepository} {v : MemoryView Sent} {clock : Clock}
  {key : String} {options : SetOptions} {sent : Sent}

/-- The entry of a call. -/
def newEntry (s : UntypedRepository) (clock : Clock) (key : String) (sent : Sent)
    (options : SetOptions) : CacheEntry Sent :=
  .create (clock 1) key sent (options.ttlOr s.lru.defaultTtl) [] []

theorem set_of_iterate {items : List Json} (hnew : s.lru.suppressed clock key options = false)
    (hitems : sent.tags.iterate = some items) (ref : ℕ) :
    s.set clock ref key sent options =
      ⟨(s.lru.store key (s.newEntry clock key sent options)).countSet,
        (tagsOf ref items).foldl (indexTag key) s.tagIndex⟩ := by
  simp only [set, hnew, Bool.false_eq_true, ↓reduceIte, hitems]
  rfl

theorem set_of_not_iterate (hnew : s.lru.suppressed clock key options = false)
    (hitems : sent.tags.iterate = none) (ref : ℕ) :
    s.set clock ref key sent options = countError
      { s with lru := s.lru.store key (s.newEntry clock key sent options) } := by
  simp only [set, hnew, Bool.false_eq_true, ↓reduceIte, hitems]
  rfl

theorem stored_of_iterate (hs : Shows config s.lru v) {items : List Json}
    (hnew : s.lru.suppressed clock key options = false) (hitems : sent.tags.iterate = some items)
    (ref : ℕ) : Stored ref key sent (s.set clock ref key sent options) := by
  rw [set_of_iterate hnew hitems]
  have hstore := (hs.store key (s.newEntry clock key sent options)).count
    (s.lru.store key (s.newEntry clock key sent options)).countSet.stats
  constructor
  · have hentry := (hstore.entryAt_eq key).trans
      (Recency.lookup_store_self v.recency key config.cacheMaxMemoryEntries _)
    exact ⟨_, hentry, rfl, fun clock hfresh => 
      MemoryCacheRepository.get_of_fresh hstore hentry hfresh⟩
  · refine ⟨items, ?_, tagged_indexTags key (tagsOf ref items) s.tagIndex⟩
    rw [Sent.read, hitems, Option.map_some]

theorem unchanged_iff (hs : Shows config s.lru v)
    (hnew : s.lru.suppressed clock key options = false) (hitems : sent.tags.iterate = none)
    (ref : ℕ) : Unchanged s (s.set clock ref key sent options) ↔
      ∃ rest, s.lru.Entries (⟨key, s.newEntry clock key sent options⟩ :: rest) := by
  rw [set_of_not_iterate hnew hitems]
  set entry := s.newEntry clock key sent options
  have hstore := hs.store key entry
  have hfront : (∃ rest, s.lru.Entries (⟨key, entry⟩ :: rest)) ↔
      v.recency.store config.cacheMaxMemoryEntries key entry = v.recency := by
    rw [Recency.store_eq_self_iff]
    exact exists_congr fun rest => hs.entries_iff
  rw [hfront]
  constructor
  · intro h
    have hentries := (h.list _).mp hstore.entries
    exact AList.ext (hs.entries_iff.mp hentries).symm
  · intro h
    rw [h] at hstore
    refine ⟨?_, fun entries => ?_, fun key' => ?_, rfl⟩
    · have hlookup : v.recency.lookup key = some entry := by
        rw [← h, Recency.lookup_store_self]
      obtain ⟨l, hl⟩ := hs.list
      obtain ⟨node, hnode, -⟩ := hl.get_of_lookup hlookup
      exact MemoryCacheRepository.map_store_of_get entry hnode
    · exact hstore.entries_iff.trans hs.entries_iff.symm
    · exact (hstore.entryAt_eq key').trans (hs.entryAt_eq key').symm

/-- A set that is not suppressed is all or nothing if and only if the loop over the tags goes
through, or the call finds its own entry at the front. -/
theorem allOrNothing_set_iff (hs : Shows config s.lru v)
    (hnew : s.lru.suppressed clock key options = false) (ref : ℕ) :
    AllOrNothing ref key sent s (s.set clock ref key sent options) ↔
      sent.tags.iterate.isSome = true ∨
        ∃ rest, s.lru.Entries (⟨key, s.newEntry clock key sent options⟩ :: rest) := by
  have hstats := MemoryCacheRepository.stats_store s.lru key (s.newEntry clock key sent options)
  cases hitems : sent.tags.iterate with
  | some items =>
    refine iff_of_true ⟨fun herror => ?_, fun _ => stored_of_iterate hs hnew hitems ref⟩
      (Or.inl rfl)
    rw [set_of_iterate hnew hitems] at herror
    simp only [MemoryCacheRepository.countSet, hstats] at herror
    omega
  | none =>
    have herror : (s.set clock ref key sent options).lru.stats.errors =
        s.lru.stats.errors + 1 := by
      rw [set_of_not_iterate hnew hitems]
      simp only [countError, hstats]
    rw [← unchanged_iff hs hnew hitems ref]
    simp [AllOrNothing, herror]

/-- For every request that the checks let through: suppressed, it changes nothing; otherwise it is
all or nothing if and only if its tags can be gone through, or its entry is at the front already,
as the same request has left it there within the millisecond. -/
theorem execute_allOrNothing_iff (config : Config) (regExp : RegExp) (events : List Event)
    (clock : Clock) (now : Time) (ref : ℕ) {key : String} {body : SetCacheBody} {sent : Sent}
    {ttl : Option JsNumber} {cacheKey : CacheKey}
    (hvalid : SetCacheUseCase.validate (body.toInput key) = .ok (sent, ttl))
    (hkey : CacheKey.fromRaw key = .ok cacheKey) :
    let s := reach config regExp events
    let options := SetCacheUseCase.options config (body.toInput key) ttl
    let s' := (SetCacheUseCase.execute (repository ref) config clock now (body.toInput key) s).1
    (s.lru.suppressed clock cacheKey.value options = true → s' = s) ∧
      (s.lru.suppressed clock cacheKey.value options = false →
        (AllOrNothing ref cacheKey.value sent s s' ↔ sent.tags.iterate.isSome = true ∨
          ∃ rest, s.lru.Entries
            (⟨cacheKey.value, s.newEntry clock cacheKey.value sent options⟩ :: rest))) := by
  intro s options s'
  have hs' : s' = s.set clock ref cacheKey.value sent options := by
    have hkey' : CacheKey.fromRaw (body.toInput key).key = .ok cacheKey := hkey
    simp only [s', SetCacheUseCase.execute, hvalid, hkey']
    rfl
  obtain ⟨v, hs⟩ := shows_reach config regExp events
  rw [hs']
  constructor
  · intro hsuppressed
    rw [set, if_pos hsuppressed]
  · exact fun hnew => allOrNothing_set_iff hs hnew ref

/-- Tags of any kind of item will do: here a string and an object. -/
theorem allOrNothing_execute_of_items :
    let config : Config := ⟨1, 60, by decide, by decide⟩
    let body : SetCacheBody :=
      ⟨some .null, none, some (.array [.string "t", .object []]), some (.string "m"), none⟩
    AllOrNothing 0 "a" ⟨.null, .array [.string "t", .object []], .string "m"⟩ (new config)
      (SetCacheUseCase.execute (repository 0) config (fun _ => ⟨1000, by decide⟩)
        ⟨1000, by decide⟩ (body.toInput "a") (new config)).1 := by
  intro config body
  have hvalid : SetCacheUseCase.validate (SetCacheBody.toInput "a"
      ⟨some .null, none, some (.array [.string "t", .object []]), some (.string "m"), none⟩) =
      .ok (⟨.null, .array [.string "t", .object []], .string "m"⟩, none) := rfl
  have hkey : CacheKey.fromRaw "a" = .ok ⟨"a"⟩ := rfl
  have hiff := (execute_allOrNothing_iff config (fun _ => none) [] (fun _ => ⟨1000, by decide⟩)
    ⟨1000, by decide⟩ 0 hvalid hkey).2 (by decide +kernel)
  exact hiff.mpr (Or.inl rfl)

/-- The first tier has room for one entry. A body with a number for its tags takes the room of
another entry, is stored, and is then counted as an error. -/
theorem not_allOrNothing_execute_of_number :
    ¬ ∀ (events : List Event) (clock : Clock) (now : Time) (ref : ℕ) (key : String)
        (body : SetCacheBody) (sent : Sent) (ttl : Option JsNumber) (cacheKey : CacheKey),
      SetCacheUseCase.validate (body.toInput key) = .ok (sent, ttl) →
      CacheKey.fromRaw key = .ok cacheKey →
      (reach ⟨1, 60, by decide, by decide⟩ (fun _ => none) events).lru.suppressed clock
        cacheKey.value (SetCacheUseCase.options ⟨1, 60, by decide, by decide⟩
          (body.toInput key) ttl) = false →
      AllOrNothing ref cacheKey.value sent
        (reach ⟨1, 60, by decide, by decide⟩ (fun _ => none) events)
        (SetCacheUseCase.execute (repository ref) ⟨1, 60, by decide, by decide⟩ clock now
          (body.toInput key) (reach ⟨1, 60, by decide, by decide⟩ (fun _ => none) events)).1 := by
  intro hall
  have h := hall
    [⟨.set 0 "b" ⟨.null, .array [], .object []⟩ (.ofTtl 60), fun _ => ⟨1000, by decide⟩⟩]
    (fun _ => ⟨1000, by decide⟩) ⟨1000, by decide⟩ 0 "a"
    ⟨some .null, none, some (.number (.finite 5) "5"), none, none⟩
    ⟨.null, .number (.finite 5) "5", .object []⟩ none ⟨"a"⟩ rfl rfl (by decide +kernel)
  have hentry := congrArg Option.isSome ((h.1 (by decide +kernel)).entryAt "b")
  revert hentry
  decide +kernel

end Set

end UntypedRepository

end EdgeCache
