import EdgeCache.CacheEntry
import EdgeCache.HitRate
import EdgeCache.Library.LinkedList
import EdgeCache.Library.Runs
import EdgeCache.Library.SlotMap

/-!
`MemoryCacheRepository`: the in-memory LRU tier. Its objects live in a heap: the
`LRUNode`s, linked by hand through `prev` and `next`, and the `Set`s of the tag
index. A reference is an address in the heap, so two tags or two running calls can
share one set as they do in JavaScript. Each method is a function on the whole
state; one that reads the clock takes its successive readings. Nothing a typed call
does throws, so the handlers that count errors are not entered.
-/
namespace EdgeCache

open LinkedList (Ref)

/-- `new RegExp(source)`: the test it compiles to, or `none` when it throws. -/
abbrev RegExp := String → Option (String → Bool)

/-- `pattern.replace(/\*/g, '.*').replace(/\?/g, '.')` -/
def globSource (pattern : String) : String :=
  (pattern.replace "*" ".*").replace "?" "."

structure LRUNode (V : Type) where
  key : String
  entry : CacheEntry V
  prev : Option Ref
  next : Option Ref

/-- Counters are exact: none of them gets to `2 ^ 53`. -/
structure Stats where
  hits : ℕ
  misses : ℕ
  sets : ℕ
  deletes : ℕ
  errors : ℕ
  deriving DecidableEq

/-- The address of a `Set` of the tag index. -/
abbrev SetRef := ℕ

abbrev KeySet := SlotMap String Unit

structure MemoryCacheRepository (V : Type) where
  map : SlotMap String Ref
  tagIndex : SlotMap String SetRef
  head : Option Ref
  tail : Option Ref
  maxEntries : ℕ
  defaultTtl : JsNumber
  stats : Stats
  nodes : List (LRUNode V)
  sets : List KeySet
  /-- The keys in the `LRU eviction` lines of the log. -/
  evictions : List String

namespace MemoryCacheRepository

variable {V : Type}

def new (config : Config) : MemoryCacheRepository V where
  map := SlotMap.empty
  tagIndex := SlotMap.empty
  head := none
  tail := none
  maxEntries := config.cacheMaxMemoryEntries
  defaultTtl := .ofNat config.cacheDefaultTtl
  stats := ⟨0, 0, 0, 0, 0⟩
  nodes := []
  sets := []
  evictions := []

/-! ### Heap access -/

def nextOf (s : MemoryCacheRepository V) (node : Ref) : Option Ref :=
  s.nodes[node]?.bind (·.next)

def prevOf (s : MemoryCacheRepository V) (node : Ref) : Option Ref :=
  s.nodes[node]?.bind (·.prev)

def setNext (s : MemoryCacheRepository V) (node : Ref) (next : Option Ref) :
    MemoryCacheRepository V :=
  { s with nodes := s.nodes.modify node fun n => { n with next := next } }

def setPrev (s : MemoryCacheRepository V) (node : Ref) (prev : Option Ref) :
    MemoryCacheRepository V :=
  { s with nodes := s.nodes.modify node fun n => { n with prev := prev } }

def setEntry (s : MemoryCacheRepository V) (node : Ref) (entry : CacheEntry V) :
    MemoryCacheRepository V :=
  { s with nodes := s.nodes.modify node fun n => { n with entry := entry } }

def entryAt (s : MemoryCacheRepository V) (key : String) : Option (CacheEntry V) :=
  (s.map.get key).bind fun node => s.nodes[node]?.map (·.entry)

/-- The keys in the set the index holds for a tag. -/
def taggedKeys (s : MemoryCacheRepository V) (tag : String) : Option (List String) :=
  (s.tagIndex.get tag).bind fun keys => s.sets[keys]?.map SlotMap.keys

def countHit (s : MemoryCacheRepository V) : MemoryCacheRepository V :=
  { s with stats := { s.stats with hits := s.stats.hits + 1 } }

def countMiss (s : MemoryCacheRepository V) : MemoryCacheRepository V :=
  { s with stats := { s.stats with misses := s.stats.misses + 1 } }

def countSet (s : MemoryCacheRepository V) : MemoryCacheRepository V :=
  { s with stats := { s.stats with sets := s.stats.sets + 1 } }

def countDelete (s : MemoryCacheRepository V) : MemoryCacheRepository V :=
  { s with stats := { s.stats with deletes := s.stats.deletes + 1 } }

/-! ### Splicing the list -/

/-- `if (node.prev) node.prev.next = node.next; else this.head = node.next` -/
def bypassForward (s : MemoryCacheRepository V) (node : Ref) : MemoryCacheRepository V :=
  match s.prevOf node with
  | some prev => s.setNext prev (s.nextOf node)
  | none => { s with head := s.nextOf node }

/-- `if (node.next) node.next.prev = node.prev; else this.tail = node.prev` -/
def bypassBackward (s : MemoryCacheRepository V) (node : Ref) : MemoryCacheRepository V :=
  match s.nextOf node with
  | some next => s.setPrev next (s.prevOf node)
  | none => { s with tail := s.prevOf node }

def removeNode (s : MemoryCacheRepository V) (node : Ref) : MemoryCacheRepository V :=
  (((s.bypassForward node).bypassBackward node).setPrev node none).setNext node none

/-- The links the list insertions of `set` and `moveToFront` have in common. -/
def linkFront (s : MemoryCacheRepository V) (node : Ref) : MemoryCacheRepository V :=
  let s := match s.head with
    | some head => s.setPrev head (some node)
    | none => s
  let s := { s with head := some node }
  if s.tail = none then { s with tail := some node } else s

def moveToFront (s : MemoryCacheRepository V) (node : Ref) : MemoryCacheRepository V :=
  if s.head = some node then s
  else
    let s := s.removeNode node
    let s := (s.setNext node s.head).setPrev node none
    s.linkFront node

def removeFromMap (s : MemoryCacheRepository V) (key : String) : MemoryCacheRepository V :=
  { s with map := s.map.delete key }

def evictLRU (s : MemoryCacheRepository V) : MemoryCacheRepository V :=
  match s.tail with
  | none => s
  | some node =>
    match s.nodes[node]? with
    | none => s
    | some n =>
      { (s.removeNode node).removeFromMap n.key with evictions := s.evictions ++ [n.key] }

/-- A new node before the head, entered in the map. -/
def insertNode (s : MemoryCacheRepository V) (key : String) (entry : CacheEntry V) :
    MemoryCacheRepository V :=
  let node := s.nodes.length
  let s := { s with nodes := s.nodes ++ [LRUNode.mk key entry none s.head] }
  let s := s.linkFront node
  { s with map := s.map.set key node }

/-! ### Methods -/

def get (clock : Clock) (key : String) (s : MemoryCacheRepository V) :
    MemoryCacheRepository V × Option (CacheEntry V) :=
  match s.map.get key with
  | none => (s.countMiss, none)
  | some node =>
    match s.nodes[node]? with
    | none => (s, none)
    | some n =>
      if n.entry.isExpired (clock 0) then
        (((s.removeNode node).removeFromMap key).countMiss, none)
      else
        let entry := n.entry.registerHit
        (((s.moveToFront node).setEntry node entry).countHit, some entry)

/-- `set` returns at once: the key is taken and its entry has not expired. -/
def suppressed (clock : Clock) (key : String) (options : SetOptions)
    (s : MemoryCacheRepository V) : Bool :=
  options.ifNotExists && (s.entryAt key).any fun entry => !entry.isExpired (clock 0)

/-- `this.tagIndex.get(tag)!.add(key)`, with a new set for a new tag. -/
def indexTag (key : String) (s : MemoryCacheRepository V) (tag : String) :
    MemoryCacheRepository V :=
  let s := if s.tagIndex.has tag then s
    else { s with tagIndex := s.tagIndex.set tag s.sets.length, sets := s.sets ++ [SlotMap.empty] }
  match s.tagIndex.get tag with
  | none => s
  | some keys => { s with sets := s.sets.modify keys (·.set key ()) }

/-- The part of `set` that stores the entry, evicting when a new key finds the cache
full. -/
def store (key : String) (entry : CacheEntry V) (s : MemoryCacheRepository V) :
    MemoryCacheRepository V :=
  match s.map.get key with
  | some node => (s.setEntry node entry).moveToFront node
  | none => (if s.maxEntries ≤ s.map.size then s.evictLRU else s).insertNode key entry

def set (clock : Clock) (key : String) (value : V) (options : SetOptions)
    (s : MemoryCacheRepository V) : MemoryCacheRepository V :=
  if s.suppressed clock key options then s
  else
    let entry := CacheEntry.create (clock 1) key value (options.ttlOr s.defaultTtl)
      options.tagList options.metadataList
    (options.tagList.foldl (indexTag key) (s.store key entry)).countSet

def delete (key : String) (s : MemoryCacheRepository V) : MemoryCacheRepository V × Bool :=
  match s.map.get key with
  | none => (s, false)
  | some node => (((s.removeNode node).removeFromMap key).countDelete, true)

/-- `if (await this.delete(key)) count++` -/
def deleteCounting (state : MemoryCacheRepository V × ℕ) (key : String) :
    MemoryCacheRepository V × ℕ :=
  let (s, deleted) := state.1.delete key
  (s, state.2 + deleted.toNat)

def setSlots (keys : SetRef) (s : MemoryCacheRepository V) : SlotMap.Slots String Unit :=
  (s.sets[keys]?.map SlotMap.slots).getD []

/-- The loop over the keys of one tag, followed by dropping the tag. -/
def deleteByTag (state : MemoryCacheRepository V × ℕ) (tag : String) :
    MemoryCacheRepository V × ℕ :=
  match state.1.tagIndex.get tag with
  | none => state
  | some keys =>
    let (s, count) := SlotMap.visit (fun state => setSlots keys state.1)
      (fun _ state e => deleteCounting state e.1) state
    ({ s with tagIndex := s.tagIndex.delete tag }, count)

def deleteByTags (tags : List String) (s : MemoryCacheRepository V) :
    MemoryCacheRepository V × ℕ :=
  tags.foldl deleteByTag (s, 0)

/-- `none` when the pattern does not compile: the call rejects and changes nothing. -/
def deleteByPattern (regExp : RegExp) (pattern : String) (s : MemoryCacheRepository V) :
    MemoryCacheRepository V × Option ℕ :=
  match regExp (globSource pattern) with
  | none => (s, none)
  | some test =>
    let (s, count) := SlotMap.visit (fun state => state.1.map.slots)
      (fun _ state e => if test e.1 then deleteCounting state e.1 else state) (s, 0)
    (s, some count)

def exists_ (clock : Clock) (key : String) (s : MemoryCacheRepository V) :
    MemoryCacheRepository V × Bool :=
  match s.entryAt key with
  | none => (s, false)
  | some entry => if entry.isExpired (clock 0) then ((s.delete key).1, false) else (s, true)

def flush (s : MemoryCacheRepository V) : MemoryCacheRepository V :=
  { s with map := s.map.clear, tagIndex := s.tagIndex.clear, head := none, tail := none }

/-- `none` when the pattern does not compile; an empty pattern counts as none. -/
def keys (regExp : RegExp) (pattern : Option String) (s : MemoryCacheRepository V) :
    Option (List String) :=
  match pattern with
  | none => some s.map.keys
  | some p => if p = "" then some s.map.keys
    else (regExp (globSource p)).map fun test => s.map.keys.filter test

/-- `Promise.all` over calls that run one after the other before any of them yields. -/
def mget (clock : Clock) (keys : List String) (s : MemoryCacheRepository V) :
    MemoryCacheRepository V × List (Option (CacheEntry V)) :=
  keys.zipIdx.foldl (fun state (key, i) =>
    let (s, entry) := state.1.get (fun _ => clock i) key
    (s, state.2 ++ [entry])) (s, [])

def mset (clock : Clock) (entries : List (String × V × SetOptions))
    (s : MemoryCacheRepository V) : MemoryCacheRepository V :=
  entries.zipIdx.foldl (fun s ((key, value, options), i) =>
    s.set (fun j => clock (2 * i + j)) key value options) s

/-- One turn of the sweep; slot `i` is compared with reading `i`. -/
def sweepEntry (clock : Clock) (i : ℕ) (s : MemoryCacheRepository V) (e : Σ _ : String, Ref) :
    MemoryCacheRepository V :=
  match s.nodes[e.2]? with
  | none => s
  | some n =>
    if n.entry.isExpired (clock i) then (s.removeNode e.2).removeFromMap e.1 else s

/-- The callback of `startEvictionInterval`. -/
def sweep (clock : Clock) (s : MemoryCacheRepository V) : MemoryCacheRepository V :=
  SlotMap.visit (fun s => s.map.slots) (sweepEntry clock) s

structure CacheStats where
  stats : Stats
  hitRate : ℚ
  totalEntries : ℕ
  memoryUsageMb : ℚ
  deriving DecidableEq

/-- `(hits / total) * 10000` -/
def basisPoints (hits total : ℕ) : ℚ := double (double (hits / total) * 10000)

def getStats (memoryUsageMb : ℚ) (s : MemoryCacheRepository V) : CacheStats where
  stats := s.stats
  hitRate :=
    let total := s.stats.hits + s.stats.misses
    if total = 0 then 0 else inHundredths (basisPoints s.stats.hits total)
  totalEntries := s.map.size
  memoryUsageMb := memoryUsageMb

end MemoryCacheRepository

/-! ### Sequential runs -/

/-- A call of the repository, or a firing of its eviction interval. -/
inductive Op (V : Type) where
  | get (key : String)
  | set (key : String) (value : V) (options : SetOptions)
  | delete (key : String)
  | deleteByTags (tags : List String)
  | deleteByPattern (pattern : String)
  | exists_ (key : String)
  | getStats (memoryUsageMb : ℚ)
  | flush
  | keys (pattern : Option String)
  | mget (keys : List String)
  | mset (entries : List (String × V × SetOptions))
  | sweep

/-- A call with the readings of the clock it makes. -/
structure Event (V : Type) where
  op : Op V
  clock : Clock

namespace MemoryCacheRepository

variable {V : Type} (regExp : RegExp)

/-- The state after a call has run to its end with nothing else running. -/
def step (s : MemoryCacheRepository V) (e : Event V) : MemoryCacheRepository V :=
  match e.op with
  | .get key => (s.get e.clock key).1
  | .set key value options => s.set e.clock key value options
  | .delete key => (s.delete key).1
  | .deleteByTags tags => (s.deleteByTags tags).1
  | .deleteByPattern pattern => (s.deleteByPattern regExp pattern).1
  | .exists_ key => (s.exists_ e.clock key).1
  | .getStats _ => s
  | .flush => s.flush
  | .keys _ => s
  | .mget keys => (s.mget e.clock keys).1
  | .mset entries => s.mset e.clock entries
  | .sweep => s.sweep e.clock

/-- The state after calls made one after another on a fresh repository. -/
def reach (config : Config) (events : List (Event V)) : MemoryCacheRepository V :=
  Runs.run (step regExp) (new config) events

end MemoryCacheRepository

namespace Event

variable {V : Type}

/-- Bulk calls are the single calls they make, in order. -/
def expand (e : Event V) : List (Event V) :=
  match e.op with
  | .mget keys => keys.zipIdx.map fun (key, i) => ⟨.get key, fun _ => e.clock i⟩
  | .mset entries => entries.zipIdx.map fun ((key, value, options), i) =>
      ⟨.set key value options, fun j => e.clock (2 * i + j)⟩
  | _ => [e]

theorem expand_mget_ne (keys : List String) (clock : Clock) :
    (⟨.mget keys, clock⟩ : Event V).expand ≠ [⟨.mget keys, clock⟩] := by
  intro h
  have hmem : (⟨.mget keys, clock⟩ : Event V) ∈ (⟨.mget keys, clock⟩ : Event V).expand := by
    rw [h]
    exact List.mem_singleton_self _
  simp [expand] at hmem

theorem expand_mset_ne (entries : List (String × V × SetOptions)) (clock : Clock) :
    (⟨.mset entries, clock⟩ : Event V).expand ≠ [⟨.mset entries, clock⟩] := by
  intro h
  have hmem : (⟨.mset entries, clock⟩ : Event V) ∈ (⟨.mset entries, clock⟩ : Event V).expand := by
    rw [h]
    exact List.mem_singleton_self _
  simp [expand] at hmem

theorem clock_of_mem {e e' : Event V} (h : e' ∈ e.expand) (i : ℕ) :
    ∃ j, e'.clock i = e.clock j := by
  obtain ⟨op, clock⟩ := e
  cases op with
  | mget keys =>
    obtain ⟨p, -, rfl⟩ := List.mem_map.mp h
    exact ⟨p.2, rfl⟩
  | mset entries =>
    obtain ⟨p, -, rfl⟩ := List.mem_map.mp h
    exact ⟨2 * p.2 + i, rfl⟩
  | _ =>
    rw [List.mem_singleton.mp h]
    exact ⟨i, rfl⟩

theorem expand_of_mem {e e' : Event V} (h : e' ∈ e.expand) : e'.expand = [e'] := by
  obtain ⟨op, clock⟩ := e
  cases op with
  | mget keys =>
    obtain ⟨p, -, rfl⟩ := List.mem_map.mp h
    rfl
  | mset entries =>
    obtain ⟨p, -, rfl⟩ := List.mem_map.mp h
    rfl
  | _ =>
    rw [List.mem_singleton.mp h]
    rfl

theorem expand_of_mem_flatMap {events : List (Event V)} {e : Event V}
    (h : e ∈ events.flatMap expand) : e.expand = [e] := by
  obtain ⟨e', -, he'⟩ := List.mem_flatMap.mp h
  exact expand_of_mem he'

end Event

namespace MemoryCacheRepository

variable {V : Type} (regExp : RegExp)

theorem mget_eq_run (clock : Clock) (keys : List String) (s : MemoryCacheRepository V) :
    (s.mget clock keys).1 =
      Runs.run (step regExp) s (Event.expand ⟨.mget keys, clock⟩) := by
  have hfold : ∀ (l : List (String × ℕ)) (state : MemoryCacheRepository V × List _),
      (l.foldl (fun state (key, i) =>
        let (s, entry) := state.1.get (fun _ => clock i) key
        (s, state.2 ++ [entry])) state).1 =
      Runs.run (step regExp) state.1
        (l.map fun (key, i) => (⟨.get key, fun _ => clock i⟩ : Event V)) := by
    intro l
    induction l with
    | nil => exact fun _ => rfl
    | cons p rest ih => exact fun state => ih _
  exact hfold keys.zipIdx (s, [])

theorem mset_eq_run (clock : Clock) (entries : List (String × V × SetOptions))
    (s : MemoryCacheRepository V) :
    s.mset clock entries =
      Runs.run (step regExp) s (Event.expand ⟨.mset entries, clock⟩) := by
  simp only [mset, Event.expand, Runs.run, List.foldl_map]
  rfl

theorem step_eq_run (s : MemoryCacheRepository V) (e : Event V) :
    step regExp s e = Runs.run (step regExp) s e.expand := by
  obtain ⟨op, clock⟩ := e
  cases op with
  | mget keys => exact mget_eq_run regExp clock keys s
  | mset entries => exact mset_eq_run regExp clock entries s
  | _ => rfl

/-- Every run is a run of single calls. -/
theorem reach_expand (config : Config) (events : List (Event V)) :
    reach regExp config events = reach regExp config (events.flatMap Event.expand) :=
  Runs.run_flatMap Event.expand (step_eq_run regExp) (new config) events

end MemoryCacheRepository

end EdgeCache
