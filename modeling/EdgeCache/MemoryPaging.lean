import EdgeCache.Library.Paging
import EdgeCache.MemoryStats

/-!
How well the memory tier evicts. It is read through: what a read misses is stored. Its keys are
then the list of a paging policy, and its misses are the faults of that list together with the
reads that came too late. No way of keeping as many entries, though it knew all the reads to
come, has fewer misses by more than a factor and a start.
-/
namespace EdgeCache

variable {V : Type}

/-- A read through the memory tier, and what is stored when the key is missed. -/
structure ReadThrough (V : Type) where
  key : String
  value : V
  options : SetOptions
  readClock : Clock
  writeClock : Clock

namespace Recency

theorem keys_store_of_not_mem {a : Recency V} {key : String} (hnew : key ∉ a.keys)
    (maxEntries : ℕ) (entry : CacheEntry V) :
    (a.store maxEntries key entry).keys =
      key :: if maxEntries ≤ a.keys.length then a.keys.dropLast else a.keys := by
  have hmem : key ∉ a := fun hmem => hnew (AList.mem_keys.mp hmem)
  rw [store, if_neg hmem, AList.keys_insert]
  split
  · have hgone : key ∉ a.keys.dropLast := fun hlast => hnew (List.dropLast_subset _ hlast)
    rw [keys_evict, List.erase_of_not_mem hgone]
  · rw [List.erase_of_not_mem hnew]

end Recency

namespace MemoryCacheRepository

def readThrough (s : MemoryCacheRepository V) (r : ReadThrough V) : MemoryCacheRepository V :=
  match s.get r.readClock r.key with
  | (s, some _) => s
  | (s, none) => s.set r.writeClock r.key r.value r.options

/-- The read finds an entry, but only after its deadline. -/
def tooLate (s : MemoryCacheRepository V) (r : ReadThrough V) : Bool :=
  (s.entryAt r.key).any fun entry => entry.isExpired (r.readClock 0)

variable {config : Config} {s : MemoryCacheRepository V} {v : MemoryView V} {r : ReadThrough V}

theorem readThrough_of_some {entry : CacheEntry V}
    (h : (s.get r.readClock r.key).2 = some entry) :
    s.readThrough r = (s.get r.readClock r.key).1 := by
  unfold readThrough
  rcases hget : s.get r.readClock r.key with ⟨s', found⟩
  rw [hget] at h
  obtain rfl : found = some entry := h
  rfl

theorem readThrough_of_none (h : (s.get r.readClock r.key).2 = none) :
    s.readThrough r = (s.get r.readClock r.key).1.set r.writeClock r.key r.value r.options := by
  unfold readThrough
  rcases hget : s.get r.readClock r.key with ⟨s', found⟩
  rw [hget] at h
  obtain rfl : found = none := h
  rfl

/-! ### One read -/

theorem Shows.readThrough_found (h : Shows config s v) {entry : CacheEntry V}
    (hlookup : v.recency.lookup r.key = some entry)
    (hfresh : entry.isExpired (r.readClock 0) = false) :
    ∃ v', Shows config (s.readThrough r) v' ∧
      v'.recency.keys = r.key :: v.recency.keys.erase r.key ∧
      (s.readThrough r).stats.misses = s.stats.misses := by
  have hentry : s.entryAt r.key = some entry := (h.entryAt_eq r.key).trans hlookup
  have hfound := get_of_fresh h hentry hfresh
  have hrecency : (v.recency.get (r.readClock 0) r.key).1 =
      v.recency.insert r.key entry.registerHit := by
    simp only [Recency.get, hlookup, hfresh, Bool.false_eq_true, ↓reduceIte]
  refine ⟨_, (readThrough_of_some hfound).symm ▸ (h.get r.readClock r.key).1, ?_, ?_⟩
  · show (v.recency.get (r.readClock 0) r.key).1.keys = _
    rw [hrecency, AList.keys_insert]
  · rw [readThrough_of_some hfound, stats_get h, hfound]
    rfl

theorem Shows.readThrough_missed (h : Shows config s v) {left : Recency V}
    (hget : v.recency.get (r.readClock 0) r.key = (left, none)) (hgone : r.key ∉ left.keys) :
    ∃ v', Shows config (s.readThrough r) v' ∧
      v'.recency.keys = r.key :: (if config.cacheMaxMemoryEntries ≤ left.keys.length then
        left.keys.dropLast else left.keys) ∧
      (s.readThrough r).stats.misses = s.stats.misses + 1 := by
  have hlookup : left.lookup r.key = none :=
    AList.lookup_eq_none.mpr fun hmem => hgone (AList.mem_keys.mp hmem)
  obtain ⟨hshows, hfound⟩ := h.get r.readClock r.key
  rw [hget] at hshows hfound
  have hset := hshows.set r.writeClock r.key r.value r.options
  rw [← readThrough_of_none hfound] at hset
  refine ⟨_, hset, ?_, ?_⟩
  · -- nothing is there that a conditional set could give way to
    have hfree : MemoryView.suppressed (r.writeClock 0) r.key r.options
        { v with recency := left } = false := by
      simp only [MemoryView.suppressed, hlookup, Option.any_none, Bool.and_false]
    rw [MemoryView.set, hfree]
    exact Recency.keys_store_of_not_mem hgone _ _
  · rw [readThrough_of_none hfound, stats_set, stats_get h, hfound]
    rfl

/-- Whatever a read finds, the keys are those of the list after the request. -/
theorem Shows.readThrough (h : Shows config s v) (r : ReadThrough V) :
    ∃ v', Shows config (s.readThrough r) v' ∧
      v'.recency.keys = Paging.request config.cacheMaxMemoryEntries v.recency.keys r.key ∧
      (s.readThrough r).stats.misses =
        s.stats.misses + (if r.key ∈ v.recency.keys then 0 else 1) + (s.tooLate r).toNat := by
  have hentry := h.entryAt_eq r.key
  cases hlookup : v.recency.lookup r.key with
  | none =>
    have hnew : r.key ∉ v.recency.keys := fun hmem =>
      AList.lookup_eq_none.mp hlookup (AList.mem_keys.mpr hmem)
    have hget : v.recency.get (r.readClock 0) r.key = (v.recency, none) := by
      simp only [Recency.get, hlookup]
    obtain ⟨v', hshows, hkeys, hmisses⟩ := h.readThrough_missed hget hnew
    refine ⟨v', hshows, ?_, ?_⟩
    · rw [hkeys, Paging.request, if_neg hnew]
    · rw [hmisses, if_neg hnew, tooLate, hentry, hlookup]
      rfl
  | some entry =>
    have hmem : r.key ∈ v.recency.keys :=
      AList.mem_keys.mp (AList.lookup_isSome.mp (Option.isSome_iff_exists.mpr ⟨entry, hlookup⟩))
    cases hexpired : entry.isExpired (r.readClock 0) with
    | false =>
      obtain ⟨v', hshows, hkeys, hmisses⟩ := h.readThrough_found hlookup hexpired
      refine ⟨v', hshows, ?_, ?_⟩
      · rw [hkeys, Paging.request, if_pos hmem]
      · rw [hmisses, if_pos hmem, tooLate, hentry, hlookup, Option.any_some, hexpired]
        rfl
    | true =>
      have hget : v.recency.get (r.readClock 0) r.key = (v.recency.erase r.key, none) := by
        simp only [Recency.get, hlookup, hexpired, ↓reduceIte]
      have herase : (v.recency.erase r.key).keys = v.recency.keys.erase r.key :=
        AList.keys_erase r.key v.recency
      have hgone : r.key ∉ (v.recency.erase r.key).keys := by
        rw [herase]
        exact v.recency.keys_nodup.not_mem_erase
      obtain ⟨v', hshows, hkeys, hmisses⟩ := h.readThrough_missed hget hgone
      refine ⟨v', hshows, ?_, ?_⟩
      · -- the expired entry has left a place
        have hroom : ¬ config.cacheMaxMemoryEntries ≤ (v.recency.erase r.key).keys.length := by
          have hpos := List.length_pos_of_mem hmem
          have hbounded := h.bounded
          rw [herase, List.length_erase_of_mem hmem]
          omega
        rw [hkeys, if_neg hroom, herase, Paging.request, if_pos hmem]
      · rw [hmisses, if_pos hmem, tooLate, hentry, hlookup, Option.any_some, hexpired]
        rfl

/-! ### Runs of reads -/

theorem Shows.misses_readThrough (h : Shows config s v) (reads : List (ReadThrough V)) :
    (Runs.run MemoryCacheRepository.readThrough s reads).stats.misses =
      s.stats.misses +
        Paging.faults config.cacheMaxMemoryEntries v.recency.keys (reads.map ReadThrough.key) +
        Runs.total MemoryCacheRepository.readThrough (fun s r => (s.tooLate r).toNat) s reads := by
  induction reads generalizing s v with
  | nil => rfl
  | cons r rest ih =>
    obtain ⟨v', hshows, hkeys, hmisses⟩ := h.readThrough r
    rw [Runs.run_cons, ih hshows, hkeys, hmisses, List.map_cons, Paging.faults, Runs.total]
    omega

/-- Any other way to serve the same reads with `h` places, `n` of them not out of those, bounds
what the memory tier misses; each read that came too late adds one. -/
theorem misses_le_of_serves (config : Config) {reads : List (ReadThrough V)} {h n : ℕ}
    (hserves : Paging.Serves h ∅ (reads.map ReadThrough.key) n) :
    let k := config.cacheMaxMemoryEntries
    (k + 1 - h) * (Runs.run readThrough (new config) reads).stats.misses ≤
      k * n + (k + 1 - h) *
        (k + Runs.total readThrough (fun s r => (s.tooLate r).toNat) (new config) reads) := by
  intro k
  have hfaults := Paging.faults_le config.maxMemoryEntries_pos hserves
  have hmisses := (Shows.new config).misses_readThrough reads
  have hstart : (new config : MemoryCacheRepository V).stats.misses = 0 := rfl
  have hempty : (MemoryView.empty : MemoryView V).recency.keys = [] := rfl
  rw [hmisses, hstart, hempty, Nat.zero_add, Nat.mul_add, Nat.mul_add, ← Nat.add_assoc]
  exact Nat.add_le_add_right hfaults _

/-- Three keys take turns in two places, and the first of them comes back: who gives up the
second key for the third finds the first. -/
theorem misses_le_of_serves_three :
    let clock : Clock := fun _ => ⟨1000, by decide⟩
    let read (key : String) : ReadThrough ℕ := ⟨key, 7, .ofTtl 5, clock, clock⟩
    let config : Config := ⟨2, 60, by decide, by decide⟩
    let reads := ["a", "b", "c", "a"].map read
    (2 + 1 - 2) * (Runs.run readThrough (new config) reads).stats.misses ≤
      2 * 3 + (2 + 1 - 2) *
        (2 + Runs.total readThrough (fun s r => (s.tooLate r).toNat) (new config) reads) := by
  intro clock read config reads
  refine @misses_le_of_serves ℕ config reads 2 3 ?_
  refine .fault "a" (by decide) (by decide) (.fault "b" (by decide) (by decide) ?_)
  exact .fault "b" (by decide) (by decide) (.hit (by decide) (.nil _))

end MemoryCacheRepository

end EdgeCache
