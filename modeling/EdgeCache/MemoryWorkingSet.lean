import EdgeCache.MemoryHistory
import EdgeCache.MemoryRecency
import EdgeCache.MemoryTags
import Mathlib.Data.Finset.Card

/-!
What the LRU order is worth to a caller. An eviction takes the key touched earliest, so
between the last touch of a key and its eviction as many other keys are touched as the
memory tier holds. An entry that nobody removes is therefore served up to its deadline
as long as the keys in use besides it are fewer than that.
-/
namespace EdgeCache

variable {V : Type}

/-! ### Touches after a point of the log -/

theorem lastTouch_le_concat (log : List String) (key key' : String) :
    lastTouch log key ≤ lastTouch (log ++ [key']) key := by
  by_cases hk : key = key'
  · subst hk
    rw [lastTouch_concat_self]
    have hle := lastTouch_le log key
    omega
  · rw [lastTouch_concat_ne log hk]

theorem lastTouch_le_append (log later : List String) (key : String) :
    lastTouch log key ≤ lastTouch (log ++ later) key := by
  induction later using List.reverseRecOn with
  | nil => rw [List.append_nil]
  | append_singleton later key' ih =>
    rw [← List.append_assoc]
    exact ih.trans (lastTouch_le_concat _ _ _)

theorem lastTouch_of_getLast? {log : List String} {key : String}
    (h : log.getLast? = some key) : lastTouch log key = log.length := by
  obtain ⟨before, rfl⟩ := List.getLast?_eq_some_iff.mp h
  rw [lastTouch_concat_self, List.length_append, List.length_singleton]

theorem lastTouch_append_of_notMem {log later : List String} {key : String} (h : key ∉ later) :
    lastTouch (log ++ later) key = lastTouch log key := by
  induction later using List.reverseRecOn with
  | nil => rw [List.append_nil]
  | append_singleton later key' ih =>
    have hne : key ≠ key' := fun heq => h (by simp [heq])
    rw [← List.append_assoc, lastTouch_concat_ne _ hne]
    exact ih fun hmem => h (List.mem_append_left _ hmem)

theorem mem_of_lastTouch_lt {log later : List String} {key key' : String}
    (hlast : log.getLast? = some key)
    (hlt : lastTouch (log ++ later) key < lastTouch (log ++ later) key') : key' ∈ later := by
  by_contra hmem
  have hkey := lastTouch_le_append log later key
  rw [lastTouch_of_getLast? hlast] at hkey
  rw [lastTouch_append_of_notMem hmem] at hlt
  have hkey' := lastTouch_le log key'
  omega

theorem Recency.lookup_store_of_ne {a : Recency V} {key key' : String}
    (hk : key ≠ key') (maxEntries : ℕ) (entry : CacheEntry V)
    (hlast : key' ∉ a → maxEntries ≤ a.keys.length → a.keys.getLast? ≠ some key) :
    (a.store maxEntries key' entry).lookup key = a.lookup key := by
  unfold Recency.store
  split
  · exact AList.lookup_insert_ne hk
  · next hnew =>
    rw [AList.lookup_insert_ne hk]
    split
    · next hfull => rw [Recency.lookup_evict, if_neg (hlast hnew hfull)]
    · rfl

namespace MemoryCacheRepository

variable {config : Config} {regExp : RegExp} {s : MemoryCacheRepository V} {key : String}

theorem touchLog_append (regExp : RegExp) (s : MemoryCacheRepository V)
    (before after : List (Event V)) :
    touchLog regExp s (before ++ after) =
      touchLog regExp s before ++ touchLog regExp (Runs.run (step regExp) s before) after := by
  induction before generalizing s with
  | nil => rfl
  | cons e rest ih =>
    rw [List.cons_append, touchLog, touchLog, ih, List.append_assoc]
    rfl

/-- The keys other than `key` that a run touches. -/
def workingSet (regExp : RegExp) (s : MemoryCacheRepository V) (key : String)
    (events : List (Event V)) : Finset String :=
  (touchLog regExp s events).toFinset.erase key

theorem workingSet_append_subset (regExp : RegExp) (s : MemoryCacheRepository V) (key : String)
    (before after : List (Event V)) :
    workingSet regExp s key before ⊆ workingSet regExp s key (before ++ after) := by
  refine Finset.erase_subset_erase key fun key' hkey' => ?_
  rw [touchLog_append, List.mem_toFinset]
  exact List.mem_append_left _ (List.mem_toFinset.mp hkey')

/-! ### The key touched earliest -/

/-- When the last key of the log so far is to be evicted, every other stored key has been
touched since, and so is the one that comes in. -/
theorem Shows.le_card_of_overflow {v : MemoryView V} (h : Shows config s v) {log later : List String}
    (horder : ByLastTouch (log ++ later) v.recency.keys) (htouched : log.getLast? = some key)
    {e : Event V} (hoverflow : Overflows s e) (hvictim : v.recency.keys.getLast? = some key) :
    config.cacheMaxMemoryEntries ≤ ((later ++ s.touchedBy e).toFinset.erase key).card := by
  obtain ⟨new, value, options, hop, hsuppressed, hnew, hfull⟩ := hoverflow
  have hnew' : new ∉ v.recency.keys := fun hmem => hnew ((h.mem_keys_iff new).mpr hmem)
  have hkey : key ∈ v.recency.keys := List.mem_of_getLast? hvictim
  have hne : new ≠ key := fun heq => hnew' (heq ▸ hkey)
  have htouch : s.touchedBy e = [new] := by
    simp only [touchedBy, hop, hsuppressed, Bool.false_eq_true, ↓reduceIte]
  have hsubset : (new :: v.recency.keys.erase key).toFinset ⊆
      (later ++ s.touchedBy e).toFinset.erase key := by
    intro key' hkey'
    rw [Finset.mem_erase, List.mem_toFinset, htouch]
    rcases List.mem_cons.mp (List.mem_toFinset.mp hkey') with rfl | hstored
    · exact ⟨hne, List.mem_append_right later (List.mem_singleton_self key')⟩
    · have hkey'' := (v.recency.keys_nodup.mem_erase_iff).mp hstored
      have hlt := horder.lt_of_last hvictim hkey''.2 hkey''.1
      exact ⟨hkey''.1, List.mem_append_left _ (mem_of_lastTouch_lt htouched hlt)⟩
  have hnodup : (new :: v.recency.keys.erase key).Nodup := by
    refine List.nodup_cons.mpr ⟨fun hmem => hnew' (List.mem_of_mem_erase hmem), ?_⟩
    exact v.recency.keys_nodup.erase key
  have hlength : (new :: v.recency.keys.erase key).length = config.cacheMaxMemoryEntries := by
    have hpos := List.length_pos_of_mem hkey
    have hsize := h.size_eq
    rw [hfull, h.maxEntries_eq] at hsize
    rw [List.length_cons, List.length_erase_of_mem hkey]
    omega
  rw [← hlength, ← List.toFinset_card_of_nodup hnodup]
  exact Finset.card_le_card hsubset

/-- A run that touches fewer other keys than fit does not evict the key touched last. -/
theorem Ordered.evictions_run {log : List String} (h : Ordered config log s)
    (htouched : log.getLast? = some key) (regExp : RegExp) {events : List (Event V)}
    (hsingle : ∀ e ∈ events, e.expand = [e])
    (hfew : (workingSet regExp s key events).card < config.cacheMaxMemoryEntries) :
    ∃ evicted,
      (Runs.run (MemoryCacheRepository.step regExp) s events).evictions = s.evictions ++ evicted ∧
      key ∉ evicted := by
  induction events using List.reverseRecOn with
  | nil => exact ⟨[], (List.append_nil _).symm, List.not_mem_nil⟩
  | append_singleton events e ih =>
    have hevents : ∀ e' ∈ events, e'.expand = [e'] :=
      fun e' he' => hsingle e' (List.mem_append_left _ he')
    have hle := Finset.card_le_card (workingSet_append_subset regExp s key events [e])
    obtain ⟨evicted, hevicted, hkey⟩ := ih hevents (hle.trans_lt hfew)
    obtain ⟨v, hv, horder⟩ := h.run regExp hevents
    rw [Runs.run_append, Runs.run_cons, Runs.run_nil]
    by_cases hoverflow : Overflows (Runs.run (MemoryCacheRepository.step regExp) s events) e
    · obtain ⟨victim, hvictim, hlogged, -⟩ := hv.overflow_step regExp hoverflow
      refine ⟨evicted ++ [victim], ?_, fun hmem => ?_⟩
      · rw [hlogged, hevicted, List.append_assoc]
      · have heq : key = victim := by simpa [hkey] using hmem
        have hfull := hv.le_card_of_overflow horder htouched hoverflow (heq ▸ hvictim)
        have hset : workingSet regExp s key (events ++ [e]) =
            (touchLog regExp s events ++
              touchedBy (Runs.run (MemoryCacheRepository.step regExp) s events) e).toFinset.erase key := by
          rw [workingSet, touchLog_append, touchLog, touchLog, List.append_nil]
        rw [hset] at hfew
        omega
    · have he := hsingle e (List.mem_append_right _ (List.mem_singleton_self e))
      exact ⟨evicted, (hv.evictions_step regExp he hoverflow).trans hevicted, hkey⟩

theorem reach_concat (regExp : RegExp) (config : Config) (events : List (Event V)) (e : Event V) :
    reach regExp config (events ++ [e]) = step regExp (reach regExp config events) e :=
  Runs.run_append _ _ events [e]

/-- The states of a run are in the order of its touches. -/
theorem ordered_reach (regExp : RegExp) (config : Config) (events : List (Event V)) :
    Ordered config (touchLog regExp (new config) (events.flatMap Event.expand))
      (reach regExp config events) := by
  have hstart : Ordered config [] (new config : MemoryCacheRepository V) :=
    ⟨_, Shows.new config, List.Pairwise.nil, fun key hkey => absurd hkey List.not_mem_nil⟩
  have hsingle : ∀ e ∈ events.flatMap Event.expand, e.expand = [e] :=
    fun e he => Event.expand_of_mem_flatMap he
  have hrun := hstart.run regExp hsingle
  rw [List.nil_append] at hrun
  rw [reach_expand]
  exact hrun

/-- Between the last touch of a key and its eviction, as many other keys are touched as the
memory tier holds. -/
theorem evictions_of_workingSet (regExp : RegExp) (config : Config)
    (before after : List (Event V)) (key : String)
    (htouched : (touchLog regExp (new config : MemoryCacheRepository V)
      (before.flatMap Event.expand)).getLast? = some key)
    (hfew : (workingSet regExp (reach regExp config before) key
      (after.flatMap Event.expand)).card < config.cacheMaxMemoryEntries) :
    ∃ evicted, (reach regExp config (before ++ after)).evictions =
        (reach regExp config before).evictions ++ evicted ∧ key ∉ evicted := by
  have hsingle : ∀ e ∈ after.flatMap Event.expand, e.expand = [e] :=
    fun e he => Event.expand_of_mem_flatMap he
  have hrun := (ordered_reach regExp config before).evictions_run htouched regExp hsingle hfew
  rwa [← Runs.run_flatMap Event.expand (step_eq_run regExp), reach, ← Runs.run_append] at hrun

/-- With two places, the key read last outlives the one stored before the read. -/
theorem evictions_of_workingSet_two :
    let before : List (Event ℕ) := [⟨.set "a" 1 (.ofTtl 5), fun _ => ⟨1000, by decide⟩⟩,
      ⟨.set "b" 2 (.ofTtl 5), fun _ => ⟨1000, by decide⟩⟩,
      ⟨.get "a", fun _ => ⟨1000, by decide⟩⟩]
    let after : List (Event ℕ) := [⟨.set "c" 3 (.ofTtl 5), fun _ => ⟨1000, by decide⟩⟩]
    ∃ evicted, (reach (fun _ => none) ⟨2, 60, by decide, by decide⟩ (before ++ after)).evictions =
      (reach (fun _ => none) ⟨2, 60, by decide, by decide⟩ before).evictions ++ evicted ∧
        "a" ∉ evicted :=
  evictions_of_workingSet (fun _ => none) ⟨2, 60, by decide, by decide⟩ _ _ "a"
    (by decide +kernel) (by decide +kernel)

/-! ### An entry that nobody removes -/

/-- The call does not remove or replace the key, unless by expiry or eviction. -/
def Spares (regExp : RegExp) (key : String) (s : MemoryCacheRepository V) (e : Event V) : Prop :=
  match e.op with
  | .set key' _ options => key' = key → s.suppressed e.clock key' options = true
  | .delete key' => key' ≠ key
  | .deleteByTags tags => ∀ tag ∈ tags, ∀ keys, s.taggedKeys tag = some keys → key ∉ keys
  | .deleteByPattern pattern =>
    ∀ test, regExp (globSource pattern) = some test → test key = false
  | .flush => False
  | _ => True

def readsKey (key : String) (e : Event V) : Bool :=
  match e.op with
  | .get key' => key' = key
  | _ => false

theorem Shows.entryAt_of_spares {v : MemoryView V} (h : Shows config s v) {e : Event V}
    (he : e.expand = [e]) {entry : CacheEntry V} (hentry : s.entryAt key = some entry)
    (hspares : Spares regExp key s e) (hfresh : ∀ i, entry.isExpired (e.clock i) = false)
    (hstays : Overflows s e → v.recency.keys.getLast? ≠ some key) :
    (s.step regExp e).entryAt key =
      some (if readsKey key e then entry.registerHit else entry) := by
  obtain ⟨v', hstep, hshows⟩ := h.step regExp he
  rw [hshows.entryAt_eq]
  rw [h.entryAt_eq] at hentry
  cases hstep with
  | get key' clock =>
    by_cases hk : key' = key
    · subst hk
      rw [Recency.lookup_get_self, (Recency.get_eq_some_iff key').mpr ⟨entry, hentry, hfresh 0, rfl⟩]
      simp only [readsKey, decide_true, ↓reduceIte]
    · rw [Recency.lookup_get_ne _ _ _ (Ne.symm hk), hentry]
      simp only [readsKey, hk, decide_false, Bool.false_eq_true, ↓reduceIte]
  | set key' value options clock =>
    have hshown := h.suppressed_eq clock key' options
    simp only [MemoryView.set, ← hshown]
    split
    · exact hentry
    · next hnew =>
      have hnew' : s.suppressed clock key' options = false := Bool.eq_false_iff.mpr hnew
      have hk : key ≠ key' := fun heq => hnew (hspares heq.symm)
      rw [MemoryView.store, Recency.lookup_store_of_ne hk]
      · exact hentry
      · intro hnotMem hfull
        have hout : key' ∉ s.map.keys := fun hmem =>
          hnotMem (AList.mem_keys.mpr ((h.mem_keys_iff key').mp hmem))
        refine hstays ⟨key', value, options, rfl, hnew', hout, ?_⟩
        have hbounded := h.bounded
        rw [h.size_eq, h.maxEntries_eq]
        omega
  | delete key' clock =>
    have hk : key' ≠ key := hspares
    exact (AList.lookup_erase_ne (Ne.symm hk)).trans hentry
  | deleteByTags tags clock =>
    have hout : ¬ ∃ tag ∈ tags, key ∈ v.keysOf tag := by
      intro hany
      obtain ⟨tag, htag, hmem⟩ := hany
      obtain ⟨keys, hkeys, hkey⟩ := (h.mem_taggedKeys_iff tag key).mpr hmem
      exact hspares tag htag keys hkeys hkey
    rw [MemoryView.lookup_deleteByTags, if_neg hout]
    exact hentry
  | deleteByPattern pattern clock =>
    unfold MemoryView.deleteByPattern
    cases htest : regExp (globSource pattern) with
    | none => exact hentry
    | some test =>
      have hkeep : test key = false := hspares test htest
      simp only [Option.elim, MemoryView.retain, Recency.lookup_retain, hentry, Option.filter,
        hkeep, Bool.not_false, ↓reduceIte]
      rfl
  | exists_ key' clock =>
    have hfresh' : entry.isExpired (clock 0) = false := hfresh 0
    simp only [Recency.dropIf_eq_retain, Recency.lookup_retain, hentry, Option.filter, hfresh',
      Bool.and_false, Bool.not_false, ↓reduceIte]
    rfl
  | getStats memoryUsageMb clock => exact hentry
  | flush clock => exact hspares.elim
  | keys pattern clock => exact hentry
  | sweep clock readings hreadings =>
    obtain ⟨i, hi⟩ := hreadings key
    have hfresh' : entry.isExpired (readings key) = false := hi ▸ hfresh i
    simp only [MemoryView.retain, Recency.lookup_retain, hentry, Option.filter, hfresh',
      Bool.not_false, ↓reduceIte]
    rfl

/-- An entry that a run spares, in a working set that fits, is there after the run with the
reads of it counted. -/
theorem Ordered.entryAt_run {log : List String} (h : Ordered config log s)
    (htouched : log.getLast? = some key) {start : Time} {value : V} {options : SetOptions}
    {hits : ℕ} (hentry : s.entryAt key = some (recorded config key start value options hits))
    {events : List (Event V)} (hsingle : ∀ e ∈ events, e.expand = [e])
    (hfew : (workingSet regExp s key events).card < config.cacheMaxMemoryEntries)
    (hspares : Runs.Guarded (MemoryCacheRepository.step regExp) (Spares regExp key) s events)
    (hfresh : ∀ e ∈ events, ∀ i,
      (MemoryView.newEntry config start key value options).isExpired (e.clock i) = false) :
    (Runs.run (MemoryCacheRepository.step regExp) s events).entryAt key =
      some (recorded config key start value options (hits + events.countP (readsKey key))) := by
  induction events using List.reverseRecOn with
  | nil => exact hentry
  | append_singleton events e ih =>
    have hevents : ∀ e' ∈ events, e'.expand = [e'] :=
      fun e' he' => hsingle e' (List.mem_append_left _ he')
    have he := List.mem_append_right events (List.mem_singleton_self e)
    have hle := Finset.card_le_card (workingSet_append_subset regExp s key events [e])
    obtain ⟨hbefore, hlast⟩ := hspares.of_append
    have hfound := ih hevents (hle.trans_lt hfew) hbefore
      fun e' he' => hfresh e' (List.mem_append_left _ he')
    obtain ⟨v, hv, horder⟩ := h.run regExp hevents
    have hstep := hv.entryAt_of_spares (hsingle e he) hfound hlast.1 (hfresh e he) ?_
    · rw [Runs.run_append, Runs.run_cons, Runs.run_nil, hstep, List.countP_append,
        List.countP_singleton]
      cases readsKey key e <;> rfl
    · intro hoverflow hvictim
      have hfull := hv.le_card_of_overflow horder htouched hoverflow hvictim
      rw [workingSet, touchLog_append, touchLog, touchLog, List.append_nil] at hfew
      omega

/-- Right after a set has stored an entry, its key is the one touched last. -/
theorem ordered_of_set (regExp : RegExp) (config : Config) (before : List (Event V)) (value : V)
    {clock : Clock} {options : SetOptions}
    (hnew : (reach regExp config before).suppressed clock key options = false) :
    ∃ log, log.getLast? = some key ∧
      Ordered config log (reach regExp config (before ++ [⟨.set key value options, clock⟩])) ∧
      (reach regExp config (before ++ [⟨.set key value options, clock⟩])).entryAt key =
        some (recorded config key (clock 1) value options 0) := by
  let call : Event V := ⟨.set key value options, clock⟩
  have hlog : touchLog regExp (new config) ((before ++ [call]).flatMap Event.expand) =
      touchLog regExp (new config) (before.flatMap Event.expand) ++ [key] := by
    have htouch : touchedBy (reach regExp config before) call = [key] := by
      simp only [touchedBy, call, hnew, Bool.false_eq_true, ↓reduceIte]
    rw [List.flatMap_append, touchLog_append, ← Runs.run_flatMap Event.expand (step_eq_run regExp),
      ← reach, ← htouch]
    exact congrArg _ (List.append_nil _)
  have horder := ordered_reach regExp config (before ++ [call])
  rw [hlog] at horder
  refine ⟨_, List.getLast?_concat, horder, ?_⟩
  obtain ⟨v, hv, -⟩ := ordered_reach regExp config before
  rw [reach_concat]
  exact entryAt_set hv clock key value options hnew

/-- What a set has stored is served up to its deadline, with every read of it counted, as long
as the calls in between spare it and touch fewer other keys than fit. -/
theorem get_of_workingSet (regExp : RegExp) (config : Config) (before : List (Event V))
    {clock : Clock} {value : V} {options : SetOptions}
    (hnew : (reach regExp config before).suppressed clock key options = false)
    {after : List (Event V)} (hsingle : ∀ e ∈ after, e.expand = [e])
    (hfew : (workingSet regExp (reach regExp config (before ++ [⟨.set key value options, clock⟩]))
      key after).card < config.cacheMaxMemoryEntries)
    (hspares : Runs.Guarded (step regExp) (Spares regExp key)
      (reach regExp config (before ++ [⟨.set key value options, clock⟩])) after)
    (hfresh : ∀ e ∈ after, ∀ i,
      (MemoryView.newEntry config (clock 1) key value options).isExpired (e.clock i) = false)
    {clock' : Clock} (hnow :
      (MemoryView.newEntry config (clock 1) key value options).isExpired (clock' 0) = false) :
    ((reach regExp config (before ++ ⟨.set key value options, clock⟩ :: after)).get clock' key).2 =
      some { MemoryView.newEntry config (clock 1) key value options with
        hitCount := after.countP (readsKey key) + 1 } := by
  obtain ⟨log, htouched, horder, hentry⟩ := ordered_of_set regExp config before value hnew
  have hfound := horder.entryAt_run htouched hentry hsingle hfew hspares hfresh
  rw [reach, ← Runs.run_append, ← List.append_cons, Nat.zero_add] at hfound
  obtain ⟨v, hv, -⟩ :=
    ordered_reach regExp config (before ++ ⟨.set key value options, clock⟩ :: after)
  exact get_of_fresh hv hfound hnow

/-! ### What an entry goes back to -/

/-- An entry that a call leaves under a key has been spared, unless the call has stored it. -/
theorem Shows.spares_of_entryAt {v : MemoryView V} (h : Shows config s v) {e : Event V}
    (he : e.expand = [e]) {entry : CacheEntry V}
    (hentry : (s.step regExp e).entryAt key = some entry)
    (hother : ∀ value options, e.op = .set key value options →
      s.suppressed e.clock key options = true) :
    Spares regExp key s e ∧ ∃ entry', s.entryAt key = some entry' ∧
      entry = if readsKey key e then entry'.registerHit else entry' := by
  obtain ⟨v', hstep, hshows⟩ := h.step regExp he
  rw [hshows.entryAt_eq] at hentry
  rw [h.entryAt_eq]
  cases hstep with
  | get key' clock =>
    refine ⟨trivial, ?_⟩
    by_cases hk : key' = key
    · subst hk
      rw [Recency.lookup_get_self] at hentry
      obtain ⟨stored, hstored, -, rfl⟩ := (Recency.get_eq_some_iff key').mp hentry
      exact ⟨stored, hstored, by simp only [readsKey, decide_true, ↓reduceIte]⟩
    · rw [Recency.lookup_get_ne _ _ _ (Ne.symm hk)] at hentry
      exact ⟨entry, hentry, by simp only [readsKey, hk, decide_false, Bool.false_eq_true, ↓reduceIte]⟩
  | set key' value options clock =>
    have hshown := h.suppressed_eq clock key' options
    simp only [MemoryView.set, ← hshown] at hentry
    split at hentry
    · next hsuppressed => exact ⟨fun _ => hsuppressed, entry, hentry, rfl⟩
    · next hnew =>
      have hk : key ≠ key' := by
        rintro rfl
        exact hnew (hother value options rfl)
      refine ⟨fun heq => absurd heq.symm hk, entry, ?_, rfl⟩
      rcases Recency.lookup_store_or v.recency key config.cacheMaxMemoryEntries
        (MemoryView.newEntry config (clock 1) key' value options) hk with hsame | hnone
      · exact hsame.symm.trans hentry
      · cases hnone.symm.trans hentry
  | delete key' clock =>
    have hk : key' ≠ key := by
      rintro rfl
      rw [AList.lookup_erase] at hentry
      cases hentry
    exact ⟨hk, entry, (AList.lookup_erase_ne (Ne.symm hk)).symm.trans hentry, rfl⟩
  | deleteByTags tags clock =>
    rw [MemoryView.lookup_deleteByTags] at hentry
    split at hentry
    · cases hentry
    · next hout =>
      refine ⟨fun tag htag keys hkeys hmem => hout ⟨tag, htag, ?_⟩, entry, hentry, rfl⟩
      exact (h.mem_taggedKeys_iff tag key).mp ⟨keys, hkeys, hmem⟩
  | deleteByPattern pattern clock =>
    unfold MemoryView.deleteByPattern at hentry
    cases htest : regExp (globSource pattern) with
    | none =>
      rw [htest] at hentry
      exact ⟨fun test hsome => absurd (htest.symm.trans hsome) (by simp), entry, hentry, rfl⟩
    | some test =>
      simp only [htest, Option.elim, MemoryView.retain, Recency.lookup_retain] at hentry
      obtain ⟨hstored, hkeep⟩ := Option.filter_eq_some_iff.mp hentry
      refine ⟨fun test' hsome => ?_, entry, hstored, rfl⟩
      obtain rfl := Option.some.inj (htest.symm.trans hsome)
      simpa using hkeep
  | exists_ key' clock =>
    simp only [Recency.dropIf_eq_retain, Recency.lookup_retain] at hentry
    exact ⟨trivial, entry, (Option.filter_eq_some_iff.mp hentry).1, rfl⟩
  | getStats memoryUsageMb clock => exact ⟨trivial, entry, hentry, rfl⟩
  | flush clock => exact absurd hentry (by simp [MemoryView.empty])
  | keys pattern clock => exact ⟨trivial, entry, hentry, rfl⟩
  | sweep clock readings hreadings =>
    simp only [MemoryView.retain, Recency.lookup_retain] at hentry
    exact ⟨trivial, entry, (Option.filter_eq_some_iff.mp hentry).1, rfl⟩

/-- The last set of a key that stored something, and what has happened since: nothing has
removed or replaced the entry, and `hits` calls have read it. -/
def LastStored (config : Config) (regExp : RegExp) (key : String) (events : List (Event V))
    (stored : CacheEntry V) (hits : ℕ) : Prop :=
  ∃ before after clock value options,
    events = before ++ ⟨.set key value options, clock⟩ :: after ∧
    (reach regExp config before).suppressed clock key options = false ∧
    stored = MemoryView.newEntry config (clock 1) key value options ∧
    Runs.Guarded (step regExp) (Spares regExp key)
      (reach regExp config (before ++ [⟨.set key value options, clock⟩])) after ∧
    hits = after.countP (readsKey key)

theorem LastStored.concat {events : List (Event V)} {stored : CacheEntry V} {hits : ℕ}
    (h : LastStored config regExp key events stored hits) {e : Event V}
    (hspares : Spares regExp key (reach regExp config events) e) :
    LastStored config regExp key (events ++ [e]) stored
      (hits + if readsKey key e then 1 else 0) := by
  obtain ⟨before, after, clock, value, options, rfl, hnew, hstored, hguarded, rfl⟩ := h
  refine ⟨before, after ++ [e], clock, value, options, by simp, hnew, hstored, ?_, ?_⟩
  · refine hguarded.append ⟨?_, trivial⟩
    rwa [List.append_cons, reach, Runs.run_append] at hspares
  · rw [List.countP_append, List.countP_singleton]

/-- What a run leaves under a key is what the last set has stored there, with the reads since
counted, and nothing has removed it. -/
theorem lastStored_of_entryAt (regExp : RegExp) (config : Config) {events : List (Event V)}
    (hsingle : ∀ e ∈ events, e.expand = [e]) {entry : CacheEntry V}
    (hentry : (reach regExp config events).entryAt key = some entry) :
    ∃ stored hits, LastStored config regExp key events stored hits ∧
      entry = { stored with hitCount := hits } := by
  induction events using List.reverseRecOn generalizing entry with
  | nil =>
    have hnone : (new config : MemoryCacheRepository V).entryAt key = none :=
      (Shows.new config).entryAt_eq key
    exact absurd (hnone.symm.trans hentry) (by simp)
  | append_singleton events e ih =>
    have hevents : ∀ e' ∈ events, e'.expand = [e'] :=
      fun e' he' => hsingle e' (List.mem_append_left _ he')
    have he := hsingle e (List.mem_append_right _ (List.mem_singleton_self e))
    obtain ⟨v, hv, -⟩ := ordered_reach regExp config events
    rw [reach_concat] at hentry
    by_cases hstores : ∃ value options, e.op = .set key value options ∧
        (reach regExp config events).suppressed e.clock key options = false
    · obtain ⟨value, options, hop, hnew⟩ := hstores
      obtain ⟨op, clock⟩ := e
      subst hop
      have hset := entryAt_set hv clock key value options hnew
      exact ⟨_, 0, ⟨events, [], clock, value, options, rfl, hnew, rfl, trivial, rfl⟩,
        (Option.some.inj (hset.symm.trans hentry)).symm⟩
    · have hother : ∀ value options, e.op = .set key value options →
          (reach regExp config events).suppressed e.clock key options = true := by
        intro value options hop
        by_contra hnew
        exact hstores ⟨value, options, hop, Bool.eq_false_iff.mpr hnew⟩
      obtain ⟨hspares, entry', hentry', rfl⟩ := hv.spares_of_entryAt he hentry hother
      obtain ⟨stored, hits, hlast, rfl⟩ := ih hevents hentry'
      refine ⟨stored, _, hlast.concat hspares, ?_⟩
      cases readsKey key e <;> rfl

end MemoryCacheRepository

end EdgeCache
