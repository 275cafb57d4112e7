import EdgeCache.LayeredOutage
import EdgeCache.MemoryInterleaving
import EdgeCache.MemoryTags

/-!
Entries of the memory tier that have expired and have not been swept away yet. A read looks at
the time of an entry and treats an expired one as missing; `delete`, the invalidations and
`keys` go by what is stored. What a call returns is the same after a sweep exactly when no
expired entry is stored under a key that it goes by.
-/
namespace EdgeCache

variable {V : Type}

/-! ### Lists that leave something out -/

theorem length_filter_eq_iff {α : Type} {l l' : List α} (h : l'.Sublist l) (hl : l.Nodup)
    (p : α → Bool) :
    (l'.filter p).length = (l.filter p).length ↔ ∀ a ∈ l, p a = true → a ∈ l' := by
  constructor
  · intro hlength a ha hp
    have heq : l'.filter p = l.filter p := (h.filter p).eq_of_length hlength
    have hmem : a ∈ l.filter p := List.mem_filter.mpr ⟨ha, hp⟩
    rw [← heq] at hmem
    exact (List.mem_filter.mp hmem).1
  · intro hall
    refine le_antisymm (h.filter p).length_le ?_
    refine (List.subperm_of_subset (hl.filter p) fun a ha => ?_).length_le
    obtain ⟨ha, hp⟩ := List.mem_filter.mp ha
    exact List.mem_filter.mpr ⟨hall a ha hp, hp⟩

theorem filter_eq_iff {α : Type} {l l' : List α} (h : l'.Sublist l) (hl : l.Nodup)
    (p : α → Bool) : l'.filter p = l.filter p ↔ ∀ a ∈ l, p a = true → a ∈ l' := by
  rw [← length_filter_eq_iff h hl p]
  exact ⟨congrArg List.length, (h.filter p).eq_of_length⟩

/-- Of two calls that may throw, what they return tells their results apart. -/
theorem elim_inj {α β : Type} {b : β} {f : α → β} (hb : ∀ a, b ≠ f a)
    (hf : ∀ {a a'}, f a = f a' → a = a') {o o' : Option α} :
    o.elim b f = o'.elim b f ↔ o = o' := by
  constructor
  · intro h
    cases o with
    | none =>
      cases o' with
      | none => rfl
      | some a => exact absurd h (hb a)
    | some a =>
      cases o' with
      | none => exact absurd h.symm (hb a)
      | some a' => exact congrArg some (hf h)
  · exact fun h => h ▸ rfl

namespace Recency

variable {a a' : Recency V} {now later : Time}

theorem mem_keys_iff_isSome (key : String) : key ∈ a.keys ↔ (a.lookup key).isSome = true :=
  AList.lookup_isSome.symm

theorem length_filter_add (T : String → Bool)
    (h : ∀ key, a'.lookup key = if T key then none else a.lookup key) :
    (a.keys.filter T).length + a'.keys.length = a.keys.length := by
  have hperm : a'.keys.Perm (a.keys.filter fun key => !T key) := by
    refine (List.perm_ext_iff_of_nodup a'.keys_nodup (a.keys_nodup.filter _)).mpr fun key => ?_
    rw [List.mem_filter, mem_keys_iff_isSome, mem_keys_iff_isSome, h key]
    cases T key <;> simp
  rw [hperm.length_eq]
  exact (List.length_eq_length_filter_add T).symm

/-- A list without some of the entries that have expired. -/
def Without (now : Time) (a a' : Recency V) : Prop :=
  ∀ key, a'.lookup key = a.lookup key ∨
    a'.lookup key = none ∧ ∃ entry, a.lookup key = some entry ∧ entry.isExpired now = true

theorem without_retain (now : Time) (a : Recency V) :
    Without now a (a.retain fun _ entry => !entry.isExpired now) := by
  intro key
  rw [lookup_retain]
  cases a.lookup key with
  | none => exact Or.inl rfl
  | some entry =>
    cases hexpired : entry.isExpired now with
    | false => exact Or.inl (by simp [hexpired])
    | true => exact Or.inr ⟨by simp [hexpired], entry, rfl, hexpired⟩

theorem Without.get (h : Without now a a') (hle : now ≤ later) (key : String) :
    (a'.get later key).2 = (a.get later key).2 ∧
      Without now (a.get later key).1 (a'.get later key).1 := by
  have hsame : (a'.get later key).2 = (a.get later key).2 := by
    rcases h key with heq | ⟨hnone, entry, hentry, hexpired⟩
    · unfold Recency.get
      rw [heq]
      split
      · rfl
      · split <;> rfl
    · unfold Recency.get
      rw [hnone, hentry]
      simp [entry.isExpired_mono hle hexpired]
  refine ⟨hsame, fun key' => ?_⟩
  by_cases hk : key' = key
  · subst hk
    rw [lookup_get_self, lookup_get_self]
    exact Or.inl hsame
  · rw [lookup_get_ne _ _ _ hk, lookup_get_ne _ _ _ hk]
    exact h key'

theorem Without.any (h : Without now a a') (hle : now ≤ later) (key : String) :
    (a'.lookup key).any (fun entry => !entry.isExpired later) =
      (a.lookup key).any fun entry => !entry.isExpired later := by
  rcases h key with heq | ⟨hnone, entry, hentry, hexpired⟩
  · rw [heq]
  · simp [hnone, hentry, entry.isExpired_mono hle hexpired]

end Recency

namespace MemoryCacheRepository

variable {s s' : MemoryCacheRepository V} {v v' : MemoryView V} {config : Config} {now : Time}

/-- No entry under the key has expired. -/
def Fresh (s : MemoryCacheRepository V) (now : Time) (key : String) : Prop :=
  ∀ entry, s.entryAt key = some entry → entry.isExpired now = false

/-- The keys that `keys` lists, unless the pattern does not compile. -/
def listed (regExp : RegExp) (pattern : Option String) : Option (String → Bool) :=
  match pattern with
  | none => some fun _ => true
  | some p => if p = "" then some fun _ => true else regExp (globSource p)

/-- No expired entry is stored where the call does not look at the time. -/
def FreshFor (regExp : RegExp) (s : MemoryCacheRepository V) (now : Time) : Op V → Prop
  | .delete key => s.Fresh now key
  | .deleteByTags tags =>
    ∀ tag ∈ tags, ∀ keys, s.taggedKeys tag = some keys → ∀ key ∈ keys, s.Fresh now key
  | .deleteByPattern pattern =>
    ∀ test, regExp (globSource pattern) = some test → ∀ key, test key = true → s.Fresh now key
  | .keys pattern =>
    ∀ test, listed regExp pattern = some test → ∀ key, test key = true → s.Fresh now key
  | .getStats _ => ∀ key, s.Fresh now key
  | _ => True

theorem keys_eq_map (regExp : RegExp) (pattern : Option String) (s : MemoryCacheRepository V) :
    s.keys regExp pattern = (listed regExp pattern).map fun test => s.map.keys.filter test := by
  cases pattern with
  | none => simp [keys, listed]
  | some p =>
    by_cases hp : p = ""
    · simp [keys, listed, hp]
    · simp [keys, listed, hp]

/-! ### What a sweep leaves -/

theorem sublist_keys_delete (m : SlotMap String Ref) (key : String) :
    (m.delete key).keys.Sublist m.keys := by
  rw [SlotMap.keys, SlotMap.entries_delete]
  exact List.filter_sublist.map _

theorem sublist_keys_sweep (clock : Clock) (s : MemoryCacheRepository V) :
    (s.sweep clock).map.keys.Sublist s.map.keys := by
  refine SlotMap.visit_invariant (I := fun s' : MemoryCacheRepository V =>
    s'.map.keys.Sublist s.map.keys) (fun i s' e hs' => ?_) (List.Sublist.refl _)
  unfold sweepEntry
  split
  · exact hs'
  · split
    · simp only [removeFromMap, (sameRest_removeNode s' e.2).map_eq]
      exact (sublist_keys_delete s'.map e.1).trans hs'
    · exact hs'

theorem stats_sweep (clock : Clock) (s : MemoryCacheRepository V) :
    (s.sweep clock).stats = s.stats := by
  refine SlotMap.visit_invariant (I := fun s' : MemoryCacheRepository V => s'.stats = s.stats)
    (fun i s' e hs' => ?_) rfl
  unfold sweepEntry
  split
  · exact hs'
  · split
    · exact (congrArg MemoryCacheRepository.stats (sameRest_removeNode s' e.2)).trans hs'
    · exact hs'

/-- The view of a state that is swept at one reading of the clock. -/
def live (now : Time) (v : MemoryView V) : MemoryView V :=
  v.retain fun _ entry => !entry.isExpired now

theorem keys_live_sublist (now : Time) (v : MemoryView V) :
    (live now v).recency.keys.Sublist v.recency.keys := Recency.keys_retain_sublist _ _

theorem mem_live_iff {key : String} (hkey : key ∈ v.recency.keys) :
    key ∈ (live now v).recency.keys ↔
      ∀ entry, v.recency.lookup key = some entry → entry.isExpired now = false := by
  rw [Recency.mem_keys_iff_isSome] at hkey ⊢
  obtain ⟨entry, hentry⟩ := Option.isSome_iff_exists.mp hkey
  rw [live, MemoryView.retain, Recency.lookup_retain, hentry]
  cases hexpired : entry.isExpired now <;> simp [Option.filter, hexpired]

theorem forall_mem_live_iff (h : Shows config s v) (now : Time) (T : String → Bool) :
    (∀ key ∈ v.recency.keys, T key = true → key ∈ (live now v).recency.keys) ↔
      ∀ key, T key = true → s.Fresh now key := by
  constructor
  · intro hall key hT entry hentry
    rw [h.entryAt_eq] at hentry
    have hkey : key ∈ v.recency.keys := by
      rw [Recency.mem_keys_iff_isSome, hentry]
      rfl
    exact (mem_live_iff hkey).mp (hall key hkey hT) entry hentry
  · intro hall key hkey hT
    refine (mem_live_iff hkey).mpr fun entry hentry => hall key hT entry ?_
    rw [h.entryAt_eq, hentry]

/-- Counting the keys that pass a test, with and without the expired ones. -/
theorem count_live_iff (h : Shows config s v) (now : Time) (T : String → Bool) {a a' : Recency V}
    {count count' : ℕ}
    (ha : ∀ key, a.lookup key = if T key then none else v.recency.lookup key)
    (ha' : ∀ key, a'.lookup key = if T key then none else (live now v).recency.lookup key)
    (hcount : count + a.keys.length = v.recency.keys.length)
    (hcount' : count' + a'.keys.length = (live now v).recency.keys.length) :
    count' = count ↔ ∀ key, T key = true → s.Fresh now key := by
  have hadd := Recency.length_filter_add T ha
  have hadd' := Recency.length_filter_add T ha'
  rw [← forall_mem_live_iff h,
    ← length_filter_eq_iff (keys_live_sublist now v) v.recency.keys_nodup]
  omega

def mgetOne (clock : Clock) (state : MemoryCacheRepository V × List (Option (CacheEntry V)))
    (p : String × ℕ) : MemoryCacheRepository V × List (Option (CacheEntry V)) :=
  ((state.1.get (fun _ => clock p.2) p.1).1, state.2 ++ [(state.1.get (fun _ => clock p.2) p.1).2])

theorem mget_eq_foldl (clock : Clock) (keys : List String) (s : MemoryCacheRepository V) :
    s.mget clock keys = keys.zipIdx.foldl (mgetOne clock) (s, []) := rfl

theorem mget_without (h : Shows config s v) (h' : Shows config s' v')
    (hwithout : Recency.Without now v.recency v'.recency) {clock : Clock}
    (hclock : ∀ i, now ≤ clock i) (keys : List String) :
    (s'.mget clock keys).2 = (s.mget clock keys).2 := by
  rw [mget_eq_foldl, mget_eq_foldl]
  generalize ([] : List (Option (CacheEntry V))) = found
  induction keys.zipIdx generalizing found s s' v v' with
  | nil => rfl
  | cons p rest ih =>
    obtain ⟨hshows, hfound⟩ := h.get (fun _ => clock p.2) p.1
    obtain ⟨hshows', hfound'⟩ := h'.get (fun _ => clock p.2) p.1
    obtain ⟨hsame, hrest⟩ := hwithout.get (hclock p.2) p.1
    have hentry : (s'.get (fun _ => clock p.2) p.1).2 = (s.get (fun _ => clock p.2) p.1).2 :=
      hfound'.trans (hsame.trans hfound.symm)
    rw [List.foldl_cons, List.foldl_cons, mgetOne, mgetOne, hentry]
    exact ih hshows hshows' hrest _

/-! ### What calls return -/

section Calls

variable (h : Shows config s v) (now : Time)

include h

theorem delete_sweep_iff (key : String) :
    ((s.sweep fun _ => now).delete key).2 = (s.delete key).2 ↔ s.Fresh now key := by
  have h' : Shows config (s.sweep fun _ => now) (live now v) := h.sweep fun _ => now
  have hmem := forall_mem_live_iff h now fun key' => key' = key
  simp only [decide_eq_true_eq, forall_eq] at hmem
  rw [(h.delete key).2.1, (h'.delete key).2.1, decide_eq_decide, ← hmem]
  constructor
  · intro hiff key' hkey heq
    subst heq
    exact hiff.mpr hkey
  · intro hall
    exact ⟨fun hkey => (keys_live_sublist now v).subset hkey, fun hkey => hall key hkey rfl⟩

theorem deleteByTags_sweep_iff (tags : List String) :
    ((s.sweep fun _ => now).deleteByTags tags).2 = (s.deleteByTags tags).2 ↔
      ∀ tag ∈ tags, ∀ keys, s.taggedKeys tag = some keys → ∀ key ∈ keys, s.Fresh now key := by
  have h' : Shows config (s.sweep fun _ => now) (live now v) := h.sweep fun _ => now
  have hlookup : ∀ (v : MemoryView V) key, (v.deleteByTags tags).recency.lookup key =
      if decide (∃ tag ∈ tags, key ∈ v.keysOf tag) then none else v.recency.lookup key := by
    intro v key
    rw [MemoryView.lookup_deleteByTags]
    simp only [decide_eq_true_eq]
  have hcount := count_live_iff h now _ (hlookup v) (hlookup (live now v))
    (h.deleteByTags tags).2 (h'.deleteByTags tags).2
  rw [hcount]
  simp only [decide_eq_true_eq]
  constructor
  · intro hall tag htag keys hkeys key hkey
    exact hall key ⟨tag, htag, (h.mem_taggedKeys_iff tag key).mp ⟨keys, hkeys, hkey⟩⟩
  · intro hall key hany
    obtain ⟨tag, htag, hkey⟩ := hany
    obtain ⟨keys, hkeys, hmem⟩ := (h.mem_taggedKeys_iff tag key).mpr hkey
    exact hall tag htag keys hkeys key hmem

theorem deleteByPattern_sweep_iff (regExp : RegExp) (pattern : String) :
    ((s.sweep fun _ => now).deleteByPattern regExp pattern).2 =
        (s.deleteByPattern regExp pattern).2 ↔
      ∀ test, regExp (globSource pattern) = some test → ∀ key, test key = true →
        s.Fresh now key := by
  have h' : Shows config (s.sweep fun _ => now) (live now v) := h.sweep fun _ => now
  obtain ⟨-, hcount⟩ := h.deleteByPattern regExp pattern
  obtain ⟨-, hcount'⟩ := h'.deleteByPattern regExp pattern
  simp only [MemoryCacheRepository.deleteByPattern, MemoryView.deleteByPattern] at hcount hcount' ⊢
  cases hregExp : regExp (globSource pattern) with
  | none => simp
  | some test =>
    simp only [hregExp, Option.elim_some] at hcount hcount'
    have hlookup : ∀ (v : MemoryView V) key,
        (v.retain fun key _ => !test key).recency.lookup key =
          if test key then none else v.recency.lookup key := by
      intro v key
      rw [MemoryView.retain, Recency.lookup_retain]
      cases v.recency.lookup key <;> cases test key <;> simp [Option.filter]
    have hiff := count_live_iff h now test (hlookup v) (hlookup (live now v))
      (hcount _ rfl) (hcount' _ rfl)
    simpa using hiff

theorem keys_sweep_iff (regExp : RegExp) (pattern : Option String) :
    (s.sweep fun _ => now).keys regExp pattern = s.keys regExp pattern ↔
      ∀ test, listed regExp pattern = some test → ∀ key, test key = true → s.Fresh now key := by
  have h' : Shows config (s.sweep fun _ => now) (live now v) := h.sweep fun _ => now
  rw [keys_eq_map, keys_eq_map]
  cases listed regExp pattern with
  | none => simp
  | some test =>
    have hsublist := sublist_keys_sweep (fun _ => now) s
    simp only [Option.map_some, Option.some.injEq, forall_eq']
    rw [filter_eq_iff hsublist s.map.keys_nodup, ← forall_mem_live_iff h]
    simp only [h.mem_keys_iff, h'.mem_keys_iff]

theorem getStats_sweep_iff (memoryUsageMb : ℚ) :
    (s.sweep fun _ => now).getStats memoryUsageMb = s.getStats memoryUsageMb ↔
      ∀ key, s.Fresh now key := by
  have h' : Shows config (s.sweep fun _ => now) (live now v) := h.sweep fun _ => now
  have hall := forall_mem_live_iff h now fun _ => true
  have hlength := length_filter_eq_iff (keys_live_sublist now v) v.recency.keys_nodup fun _ => true
  simp only [forall_const, List.filter_true] at hall hlength
  simp only [getStats, stats_sweep, CacheStats.mk.injEq, true_and, and_true, h.size_eq, h'.size_eq]
  rw [hlength, hall]

end Calls

/-- What a call returns is the same after a sweep if and only if no expired entry is stored where
the call does not look at the time. -/
theorem answer_sweep_iff (regExp : RegExp) {config : Config} {s : MemoryCacheRepository V}
    (hs : Reached regExp config s) (now : Time) (clock : Clock) (hclock : ∀ i, now ≤ clock i)
    (op : Op V) :
    (s.sweep fun _ => now).answer regExp ⟨op, clock⟩ = s.answer regExp ⟨op, clock⟩ ↔
      FreshFor regExp s now op := by
  obtain ⟨actions, rfl⟩ := hs
  obtain ⟨v, h⟩ := sound_of_reach regExp config actions
  have h' := h.sweep fun _ => now
  have hwithout := Recency.without_retain now v.recency
  cases op with
  | get key =>
    refine iff_of_true (congrArg Answer.entry ?_) trivial
    rw [(h.get clock key).2, (h'.get clock key).2]
    exact (hwithout.get (hclock 0) key).1
  | set key value options => exact iff_of_true rfl trivial
  | delete key => exact (Answer.flag.injEq ..).to_iff.trans (delete_sweep_iff h now key)
  | deleteByTags tags =>
    exact (Answer.count.injEq ..).to_iff.trans (deleteByTags_sweep_iff h now tags)
  | deleteByPattern pattern =>
    exact (elim_inj (fun _ h => by cases h) Answer.count.inj).trans
      (deleteByPattern_sweep_iff h now regExp pattern)
  | exists_ key =>
    refine iff_of_true (congrArg Answer.flag ?_) trivial
    rw [(h.exists_ clock key).2, (h'.exists_ clock key).2]
    exact hwithout.any (hclock 0) key
  | getStats memoryUsageMb =>
    exact (Answer.stats.injEq ..).to_iff.trans (getStats_sweep_iff h now memoryUsageMb)
  | flush => exact iff_of_true rfl trivial
  | keys pattern =>
    exact (elim_inj (fun _ h => by cases h) Answer.keys.inj).trans
      (keys_sweep_iff h now regExp pattern)
  | mget keys =>
    exact iff_of_true (congrArg Answer.entries (mget_without h h' hwithout hclock keys)) trivial
  | mset entries => exact iff_of_true rfl trivial
  | sweep => exact iff_of_true rfl trivial

/-- A fresh entry is deleted and counted with or without a sweep. -/
theorem answer_sweep_iff_of_fresh :
    let s : MemoryCacheRepository ℕ := reach (fun _ => none) ⟨1, 60, by decide, by decide⟩
      [⟨.set "a" 7 (.tagged 60 ["t"]), fun _ => ⟨1000, by decide⟩⟩]
    (s.sweep fun _ => ⟨2000, by decide⟩).answer (fun _ => none)
        ⟨.deleteByTags ["t"], fun _ => ⟨3000, by decide⟩⟩ =
      s.answer (fun _ => none) ⟨.deleteByTags ["t"], fun _ => ⟨3000, by decide⟩⟩ := by
  intro s
  refine (answer_sweep_iff (fun _ => none) (reached_reach _ _ _) ⟨2000, by decide⟩
    (fun _ => ⟨3000, by decide⟩) (fun _ => Subtype.mk_le_mk.mpr (by decide))
    (.deleteByTags ["t"])).mpr fun tag htag keys hkeys key hkey entry hentry => ?_
  obtain rfl := List.mem_singleton.mp htag
  obtain rfl : keys = ["a"] := Option.some.inj (hkeys.symm.trans (by decide +kernel))
  obtain rfl := List.mem_singleton.mp hkey
  obtain rfl : entry = .create ⟨1000, by decide⟩ "a" 7 (.ofNat 60) ["t"] [] :=
    Option.some.inj (hentry.symm.trans (by decide +kernel))
  decide +kernel

/-- The deletion of an expired entry is reported, unless it has been swept away. -/
theorem not_answer_sweep_of_expired :
    ¬ ∀ (events : List (Event ℕ)) (now : Time) (op : Op ℕ),
      let s := reach (fun _ => none) ⟨1, 60, by decide, by decide⟩ events
      (s.sweep fun _ => now).answer (fun _ => none) ⟨op, fun _ => now⟩ =
        s.answer (fun _ => none) ⟨op, fun _ => now⟩ := by
  intro hall
  have hsame := hall [⟨.set "a" 7 (.ofTtl 1), fun _ => ⟨1000, by decide⟩⟩] ⟨3000, by decide⟩
    (.delete "a")
  revert hsame
  decide +kernel

end MemoryCacheRepository

end EdgeCache
