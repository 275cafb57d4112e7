import EdgeCache.MemoryInterleaving
import EdgeCache.MemoryPatterns

/-!
Listing and deleting by a pattern in the memory tier. `keys` tests a copy of the keys,
`deleteByPattern` tests the keys of the live map while it takes them out of it; both come to
the same keys.
-/
namespace EdgeCache

open LinkedList (Visits)

variable {V : Type}

namespace MemoryCacheRepository

/-- The entries under their keys, from the head of the list to its tail. -/
def Entries (s : MemoryCacheRepository V) (entries : List (Σ _ : String, CacheEntry V)) : Prop :=
  ∃ l, Visits s.nextOf s.head l ∧ l.map s.item = entries.map some

section Listing

variable {config : Config} {regExp : RegExp} {s : MemoryCacheRepository V} {v : MemoryView V}
  {pattern : String} {test : String → Bool}

theorem Shows.entries (h : Shows config s v) : s.Entries v.recency.entries := by
  obtain ⟨l, hspelled, -, -, hshown⟩ := h.list
  refine ⟨l, hspelled.visits_next, ?_⟩
  clear hspelled
  generalize v.recency.entries = entries at hshown
  induction hshown with
  | nil => rfl
  | cons hitem _ ih => rw [List.map_cons, List.map_cons, hitem, ih]

theorem keys_of_compiles (hempty : regExp "" = some fun _ => true)
    (hcompiles : regExp (globSource pattern) = some test) (s : MemoryCacheRepository V) :
    s.keys regExp (some pattern) = some (s.map.keys.filter test) := by
  unfold keys
  by_cases hpattern : pattern = ""
  · subst hpattern
    have hsource : globSource "" = "" := String.toList_inj.mp (toList_globSource "")
    rw [hsource, hempty] at hcompiles
    obtain rfl := Option.some.inj hcompiles
    simp
  · simp only [hpattern, ↓reduceIte, hcompiles, Option.map_some]

theorem stats_deleteCounting (state : MemoryCacheRepository V × ℕ) (key : String) :
    (deleteCounting state key).2 = state.2 ∧ (deleteCounting state key).1 = state.1 ∨
      (deleteCounting state key).2 = state.2 + 1 ∧
      (deleteCounting state key).1.stats =
        { state.1.stats with deletes := state.1.stats.deletes + 1 } := by
  unfold deleteCounting delete
  cases state.1.map.get key with
  | none => exact Or.inl ⟨rfl, rfl⟩
  | some node =>
    have hstats : (state.1.removeNode node).stats = state.1.stats :=
      (sameRest_removeNode state.1 node).stats_eq
    refine Or.inr ⟨rfl, ?_⟩
    simp only [countDelete, removeFromMap, hstats]

/-- The deletions since `s` are those that have been counted, and no other counter has moved. -/
def Tallied (s : MemoryCacheRepository V) (state : MemoryCacheRepository V × ℕ) : Prop :=
  state.1.stats = { s.stats with deletes := s.stats.deletes + state.2 }

theorem Tallied.deleteCounting {state : MemoryCacheRepository V × ℕ} (h : s.Tallied state)
    (key : String) : s.Tallied (deleteCounting state key) := by
  unfold Tallied at h ⊢
  rcases stats_deleteCounting state key with ⟨hcount, hsame⟩ | ⟨hcount, hstats⟩
  · rw [hsame, hcount, h]
  · rw [hstats, hcount, h]
    rfl

theorem stats_deleteByPattern (hcompiles : regExp (globSource pattern) = some test)
    (s : MemoryCacheRepository V) {count : ℕ}
    (hcount : (s.deleteByPattern regExp pattern).2 = some count) :
    (s.deleteByPattern regExp pattern).1.stats =
      { s.stats with deletes := s.stats.deletes + count } := by
  have hturn : ∀ (state : MemoryCacheRepository V × ℕ) (e : Σ _ : String, LinkedList.Ref),
      s.Tallied state → s.Tallied (if test e.1 then deleteCounting state e.1 else state) := by
    intro state e h
    split
    · exact h.deleteCounting e.1
    · exact h
  unfold deleteByPattern at hcount ⊢
  rw [hcompiles] at hcount ⊢
  obtain rfl := Option.some.inj hcount
  exact SlotMap.visit_invariant (fun _ state e h => hturn state e h) (rfl : s.Tallied (s, 0))

theorem shows_deleteByPattern (h : Shows config s v)
    (hcompiles : regExp (globSource pattern) = some test) :
    Shows config (s.deleteByPattern regExp pattern).1 (v.retain fun key _ => !test key) := by
  have hshows := (h.deleteByPattern regExp pattern).1
  rw [MemoryView.deleteByPattern, hcompiles] at hshows
  exact hshows

theorem mem_keys_deleteByPattern (h : Shows config s v)
    (hcompiles : regExp (globSource pattern) = some test) (key : String) :
    key ∈ (s.deleteByPattern regExp pattern).1.map.keys ↔ key ∈ s.map.keys ∧ test key = false := by
  rw [(shows_deleteByPattern h hcompiles).mem_keys_iff_isSome, h.mem_keys_iff_isSome,
    MemoryView.retain, Recency.lookup_retain]
  cases v.recency.lookup key with
  | none => simp
  | some entry => cases test key <;> simp

theorem count_deleteByPattern (h : Shows config s v)
    (hcompiles : regExp (globSource pattern) = some test) :
    (s.deleteByPattern regExp pattern).2 = some (s.map.keys.filter test).length := by
  obtain ⟨count, hcount⟩ : ∃ count, (s.deleteByPattern regExp pattern).2 = some count := by
    unfold deleteByPattern
    rw [hcompiles]
    exact ⟨_, rfl⟩
  have hleft := (h.deleteByPattern regExp pattern).2 count hcount
  have hview : v.deleteByPattern regExp pattern = v.retain fun key _ => !test key := by
    rw [MemoryView.deleteByPattern, hcompiles]
    rfl
  have hkept : (v.retain fun key _ => !test key).recency.keys =
      v.recency.keys.filter fun key => !test key :=
    (List.filter_map (p := fun key => !test key) (f := Sigma.fst) ..).symm
  have hperm : s.map.keys.Perm v.recency.keys :=
    (List.perm_ext_iff_of_nodup s.map.keys_nodup v.recency.nodupKeys).mpr h.mem_keys_iff
  have hboth := List.length_eq_length_filter_add test (l := v.recency.keys)
  rw [hview, hkept] at hleft
  rw [hcount, (hperm.filter test).length_eq]
  exact congrArg some (by omega)

end Listing

/-- Deleting by a pattern, with nothing in between, comes to an end; it takes away exactly the
keys that were listed for the pattern, counts each of them once, and leaves the other entries
as they were, in their order. -/
theorem deleteByPattern_of_listed (regExp : RegExp) (hempty : regExp "" = some fun _ => true)
    (config : Config) (actions : List (Action V)) (pattern : String) (test : String → Bool)
    (hcompiles : regExp (globSource pattern) = some test) (clock : Clock) :
    let s := (System.reach regExp config actions).repo
    let s' := (s.deleteByPattern regExp pattern).1
    Completes regExp (s.begin_ regExp ⟨.deleteByPattern pattern, clock⟩) s' ∧
    ∃ listed, s.keys regExp (some pattern) = some listed ∧ listed.Nodup ∧
      (s.deleteByPattern regExp pattern).2 = some listed.length ∧
      (∀ key, key ∈ s'.map.keys ↔ key ∈ s.map.keys ∧ key ∉ listed) ∧
      s'.stats = { s.stats with deletes := s.stats.deletes + listed.length } ∧
      (∃ entries, s.Entries entries ∧ s'.Entries (entries.filter fun e => e.1 ∉ listed)) ∧
      s'.keys regExp (some pattern) = some [] := by
  intro s s'
  obtain ⟨v, hv⟩ : Sound config s := sound_of_reach regExp config actions
  have hkeys := mem_keys_deleteByPattern hv hcompiles
  have hlisted : ∀ key ∈ s.map.keys, key ∉ s.map.keys.filter test ↔ test key = false := by
    intro key hkey
    rw [List.mem_filter, not_and, Bool.not_eq_true]
    exact ⟨fun h => h hkey, fun h _ => h⟩
  refine ⟨?_, s.map.keys.filter test, keys_of_compiles hempty hcompiles s,
    s.map.keys_nodup.filter test, count_deleteByPattern hv hcompiles, fun key => ?_,
    stats_deleteByPattern hcompiles s (count_deleteByPattern hv hcompiles),
    ⟨v.recency.entries, hv.entries, ?_⟩, ?_⟩
  · simp only [begin_, hcompiles, s', deleteByPattern, SlotMap.visit_eq_visitFrom]
    exact completes_runPattern test 0 (s, 0)
  · rw [hkeys]
    exact and_congr_right fun hkey => (hlisted key hkey).symm
  · have hafter := (shows_deleteByPattern hv hcompiles).entries
    have hsame : (v.retain fun key _ => !test key).recency.entries =
        v.recency.entries.filter fun e => e.1 ∉ s.map.keys.filter test := by
      refine List.filter_congr fun e he => ?_
      have hkey : e.1 ∈ s.map.keys := (hv.mem_keys_iff e.1).mpr (List.mem_map_of_mem he)
      rw [Bool.eq_iff_iff, decide_eq_true_eq, hlisted e.1 hkey, Bool.not_eq_true']
    rw [hsame] at hafter
    exact hafter
  · rw [keys_of_compiles hempty hcompiles, Option.some.injEq, List.filter_eq_nil_iff]
    intro key hkey
    rw [((hkeys key).mp hkey).2]
    exact Bool.false_ne_true

end MemoryCacheRepository

theorem RegExp.plain_empty : RegExp.plain "" = some fun _ => true := by
  refine congrArg some (funext fun key => ?_)
  exact (Wildcards.search_iff _ _ _).mpr ⟨[], [], codeUnits key, rfl, rfl⟩

namespace MemoryCacheRepository

theorem deleteByPattern_of_listed_user :
    let s := (System.reach RegExp.plain ⟨2, 60, by decide, by decide⟩
      [.start ⟨.set "user:1" 7 (.ofTtl 60), fun _ => ⟨1000, by decide⟩⟩,
        .start ⟨.set "post:1" 8 (.ofTtl 60), fun _ => ⟨1000, by decide⟩⟩] : System ℕ).repo
    ∃ listed, s.keys RegExp.plain (some "user:*") = some listed ∧
      (s.deleteByPattern RegExp.plain "user:*").2 = some listed.length := by
  intro s
  have hpattern : ∀ c ∈ "user:*".toList, isPatternCharacter c = true :=
    List.all_eq_true.mp (by decide +kernel)
  obtain ⟨test, hcompiles, -⟩ := test_globSource RegExp.searches_plain hpattern
  obtain ⟨-, listed, hlisted, -, hcount, -⟩ := deleteByPattern_of_listed RegExp.plain
    RegExp.plain_empty ⟨2, 60, by decide, by decide⟩
    [.start ⟨.set "user:1" 7 (.ofTtl 60), fun _ => ⟨1000, by decide⟩⟩,
      .start ⟨.set "post:1" 8 (.ofTtl 60), fun _ => ⟨1000, by decide⟩⟩] "user:*" test hcompiles
    fun _ => ⟨1000, by decide⟩
  exact ⟨listed, hlisted, hcount⟩

end MemoryCacheRepository

end EdgeCache
