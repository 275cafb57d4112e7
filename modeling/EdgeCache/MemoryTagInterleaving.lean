import EdgeCache.MemoryInterleaving
import EdgeCache.MemoryTags

/-!
The tag index while calls interleave. `deleteByTags` drops a tag when the set it walks
has no more keys, and cannot tell whether a key it has passed was stored under the tag
again, or a key was stored in another set of the tag, while it was suspended. As long as
no stored entry carries a tag at the moment it is dropped so, every entry is indexed
under all its tags, however the calls interleave.
-/
namespace EdgeCache

variable {V : Type}

namespace MemoryCacheRepository

/-- Some stored entry carries the tag. -/
def carries (s : MemoryCacheRepository V) (tag : String) : Bool :=
  s.map.keys.any fun key => (s.entryAt key).any fun entry => tag ∈ entry.tags

theorem Shows.carries_eq_false_iff {config : Config} {s : MemoryCacheRepository V}
    {v : MemoryView V} (h : Shows config s v) (tag : String) :
    s.carries tag = false ↔ ∀ key entry, v.recency.lookup key = some entry → tag ∉ entry.tags := by
  simp only [carries, List.any_eq_false, Option.any_eq_true, decide_eq_true_eq, h.entryAt_eq,
    h.mem_keys_iff_isSome, not_exists, not_and]
  constructor
  · intro hnone key entry hentry
    exact hnone key (by rw [hentry, Option.isSome_some]) entry hentry
  · exact fun hnone key _ entry hentry => hnone key entry hentry

/-- Forgetting a tag that no entry carries leaves every entry indexed. -/
theorem segmental_covers (config : Config) (regExp : RegExp) :
    Segmental config regExp (MemoryView.Covers (V := V))
      (fun v tag => ∀ key entry, v.recency.lookup key = some entry → tag ∉ entry.tags) where
  step := fun hstep h => h.step hstep
  droppable := by
    intro v tag hcovers hindex key entry hentry htag
    have hin := hcovers key entry tag hentry htag
    rw [MemoryView.keysOf, hindex] at hin
    exact absurd hin List.not_mem_nil
  drop := by
    intro v tag hcovers huncarried key entry tag' hentry htag'
    have hne : tag' ≠ tag := by
      intro heq
      subst heq
      exact huncarried key entry hentry htag'
    have hkept : MemoryView.keysOf ⟨v.recency, Function.update v.index tag none⟩ tag' =
        v.keysOf tag' := congrArg (Option.getD · []) (Function.update_of_ne hne ..)
    rw [hkept]
    exact hcovers key entry tag' hentry htag'

/-- No stored entry carries a tag when a resumed `deleteByTags` drops it. -/
def System.DropsUncarried (sys : System V) (a : Action V) : Prop :=
  ∀ tag ∈ sys.droppedTag a, sys.repo.carries tag = false

instance (sys : System V) (a : Action V) : Decidable (sys.DropsUncarried a) :=
  inferInstanceAs (Decidable (∀ tag ∈ sys.droppedTag a, sys.repo.carries tag = false))

/-- However calls interleave, as long as no dropped tag is carried by a stored entry, every
entry is indexed under all its tags at every await point, and an invalidation that then
runs through removes all entries with its tag. -/
theorem covers_of_dropsUncarried (regExp : RegExp) (config : Config) (actions : List (Action V))
    (hguarded : Runs.Guarded (System.perform regExp) System.DropsUncarried
      ⟨new config, []⟩ actions) :
    let s := (System.reach regExp config actions).repo
    (∀ key entry tag, s.entryAt key = some entry → tag ∈ entry.tags →
      ∃ keys, s.taggedKeys tag = some keys ∧ key ∈ keys) ∧
    ∀ tag key entry, (s.deleteByTags [tag]).1.entryAt key = some entry → tag ∉ entry.tags := by
  intro s
  obtain ⟨v, hv, hcovers⟩ : ShowsWith config MemoryView.Covers s := by
    refine hguarded.invariant (I := fun sys : System V => ShowsWith config _ sys.repo) ?_
      ⟨_, Shows.new config, fun key entry tag hentry => by simp [MemoryView.empty] at hentry⟩
    intro sys a h hguard
    refine (segmental_covers config regExp).perform sys a h fun v hv tag htag => ?_
    exact (hv.carries_eq_false_iff tag).mp (hguard tag htag)
  refine ⟨fun key entry tag hentry htag => ?_, fun tag key entry hentry htag => ?_⟩
  · rw [hv.entryAt_eq] at hentry
    exact (hv.mem_taggedKeys_iff tag key).mpr (hcovers key entry tag hentry htag)
  · obtain ⟨hr, -⟩ := hv.deleteByTags [tag]
    rw [hr.entryAt_eq] at hentry
    have hin := hcovers.deleteByTags [tag] key entry tag hentry htag
    rw [MemoryView.keysOf, MemoryView.index_deleteByTags, if_pos (List.mem_singleton_self tag)]
      at hin
    exact absurd hin List.not_mem_nil

/-- A key stored under the tag while its invalidation is suspended, before the loop has
come to it. -/
theorem covers_of_dropsUncarried_added :
    let s := (System.reach (fun _ => none) ⟨2, 60, by decide, by decide⟩
      [.start ⟨.set "a" 1 (.tagged 60 ["t"]), fun _ => ⟨1000, by decide⟩⟩,
        .start ⟨.deleteByTags ["t"], fun _ => ⟨2000, by decide⟩⟩,
        .start ⟨.set "b" 2 (.tagged 60 ["t", "u"]), fun _ => ⟨3000, by decide⟩⟩,
        .resume 0, .resume 0] : System ℕ).repo
    (∀ key entry tag, s.entryAt key = some entry → tag ∈ entry.tags →
      ∃ keys, s.taggedKeys tag = some keys ∧ key ∈ keys) ∧
    ∀ tag key entry, (s.deleteByTags [tag]).1.entryAt key = some entry → tag ∉ entry.tags :=
  covers_of_dropsUncarried (fun _ => none) ⟨2, 60, by decide, by decide⟩ _ (by decide +kernel)

def storedAgain (clock : Clock) : List (Action ℕ) :=
  [.start ⟨.set "a" 1 (.tagged 60 ["t"]), clock⟩, .start ⟨.deleteByTags ["t"], clock⟩,
    .start ⟨.set "a" 2 (.tagged 60 ["t"]), clock⟩, .resume 0]

/-- When all calls have returned, the entry stored again is not in the index. -/
theorem not_covers_of_storedAgain :
    ¬ ∀ actions : List (Action ℕ),
      (System.reach (fun _ => none) ⟨2, 60, by decide, by decide⟩ actions).calls = [] →
      let s := (System.reach (fun _ => none) ⟨2, 60, by decide, by decide⟩ actions).repo
      ∀ key entry tag, s.entryAt key = some entry → tag ∈ entry.tags →
        ∃ keys, s.taggedKeys tag = some keys ∧ key ∈ keys := by
  intro hall
  let clock : Clock := fun _ => ⟨1000, by decide⟩
  have hreturned : (System.reach (fun _ => none) ⟨2, 60, by decide, by decide⟩
      (storedAgain clock)).calls = [] := List.isEmpty_iff.mp (by decide +kernel)
  have hstored : ((System.reach (fun _ => none) ⟨2, 60, by decide, by decide⟩
      (storedAgain clock)).repo.entryAt "a").map (·.tags) = some ["t"] := by decide +kernel
  have hdropped : (System.reach (fun _ => none) ⟨2, 60, by decide, by decide⟩
      (storedAgain clock)).repo.taggedKeys "t" = none := by decide +kernel
  obtain ⟨entry, hentry, htags⟩ := Option.map_eq_some_iff.mp hstored
  obtain ⟨keys, hkeys, -⟩ := hall (storedAgain clock) hreturned "a" entry "t" hentry
    (by simp [htags])
  simp [hdropped] at hkeys

end MemoryCacheRepository

end EdgeCache
