import EdgeCache.MemoryBodies
import EdgeCache.MemoryExpiry

/-!
The counters of the memory tier against what its callers have been told. Hits, misses and sets
add up over every run. A deletion is counted where an entry is taken out by `delete`, and `exists`
takes an expired entry out that way: its callers are told that there is nothing, and the
counter moves all the same. A read that meets an expired entry, and a sweep, do not count it.
-/
namespace EdgeCache

variable {V : Type}

namespace MemoryCacheRepository

/-! ### What callers are told -/

def hitsOf (s : MemoryCacheRepository V) (e : Event V) : ℕ :=
  match e.op with
  | .get key => (s.get e.clock key).2.isSome.toNat
  | .mget keys => (s.mget e.clock keys).2.countP Option.isSome
  | _ => 0

def missesOf (s : MemoryCacheRepository V) (e : Event V) : ℕ :=
  match e.op with
  | .get key => (s.get e.clock key).2.isNone.toNat
  | .mget keys => (s.mget e.clock keys).2.countP Option.isNone
  | _ => 0

/-- How many of the sets, made one after the other, are not suppressed. -/
def unsuppressed (clock : Clock) :
    List ((String × V × SetOptions) × ℕ) → MemoryCacheRepository V → ℕ
  | [], _ => 0
  | ((key, value, options), i) :: rest, s =>
    (!s.suppressed (fun j => clock (2 * i + j)) key options).toNat +
      unsuppressed clock rest (s.set (fun j => clock (2 * i + j)) key value options)

def setsOf (s : MemoryCacheRepository V) (e : Event V) : ℕ :=
  match e.op with
  | .set key _ options => (!s.suppressed e.clock key options).toNat
  | .mset entries => unsuppressed e.clock entries.zipIdx s
  | _ => 0

def deletesOf (regExp : RegExp) (s : MemoryCacheRepository V) (e : Event V) : ℕ :=
  match e.op with
  | .delete key => (s.delete key).2.toNat
  | .deleteByTags tags => (s.deleteByTags tags).2
  | .deleteByPattern pattern => (s.deleteByPattern regExp pattern).2.getD 0
  | _ => 0

/-- The calls that are not to count a deletion. -/
def LeavesDeletes : Op V → Prop
  | .get _ => True
  | .exists_ _ => True
  | .keys _ => True
  | .mget _ => True
  | .sweep => True
  | _ => False

/-- A deletion that is counted and not reported: `exists` meets an expired entry. -/
def unreported (s : MemoryCacheRepository V) (e : Event V) : ℕ :=
  match e.op with
  | .exists_ key => ((s.entryAt key).any fun entry => entry.isExpired (e.clock 0)).toNat
  | _ => 0

/-- `exists` is asked of no entry that has expired. -/
def AsksFresh (s : MemoryCacheRepository V) (e : Event V) : Prop :=
  ∀ key, e.op = .exists_ key → s.Fresh (e.clock 0) key

theorem unreported_eq_zero_iff (s : MemoryCacheRepository V) (e : Event V) :
    s.unreported e = 0 ↔ s.AsksFresh e := by
  obtain ⟨op, clock⟩ := e
  cases op with
  | exists_ key =>
    have hfresh : s.AsksFresh ⟨.exists_ key, clock⟩ ↔ s.Fresh (clock 0) key :=
      ⟨fun h => h key rfl, fun h key' hkey' => Op.exists_.inj hkey' ▸ h⟩
    rw [hfresh, Fresh]
    simp only [unreported]
    cases s.entryAt key with
    | none => exact iff_of_true rfl fun _ h => (by cases h)
    | some entry =>
      simp only [Option.any_some, Option.some.injEq, forall_eq']
      cases entry.isExpired (clock 0) with
      | false => exact iff_of_true rfl rfl
      | true => exact iff_of_false (Nat.succ_ne_zero 0) Bool.true_eq_false.mp
  | _ => exact iff_of_true rfl fun _ h => (by cases h)

/-! ### What each call counts -/

section Counters

variable {config : Config} {s : MemoryCacheRepository V} {v : MemoryView V}

theorem stats_get (hs : Shows config s v) (clock : Clock) (key : String) :
    (s.get clock key).1.stats =
      { s.stats with
        hits := s.stats.hits + (s.get clock key).2.isSome.toNat
        misses := s.stats.misses + (s.get clock key).2.isNone.toNat } := by
  unfold get
  cases hget : s.map.get key with
  | none => rfl
  | some node =>
    obtain ⟨l, hl⟩ := hs.list
    obtain ⟨entry, hitem, -⟩ := hl.item_mem hget
    obtain ⟨n, hn, -⟩ := item_eq_some s node _ hitem
    simp only [hn]
    split
    · have hstats := (sameRest_removeNode s node).stats_eq
      simp only [countMiss, removeFromMap, hstats]
      rfl
    · have hstats : ((s.moveToFront node).setEntry node n.entry.registerHit).stats = s.stats :=
        (sameRest_moveToFront s node).stats_eq
      simp only [countHit, hstats]
      rfl

theorem stats_indexTags (key : String) (tags : List String) (s : MemoryCacheRepository V) :
    (tags.foldl (indexTag key) s).stats = s.stats := by
  have htag : ∀ (s : MemoryCacheRepository V) (tag : String),
      (s.indexTag key tag).stats = s.stats := by
    intro s tag
    unfold indexTag
    simp only
    split <;> split <;> rfl
  induction tags generalizing s with
  | nil => rfl
  | cons tag rest ih => rw [List.foldl_cons, ih, htag]

theorem stats_set (clock : Clock) (key : String) (value : V) (options : SetOptions)
    (s : MemoryCacheRepository V) :
    (s.set clock key value options).stats =
      { s.stats with sets := s.stats.sets + (!s.suppressed clock key options).toNat } := by
  unfold set
  cases s.suppressed clock key options with
  | true => rfl
  | false =>
    simp only [Bool.false_eq_true, ↓reduceIte, countSet, stats_indexTags, stats_store]
    rfl

theorem stats_delete (key : String) (s : MemoryCacheRepository V) :
    (s.delete key).1.stats =
      { s.stats with deletes := s.stats.deletes + (s.delete key).2.toNat } := by
  have hone : s.Tallied (deleteCounting (s, 0) key) :=
    Tallied.deleteCounting (rfl : s.Tallied (s, 0)) key
  have hcount : (deleteCounting (s, 0) key).2 = (s.delete key).2.toNat := Nat.zero_add _
  rw [Tallied, hcount] at hone
  exact hone

theorem stats_deleteByTags (tags : List String) (s : MemoryCacheRepository V) :
    s.Tallied (s.deleteByTags tags) := by
  have htag : ∀ (state : MemoryCacheRepository V × ℕ) (tag : String),
      s.Tallied state → s.Tallied (deleteByTag state tag) := by
    intro state tag h
    unfold deleteByTag
    split
    · exact h
    · next keys _ =>
      have hloop : s.Tallied (SlotMap.visit (fun state => setSlots keys state.1)
          (fun _ state e => deleteCounting state e.1) state) :=
        SlotMap.visit_invariant (I := s.Tallied) (fun _ _ e h => h.deleteCounting e.1) h
      exact hloop
  have hrun : ∀ state : MemoryCacheRepository V × ℕ, s.Tallied state →
      s.Tallied (tags.foldl deleteByTag state) := by
    induction tags with
    | nil => exact fun _ h => h
    | cons tag rest ih => exact fun state h => ih _ (htag state tag h)
  exact hrun (s, 0) rfl

theorem stats_exists (clock : Clock) (key : String) (s : MemoryCacheRepository V) :
    (s.exists_ clock key).1.stats =
      { s.stats with deletes := s.stats.deletes + s.unreported ⟨.exists_ key, clock⟩ } := by
  simp only [exists_, unreported]
  cases hentry : s.entryAt key with
  | none => rfl
  | some entry =>
    simp only [Option.any_some]
    cases entry.isExpired (clock 0) with
    | false => rfl
    | true =>
      have hkept : (s.delete key).2 = true := by
        rw [entryAt] at hentry
        obtain ⟨node, hnode, -⟩ := Option.bind_eq_some_iff.mp hentry
        rw [delete, hnode]
      simp only [↓reduceIte, stats_delete, hkept]

/-- The lookups since `s` are counted by what they have found. -/
structure Looked (config : Config) (s : MemoryCacheRepository V)
    (state : MemoryCacheRepository V × List (Option (CacheEntry V))) : Prop where
  shows : ∃ v, Shows config state.1 v
  stats_eq : state.1.stats =
    { s.stats with
      hits := s.stats.hits + state.2.countP Option.isSome
      misses := s.stats.misses + state.2.countP Option.isNone }

theorem Looked.mgetOne {state : MemoryCacheRepository V × List (Option (CacheEntry V))}
    (h : Looked config s state) (clock : Clock) (p : String × ℕ) :
    Looked config s (mgetOne clock state p) := by
  obtain ⟨v, hv⟩ := h.shows
  refine ⟨⟨_, (hv.get (fun _ => clock p.2) p.1).1⟩, ?_⟩
  have hget := stats_get hv (fun _ => clock p.2) p.1
  rw [h.stats_eq] at hget
  simp only [MemoryCacheRepository.mgetOne, hget, List.countP_append, List.countP_singleton]
  cases (state.1.get (fun _ => clock p.2) p.1).2 with
  | none => rfl
  | some entry => rfl

theorem stats_mget (hs : Shows config s v) (clock : Clock) (keys : List String) :
    Looked config s (s.mget clock keys) := by
  have hrun : ∀ (l : List (String × ℕ)) (state : _ × List (Option (CacheEntry V))),
      Looked config s state → Looked config s (l.foldl (mgetOne clock) state) := by
    intro l
    induction l with
    | nil => exact fun _ h => h
    | cons p rest ih => exact fun state h => ih _ (h.mgetOne clock p)
  exact hrun keys.zipIdx (s, []) ⟨⟨v, hs⟩, rfl⟩

/-- One set of `mset`. -/
def msetOne (clock : Clock) (s : MemoryCacheRepository V) (p : (String × V × SetOptions) × ℕ) :
    MemoryCacheRepository V :=
  s.set (fun j => clock (2 * p.2 + j)) p.1.1 p.1.2.1 p.1.2.2

theorem mset_eq_foldl (clock : Clock) (entries : List (String × V × SetOptions))
    (s : MemoryCacheRepository V) :
    s.mset clock entries = entries.zipIdx.foldl (msetOne clock) s := rfl

theorem stats_mset (clock : Clock) (entries : List (String × V × SetOptions))
    (s : MemoryCacheRepository V) :
    (s.mset clock entries).stats =
      { s.stats with sets := s.stats.sets + unsuppressed clock entries.zipIdx s } := by
  rw [mset_eq_foldl]
  induction entries.zipIdx generalizing s with
  | nil => rfl
  | cons p rest ih =>
    obtain ⟨⟨key, value, options⟩, i⟩ := p
    rw [List.foldl_cons, ih, msetOne, stats_set, unsuppressed, Nat.add_assoc]

/-- What one call adds to the counters. -/
theorem stats_step (hs : Shows config s v) (regExp : RegExp) (e : Event V) :
    (step regExp s e).stats =
      { s.stats with
        hits := s.stats.hits + s.hitsOf e
        misses := s.stats.misses + s.missesOf e
        sets := s.stats.sets + s.setsOf e
        deletes := s.stats.deletes + (deletesOf regExp s e + s.unreported e) } := by
  obtain ⟨op, clock⟩ := e
  cases op with
  | get key => exact stats_get hs clock key
  | set key value options => exact stats_set clock key value options s
  | delete key => exact stats_delete key s
  | deleteByTags tags => exact stats_deleteByTags tags s
  | deleteByPattern pattern =>
    cases hcompiles : regExp (globSource pattern) with
    | none =>
      simp [step, deleteByPattern, hcompiles, hitsOf, missesOf, setsOf, deletesOf, unreported]
    | some test =>
      obtain ⟨count, hcount⟩ : ∃ count, (s.deleteByPattern regExp pattern).2 = some count := by
        rw [deleteByPattern, hcompiles]
        exact ⟨_, rfl⟩
      have hstats := stats_deleteByPattern hcompiles s hcount
      have hdeletes : deletesOf regExp s ⟨.deleteByPattern pattern, clock⟩ = count := by
        simp only [deletesOf, hcount, Option.getD_some]
      rw [hdeletes]
      exact hstats
  | exists_ key =>
    have hstats := stats_exists clock key s
    rw [deletesOf, Nat.zero_add]
    exact hstats
  | getStats memoryUsageMb => rfl
  | flush => rfl
  | keys pattern => rfl
  | mget keys => exact (stats_mget hs clock keys).stats_eq
  | mset entries => exact stats_mset clock entries s
  | sweep => exact stats_sweep clock s

end Counters

/-! ### Whole runs -/

theorem exists_shows_step {config : Config} {s : MemoryCacheRepository V} (regExp : RegExp)
    (e : Event V) (hs : ∃ v, Shows config s v) : ∃ v, Shows config (step regExp s e) v := by
  rw [step_eq_run]
  have hsingle : Runs.Guarded (step regExp) (fun _ e' => e'.expand = [e']) s e.expand :=
    Runs.guarded_of_forall (fun _ he' => Event.expand_of_mem he') s
  refine hsingle.invariant (I := fun s => ∃ v, Shows config s v) ?_ hs
  intro s e' hs he'
  obtain ⟨v, hv⟩ := hs
  obtain ⟨v', -, hv'⟩ := hv.step regExp he'
  exact ⟨v', hv'⟩

def told (config : Config) (regExp : RegExp) (amount : MemoryCacheRepository V → Event V → ℕ)
    (events : List (Event V)) : ℕ :=
  Runs.total (step regExp) amount (new config) events

/-- The counters after a run are what its callers have been told, and none of its reads and
sweeps has moved the deletions. -/
structure StatsConserved (config : Config) (regExp : RegExp) (events : List (Event V)) : Prop where
  hits_eq : (reach regExp config events).stats.hits = told config regExp hitsOf events
  misses_eq : (reach regExp config events).stats.misses = told config regExp missesOf events
  sets_eq : (reach regExp config events).stats.sets = told config regExp setsOf events
  deletes_eq : (reach regExp config events).stats.deletes =
    told config regExp (deletesOf regExp) events
  reads : Runs.Guarded (step regExp)
    (fun s e => LeavesDeletes e.op → (step regExp s e).stats.deletes = s.stats.deletes)
    (new config) events

section Reach

variable (config : Config) (regExp : RegExp) (events : List (Event V))

theorem counter_reach (counter : MemoryCacheRepository V → ℕ)
    (amount : MemoryCacheRepository V → Event V → ℕ) (hnew : counter (new config) = 0)
    (hstep : ∀ s e, (∃ v, Shows config s v) →
      counter (step regExp s e) = counter s + amount s e) :
    counter (reach regExp config events) = told config regExp amount events := by
  have hrun := Runs.counter_run (I := fun s => ∃ v, Shows config s v)
    (fun s e hs => exists_shows_step regExp e hs) hstep ⟨_, Shows.new config⟩ events
  rw [hnew, Nat.zero_add] at hrun
  exact hrun

theorem hits_reach :
    (reach regExp config events).stats.hits = told config regExp hitsOf events := by
  refine counter_reach config regExp events (fun s => s.stats.hits) hitsOf rfl ?_
  rintro s e ⟨v, hv⟩
  rw [stats_step hv regExp e]

theorem misses_reach :
    (reach regExp config events).stats.misses = told config regExp missesOf events := by
  refine counter_reach config regExp events (fun s => s.stats.misses) missesOf rfl ?_
  rintro s e ⟨v, hv⟩
  rw [stats_step hv regExp e]

theorem sets_reach :
    (reach regExp config events).stats.sets = told config regExp setsOf events := by
  refine counter_reach config regExp events (fun s => s.stats.sets) setsOf rfl ?_
  rintro s e ⟨v, hv⟩
  rw [stats_step hv regExp e]

/-- The deletions that are counted are those that are reported, and the expired entries that
`exists` has met. -/
theorem deletes_reach : (reach regExp config events).stats.deletes =
    told config regExp (deletesOf regExp) events + told config regExp unreported events := by
  have hboth := counter_reach config regExp events (fun s => s.stats.deletes)
    (fun s e => deletesOf regExp s e + s.unreported e) rfl fun s e hs => by
      obtain ⟨v, hv⟩ := hs
      rw [stats_step hv regExp e]
  rw [hboth]
  exact Runs.total_add _ _ _ _

theorem told_unreported_eq_zero_iff : told config regExp (unreported (V := V)) events = 0 ↔
    Runs.Guarded (step regExp) AsksFresh (new config) events := by
  rw [told, Runs.total_eq_zero_iff]
  constructor
  · exact fun h => h.mono fun s e => (unreported_eq_zero_iff s e).mp
  · exact fun h => h.mono fun s e => (unreported_eq_zero_iff s e).mpr

theorem deletes_step_of_leaves {s : MemoryCacheRepository V} {e : Event V}
    (hs : ∃ v, Shows config s v) (hfresh : s.AsksFresh e) (hleaves : LeavesDeletes e.op) :
    (step regExp s e).stats.deletes = s.stats.deletes := by
  obtain ⟨v, hv⟩ := hs
  rw [stats_step hv regExp e, (unreported_eq_zero_iff s e).mpr hfresh]
  obtain ⟨op, clock⟩ := e
  cases op <;> first | rfl | exact absurd hleaves id

/-- Over every run of calls and sweeps, the counters are what callers have been told exactly when
`exists` never meets an expired entry. -/
theorem stats_conserved_iff : StatsConserved config regExp events ↔
    Runs.Guarded (step regExp) AsksFresh (new config) events := by
  have hdeletes := deletes_reach config regExp events
  rw [← told_unreported_eq_zero_iff]
  constructor
  · intro h
    have heq := h.deletes_eq
    omega
  · intro hnone
    have hfresh := (told_unreported_eq_zero_iff config regExp events).mp hnone
    have hsound : Runs.Guarded (step regExp) (fun s _ => ∃ v, Shows config s v) (new config)
        events :=
      Runs.guarded_of_invariant (I := fun s => ∃ v, Shows config s v)
        (fun s e hs => exists_shows_step regExp e hs) ⟨_, Shows.new config⟩ events
    refine ⟨hits_reach config regExp events, misses_reach config regExp events,
      sets_reach config regExp events, by omega, (hsound.and hfresh).mono fun s e h => ?_⟩
    exact deletes_step_of_leaves config regExp h.1 h.2

end Reach

/-- An entry for a minute, and whether it is there. -/
def setThenExists (setAt askedAt : Time) : List (Event ℕ) :=
  [⟨.set "a" 1 (.ofTtl 60), fun _ => setAt⟩, ⟨.exists_ "a", fun _ => askedAt⟩]

theorem not_statsConserved_setThenExists :
    ¬ StatsConserved ⟨1, 60, by decide, by decide⟩ (fun _ => none)
      (setThenExists ⟨1000, by decide⟩ ⟨121000, by decide⟩) := by
  intro h
  have hcounted : (reach (fun _ => none) ⟨1, 60, by decide, by decide⟩
      (setThenExists ⟨1000, by decide⟩ ⟨121000, by decide⟩)).stats.deletes = 1 := by
    decide +kernel
  have htold : told ⟨1, 60, by decide, by decide⟩ (fun _ => none) (deletesOf fun _ => none)
      (setThenExists ⟨1000, by decide⟩ ⟨121000, by decide⟩) = 0 := by
    decide +kernel
  have heq := h.deletes_eq
  omega

end MemoryCacheRepository

end EdgeCache
