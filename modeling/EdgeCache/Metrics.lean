import EdgeCache.HitRate
import EdgeCache.Time
import EdgeCache.Library.NearestRank
import EdgeCache.Library.Runs
import Mathlib.Data.List.DropRight

/-!
`Metrics`: counters of what became of the requests, and the last latencies, from which a
snapshot takes percentiles. A run of its methods keeps the latencies recorded last.
-/
namespace EdgeCache

structure Metrics where
  latencies : List ℤ
  hits : ℕ
  misses : ℕ
  errors : ℕ
  requestCount : ℕ
  windowStart : Time

/-- A percentile is missing when it is read outside of the list. -/
structure MetricSnapshot where
  timestamp : Time
  cacheHits : ℕ
  cacheMisses : ℕ
  cacheErrors : ℕ
  avgLatencyMs : ℤ
  p95LatencyMs : Option ℤ
  p99LatencyMs : Option ℤ
  requestsPerSecond : ℤ
  activeConnections : ℕ
  memoryUsageMb : JsNumber
  redisConnected : Bool

namespace Metrics

def new (now : Time) : Metrics := ⟨[], 0, 0, 0, 0, now⟩

def trimLatencies (m : Metrics) : Metrics :=
  { m with latencies := m.latencies.drop (m.latencies.length - 10000) }

def recordHit (m : Metrics) (latencyMs : ℤ) : Metrics :=
  trimLatencies { m with
    hits := m.hits + 1
    requestCount := m.requestCount + 1
    latencies := m.latencies ++ [latencyMs] }

def recordMiss (m : Metrics) (latencyMs : ℤ) : Metrics :=
  trimLatencies { m with
    misses := m.misses + 1
    requestCount := m.requestCount + 1
    latencies := m.latencies ++ [latencyMs] }

def recordError (m : Metrics) : Metrics :=
  { m with errors := m.errors + 1, requestCount := m.requestCount + 1 }

def percentile (sorted : List ℤ) (p : ℕ) : Option ℤ :=
  if sorted.length = 0 then some 0
  else
    let index : ℤ := ⌈(p : ℚ) / 100 * sorted.length⌉ - 1
    sorted[(max 0 index).toNat]?

def avgLatency (m : Metrics) : ℤ :=
  if m.latencies.length = 0 then 0
  else
    let sum : ℤ := m.latencies.foldl (· + ·) 0
    round (double (sum / m.latencies.length))

/-- `now` is read for the length of the window, then `timestamp`. -/
def snapshot (m : Metrics) (now timestamp : Time) (memoryUsageMb : JsNumber)
    (redisConnected : Bool) : MetricSnapshot :=
  let sorted := m.latencies.insertionSort (· ≤ ·)
  let elapsedSeconds := double ((now.val - m.windowStart.val : ℤ) / 1000)
  let rps := if 0 < elapsedSeconds then round (double (m.requestCount / elapsedSeconds)) else 0
  { timestamp := timestamp
    cacheHits := m.hits
    cacheMisses := m.misses
    cacheErrors := m.errors
    avgLatencyMs := m.avgLatency
    p95LatencyMs := percentile sorted 95
    p99LatencyMs := percentile sorted 99
    requestsPerSecond := rps
    activeConnections := 0
    memoryUsageMb := memoryUsageMb
    redisConnected := redisConnected }

def hitRate (m : Metrics) : ℚ :=
  let total := m.hits + m.misses
  if total = 0 then 0
  else inHundredths (double (double (double (m.hits / total) * 100) * 100))

def reset (_ : Metrics) (now : Time) : Metrics := ⟨[], 0, 0, 0, 0, now⟩

end Metrics

/-! ### Runs -/

inductive MetricsAction where
  | recordHit (latencyMs : ℤ)
  | recordMiss (latencyMs : ℤ)
  | recordError
  | reset (now : Time)

namespace MetricsAction

def isReset : MetricsAction → Bool
  | reset _ => true
  | _ => false

def latency : MetricsAction → Option ℤ
  | recordHit latencyMs => some latencyMs
  | recordMiss latencyMs => some latencyMs
  | _ => none

/-- The latencies recorded since the last reset. -/
def recorded (actions : List MetricsAction) : List ℤ :=
  (actions.rtakeWhile fun a => !a.isReset).filterMap latency

theorem recorded_concat (actions : List MetricsAction) (a : MetricsAction) :
    recorded (actions ++ [a]) =
      if a.isReset then [] else recorded actions ++ a.latency.toList := by
  unfold recorded
  by_cases ha : a.isReset = true
  · rw [if_pos ha, List.rtakeWhile_concat_neg _ _ _ (by simpa using ha), List.filterMap_nil]
  · rw [if_neg ha, List.rtakeWhile_concat_pos _ _ _ (by simpa using ha), List.filterMap_append]
    congr 1

end MetricsAction

namespace Metrics

def step (m : Metrics) : MetricsAction → Metrics
  | .recordHit latencyMs => m.recordHit latencyMs
  | .recordMiss latencyMs => m.recordMiss latencyMs
  | .recordError => m.recordError
  | .reset now => m.reset now

theorem rtake_rtake_concat (n : ℕ) (l : List ℤ) (x : ℤ) :
    (l.rtake n ++ [x]).rtake n = (l ++ [x]).rtake n := by
  simp only [List.rtake_eq_reverse_take_reverse, List.reverse_append, List.reverse_singleton,
    List.singleton_append, List.reverse_reverse]
  cases n with
  | zero => rfl
  | succ n =>
    have hshort : min n (n + 1) = n := by omega
    rw [List.take_succ_cons, List.take_succ_cons, List.take_take, hshort]

theorem latencies_recordHit (m : Metrics) (latencyMs : ℤ) :
    (m.recordHit latencyMs).latencies = (m.latencies ++ [latencyMs]).rtake 10000 := by
  simp only [recordHit, trimLatencies, List.rtake]

theorem latencies_recordMiss (m : Metrics) (latencyMs : ℤ) :
    (m.recordMiss latencyMs).latencies = (m.latencies ++ [latencyMs]).rtake 10000 := by
  simp only [recordMiss, trimLatencies, List.rtake]

theorem latencies_step (m : Metrics) (recorded : List ℤ) (h : m.latencies = recorded.rtake 10000)
    (a : MetricsAction) :
    (m.step a).latencies =
      (if a.isReset then [] else recorded ++ a.latency.toList).rtake 10000 := by
  cases a with
  | recordHit latencyMs =>
    rw [step, latencies_recordHit, h, rtake_rtake_concat]
    rfl
  | recordMiss latencyMs =>
    rw [step, latencies_recordMiss, h, rtake_rtake_concat]
    rfl
  | recordError =>
    simpa only [step, recordError, MetricsAction.isReset, MetricsAction.latency,
      Option.toList_none, List.append_nil, Bool.false_eq_true, ↓reduceIte] using h
  | reset now => simp only [step, reset, MetricsAction.isReset, ↓reduceIte, List.rtake_nil]

theorem counters_trimLatencies (m : Metrics) : m.trimLatencies.hits = m.hits ∧
    m.trimLatencies.misses = m.misses ∧ m.trimLatencies.errors = m.errors ∧
    m.trimLatencies.requestCount = m.requestCount := by
  cases m with
  | mk latencies hits misses errors requestCount windowStart => exact ⟨rfl, rfl, rfl, rfl⟩

theorem counters_recordHit (m : Metrics) (latencyMs : ℤ) :
    (m.recordHit latencyMs).hits = m.hits + 1 ∧ (m.recordHit latencyMs).misses = m.misses ∧
    (m.recordHit latencyMs).errors = m.errors ∧
    (m.recordHit latencyMs).requestCount = m.requestCount + 1 :=
  counters_trimLatencies _

theorem counters_recordMiss (m : Metrics) (latencyMs : ℤ) :
    (m.recordMiss latencyMs).hits = m.hits ∧ (m.recordMiss latencyMs).misses = m.misses + 1 ∧
    (m.recordMiss latencyMs).errors = m.errors ∧
    (m.recordMiss latencyMs).requestCount = m.requestCount + 1 :=
  counters_trimLatencies _

/-- Every request is counted once. -/
def Conserves (m : Metrics) : Prop := m.requestCount = m.hits + m.misses + m.errors

theorem conserves_step (m : Metrics) (h : m.Conserves) (a : MetricsAction) :
    (m.step a).Conserves := by
  unfold Conserves at h ⊢
  cases a with
  | recordHit latencyMs =>
    obtain ⟨hhits, hmisses, herrors, hcount⟩ := counters_recordHit m latencyMs
    rw [step, hhits, hmisses, herrors, hcount]
    omega
  | recordMiss latencyMs =>
    obtain ⟨hhits, hmisses, herrors, hcount⟩ := counters_recordMiss m latencyMs
    rw [step, hhits, hmisses, herrors, hcount]
    omega
  | recordError =>
    simp only [step, recordError]
    omega
  | reset now => rfl

theorem latencies_run (now : Time) (actions : List MetricsAction) :
    (Runs.run step (new now) actions).latencies =
      (MetricsAction.recorded actions).rtake 10000 := by
  induction actions using List.reverseRecOn with
  | nil => rfl
  | append_singleton actions a ih =>
    rw [Runs.run_append, Runs.run_cons, Runs.run_nil, MetricsAction.recorded_concat]
    exact latencies_step _ _ ih a

/-! ### Percentiles -/

/-- The index is that of the nearest rank, and in range. -/
theorem percentile_spec {sorted : List ℤ} (hsorted : sorted.Pairwise (· ≤ ·)) (hne : sorted ≠ [])
    {p : ℕ} (hpos : 0 < p) (hle : p ≤ 100) :
    ∃ v, percentile sorted p = some v ∧
      NearestRank.IsRank ⌈(p : ℚ) / 100 * sorted.length⌉₊ sorted v := by
  have hlength : 0 < sorted.length := List.length_pos_of_ne_nil hne
  have hlength' : (0 : ℚ) < sorted.length := by exact_mod_cast hlength
  have hp : (0 : ℚ) < (p : ℚ) / 100 := by positivity
  have hp' : (p : ℚ) / 100 ≤ 1 := by
    rw [div_le_one (by norm_num)]
    exact_mod_cast hle
  have hfirst : 0 < ⌈(p : ℚ) / 100 * sorted.length⌉ := Int.ceil_pos.mpr (by positivity)
  have hlast : ⌈(p : ℚ) / 100 * sorted.length⌉ ≤ sorted.length :=
    Int.ceil_le.mpr (mul_le_of_le_one_left hlength'.le hp')
  have hrank : ⌈(p : ℚ) / 100 * sorted.length⌉.toNat = ⌈(p : ℚ) / 100 * sorted.length⌉₊ :=
    Int.ceil_toNat _
  obtain ⟨i, hi⟩ : ∃ i : ℕ, ⌈(p : ℚ) / 100 * sorted.length⌉ = i + 1 :=
    ⟨(⌈(p : ℚ) / 100 * sorted.length⌉ - 1).toNat, by omega⟩
  have hrange : i < sorted.length := by omega
  refine ⟨sorted[i], ?_, ?_⟩
  · have hindex : (max 0 ((i : ℤ) + 1 - 1)).toNat = i := by omega
    unfold percentile
    rw [if_neg hlength.ne']
    simp only [hi, hindex]
    exact List.getElem?_eq_getElem hrange
  · have hsucc : ⌈(p : ℚ) / 100 * sorted.length⌉₊ = i + 1 := by omega
    rw [hsucc]
    exact NearestRank.isRank_getElem hsorted hrange

/-- `v` is one of the latencies; at least `p` percent of them are not above it, and fewer than
that are below it. -/
def IsPercentile (p : ℕ) (latencies : List ℤ) (v : ℤ) : Prop :=
  NearestRank.IsRank ⌈(p : ℚ) / 100 * latencies.length⌉₊ latencies v

theorem IsPercentile.mono {p p' : ℕ} {latencies : List ℤ} {v v' : ℤ}
    (h : IsPercentile p latencies v) (h' : IsPercentile p' latencies v') (hp : p ≤ p') :
    v ≤ v' := by
  refine NearestRank.IsRank.mono h h' (Nat.ceil_mono ?_)
  have hcast : (p : ℚ) ≤ p' := by exact_mod_cast hp
  have hlength : (0 : ℚ) ≤ latencies.length := by positivity
  gcongr

theorem percentile_insertionSort {latencies : List ℤ} (hne : latencies ≠ []) {p : ℕ}
    (hpos : 0 < p) (hle : p ≤ 100) :
    ∃ v, percentile (latencies.insertionSort (· ≤ ·)) p = some v ∧
      IsPercentile p latencies v := by
  have hperm := List.perm_insertionSort (· ≤ ·) latencies
  have hne' : latencies.insertionSort (· ≤ ·) ≠ [] := by
    intro hnil
    rw [hnil] at hperm
    exact hne hperm.symm.eq_nil
  obtain ⟨v, hv, hrank⟩ :=
    percentile_spec (List.pairwise_insertionSort (· ≤ ·) latencies) hne' hpos hle
  rw [hperm.length_eq] at hrank
  exact ⟨v, hv, hrank.perm hperm⟩

/-- In every run the last latencies are kept, percentiles are those of the nearest rank among
them, and every request is counted once. -/
theorem percentiles_run (now : Time) (actions : List MetricsAction) :
    let m := Runs.run step (new now) actions
    let recorded := MetricsAction.recorded actions
    m.latencies = recorded.rtake 10000 ∧
      m.latencies.length = min recorded.length 10000 ∧
      m.requestCount = m.hits + m.misses + m.errors ∧
      (m.latencies ≠ [] → ∀ (read timestamp : Time) (memoryUsageMb : JsNumber)
          (redisConnected : Bool),
        let snapshot := m.snapshot read timestamp memoryUsageMb redisConnected
        ∃ p95 p99 largest, snapshot.p95LatencyMs = some p95 ∧ snapshot.p99LatencyMs = some p99 ∧
          IsPercentile 95 m.latencies p95 ∧ IsPercentile 99 m.latencies p99 ∧
          p95 ≤ p99 ∧ m.latencies.max? = some largest ∧ p99 ≤ largest) := by
  intro m recorded
  have hlatencies : m.latencies = recorded.rtake 10000 := latencies_run now actions
  refine ⟨hlatencies, ?_, ?_, ?_⟩
  · rw [hlatencies, List.rtake, List.length_drop]
    omega
  · have hstart : (new now).Conserves := by
      show 0 = 0 + 0 + 0
      omega
    exact Runs.run_invariant (I := Conserves) (fun m a h => conserves_step m h a) hstart actions
  · intro hne read timestamp memoryUsageMb redisConnected
    obtain ⟨p95, h95, hrank95⟩ := percentile_insertionSort hne (p := 95) (by decide) (by decide)
    obtain ⟨p99, h99, hrank99⟩ := percentile_insertionSort hne (p := 99) (by decide) (by decide)
    obtain ⟨largest, hlargest⟩ := Option.ne_none_iff_exists'.mp fun hnone =>
      hne (List.max?_eq_none_iff.mp hnone)
    refine ⟨p95, p99, largest, h95, h99, hrank95, hrank99, hrank95.mono hrank99 (by decide),
      hlargest, ?_⟩
    exact (List.max?_eq_some_iff.mp hlargest).2 p99 hrank99.mem

theorem percentiles_run_after_reset :
    let now : Time := ⟨1000, by decide⟩
    let m := Runs.run step (new now)
      [.recordHit 900, .reset now, .recordHit 5, .recordMiss 3, .recordError, .recordHit 4]
    ∃ p95 largest, (m.snapshot now now (.ofNat 0) true).p95LatencyMs = some p95 ∧
      IsPercentile 95 m.latencies p95 ∧ m.latencies.max? = some largest ∧ p95 ≤ largest := by
  intro now m
  obtain ⟨p95, p99, largest, h95, -, hrank, -, hle, hlargest, hbound⟩ :=
    (percentiles_run now [.recordHit 900, .reset now, .recordHit 5, .recordMiss 3, .recordError,
      .recordHit 4]).2.2.2 (by decide) now now (.ofNat 0) true
  exact ⟨p95, largest, h95, hrank, hlargest, hle.trans hbound⟩

end Metrics

end EdgeCache
