import EdgeCache.LayeredConditional

/-!
What `getStats` of the layered repository reports. The hits are those of both tiers, the misses
and the hit rate those of the first: the rate is not that of the hits beside it once Redis
counts hits of its own, unless these are too few to show in two decimals.
-/
namespace EdgeCache

open Programs (faultless)

variable {V : Type}

namespace MemoryCacheRepository

/-- The hit rate is that of the hits and misses beside it, as one tier computes it: in percent,
rounded to two decimals. -/
structure CacheStats.Consistent (report : CacheStats) : Prop where
  computed : report.hitRate =
    if report.stats.hits + report.stats.misses = 0 then 0
    else inHundredths (basisPoints report.stats.hits (report.stats.hits + report.stats.misses))
  isPercentage : IsPercentage report.hitRate report.stats.hits
    (report.stats.hits + report.stats.misses)

theorem isPercentage_basisPoints {hits total : ℕ} (h : hits ≤ total) (htotal : total ≠ 0) :
    IsPercentage (inHundredths (basisPoints hits total)) hits total := by
  apply isPercentage_inHundredths htotal
  have hscaled := (near_div h).scale 10000 (by norm_num) (by decide +kernel)
  calc |basisPoints hits total - hits / total * 10000|
      ≤ 1 / 2 ^ 53 * 10000 + 1 * 10000 / 2 ^ 53 := hscaled.close
    _ ≤ 1 / 2 ^ 37 := by norm_num

theorem CacheStats.consistent_iff {report : CacheStats} :
    report.Consistent ↔ report.hitRate =
      if report.stats.hits + report.stats.misses = 0 then 0
      else inHundredths
        (basisPoints report.stats.hits (report.stats.hits + report.stats.misses)) := by
  refine ⟨fun h => h.computed, fun h => ⟨h, ?_⟩⟩
  rw [h]
  split_ifs with hnone
  · rw [IsPercentage, if_pos hnone]
  · exact isPercentage_basisPoints (Nat.le_add_right _ _) hnone

theorem consistent_getStats (memoryUsageMb : ℚ) (s : MemoryCacheRepository V) :
    (s.getStats memoryUsageMb).Consistent := CacheStats.consistent_iff.mpr rfl

theorem basisPoints_nonneg (hits total : ℕ) : 0 ≤ basisPoints hits total :=
  double_nonneg (mul_nonneg (double_nonneg (by positivity)) (by norm_num))

theorem basisPoints_le {hits total : ℕ} (h : hits ≤ total) : basisPoints hits total ≤ 10000 := by
  have hone : double ((hits : ℚ) / total) * 10000 ≤ 10000 := by
    linarith [(near_div h).le]
  calc basisPoints hits total ≤ double 10000 :=
        double_le_double (mul_nonneg (double_nonneg (by positivity)) (by norm_num)) hone
    _ = 10000 := by decide +kernel

theorem basisPoints_le_basisPoints (further : ℕ) {hits misses : ℕ} (hread : 0 < hits + misses) :
    basisPoints hits (hits + misses) ≤ basisPoints (hits + further) (hits + further + misses) := by
  have hpos : (0 : ℚ) < (hits + misses : ℕ) := by exact_mod_cast hread
  have hpos' : (0 : ℚ) < (hits + further + misses : ℕ) := by
    exact_mod_cast (show 0 < hits + further + misses by omega)
  have hshare : (hits : ℚ) / (hits + misses : ℕ) ≤
      (hits + further : ℕ) / (hits + further + misses : ℕ) := by
    rw [div_le_div_iff₀ hpos hpos']
    have hcross : hits * (hits + further + misses) ≤ (hits + further) * (hits + misses) := by
      nlinarith [Nat.zero_le (further * misses)]
    exact_mod_cast hcross
  have hquotient := double_le_double (div_nonneg (Nat.cast_nonneg hits) hpos.le) hshare
  exact double_le_double (mul_nonneg (double_nonneg (by positivity)) (by norm_num)) (by gcongr)

theorem inHundredths_basisPoints_self {hits : ℕ} (h : hits ≠ 0) :
    inHundredths (basisPoints hits hits) = 100 := by
  have hcast : (hits : ℚ) ≠ 0 := by exact_mod_cast h
  rw [basisPoints, div_self hcast]
  decide +kernel

end MemoryCacheRepository

open MemoryCacheRepository (basisPoints basisPoints_nonneg basisPoints_le
  basisPoints_le_basisPoints inHundredths_basisPoints_self)

/-- `further` hits do not show in the hit rate: there are none, or there has been a read and they
leave the rate below the middle between its two decimals and the next. -/
def FewFurther (hits misses further : ℕ) : Prop :=
  further = 0 ∨ 0 < hits + misses ∧
    basisPoints (hits + further) (hits + further + misses) <
      round (basisPoints hits (hits + misses)) + 1 / 2

instance (hits misses further : ℕ) : Decidable (FewFurther hits misses further) := instDecidableOr

theorem hitRate_eq_iff {hits misses further : ℕ} (hread : 0 < hits + misses) :
    inHundredths (basisPoints hits (hits + misses)) =
        inHundredths (basisPoints (hits + further) (hits + further + misses)) ↔
      basisPoints (hits + further) (hits + further + misses) <
        round (basisPoints hits (hits + misses)) + 1 / 2 :=
  inHundredths_eq_iff (basisPoints_nonneg _ _) (basisPoints_le_basisPoints further hread)
    (basisPoints_le (Nat.le_add_right _ _))

/-! ### The report -/

/-- The hits that Redis reports: the server's own, or none when reading its record fails. -/
def redisHits (client : Client) (env : Surroundings) (redis : Database V) : ℕ :=
  match (client.serve (env.l2 1) redis (.keyed (.get RedisCacheRepository.statsKey))).2 with
  | some _ => RedisCacheRepository.extractInfoValue ((env.l2 0).info "stats") "keyspace_hits"
  | none => 0

namespace LayeredCacheRepository

variable (client : Client) {env : Surroundings}

theorem hits_scanL2In_getStats (hanswered : ∀ i, env.fault i = .none) (redis : Database V) :
    ∃ report, (scanL2In client env RedisCacheRepository.getStats redis).2 = some report ∧
      report.stats.hits = redisHits client env redis := by
  have hfault : env.fault = faultless := funext hanswered
  rw [scanL2In, hfault, redisHits]
  simp only [RedisCacheRepository.getStats, Programs.run, Programs.attempt, faultless,
    Client.serve]
  cases (client.send (env.l2 1).now redis (.get RedisCacheRepository.statsKey)).2 with
  | none => exact ⟨RedisCacheRepository.noStats, rfl, rfl⟩
  | some reply => exact ⟨_, rfl, rfl⟩

/-- The first tier's rate, beside the hits of both tiers. -/
theorem snd_getStatsIn (hsound : env.Sound) (memoryUsageMb : ℚ) (s : Tiers V) :
    (getStatsIn client env memoryUsageMb s).2.stats.hits =
        s.l1.stats.hits + redisHits client env s.redis ∧
      (getStatsIn client env memoryUsageMb s).2.stats.misses = s.l1.stats.misses ∧
      (getStatsIn client env memoryUsageMb s).2.hitRate =
        (s.l1.getStats memoryUsageMb).hitRate := by
  obtain ⟨report, hreport, hhits⟩ := hits_scanL2In_getStats client hsound.answered s.redis
  unfold getStatsIn
  simp only [hsound.available, ↓reduceIte]
  cases hresult : scanL2In client env RedisCacheRepository.getStats s.redis with
  | mk redis answer =>
    rw [hresult] at hreport
    obtain rfl : answer = some report := hreport
    refine ⟨?_, rfl, rfl⟩
    rw [← hhits]
    rfl

/-- Whatever calls came before and whatever Redis reports, the merged report is consistent exactly
when Redis' hits are too few to show in the rate. -/
theorem getStats_consistent_iff (config : Config) (regExp : RegExp) (redis : Database V)
    (calls : List (LayeredCall V)) (hsound : env.Sound) (memoryUsageMb : ℚ) :
    let s := reachIn client config regExp redis calls
    (getStatsIn client env memoryUsageMb s).2.Consistent ↔
      FewFurther s.l1.stats.hits s.l1.stats.misses (redisHits client env s.redis) := by
  intro s
  obtain ⟨hhits, hmisses, hrate⟩ := snd_getStatsIn client hsound memoryUsageMb s
  rw [MemoryCacheRepository.CacheStats.consistent_iff, hhits, hmisses, hrate, FewFurther]
  by_cases hnone : redisHits client env s.redis = 0
  · rw [hnone, Nat.add_zero]
    have hconsistent := MemoryCacheRepository.consistent_getStats memoryUsageMb s.l1
    exact iff_of_true hconsistent.computed (Or.inl rfl)
  · by_cases hread : s.l1.stats.hits + s.l1.stats.misses = 0
    · obtain ⟨hzero, hzero'⟩ := Nat.add_eq_zero_iff.mp hread
      rw [MemoryCacheRepository.getStats]
      dsimp only
      rw [if_pos hread, hzero, hzero', if_neg (by omega), Nat.zero_add, Nat.add_zero,
        inHundredths_basisPoints_self hnone]
      exact iff_of_false (by norm_num) (by omega)
    · rw [MemoryCacheRepository.getStats]
      dsimp only
      rw [if_neg hread, if_neg (by omega), hitRate_eq_iff (Nat.pos_of_ne_zero hread)]
      constructor
      · intro hfew
        exact Or.inr ⟨Nat.pos_of_ne_zero hread, hfew⟩
      · rintro (hzero | ⟨-, hfew⟩)
        · exact absurd hzero hnone
        · exact hfew

/-- Redis answers, with this text on itself. -/
def informing (now : Time) (info : String) : Surroundings :=
  { (Conditions.good now).surroundings with l2 := fun _ => ⟨now, [], "0", fun _ => info, 0⟩ }

/-- A key that the first tier has evicted is read from Redis. -/
def readEvicted (now : Time) : List (LayeredCall ℕ) :=
  [⟨.set "a" 7 (.ofTtl 60), informing now ""⟩, ⟨.set "b" 8 (.ofTtl 60), informing now ""⟩,
    ⟨.get "a", informing now ""⟩]

theorem getStats_consistent_iff_readEvicted :
    let now : Time := ⟨2000, by decide⟩
    let s := reachIn ⟨"edgecache:"⟩ ⟨1, 60, by decide, by decide⟩ (fun _ => none) (fun _ => none)
      (readEvicted now)
    (getStatsIn ⟨"edgecache:"⟩ (informing now "keyspace_hits:0") 1 s).2.Consistent ↔
      FewFurther s.l1.stats.hits s.l1.stats.misses
        (redisHits ⟨"edgecache:"⟩ (informing now "keyspace_hits:0") s.redis) :=
  getStats_consistent_iff ⟨"edgecache:"⟩ ⟨1, 60, by decide, by decide⟩ (fun _ => none)
    (fun _ => none) (readEvicted ⟨2000, by decide⟩) ⟨rfl, fun _ => rfl⟩ 1

/-- One hit, in Redis, and one miss, in the first tier: the rate that is reported is 0. -/
theorem not_consistent_readEvicted :
    let now : Time := ⟨2000, by decide⟩
    let s := reachIn ⟨"edgecache:"⟩ ⟨1, 60, by decide, by decide⟩ (fun _ => none) (fun _ => none)
      (readEvicted now)
    (informing now "keyspace_hits:1").Sound ∧
      ¬ (getStatsIn ⟨"edgecache:"⟩ (informing now "keyspace_hits:1") 1 s).2.Consistent := by
  intro now s
  refine ⟨⟨rfl, fun _ => rfl⟩, fun h => ?_⟩
  have hhits :
      (getStatsIn ⟨"edgecache:"⟩ (informing now "keyspace_hits:1") 1 s).2.stats.hits = 1 := by
    decide +kernel
  have hmisses :
      (getStatsIn ⟨"edgecache:"⟩ (informing now "keyspace_hits:1") 1 s).2.stats.misses = 1 := by
    decide +kernel
  have hrate : (getStatsIn ⟨"edgecache:"⟩ (informing now "keyspace_hits:1") 1 s).2.hitRate = 0 := by
    decide +kernel
  have hcomputed := h.computed
  rw [hhits, hmisses, hrate] at hcomputed
  exact absurd hcomputed (by decide +kernel)

end LayeredCacheRepository

end EdgeCache
