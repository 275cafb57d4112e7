import EdgeCache.LayeredOperations

/-!
A total outage: `redisAvailable()` may say anything, but no Redis command succeeds. Every
call of the layered repository then returns what the memory tier returns on its own, and
leaves the memory tier as the same call would.
-/
namespace EdgeCache

open Programs (Program)

variable {V : Type}

/-! ### The second tier without answers -/

namespace RedisCacheRepository

theorem get_unanswered (key : String) :
    (get key : RedisProgram V _).Unanswered (· = some none) := rfl

theorem exists_unanswered (key : String) :
    (exists_ key : RedisProgram V _).Unanswered (· = some false) := rfl

theorem deleteByPattern_unanswered (scans : ℕ) (pattern : String) :
    (deleteByPattern scans pattern : ServerProgram V _).Unanswered (· = some (some 0)) := by
  unfold deleteByPattern deleteScanned
  exact rfl

theorem keys_unanswered (scans : ℕ) (pattern : Option String) :
    (keys scans pattern : ServerProgram V _).Unanswered (· = none) := by
  unfold keys keysScanned
  exact rfl

theorem getStats_unanswered :
    (getStats : ServerProgram V _).Unanswered (· = some noStats) := rfl

end RedisCacheRepository

/-! ### Bulk calls -/

namespace Bulk

variable {α : Type} {client : Client}
  {onReturn : Clock → String → α → MemoryCacheRepository V → MemoryCacheRepository V}

def Silent (onReturn : Clock → String → α → MemoryCacheRepository V → MemoryCacheRepository V)
    (result : Option α) : Prop :=
  ∀ a, result = some a → ∀ promotion key l1, onReturn promotion key a l1 = l1

/-- The first tier is left alone, and each single call will end as `post` says. -/
structure Idle (onReturn : Clock → String → α → MemoryCacheRepository V → MemoryCacheRepository V)
    (post : ℕ → Option α → Prop) (l1 : MemoryCacheRepository V) (s : Bulk V α) : Prop where
  l1_eq : s.tiers.l1 = l1
  ends : ∀ (i : ℕ) (key : String) (p : RedisProgram V α), s.threads[i]? = some (key, p) →
    p.Unanswered (post i)
  silent : ∀ (i : ℕ) (key : String) (p : RedisProgram V α), s.threads[i]? = some (key, p) →
    isOver p = false → p.Unanswered (Silent onReturn)

theorem settle_eq {promotion : Clock} {key : String} {p : RedisProgram V α}
    (hp : p.Unanswered (Silent onReturn)) (l1 : MemoryCacheRepository V) :
    settle onReturn promotion key p l1 = l1 := by
  cases p with
  | ret a => exact hp a rfl promotion key l1
  | _ => rfl

theorem unanswered_elim {post : Option α → Prop} {result : Option α} (h : post result) :
    (result.elim .throw .ret : RedisProgram V α).Unanswered post := by
  cases result <;> exact h

namespace Idle

variable {post : ℕ → Option α → Prop} {l1 : MemoryCacheRepository V} {s : Bulk V α}

theorem replace (h : Idle onReturn post l1 s) {i : ℕ} {key : String} {p : RedisProgram V α}
    (hends : p.Unanswered (post i)) (hsilent : p.Unanswered (Silent onReturn))
    (promotion : Clock) (redis : Database V) :
    Idle onReturn post l1
      ⟨⟨settle onReturn promotion key p s.tiers.l1, redis⟩, s.threads.set i (key, p)⟩ where
  l1_eq := (settle_eq hsilent s.tiers.l1).trans h.l1_eq
  ends := by
    intro j key' p' hj
    rcases getElem?_set_cases hj with ⟨rfl, heq⟩ | hold
    · obtain ⟨rfl, rfl⟩ := Prod.mk.inj heq
      exact hends
    · exact h.ends j key' p' hold
  silent := by
    intro j key' p' hj hover
    rcases getElem?_set_cases hj with ⟨rfl, heq⟩ | hold
    · obtain ⟨rfl, rfl⟩ := Prod.mk.inj heq
      exact hsilent
    · exact h.silent j key' p' hold hover

theorem takeTurn (h : Idle onReturn post l1 s) {turn : Turn} (hfault : turn.fault ≠ .none) :
    Idle onReturn post l1 (takeTurn client onReturn s turn) := by
  unfold Bulk.takeTurn
  split
  · exact h
  · next key p hthread =>
    split
    · exact h
    · next hover =>
      have hrunning : isOver p = false := Bool.not_eq_true _ ▸ hover
      exact h.replace (Programs.advance_unanswered (h.ends _ key p hthread) hfault _ _)
        (Programs.advance_unanswered (h.silent _ key p hthread hrunning) hfault _ _) _ _

theorem complete (h : Idle onReturn post l1 s) {env : Surroundings}
    (hfault : ∀ i, env.fault i ≠ .none) (i : ℕ) :
    Idle onReturn post l1 (complete client onReturn env s i) := by
  unfold Bulk.complete
  split
  · exact h
  · next key p hthread =>
    split
    · exact h
    · next hover =>
      have hrunning : isOver p = false := Bool.not_eq_true _ ▸ hover
      refine h.replace (unanswered_elim ?_) (unanswered_elim ?_) _ _
      · exact Programs.run_unanswered (h.ends _ key p hthread) hfault _ _ _
      · exact Programs.run_unanswered (h.silent _ key p hthread hrunning) hfault _ _ _

theorem run (client : Client) (h : Idle onReturn post l1 s) {env : Surroundings} (hout : env.Out) :
    Idle onReturn post l1 (run client onReturn env s) := by
  obtain ⟨hfault, hturns⟩ := hout
  unfold Bulk.run
  refine List.foldlRecOn (motive := Idle onReturn post l1) _ _ ?_
    fun s hs i _ => hs.complete hfault i
  exact List.foldlRecOn (motive := Idle onReturn post l1) _ _ h fun s hs turn hturn =>
    hs.takeTurn (hturns turn hturn)

end Idle

/-! A bulk call leaves no single call under way. -/

/-- The single calls before the `n`th are over. -/
def OverUpTo (n : ℕ) (s : Bulk V α) : Prop :=
  ∀ (i : ℕ) (key : String) (p : RedisProgram V α), i < n → s.threads[i]? = some (key, p) →
    isOver p = true

theorem OverUpTo.complete {n : ℕ} {s : Bulk V α} (h : OverUpTo n s) (env : Surroundings) :
    OverUpTo (n + 1) (complete client onReturn env s n) := by
  have hnext : ∀ s' : Bulk V α, (∀ i, i ≠ n → s'.threads[i]? = s.threads[i]?) →
      (∀ key p, s'.threads[n]? = some (key, p) → isOver p = true) → OverUpTo (n + 1) s' := by
    intro s' hsame hself i key p hi hthread
    by_cases heq : i = n
    · subst heq
      exact hself key p hthread
    · exact h i key p (by omega) (hsame i heq ▸ hthread)
  unfold Bulk.complete
  split
  · next hnone => exact hnext s (fun _ _ => rfl) fun key p hthread => by simp [hnone] at hthread
  · next key' p' hsome =>
    split
    · next hover =>
      refine hnext s (fun _ _ => rfl) fun key p hthread => ?_
      obtain ⟨-, rfl⟩ := Prod.mk.inj (Option.some.inj (hsome.symm.trans hthread))
      exact hover
    · refine hnext _ (fun i hi => List.getElem?_set_ne (Ne.symm hi)) fun key p hthread => ?_
      have hlt : n < s.threads.length := (List.getElem?_eq_some_iff.mp hsome).1
      rw [List.getElem?_set_self hlt] at hthread
      obtain ⟨-, rfl⟩ := Prod.mk.inj (Option.some.inj hthread)
      cases (Programs.run client.send env.clock env.fault 0 p' s.tiers.redis).2 <;> rfl

theorem length_takeTurn (s : Bulk V α) (turn : Turn) :
    (takeTurn client onReturn s turn).threads.length = s.threads.length := by
  unfold takeTurn
  split
  · rfl
  · split
    · rfl
    · exact List.length_set

theorem length_turns (turns : List Turn) (s : Bulk V α) :
    (turns.foldl (takeTurn client onReturn) s).threads.length = s.threads.length := by
  induction turns generalizing s with
  | nil => rfl
  | cons turn rest ih => rw [List.foldl_cons, ih, length_takeTurn]

theorem overUpTo_completes (env : Surroundings) (s : Bulk V α) (n : ℕ) :
    OverUpTo n ((List.range n).foldl (complete client onReturn env) s) := by
  induction n with
  | zero => exact fun i _ _ hi => absurd hi (Nat.not_lt_zero i)
  | succ n ih =>
    rw [List.range_succ, List.foldl_append, List.foldl_cons, List.foldl_nil]
    exact ih.complete env

theorem length_complete (env : Surroundings) (s : Bulk V α) (i : ℕ) :
    (complete client onReturn env s i).threads.length = s.threads.length := by
  unfold complete
  split
  · rfl
  · split
    · rfl
    · exact List.length_set

theorem length_completes (env : Surroundings) (is : List ℕ) (s : Bulk V α) :
    (is.foldl (complete client onReturn env) s).threads.length = s.threads.length := by
  induction is generalizing s with
  | nil => rfl
  | cons i rest ih => rw [List.foldl_cons, ih, length_complete]

theorem length_run (env : Surroundings) (s : Bulk V α) :
    (run client onReturn env s).threads.length = s.threads.length :=
  (length_completes env _ _).trans (length_turns env.turns s)

theorem isOver_of_run {env : Surroundings} {s : Bulk V α} {i : ℕ} {key : String}
    {p : RedisProgram V α} (h : (run client onReturn env s).threads[i]? = some (key, p)) :
    isOver p = true := by
  have hlt := (List.getElem?_eq_some_iff.mp h).1
  rw [length_run, ← length_turns env.turns s] at hlt
  exact overUpTo_completes env _ _ i key p hlt h

end Bulk

/-! ### Calls -/

/-- What a call of the memory tier on its own returns. -/
def MemoryCacheRepository.answer (regExp : RegExp) (s : MemoryCacheRepository V) (e : Event V) :
    Answer V :=
  match e.op with
  | .get key => .entry (s.get e.clock key).2
  | .set _ _ _ => .done
  | .delete key => .flag (s.delete key).2
  | .deleteByTags tags => .count (s.deleteByTags tags).2
  | .deleteByPattern pattern => (s.deleteByPattern regExp pattern).2.elim .throws .count
  | .exists_ key => .flag (s.exists_ e.clock key).2
  | .getStats memoryUsageMb => .stats (s.getStats memoryUsageMb)
  | .flush => .done
  | .keys pattern => (s.keys regExp pattern).elim .throws .keys
  | .mget keys => .entries (s.mget e.clock keys).2
  | .mset _ => .done
  | .sweep => .done

theorem length_foldl_snd {σ α β : Type} {f : σ × List β → α → σ × List β}
    (hf : ∀ state a, (f state a).2.length = state.2.length + 1) (l : List α)
    (state : σ × List β) : (l.foldl f state).2.length = state.2.length + l.length := by
  induction l generalizing state with
  | nil => rfl
  | cons a rest ih =>
    rw [List.foldl_cons, ih, hf, List.length_cons]
    omega

theorem MemoryCacheRepository.length_mget (clock : Clock) (keys : List String)
    (s : MemoryCacheRepository V) : (s.mget clock keys).2.length = keys.length := by
  refine (length_foldl_snd (fun _ _ => ?_) keys.zipIdx (s, [])).trans ?_
  · rw [List.length_append, List.length_singleton]
  · rw [List.length_zipIdx, List.length_nil, Nat.zero_add]

namespace LayeredCacheRepository

variable (client : Client) {config : Config} {regExp : RegExp} {env : Surroundings}

theorem callL2In_of_out (hout : env.Out) {α : Type} {p : RedisProgram V α}
    {post : Option α → Prop} (hp : p.Unanswered post) (redis : Database V) :
    post (callL2In client env p redis).2 :=
  Programs.run_unanswered hp hout.1 _ _ _

theorem scanL2In_of_out (hout : env.Out) {α : Type} {p : ServerProgram V α}
    {post : Option α → Prop} (hp : p.Unanswered post) (redis : Database V) :
    post (scanL2In client env p redis).2 :=
  Programs.run_unanswered hp hout.1 _ _ _

theorem getIn_of_out (hout : env.Out) (key : String) (s : Tiers V) :
    (getIn client env key s).1.l1 = (s.l1.get env.l1 key).1 ∧
      (getIn client env key s).2 = (s.l1.get env.l1 key).2 := by
  have hnone := callL2In_of_out client hout
    (RedisCacheRepository.get_unanswered key) s.redis
  unfold getIn
  cases s.l1.get env.l1 key with
  | mk l1 found =>
    cases found with
    | some entry => exact ⟨rfl, rfl⟩
    | none =>
      simp only
      split
      · cases hresult : callL2In client env (RedisCacheRepository.get key) s.redis with
        | mk redis found =>
          rw [hresult] at hnone
          simp only at hnone
          subst hnone
          exact ⟨rfl, rfl⟩
      · exact ⟨rfl, rfl⟩

theorem existsIn_of_out (hout : env.Out) (key : String) (s : Tiers V) :
    (existsIn client env key s).1.l1 = (s.l1.exists_ env.l1 key).1 ∧
      (existsIn client env key s).2 = (s.l1.exists_ env.l1 key).2 := by
  have hfalse := callL2In_of_out client hout
    (RedisCacheRepository.exists_unanswered key) s.redis
  unfold existsIn
  cases s.l1.exists_ env.l1 key with
  | mk l1 found =>
    cases found with
    | true => exact ⟨rfl, rfl⟩
    | false =>
      simp only
      split
      · simp [hfalse]
      · exact ⟨rfl, rfl⟩

theorem deleteByPatternIn_of_out (hout : env.Out) (pattern : String) (s : Tiers V) :
    (deleteByPatternIn client regExp env pattern s).1.l1 =
        (s.l1.deleteByPattern regExp pattern).1 ∧
      (deleteByPatternIn client regExp env pattern s).2 =
        (s.l1.deleteByPattern regExp pattern).2.elim .throws .count := by
  have hzero := scanL2In_of_out client hout
    (RedisCacheRepository.deleteByPattern_unanswered env.scans pattern) s.redis
  unfold deleteByPatternIn
  cases s.l1.deleteByPattern regExp pattern with
  | mk l1 count =>
    cases count with
    | none => exact ⟨rfl, rfl⟩
    | some count =>
      simp only
      split
      · cases hresult : scanL2In client env
            (RedisCacheRepository.deleteByPattern env.scans pattern) s.redis with
        | mk redis result =>
          rw [hresult] at hzero
          simp only at hzero
          subst hzero
          exact ⟨rfl, rfl⟩
      · exact ⟨rfl, rfl⟩

theorem keysIn_of_out (hout : env.Out) (pattern : Option String) (s : Tiers V) :
    (keysIn client regExp env pattern s).1.l1 = s.l1 ∧
      (keysIn client regExp env pattern s).2 = (s.l1.keys regExp pattern).elim .throws .keys := by
  have hthrows := scanL2In_of_out client hout
    (RedisCacheRepository.keys_unanswered env.scans pattern) s.redis
  unfold keysIn
  cases s.l1.keys regExp pattern with
  | none => exact ⟨rfl, rfl⟩
  | some l1Keys =>
    simp only
    split
    · cases hresult : scanL2In client env (RedisCacheRepository.keys env.scans pattern) s.redis with
      | mk redis result =>
        rw [hresult] at hthrows
        simp only at hthrows
        subst hthrows
        exact ⟨rfl, rfl⟩
    · exact ⟨rfl, rfl⟩

theorem mergeStats_noStats (stats : MemoryCacheRepository.CacheStats) :
    mergeStats stats RedisCacheRepository.noStats = stats := by
  simp [mergeStats, RedisCacheRepository.noStats]

theorem getStatsIn_of_out (hout : env.Out) (memoryUsageMb : ℚ) (s : Tiers V) :
    (getStatsIn client env memoryUsageMb s).1.l1 = s.l1 ∧
      (getStatsIn client env memoryUsageMb s).2 = s.l1.getStats memoryUsageMb := by
  have hzeros := scanL2In_of_out client hout
    RedisCacheRepository.getStats_unanswered s.redis
  unfold getStatsIn
  simp only
  split
  · cases hresult : scanL2In client env RedisCacheRepository.getStats s.redis with
    | mk redis result =>
      rw [hresult] at hzeros
      simp only at hzeros
      subst hzeros
      exact ⟨rfl, mergeStats_noStats _⟩
  · exact ⟨rfl, rfl⟩

theorem getThread_unanswered (i : ℕ) (key : String) (found : Option (CacheEntry V)) :
    (getThread env i key found).Unanswered (· = some found) := by
  unfold getThread
  cases found with
  | some entry => exact rfl
  | none =>
    simp only
    split
    · exact RedisCacheRepository.get_unanswered key
    · exact rfl

theorem getThread_silent {i : ℕ} {key : String} {found : Option (CacheEntry V)}
    (hover : Bulk.isOver (getThread env i key found) = false) :
    (getThread env i key found).Unanswered (Bulk.Silent promoteFound) := by
  have hnothing : Bulk.Silent promoteFound (some (none : Option (CacheEntry V))) := by
    intro a ha promotion key l1
    obtain rfl := Option.some.inj ha
    rfl
  unfold getThread at hover ⊢
  cases found with
  | some entry => cases hover
  | none =>
    simp only at hover ⊢
    split
    · exact hnothing
    · exact hnothing

theorem mgetIn_of_out (hout : env.Out) (keys : List String) (s : Tiers V) :
    (mgetIn client env keys s).1.l1 = (s.l1.mget env.l1 keys).1 ∧
      (mgetIn client env keys s).2 = (s.l1.mget env.l1 keys).2 := by
  have hlength := s.l1.length_mget env.l1 keys
  rw [mgetIn_eq]
  generalize s.l1.mget env.l1 keys = r at hlength ⊢
  obtain ⟨l1, found⟩ := r
  simp only at hlength ⊢
  generalize hstart : (⟨⟨l1, s.redis⟩, mgetThreads env keys found⟩ :
    Bulk V (Option (CacheEntry V))) = start
  have hcount : start.threads.length = found.length := by
    simp [← hstart, mgetThreads, hlength]
  have hthread : ∀ (i : ℕ) (key : String) p, start.threads[i]? = some (key, p) →
      ∃ entry, found[i]? = some entry ∧ p = getThread env i key entry := by
    rw [← hstart]
    exact fun i key p hi => mem_mgetThreads hi
  have hidle : Bulk.Idle promoteFound (fun i result => ∃ entry, result = some entry ∧
      found[i]? = some entry) l1 start := by
    refine ⟨by rw [← hstart], fun i key p hi => ?_, fun i key p hi hover => ?_⟩
    · obtain ⟨entry, hentry, rfl⟩ := hthread i key p hi
      exact (getThread_unanswered i key entry).mono fun _ hresult => ⟨entry, hresult, hentry⟩
    · obtain ⟨entry, -, rfl⟩ := hthread i key p hi
      exact getThread_silent hover
  have hend := hidle.run client hout
  refine ⟨hend.l1_eq, List.ext_getElem? fun i => ?_⟩
  rw [List.getElem?_map]
  cases hi : (Bulk.run client promoteFound env start).threads[i]? with
  | none =>
    have hle := List.getElem?_eq_none_iff.mp hi
    rw [Bulk.length_run, hcount] at hle
    rw [Option.map_none, List.getElem?_eq_none hle]
  | some t =>
    obtain ⟨key, p⟩ := t
    have hover := Bulk.isOver_of_run hi
    have hfound := hend.ends i key p hi
    cases p with
    | ret entry =>
      obtain ⟨entry', hentry', hget⟩ := hfound
      rw [hget, ← hentry']
      rfl
    | throw =>
      obtain ⟨entry', hentry', -⟩ := hfound
      cases hentry'
    | now k => cases hover
    | call c k => cases hover

theorem msetIn_of_out (hout : env.Out) (entries : List (String × V × SetOptions)) (s : Tiers V) :
    (msetIn client config env entries s).l1 = s.l1.mset env.l1 entries := by
  have hidle : Bulk.Idle (fun _ _ (_ : Unit) l1 => l1) (fun _ _ => True)
      (s.l1.mset env.l1 entries)
      ⟨⟨s.l1.mset env.l1 entries, s.redis⟩, msetThreads config env entries⟩ :=
    ⟨rfl, fun _ _ p _ => Program.unanswered_of_forall (fun _ => trivial) p,
      fun _ _ p _ _ => Program.unanswered_of_forall (fun _ _ _ _ _ _ => rfl) p⟩
  rw [msetIn_eq]
  exact (hidle.run client hout).l1_eq

/-- A call without Redis returns and does to the first tier what the first tier's own call
does. -/
theorem callIn_of_out (config : Config) (regExp : RegExp) (hout : env.Out) (op : Op V)
    (s : Tiers V) :
    (callIn client config regExp env op s).1.l1 = s.l1.step regExp ⟨op, env.l1⟩ ∧
      (callIn client config regExp env op s).2 = s.l1.answer regExp ⟨op, env.l1⟩ := by
  cases op with
  | get key =>
    obtain ⟨hl1, hfound⟩ := getIn_of_out client hout key s
    exact ⟨hl1, congrArg Answer.entry hfound⟩
  | set key value options =>
    refine ⟨?_, rfl⟩
    simp only [callIn, setIn]
    split <;> rfl
  | delete key =>
    simp only [callIn, deleteIn]
    split <;> exact ⟨rfl, rfl⟩
  | deleteByTags tags =>
    simp only [callIn, deleteByTagsIn]
    split <;> exact ⟨rfl, rfl⟩
  | deleteByPattern pattern => exact deleteByPatternIn_of_out client hout pattern s
  | exists_ key =>
    obtain ⟨hl1, hfound⟩ := existsIn_of_out client hout key s
    exact ⟨hl1, congrArg Answer.flag hfound⟩
  | getStats memoryUsageMb =>
    obtain ⟨hl1, hstats⟩ := getStatsIn_of_out client hout memoryUsageMb s
    exact ⟨hl1, congrArg Answer.stats hstats⟩
  | flush =>
    refine ⟨?_, rfl⟩
    simp only [callIn, flushIn]
    split <;> rfl
  | keys pattern => exact keysIn_of_out client hout pattern s
  | mget keys =>
    obtain ⟨hl1, hfound⟩ := mgetIn_of_out client hout keys s
    exact ⟨hl1, congrArg Answer.entries hfound⟩
  | mset entries => exact ⟨msetIn_of_out client hout entries s, rfl⟩
  | sweep => exact ⟨rfl, rfl⟩

end LayeredCacheRepository

/-! ### Runs -/

def LayeredCacheRepository.answers (client : Client) (config : Config) (regExp : RegExp) :
    Tiers V → List (LayeredCall V) → List (Answer V)
  | _, [] => []
  | s, e :: rest =>
    let (s, answer) := callIn client config regExp e.env e.op s
    answer :: answers client config regExp s rest

def MemoryCacheRepository.answers (regExp : RegExp) :
    MemoryCacheRepository V → List (Event V) → List (Answer V)
  | _, [] => []
  | s, e :: rest => s.answer regExp e :: answers regExp (s.step regExp e) rest

/-- The same call made of the first tier on its own, at the same readings of the clock. -/
def LayeredCall.alone (e : LayeredCall V) : Event V := ⟨e.op, e.env.l1⟩

/-- While no Redis command succeeds, a run over both tiers is a run over the first one. -/
theorem LayeredCacheRepository.run_of_out (client : Client) (config : Config) (regExp : RegExp)
    (calls : List (LayeredCall V)) (hout : ∀ e ∈ calls, e.env.Out) (s : Tiers V) :
    answers client config regExp s calls =
        MemoryCacheRepository.answers regExp s.l1 (calls.map LayeredCall.alone) ∧
      (Runs.run (stepIn client config regExp) s calls).l1 =
        Runs.run (MemoryCacheRepository.step regExp) s.l1 (calls.map LayeredCall.alone) := by
  induction calls generalizing s with
  | nil => exact ⟨rfl, rfl⟩
  | cons e rest ih =>
    obtain ⟨hl1, hanswer⟩ := callIn_of_out client config regExp (hout e List.mem_cons_self) e.op s
    obtain ⟨hanswers, hrun⟩ := ih (fun e' he' => hout e' (List.mem_cons_of_mem e he'))
      (stepIn client config regExp s e)
    have hstep : (stepIn client config regExp s e).l1 = s.l1.step regExp e.alone := hl1
    rw [hstep] at hanswers hrun
    refine ⟨?_, hrun⟩
    exact congrArg₂ List.cons hanswer hanswers

/-- A set and a read of two keys while every command is lost. -/
theorem LayeredCacheRepository.run_of_out_lost :
    let env : Surroundings := Conditions.surroundings ⟨⟨1000, by decide⟩, true, fun _ => .lost⟩
    let calls : List (LayeredCall ℕ) := [⟨.set "a" 7 (.ofTtl 60), env⟩, ⟨.mget ["a", "b"], env⟩]
    let s : Tiers ℕ := ⟨.new ⟨1, 60, by decide, by decide⟩, fun _ => none⟩
    answers ⟨"edgecache:"⟩ ⟨1, 60, by decide, by decide⟩ (fun _ => none) s calls =
        MemoryCacheRepository.answers (fun _ => none) s.l1 (calls.map LayeredCall.alone) ∧
      (Runs.run (stepIn ⟨"edgecache:"⟩ ⟨1, 60, by decide, by decide⟩ fun _ => none) s calls).l1 =
        Runs.run (MemoryCacheRepository.step fun _ => none) s.l1
          (calls.map LayeredCall.alone) := by
  intro env calls s
  have hout : env.Out :=
    ⟨fun _ => Programs.Fault.noConfusion, fun _ hturn => absurd hturn List.not_mem_nil⟩
  refine run_of_out ⟨"edgecache:"⟩ ⟨1, 60, by decide, by decide⟩ (fun _ => none) calls ?_ s
  intro e he
  simp only [calls, List.mem_cons, List.not_mem_nil, or_false] at he
  rcases he with rfl | rfl
  · exact hout
  · exact hout

end EdgeCache
