import EdgeCache.Time
import EdgeCache.Library.Runs
import EdgeCache.Library.Windows
import Mathlib.Data.List.Count

/-!
`RateLimit`: how many requests a client has made since the start of its window. A request is
checked and, unless the limit is exceeded, counted; each of the two reads the clock anew, and
the window can expire in between. Along every run the counter is the number of requests
admitted since the start of the window. The window is restarted and does not slide: the
requests at its end and those after the restart are not counted together, and up to twice the
limit can be admitted in its length, but no more.
-/
namespace EdgeCache

/-- Numbers of requests are whole, as the configuration has them. -/
structure RateLimit where
  identifier : String
  requests : ℕ
  windowStart : Time
  windowMs : ℚ
  maxRequests : ℕ

/-- A time in milliseconds, as an operand of the arithmetic of numbers. A sum with a fraction of
a millisecond is not rounded. -/
def Time.ms (t : Time) : ℚ := t.val

theorem Time.ms_le_ms {t t' : Time} : t.ms ≤ t'.ms ↔ t ≤ t' := Int.cast_le

theorem Time.ms_lt_ms {t t' : Time} : t.ms < t'.ms ↔ t < t' := Int.cast_lt

namespace RateLimit

def create (identifier : String) (windowMs : ℚ) (maxRequests : ℕ) (now : Time) : RateLimit where
  identifier := identifier
  requests := 0
  windowStart := now
  windowMs := windowMs
  maxRequests := maxRequests

def isWindowExpired (limit : RateLimit) (now : Time) : Bool :=
  now.ms > limit.windowStart.ms + limit.windowMs

def isLimitExceeded (limit : RateLimit) (now : Time) : Bool :=
  if limit.isWindowExpired now then false
  else limit.requests ≥ limit.maxRequests

/-- `Math.max(0, …)` is the subtraction of natural numbers. -/
def remainingRequests (limit : RateLimit) (now : Time) : ℕ :=
  if limit.isWindowExpired now then limit.maxRequests
  else limit.maxRequests - limit.requests

/-- The clock is read again for the start of a new window. -/
def increment (limit : RateLimit) (testedAt startedAt : Time) : RateLimit :=
  if limit.isWindowExpired testedAt then
    { limit with requests := 1, windowStart := startedAt }
  else { limit with requests := limit.requests + 1 }

variable {limit : RateLimit} {now : Time}

theorem isWindowExpired_iff :
    limit.isWindowExpired now = true ↔ limit.windowStart.ms + limit.windowMs < now.ms := by
  simp only [isWindowExpired, gt_iff_lt, decide_eq_true_eq]

theorem ms_le_of_open (h : limit.isWindowExpired now = false) :
    now.ms ≤ limit.windowStart.ms + limit.windowMs := by
  by_contra hlt
  exact Bool.noConfusion (h.symm.trans (isWindowExpired_iff.mpr (not_le.mp hlt)))

theorem isWindowExpired_mono {now' : Time} (hnow : now ≤ now')
    (h : limit.isWindowExpired now = true) : limit.isWindowExpired now' = true := by
  rw [isWindowExpired_iff] at h ⊢
  exact h.trans_le (Time.ms_le_ms.mpr hnow)

theorem isLimitExceeded_iff : limit.isLimitExceeded now = true ↔
    limit.isWindowExpired now = false ∧ limit.maxRequests ≤ limit.requests := by
  rw [isLimitExceeded]
  cases limit.isWindowExpired now with
  | true => simp
  | false => simp

theorem remainingRequests_of_expired (h : limit.isWindowExpired now = true) :
    limit.remainingRequests now = limit.maxRequests := by
  rw [remainingRequests, if_pos h]

theorem remainingRequests_of_open (h : limit.isWindowExpired now = false) :
    limit.remainingRequests now = limit.maxRequests - limit.requests := by
  rw [remainingRequests, if_neg (by simp [h])]

theorem isLimitExceeded_iff_remainingRequests (hmax : 1 ≤ limit.maxRequests) :
    limit.isLimitExceeded now = true ↔ limit.remainingRequests now = 0 := by
  rw [isLimitExceeded_iff]
  cases hexpired : limit.isWindowExpired now with
  | true =>
    rw [remainingRequests_of_expired hexpired]
    refine iff_of_false (fun h => Bool.noConfusion h.1) ?_
    omega
  | false =>
    rw [remainingRequests_of_open hexpired, Nat.sub_eq_zero_iff_le]
    exact and_iff_right rfl

/-! ### A client's requests, one after the other -/

/-- The readings of the clock for one request, in the order in which they are made: in the check,
in the increment, and for the start of a new window. One the code does not make can be
taken to be the one before. -/
structure Attempt where
  checkedAt : Time
  testedAt : Time
  startedAt : Time
  checkedAt_le : checkedAt ≤ testedAt
  testedAt_le : testedAt ≤ startedAt

/-- The limit of a client, when its admitted requests were counted, and the last reading of
the clock. -/
structure Client where
  limit : RateLimit
  admitted : List Time
  now : Time

def Client.new (identifier : String) (windowMs : ℚ) (maxRequests : ℕ) (createdAt : Time) :
    Client where
  limit := create identifier windowMs maxRequests createdAt
  admitted := []
  now := createdAt

/-- When the increment counts the request. -/
def countedAt (limit : RateLimit) (a : Attempt) : Time :=
  if limit.isWindowExpired a.testedAt then a.startedAt else a.testedAt

def Client.request (c : Client) (a : Attempt) : Client :=
  if c.limit.isLimitExceeded a.checkedAt then { c with now := a.startedAt }
  else
    { limit := c.limit.increment a.testedAt a.startedAt
      admitted := c.admitted ++ [countedAt c.limit a]
      now := a.startedAt }

/-- The clock does not run backwards from one request to the next. -/
def Client.Follows (c : Client) (a : Attempt) : Prop := c.now ≤ a.checkedAt

instance (c : Client) (a : Attempt) : Decidable (c.Follows a) :=
  inferInstanceAs (Decidable (c.now.val ≤ a.checkedAt.val))

/-- The increment after the window has expired. -/
def Client.restart (c : Client) (a : Attempt) : Client where
  limit := { c.limit with requests := 1, windowStart := a.startedAt }
  admitted := c.admitted ++ [a.startedAt]
  now := a.startedAt

def Client.count (c : Client) (a : Attempt) : Client where
  limit := { c.limit with requests := c.limit.requests + 1 }
  admitted := c.admitted ++ [a.testedAt]
  now := a.startedAt

/-- What a request does: it is rejected, it restarts the window, or it is counted in it. -/
theorem Client.request_cases (c : Client) (a : Attempt) :
    (c.limit.isLimitExceeded a.checkedAt = true ∧ c.request a = { c with now := a.startedAt }) ∨
    (c.limit.isLimitExceeded a.checkedAt = false ∧ c.limit.isWindowExpired a.testedAt = true ∧
      c.request a = c.restart a) ∨
    (c.limit.isLimitExceeded a.checkedAt = false ∧ c.limit.isWindowExpired a.testedAt = false ∧
      c.limit.requests < c.limit.maxRequests ∧ c.request a = c.count a) := by
  cases hexceeded : c.limit.isLimitExceeded a.checkedAt with
  | true => exact Or.inl ⟨rfl, by rw [request, if_pos hexceeded]⟩
  | false =>
    have hallowed : ¬ c.limit.isLimitExceeded a.checkedAt = true := by simp [hexceeded]
    rw [request, if_neg hallowed]
    cases hexpired : c.limit.isWindowExpired a.testedAt with
    | true =>
      refine Or.inr (Or.inl ⟨rfl, rfl, ?_⟩)
      rw [increment, countedAt, if_pos hexpired, if_pos hexpired, restart]
    | false =>
      have hopen : ¬ c.limit.isWindowExpired a.testedAt = true := by simp [hexpired]
      have hchecked : c.limit.isWindowExpired a.checkedAt = false :=
        Bool.eq_false_iff.mpr fun h => hopen (isWindowExpired_mono a.checkedAt_le h)
      have hless : c.limit.requests < c.limit.maxRequests := by
        by_contra hmany
        exact hallowed (isLimitExceeded_iff.mpr ⟨hchecked, not_lt.mp hmany⟩)
      refine Or.inr (Or.inr ⟨rfl, rfl, hless, ?_⟩)
      rw [increment, countedAt, if_neg hopen, if_neg hopen, count]

/-- How many of the times are `start` or later. -/
def countSince (start : Time) (times : List Time) : ℕ :=
  times.countP fun t => start.val ≤ t.val

theorem countSince_concat {start t : Time} (h : start ≤ t) (times : List Time) :
    countSince start (times ++ [t]) = countSince start times + 1 := by
  have hval : start.val ≤ t.val := h
  rw [countSince, List.countP_append, List.countP_singleton, if_pos (decide_eq_true hval),
    countSince]

theorem countSince_eq_zero {start : Time} {times : List Time} (h : ∀ t ∈ times, t < start) :
    countSince start times = 0 :=
  List.countP_eq_zero.mpr fun t ht hle => (h t ht).not_ge (of_decide_eq_true hle)

/-- The counter is the number of requests admitted since the window started. -/
structure Client.Counts (c : Client) : Prop where
  requests_eq : c.limit.requests = countSince c.limit.windowStart c.admitted
  requests_le : c.limit.requests ≤ c.limit.maxRequests
  windowStart_le : c.limit.windowStart ≤ c.now
  admitted_le : ∀ t ∈ c.admitted, t ≤ c.now
  admitted_in_window : ∀ t ∈ c.admitted, t.ms ≤ c.limit.windowStart.ms + c.limit.windowMs

theorem Client.counts_new (identifier : String) (windowMs : ℚ) (maxRequests : ℕ)
    (createdAt : Time) : (new identifier windowMs maxRequests createdAt).Counts where
  requests_eq := rfl
  requests_le := Nat.zero_le _
  windowStart_le := le_rfl
  admitted_le := fun _ ht => absurd ht List.not_mem_nil
  admitted_in_window := fun _ ht => absurd ht List.not_mem_nil

theorem Client.Counts.lt_startedAt {c : Client} (h : c.Counts) {a : Attempt}
    (hexpired : c.limit.isWindowExpired a.testedAt = true) :
    ∀ t ∈ c.admitted, t < a.startedAt := by
  intro t ht
  apply Time.ms_lt_ms.mp
  calc t.ms ≤ c.limit.windowStart.ms + c.limit.windowMs := h.admitted_in_window t ht
    _ < a.testedAt.ms := isWindowExpired_iff.mp hexpired
    _ ≤ a.startedAt.ms := Time.ms_le_ms.mpr a.testedAt_le

theorem Client.Counts.later {c : Client} (h : c.Counts) {now : Time} (hnow : c.now ≤ now) :
    Client.Counts { c with now := now } where
  requests_eq := h.requests_eq
  requests_le := h.requests_le
  windowStart_le := h.windowStart_le.trans hnow
  admitted_le := fun t ht => (h.admitted_le t ht).trans hnow
  admitted_in_window := h.admitted_in_window

theorem Client.Counts.restart {c : Client} (h : c.Counts) (hwindow : 0 ≤ c.limit.windowMs)
    (hmax : 1 ≤ c.limit.maxRequests) {a : Attempt}
    (hexpired : c.limit.isWindowExpired a.testedAt = true) : (c.restart a).Counts := by
  have hbefore := h.lt_startedAt hexpired
  have hall : ∀ t ∈ c.admitted ++ [a.startedAt], t ≤ a.startedAt := by
    intro t ht
    rcases List.mem_append.mp ht with hold | hnew
    · exact (hbefore t hold).le
    · exact (List.mem_singleton.mp hnew).le
  refine ⟨?_, hmax, le_rfl, hall, fun t ht => ?_⟩
  · show 1 = countSince a.startedAt (c.admitted ++ [a.startedAt])
    rw [countSince_concat le_rfl, countSince_eq_zero hbefore]
  · show t.ms ≤ a.startedAt.ms + c.limit.windowMs
    calc t.ms ≤ a.startedAt.ms := Time.ms_le_ms.mpr (hall t ht)
      _ ≤ a.startedAt.ms + c.limit.windowMs := le_add_of_nonneg_right hwindow

theorem Client.Counts.count {c : Client} (h : c.Counts) {a : Attempt} (ha : c.Follows a)
    (hopen : c.limit.isWindowExpired a.testedAt = false)
    (hless : c.limit.requests < c.limit.maxRequests) : (c.count a).Counts := by
  have hnow : c.now ≤ a.testedAt := ha.trans a.checkedAt_le
  have hlater : c.now ≤ a.startedAt := hnow.trans a.testedAt_le
  have hin := ms_le_of_open hopen
  refine ⟨?_, hless, h.windowStart_le.trans hlater, fun t ht => ?_, fun t ht => ?_⟩
  · show c.limit.requests + 1 = countSince c.limit.windowStart (c.admitted ++ [a.testedAt])
    rw [countSince_concat (h.windowStart_le.trans hnow), h.requests_eq]
  · rcases List.mem_append.mp ht with hold | hnew
    · exact (h.admitted_le t hold).trans hlater
    · exact (List.mem_singleton.mp hnew).trans_le a.testedAt_le
  · rcases List.mem_append.mp ht with hold | hnew
    · exact h.admitted_in_window t hold
    · exact (List.mem_singleton.mp hnew) ▸ hin

theorem Client.Counts.request {c : Client} (h : c.Counts) (hwindow : 0 ≤ c.limit.windowMs)
    (hmax : 1 ≤ c.limit.maxRequests) {a : Attempt} (ha : c.Follows a) : (c.request a).Counts := by
  obtain ⟨-, heq⟩ | ⟨-, hexpired, heq⟩ | ⟨-, hopen, hless, heq⟩ := c.request_cases a
  · rw [heq]
    exact h.later (ha.trans (a.checkedAt_le.trans a.testedAt_le))
  · rw [heq]
    exact h.restart hwindow hmax hexpired
  · rw [heq]
    exact h.count ha hopen hless

/-- The counter along a run of a client whose limit was made for `windowMs` and `maxRequests`. -/
structure Client.Bookkeeping (windowMs : ℚ) (maxRequests : ℕ) (c : Client) : Prop where
  windowMs_eq : c.limit.windowMs = windowMs
  maxRequests_eq : c.limit.maxRequests = maxRequests
  counts : c.Counts

theorem Client.Bookkeeping.request {windowMs : ℚ} {maxRequests : ℕ} (hwindow : 0 < windowMs)
    (hmax : 1 ≤ maxRequests) {c : Client} {a : Attempt} (ha : c.Follows a)
    (h : c.Bookkeeping windowMs maxRequests) : (c.request a).Bookkeeping windowMs maxRequests := by
  have hcounts := h.counts.request (h.windowMs_eq ▸ hwindow.le) (h.maxRequests_eq ▸ hmax) ha
  refine ⟨?_, ?_, hcounts⟩
  · obtain ⟨-, heq⟩ | ⟨-, -, heq⟩ | ⟨-, -, -, heq⟩ := c.request_cases a <;> rw [heq]
    all_goals exact h.windowMs_eq
  · obtain ⟨-, heq⟩ | ⟨-, -, heq⟩ | ⟨-, -, -, heq⟩ := c.request_cases a <;> rw [heq]
    all_goals exact h.maxRequests_eq

theorem bookkeeping_run {windowMs : ℚ} {maxRequests : ℕ} (hwindow : 0 < windowMs)
    (hmax : 1 ≤ maxRequests) {identifier : String} {createdAt : Time} {attempts : List Attempt}
    (hclock : Runs.Guarded Client.request Client.Follows
      (Client.new identifier windowMs maxRequests createdAt) attempts) :
    (Runs.run Client.request (Client.new identifier windowMs maxRequests createdAt)
      attempts).Bookkeeping windowMs maxRequests :=
  hclock.invariant (fun _ _ h ha => h.request hwindow hmax ha)
    ⟨rfl, rfl, Client.counts_new identifier windowMs maxRequests createdAt⟩

/-- The counter is exact along every run, and the two questions about the limit agree at every
time. -/
theorem window_bookkeeping (identifier : String) (windowMs : ℚ) (maxRequests : ℕ)
    (hwindow : 0 < windowMs) (hmax : 1 ≤ maxRequests) (createdAt : Time)
    (attempts : List Attempt)
    (hclock : Runs.Guarded Client.request Client.Follows
      (Client.new identifier windowMs maxRequests createdAt) attempts) :
    let c := Runs.run Client.request (Client.new identifier windowMs maxRequests createdAt) attempts
    c.limit.requests = countSince c.limit.windowStart c.admitted ∧
      c.limit.requests ≤ maxRequests ∧
      ∀ now : Time,
        (c.limit.isLimitExceeded now = true ↔ c.limit.remainingRequests now = 0) ∧
        (c.limit.isWindowExpired now = false →
          c.limit.remainingRequests now = maxRequests - c.limit.requests) ∧
        (c.limit.isWindowExpired now = true → c.limit.remainingRequests now = maxRequests) := by
  intro c
  have h : c.Bookkeeping windowMs maxRequests := bookkeeping_run hwindow hmax hclock
  refine ⟨h.counts.requests_eq, h.counts.requests_le.trans_eq h.maxRequests_eq, fun now => ?_⟩
  refine ⟨isLimitExceeded_iff_remainingRequests (h.maxRequests_eq ▸ hmax), ?_, ?_⟩
  · intro hopen
    rw [remainingRequests_of_open hopen, h.maxRequests_eq]
  · intro hexpired
    rw [remainingRequests_of_expired hexpired, h.maxRequests_eq]

def acrossExpiry : List Attempt :=
  [⟨⟨1500, by decide⟩, ⟨1500, by decide⟩, ⟨1501, by decide⟩, by decide, by decide⟩,
    ⟨⟨2000, by decide⟩, ⟨2001, by decide⟩, ⟨2002, by decide⟩, by decide, by decide⟩]

theorem window_bookkeeping_acrossExpiry :
    let c := Runs.run Client.request (Client.new "ip" 1000 1 ⟨1000, by decide⟩) acrossExpiry
    c.limit.requests = countSince c.limit.windowStart c.admitted ∧
      c.limit.requests ≤ 1 ∧
      ∀ now : Time,
        (c.limit.isLimitExceeded now = true ↔ c.limit.remainingRequests now = 0) ∧
        (c.limit.isWindowExpired now = false →
          c.limit.remainingRequests now = 1 - c.limit.requests) ∧
        (c.limit.isWindowExpired now = true → c.limit.remainingRequests now = 1) :=
  window_bookkeeping "ip" 1000 1 (by norm_num) le_rfl ⟨1000, by decide⟩ acrossExpiry
    (by decide +kernel)

/-- One request at the end of the first window, one right after it has expired. -/
def aroundExpiry : List Attempt :=
  [⟨⟨2000, by decide⟩, ⟨2000, by decide⟩, ⟨2000, by decide⟩, by decide, by decide⟩,
    ⟨⟨2001, by decide⟩, ⟨2001, by decide⟩, ⟨2001, by decide⟩, by decide, by decide⟩]

/-! ### What intervals hold -/

/-- The request is counted within the window that started at `start`. -/
def InWindow (windowMs : ℚ) (start t : Time) : Prop := start.ms ≤ t.ms ∧ t.ms ≤ start.ms + windowMs

instance (windowMs : ℚ) (start t : Time) : Decidable (InWindow windowMs start t) :=
  instDecidableAnd

/-- How many requests admitted before `start` are not yet older than `width`. -/
def Client.carriedOver (c : Client) (width : ℚ) (start now : Time) : ℕ :=
  c.admitted.countP fun t => t.val < start.val ∧ now.ms ≤ t.ms + width

theorem Client.recent_le (c : Client) (width : ℚ) (start now : Time) :
    Windows.recent Time.ms width now.ms c.admitted ≤
      c.carriedOver width start now + countSince start c.admitted := by
  refine Windows.countP_le_add fun t _ ht => ?_
  simp only [decide_eq_true_eq] at ht ⊢
  rcases lt_or_ge t.val start.val with hbefore | hsince
  · exact Or.inl ⟨hbefore, ht⟩
  · exact Or.inr hsince

theorem Client.carriedOver_anti (c : Client) (width : ℚ) (start : Time) {now later : Time}
    (h : now ≤ later) : c.carriedOver width start later ≤ c.carriedOver width start now := by
  refine List.countP_mono_left fun t _ ht => ?_
  simp only [decide_eq_true_eq] at ht ⊢
  exact ⟨ht.1, (Time.ms_le_ms.mpr h).trans ht.2⟩

theorem Client.carriedOver_concat {c c' : Client} {t start now : Time} (hle : start ≤ t)
    (hadmitted : c'.admitted = c.admitted ++ [t]) (width : ℚ) :
    c'.carriedOver width start now = c.carriedOver width start now := by
  have hnot : ¬ t.val < start.val := not_lt.mpr hle
  rw [carriedOver, hadmitted, List.countP_append, List.countP_singleton, if_neg (by simp [hnot])]
  rfl

/-- What a restart carries over has been counted in the window that ends, or was carried over
into that one, and a window's length longer ago. -/
theorem Client.carriedOver_restart (c : Client) (k : ℕ) {a : Attempt}
    (hexpired : c.limit.isWindowExpired a.testedAt = true) :
    c.carriedOver ((k + 1) * c.limit.windowMs) a.startedAt a.startedAt ≤
      c.carriedOver (k * c.limit.windowMs) c.limit.windowStart c.limit.windowStart +
        countSince c.limit.windowStart c.admitted := by
  refine Windows.countP_le_add fun t _ ht => ?_
  simp only [decide_eq_true_eq] at ht ⊢
  have hend := isWindowExpired_iff.mp hexpired
  have hstarted := Time.ms_le_ms.mpr a.testedAt_le
  rcases lt_or_ge t.val c.limit.windowStart.val with hbefore | hsince
  · exact Or.inl ⟨hbefore, by linarith only [hend, hstarted, ht.2]⟩
  · exact Or.inr hsince

/-- No more than the limit is carried over into the window for each window's length, and no more
is admitted for each of them and one. -/
structure Client.Spread (c : Client) : Prop where
  counts : c.Counts
  carriedOver_le : ∀ k : ℕ, c.carriedOver (k * c.limit.windowMs) c.limit.windowStart
    c.limit.windowStart ≤ k * c.limit.maxRequests
  bounded : ∀ k : ℕ, Windows.Bounded Time.ms (k * c.limit.windowMs)
    ((k + 1) * c.limit.maxRequests) c.admitted

theorem Client.spread_new (identifier : String) (windowMs : ℚ) (maxRequests : ℕ)
    (createdAt : Time) : (new identifier windowMs maxRequests createdAt).Spread where
  counts := counts_new identifier windowMs maxRequests createdAt
  carriedOver_le := fun _ => Nat.zero_le _
  bounded := fun _ => Windows.bounded_nil

theorem Client.Spread.restart {c : Client} (h : c.Spread) (hwindow : 0 ≤ c.limit.windowMs)
    (hmax : 1 ≤ c.limit.maxRequests) {a : Attempt}
    (hexpired : c.limit.isWindowExpired a.testedAt = true) : (c.restart a).Spread := by
  have hcarried : ∀ k : ℕ, c.carriedOver (k * c.limit.windowMs) a.startedAt a.startedAt ≤
      k * c.limit.maxRequests := by
    intro k
    cases k with
    | zero =>
      have hnone : c.carriedOver ((0 : ℕ) * c.limit.windowMs) a.startedAt a.startedAt = 0 := by
        refine List.countP_eq_zero.mpr fun t _ ht => ?_
        simp only [Nat.cast_zero, zero_mul, add_zero, decide_eq_true_eq] at ht
        exact absurd (Time.ms_le_ms.mp ht.2) (not_le.mpr ht.1)
      exact hnone.trans_le (Nat.zero_le _)
    | succ k =>
      have hmore := c.carriedOver_restart k hexpired
      have hcounted := h.counts.requests_le
      rw [h.counts.requests_eq] at hcounted
      have hbefore := h.carriedOver_le k
      push_cast
      linarith
  refine ⟨h.counts.restart hwindow hmax hexpired, fun k => ?_, fun k => ?_⟩
  · exact (carriedOver_concat le_rfl rfl _).trans_le (hcarried k)
  · have hpast : ∀ t ∈ c.admitted, t.ms ≤ a.startedAt.ms := fun t ht =>
      Time.ms_le_ms.mpr (h.counts.lt_startedAt hexpired t ht).le
    refine (Windows.bounded_concat_iff (by positivity) hpast).mpr ⟨h.bounded k, ?_⟩
    have hrecent := c.recent_le (k * c.limit.windowMs) a.startedAt a.startedAt
    rw [countSince_eq_zero (h.counts.lt_startedAt hexpired)] at hrecent
    have hfew := hcarried k
    show Windows.recent Time.ms (k * c.limit.windowMs) a.startedAt.ms c.admitted <
      (k + 1) * c.limit.maxRequests
    linarith

theorem Client.Spread.count {c : Client} (h : c.Spread) (hwindow : 0 ≤ c.limit.windowMs)
    {a : Attempt} (ha : c.Follows a) (hopen : c.limit.isWindowExpired a.testedAt = false)
    (hless : c.limit.requests < c.limit.maxRequests) : (c.count a).Spread := by
  have hnow : c.now ≤ a.testedAt := ha.trans a.checkedAt_le
  have hstart := h.counts.windowStart_le.trans hnow
  refine ⟨h.counts.count ha hopen hless, fun k => ?_, fun k => ?_⟩
  · exact (carriedOver_concat hstart rfl _).trans_le (h.carriedOver_le k)
  · have hpast : ∀ t ∈ c.admitted, t.ms ≤ a.testedAt.ms := fun t ht =>
      Time.ms_le_ms.mpr ((h.counts.admitted_le t ht).trans hnow)
    refine (Windows.bounded_concat_iff (by positivity) hpast).mpr ⟨h.bounded k, ?_⟩
    have hrecent := c.recent_le (k * c.limit.windowMs) c.limit.windowStart a.testedAt
    rw [← h.counts.requests_eq] at hrecent
    have hcarried := (c.carriedOver_anti (k * c.limit.windowMs) c.limit.windowStart hstart).trans
      (h.carriedOver_le k)
    show Windows.recent Time.ms (k * c.limit.windowMs) a.testedAt.ms c.admitted <
      (k + 1) * c.limit.maxRequests
    linarith

theorem Client.Spread.request {c : Client} (h : c.Spread) (hwindow : 0 ≤ c.limit.windowMs)
    (hmax : 1 ≤ c.limit.maxRequests) {a : Attempt} (ha : c.Follows a) : (c.request a).Spread := by
  obtain ⟨-, heq⟩ | ⟨-, hexpired, heq⟩ | ⟨-, hopen, hless, heq⟩ := c.request_cases a
  · rw [heq]
    have hlater : c.now ≤ a.startedAt := ha.trans (a.checkedAt_le.trans a.testedAt_le)
    exact ⟨h.counts.later hlater, h.carriedOver_le, h.bounded⟩
  · rw [heq]
    exact h.restart hwindow hmax hexpired
  · rw [heq]
    exact h.count hwindow ha hopen hless

theorem spread_run {windowMs : ℚ} {maxRequests : ℕ} (hwindow : 0 < windowMs)
    (hmax : 1 ≤ maxRequests) {identifier : String} {createdAt : Time} {attempts : List Attempt}
    (hclock : Runs.Guarded Client.request Client.Follows
      (Client.new identifier windowMs maxRequests createdAt) attempts) :
    let c := Runs.run Client.request (Client.new identifier windowMs maxRequests createdAt) attempts
    c.Spread ∧ c.Bookkeeping windowMs maxRequests :=
  hclock.invariant (I := fun c => c.Spread ∧ c.Bookkeeping windowMs maxRequests)
    (fun _ _ h ha => ⟨h.1.request (h.2.windowMs_eq ▸ hwindow.le) (h.2.maxRequests_eq ▸ hmax) ha,
      h.2.request hwindow hmax ha⟩)
    ⟨Client.spread_new identifier windowMs maxRequests createdAt, rfl, rfl,
      Client.counts_new identifier windowMs maxRequests createdAt⟩

/-- No run admits more in an interval as long as some windows than their limits and one more. -/
theorem bounded_lengths (identifier : String) {windowMs : ℚ} {maxRequests : ℕ}
    (hwindow : 0 < windowMs) (hmax : 1 ≤ maxRequests) (createdAt : Time)
    {attempts : List Attempt}
    (hclock : Runs.Guarded Client.request Client.Follows
      (Client.new identifier windowMs maxRequests createdAt) attempts) (k : ℕ) :
    Windows.Bounded Time.ms (k * windowMs) ((k + 1) * maxRequests)
      (Runs.run Client.request (Client.new identifier windowMs maxRequests createdAt)
        attempts).admitted := by
  obtain ⟨hspread, hbook⟩ := spread_run hwindow hmax hclock
  have hbounded := hspread.bounded k
  rwa [hbook.windowMs_eq, hbook.maxRequests_eq] at hbounded

/-- The two requests around the expiry of the first window. -/
theorem bounded_lengths_aroundExpiry :
    Windows.Bounded Time.ms ((1 : ℕ) * 1000) ((1 + 1) * 1)
      (Runs.run Client.request (Client.new "ip" 1000 1 ⟨1000, by decide⟩) aroundExpiry).admitted :=
  bounded_lengths "ip" (by norm_num) le_rfl ⟨1000, by decide⟩ (by decide +kernel) 1

/-! ### What one window holds -/

/-- The window that started at `start` is full at most, whether it lasts or has expired. -/
structure Client.Fills (start : Time) (c : Client) : Prop where
  count_le : c.admitted.countP (fun t => InWindow c.limit.windowMs start t) ≤ c.limit.maxRequests
  lasts_or_expired : c.limit.windowStart = start ∨
    start.ms + c.limit.windowMs < c.limit.windowStart.ms

theorem Client.Counts.fills {c : Client} (h : c.Counts) : c.Fills c.limit.windowStart where
  count_le := by
    refine le_trans (List.countP_mono_left fun t _ ht => ?_) (h.requests_eq ▸ h.requests_le)
    simp only [decide_eq_true_eq] at ht ⊢
    exact Time.ms_le_ms.mp ht.1
  lasts_or_expired := Or.inl rfl

/-- A request that comes after the window is not counted in it. -/
theorem Client.Fills.concat {start : Time} {c c' : Client} (h : c.Fills start) {t : Time}
    (hlimits : c'.limit.windowMs = c.limit.windowMs ∧ c'.limit.maxRequests = c.limit.maxRequests)
    (hafter : start.ms + c.limit.windowMs < t.ms) (hadmitted : c'.admitted = c.admitted ++ [t])
    (hstart : start.ms + c.limit.windowMs < c'.limit.windowStart.ms) : c'.Fills start := by
  have hnot : ¬ InWindow c.limit.windowMs start t := fun hin => hin.2.not_gt hafter
  refine ⟨?_, Or.inr (hlimits.1 ▸ hstart)⟩
  rw [hadmitted, hlimits.1, hlimits.2, List.countP_append, List.countP_singleton,
    if_neg (by simpa using hnot)]
  exact h.count_le

theorem Client.Fills.request {start : Time} {c : Client} (h : c.Fills start) (hcounts : c.Counts)
    (hwindow : 0 ≤ c.limit.windowMs) {a : Attempt} (ha : c.Follows a) :
    (c.request a).Fills start := by
  obtain ⟨-, heq⟩ | ⟨-, hexpired, heq⟩ | ⟨-, hopen, hless, heq⟩ := c.request_cases a
  · rw [heq]
    exact ⟨h.count_le, h.lasts_or_expired⟩
  · rw [heq]
    have hend := isWindowExpired_iff.mp hexpired
    have hstarted := Time.ms_le_ms.mpr a.testedAt_le
    have hafter : start.ms + c.limit.windowMs < a.startedAt.ms := by
      rcases h.lasts_or_expired with rfl | hpast
      · linarith
      · linarith
    exact h.concat ⟨rfl, rfl⟩ hafter rfl hafter
  · rw [heq]
    rcases h.lasts_or_expired with rfl | hpast
    · exact (hcounts.count ha hopen hless).fills
    · have hnow : c.limit.windowStart ≤ a.testedAt :=
        hcounts.windowStart_le.trans (ha.trans a.checkedAt_le)
      exact h.concat ⟨rfl, rfl⟩ (hpast.trans_le (Time.ms_le_ms.mpr hnow)) rfl hpast

/-- In every run each window holds no more admitted requests than the limit, and an interval as
long as a window that lies across two of them no more than twice the limit. -/
theorem fixedWindow_bounded (identifier : String) {windowMs : ℚ} {maxRequests : ℕ}
    (hwindow : 0 < windowMs) (hmax : 1 ≤ maxRequests) (createdAt : Time)
    {attempts : List Attempt}
    (hclock : Runs.Guarded Client.request Client.Follows
      (Client.new identifier windowMs maxRequests createdAt) attempts) :
    let c := Client.new identifier windowMs maxRequests createdAt
    let admitted := (Runs.run Client.request c attempts).admitted
    (∀ before, before <+: attempts →
      admitted.countP (fun t => InWindow windowMs
        (Runs.run Client.request c before).limit.windowStart t) ≤ maxRequests) ∧
      Windows.Bounded Time.ms windowMs (2 * maxRequests) admitted := by
  intro c admitted
  constructor
  · rintro before ⟨after, rfl⟩
    obtain ⟨hbefore, hafter⟩ := hclock.of_append
    have hbook : (Runs.run Client.request c before).Bookkeeping windowMs maxRequests :=
      bookkeeping_run hwindow hmax hbefore
    have hrun := hafter.invariant
      (I := fun c' => c'.Fills (Runs.run Client.request c before).limit.windowStart ∧
        c'.Bookkeeping windowMs maxRequests)
      (fun _ _ h ha => ⟨h.1.request h.2.counts (h.2.windowMs_eq ▸ hwindow.le) ha,
        h.2.request hwindow hmax ha⟩)
      ⟨hbook.counts.fills, hbook⟩
    have hcount := hrun.1.count_le
    rw [hrun.2.windowMs_eq, hrun.2.maxRequests_eq, ← Runs.run_append] at hcount
    exact hcount
  · obtain ⟨hspread, hbook⟩ := spread_run hwindow hmax hclock
    have hbounded := hspread.bounded 1
    rwa [hbook.windowMs_eq, hbook.maxRequests_eq, Nat.cast_one, one_mul] at hbounded

theorem fixedWindow_bounded_aroundExpiry :
    let c := Client.new "ip" 1000 1 ⟨1000, by decide⟩
    let admitted := (Runs.run Client.request c aroundExpiry).admitted
    (∀ before, before <+: aroundExpiry →
      admitted.countP (fun t => InWindow 1000
        (Runs.run Client.request c before).limit.windowStart t) ≤ 1) ∧
      Windows.Bounded Time.ms 1000 (2 * 1) admitted :=
  fixedWindow_bounded "ip" (by norm_num) le_rfl ⟨1000, by decide⟩ (by decide +kernel)

theorem two_admitted_aroundExpiry :
    let c := Client.new "ip" 1000 1 ⟨1000, by decide⟩
    Runs.Guarded Client.request Client.Follows c aroundExpiry ∧
      ¬ Windows.Bounded Time.ms 1000 1 (Runs.run Client.request c aroundExpiry).admitted := by
  refine ⟨by decide +kernel, fun h => ?_⟩
  exact absurd (h 2000) (by decide +kernel)

end RateLimit

end EdgeCache
