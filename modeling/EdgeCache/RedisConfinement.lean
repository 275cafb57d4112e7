import EdgeCache.LayeredPatterns

/-!
A Redis database that holds other keys too. The client puts its prefix before the keys it is
given, so that what it writes or reads is its own. Three commands take no key: `FLUSHDB` empties
the whole database, `SCAN` answers names as they are, prefix and all, and those of others among
them, which are deleted under the prefix once more.
-/
namespace EdgeCache

open Programs (Program Fault)

variable {V : Type}

/-! ### Calls -/

namespace RedisCacheRepository

/-- A program of keyed commands, for the whole server. -/
def keyed {α : Type} (p : RedisProgram V α) : ServerProgram V α :=
  p.embed .keyed (fun
    | .keyed r => some r
    | _ => none) Moment.now

/-- Every call of the repository; the eviction interval is the other tier's. -/
def callProgram (config : Config) (scans : ℕ) : Op V → ServerProgram V (Answer V)
  | .get key => (keyed (get key)).map .entry
  | .set key value options => (keyed (set config key value options)).map fun _ => .done
  | .delete key => (keyed (delete key)).map .flag
  | .deleteByTags tags => (keyed (deleteByTags tags)).map .count
  | .deleteByPattern pattern => (deleteByPattern scans pattern).map (·.elim .pending .count)
  | .exists_ key => (keyed (exists_ key)).map .flag
  | .getStats _ => getStats.map .stats
  | .flush => (keyed flush).map fun _ => .done
  | .keys pattern => (keys scans pattern).map (·.elim .pending .keys)
  | .mget keys => (keyed (mget keys)).map .entries
  | .mset entries => (keyed (mset config entries)).map fun _ => .done
  | .sweep => .ret .done

end RedisCacheRepository

/-- A name that does not start with the prefix of the client. -/
def Client.Foreign (client : Client) (name : String) : Prop :=
  ∀ key, name ≠ client.keyPrefix ++ key

/-- A call on the server: the moment and the fault of each command, and how long its scans
are followed. -/
structure ServerCall (V : Type) where
  op : Op V
  moment : ℕ → Moment
  fault : ℕ → Fault
  scans : ℕ

namespace ServerCall

variable (client : Client) (config : Config) (db : Database V) (e : ServerCall V)

def run : Database V × Option (Answer V) :=
  Programs.run client.serve e.moment e.fault 0
    (RedisCacheRepository.callProgram config e.scans e.op) db

/-- The foreign keys are left as they are, and not reported. -/
structure Confined : Prop where
  unchanged : ∀ name, client.Foreign name → (e.run client config db).1 name = db name
  unreported : ∀ names, (e.run client config db).2 = some (.keys names) →
    ∀ name ∈ names, ¬ client.Foreign name

/-- A scan is answered turn by turn, and this turn is its last. -/
structure EndsAt (n : ℕ) : Prop where
  answered : ∀ i ≤ n, e.fault i = .none
  goesOn : ∀ i < n, (e.moment i).cursor ≠ "0"
  ends : (e.moment n).cursor = "0"

/-- There is nothing foreign for the call to lose or to report. -/
def Alone : Prop :=
  match e.op with
  | .flush => e.fault 0 = .lost ∨ ∀ name, client.Foreign name → db name = none
  | .keys pattern => ∀ n ≤ e.scans, e.EndsAt n → ∀ i ≤ n, ∀ name ∈ (e.moment i).visited,
      client.Foreign name → Redis.glob (pattern.getD "*") name = true →
      Redis.find db (e.moment i).now name = none
  | _ => True

end ServerCall

/-! ### Foreign keys are left alone -/

namespace RedisCacheRepository

variable {issue : Command V → Prop}

theorem onlyCalls_keyed {α : Type} {p : RedisProgram V α} (h : p.OnlyCalls issue) :
    (keyed p).OnlyCalls (ServerCommand.Within issue) := by
  refine Program.OnlyCalls.embed ?_ _ _ h
  exact fun _ hc => hc

theorem exists_onlyCalls {key : String} (h : issue (.exists_ key)) :
    (exists_ key : RedisProgram V Bool).OnlyCalls issue := by
  refine ⟨h, fun r _ => ?_⟩
  rcases r with _ | (_ | _ | _ | n | _ | _) <;> trivial

theorem mget_onlyCalls {keys : List String} (h : issue (.mget keys)) :
    (mget keys : RedisProgram V _).OnlyCalls issue := by
  refine ⟨h, fun r _ => ?_⟩
  rcases r with _ | (_ | _ | _ | _ | _ | jsons) <;> trivial

theorem msetLoop_onlyCalls (config : Config) (hset : ∀ key json mode, issue (.set key json mode))
    (hsadd : ∀ key member, issue (.sadd key member)) (entries : List (String × V × SetOptions))
    {pipeline : List (Command V)} (hpipeline : ∀ c ∈ pipeline, issue c) :
    (msetLoop config entries pipeline).OnlyCalls issue := by
  induction entries generalizing pipeline with
  | nil => exact Program.Meets.each hpipeline trivial
  | cons e rest ih =>
    obtain ⟨key, value, options⟩ := e
    refine fun now _ => ih fun c hc => ?_
    rcases List.mem_append.mp hc with hold | hnew
    · exact hpipeline c hold
    · rcases List.mem_cons.mp hnew with rfl | htag
      · exact hset _ _ _
      · obtain ⟨tag, -, rfl⟩ := List.mem_map.mp htag
        exact hsadd _ _

theorem callProgram_onlyCalls (config : Config) (scans : ℕ) {op : Op V} (hop : op ≠ .flush) :
    (callProgram config scans op).OnlyCalls (ServerCommand.Within (· ≠ .flushdb)) := by
  cases op with
  | flush => exact absurd rfl hop
  | sweep => trivial
  | get key =>
    refine (onlyCalls_keyed (get_meets ?_ ?_ trivial fun _ _ _ _ _ => ⟨?_, trivial⟩)).map _ <;>
      exact fun h => by cases h
  | set key value options =>
    refine (onlyCalls_keyed (set_meets trivial (fun _ _ _ _ => ?_) fun _ _ =>
      ⟨?_, fun _ => ?_⟩)).map _ <;> exact fun h => by cases h
  | delete key =>
    exact (onlyCalls_keyed (delete_meets (fun h => by cases h) fun _ => trivial)).map _
  | deleteByTags tags =>
    refine (onlyCalls_keyed (deleteTags_meets (fun _ => ?_) (fun _ => ?_) tags 0)).map _ <;>
      exact fun h => by cases h
  | deleteByPattern pattern =>
    exact (deleteScanned_onlyCalls (fun _ h => by cases h) pattern scans "0" 0).map _
  | exists_ key => exact (onlyCalls_keyed (exists_onlyCalls fun h => by cases h)).map _
  | getStats _ => exact (getStats_onlyCalls fun h => by cases h).map _
  | keys pattern => exact (keysScanned_onlyCalls (pattern.getD "*") scans "0" []).map _
  | mget keys => exact (onlyCalls_keyed (mget_onlyCalls fun h => by cases h)).map _
  | mset entries =>
    refine (onlyCalls_keyed (msetLoop_onlyCalls config (fun _ _ _ => ?_) (fun _ _ => ?_) entries
      (List.forall_mem_nil _))).map _ <;> exact fun h => by cases h

end RedisCacheRepository

/-- What a client is served has its prefix, unless the database is emptied. -/
theorem Client.serve_frame (client : Client) {name : String} (hname : client.Foreign name)
    (m : Moment) (db : Database V) {c : ServerCommand V}
    (hc : ServerCommand.Within (· ≠ .flushdb) c) : (client.serve m db c).1 name = db name := by
  cases c with
  | keyed c => exact client.send_frame hname m.now db hc
  | _ => rfl

theorem Client.run_serve_frame {α : Type} (client : Client) {name : String}
    (hname : client.Foreign name) {p : ServerProgram V α}
    (hp : p.OnlyCalls (ServerCommand.Within (· ≠ .flushdb))) (moment : ℕ → Moment)
    (fault : ℕ → Fault) (i : ℕ) (db : Database V) :
    (Programs.run client.serve moment fault i p db).1 name = db name := by
  have hserves : Programs.Serves (client.serve (V := V)) (fun _ => True) (fun _ _ => True)
      (ServerCommand.Within (· ≠ .flushdb)) (fun db' => db' name = db name) :=
    fun m db' c _ hsame hc =>
      ⟨(client.serve_frame hname m db' hc).trans hsame, fun _ _ => trivial⟩
  exact (Programs.run_meets hserves fault (fun _ => trivial) hp i rfl).1

/-! ### What is reported -/

section Scan

open RedisCacheRepository

variable {client : Client} {moment : ℕ → Moment} {fault : ℕ → Fault} {pattern : String}

theorem run_keysScanned_zero {i : ℕ} (hanswered : fault i = .none) (db : Database V)
    (cursor : String) (keys : List String) :
    (Programs.run client.serve moment fault i (keysScanned pattern 0 cursor keys) db).2 =
      if (moment i).cursor = "0" then
        some (some (keys ++ page pattern (moment i) db))
      else some none := by
  unfold keysScanned
  simp only [Programs.run, Programs.attempt, hanswered, Client.serve]
  split <;> rfl

theorem run_keysScanned_succ {i : ℕ} (hanswered : fault i = .none) (scans : ℕ) (db : Database V)
    (cursor : String) (keys : List String) :
    (Programs.run client.serve moment fault i (keysScanned pattern (scans + 1) cursor keys) db).2 =
      if (moment i).cursor = "0" then
        some (some (keys ++ page pattern (moment i) db))
      else (Programs.run client.serve moment fault (i + 1) (keysScanned pattern scans
        (moment i).cursor (keys ++ page pattern (moment i) db)) db).2 := by
  conv_lhs => unfold keysScanned
  simp only [Programs.run, Programs.attempt, hanswered, Client.serve]
  split <;> rfl

theorem answered_of_keysScanned {scans i : ℕ} {db : Database V} {cursor : String}
    {keys : List String} {found : Option (List String)}
    (h : (Programs.run client.serve moment fault i
      (keysScanned pattern scans cursor keys) db).2 = some found) : fault i = .none := by
  by_contra hfault
  unfold keysScanned at h
  simp [Programs.run, Programs.attempt_of_ne_none hfault] at h

theorem mem_page {m : Moment} {db : Database V} {name : String} :
    name ∈ page pattern m db ↔ name ∈ m.visited ∧
      Redis.glob pattern name = true ∧ (Redis.find db m.now name).isSome = true := by
  rw [page, List.mem_filter, Bool.and_eq_true]

theorem run_keysScanned (client : Client) {scans n i : ℕ} (hn : n ≤ scans) (db : Database V)
    (hanswered : ∀ j ≤ n, fault (i + j) = .none) (hgoesOn : ∀ j < n, (moment (i + j)).cursor ≠ "0")
    (hends : (moment (i + n)).cursor = "0") (cursor : String) (keys : List String) :
    ∃ names, (Programs.run client.serve moment fault i
        (keysScanned pattern scans cursor keys) db).2 = some (some names) ∧
      ∀ name, name ∈ names ↔ name ∈ keys ∨
        ∃ j ≤ n, name ∈ page pattern (moment (i + j)) db := by
  have hfirst : fault i = .none := hanswered 0 (Nat.zero_le n)
  induction n generalizing scans i cursor keys with
  | zero =>
    have hend : (moment i).cursor = "0" := hends
    refine ⟨keys ++ page pattern (moment i) db, ?_, fun name => ?_⟩
    · cases scans with
      | zero => rw [run_keysScanned_zero hfirst, if_pos hend]
      | succ scans => rw [run_keysScanned_succ hfirst, if_pos hend]
    · simp
  | succ n ih =>
    cases scans with
    | zero => exact absurd hn (Nat.not_succ_le_zero n)
    | succ scans =>
      have hlater : ∀ j, i + (j + 1) = i + 1 + j := fun j => by omega
      have hcursor : (moment i).cursor ≠ "0" := hgoesOn 0 n.succ_pos
      have hanswered' : ∀ j ≤ n, fault (i + 1 + j) = .none :=
        fun j hj => hlater j ▸ hanswered (j + 1) (Nat.succ_le_succ hj)
      obtain ⟨names, hrun, hnames⟩ := ih (Nat.le_of_succ_le_succ hn) hanswered'
        (fun j hj => hlater j ▸ hgoesOn (j + 1) (Nat.succ_lt_succ hj)) (hlater n ▸ hends)
        (moment i).cursor (keys ++ page pattern (moment i) db) (hanswered' 0 (Nat.zero_le n))
      refine ⟨names, ?_, fun name => ?_⟩
      · rw [run_keysScanned_succ hfirst, if_neg hcursor, hrun]
      · rw [hnames, List.mem_append, or_assoc]
        refine or_congr_right ⟨fun h => ?_, fun h => ?_⟩
        · rcases h with hpage | ⟨j, hj, hpage⟩
          · exact ⟨0, Nat.zero_le _, hpage⟩
          · exact ⟨j + 1, Nat.succ_le_succ hj, hlater j ▸ hpage⟩
        · obtain ⟨j, hj, hpage⟩ := h
          cases j with
          | zero => exact Or.inl hpage
          | succ j => exact Or.inr ⟨j, Nat.le_of_succ_le_succ hj, hlater j ▸ hpage⟩

/-- A scan that reports has come to its end. -/
theorem exists_end_of_keysScanned {scans i : ℕ} {db : Database V} {cursor : String}
    {keys names : List String} (h : (Programs.run client.serve moment fault i
      (keysScanned pattern scans cursor keys) db).2 = some (some names)) :
    ∃ n ≤ scans, (∀ j ≤ n, fault (i + j) = .none) ∧ (∀ j < n, (moment (i + j)).cursor ≠ "0") ∧
      (moment (i + n)).cursor = "0" := by
  induction scans generalizing i cursor keys with
  | zero =>
    have hanswered := answered_of_keysScanned h
    rw [run_keysScanned_zero hanswered] at h
    split at h
    · next hend =>
      refine ⟨0, le_rfl, fun j hj => ?_, fun j hj => absurd hj (Nat.not_lt_zero j), hend⟩
      rw [Nat.le_zero.mp hj]
      exact hanswered
    · cases h
  | succ scans ih =>
    have hanswered := answered_of_keysScanned h
    rw [run_keysScanned_succ hanswered] at h
    split at h
    · next hend =>
      refine ⟨0, Nat.zero_le _, fun j hj => ?_, fun j hj => absurd hj (Nat.not_lt_zero j), hend⟩
      rw [Nat.le_zero.mp hj]
      exact hanswered
    · next hgoesOn =>
      obtain ⟨n, hn, hrest, hcursors, hend⟩ := ih h
      have hlater : ∀ j, i + 1 + j = i + (j + 1) := fun j => by omega
      refine ⟨n + 1, Nat.succ_le_succ hn, fun j hj => ?_, fun j hj => ?_, hlater n ▸ hend⟩
      · cases j with
        | zero => exact hanswered
        | succ j => exact hlater j ▸ hrest j (Nat.le_of_succ_le_succ hj)
      · cases j with
        | zero => exact hgoesOn
        | succ j => exact hlater j ▸ hcursors j (Nat.lt_of_succ_lt_succ hj)

end Scan

namespace ServerCall

open RedisCacheRepository

variable {client : Client} {config : Config} {db : Database V} {e : ServerCall V}

theorem unreported_of_ne_keys (hop : ∀ pattern, e.op ≠ .keys pattern) (names : List String) :
    (e.run client config db).2 ≠ some (.keys names) := by
  obtain ⟨op, moment, fault, scans⟩ := e
  unfold run
  cases op with
  | keys pattern => exact absurd rfl (hop pattern)
  | sweep => exact fun h => by cases h
  | deleteByPattern pattern =>
    rw [callProgram, Programs.run_map_snd, Ne, Option.map_eq_some_iff]
    intro h
    obtain ⟨count, -, hcount⟩ := h
    cases count <;> cases hcount
  | _ =>
    rw [callProgram, Programs.run_map_snd, Ne, Option.map_eq_some_iff]
    intro h
    obtain ⟨a, -, ha⟩ := h
    cases ha

section Keys

variable {pattern : Option String} {moment : ℕ → Moment} {fault : ℕ → Fault} {scans : ℕ}

theorem keys_of_endsAt (client : Client) (config : Config) (db : Database V) {n : ℕ}
    (hn : n ≤ scans) (hends : EndsAt (⟨.keys pattern, moment, fault, scans⟩ : ServerCall V) n) :
    ∃ names, (run client config db ⟨.keys pattern, moment, fault, scans⟩).2 =
        some (.keys names) ∧
      ∀ name, name ∈ names ↔ ∃ j ≤ n, name ∈ page (pattern.getD "*") (moment j) db := by
  obtain ⟨names, hrun, hnames⟩ := run_keysScanned client (i := 0) hn db
    (fun j hj => (Nat.zero_add j).symm ▸ hends.answered j hj)
    (fun j hj => (Nat.zero_add j).symm ▸ hends.goesOn j hj)
    ((Nat.zero_add n).symm ▸ hends.ends) "0" []
  refine ⟨names, ?_, fun name => ?_⟩
  · rw [run, callProgram, Programs.run_map_snd, RedisCacheRepository.keys, hrun]
    rfl
  · simpa using hnames name

theorem endsAt_of_keys {names : List String}
    (h : (run client config db ⟨.keys pattern, moment, fault, scans⟩).2 = some (.keys names)) :
    ∃ n ≤ scans, EndsAt (⟨.keys pattern, moment, fault, scans⟩ : ServerCall V) n := by
  rw [run, callProgram, Programs.run_map_snd, Option.map_eq_some_iff] at h
  obtain ⟨found, hrun, hfound⟩ := h
  cases found with
  | none => cases hfound
  | some names' =>
    obtain ⟨n, hn, hanswered, hgoesOn, hends⟩ := exists_end_of_keysScanned hrun
    simp only [Nat.zero_add] at hanswered hgoesOn hends
    exact ⟨n, hn, hanswered, hgoesOn, hends⟩

theorem reported_iff (config : Config) :
    (∀ names, (run client config db ⟨.keys pattern, moment, fault, scans⟩).2 = some (.keys names) →
        ∀ name ∈ names, ¬ client.Foreign name) ↔
      Alone client db ⟨.keys pattern, moment, fault, scans⟩ := by
  constructor
  · intro hreported n hn hends i hi name hvisited hforeign hglob
    obtain ⟨names, hrun, hnames⟩ := keys_of_endsAt client config db hn hends
    by_contra hfind
    refine hreported names hrun name ((hnames name).mpr ⟨i, hi, mem_page.mpr ?_⟩) hforeign
    exact ⟨hvisited, hglob, Option.isSome_iff_ne_none.mpr hfind⟩
  · intro halone names hrun name hname hforeign
    obtain ⟨n, hn, hends⟩ := endsAt_of_keys hrun
    obtain ⟨names', hrun', hnames⟩ := keys_of_endsAt client config db hn hends
    obtain rfl : names = names' := Answer.keys.inj (Option.some.inj (hrun.symm.trans hrun'))
    obtain ⟨i, hi, hpage⟩ := (hnames name).mp hname
    obtain ⟨hvisited, hglob, hfind⟩ := mem_page.mp hpage
    exact Option.isSome_iff_ne_none.mp hfind (halone n hn hends i hi name hvisited hforeign hglob)

end Keys

/-- `FLUSHDB` takes everything, unless it is lost. -/
theorem unchanged_flush_iff (config : Config) {moment : ℕ → Moment} {fault : ℕ → Fault}
    {scans : ℕ} :
    (∀ name, client.Foreign name →
        (run client config db ⟨.flush, moment, fault, scans⟩).1 name = db name) ↔
      Alone client db ⟨.flush, moment, fault, scans⟩ := by
  have hafter : (run client config db ⟨.flush, moment, fault, scans⟩).1 =
      (Programs.attempt client.serve (fault 0) (moment 0) db (.keyed .flushdb)).1 := by
    rw [run, callProgram, Programs.run_map_fst]
    cases hfault : fault 0 <;>
      simp [keyed, flush, Program.embed, Programs.run, Programs.attempt, hfault, Client.serve,
        Client.send, Command.prefixed, Redis.exec]
  rw [hafter]
  by_cases hlost : fault 0 = .lost
  · refine iff_of_true (fun name _ => ?_) (Or.inl hlost)
    rw [hlost, Programs.attempt]
  · rw [Programs.attempt_fst_of_ne_lost hlost]
    constructor
    · exact fun h => Or.inr fun name hforeign => (h name hforeign).symm
    · exact fun h name hforeign => (h.resolve_left hlost name hforeign).symm

/-- The call is confined to the client's prefix if and only if there is nothing foreign that it
would empty the database of, or report. -/
theorem confined_iff (client : Client) (config : Config) (db : Database V) (e : ServerCall V) :
    e.Confined client config db ↔ e.Alone client db := by
  have hframe : e.op ≠ .flush → ∀ name, client.Foreign name →
      (e.run client config db).1 name = db name := fun hop name hforeign =>
    client.run_serve_frame hforeign (callProgram_onlyCalls config e.scans hop) e.moment e.fault 0 db
  have hsilent : (∀ pattern, e.op ≠ .keys pattern) → ∀ names,
      (e.run client config db).2 = some (.keys names) → ∀ name ∈ names, ¬ client.Foreign name :=
    fun hop names h => absurd h (unreported_of_ne_keys hop names)
  obtain ⟨op, moment, fault, scans⟩ := e
  cases op with
  | flush =>
    rw [← unchanged_flush_iff config]
    exact ⟨fun h => h.unchanged, fun h => ⟨h, hsilent fun _ hop => by cases hop⟩⟩
  | keys pattern =>
    rw [← reported_iff config]
    exact ⟨fun h => h.unreported, fun h => ⟨hframe fun hop => (by cases hop), h⟩⟩
  | _ =>
    refine iff_of_true ⟨hframe fun hop => ?_, hsilent fun _ hop => ?_⟩ trivial <;> cases hop

/-- A foreign key goes with the database, and is reported. -/
theorem not_confined_of_sessions :
    let db : Database ℕ := Redis.insert (fun _ => none) "sessions:1" ⟨.set ["x"], none⟩
    ¬ Confined ⟨"edgecache:"⟩ ⟨1, 60, by decide, by decide⟩ db
        ⟨.flush, fun _ => ⟨⟨1000, by decide⟩, [], "0", fun _ => "", 1⟩, fun _ => .none, 0⟩ ∧
      ¬ Confined ⟨"edgecache:"⟩ ⟨1, 60, by decide, by decide⟩ db
        ⟨.keys none, fun _ => ⟨⟨1000, by decide⟩, ["sessions:1"], "0", fun _ => "", 1⟩,
          fun _ => .none, 0⟩ := by
  intro db
  have hforeign : Client.Foreign ⟨"edgecache:"⟩ "sessions:1" := by
    intro key heq
    have hhead := congrArg (fun s => s.toList.head?) heq
    simp at hhead
  refine ⟨fun h => ?_, fun h => ?_⟩
  · cases h.unchanged "sessions:1" hforeign
  · exact h.unreported ["sessions:1"] (by decide +kernel) "sessions:1"
      (List.mem_singleton_self _) hforeign

end ServerCall

end EdgeCache
