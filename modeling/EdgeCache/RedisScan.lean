import EdgeCache.MemoryCache
import EdgeCache.RedisCache
import Mathlib.Data.List.Infix

/-!
The methods of `RedisCacheRepository` that walk the whole server: `deleteByPattern` and
`keys`, which scan, and `getStats`. `SCAN` walks all keys of the database in an order of
its own; the client prepends its prefix neither to the pattern nor takes it off the keys
it is answered. What the server answers beyond its data (where a scan goes next, its
report, its size) is part of the moment a command is executed in.
-/
namespace EdgeCache

open Programs (Program)

variable {V : Type}

/-! ### Patterns -/

/-- Redis compares bytes; a byte is written as the character of its number. In the ranges of
a class Redis compares what C makes of a `char`, which is this number for ASCII. -/
def redisBytes (s : String) : List Char := s.toUTF8.data.toList.map fun b => Char.ofNat b.toNat

inductive GlobToken where
  | star
  | any
  | oneOf (negated : Bool) (ranges : List (Char × Char))
  | literal (c : Char)

/-- The ranges of a class up to its closing bracket, and what follows it; a single
character is a range, and the ends of a range may be swapped. -/
def classRanges : List Char → List (Char × Char) × List Char
  | '\\' :: a :: rest =>
    let (ranges, rest) := classRanges rest
    ((a, a) :: ranges, rest)
  | ']' :: rest => ([], rest)
  | a :: '-' :: b :: rest =>
    let (ranges, rest) := classRanges rest
    ((if a ≤ b then (a, b) else (b, a)) :: ranges, rest)
  | a :: rest =>
    let (ranges, rest) := classRanges rest
    ((a, a) :: ranges, rest)
  | [] => ([], [])

/-- The tokens of a pattern; each takes at least one character of the `n` given. -/
def globTokens : ℕ → List Char → List GlobToken
  | n + 1, '*' :: rest => .star :: globTokens n rest
  | n + 1, '?' :: rest => .any :: globTokens n rest
  | n + 1, '[' :: '^' :: rest =>
    let (ranges, rest) := classRanges rest
    .oneOf true ranges :: globTokens n rest
  | n + 1, '[' :: rest =>
    let (ranges, rest) := classRanges rest
    .oneOf false ranges :: globTokens n rest
  | n + 1, '\\' :: c :: rest => .literal c :: globTokens n rest
  | n + 1, c :: rest => .literal c :: globTokens n rest
  | _, _ => []

def GlobToken.admits : GlobToken → Char → Bool
  | .oneOf negated ranges, c => (ranges.any fun (a, b) => a ≤ c && c ≤ b) != negated
  | .literal d, c => d == c
  | _, _ => true

def globMatches : List GlobToken → List Char → Bool
  | [], s => s.isEmpty
  | .star :: rest, s => s.tails.any (globMatches rest)
  | token :: rest, c :: s => token.admits c && globMatches rest s
  | _ :: _, [] => false

/-- The key matches the pattern as a whole. -/
def Redis.glob (pattern key : String) : Bool :=
  let p := redisBytes pattern
  globMatches (globTokens p.length p) (redisBytes key)

/-! ### The server -/

/-- Commands on given keys, and those that report on the server. -/
inductive ServerCommand (V : Type) where
  | keyed (c : Command V)
  | scan (cursor pattern : String)
  | info (section_ : String)
  | dbsize

inductive ServerReply (V : Type) where
  | keyed (r : Reply V)
  | page (cursor : String) (keys : List String)
  | text (info : String)
  | integer (n : ℕ)

/-- The time, the keys a `SCAN` visits and the cursor it then hands out, and what the
server reports on itself. -/
structure Moment where
  now : Time
  visited : List String
  cursor : String
  info : String → String
  dbsize : ℕ

/-- A `SCAN` answers those of the keys it visits that are there and match. -/
def Client.serve (client : Client) (m : Moment) (db : Database V) :
    ServerCommand V → Database V × Option (ServerReply V)
  | .keyed c =>
    let (db, r) := client.send m.now db c
    (db, r.map .keyed)
  | .scan _ pattern =>
    (db, some (.page m.cursor (m.visited.filter fun key =>
      Redis.glob pattern key && (Redis.find db m.now key).isSome)))
  | .info section_ => (db, some (.text (m.info section_)))
  | .dbsize => (db, some (.integer m.dbsize))

abbrev ServerProgram (V α : Type) := Program (ServerCommand V) (ServerReply V) Moment α

namespace RedisCacheRepository

/-! ### Scanning -/

/-- The loop of `deleteByPattern`, for at most `scans` turns after this one; without a
result when it would go on. -/
def deleteScanned (pattern : String) : ℕ → String → ℕ → ServerProgram V (Option ℕ)
  | scans, cursor, count =>
    .call (.scan cursor pattern) fun
      | some (.page cursor keys) =>
        let next : ℕ → ServerProgram V (Option ℕ) := fun count =>
          if cursor = "0" then .ret (some count)
          else match scans with
            | 0 => .ret none
            | scans + 1 => deleteScanned pattern scans cursor count
        if 0 < keys.length then
          .call (.keyed (.del keys)) fun
            | some (.keyed (.integer n)) => next (count + n)
            | _ => .ret (some count)
        else next count
      | _ => .ret (some count)

def deleteByPattern (scans : ℕ) (pattern : String) : ServerProgram V (Option ℕ) :=
  deleteScanned pattern scans "0" 0

/-- One turn of the loop; `next` is how it goes on from the cursor and the count. -/
def deleteTurn (pattern cursor : String) (count : ℕ)
    (next : String → ℕ → ServerProgram V (Option ℕ)) : ServerProgram V (Option ℕ) :=
  .call (.scan cursor pattern) fun
    | some (.page cursor keys) =>
      if 0 < keys.length then
        .call (.keyed (.del keys)) fun
          | some (.keyed (.integer n)) => next cursor (count + n)
          | _ => .ret (some count)
      else next cursor count
    | _ => .ret (some count)

theorem deleteScanned_zero (pattern cursor : String) (count : ℕ) :
    (deleteScanned pattern 0 cursor count : ServerProgram V _) =
      deleteTurn pattern cursor count fun cursor count =>
        if cursor = "0" then .ret (some count) else .ret none := by
  unfold deleteScanned
  rfl

theorem deleteScanned_succ (pattern : String) (scans : ℕ) (cursor : String) (count : ℕ) :
    (deleteScanned pattern (scans + 1) cursor count : ServerProgram V _) =
      deleteTurn pattern cursor count fun cursor count =>
        if cursor = "0" then .ret (some count)
        else deleteScanned pattern scans cursor count := by
  conv_lhs => unfold deleteScanned
  rfl

/-- The loop of `keys`; a failure makes it throw. -/
def keysScanned (pattern : String) :
    ℕ → String → List String → ServerProgram V (Option (List String))
  | scans, cursor, keys =>
    .call (.scan cursor pattern) fun
      | some (.page cursor batch) =>
        if cursor = "0" then .ret (some (keys ++ batch))
        else match scans with
          | 0 => .ret none
          | scans + 1 => keysScanned pattern scans cursor (keys ++ batch)
      | _ => .throw

/-- `pattern ?? '*'` -/
def keys (scans : ℕ) (pattern : Option String) : ServerProgram V (Option (List String)) :=
  keysScanned (pattern.getD "*") scans "0" []

/-! ### Statistics -/

def statsKey : String := "__edgecache:stats"

def digitsToNat (digits : List Char) : ℕ :=
  digits.foldl (fun n c => 10 * n + (c.toNat - '0'.toNat)) 0

/-- The first match of the field's name, a colon and at least one digit. -/
def infoValue (info field : String) : Option ℕ :=
  let name := (field ++ ":").toList
  info.toList.tails.findSome? fun rest =>
    let digits := (rest.drop name.length).takeWhile Char.isDigit
    if name.isPrefixOf rest && 0 < digits.length then some (digitsToNat digits) else none

def extractInfoValue (info field : String) : ℕ := (infoValue info field).getD 0

def megabytes (bytes : ℕ) : ℚ :=
  inHundredths (double (double (double (bytes / 1024) / 1024) * 100))

/-- What is reported when a command fails. -/
def noStats : MemoryCacheRepository.CacheStats := ⟨⟨0, 0, 0, 0, 0⟩, 0, 0, 0⟩

/-- A document stored under the statistics key can only be that of an entry, which has none
of the counters; they default to the server's own. -/
def getStats : ServerProgram V MemoryCacheRepository.CacheStats :=
  .call (.info "stats") fun
    | some (.text info) =>
      .call (.keyed (.get statsKey)) fun
        | some _ =>
          .call (.info "memory") fun
            | some (.text memInfo) =>
              .call .dbsize fun
                | some (.integer n) =>
                  let keyspaceHits := extractInfoValue info "keyspace_hits"
                  let keyspaceMisses := extractInfoValue info "keyspace_misses"
                  let total := keyspaceHits + keyspaceMisses
                  .ret {
                    stats := ⟨keyspaceHits, keyspaceMisses, 0, 0, 0⟩
                    hitRate := if total = 0 then 0
                      else inHundredths (MemoryCacheRepository.basisPoints keyspaceHits total)
                    totalEntries := n
                    memoryUsageMb := megabytes (extractInfoValue memInfo "used_memory")
                  }
                | _ => .ret noStats
            | _ => .ret noStats
        | none => .ret noStats
    | _ => .ret noStats

end RedisCacheRepository

end EdgeCache
