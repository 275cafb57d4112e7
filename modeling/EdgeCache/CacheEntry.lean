import EdgeCache.Time

/-!
`CacheEntry`, the options it is made from, and the JSON document it travels in. The
values are JSON values of an arbitrary type `V`, so nothing here depends on what a value
is, and parsing a document gives back the value that was written; dates and the ttl do
not all survive the trip, and the document keeps what is left of them.
-/
namespace EdgeCache

/-- The configuration values the cache reads; `loadConfig` lets only positive ones
through. -/
structure Config where
  cacheMaxMemoryEntries : ℕ
  cacheDefaultTtl : ℕ
  maxMemoryEntries_pos : 0 < cacheMaxMemoryEntries
  defaultTtl_pos : 0 < cacheDefaultTtl

abbrev Metadata := List (String × String)

structure CacheEntry (V : Type) where
  key : String
  value : V
  ttl : JsNumber
  createdAt : Date
  expiresAt : Date
  hitCount : ℕ
  tags : List String
  metadata : Metadata
  deriving DecidableEq

/-- What a caller puts into an entry and reads from it; the rest is bookkeeping. -/
structure Content (V : Type) where
  value : V
  tags : List String
  metadata : Metadata
  deriving DecidableEq

/-- `SetOptions`; a missing field is `none`, a missing `ifNotExists` is false. -/
structure SetOptions where
  ttl : Option JsNumber
  tags : Option (List String)
  metadata : Option Metadata
  ifNotExists : Bool
  deriving DecidableEq

namespace SetOptions

def ofTtl (seconds : ℕ) : SetOptions := ⟨some (.ofNat seconds), none, none, false⟩

def tagged (seconds : ℕ) (tags : List String) : SetOptions :=
  ⟨some (.ofNat seconds), some tags, none, false⟩

/-- `options?.ttl ?? this.defaultTtl` -/
def ttlOr (options : SetOptions) (defaultTtl : JsNumber) : JsNumber :=
  options.ttl.getD defaultTtl

def tagList (options : SetOptions) : List String := options.tags.getD []

def metadataList (options : SetOptions) : Metadata := options.metadata.getD []

def content {V : Type} (options : SetOptions) (value : V) : Content V :=
  ⟨value, options.tagList, options.metadataList⟩

end SetOptions

namespace CacheEntry

variable {V : Type}

def create (now : Time) (key : String) (value : V) (ttl : JsNumber) (tags : List String)
    (metadata : Metadata) : CacheEntry V where
  key := key
  value := value
  ttl := ttl
  createdAt := some now.val
  expiresAt := (ttl.after now).toDate
  hitCount := 0
  tags := tags
  metadata := metadata

def isExpired (entry : CacheEntry V) (now : Time) : Bool := entry.expiresAt.isBefore now

def remainingTtl (entry : CacheEntry V) (now : Time) : JsNumber :=
  entry.expiresAt.secondsFrom now

def registerHit (entry : CacheEntry V) : CacheEntry V :=
  { entry with hitCount := entry.hitCount + 1 }

def content (entry : CacheEntry V) : Content V := ⟨entry.value, entry.tags, entry.metadata⟩

@[simp] theorem registerHit_tags (entry : CacheEntry V) :
    entry.registerHit.tags = entry.tags := rfl

/-- An entry is expired exactly past its deadline, even when the deadline is too
far away to be a date: no clock reads that late. -/
theorem isExpired_create (start now : Time) (key : String) (value : V) (n : ℕ)
    (tags : List String) (metadata : Metadata) :
    (create start key value (.ofNat n) tags metadata).isExpired now = true ↔
      start.val + n * 1000 < now.val := by
  have hnow := now.property.2
  simp only [isExpired, create, JsNumber.toDate_after_ofNat]
  split
  · simp [Date.isBefore]
  · simp only [Date.isBefore, Bool.false_eq_true, false_iff]
    omega

/-- Expiry only depends on the date, and is never taken back. -/
theorem isExpired_mono (entry : CacheEntry V) {now later : Time} (hle : now ≤ later)
    (h : entry.isExpired now = true) : entry.isExpired later = true := by
  simp only [isExpired, Date.isBefore] at h ⊢
  have hle' : now.val ≤ later.val := hle
  cases hdate : entry.expiresAt with
  | none => simp [hdate] at h
  | some t =>
    simp only [hdate, decide_eq_true_eq] at h ⊢
    omega

/-- The seconds left, rounded down, never outlast the entry. -/
theorem remainingTtl_eq (entry : CacheEntry V) {now : Time} {t : ℤ}
    (hdate : entry.expiresAt = some t) (h : entry.isExpired now = false) :
    ∃ n : ℕ, entry.remainingTtl now = .ofNat n ∧ now.val + n * 1000 ≤ t := by
  simp only [isExpired, hdate, Date.isBefore, decide_eq_false_iff_not] at h
  refine ⟨((t - now.val) / 1000).toNat, by simp [remainingTtl, hdate, Date.secondsFrom], ?_⟩
  omega

end CacheEntry

/-- `JSON.stringify(entry.toJSON())`: the document an entry is stored as in Redis. -/
structure EntryJson (V : Type) where
  key : String
  value : V
  ttl : Option ℚ
  createdAt : DateJson
  expiresAt : DateJson
  hitCount : ℕ
  tags : List String
  metadata : Metadata
  deriving DecidableEq

namespace EntryJson

variable {V : Type}

/-- Numbers that are not finite are written as null. -/
def stringify (entry : CacheEntry V) : EntryJson V where
  key := entry.key
  value := entry.value
  ttl := match entry.ttl with
    | .finite q => some q
    | _ => none
  createdAt := entry.createdAt.toJson
  expiresAt := entry.expiresAt.toJson
  hitCount := entry.hitCount
  tags := entry.tags
  metadata := entry.metadata

/-- `CacheEntry.restore` of the parsed document, with its dates rebuilt. -/
def restore (json : EntryJson V) : CacheEntry V where
  key := json.key
  value := json.value
  ttl := match json.ttl with
    | some q => .finite q
    | none => .nan
  createdAt := .ofJson json.createdAt
  expiresAt := .ofJson json.expiresAt
  hitCount := json.hitCount
  tags := json.tags
  metadata := json.metadata

def content (json : EntryJson V) : Content V := ⟨json.value, json.tags, json.metadata⟩

end EntryJson

end EdgeCache
