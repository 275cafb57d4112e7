import EdgeCache.Json
import EdgeCache.Library.LetterCase

/-!
`CacheKey`: the keys of requests, made from method, URL and body, and the raw keys of the
cache's own interface. What the platform supplies is a parameter: the letter case of
characters beyond ASCII, the digest, and the parts of the URL parser that work on a host,
a path and a query once they have been cut out.
-/
namespace EdgeCache

open LetterCase (IgnoresCase)

inductive Thrown where
  | error (message : String)
  | typeError
  | validationError (message : String)
  | notFoundError (message : String)
  | upstreamError (message : String)
  deriving DecidableEq

def Thrown.statusCode : Thrown → ℕ
  | .error _ => 500
  | .typeError => 500
  | .validationError _ => 400
  | .notFoundError _ => 404
  | .upstreamError _ => 502

def isAscii (c : Char) : Bool := c.toNat < 128

/-- A control character or a space. -/
def isBlank (c : Char) : Bool := c.toNat ≤ 0x20

def isHexDigit (c : Char) : Bool := c.isDigit || ('a' ≤ c && c ≤ 'f')

/-- The parts of the engine and of Node that are left open. A host is looked up without
regard to the case of ASCII letters, and no blank is part of one; a change of case goes through
leading ASCII letter by letter. -/
structure Platform where
  toLowerCase : String → String
  /-- The hexadecimal digest. -/
  sha256 : String → String
  host : String → Option String
  pathname : String → String
  search : String → String
  /-- Whether a URL of another scheme than the web's is accepted. -/
  parsesOther : String → Bool
  toLowerCase_ascii : ∀ s : String, s.toList.all isAscii = true →
    toLowerCase s = String.ofList (s.toList.map Char.toLower)
  toLowerCase_append : ∀ a b : List Char, a.all isAscii = true →
    ∃ c, toLowerCase (String.ofList (a ++ b)) = String.ofList (a.map Char.toLower ++ c)
  length_sha256 : ∀ text, 12 ≤ (sha256 text).toList.length
  isHexDigit_sha256 : ∀ text, (sha256 text).toList.all isHexDigit = true
  host_toLower : ∀ s : List Char, s.all isAscii = true →
    host (String.ofList (s.map Char.toLower)) = host (String.ofList s)
  host_of_blank : ∀ s : List Char, s.any isBlank = true → host (String.ofList s) = none

/-- What the platform does with plain host names and paths in ASCII; the digest is that of
one object with one field. -/
def Platform.plain : Platform where
  toLowerCase := fun s => String.ofList (s.toList.map Char.toLower)
  sha256 := fun _ => "015abd7f5cc57a2dd94b7590f04ad8084273905ee33ec5cebeae62276a97f862"
  host := fun s => if s.toList.any isBlank then none
    else some (String.ofList (s.toList.map Char.toLower))
  pathname := fun s => if s = "" then "/" else s
  search := fun s => if s = "?" then "" else s
  parsesOther := fun _ => true
  toLowerCase_ascii := fun _ _ => rfl
  toLowerCase_append := fun a b _ =>
    ⟨b.map Char.toLower, by rw [String.toList_ofList, List.map_append]⟩
  length_sha256 := fun _ => by decide +kernel
  isHexDigit_sha256 := fun _ => by decide +kernel
  host_toLower := by
    intro s _
    simp only [String.toList_ofList]
    rw [IgnoresCase.any_toLower (by decide), IgnoresCase.map_toLower_toLower]
  host_of_blank := by
    intro s hblank
    rw [String.toList_ofList, if_pos hblank]

/-- The characters of which a request's method is made. -/
def isTokenChar (c : Char) : Bool := c.isAlphanum || c ∈ "!#$%&'*+-.^_`|~".toList

abbrev Method := {name : String // name.toList.all isTokenChar = true}

def Method.get : Method := ⟨"GET", by decide +kernel⟩

/-- `method.toUpperCase()`; a method is ASCII. -/
def Method.toUpperCase (method : Method) : String :=
  String.ofList (method.val.toList.map Char.toUpper)

def Json.isTruthy : Json → Bool
  | .null => false
  | .bool b => b
  | .number x _ => x != .nan && x != .finite 0
  | .string s => s != ""
  | _ => true

/-- A key is its value. -/
structure CacheKey where
  value : String
  deriving DecidableEq

namespace CacheKey

variable (platform : Platform)

/-- `url.toLowerCase().replace(/\/+$/, '')` -/
def normalizedUrl (url : String) : String :=
  String.ofList ((platform.toLowerCase url).toList.rdropWhile (· = '/'))

/-- The text that is hashed, of a body that has keys. -/
def bodyText (body : Option Json) : Option String :=
  match body with
  | none => none
  | some body => if body.isTruthy && body.keyCount.any (0 < ·) then some body.stringify else none

/-- `createHash('sha256').update(text).digest('hex').slice(0, 12)` -/
def hash (text : String) : String := String.ofList ((platform.sha256 text).toList.take 12)

def fromRequest (method : Method) (url : String) (body : Option Json) : CacheKey :=
  let base := method.toUpperCase ++ ":" ++ normalizedUrl platform url
  match bodyText body with
  | some text => ⟨base ++ ":" ++ hash platform text⟩
  | none => ⟨base⟩

def fromRaw (key : String) : Except Thrown CacheKey :=
  if trim key = "" then .error (.error "Cache key cannot be empty")
  else if 512 < utf16Length key then .error (.error "Cache key cannot exceed 512 characters")
  else .ok ⟨trim key⟩

theorem value_of_fromRaw {key : String} {cacheKey : CacheKey} (h : fromRaw key = .ok cacheKey) :
    cacheKey.value = trim key := by
  unfold fromRaw at h
  split at h
  · cases h
  · split at h
    · cases h
    · exact congrArg value (Except.ok.inj h).symm

end CacheKey

end EdgeCache
