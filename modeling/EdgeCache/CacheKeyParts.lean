import EdgeCache.CacheKey
import EdgeCache.Library.Separated

/-!
`CacheKey.fromParts`. A part goes into a key in small letters, with an underscore for each
unit that is not a letter, a digit, a dot, an underscore or a hyphen. The colon between the
parts is none of them, so a key says what its parts were.
-/
namespace EdgeCache

namespace CacheKey

variable (platform : Platform)

/-- `[a-z0-9._-]` -/
def isPartChar (c : Char) : Bool :=
  ('a' ≤ c && c ≤ 'z') || c.isDigit || c = '.' || c = '_' || c = '-'

/-- A character that is replaced is replaced unit by unit of UTF-16. -/
def replaceChar (c : Char) : List Char :=
  if isPartChar c then [c] else List.replicate (utf16Length (String.singleton c)) '_'

/-- `p.toLowerCase().replace(/[^a-z0-9._-]/g, '_')` -/
def sanitize (p : String) : String :=
  String.ofList ((platform.toLowerCase p).toList.flatMap replaceChar)

def fromParts (parts : List String) : CacheKey :=
  ⟨String.intercalate ":" (parts.map (sanitize platform))⟩

def equals (key other : CacheKey) : Bool := key.value = other.value

/-- `key.split(':')` -/
def split (key : String) : List String := (key.toList.splitOn ':').map String.ofList

variable {platform}

theorem isPartChar_of_mem_replaceChar {c d : Char} (h : d ∈ replaceChar c) :
    isPartChar d = true := by
  unfold replaceChar at h
  split at h
  · next hpart => rwa [List.mem_singleton.mp h]
  · rw [List.eq_of_mem_replicate h]
    decide

theorem isPartChar_of_mem_sanitize {p : String} {c : Char}
    (h : c ∈ (sanitize platform p).toList) : isPartChar c = true := by
  rw [sanitize, String.toList_ofList] at h
  obtain ⟨d, -, hc⟩ := List.mem_flatMap.mp h
  exact isPartChar_of_mem_replaceChar hc

theorem colon_notMem_sanitize (p : String) : ':' ∉ (sanitize platform p).toList := by
  intro h
  have hcolon := isPartChar_of_mem_sanitize h
  revert hcolon
  decide

theorem isAscii_of_isPartChar {c : Char} (h : isPartChar c = true) : isAscii c = true := by
  simp only [isPartChar, Bool.or_eq_true, Bool.and_eq_true, decide_eq_true_eq,
    Char.isDigit, ge_iff_le] at h
  rw [isAscii, decide_eq_true_eq]
  rcases h with (((⟨-, hz⟩ | ⟨-, hnine⟩) | rfl) | rfl) | rfl
  · have hle : c.toNat ≤ 'z'.toNat := hz
    have hz' : 'z'.toNat = 122 := rfl
    omega
  · have hle : c.toNat ≤ '9'.toNat := hnine
    have hnine' : '9'.toNat = 57 := rfl
    omega
  all_goals decide

theorem toLower_of_isPartChar {c : Char} (h : isPartChar c = true) : c.toLower = c := by
  rcases LetterCase.toLower_cases c with hsame | ⟨n, hn, rfl⟩
  · exact hsame
  · have hcapitals : ∀ n < 26, isPartChar (Char.ofNat (n + 65)) = false := by decide
    rw [hcapitals n hn] at h
    cases h

theorem sanitize_sanitize (p : String) :
    sanitize platform (sanitize platform p) = sanitize platform p := by
  have hpart : ∀ c ∈ (sanitize platform p).toList, isPartChar c = true :=
    fun c hc => isPartChar_of_mem_sanitize hc
  have hlower : platform.toLowerCase (sanitize platform p) = sanitize platform p := by
    rw [platform.toLowerCase_ascii _
      (List.all_eq_true.mpr fun c hc => isAscii_of_isPartChar (hpart c hc))]
    rw [List.map_congr_left fun c hc => toLower_of_isPartChar (hpart c hc), List.map_id',
      String.ofList_toList]
  have hkept : ∀ l : List Char, (∀ c ∈ l, isPartChar c = true) → l.flatMap replaceChar = l := by
    intro l
    induction l with
    | nil => exact fun _ => rfl
    | cons c rest ih =>
      intro hall
      rw [List.flatMap_cons, replaceChar, if_pos (hall c List.mem_cons_self),
        ih fun d hd => hall d (List.mem_cons_of_mem c hd)]
      rfl
  conv_lhs => rw [sanitize, hlower, hkept _ hpart, String.ofList_toList]

theorem split_fromParts {parts : List String} (h : parts ≠ []) :
    split (fromParts platform parts).value = parts.map (sanitize platform) := by
  rw [split, fromParts, String.toList_intercalate]
  have hcut : ([':'].intercalate ((parts.map (sanitize platform)).map String.toList)).splitOn ':' =
      (parts.map (sanitize platform)).map String.toList := by
    apply List.splitOn_intercalate
    · intro l hl
      simp only [List.map_map, List.mem_map, Function.comp_apply] at hl
      obtain ⟨p, -, rfl⟩ := hl
      exact colon_notMem_sanitize p
    · simpa using h
  have hcolon : (":" : String).toList = [':'] := rfl
  rw [hcolon, hcut, List.map_map]
  simp [Function.comp_def]

theorem fromParts_of_sanitize_eq {p q : List String}
    (h : p.map (sanitize platform) = q.map (sanitize platform)) :
    fromParts platform p = fromParts platform q := by
  rw [fromParts, fromParts, h]

/-- Two lists of parts make equal keys if and only if they have the same sanitized parts, and a
key that is split makes itself. -/
theorem fromParts_unambiguous (platform : Platform) {p q : List String} (hp : p ≠ [])
    (hq : q ≠ []) :
    ((fromParts platform p).equals (fromParts platform q) = true ↔ p.length = q.length ∧
      List.Forall₂ (fun a b => sanitize platform a = sanitize platform b) p q) ∧
    fromParts platform (split (fromParts platform p).value) = fromParts platform p := by
  have hforall : List.Forall₂ (fun a b => sanitize platform a = sanitize platform b) p q ↔
      p.map (sanitize platform) = q.map (sanitize platform) := by
    rw [← List.forall₂_eq_eq_eq, List.forall₂_map_left_iff, List.forall₂_map_right_iff]
  constructor
  · rw [hforall, equals, decide_eq_true_eq]
    constructor
    · intro h
      have hparts : p.map (sanitize platform) = q.map (sanitize platform) := by
        rw [← split_fromParts hp, ← split_fromParts hq, h]
      refine ⟨?_, hparts⟩
      simpa using congrArg List.length hparts
    · exact fun h => congrArg value (fromParts_of_sanitize_eq h.2)
  · apply fromParts_of_sanitize_eq
    rw [split_fromParts hp, List.map_map]
    exact List.map_congr_left fun part _ => sanitize_sanitize part

/-- A colon within a part does not become one between two parts. -/
theorem fromParts_unambiguous_colon :
    (fromParts .plain ["Users", "a:b"]).equals (fromParts .plain ["users", "a/b"]) = true ∧
      fromParts .plain (split (fromParts .plain ["Users", "a:b"]).value) =
        fromParts .plain ["Users", "a:b"] := by
  obtain ⟨hequal, hsplit⟩ := fromParts_unambiguous .plain
    (List.cons_ne_nil "Users" ["a:b"]) (List.cons_ne_nil "users" ["a/b"])
  refine ⟨hequal.mpr ⟨rfl, ?_⟩, hsplit⟩
  exact .cons (by decide +kernel) (.cons (by decide +kernel) .nil)

end CacheKey

end EdgeCache
