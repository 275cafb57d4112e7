import EdgeCache.Library.TextReplacement
import EdgeCache.Library.Wildcards
import EdgeCache.MemoryRefinement

/-!
What the patterns of the memory tier match. A pattern is meant as a glob, which the whole key
has to match. It is turned into a regular expression by replacing its wildcards; the expression
has no anchors, so that some part of the key is enough, and a dot stays a dot, which stands for
any character there. Expressions are matched against the code units of the key.
-/
namespace EdgeCache

open Wildcards (Term Matches Occurs)
open TextReplacement (substitute)

variable {V : Type}

/-! ### Regular expressions -/

/-- The code units of a string, which are what `.` and `?` stand for one of. -/
def charUnits (c : Char) : List ℕ :=
  if c.toNat < 0x10000 then [c.toNat]
  else [0xD800 + (c.toNat - 0x10000) / 0x400, 0xDC00 + (c.toNat - 0x10000) % 0x400]

def codeUnits (s : String) : List ℕ := s.toList.flatMap charUnits

/-- `\n`, `\r` and the separators of lines and paragraphs, which `.` does not stand for. -/
def isLineTerminator (unit : ℕ) : Bool :=
  unit = 0xA || unit = 0xD || unit = 0x2028 || unit = 0x2029

def isSyntaxCharacter (c : Char) : Bool :=
  c ∈ ['^', '$', '\\', '.', '*', '+', '?', '(', ')', '[', ']', '\x7b', '\x7d', '|']

/-- What a source stands for that has no syntax but `.` and `.*`; `none` for other sources. -/
def regExpTerms : List Char → Option (List (Term ℕ))
  | [] => some []
  | '.' :: '*' :: rest => (regExpTerms rest).map (.star :: ·)
  | '.' :: rest => (regExpTerms rest).map (.any :: ·)
  | c :: rest =>
    if isSyntaxCharacter c then none
    else (regExpTerms rest).map ((charUnits c).map .one ++ ·)

/-- `new RegExp(source).test(key)` searches the key for what such a source stands for. -/
def RegExp.Searches (regExp : RegExp) : Prop :=
  ∀ source terms, regExpTerms source.toList = some terms → ∃ test, regExp source = some test ∧
    ∀ key, test key = Wildcards.search (fun unit => !isLineTerminator unit) terms (codeUnits key)

/-! ### Globs -/

/-- Letters, digits and the punctuation of keys, and the two wildcards. -/
def isPatternCharacter (c : Char) : Bool :=
  ('a' ≤ c && c ≤ 'z') || ('A' ≤ c && c ≤ 'Z') || ('0' ≤ c && c ≤ '9') ||
    c ∈ [':', '.', '_', '-', '/', '*', '?']

def globTerm (c : Char) : List (Term ℕ) :=
  if c = '*' then [.star] else if c = '?' then [.any] else (charUnits c).map .one

/-- A pattern as a glob: `*` for any sequence, `?` for one character, others for themselves. -/
def globTerms (pattern : String) : List (Term ℕ) := pattern.toList.flatMap globTerm

/-- The whole key matches the pattern. -/
def Glob (pattern key : String) : Prop :=
  Matches (fun _ => true) (globTerms pattern) (codeUnits key)

instance (pattern key : String) : Decidable (Glob pattern key) :=
  inferInstanceAs (Decidable (Matches _ _ _))

/-- The pattern with its dots for wildcards. -/
def loosen (t : Term ℕ) : Term ℕ := if t = .one '.'.toNat then .any else t

/-- Some part of the key matches the pattern, its dots taken for any characters. -/
def LooseGlob (pattern key : String) : Prop :=
  Occurs (fun _ => true) ((globTerms pattern).map loosen) (codeUnits key)

instance (pattern key : String) : Decidable (LooseGlob pattern key) :=
  inferInstanceAs (Decidable (Occurs _ _ _))

theorem Glob.loose {pattern key : String} (h : Glob pattern key) : LooseGlob pattern key := by
  refine Matches.occurs (Matches.map (fun t part haccepts => ?_) h)
  unfold loosen
  split
  · next ht =>
    subst ht
    exact ⟨'.'.toNat, rfl, haccepts⟩
  · exact haccepts

/-! ### The expression a pattern becomes -/

/-- What becomes of a character of the pattern. -/
def sourceOf (c : Char) : List Char :=
  if c = '*' then ['.', '*'] else if c = '?' then ['.'] else [c]

theorem toList_globSource (pattern : String) :
    (globSource pattern).toList = pattern.toList.flatMap sourceOf := by
  have hstar : ("*" : String) = String.singleton '*' := rfl
  have hmark : ("?" : String) = String.singleton '?' := rfl
  rw [globSource, hstar, hmark, TextReplacement.toList_replace, TextReplacement.toList_replace]
  induction pattern.toList with
  | nil => rfl
  | cons c rest ih =>
    have hfirst : substitute '?' "." (if c = '*' then ".*".toList else [c]) = sourceOf c := by
      by_cases hstar : c = '*'
      · subst hstar
        rfl
      · by_cases hmark : c = '?' <;> simp [substitute, sourceOf, hstar, hmark]
    rw [List.flatMap_cons, ← ih, ← hfirst]
    exact TextReplacement.substitute_append _ _

theorem isPatternCharacter_cases {c : Char} (h : isPatternCharacter c = true) :
    c = '*' ∨ c = '?' ∨ c = '.' ∨ isSyntaxCharacter c = false ∧ charUnits c = [c.toNat] := by
  by_cases hspecial : isSyntaxCharacter c = true
  · simp only [isSyntaxCharacter, List.mem_cons, List.not_mem_nil, or_false,
      decide_eq_true_eq] at hspecial
    rcases hspecial with rfl | rfl | rfl | rfl | rfl | rfl | rfl | rfl | rfl | rfl | rfl | rfl |
      rfl | rfl <;> revert h <;> decide
  · refine Or.inr (Or.inr (Or.inr ⟨Bool.eq_false_iff.mpr hspecial, if_pos ?_⟩))
    have hbound : ∀ d : Char, c ≤ d → d.toNat < 0x10000 → c.toNat < 0x10000 :=
      fun d hd => lt_of_le_of_lt (UInt32.le_iff_toNat_le.mp hd)
    simp only [isPatternCharacter, Bool.or_eq_true, Bool.and_eq_true, decide_eq_true_eq,
      List.mem_cons, List.not_mem_nil, or_false] at h
    rcases h with ((⟨-, h⟩ | ⟨-, h⟩) | ⟨-, h⟩) | rfl | rfl | rfl | rfl | rfl | rfl | rfl
    · exact hbound 'z' h (by decide)
    · exact hbound 'Z' h (by decide)
    · exact hbound '9' h (by decide)
    all_goals decide

theorem regExpTerms_dot {rest : List Char} (h : rest.head? ≠ some '*') :
    regExpTerms ('.' :: rest) = (regExpTerms rest).map (.any :: ·) := by
  cases rest with
  | nil => rfl
  | cons c rest =>
    have hne : c ≠ '*' := fun hc => h (congrArg some hc)
    rw [regExpTerms]
    intro rest' heq
    exact hne (List.cons.inj heq).1

theorem regExpTerms_plain {c : Char} {rest : List Char} (hdot : c ≠ '.')
    (hspecial : isSyntaxCharacter c = false) :
    regExpTerms (c :: rest) = (regExpTerms rest).map ((charUnits c).map .one ++ ·) := by
  rw [regExpTerms, hspecial]
  · rfl
  · exact fun rest' heq _ => hdot heq
  · exact hdot

theorem head?_flatMap_sourceOf (pattern : List Char) :
    (pattern.flatMap sourceOf).head? ≠ some '*' := by
  cases pattern with
  | nil => exact (Option.some_ne_none _).symm
  | cons c rest =>
    rw [List.flatMap_cons, sourceOf]
    split
    · simp
    · split
      · simp
      · simpa

/-- The expression that a pattern becomes is the pattern with its dots for wildcards. -/
theorem regExpTerms_globSource {pattern : String}
    (hpattern : ∀ c ∈ pattern.toList, isPatternCharacter c = true) :
    regExpTerms (globSource pattern).toList = some ((globTerms pattern).map loosen) := by
  rw [toList_globSource, globTerms]
  generalize pattern.toList = characters at hpattern ⊢
  induction characters with
  | nil => rfl
  | cons c rest ih =>
    obtain ⟨hc, hrest⟩ := List.forall_mem_cons.mp hpattern
    have hih := ih hrest
    have hhead := head?_flatMap_sourceOf rest
    rw [List.flatMap_cons, List.flatMap_cons, List.map_append]
    rcases isPatternCharacter_cases hc with rfl | rfl | rfl | ⟨hspecial, hunits⟩
    · exact congrArg (Option.map (.star :: ·)) hih
    · exact (regExpTerms_dot hhead).trans (congrArg (Option.map (.any :: ·)) hih)
    · exact (regExpTerms_dot hhead).trans (congrArg (Option.map (.any :: ·)) hih)
    · have hne : ∀ d, isSyntaxCharacter d = true → c ≠ d := by
        intro d hd heq
        rw [← heq, hspecial] at hd
        cases hd
      have hsource : sourceOf c = [c] := by simp [sourceOf, hne '*' rfl, hne '?' rfl]
      have hterm : (globTerm c).map loosen = [.one c.toNat] := by
        have hdot : c.toNat ≠ '.'.toNat := fun heq => hne '.' rfl (Char.toNat_inj.mp heq)
        rw [globTerm, if_neg (hne '*' rfl), if_neg (hne '?' rfl), hunits]
        simp only [List.map_cons, List.map_nil, loosen, Term.one.injEq, if_neg hdot]
      rw [hsource, hterm, List.singleton_append, regExpTerms_plain (hne '.' rfl) hspecial, hih,
        hunits]
      rfl

/-! ### Deleting and listing -/

namespace MemoryCacheRepository

/-- No key that is stored has a line break. -/
def OneLine (s : MemoryCacheRepository V) : Prop :=
  ∀ key ∈ s.map.keys, ∀ unit ∈ codeUnits key, isLineTerminator unit = false

/-- Exactly the keys that match the pattern are deleted, and listed. -/
structure FollowsGlob (regExp : RegExp) (s : MemoryCacheRepository V) (pattern : String) :
    Prop where
  deleted : ∀ key entry, (s.deleteByPattern regExp pattern).1.entryAt key = some entry ↔
    s.entryAt key = some entry ∧ ¬ Glob pattern key
  listed : s.keys regExp (some pattern) = some (s.map.keys.filter fun key => Glob pattern key)

variable {regExp : RegExp} {s : MemoryCacheRepository V} {pattern : String} {config : Config}
  {v : MemoryView V}

theorem test_globSource (hregExp : regExp.Searches)
    (hpattern : ∀ c ∈ pattern.toList, isPatternCharacter c = true) :
    ∃ test, regExp (globSource pattern) = some test ∧
      ∀ key, (∀ unit ∈ codeUnits key, isLineTerminator unit = false) →
        test key = decide (LooseGlob pattern key) := by
  obtain ⟨test, htest, hsearch⟩ := hregExp _ _ (regExpTerms_globSource hpattern)
  refine ⟨test, htest, fun key hkey => ?_⟩
  rw [hsearch, Bool.eq_iff_iff, Wildcards.search_iff, decide_eq_true_eq]
  have hdot : ∀ unit ∈ codeUnits key, (!isLineTerminator unit) = true := by
    intro unit hunit
    rw [hkey unit hunit]
    rfl
  exact ⟨Wildcards.occurs_congr hdot,
    Wildcards.occurs_congr fun unit hunit => (hdot unit hunit).symm⟩

theorem keys_of_pattern (hregExp : regExp.Searches)
    (hpattern : ∀ c ∈ pattern.toList, isPatternCharacter c = true) (hkeys : s.OneLine) :
    s.keys regExp (some pattern) = some (s.map.keys.filter fun key => LooseGlob pattern key) := by
  by_cases hempty : pattern = ""
  · subst hempty
    have hall : ∀ key : String, LooseGlob "" key := fun key => ⟨[], [], codeUnits key, rfl, rfl⟩
    simp [keys, hall]
  · obtain ⟨test, htest, hloose⟩ := test_globSource hregExp hpattern
    simp only [keys, hempty, ↓reduceIte, htest, Option.map_some, Option.some.injEq]
    exact List.filter_congr fun key hkey => hloose key (hkeys key hkey)

theorem entryAt_deleteByPattern (hs : Shows config s v) (hregExp : regExp.Searches)
    (hpattern : ∀ c ∈ pattern.toList, isPatternCharacter c = true) (hkeys : s.OneLine)
    (key : String) (entry : CacheEntry V) :
    (s.deleteByPattern regExp pattern).1.entryAt key = some entry ↔
      s.entryAt key = some entry ∧ ¬ LooseGlob pattern key := by
  obtain ⟨test, htest, hloose⟩ := test_globSource hregExp hpattern
  rw [(hs.deleteByPattern regExp pattern).1.entryAt_eq, hs.entryAt_eq, MemoryView.deleteByPattern,
    htest, Option.elim_some, MemoryView.retain, Recency.lookup_retain, Option.filter_eq_some_iff]
  refine and_congr_right fun hentry => ?_
  have hkey : key ∈ s.map.keys := by
    rw [hs.mem_keys_iff_isSome, hentry]
    rfl
  rw [hloose key (hkeys key hkey), Bool.not_eq_true', decide_eq_false_iff_not]

/-- Patterns are followed as globs if and only if no stored key has a part that matches, dots
taken for any characters, without matching as a whole. -/
theorem followsGlob_iff (hregExp : regExp.Searches) (config : Config) (events : List (Event V))
    (pattern : String) (hpattern : ∀ c ∈ pattern.toList, isPatternCharacter c = true) :
    let s := reach regExp config events
    s.OneLine → (FollowsGlob regExp s pattern ↔
      ∀ key ∈ s.map.keys, LooseGlob pattern key → Glob pattern key) := by
  intro s hkeys
  obtain ⟨v, hs, -⟩ : ∃ v, Shows config s v ∧ True :=
    exists_shows_of_reach trivial (fun _ _ => trivial) events
  constructor
  · intro hfollows key hkey hloose
    have hlisted := hfollows.listed
    rw [keys_of_pattern hregExp hpattern hkeys, Option.some.injEq] at hlisted
    have hmem : key ∈ s.map.keys.filter fun key => LooseGlob pattern key :=
      List.mem_filter.mpr ⟨hkey, decide_eq_true hloose⟩
    rw [hlisted] at hmem
    exact of_decide_eq_true (List.mem_filter.mp hmem).2
  · intro hexact
    refine ⟨fun key entry => ?_, ?_⟩
    · rw [entryAt_deleteByPattern hs hregExp hpattern hkeys]
      refine and_congr_right fun hentry => not_congr ⟨hexact key ?_, Glob.loose⟩
      rw [hs.mem_keys_iff_isSome, ← hs.entryAt_eq, hentry]
      rfl
    · rw [keys_of_pattern hregExp hpattern hkeys, Option.some.injEq]
      exact List.filter_congr fun key hkey => decide_eq_decide.mpr ⟨hexact key hkey, Glob.loose⟩

end MemoryCacheRepository

/-- The sources that have no syntax but `.` and `.*`, and no others. -/
def RegExp.plain : RegExp := fun source =>
  (regExpTerms source.toList).map fun terms key =>
    Wildcards.search (fun unit => !isLineTerminator unit) terms (codeUnits key)

theorem RegExp.searches_plain : RegExp.plain.Searches := by
  intro source terms hterms
  exact ⟨_, congrArg (Option.map _) hterms, fun _ => rfl⟩

namespace MemoryCacheRepository

/-- A pattern of which no other key has a part. -/
theorem followsGlob_iff_user :
    FollowsGlob RegExp.plain (reach RegExp.plain ⟨2, 60, by decide, by decide⟩
      [⟨.set "user:1" 7 (.ofTtl 60), fun _ => ⟨1000, by decide⟩⟩,
        ⟨.set "post:1" 8 (.ofTtl 60), fun _ => ⟨1000, by decide⟩⟩] : MemoryCacheRepository ℕ)
      "user:*" :=
  (followsGlob_iff RegExp.searches_plain ⟨2, 60, by decide, by decide⟩
    [⟨.set "user:1" 7 (.ofTtl 60), fun _ => ⟨1000, by decide⟩⟩,
      ⟨.set "post:1" 8 (.ofTtl 60), fun _ => ⟨1000, by decide⟩⟩] "user:*"
    (List.all_eq_true.mp (by decide +kernel)) (by unfold OneLine; decide +kernel)).mpr
    (by decide +kernel)

/-- `xuser:1` is listed for `user:*`. -/
theorem not_followsGlob_of_part :
    ¬ ∀ (events : List (Event ℕ)) (pattern : String),
      (∀ c ∈ pattern.toList, isPatternCharacter c = true) →
        let s := reach RegExp.plain ⟨2, 60, by decide, by decide⟩ events
        s.OneLine → FollowsGlob RegExp.plain s pattern := by
  intro hall
  have hpattern : ∀ c ∈ "user:*".toList, isPatternCharacter c = true :=
    List.all_eq_true.mp (by decide +kernel)
  have hkeys : (reach RegExp.plain ⟨2, 60, by decide, by decide⟩
      [⟨.set "user:1" 7 (.ofTtl 60), fun _ => ⟨1000, by decide⟩⟩,
        ⟨.set "xuser:1" 8 (.ofTtl 60), fun _ => ⟨1000, by decide⟩⟩] :
      MemoryCacheRepository ℕ).OneLine := by
    unfold OneLine
    decide +kernel
  have hlisted := (hall _ "user:*" hpattern hkeys).listed
  rw [keys_of_pattern RegExp.searches_plain hpattern hkeys] at hlisted
  revert hlisted
  decide +kernel

end MemoryCacheRepository

end EdgeCache
