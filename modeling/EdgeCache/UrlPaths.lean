import EdgeCache.Url

/-!
The path and query that a URL asks its host for. A change of the case of letters changes
nothing else in them, and slashes after the URL become slashes at their end, unless what they
are put after would have been dropped: blanks around the URL, or a question mark with no query.
-/
namespace EdgeCache

open LetterCase (IgnoresCase)

/-- A text without the slashes at its end. -/
def stripSlashes (text : List Char) : List Char := text.rdropWhile fun c => decide (c = '/')

theorem stripSlashes_concat (text : List Char) : stripSlashes (text ++ ['/']) = stripSlashes text :=
  List.rdropWhile_concat_pos _ _ _ (by decide)

theorem stripSlashes_append_replicate (text : List Char) (n : ℕ) :
    stripSlashes (text ++ List.replicate n '/') = stripSlashes text := by
  induction n with
  | zero => rw [List.replicate_zero, List.append_nil]
  | succ n ih => rw [List.replicate_succ', ← List.append_assoc, stripSlashes_concat, ih]

theorem eq_stripSlashes_append (text : List Char) :
    ∃ n, text = stripSlashes text ++ List.replicate n '/' := by
  refine ⟨(text.rtakeWhile fun c => decide (c = '/')).length, ?_⟩
  have hslashes : text.rtakeWhile (fun c => decide (c = '/')) =
      List.replicate (text.rtakeWhile fun c => decide (c = '/')).length '/' :=
    List.eq_replicate_of_mem fun c hc =>
      of_decide_eq_true (List.mem_rtakeWhile_imp (p := fun c => decide (c = '/')) hc)
  rw [← hslashes, stripSlashes, List.rdropWhile_append_rtakeWhile]

theorem stripSlashes_append_congr (a : List Char) {b b' : List Char}
    (h : stripSlashes b = stripSlashes b') : stripSlashes (a ++ b) = stripSlashes (a ++ b') := by
  obtain ⟨n, hn⟩ := eq_stripSlashes_append b
  obtain ⟨n', hn'⟩ := eq_stripSlashes_append b'
  rw [hn, hn', ← List.append_assoc, ← List.append_assoc, stripSlashes_append_replicate,
    stripSlashes_append_replicate, h]

theorem stripSlashes_toLower (text : List Char) :
    stripSlashes (text.map Char.toLower) = (stripSlashes text).map Char.toLower :=
  IgnoresCase.rdropWhile_toLower (by decide) text

/-- A path up to the case of letters and slashes at its end. -/
def foldPath (path : String) : List Char := stripSlashes (path.toList.map Char.toLower)

/-- How `URL` writes paths and queries of the web. It encodes characters and resolves dots in a
path without regard to the case of letters in ASCII; and behind a text that it drops nothing of, a
slash more is a slash more at the end or, in a path, one that it puts there anyway. -/
structure Platform.KeepsPaths (platform : Platform) : Prop where
  pathname_toLower : ∀ s : List Char, s.all isAscii = true →
    (platform.pathname (String.ofList (s.map Char.toLower))).toList.map Char.toLower =
      (platform.pathname (String.ofList s)).toList.map Char.toLower
  pathname_slash : ∀ s : List Char, Url.cleaned s = s →
    stripSlashes (platform.pathname (String.ofList (s ++ ['/']))).toList =
      stripSlashes (platform.pathname (String.ofList s)).toList
  search_toLower : ∀ s : List Char, s.all isAscii = true →
    (platform.search (String.ofList (s.map Char.toLower))).toList.map Char.toLower =
      (platform.search (String.ofList s)).toList.map Char.toLower
  search_slash : ∀ s : List Char, s ≠ [] → Url.cleaned ('?' :: s) = '?' :: s →
    stripSlashes (platform.search (String.ofList ('?' :: s ++ ['/']))).toList =
      stripSlashes (platform.search (String.ofList ('?' :: s))).toList
  search_nil : platform.search "" = ""

theorem ofList_ne_empty {c : Char} {rest : List Char} : String.ofList (c :: rest) ≠ "" := by
  intro heq
  have hnil := congrArg String.toList heq
  rw [String.toList_ofList] at hnil
  cases hnil

theorem ofList_eq_question_iff {s : List Char} : String.ofList s = "?" ↔ s = ['?'] := by
  rw [← String.toList_inj, String.toList_ofList]
  rfl

theorem Platform.keepsPaths_plain : Platform.plain.KeepsPaths where
  pathname_toLower := by
    intro s _
    cases s with
    | nil => rfl
    | cons c rest =>
      simp only [Platform.plain, List.map_cons, ofList_ne_empty, ↓reduceIte, String.toList_ofList]
      exact IgnoresCase.map_toLower_toLower (c :: rest)
  pathname_slash := by
    intro s _
    cases s with
    | nil => rfl
    | cons c rest =>
      simp only [Platform.plain, List.cons_append, ofList_ne_empty, ↓reduceIte,
        String.toList_ofList]
      exact stripSlashes_concat (c :: rest)
  search_toLower := by
    intro s _
    have hquestion : s.map Char.toLower = ['?'] ↔ s = ['?'] := by
      constructor
      · intro h
        obtain ⟨c, rfl, hc⟩ := List.map_eq_singleton_iff.mp h
        rcases LetterCase.toLower_cases c with hsame | ⟨n, hn, rfl⟩
        · rw [← hsame, hc]
        · have hletter : ∀ n < 26, (Char.ofNat (n + 65)).toLower ≠ '?' := by decide
          exact absurd hc (hletter n hn)
      · rintro rfl
        rfl
    simp only [Platform.plain, ofList_eq_question_iff, hquestion]
    split
    · rfl
    · simp only [String.toList_ofList, IgnoresCase.map_toLower_toLower]
  search_slash := by
    intro s hs _
    have hshort : ¬ '?' :: s = ['?'] := fun h => hs (List.cons.inj h).2
    have hlong : ¬ '?' :: s ++ ['/'] = ['?'] := by
      intro h
      exact absurd (List.cons.inj h).2 (by simp)
    simp only [Platform.plain, ofList_eq_question_iff, hshort, hlong, ↓reduceIte,
      String.toList_ofList]
    exact stripSlashes_concat ('?' :: s)
  search_nil := rfl

namespace Url

/-- The path and query made of what follows the authority. -/
def pathOf (platform : Platform) (tail : List Char) : String :=
  platform.pathname (String.ofList (tail.takeWhile fun c => c != '?' && c != '#')) ++
    platform.search (String.ofList
      ((tail.dropWhile fun c => c != '?' && c != '#').takeWhile (· != '#')))

theorem path_of_parse {platform : Platform} {text : String} {url : Url}
    (h : parse platform text = .web url) : ∃ scheme rest,
      splitScheme (cleaned text.toList) = some (scheme, rest) ∧ authority rest ≠ [] ∧
        url.pathname ++ url.search = pathOf platform (afterAuthority rest) := by
  unfold parse at h
  split at h
  · cases h
  · next scheme rest hsplit =>
    split at h
    · split at h
      · cases h
      · next hostname port hsite =>
        obtain rfl := ParsedUrl.web.inj h
        exact ⟨scheme, rest, hsplit, authority_ne_nil hsite, rfl⟩
    · split at h <;> cases h

theorem afterAuthority_toLower (rest : List Char) :
    afterAuthority (rest.map Char.toLower) = (afterAuthority rest).map Char.toLower := by
  unfold afterAuthority
  rw [IgnoresCase.dropWhile_toLower (by decide), IgnoresCase.dropWhile_toLower (by decide)]

theorem afterAuthority_append_slashes {rest : List Char} (hne : authority rest ≠ []) (n : ℕ) :
    afterAuthority (rest ++ List.replicate n '/') =
      afterAuthority rest ++ List.replicate n '/' := by
  have hskip : rest.dropWhile isSlash ≠ [] := by
    intro hnil
    apply hne
    unfold authority
    rw [hnil]
    rfl
  have hslashes : (List.replicate n '/').dropWhile (fun c => !endsAuthority c) =
      List.replicate n '/' := by
    cases n with
    | zero => rfl
    | succ n => exact List.dropWhile_cons_of_neg (by decide)
  unfold afterAuthority
  rw [List.dropWhile_append, if_neg (by simpa [List.isEmpty_iff] using hskip),
    List.dropWhile_append, hslashes]
  split
  · next hempty => rw [List.isEmpty_iff.mp hempty, List.nil_append]
  · rfl

theorem cleaned_concat_slashes {d : Char} (hd : isBlank d = false) (text : List Char) (n : ℕ) :
    cleaned (text ++ [d] ++ List.replicate n '/') =
      cleaned (text ++ [d]) ++ List.replicate n '/' := by
  have hlast : (List.replicate n '/').rdropWhile isBlank = List.replicate n '/' := by
    refine List.rdropWhile_eq_self_iff.mpr fun hne => ?_
    rw [List.getLast_replicate, isBlank_slash]
    exact Bool.false_ne_true
  have hslashes : (List.replicate n '/').filter (fun c => !isTabOrNewline c) =
      List.replicate n '/' := by
    refine List.filter_eq_self.mpr fun c hc => ?_
    rw [List.eq_of_mem_replicate hc]
    decide
  rw [List.append_assoc, List.singleton_append, cleaned_append_cons hd, cleaned_append_cons hd,
    hlast, hslashes, List.rdropWhile_nil, List.filter_nil, List.append_assoc]
  rfl

/-- Neither a blank at the end, which would be dropped, nor a question mark. -/
def endsPlainly (text : List Char) : Bool := text.getLast?.all fun c => !isBlank c && c != '?'

theorem endsPlainly_append_slashes {text : List Char} (h : endsPlainly text = true) (n : ℕ) :
    endsPlainly (text ++ List.replicate n '/') = true := by
  cases n with
  | zero => simpa using h
  | succ n =>
    rw [List.replicate_succ', ← List.append_assoc, endsPlainly, List.getLast?_concat]
    decide

/-- Nothing is dropped of the text, nor of what follows when slashes are put after it. -/
structure Tidy (text : List Char) : Prop where
  noTabs : ∀ c ∈ text, isTabOrNewline c = false
  head : ∀ c ∈ text.head?, isBlank c = false
  plain : endsPlainly text = true

theorem Tidy.cleaned_eq {text : List Char} (h : Tidy text) : cleaned text = text := by
  have hhead : text.dropWhile isBlank = text := by
    cases text with
    | nil => rfl
    | cons c rest =>
      have hc : isBlank c = false := h.head c rfl
      exact List.dropWhile_cons_of_neg (by rw [hc]; exact Bool.false_ne_true)
  have hlast : text.rdropWhile isBlank = text := by
    refine List.rdropWhile_eq_self_iff.mpr fun hne => ?_
    have hplain := h.plain
    rw [endsPlainly, List.getLast?_eq_some_getLast hne, Option.all_some, Bool.and_eq_true,
      Bool.not_eq_true'] at hplain
    rw [hplain.1]
    exact Bool.false_ne_true
  rw [cleaned, hhead, hlast]
  refine List.filter_eq_self.mpr fun c hc => ?_
  rw [h.noTabs c hc]
  rfl

theorem Tidy.append_slashes {text : List Char} (h : Tidy text) (n : ℕ) :
    Tidy (text ++ List.replicate n '/') where
  noTabs := by
    intro c hc
    rcases List.mem_append.mp hc with hin | hslash
    · exact h.noTabs c hin
    · rw [List.eq_of_mem_replicate hslash]
      rfl
  head := by
    intro c hc
    cases text with
    | nil =>
      rw [List.eq_of_mem_replicate (List.mem_of_mem_head? hc)]
      rfl
    | cons d rest => exact h.head c hc
  plain := endsPlainly_append_slashes h.plain n

theorem takeWhile_append_of_stops {p : Char → Bool} {l : List Char} (h : ¬ ∀ c ∈ l, p c = true)
    (more : List Char) : (l ++ more).takeWhile p = l.takeWhile p := by
  rw [List.takeWhile_append, if_neg]
  intro hlength
  exact h (List.takeWhile_eq_self_iff.mp ((List.takeWhile_prefix p).eq_of_length hlength))

section Paths

variable {platform : Platform} (hpaths : platform.KeepsPaths)

include hpaths

theorem foldPath_pathOf_toLower {tail : List Char} (hascii : tail.all isAscii = true) :
    foldPath (pathOf platform (tail.map Char.toLower)) = foldPath (pathOf platform tail) := by
  have hpath : (tail.takeWhile fun c => c != '?' && c != '#').all isAscii = true :=
    List.all_eq_true.mpr fun c hc =>
      List.all_eq_true.mp hascii c ((List.takeWhile_prefix _).subset hc)
  have hquery : ((tail.dropWhile fun c => c != '?' && c != '#').takeWhile (· != '#')).all isAscii =
      true :=
    List.all_eq_true.mpr fun c hc => List.all_eq_true.mp hascii c
      ((List.dropWhile_suffix _).subset ((List.takeWhile_prefix _).subset hc))
  unfold foldPath pathOf
  rw [IgnoresCase.takeWhile_toLower (by decide), IgnoresCase.dropWhile_toLower (by decide),
    IgnoresCase.takeWhile_toLower (by decide)]
  simp only [String.toList_append, List.map_append]
  rw [hpaths.pathname_toLower _ hpath, hpaths.search_toLower _ hquery]

/-- A slash after the URL is one at the end of its path or query, or of its fragment. -/
theorem stripSlashes_pathOf_concat {tail : List Char} (htidy : Tidy tail) :
    stripSlashes (pathOf platform (tail ++ ['/'])).toList =
      stripSlashes (pathOf platform tail).toList := by
  unfold pathOf
  simp only [String.toList_append]
  by_cases hplain : ∀ c ∈ tail, (c != '?' && c != '#') = true
  · rw [List.takeWhile_append_of_pos hplain, List.dropWhile_append_of_pos hplain]
    have hslash : (['/'] : List Char).takeWhile (fun c => c != '?' && c != '#') = ['/'] := rfl
    have hnone : (['/'] : List Char).dropWhile (fun c => c != '?' && c != '#') = [] := rfl
    rw [hslash, hnone, List.takeWhile_eq_self_iff.mpr hplain, List.dropWhile_eq_nil_iff.mpr hplain]
    simp only [List.takeWhile_nil, String.ofList_nil, hpaths.search_nil, String.toList_empty,
      List.append_nil]
    exact hpaths.pathname_slash tail htidy.cleaned_eq
  · have hrest : tail.dropWhile (fun c => c != '?' && c != '#') ≠ [] :=
      fun hnil => hplain (List.dropWhile_eq_nil_iff.mp hnil)
    have hdrop : (tail ++ ['/']).dropWhile (fun c => c != '?' && c != '#') =
        (tail.dropWhile fun c => c != '?' && c != '#') ++ ['/'] := by
      rw [List.dropWhile_append, if_neg (by simpa [List.isEmpty_iff] using hrest)]
    rw [takeWhile_append_of_stops hplain, hdrop]
    apply stripSlashes_append_congr
    have hstop := List.head?_dropWhile_not (fun c => c != '?' && c != '#') tail
    have hsuffix : tail.dropWhile (fun c => c != '?' && c != '#') <:+ tail :=
      List.dropWhile_suffix _
    obtain ⟨c, rest, hcut⟩ := List.exists_cons_of_ne_nil hrest
    rw [hcut] at hstop hsuffix ⊢
    by_cases hquestion : c = '?'
    · subst hquestion
      by_cases hquery : ∀ c ∈ rest, (c != '#') = true
      · obtain ⟨before, rfl⟩ := hsuffix
        have hplain : endsPlainly ('?' :: rest) = true := by
          have hend := htidy.plain
          rwa [endsPlainly, List.getLast?_append, List.getLast?_cons, Option.some_or,
            ← List.getLast?_cons] at hend
        have hne : rest ≠ [] := by
          rintro rfl
          revert hplain
          decide
        have hcut' : Tidy ('?' :: rest) :=
          ⟨fun c hc => htidy.noTabs c (List.mem_append_right before hc),
            fun c hc => by rw [← Option.some.inj hc]; rfl, hplain⟩
        have hwhole : ∀ c ∈ '?' :: rest, (c != '#') = true := by
          simpa using hquery
        rw [List.takeWhile_append_of_pos hwhole, List.takeWhile_eq_self_iff.mpr hwhole]
        exact hpaths.search_slash rest hne hcut'.cleaned_eq
      · have hfirst : ('?' != '#') = true := by decide
        rw [List.cons_append, List.takeWhile_cons_of_pos (p := (· != '#')) hfirst,
          List.takeWhile_cons_of_pos (p := (· != '#')) hfirst, takeWhile_append_of_stops hquery]
    · obtain rfl : c = '#' := by
        simpa [hquestion] using hstop
      rfl

theorem foldPath_pathOf_append {tail : List Char} (htidy : Tidy tail) (n : ℕ) :
    foldPath (pathOf platform (tail ++ List.replicate n '/')) = foldPath (pathOf platform tail) := by
  have hstrip : stripSlashes (pathOf platform (tail ++ List.replicate n '/')).toList =
      stripSlashes (pathOf platform tail).toList := by
    induction n with
    | zero => rw [List.replicate_zero, List.append_nil]
    | succ n ih =>
      rw [List.replicate_succ', ← List.append_assoc,
        stripSlashes_pathOf_concat hpaths (htidy.append_slashes n), ih]
  rw [foldPath, foldPath, stripSlashes_toLower, stripSlashes_toLower, hstrip]

end Paths

/-! ### Slashes after a URL -/

/-- The path and query that the text of a URL of the web asks for. -/
def requested (platform : Platform) (text : List Char) : Option String :=
  (splitScheme (cleaned text)).bind fun (_, rest) =>
    if authority rest = [] then none else some (pathOf platform (afterAuthority rest))

theorem requested_eq_some_iff {platform : Platform} {text : List Char} {path : String} :
    requested platform text = some path ↔ ∃ scheme rest,
      splitScheme (cleaned text) = some (scheme, rest) ∧ authority rest ≠ [] ∧
        pathOf platform (afterAuthority rest) = path := by
  unfold requested
  constructor
  · intro h
    obtain ⟨⟨scheme, rest⟩, hsplit, hpath⟩ := Option.bind_eq_some_iff.mp h
    obtain ⟨hne, hpath⟩ := Option.ite_none_left_eq_some.mp hpath
    exact ⟨scheme, rest, hsplit, hne, Option.some.inj hpath⟩
  · rintro ⟨scheme, rest, hsplit, hne, rfl⟩
    simp only [hsplit, Option.bind_some, hne, ↓reduceIte]

theorem requested_of_parse {platform : Platform} {text : String} {url : Url}
    (h : parse platform text = .web url) :
    requested platform text.toList = some (url.pathname ++ url.search) := by
  obtain ⟨scheme, rest, hsplit, hne, hpath⟩ := path_of_parse h
  exact requested_eq_some_iff.mpr ⟨scheme, rest, hsplit, hne, hpath.symm⟩

/-- A text at whose end nothing is dropped asks for a path and query of which nothing is dropped. -/
theorem tidy_afterAuthority {text scheme rest : List Char} (hend : endsPlainly text = true)
    (hsplit : splitScheme (cleaned text) = some (scheme, rest)) : Tidy (afterAuthority rest) := by
  have hsuffix : afterAuthority rest <:+ rest :=
    (List.dropWhile_suffix _).trans (List.dropWhile_suffix _)
  constructor
  · intro c hc
    have hin : c ∈ cleaned text := mem_of_splitScheme hsplit (hsuffix.subset hc)
    simpa using (List.mem_filter.mp hin).2
  · intro c hc
    have hends := List.head?_dropWhile_not (fun c => !endsAuthority c) (rest.dropWhile isSlash)
    have hc' : ((rest.dropWhile isSlash).dropWhile fun c => !endsAuthority c).head? = some c := hc
    rw [hc'] at hends
    exact isBlank_of_endsAuthority (by simpa using hends)
  · cases hlast : (afterAuthority rest).getLast? with
    | none =>
      rw [endsPlainly, hlast]
      rfl
    | some c =>
      obtain ⟨tail, htail⟩ := List.getLast?_eq_some_iff.mp hlast
      obtain ⟨skipped, hskipped⟩ := hsuffix
      obtain ⟨before, hcleaned, -⟩ := splitScheme_spec hsplit
      rcases List.eq_nil_or_concat' text with rfl | ⟨init, d, rfl⟩
      · cases hsplit
      rw [endsPlainly, List.getLast?_concat, Option.all_some, Bool.and_eq_true,
        Bool.not_eq_true'] at hend
      rw [← hskipped, htail, cleaned_append_cons hend.1] at hcleaned
      have hsame := congrArg List.getLast? hcleaned
      simp only [List.rdropWhile_nil, List.filter_nil, List.getLast?_append, List.getLast?_cons,
        Option.some_or, Option.getD_some] at hsame
      obtain rfl : d = c := by simpa using hsame
      rw [endsPlainly, hlast, Option.all_some, hend.1, hend.2]
      rfl

section Requested

variable {platform : Platform} (hpaths : platform.KeepsPaths) {text : List Char} {path : String}

include hpaths

theorem requested_toLower (hascii : text.all isAscii = true)
    (h : requested platform text = some path) :
    ∃ path', requested platform (text.map Char.toLower) = some path' ∧
      foldPath path' = foldPath path := by
  obtain ⟨scheme, rest, hsplit, hne, rfl⟩ := requested_eq_some_iff.mp h
  have hrest : (afterAuthority rest).all isAscii = true := by
    refine List.all_eq_true.mpr fun c hc => List.all_eq_true.mp hascii c ?_
    have hin : c ∈ rest := (List.dropWhile_suffix _).subset ((List.dropWhile_suffix _).subset hc)
    exact mem_of_mem_cleaned (mem_of_splitScheme hsplit hin)
  refine ⟨_, requested_eq_some_iff.mpr ⟨scheme, rest.map Char.toLower, ?_, ?_, rfl⟩, ?_⟩
  · rw [cleaned_toLower, splitScheme_toLower, hsplit]
    rfl
  · rw [authority_toLower]
    exact fun hnil => hne (List.map_eq_nil_iff.mp hnil)
  · rw [afterAuthority_toLower, foldPath_pathOf_toLower hpaths hrest]

theorem requested_append_slashes (hend : endsPlainly text = true)
    (h : requested platform text = some path) (n : ℕ) :
    ∃ path', requested platform (text ++ List.replicate n '/') = some path' ∧
      foldPath path' = foldPath path := by
  obtain ⟨scheme, rest, hsplit, hne, rfl⟩ := requested_eq_some_iff.mp h
  have htidy := tidy_afterAuthority hend hsplit
  rcases List.eq_nil_or_concat' text with rfl | ⟨init, d, rfl⟩
  · cases hsplit
  rw [endsPlainly, List.getLast?_concat, Option.all_some, Bool.and_eq_true, Bool.not_eq_true'] at hend
  obtain ⟨hblank, -⟩ := hend
  refine ⟨_, requested_eq_some_iff.mpr ⟨scheme, rest ++ List.replicate n '/', ?_, ?_, rfl⟩, ?_⟩
  · rw [cleaned_concat_slashes hblank, splitScheme_append hsplit]
  · rcases Nat.eq_zero_or_pos n with rfl | hn
    · rwa [List.replicate_zero, List.append_nil]
    · have hsame := authority_append_slashes hn List.all_nil hne
      rw [List.append_nil, List.nil_append, or_self] at hsame
      rwa [hsame]
  · rw [afterAuthority_append_slashes hne, foldPath_pathOf_append hpaths htidy]

/-- URLs in ASCII that are the same up to the case of letters and slashes at their end. -/
theorem foldPath_eq_of_stripSlashes {text text' : List Char} {path path' : String}
    (hascii : text.all isAscii = true) (hascii' : text'.all isAscii = true)
    (h : requested platform text = some path) (h' : requested platform text' = some path')
    (hsame : stripSlashes (text.map Char.toLower) = stripSlashes (text'.map Char.toLower))
    (hend : endsPlainly (stripSlashes (text.map Char.toLower)) = true) :
    foldPath path = foldPath path' := by
  obtain ⟨lower, hlower, hfold⟩ := requested_toLower hpaths hascii h
  obtain ⟨lower', hlower', hfold'⟩ := requested_toLower hpaths hascii' h'
  obtain ⟨n, hn⟩ := eq_stripSlashes_append (text.map Char.toLower)
  obtain ⟨n', hn'⟩ := eq_stripSlashes_append (text'.map Char.toLower)
  rw [← hsame] at hn'
  have hmore : ∀ {text text' : List Char} {path path' : String} {n n' : ℕ},
      requested platform text = some path → requested platform text' = some path' →
      endsPlainly text = true → n ≤ n' → text' = text ++ List.replicate (n' - n) '/' →
      foldPath path = foldPath path' := by
    intro text text' path path' n n' hpath hpath' hplain hle htext
    obtain ⟨longer, hlonger, hsame⟩ := requested_append_slashes hpaths hplain hpath (n' - n)
    rw [← htext, hpath'] at hlonger
    rw [Option.some.inj hlonger, hsame]
  have hsplit : ∀ {m k : ℕ}, m ≤ k → stripSlashes (text.map Char.toLower) ++
      List.replicate k '/' = stripSlashes (text.map Char.toLower) ++ List.replicate m '/' ++
        List.replicate (k - m) '/' := by
    intro m k hle
    rw [List.append_assoc, List.replicate_append_replicate, Nat.add_sub_cancel' hle]
  rw [← hfold, ← hfold']
  rcases Nat.le_total n n' with hle | hle
  · refine hmore hlower hlower' (hn ▸ endsPlainly_append_slashes hend n) hle ?_
    rw [hn', hsplit hle, ← hn]
  · refine (hmore hlower' hlower (hn' ▸ endsPlainly_append_slashes hend n') hle ?_).symm
    rw [hn, hsplit hle, ← hn']

end Requested

end Url

end EdgeCache
