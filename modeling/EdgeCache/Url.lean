import EdgeCache.CacheKey

/-!
The URLs of web pages, as Node's `URL` cuts them up: blanks around and line breaks within
are dropped, then come the scheme, the slashes, the authority with its host and port, and
what names the resource there. Two texts that differ in the case of letters, or in slashes
at their end, lead to the same host and port.
-/
namespace EdgeCache

open LetterCase (IgnoresCase toLower_cases)

structure Url where
  protocol : String
  hostname : String
  port : String
  pathname : String
  search : String
  deriving DecidableEq

/-- What `new URL(text)` gives: it throws, or it is a URL of the web or another one. -/
inductive ParsedUrl where
  | invalid
  | other
  | web (url : Url)
  deriving DecidableEq

namespace Url

/-! ### Cutting up the text -/

def isTabOrNewline (c : Char) : Bool := c = '\t' || c = '\n' || c = '\r'

/-- Blanks around the text are dropped, and tabs and line breaks wherever they are. -/
def cleaned (text : List Char) : List Char :=
  ((text.dropWhile isBlank).rdropWhile isBlank).filter fun c => !isTabOrNewline c

def isSchemeChar (c : Char) : Bool := c.isAlphanum || c = '+' || c = '-' || c = '.'

/-- The scheme, in lower case, and what follows its colon. -/
def splitScheme (text : List Char) : Option (List Char × List Char) :=
  match text.dropWhile (· != ':') with
  | [] => none
  | _ :: rest =>
    let scheme := text.takeWhile (· != ':')
    if (scheme.head?.any Char.isAlpha) && scheme.all isSchemeChar then
      some (scheme.map Char.toLower, rest)
    else none

/-- A backslash is a slash. -/
def isSlash (c : Char) : Bool := c = '/' || c = '\\'

def endsAuthority (c : Char) : Bool := isSlash c || c = '?' || c = '#'

def authority (rest : List Char) : List Char :=
  (rest.dropWhile isSlash).takeWhile fun c => !endsAuthority c

def afterAuthority (rest : List Char) : List Char :=
  (rest.dropWhile isSlash).dropWhile fun c => !endsAuthority c

/-- What stands before the last `@` names a user. -/
def hostAndPort (authority : List Char) : List Char := authority.rtakeWhile (· != '@')

/-- A colon inside brackets is part of the host. -/
def splitPort : Bool → List Char → List Char × Option (List Char)
  | _, [] => ([], none)
  | bracketed, c :: rest =>
    if c = ':' && !bracketed then ([], some rest)
    else
      let bracketed := if c = '[' then true else if c = ']' then false else bracketed
      let (host, port) := splitPort bracketed rest
      (c :: host, port)

def defaultPort (scheme : List Char) : ℕ := if scheme = "https".toList then 443 else 80

/-- The port of its scheme is not named. -/
def portText (scheme : List Char) (digits : List Char) : Option String :=
  let n := digitsValue 10 (leadingDigits 10 digits)
  if !digits.all Char.isDigit || 65535 < n then none
  else some (if digits = [] || n = defaultPort scheme then "" else toString n)

/-- The host and the port of an authority. -/
def site (platform : Platform) (scheme authority : List Char) : Option (String × String) :=
  match splitPort false (hostAndPort authority) with
  | ([], _) => none
  | (host, port) =>
    (platform.host (String.ofList host)).bind fun hostname =>
      (portText scheme (port.getD [])).map fun port => (hostname, port)

def isWeb (scheme : List Char) : Bool := scheme = "http".toList || scheme = "https".toList

/-- `new URL(text)` -/
def parse (platform : Platform) (text : String) : ParsedUrl :=
  match splitScheme (cleaned text.toList) with
  | none => .invalid
  | some (scheme, rest) =>
    if isWeb scheme then
      match site platform scheme (authority rest) with
      | none => .invalid
      | some (hostname, port) =>
        let tail := afterAuthority rest
        .web {
          protocol := String.ofList scheme ++ ":"
          hostname := hostname
          port := port
          pathname := platform.pathname
            (String.ofList (tail.takeWhile fun c => c != '?' && c != '#'))
          search := platform.search
            (String.ofList ((tail.dropWhile fun c => c != '?' && c != '#').takeWhile (· != '#')))
        }
    else if platform.parsesOther text then .other
    else .invalid

/-! ### Letter case -/

theorem cleaned_toLower (text : List Char) :
    cleaned (text.map Char.toLower) = (cleaned text).map Char.toLower := by
  have hblank : IgnoresCase isBlank := by decide
  unfold cleaned
  rw [hblank.dropWhile_toLower, hblank.rdropWhile_toLower, IgnoresCase.filter_toLower (by decide)]

theorem splitScheme_toLower (text : List Char) :
    splitScheme (text.map Char.toLower) =
      (splitScheme text).map fun (scheme, rest) => (scheme, rest.map Char.toLower) := by
  have hcolon : IgnoresCase (· != ':') := by decide
  have hletter : IgnoresCase Char.isAlpha := by decide
  have hscheme : IgnoresCase isSchemeChar := by decide
  have hfirst : ∀ o : Option Char, (o.map Char.toLower).any Char.isAlpha = o.any Char.isAlpha := by
    intro o
    cases o with
    | none => rfl
    | some c => exact congrFun hletter.comp c
  unfold splitScheme
  rw [hcolon.dropWhile_toLower, hcolon.takeWhile_toLower]
  cases text.dropWhile (· != ':') with
  | nil => rfl
  | cons c rest =>
    simp only [List.map_cons, List.head?_map, hfirst, hscheme.all_toLower,
      IgnoresCase.map_toLower_toLower]
    split <;> rfl

theorem authority_toLower (rest : List Char) :
    authority (rest.map Char.toLower) = (authority rest).map Char.toLower := by
  unfold authority
  rw [IgnoresCase.dropWhile_toLower (by decide), IgnoresCase.takeWhile_toLower (by decide)]

theorem hostAndPort_toLower (authority : List Char) :
    hostAndPort (authority.map Char.toLower) = (hostAndPort authority).map Char.toLower :=
  IgnoresCase.rtakeWhile_toLower (by decide) authority

theorem splitPort_toLower (bracketed : Bool) (l : List Char) :
    splitPort bracketed (l.map Char.toLower) =
      ((splitPort bracketed l).1.map Char.toLower,
        (splitPort bracketed l).2.map (List.map Char.toLower)) := by
  induction l generalizing bracketed with
  | nil => rfl
  | cons c rest ih =>
    have hcolon : IgnoresCase fun c => decide (c = ':') := by decide
    have hopen : IgnoresCase fun c => decide (c = '[') := by decide
    have hclose : IgnoresCase fun c => decide (c = ']') := by decide
    have hcolon' : c.toLower = ':' ↔ c = ':' := decide_eq_decide.mp (congrFun hcolon.comp c)
    have hopen' : c.toLower = '[' ↔ c = '[' := decide_eq_decide.mp (congrFun hopen.comp c)
    have hclose' : c.toLower = ']' ↔ c = ']' := decide_eq_decide.mp (congrFun hclose.comp c)
    simp only [List.map_cons, splitPort, hcolon', hopen', hclose', ih]
    split <;> rfl

theorem portText_toLower (scheme digits : List Char) :
    portText scheme (digits.map Char.toLower) = portText scheme digits := by
  have hdigit : IgnoresCase Char.isDigit := by decide
  unfold portText
  by_cases hall : digits.all Char.isDigit = true
  · have hsame : digits.map Char.toLower = digits.map id := by
      refine List.map_congr_left fun c hc => ?_
      rcases toLower_cases c with hsame | ⟨n, hn, rfl⟩
      · exact hsame
      · have hletter : ∀ n < 26, (Char.ofNat (n + 65)).isDigit = false := by decide
        exact absurd (List.all_eq_true.mp hall _ hc) (by rw [hletter n hn]; exact Bool.false_ne_true)
    rw [hsame, List.map_id]
  · simp only [hdigit.all_toLower, hall, Bool.not_false, Bool.true_or, ↓reduceIte]

theorem mem_of_mem_splitPort {bracketed : Bool} {l : List Char} {c : Char}
    (h : c ∈ (splitPort bracketed l).1) : c ∈ l := by
  induction l generalizing bracketed with
  | nil => exact h
  | cons d rest ih =>
    unfold splitPort at h
    split at h
    · exact absurd h List.not_mem_nil
    · rcases List.mem_cons.mp h with rfl | hin
      · exact List.mem_cons_self
      · exact List.mem_cons_of_mem d (ih hin)

theorem site_toLower (platform : Platform) (scheme : List Char) {authority : List Char}
    (hascii : authority.all isAscii = true) :
    site platform scheme (authority.map Char.toLower) = site platform scheme authority := by
  have hhost : ∀ c ∈ (splitPort false (hostAndPort authority)).1, isAscii c = true :=
    fun c hc => List.all_eq_true.mp hascii c
      ((List.rtakeWhile_suffix _ authority).subset (mem_of_mem_splitPort hc))
  unfold site
  rw [hostAndPort_toLower, splitPort_toLower]
  revert hhost
  cases splitPort false (hostAndPort authority) with
  | mk host port =>
    intro hhost
    have hlookup := platform.host_toLower host (List.all_eq_true.mpr hhost)
    cases host with
    | nil => rfl
    | cons c rest =>
      cases port with
      | none =>
        simp only [List.map_cons] at hlookup ⊢
        rw [hlookup]
        rfl
      | some digits =>
        simp only [List.map_cons, Option.map_some, Option.getD_some, portText_toLower] at hlookup ⊢
        rw [hlookup]

/-! ### Where a request goes -/

/-- The scheme of a URL of the web, and the host and port in its authority. -/
def origin (platform : Platform) (text : List Char) : Option (List Char × String × String) :=
  (splitScheme (cleaned text)).bind fun (scheme, rest) =>
    if isWeb scheme then (site platform scheme (authority rest)).map fun found => (scheme, found)
    else none

theorem origin_eq_some_iff {platform : Platform} {text : List Char}
    {o : List Char × String × String} : origin platform text = some o ↔
      ∃ rest, splitScheme (cleaned text) = some (o.1, rest) ∧ isWeb o.1 = true ∧
        site platform o.1 (authority rest) = some o.2 := by
  obtain ⟨scheme', found⟩ := o
  unfold origin
  constructor
  · intro h
    obtain ⟨⟨scheme, rest⟩, hsplit, hfound⟩ := Option.bind_eq_some_iff.mp h
    simp only at hfound
    split at hfound
    · next hweb =>
      obtain ⟨found', hsite, heq⟩ := Option.map_eq_some_iff.mp hfound
      obtain ⟨rfl, rfl⟩ := Prod.mk.inj heq
      exact ⟨rest, hsplit, hweb, hsite⟩
    · cases hfound
  · intro ⟨rest, hsplit, hweb, hsite⟩
    simp only at hsplit hweb hsite
    simp only [hsplit, Option.bind_some, hweb, ↓reduceIte, hsite, Option.map_some]

theorem authority_ne_nil {platform : Platform} {scheme rest : List Char} {found : String × String}
    (h : site platform scheme (authority rest) = some found) : authority rest ≠ [] := by
  intro hnil
  rw [hnil] at h
  cases h

theorem origin_of_parse {platform : Platform} {text : String} {url : Url}
    (h : parse platform text = .web url) : ∃ scheme : List Char,
      url.protocol = String.ofList scheme ++ ":" ∧
        origin platform text.toList = some (scheme, url.hostname, url.port) := by
  unfold parse at h
  split at h
  · cases h
  · next scheme rest hsplit =>
    split at h
    · next hweb =>
      split at h
      · cases h
      · next hostname port hsite =>
        obtain rfl := ParsedUrl.web.inj h
        exact ⟨scheme, rfl, origin_eq_some_iff.mpr ⟨rest, hsplit, hweb, hsite⟩⟩
    · split at h <;> cases h

theorem mem_of_mem_cleaned {text : List Char} {c : Char} (h : c ∈ cleaned text) : c ∈ text :=
  (List.dropWhile_suffix _).subset
    ((List.rdropWhile_prefix _ _).subset (List.mem_of_mem_filter h))

/-- What stands before the first colon makes the scheme, whatever follows it. -/
theorem splitScheme_spec {text scheme rest : List Char}
    (h : splitScheme text = some (scheme, rest)) : ∃ before : List Char,
      text = before ++ ':' :: rest ∧ before.all isSchemeChar = true ∧
        ∀ more, splitScheme (before ++ ':' :: more) = some (scheme, more) := by
  unfold splitScheme at h
  split at h
  · cases h
  · next c rest' hdrop =>
    simp only at h
    split at h
    · next hvalid =>
      obtain ⟨rfl, rfl⟩ := Prod.mk.inj (Option.some.inj h)
      obtain rfl : c = ':' := by
        have hstop := List.head?_dropWhile_not (· != ':') text
        rw [hdrop] at hstop
        simpa using hstop
      have hbefore : ∀ d ∈ text.takeWhile (· != ':'), (d != ':') = true :=
        fun d hd => List.mem_takeWhile_imp (p := (· != ':')) hd
      refine ⟨text.takeWhile (· != ':'), ?_, (Bool.and_eq_true_iff.mp hvalid).2, fun more => ?_⟩
      · rw [← hdrop, List.takeWhile_append_dropWhile]
      · have hhere : ¬ ((':' != ':') = true) := by decide
        unfold splitScheme
        rw [List.dropWhile_append_of_pos hbefore, List.takeWhile_append_of_pos hbefore,
          List.dropWhile_cons_of_neg (p := (· != ':')) hhere,
          List.takeWhile_cons_of_neg (p := (· != ':')) hhere, List.append_nil]
        simp only [hvalid, ↓reduceIte]
    · cases h

theorem mem_of_splitScheme {text scheme rest : List Char}
    (h : splitScheme text = some (scheme, rest)) {c : Char} (hc : c ∈ rest) : c ∈ text := by
  obtain ⟨before, rfl, -, -⟩ := splitScheme_spec h
  exact List.mem_append_right before (List.mem_cons_of_mem ':' hc)

theorem origin_toLower (platform : Platform) {text : List Char}
    (hascii : text.all isAscii = true) :
    origin platform (text.map Char.toLower) = origin platform text := by
  unfold origin
  rw [cleaned_toLower, splitScheme_toLower]
  cases hsplit : splitScheme (cleaned text) with
  | none => rfl
  | some parts =>
    obtain ⟨scheme, rest⟩ := parts
    have hauthority : (authority rest).all isAscii = true := by
      refine List.all_eq_true.mpr fun c hc => List.all_eq_true.mp hascii c ?_
      have hrest : c ∈ rest := (List.dropWhile_suffix _).subset ((List.takeWhile_prefix _).subset hc)
      exact mem_of_mem_cleaned (mem_of_splitScheme hsplit hrest)
    simp only [Option.map_some, Option.bind_some, authority_toLower,
      site_toLower platform scheme hauthority]

/-! ### Slashes at the end -/

theorem splitPort_append (bracketed : Bool) (l : List Char) {more : List Char}
    (hmore : ∀ c ∈ more, c ≠ ':' ∧ c ≠ '[' ∧ c ≠ ']') :
    splitPort bracketed (l ++ more) =
      match splitPort bracketed l with
      | (host, none) => (host ++ more, none)
      | (host, some port) => (host, some (port ++ more)) := by
  induction l generalizing bracketed with
  | nil =>
    have hnone : ∀ (bracketed : Bool) (more : List Char),
        (∀ c ∈ more, c ≠ ':' ∧ c ≠ '[' ∧ c ≠ ']') → splitPort bracketed more = (more, none) := by
      intro bracketed more
      induction more generalizing bracketed with
      | nil => exact fun _ => rfl
      | cons c rest ih =>
        intro hall
        obtain ⟨hcolon, hopen, hclose⟩ := hall c List.mem_cons_self
        simp only [splitPort, hcolon, hopen, hclose, decide_false, Bool.false_and,
          Bool.false_eq_true, ↓reduceIte,
          ih bracketed fun c hc => hall c (List.mem_cons_of_mem _ hc)]
    exact hnone bracketed more hmore
  | cons c rest ih =>
    simp only [List.cons_append, splitPort, ih]
    split
    · rfl
    · generalize splitPort _ rest = parts
      obtain ⟨host, _ | port⟩ := parts <;> rfl

theorem portText_append_blank (scheme digits : List Char) {more : List Char}
    (hblank : more.any isBlank = true) : portText scheme (digits ++ more) = none := by
  obtain ⟨c, hc, hcblank⟩ := List.any_eq_true.mp hblank
  have hdigit : c.isDigit = false := by
    refine Bool.eq_false_iff.mpr fun hd => ?_
    simp only [Char.isDigit, Bool.and_eq_true, decide_eq_true_eq] at hd
    have hlow : 48 ≤ c.toNat := hd.1
    have hhigh : c.toNat ≤ 0x20 := of_decide_eq_true hcblank
    omega
  have hall : (digits ++ more).all Char.isDigit = false := by
    refine Bool.eq_false_iff.mpr fun hall => ?_
    rw [List.all_eq_true.mp hall c (List.mem_append_right digits hc)] at hdigit
    cases hdigit
  simp [portText, hall]

theorem site_append_blank (platform : Platform) (scheme authority : List Char)
    {more : List Char} (hne : more ≠ []) (hblank : more.all isBlank = true) :
    site platform scheme (authority ++ more) = none := by
  have hany : more.any isBlank = true := by
    obtain ⟨c, rest, rfl⟩ := List.exists_cons_of_ne_nil hne
    exact List.any_eq_true.mpr ⟨c, List.mem_cons_self,
      List.all_eq_true.mp hblank c List.mem_cons_self⟩
  have hplain : ∀ d : Char, isBlank d = false → ∀ c ∈ more, c ≠ d := by
    intro d hd c hc heq
    rw [← heq, List.all_eq_true.mp hblank c hc] at hd
    cases hd
  have huser : hostAndPort (authority ++ more) = hostAndPort authority ++ more := by
    unfold hostAndPort List.rtakeWhile
    rw [List.reverse_append, List.takeWhile_append_of_pos, List.reverse_append, List.reverse_reverse]
    intro c hc
    exact bne_iff_ne.mpr (hplain '@' (by decide) c (List.mem_reverse.mp hc))
  unfold site
  rw [huser, splitPort_append false _ fun c hc =>
    ⟨hplain ':' (by decide) c hc, hplain '[' (by decide) c hc, hplain ']' (by decide) c hc⟩]
  generalize splitPort false (hostAndPort authority) = parts
  obtain ⟨host, _ | port⟩ := parts
  · have hhost : platform.host (String.ofList (host ++ more)) = none :=
      platform.host_of_blank _ (by rw [List.any_append, hany, Bool.or_true])
    simp only
    split
    · rfl
    · next host' port' _ heq =>
      obtain ⟨rfl, -⟩ := Prod.mk.inj heq
      rw [hhost]
      rfl
  · simp only
    split
    · rfl
    · next host' port' _ heq =>
      obtain ⟨-, rfl⟩ := Prod.mk.inj heq
      rw [Option.getD_some, portText_append_blank scheme port hany]
      cases platform.host (String.ofList host') <;> rfl

theorem isBlank_slash : isBlank '/' = false := by decide

theorem cleaned_append_slashes (text : List Char) {n : ℕ} (hn : 0 < n)
    (hne : cleaned text ≠ []) : ∃ more : List Char, more.all isBlank = true ∧
      cleaned (text ++ List.replicate n '/') = cleaned text ++ (more ++ List.replicate n '/') := by
  have hcore : text.dropWhile isBlank ≠ [] := by
    intro hnil
    apply hne
    unfold cleaned
    rw [hnil]
    rfl
  have hdrop : (text ++ List.replicate n '/').dropWhile isBlank =
      text.dropWhile isBlank ++ List.replicate n '/' := by
    rw [List.dropWhile_append, if_neg (by simpa [List.isEmpty_iff] using hcore)]
  have hlast : (text.dropWhile isBlank ++ List.replicate n '/').rdropWhile isBlank =
      text.dropWhile isBlank ++ List.replicate n '/' := by
    obtain ⟨m, rfl⟩ : ∃ m, n = m + 1 := ⟨n - 1, by omega⟩
    rw [List.replicate_succ', ← List.append_assoc, List.rdropWhile_concat_neg]
    rw [isBlank_slash]
    exact Bool.false_ne_true
  have hslashes : (List.replicate n '/').filter (fun c => !isTabOrNewline c) =
      List.replicate n '/' := by
    refine List.filter_eq_self.mpr fun c hc => ?_
    rw [List.eq_of_mem_replicate hc]
    decide
  refine ⟨((text.dropWhile isBlank).rtakeWhile isBlank).filter fun c => !isTabOrNewline c, ?_, ?_⟩
  · exact List.all_eq_true.mpr fun c hc => List.mem_rtakeWhile_imp (List.mem_of_mem_filter hc)
  · unfold cleaned
    rw [hdrop, hlast, List.filter_append, hslashes, ← List.append_assoc, ← List.filter_append,
      List.rdropWhile_append_rtakeWhile]

theorem splitScheme_append {text scheme rest : List Char}
    (h : splitScheme text = some (scheme, rest)) (more : List Char) :
    splitScheme (text ++ more) = some (scheme, rest ++ more) := by
  obtain ⟨before, rfl, -, hbefore⟩ := splitScheme_spec h
  rw [List.append_assoc, List.cons_append, hbefore]

theorem isBlank_of_endsAuthority {c : Char} (h : endsAuthority c = true) : isBlank c = false := by
  simp only [endsAuthority, isSlash, Bool.or_eq_true, decide_eq_true_eq] at h
  rcases h with ((rfl | rfl) | rfl) | rfl <;> decide

/-- The authority stays as it is, or is followed by blanks. -/
theorem authority_append_slashes {rest more : List Char} {n : ℕ} (hn : 0 < n)
    (hmore : more.all isBlank = true) (hne : authority rest ≠ []) :
    authority (rest ++ (more ++ List.replicate n '/')) = authority rest ∨
      authority (rest ++ (more ++ List.replicate n '/')) = authority rest ++ more := by
  have hskip : rest.dropWhile isSlash ≠ [] := by
    intro hnil
    apply hne
    unfold authority
    rw [hnil]
    rfl
  unfold authority
  rw [List.dropWhile_append, if_neg (by simpa [List.isEmpty_iff] using hskip)]
  generalize rest.dropWhile isSlash = after
  rw [List.takeWhile_append]
  split
  · next hall =>
    right
    have hwhole : after.takeWhile (fun c => !endsAuthority c) = after :=
      (List.takeWhile_prefix _).eq_of_length hall
    have hblank : ∀ c ∈ more, (!endsAuthority c) = true := by
      intro c hc
      rw [Bool.not_eq_true', Bool.eq_false_iff]
      intro hends
      have hfalse := isBlank_of_endsAuthority hends
      rw [List.all_eq_true.mp hmore c hc] at hfalse
      cases hfalse
    obtain ⟨m, rfl⟩ : ∃ m, n = m + 1 := ⟨n - 1, by omega⟩
    have hstop : (List.replicate (m + 1) '/').takeWhile (fun c => !endsAuthority c) = [] := by
      rw [List.replicate_succ, List.takeWhile_cons_of_neg]
      decide
    rw [List.takeWhile_append_of_pos hblank, hstop, List.append_nil, hwhole]
  · exact Or.inl rfl

/-! ### An authority in ASCII -/

/-- Whether everything up to the end of the host and the port is ASCII. -/
def authorityIsAscii (text : List Char) : Bool :=
  (splitScheme (cleaned text)).all fun (_, rest) => (authority rest).all isAscii

theorem isAscii_of_isBlank {c : Char} (h : isBlank c = true) : isAscii c = true := by
  have hblank : c.toNat ≤ 0x20 := of_decide_eq_true h
  exact decide_eq_true (by omega)

theorem isBlank_of_isTabOrNewline {c : Char} (h : isTabOrNewline c = true) :
    isBlank c = true := by
  simp only [isTabOrNewline, Bool.or_eq_true, decide_eq_true_eq] at h
  rcases h with (rfl | rfl) | rfl <;> decide

theorem isAscii_of_le {c d : Char} (h : c.val ≤ d.val) (hd : d.toNat < 128) :
    isAscii c = true := by
  have hle : c.toNat ≤ d.toNat := h
  exact decide_eq_true (by omega)

theorem isAscii_of_isSchemeChar {c : Char} (h : isSchemeChar c = true) : isAscii c = true := by
  simp only [isSchemeChar, Bool.or_eq_true, decide_eq_true_eq] at h
  rcases h with ((hname | rfl) | rfl) | rfl
  · have hkind : (c.isUpper || c.isLower || c.isDigit) = true := hname
    simp only [Bool.or_eq_true] at hkind
    rcases hkind with (hupper | hlower) | hdigit
    · exact isAscii_of_le (of_decide_eq_true hupper).2 (by decide : 'Z'.toNat < 128)
    · exact isAscii_of_le (of_decide_eq_true (Bool.and_eq_true_iff.mp hlower).2)
        (by decide : 'z'.toNat < 128)
    · exact isAscii_of_le (of_decide_eq_true (Bool.and_eq_true_iff.mp hdigit).2)
        (by decide : '9'.toNat < 128)
  all_goals decide

theorem isAscii_of_endsAuthority {c : Char} (h : endsAuthority c = true) : isAscii c = true := by
  simp only [endsAuthority, isSlash, Bool.or_eq_true, decide_eq_true_eq] at h
  rcases h with ((rfl | rfl) | rfl) | rfl <;> decide

theorem toLower_of_endsAuthority {c : Char} (h : endsAuthority c = true) : c.toLower = c := by
  simp only [endsAuthority, isSlash, Bool.or_eq_true, decide_eq_true_eq] at h
  rcases h with ((rfl | rfl) | rfl) | rfl <;> decide

theorem dropWhile_isBlank_append {d : Char} (hd : isBlank d = false) (a more : List Char) :
    (a ++ d :: more).dropWhile isBlank = a.dropWhile isBlank ++ d :: more := by
  have hkeep : ¬ isBlank d = true := by
    rw [hd]
    exact Bool.false_ne_true
  rw [List.dropWhile_append, List.dropWhile_cons_of_neg hkeep]
  split
  · next hempty =>
    rw [List.isEmpty_iff.mp hempty, List.nil_append]
  · rfl

theorem cleaned_append_cons {d : Char} (hd : isBlank d = false) (a more : List Char) :
    cleaned (a ++ d :: more) = (a.dropWhile isBlank).filter (fun c => !isTabOrNewline c) ++
      d :: (more.rdropWhile isBlank).filter fun c => !isTabOrNewline c := by
  have hfilter : (!isTabOrNewline d) = true := by
    rw [Bool.not_eq_true', Bool.eq_false_iff]
    intro htab
    rw [isBlank_of_isTabOrNewline htab] at hd
    cases hd
  have hend : (a.dropWhile isBlank ++ d :: more).rdropWhile isBlank =
      a.dropWhile isBlank ++ d :: more.rdropWhile isBlank := by
    unfold List.rdropWhile
    rw [List.reverse_append, List.reverse_cons, List.append_assoc, List.singleton_append,
      dropWhile_isBlank_append hd, List.reverse_append, List.reverse_cons, List.reverse_reverse,
      List.append_assoc, List.singleton_append]
  unfold cleaned
  rw [dropWhile_isBlank_append hd, hend, List.filter_append,
    List.filter_cons_of_pos (p := fun c => !isTabOrNewline c) hfilter]

theorem exists_of_cleaned {text before after : List Char} {d : Char}
    (h : cleaned text = before ++ d :: after) : ∃ a more, text = a ++ d :: more ∧
      (a.dropWhile isBlank).filter (fun c => !isTabOrNewline c) = before := by
  obtain ⟨init, last, hcut, hinit, hlast⟩ := List.filter_eq_append_iff.mp h
  obtain ⟨skipped, end_, rfl, hskipped, -, -⟩ := List.filter_eq_cons_iff.mp hlast
  obtain ⟨trail, htrail⟩ := List.rdropWhile_prefix isBlank (text.dropWhile isBlank)
  have hcore : text.dropWhile isBlank = (init ++ skipped) ++ d :: (end_ ++ trail) := by
    rw [← htrail, hcut, List.append_assoc, List.append_assoc, List.append_assoc,
      List.cons_append]
  refine ⟨text.takeWhile isBlank ++ (init ++ skipped), end_ ++ trail, ?_, ?_⟩
  · rw [List.append_assoc, ← hcore, List.takeWhile_append_dropWhile]
  · have hlead : ∀ c ∈ text.takeWhile isBlank, isBlank c = true :=
      fun c hc => List.mem_takeWhile_imp hc
    have hstart : (init ++ skipped).dropWhile isBlank = init ++ skipped := by
      have hstop := List.head?_dropWhile_not isBlank text
      rw [hcore] at hstop
      cases hmid : init ++ skipped with
      | nil => rfl
      | cons c rest =>
        rw [hmid] at hstop
        exact List.dropWhile_cons_of_neg (Bool.eq_false_iff.mp hstop)
    rw [List.dropWhile_append_of_pos hlead, hstart, List.filter_append,
      List.filter_eq_nil_iff.mpr hskipped, List.append_nil, hinit]

theorem authority_eq {slashes found more : List Char} {d : Char}
    (hslashes : ∀ c ∈ slashes, isSlash c = true) (hne : found ≠ [])
    (hfound : ∀ c ∈ found, (!endsAuthority c) = true) (hd : endsAuthority d = true) :
    authority (slashes ++ (found ++ d :: more)) = found := by
  obtain ⟨c, rest, rfl⟩ := List.exists_cons_of_ne_nil hne
  have hfirst : ¬ isSlash c = true := by
    intro hslash
    have hends := hfound c List.mem_cons_self
    simp [endsAuthority, hslash] at hends
  have hlast : ¬ (!endsAuthority d) = true := by simp [hd]
  unfold authority
  rw [List.dropWhile_append_of_pos hslashes, List.cons_append, List.dropWhile_cons_of_neg hfirst,
    ← List.cons_append, List.takeWhile_append_of_pos hfound,
    List.takeWhile_cons_of_neg (p := fun c => !endsAuthority c) hlast, List.append_nil]

theorem exists_of_authority (rest : List Char) : ∃ slashes : List Char,
    (∀ c ∈ slashes, isSlash c = true) ∧ (∀ c ∈ authority rest, (!endsAuthority c) = true) ∧
      (rest = slashes ++ authority rest ∨
        ∃ d after, endsAuthority d = true ∧ rest = slashes ++ (authority rest ++ d :: after)) := by
  refine ⟨rest.takeWhile isSlash, fun c hc => List.mem_takeWhile_imp hc,
    fun c hc => List.mem_takeWhile_imp (p := fun c => !endsAuthority c) hc, ?_⟩
  have hsplit : rest = rest.takeWhile isSlash ++ (authority rest ++ afterAuthority rest) := by
    unfold authority afterAuthority
    rw [List.takeWhile_append_dropWhile, List.takeWhile_append_dropWhile]
  cases hafter : afterAuthority rest with
  | nil =>
    rw [hafter, List.append_nil] at hsplit
    exact Or.inl hsplit
  | cons d after =>
    have hstop := List.head?_dropWhile_not (fun c => !endsAuthority c) (rest.dropWhile isSlash)
    have hdrop : (rest.dropWhile isSlash).dropWhile (fun c => !endsAuthority c) = d :: after :=
      hafter
    rw [hdrop] at hstop
    rw [hafter] at hsplit
    exact Or.inr ⟨d, after, by simpa using hstop, hsplit⟩

theorem authority_append {rest : List Char} {d : Char} (hd : endsAuthority d = true)
    (hne : authority (rest ++ [d]) ≠ []) (more : List Char) :
    authority (rest ++ [d] ++ more) = authority (rest ++ [d]) := by
  obtain ⟨slashes, hslashes, hfound, hwhole | ⟨d', after, hd', hwhole⟩⟩ :=
    exists_of_authority (rest ++ [d])
  · have hmem : d ∈ authority (rest ++ [d]) := by
      have hlast := congrArg List.getLast? hwhole
      rw [List.getLast?_concat, List.getLast?_append_of_ne_nil slashes hne] at hlast
      exact List.mem_of_getLast? hlast.symm
    have hends := hfound d hmem
    rw [hd] at hends
    cases hends
  · have hmore : rest ++ [d] ++ more =
        slashes ++ (authority (rest ++ [d]) ++ d' :: (after ++ more)) := by
      have h := congrArg (· ++ more) hwhole
      simpa only [List.append_assoc, List.cons_append] using h
    rw [hmore]
    exact authority_eq hslashes hne hfound hd'

/-- What follows the end of the authority makes no difference. -/
theorem origin_append_cons {platform : Platform} {a : List Char} {d : Char}
    (hd : endsAuthority d = true) {o : List Char × String × String}
    (h : origin platform (a ++ [d]) = some o) (more : List Char) :
    origin platform (a ++ d :: more) = some o := by
  have hkeep := isBlank_of_endsAuthority hd
  obtain ⟨rest, hsplit, hweb, hsite⟩ := origin_eq_some_iff.mp h
  rw [cleaned_append_cons hkeep, List.rdropWhile_nil, List.filter_nil] at hsplit
  have hne := authority_ne_nil hsite
  obtain rfl | ⟨init, last, rfl⟩ := List.eq_nil_or_concat' rest
  · exact absurd rfl hne
  · obtain ⟨before, htext, -, -⟩ := splitScheme_spec hsplit
    rw [← List.cons_append, ← List.append_assoc] at htext
    obtain ⟨-, hlast⟩ := List.append_inj' htext rfl
    obtain rfl : last = d := (List.singleton_inj.mp hlast).symm
    refine origin_eq_some_iff.mpr ⟨init ++ [last] ++
      (more.rdropWhile isBlank).filter fun c => !isTabOrNewline c, ?_, hweb, ?_⟩
    · rw [cleaned_append_cons hkeep, List.append_cons, splitScheme_append hsplit]
    · rw [authority_append hd hne, hsite]

theorem exists_of_authorityIsAscii {platform : Platform} {text : List Char}
    (hascii : authorityIsAscii text = true) {o : List Char × String × String}
    (h : origin platform text = some o) : text.all isAscii = true ∨
      ∃ a d more, text = a ++ d :: more ∧ (a ++ [d]).all isAscii = true ∧
        endsAuthority d = true ∧ origin platform (a ++ [d]) = some o := by
  obtain ⟨rest, hsplit, hweb, hsite⟩ := origin_eq_some_iff.mp h
  have hauthority : ∀ c ∈ authority rest, isAscii c = true := by
    unfold authorityIsAscii at hascii
    rw [hsplit] at hascii
    exact List.all_eq_true.mp hascii
  obtain ⟨before, htext, hscheme, hagain⟩ := splitScheme_spec hsplit
  obtain ⟨slashes, hslashes, hends, hwhole⟩ := exists_of_authority rest
  have hfill : ∀ l : List Char, (∀ c ∈ l.filter fun c => !isTabOrNewline c, isAscii c = true) →
      ∀ c ∈ l, isAscii c = true := by
    intro l hl c hc
    by_cases htab : isTabOrNewline c = true
    · exact isAscii_of_isBlank (isBlank_of_isTabOrNewline htab)
    · exact hl c (List.mem_filter.mpr ⟨hc, by simpa using htab⟩)
  have hstart : ∀ c ∈ before ++ ':' :: (slashes ++ authority rest), isAscii c = true := by
    intro c hc
    rcases List.mem_append.mp hc with hc | hc
    · exact isAscii_of_isSchemeChar (List.all_eq_true.mp hscheme c hc)
    · rcases List.mem_cons.mp hc with rfl | hc
      · decide
      · rcases List.mem_append.mp hc with hc | hc
        · refine isAscii_of_endsAuthority ?_
          simp [endsAuthority, hslashes c hc]
        · exact hauthority c hc
  rcases hwhole with hwhole | ⟨d, after, hd, hwhole⟩
  · rw [← hwhole, ← htext] at hstart
    left
    have hcore := hfill _ hstart
    refine List.all_eq_true.mpr fun c hc => ?_
    rw [← List.takeWhile_append_dropWhile (p := isBlank) (l := text),
      ← List.rdropWhile_append_rtakeWhile (p := isBlank) (l := text.dropWhile isBlank)] at hc
    rcases List.mem_append.mp hc with hc | hc
    · exact isAscii_of_isBlank (List.mem_takeWhile_imp hc)
    · rcases List.mem_append.mp hc with hc | hc
      · exact hcore c hc
      · exact isAscii_of_isBlank (List.mem_rtakeWhile_imp hc)
  · right
    have hkeep := isBlank_of_endsAuthority hd
    rw [hwhole, ← List.append_assoc, ← List.cons_append, ← List.append_assoc] at htext
    obtain ⟨a, more, rfl, ha⟩ := exists_of_cleaned htext
    refine ⟨a, d, more, rfl, ?_, hd, ?_⟩
    · have hcore := hfill (a.dropWhile isBlank) (by rw [ha]; exact hstart)
      refine List.all_eq_true.mpr fun c hc => ?_
      rw [← List.takeWhile_append_dropWhile (p := isBlank) (l := a), List.append_assoc] at hc
      rcases List.mem_append.mp hc with hc | hc
      · exact isAscii_of_isBlank (List.mem_takeWhile_imp hc)
      · rcases List.mem_append.mp hc with hc | hc
        · exact hcore c hc
        · exact List.mem_singleton.mp hc ▸ isAscii_of_endsAuthority hd
    · refine origin_eq_some_iff.mpr ⟨slashes ++ (authority rest ++ [d]), ?_, hweb, ?_⟩
      · rw [cleaned_append_cons hkeep, ha, List.rdropWhile_nil, List.filter_nil, ← hagain]
        simp only [List.append_assoc, List.cons_append]
      · rw [authority_eq hslashes (authority_ne_nil hsite) hends hd, hsite]

/-- Where a URL with its authority in ASCII leads, the same text in lower case leads. -/
theorem origin_toLowerCase {platform : Platform} {text : String}
    (hascii : authorityIsAscii text.toList = true) {o : List Char × String × String}
    (h : origin platform text.toList = some o) :
    origin platform (platform.toLowerCase text).toList = some o := by
  rcases exists_of_authorityIsAscii hascii h with hall | ⟨a, d, more, htext, ha, hd, horigin⟩
  · rw [platform.toLowerCase_ascii text hall, String.toList_ofList, origin_toLower platform hall, h]
  · obtain ⟨rest, hrest⟩ := platform.toLowerCase_append (a ++ [d]) more ha
    rw [← List.append_cons, ← htext, String.ofList_toList] at hrest
    rw [hrest, String.toList_ofList, List.map_append, List.map_singleton,
      toLower_of_endsAuthority hd, ← List.append_cons]
    refine origin_append_cons hd ?_ rest
    rw [← origin_toLower platform ha, List.map_append, List.map_singleton,
      toLower_of_endsAuthority hd] at horigin
    exact horigin

/-- Where both texts lead somewhere, slashes at the end make no difference. -/
theorem origin_append_slashes {platform : Platform} {text : List Char} {n : ℕ}
    {o o' : List Char × String × String} (h : origin platform text = some o)
    (h' : origin platform (text ++ List.replicate n '/') = some o') : o' = o := by
  rcases Nat.eq_zero_or_pos n with rfl | hn
  · rw [List.replicate_zero, List.append_nil, h] at h'
    exact (Option.some.inj h').symm
  obtain ⟨rest, hsplit, hweb, hsite⟩ := origin_eq_some_iff.mp h
  have hne : cleaned text ≠ [] := by
    intro hnil
    rw [hnil] at hsplit
    cases hsplit
  obtain ⟨more, hblank, hcleaned⟩ := cleaned_append_slashes text hn hne
  obtain ⟨rest', hsplit', -, hsite'⟩ := origin_eq_some_iff.mp h'
  rw [hcleaned, splitScheme_append hsplit] at hsplit'
  obtain ⟨hscheme, rfl⟩ := Prod.mk.inj (Option.some.inj hsplit')
  rw [← hscheme] at hsite'
  have hsame : some o'.2 = some o.2 := by
    rcases authority_append_slashes hn hblank (authority_ne_nil hsite) with hsame | hmore
    · rw [← hsite', hsame, hsite]
    · rcases List.eq_nil_or_concat more with rfl | ⟨init, last, hlast⟩
      · rw [← hsite', hmore, List.append_nil, hsite]
      · rw [hmore, site_append_blank platform o.1 _ (by simp [hlast]) hblank] at hsite'
        cases hsite'
  exact Prod.ext hscheme.symm (Option.some.inj hsame)

end Url

end EdgeCache
