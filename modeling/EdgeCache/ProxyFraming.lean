import EdgeCache.ProxyCache

/-!
The request that goes to a target, as it is sent. The headers of the client are merged into
the defaults name by name, but sent without regard to the case of names, a later entry
replacing an earlier one: a `host` or a `content-length` of the client takes the place of
that of the request.
-/
namespace EdgeCache

/-! ### Header maps -/

namespace Headers

/-- A header map as Express delivers it. -/
structure Delivered (headers : Headers) : Prop where
  lower : ∀ header ∈ headers, header.1.toLower = header.1
  nodup : (headers.map (·.1)).Nodup

theorem lookup_cons_eq (first value name : String) (rest : Headers) :
    List.lookup name ((first, value) :: rest) =
      if name = first then some value else rest.lookup name := by
  by_cases hname : name = first
  · rw [if_pos hname, hname, List.lookup_cons_self]
  · rw [if_neg hname, List.lookup_cons, beq_false_of_ne hname]

theorem spread_cons (headers : Headers) (header : String × String) (more : Headers) :
    headers.spread (header :: more) = (headers.spread [header]).spread more := rfl

theorem any_name_iff {headers : Headers} {name : String} :
    headers.any (·.1 = name) = true ↔ headers.lookup name ≠ none := by
  rw [List.any_eq_true, ne_eq, List.lookup_eq_none_iff]
  constructor
  · rintro ⟨header, hmem, hname⟩ hall
    have hne := hall header hmem
    simp only [decide_eq_true_eq] at hname
    simp [hname] at hne
  · intro hall
    by_contra hnone
    refine hall fun header hmem => ?_
    rw [bne_iff_ne]
    rintro rfl
    exact hnone ⟨header, hmem, decide_eq_true rfl⟩

theorem lookup_replace (headers : Headers) (name value other : String)
    (h : headers.lookup name ≠ none) :
    (headers.map fun header => if header.1 = name then (name, value) else header).lookup other =
      if other = name then some value else headers.lookup other := by
  induction headers with
  | nil => exact absurd rfl h
  | cons header rest ih =>
    obtain ⟨first, old⟩ := header
    rw [List.map_cons, lookup_cons_eq first old other]
    by_cases hfirst : first = name
    · -- the head is replaced; what follows matters to other names only
      subst hfirst
      rw [if_pos rfl, lookup_cons_eq]
      by_cases hother : other = first
      · rw [if_pos hother, if_pos hother]
      · rw [if_neg hother, if_neg hother, if_neg hother]
        by_cases hrest : rest.lookup first = none
        · have hkeep : (rest.map fun header =>
              if header.1 = first then (first, value) else header) = rest := by
            refine (List.map_congr_left fun header hmem => ?_).trans (List.map_id rest)
            have hne := List.lookup_eq_none_iff.mp hrest header hmem
            rw [if_neg fun heq => (bne_iff_ne.mp hne) heq.symm]
            rfl
          rw [hkeep]
        · rw [ih hrest, if_neg hother]
    · have hrest : rest.lookup name ≠ none := by
        rw [lookup_cons_eq, if_neg (Ne.symm hfirst)] at h
        exact h
      rw [if_neg hfirst, lookup_cons_eq, ih hrest]
      by_cases hother : other = first
      · rw [if_pos hother, if_pos hother, if_neg fun heq => hfirst (hother.symm.trans heq)]
      · rw [if_neg hother, if_neg hother]

theorem lookup_spread_singleton (headers : Headers) (name value other : String) :
    (headers.spread [(name, value)]).lookup other =
      if other = name then some value else headers.lookup other := by
  show (if headers.any (·.1 = name) then
      headers.map fun header => if header.1 = name then (name, value) else header
    else headers ++ [(name, value)]).lookup other = _
  split
  · next hany => exact lookup_replace headers name value other (any_name_iff.mp hany)
  · next hany =>
    have hnone : headers.lookup name = none := by
      by_contra hsome
      exact hany (any_name_iff.mpr hsome)
    rw [List.lookup_append]
    by_cases hother : other = name
    · simp [hother, hnone]
    · simp [hother]

theorem lookup_spread (headers more : Headers) (name : String) :
    (headers.spread more).lookup name = (more.reverse.lookup name).or (headers.lookup name) := by
  induction more generalizing headers with
  | nil => rfl
  | cons header rest ih =>
    obtain ⟨first, value⟩ := header
    rw [spread_cons, ih, lookup_spread_singleton, List.reverse_cons, List.lookup_append,
      List.lookup_singleton, Option.or_assoc]
    by_cases hname : name = first
    · simp [hname]
    · simp [hname]

theorem spread_of_disjoint {headers more : Headers} (hnodup : (more.map (·.1)).Nodup)
    (hnew : ∀ header ∈ more, headers.lookup header.1 = none) :
    headers.spread more = headers ++ more := by
  induction more generalizing headers with
  | nil => exact (List.append_nil headers).symm
  | cons header rest ih =>
    obtain ⟨hfresh, hrest⟩ := List.nodup_cons.mp hnodup
    have hnone := hnew header List.mem_cons_self
    have hfirst : headers.spread [header] = headers ++ [header] := by
      show (if headers.any (·.1 = header.1) then
          headers.map fun h => if h.1 = header.1 then (header.1, header.2) else h
        else headers ++ [(header.1, header.2)]) = _
      rw [if_neg fun hany => any_name_iff.mp hany hnone]
    rw [spread_cons, hfirst, ih hrest, List.append_assoc, List.singleton_append]
    intro later hlater
    rw [List.lookup_append, hnew later (List.mem_cons_of_mem header hlater), Option.none_or,
      List.lookup_eq_none_iff]
    intro h hmem
    obtain rfl := List.mem_singleton.mp hmem
    rw [bne_iff_ne]
    exact fun heq => hfresh (List.mem_map.mpr ⟨later, hlater, heq⟩)

theorem lookup_reverse {headers : Headers} (hnodup : (headers.map (·.1)).Nodup) (name : String) :
    headers.reverse.lookup name = headers.lookup name := by
  induction headers with
  | nil => rfl
  | cons header rest ih =>
    obtain ⟨first, value⟩ := header
    obtain ⟨hfresh, hrest⟩ := List.nodup_cons.mp hnodup
    rw [List.reverse_cons, List.lookup_append, ih hrest, List.lookup_singleton, lookup_cons_eq]
    by_cases hname : name = first
    · have hnone : rest.lookup first = none := by
        rw [List.lookup_eq_none_iff]
        intro header hmem
        rw [bne_iff_ne]
        exact fun heq => hfresh (List.mem_map.mpr ⟨header, hmem, heq.symm⟩)
      simp [hname, hnone]
    · simp [hname]

end Headers

/-! ### The request as it is sent -/

/-- `url.host` -/
def Url.host (url : Url) : String :=
  if url.port = "" then url.hostname else url.hostname ++ ":" ++ url.port

/-- The text names the host of the URL: it is that host, or it leads there. -/
def Url.IsNamedBy (platform : Platform) (url : Url) (text : String) : Prop :=
  text = url.host ∨ '@' ∉ text.toList ∧
    Url.site platform (url.protocol.toList.takeWhile (· != ':')) text.toList =
      some (url.hostname, url.port)

/-- The number of bytes that a `Content-Length` gives. -/
def contentLength (text : String) : Option ℕ :=
  if text.toList ≠ [] ∧ text.toList.all Char.isDigit = true then
    some (Nat.ofDigitChars 10 text.toList 0)
  else none

theorem contentLength_toString (n : ℕ) : contentLength (toString n) = some n := by
  have hdigits : (toString n).toList = Nat.toDigits 10 n := Nat.toList_repr
  have hall : (Nat.toDigits 10 n).all Char.isDigit = true :=
    List.all_eq_true.mpr fun c hc => Nat.isDigit_of_mem_toDigits (by omega) (by omega) hc
  unfold contentLength
  rw [hdigits, if_pos ⟨Nat.toDigits_ne_nil, hall⟩, Nat.ofDigitChars_ten_toDigits]

theorem toString_injective {m n : ℕ} (h : toString m = toString n) : m = n :=
  Option.some.inj ((contentLength_toString m).symm.trans (h ▸ contentLength_toString n))

namespace UpstreamRequest

/-- The headers that are given, in order and without regard to the case of their names; a later
one replaces an earlier one. -/
def given (connection : UpstreamRequest) : Headers :=
  Headers.spread [] (connection.headers.map fun header => (header.1.toLower, header.2))

/-- The host of a request that is given none. -/
def ownHost (connection : UpstreamRequest) : String :=
  if connection.port = if connection.secure then "443" else "80" then connection.hostname
  else connection.hostname ++ ":" ++ connection.port

def sentHeaders (connection : UpstreamRequest) : Headers :=
  if (connection.given.lookup "host").isSome then connection.given
  else connection.given ++ [("host", connection.ownHost)]

/-- The request names the host of the URL, and the length of its body when it has one. -/
structure WellFramed (platform : Platform) (url : Url) (connection : UpstreamRequest) : Prop where
  host : ∃ host, connection.sentHeaders.lookup "host" = some host ∧ url.IsNamedBy platform host
  length : ∀ text, connection.body = some text → ∃ length,
    connection.sentHeaders.lookup "content-length" = some length ∧
      contentLength length = some text.utf8ByteSize

theorem lookup_sentHeaders_host (connection : UpstreamRequest) :
    connection.sentHeaders.lookup "host" =
      some ((connection.given.lookup "host").getD connection.ownHost) := by
  unfold sentHeaders
  cases hhost : connection.given.lookup "host" with
  | some host => exact hhost
  | none =>
    simp only [Option.isSome_none, Bool.false_eq_true, ↓reduceIte, Option.getD_none]
    rw [List.lookup_append, hhost, Option.none_or, List.lookup_cons_self]

theorem lookup_sentHeaders_of_ne (connection : UpstreamRequest) {name : String}
    (h : name ≠ "host") : connection.sentHeaders.lookup name = connection.given.lookup name := by
  unfold sentHeaders
  split
  · rfl
  · rw [List.lookup_append, Headers.lookup_cons_eq, if_neg h, List.lookup_nil, Option.or_none]

end UpstreamRequest

/-! ### Where the client is forwarded -/

namespace ProxyCacheService

section Framing

variable {platform : Platform} {upstreamConfig : UpstreamConfig} {request : ProxyRequest}
  {url : Url}

/-- The headers of a request before those of the client. -/
def ownHeaders (request : ProxyRequest) : Headers :=
  [("Content-Type", "application/json"), ("Accept", "application/json"),
    ("User-Agent", "EdgeCache-API/1.0")] ++
  match sentBody request.body with
  | some text => [("Content-Length", toString text.utf8ByteSize)]
  | none => []

theorem lower_ownHeaders (request : ProxyRequest) :
    (ownHeaders request).map (fun header => (header.1.toLower, header.2)) =
      [("content-type", "application/json"), ("accept", "application/json"),
        ("user-agent", "EdgeCache-API/1.0")] ++
      ((sentBody request.body).map fun text =>
        ("content-length", toString text.utf8ByteSize)).toList := by
  have htype : "Content-Type".toLower = "content-type" := by decide +kernel
  have haccept : "Accept".toLower = "accept" := by decide +kernel
  have hagent : "User-Agent".toLower = "user-agent" := by decide +kernel
  have hlength : "Content-Length".toLower = "content-length" := by decide +kernel
  unfold ownHeaders
  cases sentBody request.body with
  | none => simp only [List.append_nil, List.map_cons, List.map_nil, htype, haccept, hagent,
      Option.map_none, Option.toList_none]
  | some text => simp only [List.cons_append, List.nil_append, List.map_cons, List.map_nil, htype,
      haccept, hagent, hlength, Option.map_some, Option.toList_some]

theorem name_ownHeaders {own : String × String} (h : own ∈ ownHeaders request) :
    own.1 ∈ ["Content-Type", "Accept", "User-Agent", "Content-Length"] := by
  unfold ownHeaders at h
  cases hbody : sentBody request.body with
  | none =>
    simp only [hbody, List.append_nil, List.mem_cons, List.not_mem_nil, or_false] at h
    rcases h with rfl | rfl | rfl
    all_goals simp
  | some text =>
    simp only [hbody, List.cons_append, List.nil_append, List.mem_cons, List.not_mem_nil,
      or_false] at h
    rcases h with rfl | rfl | rfl | rfl
    all_goals simp

theorem headers_options (h : Headers.Delivered request.headers) :
    (options upstreamConfig url request).headers = ownHeaders request ++ request.headers := by
  have hupper : ∀ name ∈ ["Content-Type", "Accept", "User-Agent", "Content-Length"],
      name.toLower ≠ name := by decide +kernel
  refine Headers.spread_of_disjoint h.nodup fun header hmem => ?_
  rw [List.lookup_eq_none_iff]
  intro own hown
  rw [bne_iff_ne]
  intro heq
  have hlower := h.lower header hmem
  rw [heq] at hlower
  exact hupper own.1 (name_ownHeaders hown) hlower

theorem lookup_given_options (h : Headers.Delivered request.headers) (name : String) :
    (options upstreamConfig url request).given.lookup name =
      (request.headers.lookup name).or
        (((ownHeaders request).map fun header => (header.1.toLower, header.2)).reverse.lookup
          name) := by
  have hclient : request.headers.map (fun header => (header.1.toLower, header.2)) =
      request.headers := by
    refine (List.map_congr_left fun header hmem => ?_).trans (List.map_id _)
    rw [h.lower header hmem]
    rfl
  unfold UpstreamRequest.given
  rw [Headers.lookup_spread, List.lookup_nil, Option.or_none, headers_options h, List.map_append,
    hclient, List.reverse_append, List.lookup_append, Headers.lookup_reverse h.nodup]

theorem lookup_given_host (h : Headers.Delivered request.headers) :
    (options upstreamConfig url request).given.lookup "host" = request.headers.lookup "host" := by
  have hnone : ((ownHeaders request).map fun header =>
      (header.1.toLower, header.2)).reverse.lookup "host" = none := by
    rw [lower_ownHeaders, List.lookup_eq_none_iff]
    intro header hmem
    cases hbody : sentBody request.body with
    | none =>
      simp only [hbody, Option.map_none, Option.toList_none, List.append_nil, List.mem_reverse,
        List.mem_cons, List.not_mem_nil, or_false] at hmem
      rcases hmem with rfl | rfl | rfl
      all_goals decide
    | some text =>
      simp only [hbody, Option.map_some, Option.toList_some, List.cons_append, List.nil_append,
        List.mem_reverse, List.mem_cons, List.not_mem_nil, or_false] at hmem
      rcases hmem with rfl | rfl | rfl | rfl
      all_goals simp
  rw [lookup_given_options h, hnone, Option.or_none]

theorem lookup_given_length (h : Headers.Delivered request.headers) {text : String}
    (hbody : sentBody request.body = some text) :
    (options upstreamConfig url request).given.lookup "content-length" =
      some ((request.headers.lookup "content-length").getD (toString text.utf8ByteSize)) := by
  have hown : ((ownHeaders request).map fun header =>
      (header.1.toLower, header.2)).reverse.lookup "content-length" =
        some (toString text.utf8ByteSize) := by
    rw [lower_ownHeaders, hbody]
    exact List.lookup_cons_self
  rw [lookup_given_options h, hown]
  cases request.headers.lookup "content-length" with
  | none => rfl
  | some length => rfl

theorem port_of_portText {scheme digits : List Char} {port : String}
    (h : Url.portText scheme digits = some port) : port ≠ toString (Url.defaultPort scheme) := by
  have hne : toString (Url.defaultPort scheme) ≠ "" := by
    intro hempty
    have hlength := congrArg contentLength hempty
    rw [contentLength_toString] at hlength
    cases hlength
  unfold Url.portText at h
  simp only at h
  split at h
  · cases h
  · obtain rfl := Option.some.inj h
    split
    · exact hne.symm
    · next hother =>
      intro hsame
      exact hother (by simp [toString_injective hsame])

theorem port_of_parse {target : String} (h : Url.parse platform target = .web url) :
    url.port ≠ if url.protocol = "https:" then "443" else "80" := by
  unfold Url.parse at h
  split at h
  · cases h
  · next scheme rest hsplit =>
    split at h
    · next hweb =>
      split at h
      · cases h
      · next hostname port hsite =>
        obtain rfl := ParsedUrl.web.inj h
        unfold Url.site at hsite
        split at hsite
        · cases hsite
        · obtain ⟨found, -, hport⟩ := Option.bind_eq_some_iff.mp hsite
          obtain ⟨port', hport', heq⟩ := Option.map_eq_some_iff.mp hport
          obtain ⟨-, rfl⟩ := Prod.mk.inj heq
          have hne := port_of_portText hport'
          simp only [Url.isWeb, Bool.or_eq_true, decide_eq_true_eq] at hweb
          rcases hweb with rfl | rfl
          · exact hne
          · exact hne
    · split at h
      · cases h
      · cases h

theorem ownHost_options (h : Url.parse platform request.targetUrl = .web url) :
    (options upstreamConfig url request).ownHost = url.host := by
  have hport := port_of_parse h
  simp only [UpstreamRequest.ownHost, options, Url.host, decide_eq_true_eq]
  by_cases hempty : url.port = ""
  · simp only [hempty, ne_eq, not_true_eq_false, ↓reduceIte]
  · simp only [hempty, ne_eq, not_false_eq_true, ↓reduceIte, if_neg hport]

/-- A request is well framed exactly when the client gives no `host` but that of the target and,
when there is a body to write, no `content-length` but that of the text that is written. -/
theorem wellFramed_iff (platform : Platform) (upstreamConfig : UpstreamConfig)
    (request : ProxyRequest) (url : Url) (hdelivered : Headers.Delivered request.headers)
    (hparse : Url.parse platform request.targetUrl = .web url) :
    (options upstreamConfig url request).WellFramed platform url ↔
      (∀ host, request.headers.lookup "host" = some host → url.IsNamedBy platform host) ∧
      ∀ text length, sentBody request.body = some text →
        request.headers.lookup "content-length" = some length →
        contentLength length = some text.utf8ByteSize := by
  have hhost := UpstreamRequest.lookup_sentHeaders_host (options upstreamConfig url request)
  rw [lookup_given_host hdelivered, ownHost_options hparse] at hhost
  have hlength : ∀ text, sentBody request.body = some text →
      (options upstreamConfig url request).sentHeaders.lookup "content-length" =
        some ((request.headers.lookup "content-length").getD (toString text.utf8ByteSize)) := by
    intro text hbody
    rw [UpstreamRequest.lookup_sentHeaders_of_ne _ (by decide),
      lookup_given_length hdelivered hbody]
  constructor
  · intro h
    constructor
    · intro host hclient
      obtain ⟨sent, hsent, hnamed⟩ := h.host
      rw [hhost, hclient, Option.getD_some] at hsent
      exact Option.some.inj hsent ▸ hnamed
    · intro text length hbody hclient
      obtain ⟨sent, hsent, hbytes⟩ := h.length text hbody
      rw [hlength text hbody, hclient, Option.getD_some] at hsent
      exact Option.some.inj hsent ▸ hbytes
  · rintro ⟨hclientHost, hclientLength⟩
    constructor
    · refine ⟨_, hhost, ?_⟩
      cases hclient : request.headers.lookup "host" with
      | none => exact Or.inl rfl
      | some host => exact hclientHost host hclient
    · intro text hbody
      refine ⟨_, hlength text hbody, ?_⟩
      cases hclient : request.headers.lookup "content-length" with
      | none => exact contentLength_toString _
      | some length => exact hclientLength text length hbody hclient

/-- The page `http://h/x`, sent an object with one field. -/
def posting (host length : String) : ProxyRequest :=
  ⟨.get, "http://h/x", [("host", host), ("content-length", length)],
    some (.object [("a", .number (.ofNat 1) "1")]), none, none, false⟩

def page : Url := ⟨"http:", "h", "", "/x", ""⟩

theorem sentBody_posting (host length : String) :
    sentBody (posting host length).body = some "\x7b\"a\":1\x7d" := by
  show sentBody (some (.object [("a", .number (.ofNat 1) "1")])) = _
  decide +kernel

/-- A client that names the target itself, and writes its body as it is written again. -/
theorem wellFramed_iff_of_same_text :
    (options ⟨[], 1000⟩ page (posting "h" "7")).WellFramed .plain page := by
  have hhost : (posting "h" "7").headers.lookup "host" = some "h" := by decide +kernel
  have hlength : (posting "h" "7").headers.lookup "content-length" = some "7" := by
    decide +kernel
  refine (wellFramed_iff .plain ⟨[], 1000⟩ (posting "h" "7") page
    ⟨by decide +kernel, by decide +kernel⟩ (by decide +kernel)).mpr ⟨?_, ?_⟩
  · intro host hclient
    rw [hhost] at hclient
    rw [← Option.some.inj hclient]
    exact Or.inl (by decide +kernel)
  · intro text length hbody hclient
    rw [sentBody_posting] at hbody
    rw [hlength] at hclient
    rw [← Option.some.inj hclient, ← Option.some.inj hbody]
    decide +kernel

/-- A client of the cache names the cache, and gives the length of the text that it has sent. -/
theorem not_wellFramed_of_forwarded :
    ¬ ∀ (request : ProxyRequest) (url : Url), Headers.Delivered request.headers →
      Url.parse .plain request.targetUrl = .web url →
      (options ⟨[], 1000⟩ url request).WellFramed .plain url := by
  intro hall
  have hdelivered : Headers.Delivered (posting "cache" "8").headers :=
    ⟨by decide +kernel, by decide +kernel⟩
  have hframed := hall (posting "cache" "8") page hdelivered (by decide +kernel)
  have hclient : (posting "cache" "8").headers.lookup "content-length" = some "8" := by
    decide +kernel
  obtain ⟨length, hsent, hbytes⟩ := hframed.length _ (sentBody_posting "cache" "8")
  rw [UpstreamRequest.lookup_sentHeaders_of_ne _ (by decide),
    lookup_given_length hdelivered (sentBody_posting "cache" "8"), hclient, Option.getD_some]
    at hsent
  rw [← Option.some.inj hsent] at hbytes
  revert hbytes
  decide +kernel

end Framing

end ProxyCacheService

end EdgeCache
