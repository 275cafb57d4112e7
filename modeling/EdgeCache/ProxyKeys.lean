import EdgeCache.ProxyCache
import EdgeCache.UrlPaths

/-!
What a key says about the request it was made from. Two requests with one key go to the same
place, with the same method and body. They ask for the same path and query there but for the
case of letters and slashes at the end, unless their URLs end in a blank or a question mark.
The parts of a key are joined without escapes, so that a URL that ends as if the digest of a
body followed it is left out.
-/
namespace EdgeCache

/-! ### Texts of JSON -/

namespace Json

theorem isObject_eq {body : Json} (h : body.keyCount.any (0 < ·) = true) :
    body.isObject = decide ((stringify body).toList.head? ≠ some '"') := by
  cases body with
  | null => cases h
  | bool b => cases h
  | number x text => cases h
  | string s =>
    simp only [stringify, quote, String.toList_append]
    rfl
  | array items =>
    simp only [stringify, String.toList_append]
    rfl
  | object fields =>
    simp only [stringify, String.toList_append]
    rfl

end Json

namespace CacheKey

/-- Whether the text ends as a key with the digest of a body does. -/
def looksHashed (text : String) : Bool :=
  match text.toList.rtake 13 with
  | ':' :: hash => hash.length = 12 && hash.all isHexDigit
  | _ => false

theorem length_hash (platform : Platform) (text : String) :
    (hash platform text).toList.length = 12 := by
  unfold hash
  rw [String.toList_ofList, List.length_take, Nat.min_eq_left (platform.length_sha256 text)]

theorem looksHashed_hash {platform : Platform} {base text body : String}
    (h : text.toList = base.toList ++ ':' :: (hash platform body).toList) :
    looksHashed text = true := by
  have hlength := length_hash platform body
  have hhex : (hash platform body).toList.all isHexDigit = true := by
    unfold hash
    rw [String.toList_ofList]
    exact List.all_eq_true.mpr fun c hc =>
      List.all_eq_true.mp (platform.isHexDigit_sha256 body) c (List.mem_of_mem_take hc)
  have hend : text.toList.rtake 13 = ':' :: (hash platform body).toList := by
    unfold List.rtake
    rw [h, List.length_append, List.length_cons, hlength, Nat.add_sub_cancel, List.drop_left]
  unfold looksHashed
  rw [hend]
  simp only [hlength, decide_true, hhex, Bool.and_true]

theorem keyCount_of_bodyText {body : Option Json} {text : String}
    (h : bodyText body = some text) : ∃ body', body = some body' ∧
      body'.keyCount.any (0 < ·) = true ∧ body'.stringify = text := by
  unfold bodyText at h
  split at h
  · cases h
  · next body' =>
    split at h
    · next hkeys => exact ⟨body', rfl, (Bool.and_eq_true_iff.mp hkeys).2, Option.some.inj h⟩
    · cases h

/-- A body that is hashed is sent as what is hashed, or not at all. -/
theorem sentBody_eq {body body' : Option Json} {text : String} (h : bodyText body = some text)
    (h' : bodyText body' = some text) :
    ProxyCacheService.sentBody body = ProxyCacheService.sentBody body' := by
  obtain ⟨b, rfl, hkeys, htext⟩ := keyCount_of_bodyText h
  obtain ⟨b', rfl, hkeys', htext'⟩ := keyCount_of_bodyText h'
  have hsame : b.stringify = b'.stringify := htext.trans htext'.symm
  have hobject : b.isObject = b'.isObject := by
    rw [Json.isObject_eq hkeys, Json.isObject_eq hkeys', hsame]
  unfold ProxyCacheService.sentBody
  cases hb : b.isObject with
  | true =>
    rw [Option.filter_some_pos hb, Option.filter_some_pos (hobject ▸ hb)]
    exact congrArg some hsame
  | false =>
    rw [Option.filter_some_neg (by simp [hb]), Option.filter_some_neg (by simp [← hobject, hb])]

theorem append_colon_inj {x x' z z' : List Char} (hx : ':' ∉ x) (hx' : ':' ∉ x')
    (h : x ++ ':' :: z = x' ++ ':' :: z') : x = x' ∧ z = z' := by
  have hcut : ∀ {x : List Char}, ':' ∉ x → ∀ z, (x ++ ':' :: z).takeWhile (· != ':') = x := by
    intro x hx z
    have hne : ∀ c ∈ x, (c != ':') = true := by
      intro c hc
      exact bne_iff_ne.mpr fun heq => hx (heq ▸ hc)
    rw [List.takeWhile_append_of_pos hne, List.takeWhile_cons_of_neg (p := (· != ':')) (by decide),
      List.append_nil]
  have hsame := congrArg (List.takeWhile (· != ':')) h
  rw [hcut hx, hcut hx'] at hsame
  rw [hsame] at h
  exact ⟨hsame, (List.cons.inj (List.append_cancel_left h)).2⟩

theorem colon_notMem_toUpperCase (method : Method) : ':' ∉ method.toUpperCase.toList := by
  unfold Method.toUpperCase
  rw [String.toList_ofList]
  intro hmem
  obtain ⟨c, hc, hcolon⟩ := List.mem_map.mp hmem
  have htoken := List.all_eq_true.mp method.property c hc
  rcases LetterCase.toUpper_cases c with hsame | ⟨n, hn, hletter⟩
  · have hno : isTokenChar ':' = false := by decide
    rw [← hcolon, hsame, htoken] at hno
    cases hno
  · have hcapital : ∀ n < 26, Char.ofNat (n + 65) ≠ ':' := by decide
    exact hcapital n hn (hletter.symm.trans hcolon)

theorem toList_fromRequest (platform : Platform) (method : Method) (url : String)
    (body : Option Json) : (fromRequest platform method url body).value.toList =
      method.toUpperCase.toList ++ ':' :: ((normalizedUrl platform url).toList ++
        match bodyText body with
        | some text => ':' :: (hash platform text).toList
        | none => []) := by
  unfold fromRequest
  cases bodyText body with
  | none => simp
  | some text => simp

/-- Where no URL looks like another one with a digest, a key tells its parts. -/
theorem parts_of_fromRequest {platform : Platform} {method method' : Method} {url url' : String}
    {body body' : Option Json}
    (hplain : bodyText body = none → looksHashed (normalizedUrl platform url) = false)
    (hplain' : bodyText body' = none → looksHashed (normalizedUrl platform url') = false)
    (hhash : ∀ t t', bodyText body = some t → bodyText body' = some t' →
      hash platform t = hash platform t' → t = t')
    (h : fromRequest platform method url body = fromRequest platform method' url' body') :
    method.toUpperCase = method'.toUpperCase ∧
      normalizedUrl platform url = normalizedUrl platform url' ∧ bodyText body = bodyText body' := by
  have hlists := congrArg (fun key : CacheKey => key.value.toList) h
  simp only [toList_fromRequest] at hlists
  obtain ⟨hmethod, hrest⟩ := append_colon_inj (colon_notMem_toUpperCase method)
    (colon_notMem_toUpperCase method') hlists
  refine ⟨String.toList_inj.mp hmethod, ?_⟩
  cases hbody : bodyText body with
  | none =>
    cases hbody' : bodyText body' with
    | none =>
      simp only [hbody, hbody', List.append_nil] at hrest
      exact ⟨String.toList_inj.mp hrest, rfl⟩
    | some text' =>
      simp only [hbody, hbody', List.append_nil] at hrest
      have hlooks := hplain hbody
      rw [looksHashed_hash hrest] at hlooks
      cases hlooks
  | some text =>
    cases hbody' : bodyText body' with
    | none =>
      simp only [hbody, hbody', List.append_nil] at hrest
      have hlooks := hplain' hbody'
      rw [looksHashed_hash hrest.symm] at hlooks
      cases hlooks
    | some text' =>
      simp only [hbody, hbody'] at hrest
      obtain ⟨hurl, hdigest⟩ := List.append_inj' hrest (by
        rw [List.length_cons, List.length_cons, length_hash, length_hash])
      have hsame := hhash text text' hbody hbody' (String.toList_inj.mp (List.cons.inj hdigest).2)
      exact ⟨String.toList_inj.mp hurl, congrArg some hsame⟩

theorem toList_normalizedUrl (platform : Platform) (url : String) :
    (normalizedUrl platform url).toList = stripSlashes (platform.toLowerCase url).toList := by
  rw [normalizedUrl, String.toList_ofList]
  rfl

theorem origin_eq_of_normalizedUrl {platform : Platform} {url url' : String}
    {o o' : List Char × String × String}
    (ho : Url.origin platform (platform.toLowerCase url).toList = some o)
    (ho' : Url.origin platform (platform.toLowerCase url').toList = some o')
    (h : normalizedUrl platform url = normalizedUrl platform url') : o = o' := by
  obtain ⟨n, hn⟩ := eq_stripSlashes_append (platform.toLowerCase url).toList
  obtain ⟨n', hn'⟩ := eq_stripSlashes_append (platform.toLowerCase url').toList
  rw [← toList_normalizedUrl] at hn hn'
  have hmore : ∀ (l : List Char) {m k : ℕ}, m ≤ k →
      l ++ List.replicate k '/' = l ++ List.replicate m '/' ++ List.replicate (k - m) '/' := by
    intro l m k hle
    rw [List.append_assoc, List.replicate_append_replicate, Nat.add_sub_cancel' hle]
  rw [← h] at hn'
  rcases Nat.le_total n n' with hle | hle
  · rw [hn', hmore _ hle, ← hn] at ho'
    exact (Url.origin_append_slashes ho ho').symm
  · rw [hn, hmore _ hle, ← hn'] at ho
    exact Url.origin_append_slashes ho' ho

end CacheKey

namespace ProxyCacheService

/-- Requests with one key go to one place, with one method and body, and ask for one path and query
there but for the case of letters and slashes at the end. -/
theorem same_target_of_key (platform : Platform) (upstreamConfig : UpstreamConfig)
    (r r' : ProxyRequest) (url url' : Url)
    (hparse : Url.parse platform r.targetUrl = .web url)
    (hparse' : Url.parse platform r'.targetUrl = .web url')
    (hascii : Url.authorityIsAscii r.targetUrl.toList = true)
    (hascii' : Url.authorityIsAscii r'.targetUrl.toList = true)
    (hplain : CacheKey.bodyText r.body = none →
      CacheKey.looksHashed (CacheKey.normalizedUrl platform r.targetUrl) = false)
    (hplain' : CacheKey.bodyText r'.body = none →
      CacheKey.looksHashed (CacheKey.normalizedUrl platform r'.targetUrl) = false)
    (hhash : ∀ t t', CacheKey.bodyText r.body = some t → CacheKey.bodyText r'.body = some t' →
      CacheKey.hash platform t = CacheKey.hash platform t' → t = t')
    (hkey : key platform r = key platform r') :
    (options upstreamConfig url r).secure = (options upstreamConfig url' r').secure ∧
      (options upstreamConfig url r).hostname = (options upstreamConfig url' r').hostname ∧
      (options upstreamConfig url r).port = (options upstreamConfig url' r').port ∧
      r.method.toUpperCase = r'.method.toUpperCase ∧
      CacheKey.normalizedUrl platform r.targetUrl = CacheKey.normalizedUrl platform r'.targetUrl ∧
      CacheKey.bodyText r.body = CacheKey.bodyText r'.body ∧
      (CacheKey.bodyText r.body ≠ none →
        (options upstreamConfig url r).body = (options upstreamConfig url' r').body) ∧
      (platform.KeepsPaths → r.targetUrl.toList.all isAscii = true →
        r'.targetUrl.toList.all isAscii = true →
        Url.endsPlainly (CacheKey.normalizedUrl platform r.targetUrl).toList = true →
        foldPath (options upstreamConfig url r).path =
          foldPath (options upstreamConfig url' r').path) := by
  obtain ⟨hmethod, hurl, hbody⟩ := CacheKey.parts_of_fromRequest hplain hplain' hhash
    (CacheKey.mk.injEq _ _ ▸ hkey)
  obtain ⟨scheme, hprotocol, horigin⟩ := Url.origin_of_parse hparse
  obtain ⟨scheme', hprotocol', horigin'⟩ := Url.origin_of_parse hparse'
  have hsame := CacheKey.origin_eq_of_normalizedUrl (Url.origin_toLowerCase hascii horigin)
    (Url.origin_toLowerCase hascii' horigin') hurl
  simp only [Prod.mk.injEq] at hsame
  obtain ⟨rfl, hhostname, hport⟩ := hsame
  rw [← hprotocol] at hprotocol'
  simp only [options, hprotocol', hhostname, hport]
  refine ⟨trivial, trivial, trivial, hmethod, hurl, hbody, fun hhashed => ?_,
    fun hpaths hall hall' hend => ?_⟩
  · obtain ⟨text, htext⟩ := Option.ne_none_iff_exists'.mp hhashed
    exact CacheKey.sentBody_eq htext (hbody ▸ htext)
  · have hlists := congrArg String.toList hurl
    rw [CacheKey.toList_normalizedUrl, CacheKey.toList_normalizedUrl,
      platform.toLowerCase_ascii _ hall, platform.toLowerCase_ascii _ hall', String.toList_ofList,
      String.toList_ofList] at hlists
    rw [CacheKey.toList_normalizedUrl, platform.toLowerCase_ascii _ hall,
      String.toList_ofList] at hend
    exact Url.foldPath_eq_of_stripSlashes hpaths hall hall' (Url.requested_of_parse hparse)
      (Url.requested_of_parse hparse') hlists hend

def oneField : Json := .object [("a", .number (.finite 1) "1")]

/-- The case of letters and a slash at the end do not lead a request elsewhere. -/
theorem same_target_of_key_upper :
    let r := pageRequest "http://H/a/" [] (some oneField)
    let r' := pageRequest "http://h/A" [] (some oneField)
    key .plain r = key .plain r' ∧
      (options ⟨[], 1000⟩ ⟨"http:", "h", "", "/a/", ""⟩ r).body =
        (options ⟨[], 1000⟩ ⟨"http:", "h", "", "/A", ""⟩ r').body ∧
      foldPath (options ⟨[], 1000⟩ ⟨"http:", "h", "", "/a/", ""⟩ r).path =
        foldPath (options ⟨[], 1000⟩ ⟨"http:", "h", "", "/A", ""⟩ r').path := by
  intro r r'
  have hkey : key .plain r = key .plain r' := by decide +kernel
  have hbody : CacheKey.bodyText r.body = some "\x7b\"a\":1\x7d" := by decide +kernel
  have hhashed : CacheKey.bodyText r.body ≠ none := by
    rw [hbody]
    exact Option.some_ne_none _
  obtain ⟨-, -, -, -, -, -, hsent, hpath⟩ := same_target_of_key .plain ⟨[], 1000⟩ r r'
    ⟨"http:", "h", "", "/a/", ""⟩ ⟨"http:", "h", "", "/A", ""⟩ (by decide +kernel)
    (by decide +kernel) (by decide +kernel) (by decide +kernel) (fun h => absurd h hhashed)
    (fun h => absurd h hhashed) (fun t t' h h' _ => Option.some.inj (h.symm.trans h')) hkey
  exact ⟨hkey, hsent hhashed, hpath Platform.keepsPaths_plain (by decide +kernel)
    (by decide +kernel) (by decide +kernel)⟩

/-- The case of a path is lost in the key, and so is whether a question mark is followed by a
query of slashes, and where the URL ends and the digest of a body begins. -/
theorem not_same_path_of_key :
    let upper := pageRequest "http://h/A" [] none
    let lower := pageRequest "http://h/a" [] none
    let noQuery := pageRequest "http://h/a?" [] none
    let slashes := pageRequest "http://h/a?/" [] none
    let hashed := pageRequest "http://h/x" [] (some oneField)
    let plain := pageRequest "http://h/x:015abd7f5cc5" [] none
    (key .plain upper = key .plain lower ∧
      ∃ url url', Url.parse .plain upper.targetUrl = .web url ∧
        Url.parse .plain lower.targetUrl = .web url' ∧
        (options ⟨[], 1000⟩ url upper).path ≠ (options ⟨[], 1000⟩ url' lower).path) ∧
    (key .plain noQuery = key .plain slashes ∧
      ∃ url url', Url.parse .plain noQuery.targetUrl = .web url ∧
        Url.parse .plain slashes.targetUrl = .web url' ∧
        foldPath (options ⟨[], 1000⟩ url noQuery).path ≠
          foldPath (options ⟨[], 1000⟩ url' slashes).path) ∧
    key .plain hashed = key .plain plain ∧
      ∃ url url', Url.parse .plain hashed.targetUrl = .web url ∧
        Url.parse .plain plain.targetUrl = .web url' ∧
        (options ⟨[], 1000⟩ url hashed).path ≠ (options ⟨[], 1000⟩ url' plain).path := by
  intro upper lower noQuery slashes hashed plain
  refine ⟨⟨by decide +kernel, ⟨"http:", "h", "", "/A", ""⟩, ⟨"http:", "h", "", "/a", ""⟩, ?_⟩,
    ⟨by decide +kernel, ⟨"http:", "h", "", "/a", ""⟩, ⟨"http:", "h", "", "/a", "?/"⟩, ?_⟩,
    by decide +kernel, ⟨"http:", "h", "", "/x", ""⟩,
    ⟨"http:", "h", "", "/x:015abd7f5cc5", ""⟩, ?_⟩
  · decide +kernel
  · decide +kernel
  · decide +kernel

end ProxyCacheService

end EdgeCache
