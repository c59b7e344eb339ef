import Voleeo.Httpie.Fields

/-!
# The tokens of an exported command

The head of the command gives the method, the URL and the credentials, and each
further argument is one token without its continued lines.
-/
namespace Voleeo.Httpie
open OrderedMap Template Curl
open Send (ResolveCtx isNameStart)

/-! ## The URL -/

/-- The URL names a path parameter somewhere. -/
def NamesParam (url : Text) : Prop := ∃ before c after,
  url = before ++ ':' :: c :: after ∧ isNameStart c = true

theorem count_encodeURIComponent (s : Text) : (encodeURIComponent s).count ':' = 0 := by
  refine List.count_eq_zero.mpr fun hmem => ?_
  obtain ⟨c, -, hc⟩ := List.mem_flatMap.mp hmem
  rw [percentEncodeChar] at hc
  split_ifs at hc with hkeep
  · rw [List.mem_singleton] at hc
    subst hc
    exact absurd hkeep (by decide)
  · obtain ⟨b, -, hb⟩ := List.mem_flatMap.mp hc
    have hdigit : ∀ n < 16, upperHexDigit n ≠ ':' := by decide
    have hbyte := b.toNat_lt
    simp only [percentByte, List.mem_cons, List.not_mem_nil, or_false] at hb
    rcases hb with hb | hb | hb
    · cases hb
    · exact hdigit _ (by omega) hb.symm
    · exact hdigit _ (by omega) hb.symm

theorem count_paramValue (params : OrderedMap Text PathParam) (name : Text) :
    (paramValue params name).count ':' = 0 := by
  rw [paramValue]
  split
  · rfl
  · split_ifs
    · exact count_encodeURIComponent _
    · rfl

theorem count_substituteFrom_le (params : OrderedMap Text PathParam) (skip : ℕ) (s : Text) :
    (substituteFrom params skip s).count ':' ≤ s.count ':' := by
  induction s generalizing skip with
  | nil => cases skip <;> exact Nat.le_refl 0
  | cons c rest ih =>
    cases skip with
    | succ skip => exact (ih skip).trans (List.count_le_count_cons)
    | zero =>
      rw [substituteFrom]
      split_ifs
      · rw [List.count_append, count_paramValue, Nat.zero_add]
        exact (ih _).trans (List.count_le_count_cons)
      · rw [List.count_cons, List.count_cons]
        exact Nat.add_le_add_right (ih 0) _

/-- Every parameter that is named takes a colon away. -/
theorem count_substitute_lt {params : OrderedMap Text PathParam} {s : Text} (h : NamesParam s) :
    (substitutePathParams s params).count ':' < s.count ':' := by
  obtain ⟨before, c, after, rfl, hc⟩ := h
  rw [substitutePathParams]
  induction before with
  | nil =>
    have hword : isWordChar c = true := by
      rw [isNameStart, Bool.or_eq_true] at hc
      rw [isWordChar, Char.isAlphanum, Bool.or_eq_true, Bool.or_eq_true]
      exact hc.imp Or.inl id
    have hmatch : ((c :: after).takeWhile isWordChar).head?.any isNameStart = true := by
      simp [hword, hc]
    rw [List.nil_append, substituteFrom, if_pos ⟨rfl, hmatch⟩, List.count_append,
      count_paramValue, Nat.zero_add]
    have hle := count_substituteFrom_le params ((c :: after).takeWhile isWordChar).length
      (c :: after)
    rw [List.count_cons_self]
    exact Nat.lt_succ_of_le hle
  | cons d before ih =>
    rw [List.cons_append, substituteFrom]
    split_ifs
    · rw [List.count_append, count_paramValue, Nat.zero_add]
      rename_i hd
      rw [hd.1, List.count_cons_self]
      exact Nat.lt_succ_of_le (count_substituteFrom_le params _ _)
    · rw [List.count_cons, List.count_cons]
      exact Nat.add_lt_add_right ih _

theorem substitute_of_noParam {params : OrderedMap Text PathParam} {s : Text}
    (h : ¬ NamesParam s) : substitutePathParams s params = s := by
  rw [substitutePathParams]
  induction s with
  | nil => rfl
  | cons c rest ih =>
    have hrest : ¬ NamesParam rest := by
      rintro ⟨before, d, after, rfl, hd⟩
      exact h ⟨c :: before, d, after, rfl, hd⟩
    have hno : ¬ (c = ':' ∧ (rest.takeWhile isWordChar).head?.any isNameStart = true) := by
      rintro ⟨rfl, hany⟩
      cases rest with
      | nil => cases hany
      | cons d rest =>
        rw [List.takeWhile_cons] at hany
        split_ifs at hany
        · exact h ⟨[], d, rest, rfl, by simpa using hany⟩
        · cases hany
    rw [substituteFrom, if_neg hno, ih hrest]

theorem count_collapse (s : Text) : (collapse s).count ':' = s.count ':' := by
  induction s using collapse.induct with
  | case1 => rfl
  | case2 rest ih => simpa [collapse] using ih
  | case3 rest ih => simpa [collapse] using ih
  | case4 c rest hlf hcrlf ih =>
    rw [collapse.eq_4 c rest hlf hcrlf, List.count_cons, List.count_cons, ih]

/-- The URL comes back exactly when it names no parameter and has no continued line. -/
theorem collapse_substitute_iff {params : OrderedMap Text PathParam} {url : Text} :
    collapse (substitutePathParams url params) = url ↔ ¬ NamesParam url ∧ ¬ Continued url := by
  constructor
  · intro h
    have hno : ¬ NamesParam url := by
      intro hparam
      have hlt := @count_substitute_lt params url hparam
      rw [← count_collapse, h] at hlt
      exact lt_irrefl _ hlt
    rw [substitute_of_noParam hno] at h
    exact ⟨hno, (collapse_eq_self_iff url).mp h⟩
  · rintro ⟨hno, hline⟩
    rw [substitute_of_noParam hno, (collapse_eq_self_iff url).mpr hline]

/-! ## The scheme -/

theorem toLower_cases (c : Char) :
    c.toLower = c ∨ (c.isUpper = true ∧ c.toLower.isLower = true) := by
  unfold Char.toLower
  split_ifs with h
  · refine Or.inr ⟨by simpa [Char.isUpper] using h, ?_⟩
    simp only [Char.isLower, Bool.and_eq_true, decide_eq_true_eq]
    obtain ⟨hlow, hhigh⟩ := h
    constructor <;> simp only [ge_iff_le, UInt32.le_iff_toNat_le] at * <;> simp at * <;> omega
  · exact Or.inl rfl

theorem ne_of_toLower {c d : Char} (h : c.toLower = d) (hd : d.isLower = true) :
    c ≠ ':' ∧ c ≠ '\\' ∧ c ≠ '-' := by
  subst h
  refine ⟨?_, ?_, ?_⟩ <;> rintro rfl <;> exact absurd hd (by decide)

theorem eq_of_toLower {c d : Char} (h : c.toLower = d) (hd : d.isLower = false) : c = d := by
  rcases toLower_cases c with heq | ⟨-, hlow⟩
  · exact heq.symm.trans h
  · rw [h, hd] at hlow
    cases hlow

/-- Characters that neither open a parameter nor continue a line. -/
theorem collapse_substitute_cons {params : OrderedMap Text PathParam} {c : Char} (rest : Text)
    (hback : c ≠ '\\') (hcolon : c = ':' → rest.head? = some '/') :
    collapse (substituteFrom params 0 (c :: rest)) =
      c :: collapse (substituteFrom params 0 rest) := by
  have hno : ¬ (c = ':' ∧ (rest.takeWhile isWordChar).head?.any isNameStart = true) := by
    rintro ⟨rfl, hany⟩
    obtain ⟨tail, rfl⟩ : ∃ tail, rest = '/' :: tail := by
      have hhead := hcolon rfl
      cases rest with
      | nil => cases hhead
      | cons d tail => exact ⟨tail, by rw [Option.some.inj hhead]⟩
    have hslash : isWordChar '/' = false := by decide
    rw [List.takeWhile_cons, hslash] at hany
    cases hany
  rw [substituteFrom, if_neg hno, collapse_cons (Or.inl hback)]

/-- The scheme is written and read back as it is. -/
theorem scheme_stays {params : OrderedMap Text PathParam} {url : Text}
    (h : hasHttpScheme url = true) :
    hasHttpScheme (collapse (substitutePathParams url params)) = true ∧
      (collapse (substitutePathParams url params)).head? ≠ some '-' ∧
      collapse (substitutePathParams url params) ≠ [] := by
  have hprefix : "http://".toList <+: url.map Char.toLower ∨
      "https://".toList <+: url.map Char.toLower := by
    simpa only [hasHttpScheme, Bool.or_eq_true, List.isPrefixOf_iff_prefix] using h
  rw [substitutePathParams]
  rcases hprefix with ⟨tail, htail⟩ | ⟨tail, htail⟩
  · obtain ⟨head, rest, rfl, hhead, -⟩ := List.map_eq_append_iff.mp htail.symm
    simp only [String.reduceToList, List.map_eq_cons_iff, List.map_eq_nil_iff] at hhead
    obtain ⟨a, _, rfl, ha, b, _, rfl, hb, c, _, rfl, hc, d, _, rfl, hd, e, _, rfl, he, f, _, rfl,
      hf, g, _, rfl, hg, rfl⟩ := hhead
    obtain rfl := eq_of_toLower he (by decide)
    obtain rfl := eq_of_toLower hf (by decide)
    obtain rfl := eq_of_toLower hg (by decide)
    have hna := ne_of_toLower ha (by decide)
    have hnb := ne_of_toLower hb (by decide)
    have hnc := ne_of_toLower hc (by decide)
    have hnd := ne_of_toLower hd (by decide)
    simp only [List.cons_append, List.nil_append]
    rw [collapse_substitute_cons _ hna.2.1 fun h => absurd h hna.1,
      collapse_substitute_cons _ hnb.2.1 fun h => absurd h hnb.1,
      collapse_substitute_cons _ hnc.2.1 fun h => absurd h hnc.1,
      collapse_substitute_cons _ hnd.2.1 fun h => absurd h hnd.1,
      collapse_substitute_cons _ (by decide) fun _ => rfl,
      collapse_substitute_cons _ (by decide) fun h => absurd h (by decide),
      collapse_substitute_cons _ (by decide) fun h => absurd h (by decide)]
    refine ⟨?_, ?_, by simp⟩
    · simp [hasHttpScheme, ha, hb, hc, hd, he, hf]
    · simpa using hna.2.2
  · obtain ⟨head, rest, rfl, hhead, -⟩ := List.map_eq_append_iff.mp htail.symm
    simp only [String.reduceToList, List.map_eq_cons_iff, List.map_eq_nil_iff] at hhead
    obtain ⟨a, _, rfl, ha, b, _, rfl, hb, c, _, rfl, hc, d, _, rfl, hd, e, _, rfl, he, f, _, rfl,
      hf, g, _, rfl, hg, k, _, rfl, hk, rfl⟩ := hhead
    obtain rfl := eq_of_toLower hf (by decide)
    obtain rfl := eq_of_toLower hg (by decide)
    obtain rfl := eq_of_toLower hk (by decide)
    have hna := ne_of_toLower ha (by decide)
    have hnb := ne_of_toLower hb (by decide)
    have hnc := ne_of_toLower hc (by decide)
    have hnd := ne_of_toLower hd (by decide)
    have hne := ne_of_toLower he (by decide)
    simp only [List.cons_append, List.nil_append]
    rw [collapse_substitute_cons _ hna.2.1 fun h => absurd h hna.1,
      collapse_substitute_cons _ hnb.2.1 fun h => absurd h hnb.1,
      collapse_substitute_cons _ hnc.2.1 fun h => absurd h hnc.1,
      collapse_substitute_cons _ hnd.2.1 fun h => absurd h hnd.1,
      collapse_substitute_cons _ hne.2.1 fun h => absurd h hne.1,
      collapse_substitute_cons _ (by decide) fun _ => rfl,
      collapse_substitute_cons _ (by decide) fun h => absurd h (by decide),
      collapse_substitute_cons _ (by decide) fun h => absurd h (by decide)]
    refine ⟨?_, ?_, by simp⟩
    · simp [hasHttpScheme, ha, hb, hc, hd, he, hf, hg]
    · simpa using hna.2.2

/-! ## Credentials -/

/-- The texts of the credentials that are written. -/
def authTexts : AuthConfig → List Text
  | .bearer a => [a.token.toList]
  | .basic a => [a.username.toList, a.password.toList]
  | .digest a => [a.username.toList, a.password.toList]
  | _ => []

/-- Neither an API key nor a scheme that the host signs: these write a header or a parameter under
a name of their own. -/
def WritesNoItem : AuthConfig → Prop
  | .apiKey a => a.enabled = false
  | .awsSigV4 a => a.enabled = false
  | .oauth1 a => a.enabled = false
  | _ => True

/-- The header of a bearer token, as it is read back. -/
def bearerRows : AuthConfig → List CurlHeader
  | .bearer a =>
    if a.enabled then
      [⟨"Authorization".toList, collapse ("Bearer ".toList ++ a.token.toList)⟩]
    else []
  | _ => []

/-- The user and the password behind `-a`, as they are read back. -/
def writtenCredentials : AuthConfig → Option Text
  | .basic a =>
    if a.enabled then some (collapse (a.username.toList ++ ':' :: a.password.toList)) else none
  | .digest a =>
    if a.enabled then some (collapse (a.username.toList ++ ':' :: a.password.toList)) else none
  | _ => none

/-- The command begins with a comment. -/
def isNtlm : AuthConfig → Bool
  | .ntlm a => a.enabled
  | _ => false

/-- What the credentials add to a command. -/
structure AuthWritten (upper : Text → Text) (auth : AuthConfig) (parts : AuthParts) : Prop where
  noQuery : parts.extraQuery = []
  headers : parts.extraHeaders.map (fun h => collapse (headerArg h)) =
    (bearerRows auth).map headerArg
  flags : ∃ words, List.Forall₂ Spells parts.flags words ∧ ∀ ts,
    readTokens upper {} (words.flatten ++ ts) =
      readTokens upper { basicCreds := writtenCredentials auth } ts
  note : parts.note = if isNtlm auth then some ntlmNote else none

theorem spells_credentialsFlag (username password : Text) :
    Spells (credentialsFlag username password)
      ["-a".toList, collapse (username ++ ':' :: password)] :=
  (Spells.plain (w := "-a".toList) (by decide)).append (.quote _) isGap_blank

theorem spells_digest : Spells "-A digest".toList ["-A".toList, "digest".toList] :=
  (Spells.plain (w := "-A".toList) (by decide)).append
    (Spells.plain (w := "digest".toList) (by decide)) isGap_blank

theorem collapse_bearerHeader (token : Text) : collapse (headerArg (bearerHeader token)) =
    headerArg ⟨"Authorization".toList, collapse ("Bearer ".toList ++ token)⟩ := by
  have hplain : ∀ (w t : Text), (∀ c ∈ w, c ≠ '\\') → collapse (w ++ t) = w ++ collapse t := by
    intro w t hw
    induction w with
    | nil => rfl
    | cons c w ih =>
      rw [List.cons_append, collapse_cons (Or.inl (hw c List.mem_cons_self)),
        ih fun d hd => hw d (List.mem_cons_of_mem c hd)]
      rfl
  have hname : headerArg (bearerHeader token) =
      "Authorization:".toList ++ ("Bearer ".toList ++ token) := rfl
  rw [hname, hplain _ _ (by decide)]
  rfl

theorem authWritten_nothing {upper : Text → Text} {auth : AuthConfig}
    (hrows : bearerRows auth = []) (hcreds : writtenCredentials auth = none)
    (hntlm : isNtlm auth = false) : AuthWritten upper auth {} where
  noQuery := rfl
  headers := by rw [hrows]; rfl
  flags := ⟨[], .nil, fun ts => by rw [hcreds]; rfl⟩
  note := by rw [hntlm]; rfl

theorem readTokens_credentials (upper : Text → Text) (st : Scan) (creds : Text) (ts : List Text) :
    readTokens upper st ("-a".toList :: creds :: ts) =
      readTokens upper { st with basicCreds := some creds } ts := by
  rw [readTokens.eq_def]
  dsimp only
  rw [if_pos (Or.inl rfl)]

theorem readTokens_digest (upper : Text → Text) (st : Scan) (ts : List Text) :
    readTokens upper st ("-A".toList :: "digest".toList :: ts) = readTokens upper st ts := by
  rw [readTokens.eq_def]
  dsimp only
  rw [if_neg (by decide), if_neg (by decide), if_neg (by decide), if_neg (by decide),
    if_pos (Or.inl rfl)]

/-- Credentials that write no item of their own. -/
theorem buildAuthParts_written {ctx : ResolveCtx} {auth : AuthConfig} (upper : Text → Text)
    (hres : ∀ text ∈ authTexts auth, ∀ site, resolveStr ctx site text = .ok text)
    (hno : WritesNoItem auth) :
    ∃ parts, buildAuthParts ctx auth = .ok parts ∧ AuthWritten upper auth parts := by
  rw [buildAuthParts]
  cases hdisabled : authDisabled auth with
  | true =>
    refine ⟨{}, rfl, ?_⟩
    have hoff : auth.isEnabled = false := by simpa [authDisabled] using hdisabled
    apply authWritten_nothing <;> cases auth <;>
      simp_all [AuthConfig.isEnabled, bearerRows, writtenCredentials, isNtlm]
  | false =>
    have hon : auth.isEnabled = true := by simpa [authDisabled] using hdisabled
    rw [if_neg Bool.false_ne_true]
    cases auth with
    | none => exact ⟨{}, rfl, authWritten_nothing rfl rfl rfl⟩
    | inherit source => exact ⟨{}, rfl, authWritten_nothing rfl rfl rfl⟩
    | oauth2 a => exact ⟨{}, rfl, authWritten_nothing rfl rfl rfl⟩
    | apiKey a => exact absurd (hno.symm.trans hon) (by simp)
    | awsSigV4 a => exact absurd (hno.symm.trans hon) (by simp)
    | oauth1 a => exact absurd (hno.symm.trans hon) (by simp)
    | ntlm a =>
      refine ⟨{ note := some ntlmNote }, rfl, rfl, rfl, ⟨[], .nil, fun ts => rfl⟩, ?_⟩
      rw [show isNtlm (.ntlm a) = true from hon]
      rfl
    | bearer a =>
      refine ⟨{ extraHeaders := [bearerHeader a.token.toList] }, ?_, rfl, ?_,
        ⟨[], .nil, fun ts => rfl⟩, rfl⟩
      · rw [schemeParts, hres _ (by simp [authTexts])]
        rfl
      · rw [bearerRows, if_pos (show a.enabled = true from hon)]
        exact congrArg (· :: []) (collapse_bearerHeader a.token.toList)
    | basic a =>
      refine ⟨{ flags := [credentialsFlag a.username.toList a.password.toList] }, ?_, rfl, rfl,
        ⟨[_], .cons (spells_credentialsFlag _ _) .nil, fun ts => ?_⟩, rfl⟩
      · rw [schemeParts, hres _ (by simp [authTexts])]
        show (do
          let pass ← resolveStr ctx [1, 3] a.password.toList
          return ({ flags := [credentialsFlag a.username.toList pass] } : AuthParts)) = _
        rw [hres _ (by simp [authTexts])]
        rfl
      · rw [writtenCredentials, if_pos (show a.enabled = true from hon)]
        exact readTokens_credentials upper {} _ ts
    | digest a =>
      refine ⟨{ flags := ["-A digest".toList,
          credentialsFlag a.username.toList a.password.toList] }, ?_, rfl, rfl,
        ⟨[_, _], .cons spells_digest (.cons (spells_credentialsFlag _ _) .nil), fun ts => ?_⟩, rfl⟩
      · rw [schemeParts, hres _ (by simp [authTexts])]
        show (do
          let pass ← resolveStr ctx [1, 3] a.password.toList
          return ({ flags := ["-A digest".toList,
            credentialsFlag a.username.toList pass] } : AuthParts)) = _
        rw [hres _ (by simp [authTexts])]
        rfl
      · rw [writtenCredentials, if_pos (show a.enabled = true from hon)]
        exact (readTokens_digest upper {} _).trans (readTokens_credentials upper {} _ ts)

/-! ## Tokens -/

theorem isGap_indent : IsGap [' ', ' '] :=
  ⟨by simp, by simp [collapse], by simp [collapse]; decide⟩

/-- The head and the items of a command. -/
theorem tokenize_commandLines {flags : List Text} {words : List (List Text)} {method : Text}
    (url : Text) (items : List Text) (hflags : List.Forall₂ Spells flags words)
    (hmethod : isPlainWord method = true) :
    shellTokenize (commandLines ("http".toList :: flags ++ [method, shellQuote url])
      (items.map shellQuote)) =
      some ("http".toList :: words.flatten ++ method :: collapse url :: items.map collapse) := by
  have hparts : List.Forall₂ Spells ("http".toList :: flags ++ [method, shellQuote url])
      (["http".toList] :: words ++ [[method], [collapse url]]) :=
    .cons (.plain (by decide)) (List.rel_append hflags
      (.cons (.plain hmethod) (.cons (.quote url) .nil)))
  have hhead := Spells.intercalate isGap_blank hparts
  have hitems : List.Forall₂ Spells ((items.map shellQuote).map (' ' :: ' ' :: ·))
      (items.map fun item => [collapse item]) := by
    rw [List.map_map, List.forall₂_map_left_iff, List.forall₂_map_right_iff]
    refine List.forall₂_same.mpr fun item _ => ?_
    exact (Spells.quote item).indent isGap_indent
  rw [commandLines, (Spells.intercalate isGap_continued (.cons hhead hitems)).tokenize]
  simp only [List.flatten_cons, List.flatten_append, List.flatten_nil, List.append_nil,
    ← List.flatMap_def, ← List.map_eq_flatMap, List.cons_append, List.nil_append,
    List.append_assoc]

/-- The tokens that were pushed stay. -/
theorem scan_prefix {quoting : Quoting} {st : Curl.Scan} {s : Text} {tokens : List Text}
    (h : scan quoting st s = some tokens) : st.tokens <+: tokens := by
  have hpush : ∀ st : Curl.Scan, st.tokens <+: st.pushToken.tokens := by
    intro st
    rw [Curl.Scan.pushToken]
    split_ifs
    · exact List.prefix_append _ _
    · exact List.prefix_rfl
  fun_induction scan quoting st s with
  | case1 st =>
    cases h
    exact hpush st
  | case6 st c rest _ _ _ _ _ ih => exact (hpush st).trans (ih h)
  | case8 => cases h
  | case12 => cases h
  | case17 => cases h
  | case2 _ _ ih | case3 _ _ ih | case4 _ _ ih | case5 _ _ _ ih | case7 _ _ _ _ _ _ _ _ ih
  | case9 _ _ ih | case10 _ _ _ ih | case11 _ _ _ _ _ ih | case13 _ _ ih | case14 _ _ _ _ ih
  | case15 _ _ _ _ ih | case16 _ _ _ _ _ ih | case18 _ _ ih | case19 _ _ _ _ _ ih
  | case20 _ _ _ _ ih | case21 _ _ _ _ _ ih => exact ih h

/-- A command that begins with a comment is not read. -/
theorem parse_comment (upper lower : Text → Text) (text : Text) :
    parseHttpieCommand upper lower ('#' :: ' ' :: text) = none := by
  have hcollapse : collapse ('#' :: ' ' :: text) = '#' :: ' ' :: collapse text := by
    rw [collapse_cons (Or.inl (by decide)), collapse_cons (Or.inl (by decide))]
  rw [parseHttpieCommand, shellTokenize, hcollapse]
  cases hscan : scan .bare ⟨[], [], false⟩ ('#' :: ' ' :: collapse text) with
  | none => rfl
  | some tokens =>
    have hstart : scan .bare ⟨[], [], false⟩ ('#' :: ' ' :: collapse text) =
        scan .bare ⟨[['#']], [], false⟩ (collapse text) := by
      rw [scan_bare_cons (by decide) (by simp), scan_bare_space (by decide)]
      rfl
    rw [hstart] at hscan
    obtain ⟨rest, rfl⟩ := scan_prefix hscan
    rfl

end Voleeo.Httpie
