import Voleeo.Send.UriDecoding

/-!
# Query rows of the editor

The editor reads rows out of the query of a URL and writes them back into it. Names and values are
encoded, except for the templates in a value; reading splits the query before it decodes the parts,
and throws on a part that is not well encoded.
-/
namespace Voleeo.Send

/-- A row; the keys under which it is rendered and stored are left out. -/
structure QueryRow where
  key : Text
  value : Text
  enabled : Bool
  deriving DecidableEq

/-- One part of a query, `none` where decoding throws. -/
def parsePart (part : Text) : Option (Text × Text) :=
  if '=' ∈ part then do
    let key ← decodeURIComponent (part.takeWhile (· ≠ '='))
    let value ← decodeURIComponent (part.dropWhile (· ≠ '=')).tail
    return (key, value)
  else do
    let key ← decodeURIComponent part
    return (key, [])

def parseQueryString (qs : Text) : Option (List (Text × Text)) := do
  let parts ← ((qs.splitOn '&').filter (· ≠ [])).mapM parsePart
  return parts.filter fun p => trim p.1 ≠ []

/-- The query that the rows are read from. -/
def rowsText (url : Text) : Text := ((url.dropWhile (· ≠ '?')).tail).takeWhile (· ≠ '#')

def parseQueryRows (url : Text) : Option (List QueryRow) :=
  if '?' ∈ url then (parseQueryString (rowsText url)).map (·.map fun p => ⟨p.1, p.2, true⟩)
  else some []

def rowText (r : QueryRow) : Text :=
  if r.value ≠ [] then encodeURIComponent r.key ++ '=' :: encodeQueryValue r.value
  else encodeURIComponent r.key

def buildUrl (url : Text) (rows : List QueryRow) : Text :=
  let base := (url.takeWhile (· ≠ '?')).takeWhile (· ≠ '#')
  let hash :=
    if '#' ∈ url then '#' :: ((url.dropWhile (· ≠ '#')).tail).takeWhile (· ≠ '#') else []
  let filled := rows.filter fun r => trim r.key ≠ [] && r.enabled
  if filled = [] then base ++ hash
  else base ++ '?' :: (List.intercalate ['&'] (filled.map rowText) ++ hash)

example : (parseQueryRows "h://x?a=1%20&b=".toList).map (buildUrl "h://x#f".toList) =
    some "h://x?a=1%20&b#f".toList := by decide

/-! ## Reading without an exception -/

theorem parsePart_ne_none_iff (part : Text) : parsePart part ≠ none ↔ WellEncoded part := by
  rw [parsePart]
  split_ifs with hsign
  · obtain ⟨key, value, rfl, hkey⟩ := List.eq_append_cons_of_mem hsign
    have hall : ∀ c ∈ key, decide (c ≠ '=') = true := fun c hc =>
      decide_eq_true (ne_of_mem_of_not_mem hc hkey)
    rw [List.takeWhile_append_of_pos hall, List.dropWhile_append_of_pos hall,
      List.takeWhile_cons_of_neg (by decide), List.dropWhile_cons_of_neg (by decide),
      List.append_nil, List.tail_cons, wellEncoded_separator (by decide) (by decide),
      ← decode_ne_none_iff, ← decode_ne_none_iff]
    cases decodeURIComponent key <;> cases decodeURIComponent value <;> simp
  · rw [← decode_ne_none_iff]
    cases decodeURIComponent part <;> simp

theorem wellEncoded_intercalate {parts : List Text} (hne : parts ≠ []) :
    WellEncoded (List.intercalate ['&'] parts) ↔ ∀ part ∈ parts, WellEncoded part := by
  induction parts with
  | nil => exact absurd rfl hne
  | cons part parts ih =>
    cases parts with
    | nil => rw [List.intercalate_singleton]; simp
    | cons next parts =>
      rw [List.intercalate_cons_cons, List.append_assoc, List.singleton_append,
        wellEncoded_separator (by decide) (by decide), ih (List.cons_ne_nil _ _),
        List.forall_mem_cons (a := part)]

theorem mapM_ne_none_iff {α β : Type} {f : α → Option β} {l : List α} :
    l.mapM f ≠ none ↔ ∀ a ∈ l, f a ≠ none := by
  induction l with
  | nil => simp
  | cons a l ih =>
    rw [List.mapM_cons, List.forall_mem_cons, ← ih]
    cases f a <;> cases l.mapM f <;> simp

/-- Reading does not throw exactly when every percent sign of the query begins a character. -/
theorem parseQueryRows_ne_none_iff (url : Text) :
    parseQueryRows url ≠ none ↔ WellEncoded (rowsText url) := by
  rw [parseQueryRows]
  split_ifs with hquestion
  · have hsplit : List.intercalate ['&'] ((rowsText url).splitOn '&') = rowsText url :=
      List.intercalate_splitOn '&'
    have hempty : ∀ part : Text, (part ≠ [] → WellEncoded part) ↔ WellEncoded part := fun part =>
      ⟨fun h => if hpart : part = [] then hpart ▸ .nil else h hpart, fun h _ => h⟩
    have hparts : (((rowsText url).splitOn '&').filter (· ≠ [])).mapM parsePart ≠ none ↔
        WellEncoded (rowsText url) := by
      conv_rhs => rw [← hsplit, wellEncoded_intercalate (List.splitOn_ne_nil _ _)]
      simp only [mapM_ne_none_iff, List.mem_filter, parsePart_ne_none_iff, decide_eq_true_eq,
        and_imp, hempty]
    rw [Ne, Option.map_eq_none_iff, ← Ne, parseQueryString, ← hparts]
    cases (((rowsText url).splitOn '&').filter (· ≠ [])).mapM parsePart <;> simp
  · have hnone : rowsText url = [] := by
      have hall : ∀ c ∈ url, decide (c ≠ '?') = true := fun c hc =>
        decide_eq_true (ne_of_mem_of_not_mem hc hquestion)
      rw [rowsText, List.dropWhile_eq_nil_iff.mpr hall]
      rfl
    rw [hnone]
    exact iff_of_true nofun .nil

/-! ## Values -/

/-- Nothing that separates parts of a query, or that is decoded. -/
def UntouchedTemplate (m : Text) : Prop := '&' ∉ m ∧ '#' ∉ m ∧ '%' ∉ m

theorem untouchedTemplate_brace {front : Text} :
    UntouchedTemplate (front ++ ['}']) ↔ UntouchedTemplate front := by
  simp [UntouchedTemplate]

theorem cut_brace {front : Text} (h : ¬ ('&' ∈ front ∨ '#' ∈ front)) (t : Text) :
    cut (front ++ '}' :: t) = front ++ '}' :: cut t := by
  rw [not_or] at h
  rw [cut_append h.1 h.2, ← List.singleton_append, cut_append (by decide) (by decide)]
  rfl

theorem length_readBack {v t : Text}
    (h : decodeURIComponent (cut (encodeQueryValue v)) = some t) : t.length ≤ v.length := by
  induction v using value_induction generalizing t with
  | nil =>
    obtain rfl := Option.some.inj h
    exact le_rfl
  | template front rest ih hvalue _ =>
    rw [hvalue] at h
    by_cases hcut : '&' ∈ front ∨ '#' ∈ front
    · have hle := (length_decode h).1
      have hprefix := List.IsPrefix.length_le <| cut_prefix hcut ('}' :: encodeQueryValue rest)
      rw [List.length_append]
      omega
    · rw [cut_brace hcut, decode_separator (by decide) hexValue_brace] at h
      obtain ⟨a, ha, h⟩ := Option.bind_eq_some_iff.mp h
      obtain ⟨b, hb, rfl⟩ := Option.map_eq_some_iff.mp h
      have hfront := (length_decode ha).1
      have hrest := ih hb
      simp only [List.length_append, List.length_cons]
      omega
  | char c rest ih hvalue _ =>
    rw [hvalue, cut_encodedChar, decode_percentEncodeChar] at h
    obtain ⟨b, hb, rfl⟩ := Option.map_eq_some_iff.mp h
    exact Nat.succ_le_succ (ih hb)

/-- A value is read back exactly when its templates are untouched. -/
theorem readBack_iff (v : Text) :
    decodeURIComponent (cut (encodeQueryValue v)) = some v ↔
      ∀ m ∈ queryTemplates v, UntouchedTemplate m := by
  induction v using value_induction with
  | nil => exact iff_of_true rfl (by simp [queryTemplates, queryTemplatesFrom])
  | template front rest ih hvalue htemplates =>
    rw [hvalue, htemplates, List.forall_mem_cons, untouchedTemplate_brace, ← ih]
    by_cases hcut : '&' ∈ front ∨ '#' ∈ front
    · refine iff_of_false (fun heq => ?_) fun h => hcut.elim h.1.1 h.1.2.1
      have hle := (length_decode heq).1
      have hprefix := List.IsPrefix.length_le <| cut_prefix hcut ('}' :: encodeQueryValue rest)
      simp only [List.length_append, List.length_cons] at hle
      omega
    · rw [cut_brace hcut, decode_separator (by decide) hexValue_brace]
      rw [not_or] at hcut
      constructor
      · intro h
        obtain ⟨a, ha, h⟩ := Option.bind_eq_some_iff.mp h
        obtain ⟨b, hb, heq⟩ := Option.map_eq_some_iff.mp h
        have hfront := (length_decode ha).1
        have hrest := length_readBack hb
        have hlen := congrArg List.length heq
        simp only [List.length_append, List.length_cons] at hlen
        obtain ⟨rfl, htail⟩ := List.append_inj heq (by omega)
        obtain rfl := (List.cons.inj htail).2
        exact ⟨⟨hcut.1, hcut.2, (length_decode ha).2.mp rfl⟩, hb⟩
      · rintro ⟨⟨-, -, hpercent⟩, hrest⟩
        have hself : decodeURIComponent front = some front := by
          have hgood : WellEncoded front := by
            clear hvalue htemplates hcut
            induction front with
            | nil => exact .nil
            | cons c front ih =>
              rw [List.mem_cons, not_or] at hpercent
              exact .plain (Ne.symm hpercent.1) (ih hpercent.2)
          obtain ⟨a, ha⟩ := Option.ne_none_iff_exists'.mp ((decode_ne_none_iff front).mpr hgood)
          rw [ha, (length_decode ha).2.mpr hpercent]
        rw [hself, hrest]
        rfl
  | char c rest ih hvalue htemplates =>
    rw [hvalue, htemplates, cut_encodedChar, decode_percentEncodeChar, ← ih]
    cases decodeURIComponent (cut (encodeQueryValue rest)) <;> simp

/-! ## Rows -/

/-- The row is read back: its value holds no template that reading cuts, splits or decodes. -/
def QueryRow.Untouched (r : QueryRow) : Prop := ∀ m ∈ queryTemplates r.value, UntouchedTemplate m

variable {r : QueryRow} {rows : List QueryRow}

theorem cut_rowText (r : QueryRow) : cut (rowText r) =
    if r.value ≠ [] then encodeURIComponent r.key ++ '=' :: cut (encodeQueryValue r.value)
    else encodeURIComponent r.key := by
  rw [rowText]
  split_ifs
  · exact QueryPiece.cut_value r.key r.value
  · have hcut := QueryPiece.cut_name r.key []
    rw [List.append_nil] at hcut
    rw [hcut]
    exact List.append_nil _

theorem decode_key (key : Text) : decodeURIComponent (encodeURIComponent key) = some key := by
  have h := decode_encodeURIComponent key []
  rw [List.append_nil] at h
  rw [h]
  simp [decodeURIComponent, decodeUriFrom]

theorem parsePart_cut (r : QueryRow) : parsePart (cut (rowText r)) =
    if r.value ≠ [] then
      (decodeURIComponent (cut (encodeQueryValue r.value))).map fun value => (r.key, value)
    else some (r.key, []) := by
  have hsign : '=' ∉ encodeURIComponent r.key :=
    QueryPiece.not_mem_name (by decide) (by decide) r.key
  have hall : ∀ c ∈ encodeURIComponent r.key, decide (c ≠ '=') = true := fun c hc =>
    decide_eq_true (ne_of_mem_of_not_mem hc hsign)
  rw [cut_rowText]
  by_cases hvalue : r.value ≠ []
  · rw [if_pos hvalue, if_pos hvalue, parsePart, if_pos (by simp),
      List.takeWhile_append_of_pos hall, List.dropWhile_append_of_pos hall,
      List.takeWhile_cons_of_neg (by decide), List.dropWhile_cons_of_neg (by decide),
      List.append_nil, List.tail_cons, decode_key]
    cases decodeURIComponent (cut (encodeQueryValue r.value)) <;> rfl
  · rw [if_neg hvalue, if_neg hvalue, parsePart, if_neg hsign, decode_key]
    rfl

theorem parsePart_cut_iff (r : QueryRow) :
    parsePart (cut (rowText r)) = some (r.key, r.value) ↔ r.Untouched := by
  rw [parsePart_cut, QueryRow.Untouched]
  split_ifs with hvalue
  · rw [← readBack_iff]
    cases decodeURIComponent (cut (encodeQueryValue r.value)) <;> simp
  · rw [not_not.mp hvalue]
    exact iff_of_true rfl (by simp [queryTemplates, queryTemplatesFrom])

/-- A part that was read, in front of the later ones; a blank key is left out. -/
def withPart (p : Text × Text) (later : List (Text × Text)) : List (Text × Text) :=
  if trim p.1 ≠ [] then p :: later else later

theorem parseQueryString_part {part : Text} (hamp : '&' ∉ part) (hne : part ≠ []) :
    parseQueryString part = (parsePart part).map fun p => withPart p [] := by
  rw [parseQueryString, List.splitOn_eq_singleton hamp, List.filter_cons_of_pos (by simpa using hne),
    List.mapM_cons]
  cases parsePart part with
  | none => rfl
  | some p => simp [withPart, List.filter_cons]

theorem parseQueryString_append {part : Text} (hamp : '&' ∉ part) (hne : part ≠ []) (rest : Text) :
    parseQueryString (part ++ '&' :: rest) = (parsePart part).bind fun p =>
      (parseQueryString rest).map (withPart p) := by
  rw [parseQueryString, List.splitOn_append_cons_self_of_not_mem hamp,
    List.filter_cons_of_pos (by simpa using hne), List.mapM_cons, parseQueryString]
  cases parsePart part with
  | none => rfl
  | some p =>
    cases ((rest.splitOn '&').filter (· ≠ [])).mapM parsePart with
    | none => rfl
    | some ps => simp [withPart, List.filter_cons]

/-- What comes of a query by its first part. -/
theorem parseQueryString_first {s : Text} {ps : List (Text × Text)}
    (h : s.takeWhile (· ≠ '&') ≠ []) (hparse : parseQueryString s = some ps) :
    ∃ p later, parsePart (s.takeWhile (· ≠ '&')) = some p ∧ ps = withPart p later := by
  have hsplit := List.takeWhile_append_dropWhile (p := (· ≠ '&')) (l := s)
  have hamp : '&' ∉ s.takeWhile (· ≠ '&') := by
    intro hmem
    simpa using List.mem_takeWhile_imp hmem
  cases hrest : s.dropWhile (· ≠ '&') with
  | nil =>
    rw [hrest, List.append_nil] at hsplit
    rw [hsplit] at h hamp ⊢
    rw [parseQueryString_part hamp h] at hparse
    obtain ⟨p, hp, rfl⟩ := Option.map_eq_some_iff.mp hparse
    exact ⟨p, [], hp, rfl⟩
  | cons c rest =>
    have hc := List.head?_dropWhile_not (· ≠ '&') s
    rw [hrest] at hc
    obtain rfl : c = '&' := by simpa using hc
    rw [← hsplit, hrest, parseQueryString_append hamp h] at hparse
    obtain ⟨p, hp, hparse⟩ := Option.bind_eq_some_iff.mp hparse
    obtain ⟨later, -, rfl⟩ := Option.map_eq_some_iff.mp hparse
    exact ⟨p, later, hp, rfl⟩

theorem key_ne_nil (hkey : trim r.key ≠ []) : r.key ≠ [] := by
  intro h
  rw [h] at hkey
  exact hkey rfl

theorem cut_rowText_ne_nil (hkey : trim r.key ≠ []) : cut (rowText r) ≠ [] := by
  have hname : encodeURIComponent r.key ≠ [] := percentEncode_ne_nil (key_ne_nil hkey)
  rw [cut_rowText]
  split_ifs
  · simp
  · exact hname

theorem QueryRow.Untouched.not_mem (h : r.Untouched) : '&' ∉ rowText r ∧ '#' ∉ rowText r := by
  have hnot : ∀ d : Char, isUriMark d = false → d ≠ '%' → d ≠ '}' → d ≠ '=' →
      (∀ m, UntouchedTemplate m → d ∉ m) → d ∉ rowText r := by
    intro d hkeep hpercent hbrace hsign hm
    have hname := QueryPiece.not_mem_name hkeep hpercent r.key
    rw [rowText]
    split_ifs
    · rw [List.mem_append, List.mem_cons, not_or, not_or]
      exact ⟨hname, hsign, not_mem_encodeQueryValue hkeep hpercent hbrace
        fun m hmem => hm m (h m hmem)⟩
    · exact hname
  exact ⟨hnot '&' (by decide) (by decide) (by decide) (by decide) fun m hm => hm.1,
    hnot '#' (by decide) (by decide) (by decide) (by decide) fun m hm => hm.2.1⟩

def QueryRow.pair (r : QueryRow) : Text × Text := (r.key, r.value)

theorem withPart_pair (hkey : trim r.key ≠ []) (later : List (Text × Text)) :
    withPart r.pair later = r.pair :: later := if_pos hkey

/-- The rows are read back exactly when all of them are untouched. -/
theorem parseQueryString_rows_iff (hkeys : ∀ r ∈ rows, trim r.key ≠ []) :
    parseQueryString ((List.intercalate ['&'] (rows.map rowText)).takeWhile (· ≠ '#')) =
        some (rows.map QueryRow.pair) ↔ ∀ r ∈ rows, r.Untouched := by
  induction rows with
  | nil => exact iff_of_true rfl (by simp)
  | cons r rows ih =>
    rw [List.forall_mem_cons] at hkeys ⊢
    obtain ⟨hkey, hrest⟩ := hkeys
    have hne := cut_rowText_ne_nil hkey
    by_cases hr : r.Untouched
    · obtain ⟨hamp, hsharp⟩ := hr.not_mem
      have hpart := (parsePart_cut_iff r).mpr hr
      rw [cut_of_not_mem hamp hsharp] at hpart hne
      have hall : ∀ c ∈ rowText r, decide (c ≠ '#') = true :=
        fun c hc => decide_eq_true (ne_of_mem_of_not_mem hc hsharp)
      rw [and_iff_right hr, ← ih hrest]
      cases rows with
      | nil =>
        rw [List.map_singleton, List.intercalate_singleton, List.takeWhile_eq_self_iff.mpr hall,
          parseQueryString_part hamp hne, hpart]
        exact iff_of_true (congrArg some (withPart_pair hkey [])) rfl
      | cons next rows =>
        rw [List.map_cons, List.map_cons, List.intercalate_cons_cons, List.append_assoc,
          List.singleton_append, List.takeWhile_append_of_pos hall,
          List.takeWhile_cons_of_pos (by decide), parseQueryString_append hamp hne, hpart,
          Option.bind_some, ← List.map_cons, List.map_cons (f := QueryRow.pair)]
        have hwith : withPart (r.key, r.value) = (r.pair :: ·) := funext (withPart_pair hkey)
        rw [hwith, Option.map_eq_some_iff]
        simp
    · refine iff_of_false (fun hparse => hr ?_) fun h => hr h.1
      have hfirst : ((List.intercalate ['&'] ((r :: rows).map rowText)).takeWhile
          (· ≠ '#')).takeWhile (· ≠ '&') = cut (rowText r) := by
        rw [takeWhile_takeWhile_eq_cut]
        cases rows with
        | nil => rw [List.map_singleton, List.intercalate_singleton]
        | cons next rows =>
          rw [List.map_cons, List.map_cons, List.intercalate_cons_cons, List.append_assoc,
            List.singleton_append, cut_amp]
      obtain ⟨p, later, hp, heq⟩ := parseQueryString_first (by rwa [hfirst]) hparse
      rw [hfirst] at hp
      have hname : p.1 = r.key := by
        rw [parsePart_cut] at hp
        split_ifs at hp
        · obtain ⟨_, _, rfl⟩ := Option.map_eq_some_iff.mp hp
          rfl
        · rw [← Option.some.inj hp]
      rw [withPart, hname, if_pos hkey, List.map_cons] at heq
      rw [← (List.cons.inj heq).1] at hp
      exact (parsePart_cut_iff r).mp hp

/-! ## Text and rows -/

/-- Rows that are written and read again come back, and are written the same again. -/
def RowsKept (base : Text) (rows : List QueryRow) : Prop :=
  parseQueryRows (buildUrl base rows) = some rows ∧
    buildUrl (buildUrl base rows) rows = buildUrl base rows

theorem takeWhile_ne_of_not_mem {c : Char} {s : Text} (h : c ∉ s) (t : Text) :
    (s ++ t).takeWhile (· ≠ c) = s ++ t.takeWhile (· ≠ c) :=
  List.takeWhile_append_of_pos fun _ hd => decide_eq_true (ne_of_mem_of_not_mem hd h)

theorem dropWhile_ne_of_not_mem {c : Char} {s : Text} (h : c ∉ s) (t : Text) :
    (s ++ t).dropWhile (· ≠ c) = t.dropWhile (· ≠ c) :=
  List.dropWhile_append_of_pos fun _ hd => decide_eq_true (ne_of_mem_of_not_mem hd h)

variable {base : Text}

theorem buildUrl_eq {url : Text} (hsharp : '#' ∉ url)
    (hrows : ∀ r ∈ rows, trim r.key ≠ [] ∧ r.enabled = true) :
    buildUrl url rows = url.takeWhile (· ≠ '?') ++
      if rows = [] then [] else '?' :: List.intercalate ['&'] (rows.map rowText) := by
  have hbase : (url.takeWhile (· ≠ '?')).takeWhile (· ≠ '#') = url.takeWhile (· ≠ '?') :=
    List.takeWhile_eq_self_iff.mpr fun c hc => decide_eq_true
      (ne_of_mem_of_not_mem ((List.takeWhile_prefix _).subset hc) hsharp)
  have hfilled : (rows.filter fun r => trim r.key ≠ [] && r.enabled) = rows :=
    List.filter_eq_self.mpr fun r hr => by simpa using hrows r hr
  rw [buildUrl, hbase, if_neg hsharp, hfilled]
  split_ifs <;> simp

theorem rowsKept_iff (hquestion : '?' ∉ base) (hsharp : '#' ∉ base)
    (hrows : ∀ r ∈ rows, trim r.key ≠ [] ∧ r.enabled = true) :
    RowsKept base rows ↔ ∀ r ∈ rows, r.Untouched := by
  have hpairs : ((rows.map QueryRow.pair).map fun p => (⟨p.1, p.2, true⟩ : QueryRow)) = rows := by
    rw [List.map_map]
    refine List.map_congr_left (g := id) (fun r hr => ?_) |>.trans (List.map_id rows)
    exact congrArg (QueryRow.mk r.key r.value) (hrows r hr).2.symm
  have hbase : base.takeWhile (· ≠ '?') = base := by
    have htake := takeWhile_ne_of_not_mem hquestion []
    rwa [List.append_nil, List.takeWhile_nil, List.append_nil] at htake
  by_cases hempty : rows = []
  · subst hempty
    refine iff_of_true ?_ (by simp)
    have hbuild : buildUrl base [] = base := by
      rw [buildUrl_eq hsharp (by simp), if_pos rfl, List.append_nil, hbase]
    rw [RowsKept, hbuild, hbuild, parseQueryRows, if_neg hquestion]
    exact ⟨rfl, rfl⟩
  · have hbuild := buildUrl_eq hsharp hrows
    rw [if_neg hempty, hbase] at hbuild
    have hread : parseQueryRows (buildUrl base rows) = some rows ↔ ∀ r ∈ rows, r.Untouched := by
      have htext : rowsText (buildUrl base rows) =
          (List.intercalate ['&'] (rows.map rowText)).takeWhile (· ≠ '#') := by
        rw [rowsText, hbuild, dropWhile_ne_of_not_mem hquestion,
          List.dropWhile_cons_of_neg (by decide), List.tail_cons]
      rw [parseQueryRows, hbuild, if_pos (by simp), ← hbuild, htext,
        ← parseQueryString_rows_iff fun r hr => (hrows r hr).1, Option.map_eq_some_iff]
      constructor
      · rintro ⟨ps, hps, heq⟩
        rw [hps]
        have hback := congrArg (List.map QueryRow.pair) heq
        rw [List.map_map] at hback
        exact congrArg some ((List.map_id ps).symm.trans hback)
      · exact fun h => ⟨_, h, hpairs⟩
    rw [RowsKept, hread]
    refine and_iff_left_of_imp fun hall => ?_
    -- No value brings a number sign into the URL.
    have hquery : '#' ∉ List.intercalate ['&'] (rows.map rowText) := by
      intro hmem
      rcases mem_intercalate hmem with heq | ⟨text, htext, hin⟩
      · exact absurd heq (by decide)
      · obtain ⟨r, hr, rfl⟩ := List.mem_map.mp htext
        exact (hall r hr).not_mem.2 hin
    have hurl : '#' ∉ base ++ '?' :: List.intercalate ['&'] (rows.map rowText) := by
      simp [hsharp, hquery]
    rw [hbuild, buildUrl_eq hurl hrows, if_neg hempty, takeWhile_ne_of_not_mem hquestion,
      List.takeWhile_cons_of_neg (by decide), List.append_nil]

/-- Reading throws exactly on a query that is not well encoded, and rows come back exactly when
their templates hold no ampersand, number sign or percent sign. -/
theorem queryRows_iff (url : Text) (hquestion : '?' ∉ base) (hsharp : '#' ∉ base)
    (hrows : ∀ r ∈ rows, trim r.key ≠ [] ∧ r.enabled = true) :
    (parseQueryRows url ≠ none ↔ WellEncoded (rowsText url)) ∧
      (RowsKept base rows ↔ ∀ r ∈ rows, r.Untouched) :=
  ⟨parseQueryRows_ne_none_iff url, rowsKept_iff hquestion hsharp hrows⟩

def plainRow : QueryRow where
  key := "a".toList
  value := "b&c".toList
  enabled := true

theorem queryRows_iff_plain :
    (parseQueryRows "h://x?a=%41".toList ≠ none ↔ WellEncoded (rowsText "h://x?a=%41".toList)) ∧
      (RowsKept "h://x".toList [plainRow] ↔ ∀ r ∈ [plainRow], r.Untouched) :=
  queryRows_iff _ (by decide) (by decide) (by decide)

/-- A percent sign that is being typed, and an ampersand inside a template. -/
theorem queryRows_fail : ¬ (∀ url, parseQueryRows url ≠ none) ∧
    ¬ ∀ (base : Text) (rows : List QueryRow), '?' ∉ base → '#' ∉ base →
      (∀ r ∈ rows, trim r.key ≠ [] ∧ r.enabled = true) → RowsKept base rows := by
  constructor
  · exact fun h => h "h://x?a=100%".toList (by decide)
  · intro h
    have hkept := h "h://x".toList [⟨"a".toList, "\x7b\x7bb&c\x7d\x7d".toList, true⟩] (by decide)
      (by decide) (by decide)
    exact absurd hkept.1 (by decide)

end Voleeo.Send
