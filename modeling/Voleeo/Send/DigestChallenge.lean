import Voleeo.Send.DigestParams

/-!
# The choice of a Digest challenge

A server may offer several challenges, one in a header value. An algorithm that is not
known is read as MD5, and the scheme is only looked at for its first six letters.
-/
namespace Voleeo.Digest
open AuthSyntax OrderedMap
open Resolve (isWhitespace strTrim)

inductive Algorithm
  | md5
  | md5Sess
  | sha256
  | sha256Sess
  deriving DecidableEq, Repr

namespace Algorithm

def parse (s : Text) : Option Algorithm :=
  match String.ofList ((strTrim s).map Char.toUpper) with
  | "MD5" => some md5
  | "MD5-SESS" => some md5Sess
  | "SHA-256" => some sha256
  | "SHA-256-SESS" => some sha256Sess
  | _ => none

def strength : Algorithm → ℕ
  | sha256 => 4
  | sha256Sess => 3
  | md5 => 2
  | md5Sess => 1

end Algorithm

inductive Qop
  | auth
  | authInt
  deriving DecidableEq, Repr

structure Challenge where
  realm : Text
  nonce : Text
  algorithm : Algorithm
  qop : Option Qop
  opaqueText : Option Text
  deriving DecidableEq, Repr

def parseQop (qop : Text) : Option Qop :=
  let opts := (qop.splitOn ',').map fun o => (strTrim o).map Char.toLower
  if opts.contains "auth".toList then some .auth
  else if opts.contains "auth-int".toList then some .authInt
  else none

/-- The challenge that the parameters make. -/
def challengeOf (param : Text → Option Text) : Option Challenge := do
  let realm ← param "realm".toList
  let nonce ← param "nonce".toList
  some {
    realm, nonce
    algorithm := ((param "algorithm".toList).bind Algorithm.parse).getD .md5
    qop := (param "qop".toList).bind parseQop
    opaqueText := param "opaque".toList }

def parseChallenge (headerValue : Text) : Option Challenge :=
  let rest := strTrim headerValue
  if (rest.take 6).map Char.toLower = "digest".toList then
    challengeOf (parseParams (rest.drop 6)).get?
  else none

/-- The last one of those with the greatest value. -/
def lastMaxBy {α : Type*} (f : α → ℕ) : List α → Option α
  | [] => none
  | x :: xs =>
    match lastMaxBy f xs with
    | none => some x
    | some y => if f x ≤ f y then some y else some x

attribute [local simp] lastMaxBy

def pickChallenge (values : List Text) : Option Challenge :=
  lastMaxBy (fun c => c.algorithm.strength) (values.filterMap parseChallenge)

/-! ## The last maximum -/

section
variable {α : Type*} {f : α → ℕ}

theorem lastMaxBy_eq_none {xs : List α} : lastMaxBy f xs = none ↔ xs = [] := by
  cases xs with
  | nil => simp [lastMaxBy]
  | cons x xs =>
    rw [lastMaxBy]
    split
    · simp
    · split_ifs <;> simp

theorem split_of_lastMaxBy {xs : List α} {x : α} (h : lastMaxBy f xs = some x) :
    ∃ before after, xs = before ++ x :: after ∧ (∀ y ∈ before, f y ≤ f x) ∧
      ∀ y ∈ after, f y < f x := by
  induction xs generalizing x with
  | nil => cases h
  | cons z xs ih =>
    rw [lastMaxBy] at h
    split at h
    · rename_i hnone
      obtain rfl := lastMaxBy_eq_none.mp hnone
      cases h
      exact ⟨[], [], rfl, by simp, by simp⟩
    · rename_i y hy
      obtain ⟨before, after, heq, hbefore, hafter⟩ := ih hy
      split_ifs at h with hle
      · cases h
        refine ⟨z :: before, after, by rw [heq, List.cons_append], ?_, hafter⟩
        exact List.forall_mem_cons.mpr ⟨hle, hbefore⟩
      · cases h
        refine ⟨[], xs, rfl, by simp, fun w hw => ?_⟩
        rw [heq, List.mem_append, List.mem_cons] at hw
        rcases hw with hw | rfl | hw
        · exact (hbefore w hw).trans_lt (Nat.lt_of_not_le hle)
        · exact Nat.lt_of_not_le hle
        · exact (hafter w hw).trans (Nat.lt_of_not_le hle)

theorem lastMaxBy_of_split {before after : List α} {x : α} (hbefore : ∀ y ∈ before, f y ≤ f x)
    (hafter : ∀ y ∈ after, f y < f x) : lastMaxBy f (before ++ x :: after) = some x := by
  induction before with
  | nil =>
    rw [List.nil_append, lastMaxBy]
    split
    · rfl
    · rename_i y hy
      obtain ⟨first, last, heq, _⟩ := split_of_lastMaxBy hy
      exact if_neg (Nat.not_le_of_lt (hafter y (by simp [heq])))
  | cons z before ih =>
    rw [List.cons_append, lastMaxBy, ih fun y hy => hbefore y (List.mem_cons_of_mem _ hy)]
    exact if_pos (hbefore z List.mem_cons_self)

end

/-! ## What the code takes for a challenge -/

/-- The challenge that a value is, if its algorithm is known. -/
def challenge (offer : AuthChallenge) : Option Challenge :=
  if offer.scheme.map Char.toLower = "digest".toList ∧
      ∀ a ∈ offer.param "algorithm".toList, (Algorithm.parse a).isSome = true then
    challengeOf offer.param
  else none

/-- The parameters that are read under their own names. Behind a longer scheme the first
has the rest of the scheme in its name. -/
def takenParams (offer : AuthChallenge) : List AuthParam :=
  if offer.scheme.length = 6 then offer.content.paramList else offer.content.paramList.tail

/-- The challenge that the code takes a value for. -/
def readAs (offer : AuthChallenge) : Option Challenge :=
  if (offer.scheme.take 6).map Char.toLower = "digest".toList then
    challengeOf (paramOf (takenParams offer))
  else none

/-- The code takes a value for a challenge that it is not. -/
def Misread (offer : AuthChallenge) (c : Challenge) : Prop :=
  readAs offer = some c ∧ challenge offer = none

def keys : List Text := ["realm", "nonce", "algorithm", "qop", "opaque"].map String.toList

theorem challengeOf_congr {f g : Text → Option Text} (h : ∀ k ∈ keys, f k = g k) :
    challengeOf f = challengeOf g := by
  simp only [keys, List.map_cons, List.map_nil, List.forall_mem_cons] at h
  obtain ⟨hrealm, hnonce, halgorithm, hqop, hopaque, _⟩ := h
  rw [challengeOf, challengeOf, hrealm, hnonce, halgorithm, hqop, hopaque]

theorem readAs_of_challenge {offer : AuthChallenge} {c : Challenge}
    (h : challenge offer = some c) : readAs offer = some c := by
  rw [challenge] at h
  split_ifs at h with hdigest
  have hlen : offer.scheme.length = 6 := by
    simpa using congrArg List.length hdigest.1
  rw [readAs, takenParams, if_pos hlen, List.take_of_length_le hlen.le, if_pos hdigest.1]
  exact h

/-! ## Reading a header value -/

/-- The text ends in a character that is not trimmed. -/
def EndsDark (s : Text) : Prop := ∃ front last, s = front ++ [last] ∧ isWhitespace last = false

theorem EndsDark.append {s : Text} (h : EndsDark s) (front : Text) : EndsDark (front ++ s) := by
  obtain ⟨mid, last, rfl, hlast⟩ := h
  exact ⟨front ++ mid, last, by simp, hlast⟩

theorem EndsDark.of_all {s : Text} (hne : s ≠ []) (h : ∀ c ∈ s, isWhitespace c = false) :
    EndsDark s :=
  ⟨s.dropLast, s.getLast hne, (List.dropLast_append_getLast hne).symm, h _ (List.getLast_mem hne)⟩

theorem EndsDark.of_token {s : Text} (h : IsToken s) : EndsDark s :=
  .of_all h.1 fun c hc => isWhitespace_of_token (h.2 c hc)

theorem strTrim_of_endsDark {c : Char} {s : Text} (hc : isWhitespace c = false)
    (h : EndsDark (c :: s)) : strTrim (c :: s) = c :: s := by
  obtain ⟨front, last, heq, hlast⟩ := h
  refine strTrim_of_edges (List.cons_ne_nil _ _) hc ?_
  simpa [heq] using hlast

theorem endsDark_param (p : AuthParam) : EndsDark p.text := by
  have hvalue : EndsDark p.value.text := by
    cases p.value with
    | token s hs => exact .of_token hs
    | quoted raw hraw => exact ⟨'"' :: raw, '"', rfl, by decide⟩
  rw [AuthParam.text, ← List.singleton_append, ← List.append_assoc]
  exact hvalue.append _

theorem endsDark_moreText {front : Text} (h : EndsDark front) (more : List (Comma × AuthParam)) :
    EndsDark (front ++ moreText more) := by
  induction more generalizing front with
  | nil => simpa [moreText] using h
  | cons next more ih =>
    have hnext := ih (((endsDark_param next.2).append next.1.text).append front)
    simpa [moreText] using hnext

theorem isWhitespace_token68 {c : Char} (h : (c.isAlphanum || "-._~+/".toList.contains c) = true) :
    isWhitespace c = false ∧ c ≠ '"' ∧ c ≠ ',' := by
  rw [Bool.or_eq_true] at h
  rcases h with h | h
  · have htoken : isTokenChar c = true := by simp [isTokenChar, h]
    refine ⟨isWhitespace_of_token htoken, ?_, ?_⟩ <;> rintro rfl <;>
      exact absurd htoken (by decide)
  · have hc := List.contains_iff_mem.mp h
    simp only [String.reduceToList, List.mem_cons, List.not_mem_nil, or_false] at hc
    rcases hc with rfl | rfl | rfl | rfl | rfl | rfl <;> decide

theorem endsDark_text (offer : AuthChallenge) : EndsDark offer.text := by
  rw [AuthChallenge.text]
  cases offer.content with
  | bare => simpa [AuthContent.text] using EndsDark.of_token offer.isToken
  | token68 spaces body padding hbody =>
    refine EndsDark.append (EndsDark.append (.of_all (by simp [hbody.1]) fun c hc => ?_) _) _
    rcases List.mem_append.mp hc with hc | hc
    · exact (isWhitespace_token68 (hbody.2 c hc)).1
    · obtain rfl := List.eq_of_mem_replicate hc
      decide
  | params spaces first more =>
    exact EndsDark.append (EndsDark.append (endsDark_moreText (endsDark_param first) more) _) _

theorem strTrim_text (offer : AuthChallenge) : strTrim offer.text = offer.text := by
  have hends := endsDark_text offer
  rw [AuthChallenge.text] at hends ⊢
  cases hscheme : offer.scheme with
  | nil => exact absurd hscheme offer.isToken.1
  | cons c scheme =>
    rw [hscheme, List.cons_append] at hends
    have hc := offer.isToken.2 c (hscheme ▸ List.mem_cons_self)
    exact strTrim_of_endsDark (isWhitespace_of_token hc) hends

theorem get?_ofList_params {params : List AuthParam} (h : (params.map AuthParam.key).Nodup)
    (key : Text) : (ofList (params.map AuthParam.row)).get? key = paramOf params key := by
  have hkeys : (params.map AuthParam.row).map Prod.fst = params.map AuthParam.key := by
    rw [List.map_map]
    rfl
  rw [get?, entries_ofList (hkeys ▸ h), paramOf]
  clear h hkeys
  induction params with
  | nil => rfl
  | cons p params ih =>
    rw [List.map_cons, AuthParam.row, lookup_cons_ite, List.find?_cons]
    by_cases hp : key = p.key
    · simp [hp]
    · simp only [if_neg hp, ih, decide_eq_false (Ne.symm hp)]

theorem filter_rows (params : List AuthParam) :
    (params.map AuthParam.row).filter (fun row => row.1 ≠ []) = params.map AuthParam.row := by
  rw [List.filter_eq_self]
  intro row hrow
  obtain ⟨p, _, rfl⟩ := List.mem_map.mp hrow
  have hname : p.key ≠ [] := fun h => p.isToken.1 (List.map_eq_nil_iff.mp h)
  exact decide_eq_true hname

theorem get?_rows {input : Text} {params : List AuthParam}
    (hrows : rows input = params.map AuthParam.row) (h : (params.map AuthParam.key).Nodup)
    (key : Text) : (parseParams input).get? key = paramOf params key := by
  rw [parseParams_eq, hrows, filter_rows, get?_ofList_params h]

/-- A first row with another name is not seen. -/
theorem get?_rows_cons {input key : Text} {row : Text × Text} {params : List AuthParam}
    (hrows : rows input = row :: params.map AuthParam.row) (h : (params.map AuthParam.key).Nodup)
    (hkey : key ≠ row.1) : (parseParams input).get? key = paramOf params key := by
  rw [parseParams_eq, hrows, List.filter_cons, filter_rows]
  split_ifs
  · rw [get?_ofList_cons hkey, get?_ofList_params h]
  · rw [get?_ofList_params h]

theorem challengeOf_eq_none {f : Text → Option Text}
    (h : f "realm".toList = none ∨ f "nonce".toList = none) : challengeOf f = none := by
  rw [challengeOf]
  rcases h with h | h
  · rw [h]
    rfl
  · cases f "realm".toList with
    | none => rfl
    | some realm =>
      rw [h]
      rfl

/-- Realm and nonce do not come out of one row. -/
theorem challengeOf_one_row {input : Text} (h : (rows input).length ≤ 1) :
    challengeOf (parseParams input).get? = none := by
  have hnil : (rows input).map Prod.fst = [] ∨ ∃ row, rows input = [row] := by
    cases hrows : rows input with
    | nil => exact Or.inl rfl
    | cons row others =>
      rw [hrows, List.length_cons] at h
      obtain rfl := List.length_eq_zero_iff.mp (Nat.le_zero.mp (Nat.le_of_succ_le_succ h))
      exact Or.inr ⟨row, rfl⟩
  have hno : ∀ key : Text, (parseParams []).get? key = none := fun _ => rfl
  rcases hnil with hnil | ⟨row, hrow⟩
  · have hrows : rows input = ([] : List AuthParam).map AuthParam.row := List.map_eq_nil_iff.mp hnil
    exact challengeOf_eq_none (Or.inl (get?_rows hrows List.nodup_nil _))
  · have hrows : rows input = row :: ([] : List AuthParam).map AuthParam.row := hrow
    by_cases hrealm : "realm".toList = row.1
    · refine challengeOf_eq_none (Or.inr (get?_rows_cons hrows List.nodup_nil ?_))
      rw [← hrealm]
      decide
    · exact challengeOf_eq_none (Or.inl (get?_rows_cons hrows List.nodup_nil hrealm))

/-- What a longer scheme makes of the first parameter: a name with a blank in it. -/
theorem rows_longer {ext : Text} (hne : ext ≠ []) (hext : ∀ c ∈ ext, isTokenChar c = true)
    (spaces : ℕ) (first : AuthParam) (more : List (Comma × AuthParam)) :
    ∃ row : Text × Text, ' ' ∈ row.1 ∧
      rows (ext ++ (List.replicate (spaces + 1) ' ' ++ (first.text ++ moreText more))) =
        row :: (more.map Prod.snd).map AuthParam.row := by
  obtain ⟨c, rest, rfl⟩ := List.exists_cons_of_ne_nil hne
  have hc := hext c List.mem_cons_self
  let front := c :: (rest ++ (List.replicate (spaces + 1) ' ' ++ first.name))
  have hequals : ∀ d ∈ front, d ≠ '=' := by
    rintro d hd rfl
    rcases List.mem_cons.mp hd with rfl | hd
    · exact absurd hc (by decide)
    rcases List.mem_append.mp hd with hd | hd
    · exact absurd (hext _ (List.mem_cons_of_mem _ hd)) (by decide)
    rcases List.mem_append.mp hd with hd | hd
    · exact absurd (List.eq_of_mem_replicate hd) (by decide)
    · exact first.isToken.not_mem (by decide) hd
  have hends : EndsDark front :=
    ((EndsDark.of_token first.isToken).append _).append (c :: rest)
  have hread := readParam_front (dropWhile_isListChar_of_token hc _) hequals first.value
    (follows_moreText more)
  rw [strTrim_of_endsDark (isWhitespace_of_token hc) hends] at hread
  refine ⟨(front.map Char.toLower, first.value.content), ?_, ?_⟩
  · refine List.mem_map.mpr ⟨' ', ?_, rfl⟩
    simp [front]
  · have htext : c :: rest ++ (List.replicate (spaces + 1) ' ' ++ (first.text ++ moreText more)) =
        front ++ '=' :: (first.value.text ++ moreText more) := by
      simp [front, AuthParam.text]
    rw [htext, rows_of_some hread, rows_leaves, List.map_map]
    rfl

theorem ne_of_mem_keys {key name : Text} (hkey : key ∈ keys) (hname : ' ' ∈ name) : key ≠ name := by
  have hblank : ∀ k ∈ keys, ' ' ∉ k := by decide
  rintro rfl
  exact hblank _ hkey hname

/-- The parameters behind a Digest scheme, or one that is longer, as they are in the map. -/
theorem challengeOf_parseParams {offer : AuthChallenge} (hlen : 6 ≤ offer.scheme.length) :
    challengeOf (parseParams (offer.scheme.drop 6 ++ offer.content.text)).get? =
      challengeOf (paramOf (takenParams offer)) := by
  have hdistinct := offer.distinct
  have htoken : ∀ c ∈ offer.scheme.drop 6, isTokenChar c = true := fun c hc =>
    offer.isToken.2 c (List.mem_of_mem_drop hc)
  have hnot : ∀ d, isTokenChar d = false → d ∉ offer.scheme.drop 6 := fun d hd hmem => by
    rw [htoken d hmem] at hd
    cases hd
  rw [takenParams]
  cases hcontent : offer.content with
  | bare =>
    have hone : (rows (offer.scheme.drop 6 ++ [])).length ≤ 1 := by
      rw [List.append_nil]
      exact rows_of_one (hnot _ (by decide)) (hnot _ (by decide))
    rw [AuthContent.text, challengeOf_one_row hone]
    split_ifs <;> rfl
  | token68 spaces body padding hbody =>
    have habsent : ∀ d, isTokenChar d = false → d ≠ ' ' → d ≠ '=' → (∀ c ∈ body, c ≠ d) →
        d ∉ offer.scheme.drop 6 ++ (AuthContent.token68 spaces body padding hbody).text := by
      intro d hd hblank hequals hbody' hmem
      simp only [AuthContent.text, List.mem_append] at hmem
      rcases hmem with hmem | hmem | hmem | hmem
      · exact hnot d hd hmem
      · exact hblank (List.eq_of_mem_replicate hmem)
      · exact hbody' d hmem rfl
      · exact hequals (List.eq_of_mem_replicate hmem)
    have hone := rows_of_one
      (habsent '"' (by decide) (by decide) (by decide) fun c hc =>
        (isWhitespace_token68 (hbody.2 c hc)).2.1)
      (habsent ',' (by decide) (by decide) (by decide) fun c hc =>
        (isWhitespace_token68 (hbody.2 c hc)).2.2)
    rw [challengeOf_one_row hone]
    split_ifs <;> rfl
  | params spaces first more =>
    rw [hcontent] at hdistinct
    split_ifs with h6
    · have hgap : ∀ c ∈ List.replicate (spaces + 1) ' ', isListChar c = true := fun c hc =>
        List.eq_of_mem_replicate hc ▸ rfl
      have hrows := rows_params hgap first more
      rw [List.drop_eq_nil_of_le h6.le, List.nil_append, AuthContent.text]
      refine congrArg challengeOf (funext fun key => get?_rows ?_ hdistinct key)
      rw [hrows, AuthContent.paramList, List.map_cons, List.map_map]
      rfl
    · have hne : offer.scheme.drop 6 ≠ [] := by
        rw [Ne, List.drop_eq_nil_iff]
        omega
      obtain ⟨row, hblank, hrows⟩ := rows_longer hne htoken spaces first more
      have hmore := (List.nodup_cons.mp hdistinct).2
      rw [AuthContent.text, AuthContent.paramList, List.tail_cons]
      exact challengeOf_congr fun key hkey =>
        get?_rows_cons hrows hmore (ne_of_mem_keys hkey hblank)

theorem content_text (content : AuthContent) :
    content.text = [] ∨ ∃ rest, content.text = ' ' :: rest := by
  cases content with
  | bare => exact Or.inl rfl
  | token68 spaces body padding hbody =>
    exact Or.inr ⟨_, by rw [AuthContent.text, List.replicate_succ, List.cons_append]⟩
  | params spaces first more =>
    exact Or.inr ⟨_, by rw [AuthContent.text, List.replicate_succ, List.cons_append]⟩

theorem parseChallenge_text (offer : AuthChallenge) : parseChallenge offer.text = readAs offer := by
  rw [parseChallenge, strTrim_text, readAs, AuthChallenge.text]
  by_cases hlen : 6 ≤ offer.scheme.length
  · have htake : (offer.scheme ++ offer.content.text).take 6 = offer.scheme.take 6 :=
      List.take_append_of_le_length hlen
    have hdrop : (offer.scheme ++ offer.content.text).drop 6 =
        offer.scheme.drop 6 ++ offer.content.text := List.drop_append_of_le_length hlen
    rw [htake, hdrop, challengeOf_parseParams hlen]
  · have hshort : (offer.scheme.take 6).map Char.toLower ≠ "digest".toList := by
      intro h
      have := congrArg List.length h
      simp only [List.length_map, List.length_take, String.reduceToList, List.length_cons,
        List.length_nil] at this
      omega
    -- A scheme that is shorter leaves a blank among the six letters.
    have hblank : ((offer.scheme ++ offer.content.text).take 6).map Char.toLower ≠
        "digest".toList := by
      intro h
      rcases content_text offer.content with hcontent | ⟨rest, hcontent⟩
      · rw [hcontent, List.append_nil] at h
        exact hshort h
      · obtain ⟨k, hk⟩ : ∃ k, 6 - offer.scheme.length = k + 1 :=
          ⟨5 - offer.scheme.length, by omega⟩
        rw [hcontent, List.take_append, hk, List.take_succ_cons, List.map_append,
          List.map_cons] at h
        have hmem : ' ' ∈ "digest".toList := h ▸ List.mem_append_right _ List.mem_cons_self
        exact absurd hmem (by decide)
    rw [if_neg hshort, if_neg hblank]

/-! ## The choice -/

/-- What is picked: something exactly if there is something to pick, and then one of the
strongest challenges. -/
def Picks (offers : List AuthChallenge) (picked : Option Challenge) : Prop :=
  (picked.isSome = true ↔ ∃ offer ∈ offers, (challenge offer).isSome = true) ∧
    ∀ c, picked = some c → (∃ offer ∈ offers, challenge offer = some c) ∧
      ∀ other ∈ offers, ∀ d, challenge other = some d →
        d.algorithm.strength ≤ c.algorithm.strength

/-- A value that is taken for `c` is passed over, or one that may be answered reads the same. -/
def PassedOver (before after : List AuthChallenge) (c : Challenge) : Prop :=
  (∃ other ∈ before, ∃ d, readAs other = some d ∧ c.algorithm.strength < d.algorithm.strength) ∨
    (∃ other ∈ after, ∃ d, readAs other = some d ∧
      c.algorithm.strength ≤ d.algorithm.strength) ∨
    ∃ other ∈ before ++ after, challenge other = some c

theorem filterMap_parseChallenge (offers : List AuthChallenge) :
    (offers.map AuthChallenge.text).filterMap parseChallenge = offers.filterMap readAs := by
  rw [List.filterMap_map]
  exact List.filterMap_congr fun offer _ => parseChallenge_text offer

/-- Whoever is picked stands in front of weaker ones and behind those that are not stronger. -/
theorem pickChallenge_eq_some {offers : List AuthChallenge} {c : Challenge} :
    pickChallenge (offers.map AuthChallenge.text) = some c ↔
      ∃ before offer after, offers = before ++ offer :: after ∧ readAs offer = some c ∧
        (∀ other ∈ before, ∀ d, readAs other = some d →
          d.algorithm.strength ≤ c.algorithm.strength) ∧
        ∀ other ∈ after, ∀ d, readAs other = some d →
          d.algorithm.strength < c.algorithm.strength := by
  rw [pickChallenge, filterMap_parseChallenge]
  constructor
  · intro h
    obtain ⟨first, last, heq, hfirst, hlast⟩ := split_of_lastMaxBy h
    obtain ⟨before, others, hoffers, hbefore, hothers⟩ := List.filterMap_eq_append_iff.mp heq
    obtain ⟨skipped, offer, after, hothers', hskipped, hoffer, hafter⟩ :=
      List.filterMap_eq_cons_iff.mp hothers
    refine ⟨before ++ skipped, offer, after, by rw [hoffers, hothers', List.append_assoc], hoffer,
      fun other hother d hd => ?_, fun other hother d hd => ?_⟩
    · rcases List.mem_append.mp hother with hother | hother
      · exact hfirst d (hbefore ▸ List.mem_filterMap.mpr ⟨other, hother, hd⟩)
      · rw [hskipped other hother] at hd
        cases hd
    · exact hlast d (hafter ▸ List.mem_filterMap.mpr ⟨other, hother, hd⟩)
  · rintro ⟨before, offer, after, rfl, hoffer, hbefore, hafter⟩
    rw [List.filterMap_append, List.filterMap_cons_some hoffer]
    refine lastMaxBy_of_split (fun d hd => ?_) fun d hd => ?_
    · obtain ⟨other, hother, hread⟩ := List.mem_filterMap.mp hd
      exact hbefore other hother d hread
    · obtain ⟨other, hother, hread⟩ := List.mem_filterMap.mp hd
      exact hafter other hother d hread

theorem pickChallenge_eq_none {offers : List AuthChallenge} :
    pickChallenge (offers.map AuthChallenge.text) = none ↔
      ∀ offer ∈ offers, readAs offer = none := by
  rw [pickChallenge, filterMap_parseChallenge, lastMaxBy_eq_none, List.filterMap_eq_nil_iff]

/-- Something is picked if there is something to pick, but it may be what is taken for a
challenge, unless all of that is passed over. -/
theorem pick_challenge_iff (offers : List AuthChallenge) :
    Picks offers (pickChallenge (offers.map AuthChallenge.text)) ↔
      ∀ before offer after c, offers = before ++ offer :: after → Misread offer c →
        PassedOver before after c := by
  constructor
  · rintro ⟨_, hpicked⟩ before offer after c heq hmisread
    by_contra hover
    rw [PassedOver, not_or, not_or] at hover
    obtain ⟨hbefore, hafter, hsame⟩ := hover
    have hpick : pickChallenge (offers.map AuthChallenge.text) = some c :=
      pickChallenge_eq_some.mpr ⟨before, offer, after, heq, hmisread.1,
        fun other hother d hd => not_lt.mp fun hlt => hbefore ⟨other, hother, d, hd, hlt⟩,
        fun other hother d hd => not_le.mp fun hle => hafter ⟨other, hother, d, hd, hle⟩⟩
    obtain ⟨other, hother, hc⟩ := (hpicked c hpick).1
    rw [heq, List.mem_append, List.mem_cons] at hother
    rcases hother with hother | rfl | hother
    · exact hsame ⟨other, List.mem_append_left _ hother, hc⟩
    · rw [hmisread.2] at hc
      cases hc
    · exact hsame ⟨other, List.mem_append_right _ hother, hc⟩
  · intro hover
    cases hpick : pickChallenge (offers.map AuthChallenge.text) with
    | none =>
        have hnone := pickChallenge_eq_none.mp hpick
        refine ⟨⟨by simp, ?_⟩, by simp⟩
        rintro ⟨offer, hoffer, hsome⟩
        obtain ⟨c, hc⟩ := Option.isSome_iff_exists.mp hsome
        have hread := readAs_of_challenge hc
        rw [hnone offer hoffer] at hread
        cases hread
    | some c =>
        obtain ⟨before, offer, after, heq, hoffer, hbefore, hafter⟩ :=
          pickChallenge_eq_some.mp hpick
        have hsame : ∃ other ∈ offers, challenge other = some c := by
          cases hchallenge : challenge offer with
          | some d =>
              have hd := readAs_of_challenge hchallenge
              rw [hoffer] at hd
              cases hd
              exact ⟨offer, heq ▸ List.mem_append_right _ List.mem_cons_self, hchallenge⟩
          | none =>
              rcases hover before offer after c heq ⟨hoffer, hchallenge⟩ with
                ⟨other, hother, d, hd, hlt⟩ | ⟨other, hother, d, hd, hle⟩ | ⟨other, hother, hc⟩
              · exact absurd (hbefore other hother d hd) (not_le.mpr hlt)
              · exact absurd (hafter other hother d hd) (not_lt.mpr hle)
              · refine ⟨other, heq ▸ ?_, hc⟩
                rcases List.mem_append.mp hother with hother | hother
                · exact List.mem_append_left _ hother
                · exact List.mem_append_right _ (List.mem_cons_of_mem _ hother)
        have hstrongest : ∀ other ∈ offers, ∀ d, challenge other = some d →
            d.algorithm.strength ≤ c.algorithm.strength := by
          intro other hother d hd
          have hread := readAs_of_challenge hd
          rw [heq, List.mem_append, List.mem_cons] at hother
          rcases hother with hother | rfl | hother
          · exact hbefore other hother d hread
          · rw [hoffer] at hread
            cases hread
            exact le_rfl
          · exact (hafter other hother d hread).le
        obtain ⟨other, hother, hc⟩ := hsame
        refine ⟨⟨fun _ => ⟨other, hother, by rw [hc, Option.isSome_some]⟩, fun _ => rfl⟩, ?_⟩
        rintro _ ⟨⟩
        exact ⟨⟨other, hother, hc⟩, hstrongest⟩

def commaSpace : Comma := ⟨[',', ' '], by decide, by decide⟩

/-- A challenge for SHA-512-256 alone. -/
def sha512Offer : AuthChallenge where
  scheme := ['D', 'i', 'g', 'e', 's', 't']
  isToken := by decide
  content := .params 0
    ⟨['r', 'e', 'a', 'l', 'm'], by decide,
      .quoted ['r'] (.plain (by decide) (by decide) .nil)⟩
    [(commaSpace, ⟨['n', 'o', 'n', 'c', 'e'], by decide,
        .quoted ['n'] (.plain (by decide) (by decide) .nil)⟩),
      (commaSpace, ⟨['a', 'l', 'g', 'o', 'r', 'i', 't', 'h', 'm'], by decide,
        .token ['S', 'H', 'A', '-', '5', '1', '2', '-', '2', '5', '6'] (by decide)⟩)]
  distinct := by decide

/-- It is answered, as one for MD5. -/
theorem unknown_algorithm_is_md5 :
    sha512Offer.text = "Digest realm=\"r\", nonce=\"n\", algorithm=SHA-512-256".toList ∧
      pickChallenge ([sha512Offer].map AuthChallenge.text) =
        some ⟨['r'], ['n'], .md5, none, none⟩ ∧
      ¬ Picks [sha512Offer] (pickChallenge ([sha512Offer].map AuthChallenge.text)) := by
  have hpick : pickChallenge ([sha512Offer].map AuthChallenge.text) =
      some ⟨['r'], ['n'], .md5, none, none⟩ := by decide
  refine ⟨by decide, hpick, ?_⟩
  rw [hpick]
  rintro ⟨hsome, _⟩
  obtain ⟨other, hother, hchallenge⟩ := hsome.mp rfl
  obtain rfl := List.mem_singleton.mp hother
  exact absurd hchallenge (by decide)

end Voleeo.Digest
