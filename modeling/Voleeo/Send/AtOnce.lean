import Voleeo.FormUrlEncoded
import Voleeo.Send.Paths

/-!
# Path parameters replaced at once

The Rust resolver replaces one path parameter after another in a growing text. A value that lands
right behind a name becomes a part of it. The path is the one in which all parameters are replaced
at once, in every order, exactly when no value lands behind another name of the list, and none
completes a word to such a name.
-/
namespace Voleeo.Send
open Resolve (UnicodeTables isBoundary replacePathParam stripQuery)

variable {tables : UnicodeTables} {steps done : List (Text × Text)} {s : Text}

/-! ## Texts as tokens -/

/-- A text is read token by token: a colon with the word behind it, or another character. -/
@[elab_as_elim]
theorem tokenInduction (tables : UnicodeTables) {motive : Text → Prop} (nil : motive [])
    (char : ∀ c rest, c ≠ ':' → motive rest → motive (c :: rest))
    (token : ∀ w rest, IsWord tables w → isBoundary tables rest = true → motive rest →
      motive (':' :: (w ++ rest))) (s : Text) : motive s := by
  induction hn : s.length using Nat.strong_induction_on generalizing s with
  | _ n ih =>
    match s with
    | [] => exact nil
    | c :: rest =>
      rw [List.length_cons] at hn
      by_cases hc : c = ':'
      · obtain ⟨hword, hsplit, hboundary⟩ := @word_split tables rest
        have hlen : (rest.drop (rest.takeWhile tables.isWord).length).length < n := by
          rw [List.length_drop]
          omega
        rw [hc, hsplit]
        exact token _ _ hword hboundary (ih _ hlen _ rfl)
      · exact char c rest hc (ih _ (by omega) rest rfl)

theorem isBoundary_iff {t : Text} :
    isBoundary tables t = true ↔ t.takeWhile tables.isWord = [] := by
  cases t with
  | nil => simp [isBoundary]
  | cons c t => cases hc : tables.isWord c <;> simp [isBoundary, hc]

/-! ## Values of parameters -/

def valueOf (steps : List (Text × Text)) (name : Text) : Option Text :=
  (steps.find? fun e => e.1 = name).map Prod.snd

theorem mem_of_valueOf {name value : Text} (h : valueOf steps name = some value) :
    (name, value) ∈ steps := by
  obtain ⟨⟨_, _⟩, hfind, rfl⟩ := Option.map_eq_some_iff.mp h
  have hname := List.find?_some hfind
  obtain rfl := of_decide_eq_true hname
  exact List.mem_of_find?_eq_some hfind

theorem valueOf_eq_none {name : Text} : valueOf steps name = none ↔ name ∉ steps.map Prod.fst := by
  rw [valueOf, Option.map_eq_none_iff, List.find?_eq_none]
  simp only [decide_eq_true_eq, List.mem_map, not_exists, not_and]

theorem valueOf_eq_some {name value : Text} (hnodup : (steps.map Prod.fst).Nodup) :
    valueOf steps name = some value ↔ (name, value) ∈ steps := by
  refine ⟨mem_of_valueOf, fun hmem => ?_⟩
  cases hvalue : valueOf steps name with
  | none => exact absurd (List.mem_map_of_mem hmem) (valueOf_eq_none.mp hvalue)
  | some other =>
    have heq := List.inj_on_of_nodup_map hnodup (mem_of_valueOf hvalue) hmem rfl
    exact congrArg (some ∘ Prod.snd) heq

theorem valueOf_concat {name w value : Text} :
    valueOf (done ++ [(name, value)]) w =
      (valueOf done w).or (if w = name then some value else none) := by
  rw [valueOf, valueOf, List.find?_append, Option.map_or]
  by_cases h : name = w
  · simp [h]
  · simp [h, Ne.symm h]

/-! ## All parameters at once -/

/-- Each maximal `:name` of a listed name becomes its value. `skip` counts the characters that the
last replacement still covers. -/
def replaceAtOnceFrom (tables : UnicodeTables) (steps : List (Text × Text)) : ℕ → Text → Text
  | _, [] => []
  | skip + 1, _ :: rest => replaceAtOnceFrom tables steps skip rest
  | 0, c :: rest =>
    let name := rest.takeWhile tables.isWord
    match if c = ':' then valueOf steps name else none with
    | some value => value ++ replaceAtOnceFrom tables steps name.length rest
    | none => c :: replaceAtOnceFrom tables steps 0 rest

def replaceAtOnce (tables : UnicodeTables) (steps : List (Text × Text)) (s : Text) : Text :=
  replaceAtOnceFrom tables steps 0 s

theorem replaceAtOnceFrom_skip (skip : ℕ) (s : Text) :
    replaceAtOnceFrom tables steps skip s = replaceAtOnce tables steps (s.drop skip) := by
  induction s generalizing skip with
  | nil => cases skip <;> rfl
  | cons c s ih =>
    cases skip with
    | zero => rfl
    | succ skip => exact ih skip

theorem replaceAtOnce_char {c : Char} (hc : c ≠ ':') (rest : Text) :
    replaceAtOnce tables steps (c :: rest) = c :: replaceAtOnce tables steps rest := by
  rw [replaceAtOnce, replaceAtOnceFrom, if_neg hc]
  rfl

theorem replaceAtOnce_append {t : Text} (ht : ':' ∉ t) (rest : Text) :
    replaceAtOnce tables steps (t ++ rest) = t ++ replaceAtOnce tables steps rest := by
  induction t with
  | nil => rfl
  | cons c t ih =>
    rw [List.mem_cons, not_or] at ht
    rw [List.cons_append, replaceAtOnce_char (Ne.symm ht.1), ih ht.2]
    rfl

theorem replaceAtOnce_token {w : Text} (hw : IsWord tables w) {rest : Text}
    (hrest : isBoundary tables rest = true) :
    replaceAtOnce tables steps (':' :: (w ++ rest)) = match valueOf steps w with
      | some value => value ++ replaceAtOnce tables steps rest
      | none => ':' :: (w ++ replaceAtOnce tables steps rest) := by
  rw [replaceAtOnce, replaceAtOnceFrom, if_pos rfl]
  rw [takeWhile_word hw hrest]
  cases valueOf steps w with
  | some value =>
    dsimp only
    rw [replaceAtOnceFrom_skip, List.drop_left]
  | none => exact congrArg (':' :: ·) (replaceAtOnce_append (colon_not_mem hw) rest)

/-- Only the values of the names matter. -/
theorem replaceAtOnce_congr {steps' : List (Text × Text)}
    (h : ∀ name, valueOf steps name = valueOf steps' name) (s : Text) :
    replaceAtOnce tables steps s = replaceAtOnce tables steps' s := by
  induction s using tokenInduction tables with
  | nil => rfl
  | char c rest hc ih => rw [replaceAtOnce_char hc, replaceAtOnce_char hc, ih]
  | token w rest hw hrest ih => rw [replaceAtOnce_token hw hrest, replaceAtOnce_token hw hrest, h, ih]

/-- The order of parameters with distinct names does not matter. -/
theorem replaceAtOnce_perm {steps' : List (Text × Text)} (hperm : steps.Perm steps')
    (hnodup : (steps.map Prod.fst).Nodup) (s : Text) :
    replaceAtOnce tables steps s = replaceAtOnce tables steps' s := by
  refine replaceAtOnce_congr (fun name => Option.ext fun value => ?_) s
  have hnodup' := (hperm.map Prod.fst).nodup_iff.mp hnodup
  rw [valueOf_eq_some hnodup, valueOf_eq_some hnodup', hperm.mem_iff]

/-! ## One parameter after the others -/

theorem replacePathParam_append {name value t : Text} (hname : IsWord tables name) (ht : ':' ∉ t)
    (rest : Text) :
    replacePathParam tables (t ++ rest) name value = t ++ replacePathParam tables rest name value := by
  induction t with
  | nil => rfl
  | cons c t ih =>
    rw [List.mem_cons, not_or] at ht
    rw [List.cons_append, replacePathParam_cons hname, if_neg fun h => ht.1 h.1.symm, ih ht.2]
    rfl

theorem replacePathParam_token {name value w : Text} (hname : IsWord tables name)
    (hw : IsWord tables w) (rest : Text) :
    replacePathParam tables (':' :: (w ++ rest)) name value =
      if w ++ rest.takeWhile tables.isWord = name then
        value ++ replacePathParam tables ((w ++ rest).drop name.length) name value
      else ':' :: (w ++ replacePathParam tables rest name value) := by
  rw [replacePathParam_cons hname, List.takeWhile_append_of_pos hw,
    replacePathParam_append hname (colon_not_mem hw)]
  simp only [true_and]

/-- When `done` is replaced, the tokens of the name are those that had it from the beginning. -/
def KeepsTokens (tables : UnicodeTables) (done : List (Text × Text)) (name s : Text) : Prop :=
  ∀ front w after, IsPlace tables w s front after → IsWord tables w → w ∉ done.map Prod.fst →
    (w ++ (replaceAtOnce tables done after).takeWhile tables.isWord = name ↔ w = name)

theorem IsPlace.behind {w t front after : Text} (h : IsPlace tables w t front after)
    (pre : Text) : IsPlace tables w (pre ++ t) (pre ++ front) after :=
  ⟨by rw [h.1, List.append_assoc], h.2⟩

theorem KeepsTokens.behind {name pre : Text} (h : KeepsTokens tables done name (pre ++ s)) :
    KeepsTokens tables done name s :=
  fun front w after hplace => h (pre ++ front) w after (hplace.behind pre)

/-- One more parameter in a text in which others are replaced at once. -/
theorem replacePathParam_replaceAtOnce {name : Text} (value : Text) (hname : IsWord tables name)
    (hvalues : ∀ e ∈ done, ':' ∉ e.2) (h : KeepsTokens tables done name s) :
    replacePathParam tables (replaceAtOnce tables done s) name value =
      replaceAtOnce tables (done ++ [(name, value)]) s := by
  induction s using tokenInduction tables with
  | nil => rfl
  | char c rest hc ih =>
    have hbehind : KeepsTokens tables done name ([c] ++ rest) := h
    have hrest := ih hbehind.behind
    rw [replaceAtOnce_char hc, replaceAtOnce_char hc, replacePathParam_cons hname,
      if_neg fun hmatch => hc hmatch.1, hrest]
  | token w rest hw hrest ih =>
    have hrest' : KeepsTokens tables done name ((':' :: w) ++ rest) := h
    have hbehind := ih hrest'.behind
    rw [replaceAtOnce_token hw hrest, replaceAtOnce_token hw hrest, valueOf_concat]
    cases hlookup : valueOf done w with
    | some v =>
      have hv : ':' ∉ v := hvalues (w, v) (mem_of_valueOf hlookup)
      rw [Option.some_or]
      dsimp only
      rw [replacePathParam_append hname hv, hbehind]
    | none =>
      have hkeeps := h [] w rest ⟨rfl, hrest⟩ hw (valueOf_eq_none.mp hlookup)
      dsimp only
      rw [Option.none_or, replacePathParam_token hname hw]
      by_cases heq : w = name
      · rw [if_pos (hkeeps.mpr heq), if_pos heq, ← heq, List.drop_left, heq, hbehind]
      · rw [if_neg fun hword => heq (hkeeps.mp hword), if_neg heq, hbehind]

theorem replaceAtOnce_nothing (s : Text) : replaceAtOnce tables [] s = s := by
  induction s using tokenInduction tables with
  | nil => rfl
  | char c rest hc ih => rw [replaceAtOnce_char hc, ih]
  | token w rest hw hrest ih => rw [replaceAtOnce_token hw hrest, ih]; rfl

theorem keepsTokens_nothing (name s : Text) : KeepsTokens tables [] name s := by
  intro front w after hplace _ _
  rw [replaceAtOnce_nothing, isBoundary_iff.mp hplace.2, List.append_nil]

/-- Alone a parameter is replaced at all its places. -/
theorem replacePathParam_eq {name : Text} (value : Text) (hname : IsWord tables name) (s : Text) :
    replacePathParam tables s name value = replaceAtOnce tables [(name, value)] s := by
  have hvalues : ∀ e ∈ ([] : List (Text × Text)), ':' ∉ e.2 := nofun
  have hone := replacePathParam_replaceAtOnce value hname hvalues (keepsTokens_nothing name s)
  rwa [replaceAtOnce_nothing, List.nil_append] at hone

/-- In every order the text reached is that of the parameters at once. -/
theorem rustRun_eq (hwords : ∀ e ∈ steps, IsWord tables e.1) (hvalues : ∀ e ∈ steps, ':' ∉ e.2)
    (h : ∀ done e rest, steps = done ++ e :: rest → KeepsTokens tables done e.1 s) :
    rustRun tables steps s = replaceAtOnce tables steps s := by
  induction steps using List.reverseRecOn with
  | nil => exact (replaceAtOnce_nothing s).symm
  | append_singleton steps e ih =>
    have hfirst := ih (fun a ha => hwords a (List.mem_append_left _ ha))
      (fun a ha => hvalues a (List.mem_append_left _ ha)) fun done a rest hsteps =>
        h done a (rest ++ [e]) (by rw [hsteps]; simp)
    rw [rustRun_append, hfirst]
    exact replacePathParam_replaceAtOnce e.2 (hwords e (List.mem_append_right _ (by simp)))
      (fun a ha => hvalues a (List.mem_append_left _ ha)) (h steps e [] rfl)

/-! ## Parameters that are kept apart -/

/-- The token `:word`, repeated. -/
def tokens (word : Text) (k : ℕ) : Text := (List.replicate k (':' :: word)).flatten

/-- The text begins with the token `:word`. -/
def StartsWith (tables : UnicodeTables) (word s : Text) : Prop :=
  ∃ after, IsPlace tables word s [] after

/-- No value lands right behind the name of another parameter, unless it begins with a character
that no name has. No word that is not in the list is completed to a name by the values of another
parameter that stands behind it, once or several times in a row. -/
structure KeptApart (tables : UnicodeTables) (steps : List (Text × Text)) (s : Text) : Prop where
  listed : ∀ front name after, IsPlace tables name s front after → name ∈ steps.map Prod.fst →
    ∀ word value, (word, value) ∈ steps → name ≠ word → StartsWith tables word after →
      value.takeWhile tables.isWord = []
  unlisted : ∀ front w word value k after,
    IsPlace tables w s front (tokens word (k + 1) ++ after) → IsWord tables w →
    w ∉ steps.map Prod.fst → (word, value) ∈ steps → isBoundary tables after = true →
    ¬ StartsWith tables word after → ∀ name ∈ steps.map Prod.fst, name ≠ word →
      w ++ (List.replicate (k + 1) value).flatten.takeWhile tables.isWord ≠ name

theorem KeptApart.behind {pre : Text} (h : KeptApart tables steps (pre ++ s)) :
    KeptApart tables steps s where
  listed front name after hplace := h.listed (pre ++ front) name after (hplace.behind pre)
  unlisted front w word value k after hplace :=
    h.unlisted (pre ++ front) w word value k after (hplace.behind pre)

theorem tokens_succ (word : Text) (k : ℕ) : tokens word (k + 1) = tokens word k ++ ':' :: word := by
  rw [tokens, List.replicate_succ', List.flatten_append, List.flatten_singleton, tokens]

theorem exists_tokens (word s : Text) (hs : isBoundary tables s = true) :
    ∃ k after, s = tokens word k ++ after ∧ isBoundary tables after = true ∧
      ¬ StartsWith tables word after := by
  induction hn : s.length using Nat.strong_induction_on generalizing s with
  | _ n ih =>
    by_cases hstart : StartsWith tables word s
    · obtain ⟨after, hplace, hafter⟩ := hstart
      have hlen : after.length < n := by
        rw [← hn, hplace]
        simp only [List.nil_append, List.length_cons, List.length_append]
        omega
      obtain ⟨k, rest, heq, hrest, hno⟩ := ih _ hlen after hafter rfl
      refine ⟨k + 1, rest, ?_, hrest, hno⟩
      rw [hplace, heq, tokens, tokens, List.replicate_succ, List.flatten_cons]
      simp
    · exact ⟨0, s, rfl, hs, hstart⟩

theorem replaceAtOnce_tokens {word value : Text} (hword : IsWord tables word)
    (hvalue : valueOf steps word = some value) (k : ℕ) {after : Text}
    (hafter : isBoundary tables after = true) :
    replaceAtOnce tables steps (tokens word k ++ after) =
      (List.replicate k value).flatten ++ replaceAtOnce tables steps after := by
  induction k with
  | zero => rfl
  | succ k ih =>
    have hrest : isBoundary tables (tokens word k ++ after) = true := by
      cases k with
      | zero => exact hafter
      | succ k => exact isBoundary_colon _
    have hcons : tokens word (k + 1) ++ after = ':' :: (word ++ (tokens word k ++ after)) := by
      simp [tokens, List.replicate_succ]
    rw [hcons, replaceAtOnce_token hword hrest, hvalue, ih, List.replicate_succ,
      List.flatten_cons, List.append_assoc]

/-- Behind the token of a listed name only values of the same name may go on with the word. -/
theorem KeptApart.quiet (h : KeptApart tables steps s) (hdone : done ⊆ steps)
    {front name after : Text} (hplace : IsPlace tables name s front after)
    (hlisted : name ∈ steps.map Prod.fst) :
    isBoundary tables (replaceAtOnce tables done after) = true ∨
      StartsWith tables name after ∧ ∃ value ≠ [], valueOf done name = some value := by
  induction after using tokenInduction tables generalizing front name with
  | nil => exact Or.inl rfl
  | char c rest hc ih =>
    rw [replaceAtOnce_char hc]
    exact Or.inl hplace.2
  | token w rest hw hrest ih =>
    have hnext : IsPlace tables w s (front ++ ':' :: name) rest :=
      ⟨by rw [hplace.1]; simp, hrest⟩
    rw [replaceAtOnce_token hw hrest]
    cases hvalue : valueOf done w with
    | none => exact Or.inl (isBoundary_colon _)
    | some value =>
      dsimp only
      have hmem := hdone (mem_of_valueOf hvalue)
      have hstart : StartsWith tables w (':' :: (w ++ rest)) := ⟨rest, rfl, hrest⟩
      by_cases hempty : value = []
      · rw [hempty, List.nil_append]
        refine Or.inl ((ih hnext (List.mem_map_of_mem hmem)).resolve_right ?_)
        rintro ⟨-, other, hother, hvalue'⟩
        rw [hvalue, hempty] at hvalue'
        exact hother (Option.some.inj hvalue').symm
      · by_cases hname : name = w
        · exact Or.inr ⟨hname ▸ hstart, value, hempty, hname ▸ hvalue⟩
        · have hquiet := h.listed front name _ hplace hlisted w value hmem hname hstart
          rw [isBoundary_append hempty, isBoundary_iff]
          exact Or.inl hquiet

theorem KeptApart.keepsTokens (h : KeptApart tables steps s) (hdone : done ⊆ steps)
    {name : Text} (hlisted : name ∈ steps.map Prod.fst)
    (hnew : name ∉ done.map Prod.fst) : KeepsTokens tables done name s := by
  intro front w after hplace hw hnot
  have hquiet : isBoundary tables (replaceAtOnce tables done after) = true →
      (w ++ (replaceAtOnce tables done after).takeWhile tables.isWord = name ↔ w = name) := by
    intro hboundary
    rw [isBoundary_iff.mp hboundary, List.append_nil]
  by_cases hwlisted : w ∈ steps.map Prod.fst
  · refine hquiet ((h.quiet hdone hplace hwlisted).resolve_right ?_)
    rintro ⟨-, value, -, hvalue⟩
    exact hnot (List.mem_map_of_mem (mem_of_valueOf hvalue))
  · have hne : w ≠ name := fun heq => hwlisted (heq ▸ hlisted)
    -- What follows is not replaced, or it is a row of tokens of one name.
    cases after using tokenInduction tables with
    | nil => exact hquiet rfl
    | char c rest hc _ =>
      refine hquiet ?_
      rw [replaceAtOnce_char hc]
      exact hplace.2
    | token word rest hword hrest _ =>
      cases hvalue : valueOf done word with
      | none =>
        refine hquiet ?_
        rw [replaceAtOnce_token hword hrest, hvalue]
        exact isBoundary_colon _
      | some value =>
        refine iff_of_false ?_ hne
        have hdonemem := mem_of_valueOf hvalue
        obtain ⟨k, rest', heq, hrest', hno⟩ :=
          @exists_tokens tables word (':' :: (word ++ rest)) (isBoundary_colon _)
        match k with
        | 0 => exact absurd ⟨rest, heq.symm, hrest⟩ hno
        | k + 1 =>
          rw [heq] at hplace ⊢
          have hlast : IsPlace tables word s (front ++ ':' :: (w ++ tokens word k)) rest' :=
            ⟨by rw [hplace.1, tokens_succ]; simp, hrest'⟩
          have hbehind := (h.quiet hdone hlast
            (List.mem_map_of_mem (hdone hdonemem))).resolve_right fun hright => hno hright.1
          rw [replaceAtOnce_tokens hword hvalue _ hrest', takeWhile_boundary _ hbehind]
          exact h.unlisted front w word value k rest' hplace hw hwlisted (hdone hdonemem)
            hrest' hno name hlisted fun hsame => hnew (hsame ▸ List.mem_map_of_mem hdonemem)

theorem takeWhile_eq_nil_of_append {a b : Text} (h : (a ++ b).takeWhile tables.isWord = []) :
    a.takeWhile tables.isWord = [] := by
  cases a with
  | nil => rfl
  | cons c a =>
    cases hc : tables.isWord c with
    | false => simp [hc]
    | true => simp [hc] at h

/-- A single parameter goes on with no word, unless its token follows. -/
theorem isBoundary_replaceAtOnce_one {word value t : Text} (ht : isBoundary tables t = true)
    (hno : ¬ StartsWith tables word t) :
    isBoundary tables (replaceAtOnce tables [(word, value)] t) = true := by
  cases t using tokenInduction tables with
  | nil => rfl
  | char c rest hc _ =>
    rw [replaceAtOnce_char hc]
    exact ht
  | token w rest hw hrest _ =>
    have hne : w ∉ [(word, value)].map Prod.fst := by
      intro hmem
      obtain rfl := List.mem_singleton.mp hmem
      exact hno ⟨rest, rfl, hrest⟩
    rw [replaceAtOnce_token hw hrest, valueOf_eq_none.mpr hne]
    exact isBoundary_colon _

theorem KeptApart.of_keepsTokens (hwords : ∀ e ∈ steps, IsWord tables e.1)
    (h : ∀ e ∈ steps, ∀ name ∈ steps.map Prod.fst, name ≠ e.1 →
      KeepsTokens tables [e] name s) : KeptApart tables steps s where
  listed front name after hplace hlisted word value hmem hne hstart := by
    obtain ⟨rest, hafter, hrest⟩ := hstart
    obtain ⟨⟨_, _⟩, hentry, rfl⟩ := List.mem_map.mp hlisted
    have hkeeps := (h _ hmem _ hlisted hne front _ after hplace (hwords _ hentry)
      (by simpa using hne)).mpr rfl
    have hvalue : valueOf [(word, value)] word = some value := by simp [valueOf]
    rw [hafter, List.nil_append, replaceAtOnce_token (hwords _ hmem) hrest, hvalue] at hkeeps
    exact takeWhile_eq_nil_of_append (List.append_cancel_left (hkeeps.trans (List.append_nil _).symm))
  unlisted front w word value k after hplace hw hnot hmem hafter hno name hlisted hne := by
    have hword : w ≠ word := fun heq => hnot (heq ▸ List.mem_map_of_mem hmem)
    have hkeeps := h _ hmem name hlisted hne front w _ hplace hw (by simpa using hword)
    have hvalue : valueOf [(word, value)] word = some value := by simp [valueOf]
    rw [replaceAtOnce_tokens (hwords _ hmem) hvalue _ hafter,
      takeWhile_boundary _ (isBoundary_replaceAtOnce_one hafter hno)] at hkeeps
    exact fun heq => hnot (hkeeps.mp heq ▸ hlisted)

/-! ## The resolver -/

/-- The path parameters of a URL with their percent-encoded values. -/
def pathSteps (tables : UnicodeTables) (url : Text) (parameters : List RequestParameter) :
    List (Text × Text) :=
  (parameters.filter fun p =>
    p.enabled && (Resolve.extractPathParams tables url).contains p.name.toList).map
      fun p => (p.name.toList, Resolve.urlEncode p.value.toList)

/-- The path is the same in every order of the parameters: that of the URL with all of them
replaced at once. On the way to it no value becomes part of the name of a parameter: whatever is
replaced behind a token, its word is the next name only if it was from the beginning. -/
structure AtOnce (tables : UnicodeTables) (url : Text) (parameters : List RequestParameter) :
    Prop where
  path : ∀ vars order, order.Perm parameters →
    (Resolve.resolveUrlAndQuery tables vars url order).1 = Resolve.resolveStr tables
      (replaceAtOnce tables (pathSteps tables url parameters) (stripQuery url)) vars
  names : ∀ order, order.Perm parameters → ∀ done e rest,
    pathSteps tables url order = done ++ e :: rest → ∀ front w after,
      IsPlace tables w (stripQuery url) front after → IsWord tables w → w ∉ done.map Prod.fst →
        (w ++ (rustRun tables done after).takeWhile tables.isWord = e.1 ↔ w = e.1)

variable {url : Text} {parameters : List RequestParameter}

theorem mem_pathSteps {e : Text × Text} : e ∈ pathSteps tables url parameters ↔
    ∃ p ∈ parameters, p.enabled = true ∧ p.name.toList ∈ Resolve.extractPathParams tables url ∧
      e = (p.name.toList, Resolve.urlEncode p.value.toList) := by
  simp only [pathSteps, List.mem_map, List.mem_filter, Bool.and_eq_true, List.contains_iff_mem,
    and_assoc, @eq_comm _ e]

theorem pathSteps_words : ∀ e ∈ pathSteps tables url parameters, IsWord tables e.1 := by
  intro e he
  obtain ⟨p, -, -, hname, rfl⟩ := mem_pathSteps.mp he
  exact isWord_of_identifier (mem_namesBehindColons.mp hname).1

theorem pathSteps_values : ∀ e ∈ pathSteps tables url parameters, ':' ∉ e.2 := by
  intro e he
  obtain ⟨p, -, -, -, rfl⟩ := mem_pathSteps.mp he
  exact not_mem_percentEncode (by decide) (by decide) (by decide) _

theorem pathSteps_nodup (hnames : (parameters.map RequestParameter.name).Nodup) :
    ((pathSteps tables url parameters).map Prod.fst).Nodup := by
  have htexts : (parameters.map fun p => p.name.toList).Nodup := by
    have hinj := hnames.map (f := String.toList) fun _ _ => String.toList_inj.mp
    rwa [List.map_map] at hinj
  rw [pathSteps, List.map_map]
  exact htexts.sublist (List.filter_sublist.map _)

theorem resolveUrlAndQuery_path (vars : OrderedMap Text Text)
    (hplain : ∀ p ∈ parameters, ¬ ['{', '{'] <:+: p.value.toList) :
    (Resolve.resolveUrlAndQuery tables vars url parameters).1 = Resolve.resolveStr tables
      (rustRun tables (pathSteps tables url parameters) (stripQuery url)) vars := by
  rw [rustRun, pathSteps, List.foldl_map, Resolve.resolveUrlAndQuery]
  dsimp only
  congr 1
  apply List.foldl_ext
  intro base p hp
  rw [Resolve.resolveStr_plain tables vars (hplain p (List.mem_of_mem_filter hp))]

theorem pathSteps_perm {order : List RequestParameter} (h : order.Perm parameters) :
    (pathSteps tables url order).Perm (pathSteps tables url parameters) :=
  (h.filter _).map _

/-- Two parameters can be the first ones of an order. -/
theorem exists_order {p q : RequestParameter} (hp : p ∈ parameters) (hq : q ∈ parameters)
    (hne : q ≠ p) : ∃ rest, (p :: q :: rest).Perm parameters := by
  obtain ⟨a, b, rfl⟩ := List.append_of_mem hp
  have hfirst : (a ++ p :: b).Perm (p :: (a ++ b)) := List.perm_middle
  have hq' : q ∈ a ++ b := (List.mem_cons.mp (hfirst.mem_iff.mp hq)).resolve_left hne
  obtain ⟨c, d, heq⟩ := List.append_of_mem hq'
  refine ⟨c ++ d, (hfirst.trans ?_).symm⟩
  rw [heq]
  exact List.perm_middle.cons p

theorem AtOnce.keptApart (h : AtOnce tables url parameters) :
    KeptApart tables (pathSteps tables url parameters) (stripQuery url) := by
  refine .of_keepsTokens pathSteps_words fun e he name hname hne front w after hplace hw hnot => ?_
  obtain ⟨e', he', rfl⟩ := List.mem_map.mp hname
  obtain ⟨p, hp, hpenabled, hplisted, rfl⟩ := mem_pathSteps.mp he
  obtain ⟨q, hq, hqenabled, hqlisted, rfl⟩ := mem_pathSteps.mp he'
  obtain ⟨rest, horder⟩ := exists_order hp hq fun heq => hne (by rw [heq])
  have hsteps : pathSteps tables url (p :: q :: rest) =
      [(p.name.toList, Resolve.urlEncode p.value.toList)] ++
        (q.name.toList, Resolve.urlEncode q.value.toList) :: pathSteps tables url rest := by
    simp [pathSteps, hpenabled, hplisted, hqenabled, hqlisted]
  have hword := h.names _ horder _ _ _ hsteps front w after hplace hw hnot
  have hrun : rustRun tables [(p.name.toList, Resolve.urlEncode p.value.toList)] after =
      replaceAtOnce tables [(p.name.toList, Resolve.urlEncode p.value.toList)] after :=
    replacePathParam_eq _ (pathSteps_words _ he) after
  rwa [hrun] at hword

theorem KeptApart.atOnce (hnames : (parameters.map RequestParameter.name).Nodup)
    (hplain : ∀ p ∈ parameters, ¬ ['{', '{'] <:+: p.value.toList)
    (h : KeptApart tables (pathSteps tables url parameters) (stripQuery url)) :
    AtOnce tables url parameters := by
  have hnodup := @pathSteps_nodup tables url parameters hnames
  -- Every order of the parameters is a run in which the tokens keep their names.
  have hkeeps : ∀ order, order.Perm parameters → ∀ done e rest,
      pathSteps tables url order = done ++ e :: rest → ∀ t, t <:+ stripQuery url →
        done ⊆ pathSteps tables url parameters ∧ KeepsTokens tables done e.1 t := by
    intro order horder done e rest hsteps t ht
    have hperm := @pathSteps_perm tables url _ _ horder
    have hsub : done ++ e :: rest ⊆ pathSteps tables url parameters :=
      hsteps ▸ hperm.subset
    have hdone := List.Subset.trans (List.subset_append_left _ _) hsub
    have hlisted : e.1 ∈ (pathSteps tables url parameters).map Prod.fst :=
      List.mem_map_of_mem (hsub (List.mem_append_right _ List.mem_cons_self))
    have hnew : e.1 ∉ done.map Prod.fst := by
      have hall := (hperm.map Prod.fst).nodup_iff.mpr hnodup
      rw [hsteps, List.map_append, List.map_cons, List.nodup_append] at hall
      exact fun hmem => hall.2.2 _ hmem _ List.mem_cons_self rfl
    obtain ⟨pre, hpre⟩ := ht
    rw [← hpre] at h
    exact ⟨hdone, h.behind.keepsTokens hdone hlisted hnew⟩
  constructor
  · intro vars order horder
    have hperm := @pathSteps_perm tables url _ _ horder
    rw [resolveUrlAndQuery_path vars fun p hp => hplain p (horder.mem_iff.mp hp),
      rustRun_eq pathSteps_words pathSteps_values fun done e rest hsteps =>
        (hkeeps order horder done e rest hsteps _ List.suffix_rfl).2,
      replaceAtOnce_perm hperm ((hperm.map Prod.fst).nodup_iff.mpr hnodup)]
  · intro order horder done e rest hsteps front w after hplace hw hnot
    have hafter : after <:+ stripQuery url := ⟨front ++ ':' :: w, by rw [hplace.1]; simp⟩
    obtain ⟨hdone, hword⟩ := hkeeps order horder done e rest hsteps _ List.suffix_rfl
    rw [rustRun_eq (fun a ha => pathSteps_words a (hdone ha))
      (fun a ha => pathSteps_values a (hdone ha)) fun pre a post hpre =>
        (hkeeps order horder pre a (post ++ e :: rest) (by rw [hsteps, hpre]; simp) _ hafter).2]
    exact hword front w after hplace hw hnot

/-- For distinct names and values without templates the parameters are replaced at once, in every
order, exactly when they are kept apart. -/
theorem atOnce_iff_keptApart (hnames : (parameters.map RequestParameter.name).Nodup)
    (hplain : ∀ p ∈ parameters, ¬ ['{', '{'] <:+: p.value.toList) :
    AtOnce tables url parameters ↔
      KeptApart tables (pathSteps tables url parameters) (stripQuery url) :=
  ⟨AtOnce.keptApart, KeptApart.atOnce hnames hplain⟩

def parameterP : RequestParameter where
  id := "1"
  name := "p"
  value := "1"
  enabled := true

def parameterQ : RequestParameter where
  id := "2"
  name := "q"
  value := "2"
  enabled := true

/-- In `/:p:q` a digit for `q` hides the name of `p`, if `q` is replaced first. -/
theorem order_changes_path : ¬ ∀ (tables : UnicodeTables) (vars : OrderedMap Text Text)
    (url : Text) (parameters order : List RequestParameter),
    (parameters.map RequestParameter.name).Nodup →
    (∀ p ∈ parameters, p.enabled = true ∧ ¬ ['{', '{'] <:+: p.value.toList) →
    order.Perm parameters →
      (Resolve.resolveUrlAndQuery tables vars url order).1 =
        (Resolve.resolveUrlAndQuery tables vars url parameters).1 := by
  intro h
  have hplain : ∀ p ∈ [parameterP, parameterQ], ¬ ['{', '{'] <:+: p.value.toList := by decide
  have hsame := h .asciiOnly .empty "/:p:q".toList [parameterP, parameterQ]
    [parameterQ, parameterP] (by decide) (by decide) (.swap _ _ _)
  rw [resolveUrlAndQuery_path _ hplain,
    resolveUrlAndQuery_path _ fun p hp => hplain p (by simpa [or_comm] using hp)] at hsame
  have hforward : rustRun .asciiOnly (pathSteps .asciiOnly "/:p:q".toList [parameterP, parameterQ])
      (stripQuery "/:p:q".toList) = "/12".toList := by decide
  have hbackward : rustRun .asciiOnly (pathSteps .asciiOnly "/:p:q".toList
      [parameterQ, parameterP]) (stripQuery "/:p:q".toList) = "/:p2".toList := by decide
  rw [hforward, hbackward, Resolve.resolveStr_plain _ _ (by decide),
    Resolve.resolveStr_plain _ _ (by decide)] at hsame
  revert hsame
  decide

theorem atOnce_iff_keptApart_dash : AtOnce .asciiOnly "/:p-:q".toList [parameterP, parameterQ] ↔
    KeptApart .asciiOnly (pathSteps .asciiOnly "/:p-:q".toList [parameterP, parameterQ])
      (stripQuery "/:p-:q".toList) :=
  atOnce_iff_keptApart (by decide) (by decide)

end Voleeo.Send
