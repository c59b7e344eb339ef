import Voleeo.Send.Url

/-!
# Path parameters by segments

A path parameter is only replaced at the end of a segment. So the web app replaces a name in the
first segment that ends in it, and leaves all the others.
-/
namespace Voleeo.Send

/-! ## Segments -/

/-- What ends a segment. -/
def isSeparator (c : Char) : Bool := c == '/' || c == '?' || c == '#'

/-- A segment with what ends it. -/
abbrev Segment := Text × Char

def IsSegment (s : Segment) : Prop :=
  (∀ c ∈ s.1, isSeparator c = false) ∧ isSeparator s.2 = true

/-- The text of the segments. -/
def glue (segments : List Segment) : Text := segments.flatMap fun s => s.1 ++ [s.2]

theorem glue_cons (s : Segment) (rest : List Segment) :
    glue (s :: rest) = s.1 ++ s.2 :: glue rest := by
  simp [glue]

/-- A name of the pattern `\w*`. -/
def IsName (name : Text) : Prop := ∀ c ∈ name, isWordChar c = true

theorem separator_not_word {c : Char} (h : isSeparator c = true) : isWordChar c = false := by
  simp only [isSeparator, Bool.or_eq_true, beq_iff_eq] at h
  rcases h with (rfl | rfl) | rfl <;> decide

theorem IsName.colon_not_mem {name : Text} (h : IsName name) : ':' ∉ name :=
  fun hmem => absurd (h ':' hmem) (by decide)

theorem IsName.separator_not_mem {name : Text} (h : IsName name) {c : Char}
    (hc : isSeparator c = true) : c ∉ name := by
  intro hmem
  have hword := h c hmem
  rw [separator_not_word hc] at hword
  cases hword

theorem isSegmentEnd_cons (c : Char) (rest : Text) : isSegmentEnd (c :: rest) = isSeparator c :=
  rfl

theorem prefix_of_append {name x rest : Text} {c : Char} (hc : c ∉ name)
    (h : name <+: x ++ c :: rest) : name <+: x := by
  rcases List.prefix_or_prefix_of_prefix h (List.prefix_append x (c :: rest)) with h' | h'
  · exact h'
  obtain ⟨y, rfl⟩ := h'
  obtain ⟨z, hz⟩ := h
  rw [List.append_assoc, List.append_cancel_left_eq] at hz
  cases y with
  | nil => exact ⟨[], by simp⟩
  | cons d y =>
    obtain rfl : d = c := (List.cons.inj hz).1
    exact absurd (List.mem_append_right x List.mem_cons_self) hc

/-- A match in a segment is the rest of the segment. -/
theorem match_iff_eq {name x rest : Text} {a c : Char} (hname : IsName name)
    (hx : ∀ d ∈ x, isSeparator d = false) (hc : isSeparator c = true) :
    ((':' :: name) <+: a :: (x ++ c :: rest) ∧
      isSegmentEnd ((x ++ c :: rest).drop name.length) = true) ↔ a :: x = ':' :: name := by
  constructor
  · rintro ⟨hcons, hend⟩
    obtain ⟨rfl, hfront⟩ := List.cons_prefix_cons.mp hcons
    obtain ⟨y, rfl⟩ := prefix_of_append (hname.separator_not_mem hc) hfront
    rw [List.append_assoc, List.drop_left] at hend
    cases y with
    | nil => rw [List.append_nil]
    | cons d y =>
      rw [List.cons_append, isSegmentEnd_cons] at hend
      rw [hx d (List.mem_append_right name List.mem_cons_self)] at hend
      cases hend
  · intro h
    obtain ⟨rfl, rfl⟩ := List.cons.inj h
    refine ⟨List.cons_prefix_cons.mpr ⟨rfl, List.prefix_append x _⟩, ?_⟩
    rw [List.drop_left, isSegmentEnd_cons, hc]

/-- A segment ends in the parameter. -/
def EndsIn (name : Text) (x : Text) : Prop := (':' :: name) <:+ x

instance (name x : Text) : Decidable (EndsIn name x) :=
  inferInstanceAs (Decidable ((':' :: name) <:+ x))

/-- The first segment that ends in the parameter has the value instead. -/
def replaceSegment (name value : Text) : List Segment → List Segment
  | [] => []
  | s :: rest =>
    if EndsIn name s.1 then (s.1.rdrop (name.length + 1) ++ value, s.2) :: rest
    else s :: replaceSegment name value rest

theorem rdrop_ends {name z : Text} : (z ++ ':' :: name).rdrop (name.length + 1) = z := by
  have hlength : (z ++ ':' :: name).length - (name.length + 1) = z.length := by
    rw [List.length_append, List.length_cons, Nat.add_sub_cancel]
  rw [List.rdrop, hlength, List.take_left]

theorem replaceFirstParam_segment {name value x rest : Text} {c : Char} (hname : IsName name)
    (hx : ∀ d ∈ x, isSeparator d = false) (hc : isSeparator c = true) :
    replaceFirstParam name value (x ++ c :: rest) =
      if EndsIn name x then x.rdrop (name.length + 1) ++ value ++ c :: rest
      else x ++ c :: replaceFirstParam name value rest := by
  induction x with
  | nil =>
    have hne : ¬ EndsIn name [] := by simp [EndsIn]
    have hcolon : ¬ ((':' :: name) <+: c :: rest ∧
        isSegmentEnd (rest.drop name.length) = true) := by
      rintro ⟨hfront, -⟩
      obtain ⟨rfl, -⟩ := List.cons_prefix_cons.mp hfront
      cases hc
    rw [if_neg hne, List.nil_append, replaceFirstParam, if_neg hcolon]
    rfl
  | cons a x ih =>
    have hx' : ∀ d ∈ x, isSeparator d = false := fun d hd => hx d (List.mem_cons_of_mem a hd)
    rw [List.cons_append, replaceFirstParam]
    by_cases heq : a :: x = ':' :: name
    · rw [if_pos ((match_iff_eq hname hx' hc).mpr heq)]
      obtain ⟨rfl, rfl⟩ := List.cons.inj heq
      have hends : EndsIn x (':' :: x) := List.suffix_refl _
      have hrdrop : (':' :: x).rdrop (x.length + 1) = [] := rdrop_ends (z := [])
      rw [if_pos hends, hrdrop, List.drop_left, List.nil_append]
    · rw [if_neg fun h => heq ((match_iff_eq hname hx' hc).mp h), ih hx']
      by_cases hends : EndsIn name x
      · have hends' : EndsIn name (a :: x) := hends.trans (List.suffix_cons a x)
        rw [if_pos hends, if_pos hends']
        obtain ⟨z, rfl⟩ := hends
        have hrdrop : (a :: (z ++ ':' :: name)).rdrop (name.length + 1) = a :: z :=
          rdrop_ends (z := a :: z)
        rw [rdrop_ends, hrdrop]
        rfl
      · have hends' : ¬ EndsIn name (a :: x) := by
          intro h
          rcases List.suffix_cons_iff.mp h with h | h
          · exact heq h.symm
          · exact hends h
        rw [if_neg hends, if_neg hends']
        rfl

theorem replaceFirstParam_glue {name value : Text} (hname : IsName name) {segments : List Segment}
    (h : ∀ s ∈ segments, IsSegment s) :
    replaceFirstParam name value (glue segments) = glue (replaceSegment name value segments) := by
  induction segments with
  | nil => rfl
  | cons s rest ih =>
    obtain ⟨hx, hc⟩ := h s List.mem_cons_self
    rw [glue_cons, replaceFirstParam_segment hname hx hc, replaceSegment]
    by_cases hends : EndsIn name s.1
    · rw [if_pos hends, if_pos hends, glue_cons]
    · rw [if_neg hends, if_neg hends, glue_cons, ih fun t ht => h t (List.mem_cons_of_mem s ht)]

/-- Behind the last segment nothing is replaced. -/
theorem replaceFirstParam_end {name value : Text} (hname : IsName name) (s : Text) :
    replaceFirstParam name value (s ++ ['/']) = replaceFirstParam name value s ++ ['/'] := by
  induction s with
  | nil => simp [replaceFirstParam]
  | cons c rest ih =>
    have hslash : '/' ∉ ':' :: name := by
      rw [List.mem_cons, not_or]
      exact ⟨by decide, hname.separator_not_mem rfl⟩
    have hfront : (':' :: name) <+: c :: (rest ++ ['/']) ↔ (':' :: name) <+: c :: rest :=
      ⟨fun h => prefix_of_append hslash h, fun h => h.trans ⟨['/'], by simp⟩⟩
    rw [List.cons_append, replaceFirstParam, replaceFirstParam]
    by_cases hmatch : (':' :: name) <+: c :: rest
    · have hlength : name.length ≤ rest.length := by simpa using hmatch.length_le
      have hend : isSegmentEnd (rest.drop name.length ++ ['/'])
          = isSegmentEnd (rest.drop name.length) := by
        cases rest.drop name.length <;> rfl
      simp only [hfront, hend, List.drop_append_of_le_length hlength, ih]
      split
      · exact (List.append_assoc _ _ _).symm
      · rfl
    · rw [if_neg fun h => hmatch (hfront.mp h.1), if_neg fun h => hmatch h.1, ih]
      rfl

theorem glue_injective : ∀ {xs ys : List Segment}, (∀ s ∈ xs, IsSegment s) →
    (∀ s ∈ ys, IsSegment s) → glue xs = glue ys → xs = ys
  | [], [], _, _, _ => rfl
  | [], s :: _, _, _, h => by
      rw [glue_cons] at h
      exact absurd h.symm (by simp [glue])
  | s :: _, [], _, _, h => by
      rw [glue_cons] at h
      exact absurd h (by simp [glue])
  | s :: xs, t :: ys, hxs, hys, h => by
      obtain ⟨hs, hsep⟩ := hxs s List.mem_cons_self
      obtain ⟨ht, htep⟩ := hys t List.mem_cons_self
      rw [glue_cons, glue_cons] at h
      have hfront := congrArg (List.takeWhile fun c => !isSeparator c) h
      have htake : ∀ (x rest : Text) (c : Char), (∀ d ∈ x, isSeparator d = false) →
          isSeparator c = true → (x ++ c :: rest).takeWhile (fun c => !isSeparator c) = x := by
        intro x rest c hx hc
        rw [List.takeWhile_append_of_pos (by simpa using hx), List.takeWhile_cons_of_neg (by simp [hc]),
          List.append_nil]
      rw [htake s.1 _ s.2 hs hsep, htake t.1 _ t.2 ht htep] at hfront
      rw [hfront, List.append_cancel_left_eq] at h
      obtain ⟨hend, hrest⟩ := List.cons.inj h
      have hrest' := glue_injective (fun u hu => hxs u (List.mem_cons_of_mem s hu))
        (fun u hu => hys u (List.mem_cons_of_mem t hu)) hrest
      rw [hrest', Prod.ext hfront hend]

/-! ## Runs -/

/-- A value that is written into a URL. -/
def IsValue (value : Text) : Prop := ∀ c ∈ value, c ≠ ':' ∧ isSeparator c = false

theorem replaceSegment_cases (name value : Text) (segments : List Segment) :
    ((∀ s ∈ segments, ¬ EndsIn name s.1) ∧ replaceSegment name value segments = segments) ∨
      ∃ before z c after, segments = before ++ (z ++ ':' :: name, c) :: after ∧
        (∀ s ∈ before, ¬ EndsIn name s.1) ∧
        replaceSegment name value segments = before ++ (z ++ value, c) :: after := by
  induction segments with
  | nil => exact .inl ⟨by simp, rfl⟩
  | cons s rest ih =>
    rw [replaceSegment]
    by_cases hends : EndsIn name s.1
    · obtain ⟨z, hz⟩ := hends
      refine .inr ⟨[], z, s.2, rest, ?_, by simp, ?_⟩
      · rw [hz]
        rfl
      · rw [if_pos ⟨z, hz⟩, ← hz, rdrop_ends]
        rfl
    · rw [if_neg hends]
      rcases ih with ⟨hno, heq⟩ | ⟨before, z, c, after, hsplit, hbefore, heq⟩
      · exact .inl ⟨List.forall_mem_cons.mpr ⟨hends, hno⟩, by rw [heq]⟩
      · exact .inr ⟨s :: before, z, c, after, by rw [hsplit]; rfl,
          List.forall_mem_cons.mpr ⟨hends, hbefore⟩, by rw [heq]; rfl⟩

theorem isSegment_replaceSegment {name value : Text} (hvalue : IsValue value)
    {segments : List Segment} (h : ∀ s ∈ segments, IsSegment s) :
    ∀ s ∈ replaceSegment name value segments, IsSegment s := by
  rcases replaceSegment_cases name value segments with
    ⟨-, heq⟩ | ⟨before, z, c, after, rfl, -, heq⟩
  · rwa [heq]
  · rw [heq]
    intro s hs
    have hmiddle : IsSegment (z ++ ':' :: name, c) := h _ (by simp)
    rcases List.mem_append.mp hs with hs | hs
    · exact h s (by simp [hs])
    rcases List.mem_cons.mp hs with rfl | hs
    · refine ⟨fun d hd => ?_, hmiddle.2⟩
      rcases List.mem_append.mp hd with hd | hd
      · exact hmiddle.1 d (List.mem_append_left _ hd)
      · exact (hvalue d hd).2
    · exact h s (by simp [hs])

section
variable (value : Text → Text)

/-- One parameter after another is replaced. -/
def runNames (names : List Text) (s : Text) : Text :=
  names.foldl (fun s name => replaceFirstParam name (value name) s) s

def runSegments (names : List Text) (segments : List Segment) : List Segment :=
  names.foldl (fun segments name => replaceSegment name (value name) segments) segments

end

section
variable {value : Text → Text} {names : List Text}

theorem runNames_glue (hnames : ∀ name ∈ names, IsName name)
    (hvalue : ∀ name, IsValue (value name)) {segments : List Segment}
    (h : ∀ s ∈ segments, IsSegment s) :
    runNames value names (glue segments) = glue (runSegments value names segments) ∧
      ∀ s ∈ runSegments value names segments, IsSegment s := by
  induction names generalizing segments with
  | nil => exact ⟨rfl, h⟩
  | cons name rest ih =>
    have hname := hnames name List.mem_cons_self
    have hrest := ih (fun n hn => hnames n (List.mem_cons_of_mem name hn))
      (@isSegment_replaceSegment name (value name) (hvalue name) segments h)
    rw [runNames, List.foldl_cons, replaceFirstParam_glue hname h]
    exact hrest

theorem runNames_end (hnames : ∀ name ∈ names, IsName name) (s : Text) :
    runNames value names (s ++ ['/']) = runNames value names s ++ ['/'] := by
  induction names generalizing s with
  | nil => rfl
  | cons name rest ih =>
    rw [runNames, List.foldl_cons, replaceFirstParam_end (hnames name List.mem_cons_self)]
    exact ih (fun n hn => hnames n (List.mem_cons_of_mem name hn)) _

end

/-! ## What a run leaves -/

/-- The last colon of two equal texts is the same. -/
theorem colon_split {x y m n : Text} (hm : ':' ∉ m) (hn : ':' ∉ n)
    (h : x ++ ':' :: m = y ++ ':' :: n) : x = y ∧ m = n := by
  rcases List.append_eq_append_iff.mp h with ⟨z, rfl, hz⟩ | ⟨z, rfl, hz⟩
  · cases z with
    | nil => exact ⟨by simp, (List.cons.inj hz).2⟩
    | cons c z =>
      have hmem : ':' ∈ m := by
        rw [(List.cons.inj hz).2]
        simp
      exact absurd hmem hm
  · cases z with
    | nil => exact ⟨by simp, (List.cons.inj hz).2.symm⟩
    | cons c z =>
      have hmem : ':' ∈ n := by
        rw [(List.cons.inj hz).2]
        simp
      exact absurd hmem hn

/-- A colon in front of a value without one is in front of the whole of it. -/
theorem split_before_value {x y name value : Text} (hvalue : ':' ∉ value)
    (h : x ++ value = y ++ ':' :: name) : ∃ w, x = y ++ ':' :: w ∧ name = w ++ value := by
  rcases List.append_eq_append_iff.mp h with ⟨z, -, hz⟩ | ⟨z, hz, hrest⟩
  · exact absurd (by simp [hz]) hvalue
  · cases z with
    | nil =>
      rw [List.nil_append] at hrest
      exact absurd (hrest ▸ List.mem_cons_self) hvalue
    | cons c w =>
      obtain ⟨rfl, hname⟩ := List.cons.inj hrest
      exact ⟨w, hz, hname⟩

theorem forall₂_comp {R S T : Segment → Segment → Prop}
    (h : ∀ s t u, R s t → S t u → T s u) {xs ys zs : List Segment} (hR : List.Forall₂ R xs ys)
    (hS : List.Forall₂ S ys zs) : List.Forall₂ T xs zs := by
  induction hR generalizing zs with
  | nil =>
    cases hS
    exact .nil
  | cons hst _ ih =>
    cases hS with
    | cons htu hrest => exact .cons (h _ _ _ hst htu) (ih hrest)

theorem exists_getElem?_of_forall₂ {R : Segment → Segment → Prop} {xs ys : List Segment}
    (h : List.Forall₂ R xs ys) {i : ℕ} {a : Segment} (ha : xs[i]? = some a) :
    ∃ b, ys[i]? = some b ∧ R a b := by
  induction h generalizing i with
  | nil => cases ha
  | cons hab _ ih =>
    cases i with
    | zero =>
      obtain rfl := Option.some.inj ha
      exact ⟨_, rfl, hab⟩
    | succ i => exact ih ha

/-- A segment stays as it is, or has fewer colons. -/
def Later (s t : Segment) : Prop := s = t ∨ t.1.count ':' < s.1.count ':'

theorem Later.trans {s t u : Segment} (h : Later s t) (h' : Later t u) : Later s u := by
  rcases h with rfl | h
  · exact h'
  rcases h' with rfl | h'
  · exact .inr h
  · exact .inr (h'.trans h)

/-- Between two equal states a segment is the same. -/
theorem Later.eq_of_eq {s t u : Segment} (h : Later s t) (h' : Later t u) (heq : s = u) :
    t = u := by
  rcases h' with rfl | h'
  · rfl
  rcases h with rfl | h
  · exact heq
  · rw [heq] at h
    omega

theorem count_value {value : Text} (h : IsValue value) : value.count ':' = 0 :=
  List.count_eq_zero.mpr fun hmem => (h ':' hmem).1 rfl

theorem later_value {name value z : Text} (hvalue : IsValue value) :
    (z ++ value).count ':' < (z ++ ':' :: name).count ':' := by
  rw [List.count_append, List.count_append, count_value hvalue, List.count_cons_self]
  omega

theorem later_replaceSegment {name value : Text} (hvalue : IsValue value)
    (segments : List Segment) : List.Forall₂ Later segments (replaceSegment name value segments) := by
  have hrefl : ∀ l : List Segment, List.Forall₂ Later l l :=
    fun l => List.forall₂_same.mpr fun _ _ => .inl rfl
  rcases replaceSegment_cases name value segments with
    ⟨-, heq⟩ | ⟨before, z, c, after, rfl, -, heq⟩
  · rw [heq]
    exact hrefl segments
  · rw [heq]
    exact List.rel_append (hrefl before) (.cons (.inr (later_value hvalue)) (hrefl after))

section
variable {value : Text → Text} (hvalue : ∀ name, IsValue (value name))
include hvalue

theorem later_runSegments (names : List Text) (segments : List Segment) :
    List.Forall₂ Later segments (runSegments value names segments) := by
  induction names generalizing segments with
  | nil => exact List.forall₂_same.mpr fun _ _ => .inl rfl
  | cons name rest ih =>
    have hstep := @later_replaceSegment name (value name) (hvalue name) segments
    exact forall₂_comp (fun _ _ _ hst htu => hst.trans htu) hstep (ih _)

/-- Where a segment that ends in a name is left alone for good, the name was replaced further in
front. -/
theorem exists_replaced_before {names : List Text} {name : Text} {rest : List Text}
    {segments : List Segment} {i : ℕ} {s : Segment}
    (hs : (runSegments value names segments)[i]? = some s) (hends : EndsIn name s.1)
    (hlast : (runSegments value (names ++ name :: rest) segments)[i]? = some s) :
    ∃ k, k < i ∧ ∃ z c t, (runSegments value names segments)[k]? = some (z ++ ':' :: name, c) ∧
      (runSegments value (names ++ name :: rest) segments)[k]? = some t ∧
      t.1.count ':' < (z ++ ':' :: name).count ':' := by
  have hrun : runSegments value (names ++ name :: rest) segments =
      runSegments value rest
        (replaceSegment name (value name) (runSegments value names segments)) := by
    rw [runSegments, List.foldl_append]
    rfl
  have hlater := later_runSegments hvalue rest
    (replaceSegment name (value name) (runSegments value names segments))
  rw [← hrun] at hlater
  rcases replaceSegment_cases name (value name) (runSegments value names segments) with
    ⟨hno, -⟩ | ⟨before, z, c, after, hsplit, hbefore, heq⟩
  · exact absurd hends (hno s (List.mem_of_getElem? hs))
  rw [heq] at hlater
  -- The segment that is replaced has fewer colons from then on.
  have hreplaced : ∃ t, (runSegments value (names ++ name :: rest) segments)[before.length]?
      = some t ∧ t.1.count ':' < (z ++ ':' :: name).count ':' := by
    have hget : (before ++ (z ++ value name, c) :: after)[before.length]?
        = some (z ++ value name, c) := by simp
    obtain ⟨t, ht, hlater⟩ := exists_getElem?_of_forall₂ hlater hget
    refine ⟨t, ht, ?_⟩
    have hfewer : (z ++ value name).count ':' < (z ++ ':' :: name).count ':' :=
      later_value (hvalue name)
    rcases hlater with rfl | hlater
    · exact hfewer
    · exact Nat.lt_trans hlater hfewer
  obtain ⟨t, ht, hcount⟩ := hreplaced
  refine ⟨before.length, ?_, z, c, t, by rw [hsplit]; simp, ht, hcount⟩
  rcases Nat.lt_trichotomy before.length i with hlt | rfl | hgt
  · exact hlt
  · rw [hsplit] at hs
    rw [hlast] at ht
    simp at hs ht
    subst ht
    subst hs
    exact absurd hcount (Nat.lt_irrefl _)
  · rw [hsplit, List.getElem?_append_left hgt] at hs
    exact absurd hends (hbefore s (List.mem_of_getElem? hs))

end

end Voleeo.Send
