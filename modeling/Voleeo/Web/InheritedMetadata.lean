import Voleeo.Records
import Voleeo.Resolve.Http

/-!
# Inherited metadata in the web app

A copied gRPC command carries the metadata of the request, of its folders and of
the workspace. The web app merges them for the copy and the Rust resolver merges
them for the send.
-/
namespace Voleeo.Web
open Resolve (ancestorChainRootFirst ancestorChainRootFirstRs climb climb_eq_of_no_empty
  isWhitespace strTrim toAsciiLowercase)

/-- A row that takes part: enabled, and its name is more than spaces. -/
def counts (r : RequestParameter) : Bool := r.enabled && !(trim r.name.toList).isEmpty

variable (toLowerCase : String → String)

/-- Own rows first, then each folder's from the nearest one on, then the workspace's. -/
def mergeInheritedMetadata (own : List RequestParameter) (folderId : Option String)
    (folders : List ApiFolder) (workspaceHeaders : List RequestParameter) :
    List RequestParameter :=
  let add (kept : Kept RequestParameter String) (rows : List RequestParameter) :=
    rows.foldl (fun kept r =>
      if counts r then kept.add (fun r => toLowerCase r.name) r else kept) kept
  let kept := add { seen := [], out := [] } own
  let kept := (ancestorChainRootFirst folderId folders).reverse.foldl
    (fun kept f => add kept f.headers) kept
  (add kept workspaceHeaders).out

/-- All rows that could apply, the strongest first. -/
def offered (own : List RequestParameter) (folderId : Option String) (folders : List ApiFolder)
    (workspaceHeaders : List RequestParameter) : List RequestParameter :=
  own ++ (climb (fun _ => false) folders [] folderId).flatMap (·.headers) ++ workspaceHeaders

variable {toLowerCase}

theorem mergeInheritedMetadata_eq {own : List RequestParameter} {folderId : Option String}
    {folders : List ApiFolder} {workspaceHeaders : List RequestParameter}
    (hids : ∀ f ∈ folders, f.id ≠ "") :
    mergeInheritedMetadata toLowerCase own folderId folders workspaceHeaders =
      firstPerKey (fun r => toLowerCase r.name)
        ((offered own folderId folders workspaceHeaders).filter counts) := by
  have hchain (chain : List ApiFolder) (kept : Kept RequestParameter String) :
      chain.foldl (fun kept f => f.headers.foldl (fun kept r =>
        if counts r then kept.add (fun r => toLowerCase r.name) r else kept) kept) kept =
      (chain.flatMap (·.headers)).foldl (fun kept r =>
        if counts r then kept.add (fun r => toLowerCase r.name) r else kept) kept := by
    induction chain generalizing kept with
    | nil => rfl
    | cons f chain ih => rw [List.foldl_cons, ih, List.flatMap_cons, List.foldl_append]
  simp only [mergeInheritedMetadata, ancestorChainRootFirst, List.reverse_reverse, hchain,
    ← List.foldl_append]
  rw [climb_eq_of_no_empty folders hids, ← offered, ← List.foldl_filter, foldl_kept_nil]

/-! ## Names in ASCII -/

def IsAscii (s : String) : Prop := ∀ c ∈ s.toList, c.toNat < 128

theorem isJsSpace_eq {c : Char} (h : c.toNat < 128) : isJsSpace c = isWhitespace c := by
  have hcodes : ∀ n < 128,
      ((9 ≤ n && n ≤ 13) || n == 0x20 || n == 0xA0 || n == 0x1680 ||
        (0x2000 ≤ n && n ≤ 0x200A) || n == 0x2028 || n == 0x2029 || n == 0x202F ||
        n == 0x205F || n == 0x3000 || n == 0xFEFF) =
      ((9 ≤ n && n ≤ 13) || n == 0x20 || n == 0x85 || n == 0xA0 || n == 0x1680 ||
        (0x2000 ≤ n && n ≤ 0x200A) || n == 0x2028 || n == 0x2029 || n == 0x202F ||
        n == 0x205F || n == 0x3000) := by decide
  exact hcodes c.toNat h

theorem dropWhile_congr {α : Type*} {p q : α → Bool} {l : List α} (h : ∀ a ∈ l, p a = q a) :
    l.dropWhile p = l.dropWhile q := by
  induction l with
  | nil => rfl
  | cons a l ih =>
    obtain ⟨ha, hl⟩ := List.forall_mem_cons.mp h
    rw [List.dropWhile_cons, List.dropWhile_cons, ha, ih hl]

theorem trim_eq {s : Text} (h : ∀ c ∈ s, c.toNat < 128) : trim s = strTrim s := by
  have hfront : trimStart s = s.dropWhile isWhitespace :=
    dropWhile_congr fun c hc => isJsSpace_eq (h c hc)
  have hrest : ∀ c ∈ (s.dropWhile isWhitespace).reverse, isJsSpace c = isWhitespace c := by
    intro c hc
    exact isJsSpace_eq (h c ((List.dropWhile_sublist _).subset (List.mem_reverse.mp hc)))
  rw [trim, hfront, trimEnd, strTrim, List.rdropWhile, List.rdropWhile, dropWhile_congr hrest]

theorem counts_eq {r : RequestParameter} (h : IsAscii r.name) :
    counts r = (r.enabled && !(strTrim r.name.toList).isEmpty) := by
  rw [counts, trim_eq h]

/-- The rows the Rust resolver merges, with the same notion of a name. -/
theorem resolve_mergeInheritedMetadata_eq {own : List RequestParameter}
    {folderId : Option String} {folders : List ApiFolder}
    {workspaceHeaders : List RequestParameter}
    (hlower : ∀ s, IsAscii s → toLowerCase s = toAsciiLowercase s)
    (hnames : ∀ r ∈ offered own folderId folders workspaceHeaders, IsAscii r.name) :
    Resolve.mergeInheritedMetadata own folderId folders workspaceHeaders =
      firstPerKey (fun r => toLowerCase r.name)
        ((offered own folderId folders workspaceHeaders).filter counts) := by
  have hrows : (offered own folderId folders workspaceHeaders).filter
      (fun r => r.enabled && !(strTrim r.name.toList).isEmpty) =
      (offered own folderId folders workspaceHeaders).filter counts :=
    List.filter_congr fun r hr => (counts_eq (hnames r hr)).symm
  have hkeys : ∀ l : List RequestParameter, (∀ r ∈ l, IsAscii r.name) →
      firstPerKey (fun r => toAsciiLowercase r.name) l =
        firstPerKey (fun r => toLowerCase r.name) l := by
    intro l hl
    exact firstPerKey_congr fun r hr => (hlower r.name (hl r hr)).symm
  rw [Resolve.mergeInheritedMetadata]
  simp only [ancestorChainRootFirstRs, List.reverse_reverse]
  rw [← offered, hrows, foldl_firstPerKey]
  simp only [List.map_nil, List.not_mem_nil, not_false_eq_true, decide_true, List.filter_true,
    List.nil_append]
  exact hkeys _ fun r hr => hnames r (List.mem_of_mem_filter hr)

/-! ## The two merges -/

theorem mem_offered {own : List RequestParameter} {folderId : Option String}
    {folders : List ApiFolder} {workspaceHeaders : List RequestParameter} {r : RequestParameter}
    (hr : r ∈ offered own folderId folders workspaceHeaders) :
    r ∈ own ++ folders.flatMap (·.headers) ++ workspaceHeaders := by
  simp only [offered, List.mem_append, List.mem_flatMap] at hr ⊢
  rcases hr with (hown | ⟨f, hf, hrow⟩) | hworkspace
  · exact Or.inl (Or.inl hown)
  · exact Or.inl (Or.inr ⟨f, Resolve.mem_of_mem_climb hf, hrow⟩)
  · exact Or.inr hworkspace

/-- On names in ASCII and folders with an id, both merges return the same rows in the same
order: for each name that takes part the strongest row that is offered. -/
theorem merges_agree (toLowerCase : String → String)
    (hlower : ∀ s, IsAscii s → toLowerCase s = toAsciiLowercase s)
    (own : List RequestParameter) (folderId : Option String) (folders : List ApiFolder)
    (workspaceHeaders : List RequestParameter) (hids : ∀ f ∈ folders, f.id ≠ "")
    (hnames : ∀ r ∈ own ++ folders.flatMap (·.headers) ++ workspaceHeaders, IsAscii r.name) :
    mergeInheritedMetadata toLowerCase own folderId folders workspaceHeaders =
      Resolve.mergeInheritedMetadata own folderId folders workspaceHeaders ∧
    FirstOfEach (fun r => toLowerCase r.name)
      ((offered own folderId folders workspaceHeaders).filter counts)
      (mergeInheritedMetadata toLowerCase own folderId folders workspaceHeaders) := by
  have hoffered : ∀ r ∈ offered own folderId folders workspaceHeaders, IsAscii r.name :=
    fun r hr => hnames r (mem_offered hr)
  rw [mergeInheritedMetadata_eq hids, resolve_mergeInheritedMetadata_eq hlower hoffered]
  exact ⟨rfl, firstOfEach_firstPerKey _ _⟩

/-! ## A request below a folder -/

def traceRow (value : String) : RequestParameter :=
  { id := "p0", name := "X-Trace", value, enabled := true }

def tracingFolder (id : String) : ApiFolder :=
  { id, folderType := "folder", model := "folder", workspaceId := "w1", folderId := some id,
    name := "api", headers := [traceRow "folder"], auth := .none, «variables» := [],
    color := none, order := 0, createdAt := "", updatedAt := "" }

theorem merges_agree_cyclic_folder :
    mergeInheritedMetadata toAsciiLowercase [traceRow "own"] (some "f1") [tracingFolder "f1"] [] =
      Resolve.mergeInheritedMetadata [traceRow "own"] (some "f1") [tracingFolder "f1"] [] ∧
    FirstOfEach (fun r => toAsciiLowercase r.name)
      ((offered [traceRow "own"] (some "f1") [tracingFolder "f1"] []).filter counts)
      (mergeInheritedMetadata toAsciiLowercase [traceRow "own"] (some "f1")
        [tracingFolder "f1"] []) := by
  have hids : ∀ f ∈ [tracingFolder "f1"], f.id ≠ "" := by
    rintro f hf
    rw [List.mem_singleton.mp hf]
    decide
  have hnames : ∀ r ∈ [traceRow "own"] ++ [tracingFolder "f1"].flatMap (·.headers) ++ [],
      IsAscii r.name := by
    have hname : IsAscii "X-Trace" := by
      rw [IsAscii]
      simp
    intro r hr
    have hrow : r = traceRow "own" ∨ r = traceRow "folder" := by simpa [tracingFolder] using hr
    rcases hrow with rfl | rfl
    · exact hname
    · exact hname
  exact merges_agree toAsciiLowercase (fun _ _ => rfl) _ _ _ _ hids hnames

/-- The web app takes an empty folder id for no folder, the Rust resolver looks it up. -/
theorem merges_differ_empty_folder_id :
    mergeInheritedMetadata toAsciiLowercase [] (some "") [tracingFolder ""] [] = [] ∧
    Resolve.mergeInheritedMetadata [] (some "") [tracingFolder ""] [] = [traceRow "folder"] := by
  have hweb : climb (fun id => id == "") [tracingFolder ""] [] (some "") = [] := by
    rw [Resolve.climb_eq, if_pos (Or.inl (by decide))]
  have hrust : climb (fun _ => false) [tracingFolder ""] [] (some "") = [tracingFolder ""] := by
    have hfind : [tracingFolder ""].find? (fun f => f.id = "") = some (tracingFolder "") := by
      simp [tracingFolder]
    rw [Resolve.climb_eq, if_neg (by simp), hfind]
    show tracingFolder "" :: climb _ _ [""] (some "") = _
    rw [Resolve.climb_eq, if_pos (Or.inr (by simp))]
  constructor
  · simp [mergeInheritedMetadata, ancestorChainRootFirst, hweb]
  · rw [Resolve.mergeInheritedMetadata]
    simp only [ancestorChainRootFirstRs, hrust]
    decide

end Voleeo.Web
