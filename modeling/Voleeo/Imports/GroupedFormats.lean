import Voleeo.Imports.Bruno
import Voleeo.Imports.Insomnia
import Voleeo.Imports.Yaak

/-!
# Formats with auth on groups

Whichever of these formats a document has, a request of the new workspace is sent
with the auth that the document gives it, unless a scheme that the importer does
not know stands in front of one that it knows.
-/
namespace Voleeo.Imports
open Postman

inductive GroupedFormat
  | bruno
  | insomnia
  | yaak

namespace GroupedFormat

/-- `fuel` bounds how deep the groups of a flat document nest; without enough of it there is no
result. -/
def parse (readers : Readers) (fuel : ℕ) :
    GroupedFormat → String → Option (Except ImportError ParsedCollection)
  | bruno, content => some (Bruno.parseBruno readers content)
  | insomnia, content => Insomnia.parseInsomnia readers fuel content
  | yaak, content => Yaak.parseYaak readers fuel content

/-- The text that is read as a value. -/
def text : GroupedFormat → String → String
  | insomnia, content => Insomnia.normalized content
  | _, content => content

def authFormat (readers : Readers) : GroupedFormat → AuthFormat
  | bruno => Bruno.format readers
  | insomnia => Insomnia.format readers
  | yaak => Yaak.format readers

/-- The auth of the collection. -/
def rootAuth : GroupedFormat → Json → ImportedAuth
  | bruno, doc => Bruno.rootAuth doc
  | insomnia, _ => .none
  | yaak, doc => Yaak.rootAuth doc

/-- A request of the document, and the groups around it from the inside outwards. -/
def Sits : GroupedFormat → Json → Json → List Json → Prop
  | bruno, doc, r, groups => Bruno.Sits doc r groups
  | insomnia, doc, r, groups =>
    ∃ resources, (doc.get "resources").bind Json.asArray = some resources ∧
      Insomnia.Sits resources r groups
  | yaak, doc, r, groups => Yaak.Sits doc r groups

/-- The document has the member that marks its format, and its folders can be told apart. -/
def IsExport : GroupedFormat → Json → Prop
  | bruno, doc => (doc.get "opencollection").isSome = true
  | insomnia, doc => ((doc.get "resources").bind Json.asArray).isSome = true
  | yaak, doc => (doc.get "yaakSchema").isSome = true ∧ Yaak.OwnIds (Yaak.foldersOf doc)

end GroupedFormat

section
variable {readers : Readers} {format : GroupedFormat} {content : String} {doc : Json}

theorem parse_returns (hdoc : readers.parseValue (format.text content) = .ok doc)
    (h : format.IsExport doc) :
    ∃ fuel parsed, format.parse readers fuel content = some (.ok parsed) := by
  cases format with
  | bruno =>
    obtain ⟨version, hversion⟩ := Option.isSome_iff_exists.mp h
    have hparse : Bruno.parseBruno readers content = Bruno.collectionOf readers doc := by
      rw [Bruno.parseBruno, show readers.parseValue content = .ok doc from hdoc]
      rfl
    refine ⟨0, ?_⟩
    rw [GroupedFormat.parse, hparse, Bruno.collectionOf, hversion]
    exact ⟨_, rfl⟩
  | insomnia =>
    obtain ⟨resources, hresources⟩ := Option.isSome_iff_exists.mp h
    obtain ⟨parsed, hparsed⟩ := Insomnia.collectionOf_returns readers content hresources
      (Nat.lt_succ_self _)
    refine ⟨resources.length + 1, parsed, ?_⟩
    rw [GroupedFormat.parse, Insomnia.parseInsomnia,
      show readers.parseValue (Insomnia.normalized content) = .ok doc from hdoc]
    exact hparsed
  | yaak =>
    obtain ⟨parsed, hparsed⟩ := Yaak.collectionOf_returns readers h.1 h.2 (Nat.lt_succ_self _)
    refine ⟨(Yaak.foldersOf doc).length + 1, parsed, ?_⟩
    rw [GroupedFormat.parse, Yaak.parseYaak, show readers.parseValue content = .ok doc from hdoc]
    exact hparsed

/-- In every format the items are built from the requests of the document. -/
theorem parse_follows (hdoc : readers.parseValue (format.text content) = .ok doc) {fuel : ℕ}
    {parsed : ParsedCollection} (h : format.parse readers fuel content = some (.ok parsed)) :
    parsed.collection.rootAuth = format.rootAuth doc ∧
      Follows (format.authFormat readers) (format.rootAuth doc) (format.Sits doc) []
        parsed.collection.items := by
  cases format with
  | bruno =>
    have hparse : Bruno.parseBruno readers content = Bruno.collectionOf readers doc := by
      rw [Bruno.parseBruno, show readers.parseValue content = .ok doc from hdoc]
      rfl
    rw [GroupedFormat.parse, hparse] at h
    exact Bruno.collectionOf_follows (Option.some.inj h)
  | insomnia =>
    rw [GroupedFormat.parse, Insomnia.parseInsomnia,
      show readers.parseValue (Insomnia.normalized content) = .ok doc from hdoc] at h
    obtain ⟨resources, hresources, hroot, entries, hsits, hall⟩ :=
      Insomnia.collectionOf_follows h
    exact ⟨hroot, entries, fun q hq => ⟨resources, hresources, hsits q hq⟩, hall⟩
  | yaak =>
    rw [GroupedFormat.parse, Yaak.parseYaak,
      show readers.parseValue content = .ok doc from hdoc] at h
    exact Yaak.collectionOf_follows h

end

/-- An export is read; and in the new workspace each of its requests is sent with the auth that
the document gives it, exactly when no unknown scheme stands in front of a known one. -/
theorem grouped_auth (source : Source) (hinj : Function.Injective source.newId)
    (hid : ∀ n, source.newId n ≠ "") (readers : Readers) (format : GroupedFormat)
    (content : String) (doc : Json) (hdoc : readers.parseValue (format.text content) = .ok doc)
    (ws : String) (base : ℚ) (created : Workspace) (hnew : created.auth = .none) :
    (format.IsExport doc → ∃ fuel parsed, format.parse readers fuel content = some (.ok parsed)) ∧
      ∀ fuel parsed, format.parse readers fuel content = some (.ok parsed) →
        parsed.collection.rootAuth = format.rootAuth doc ∧
          ∃ entries, (∀ q ∈ entries, format.Sits doc q.1 q.2) ∧
            List.Forall₂ (Sent source ws base (format.authFormat readers) parsed.collection created)
              entries (buildPlan source ws base parsed.collection).requests := by
  refine ⟨parse_returns hdoc, fun fuel parsed hparsed => ?_⟩
  obtain ⟨hroot, hfollows⟩ := parse_follows hdoc hparsed
  rw [← hroot] at hfollows
  exact ⟨hroot, hfollows.sent hinj hid hnew⟩

/-! ### A folder in a folder -/

def outerFolder : Json := .object
  [("id", .string "a"), ("name", .string "A"), ("authenticationType", .string "bearer"),
    ("authentication", .object [("token", .string "outer")])]

def innerFolder (scheme : String) : Json := .object
  [("id", .string "b"), ("folderId", .string "a"), ("name", .string "B"),
    ("authenticationType", .string scheme),
    ("authentication", .object [("token", .string "inner")])]

def innerRequest : Json := .object
  [("id", .string "r"), ("folderId", .string "b"), ("name", .string "R"),
    ("method", .string "GET"), ("url", .string "https://example.com")]

/-- The request has no auth of its own, and the inner folder has the given scheme. -/
def nestedDoc (scheme : String) : Json := .object
  [("yaakSchema", .number "4"), ("resources", .object
    [("folders", .array [outerFolder, innerFolder scheme]),
      ("httpRequests", .array [innerRequest])])]

def nestedText (scheme : String) : String :=
  "\x7b\"yaakSchema\":4,\"resources\":\x7b\"folders\":[" ++
  "\x7b\"id\":\"a\",\"name\":\"A\",\"authenticationType\":\"bearer\"," ++
  "\"authentication\":\x7b\"token\":\"outer\"\x7d\x7d," ++
  "\x7b\"id\":\"b\",\"folderId\":\"a\",\"name\":\"B\",\"authenticationType\":\"" ++ scheme ++
  "\",\"authentication\":\x7b\"token\":\"inner\"\x7d\x7d]," ++
  "\"httpRequests\":[\x7b\"id\":\"r\",\"folderId\":\"b\",\"name\":\"R\"," ++
  "\"method\":\"GET\",\"url\":\"https://example.com\"\x7d]\x7d\x7d"

/-- Libraries that know the document. -/
def nestedReaders (scheme : String) : Readers where
  parseValue content :=
    if content = nestedText scheme then .ok (nestedDoc scheme) else .error (.parse "expected value")
  readJson _ := none
  upper s := s
  int text := text.toInt?
  float text := text.toInt?.getD 0
  render _ := ""

theorem nestedReaders_parseValue (scheme : String) :
    (nestedReaders scheme).parseValue (nestedText scheme) = .ok (nestedDoc scheme) := by
  simp only [nestedReaders, if_true]

/-- The request sits in both folders, and there is no other one. -/
theorem nestedDoc_sits {scheme : String} {r : Json} {groups : List Json}
    (h : GroupedFormat.yaak.Sits (nestedDoc scheme) r groups) :
    r = innerRequest ∧ groups = [innerFolder scheme, outerFolder] := by
  have hfolders : Yaak.foldersOf (nestedDoc scheme) = [outerFolder, innerFolder scheme] := rfl
  have houter : Yaak.folderIdOf outerFolder = none := rfl
  have hinner : Yaak.folderIdOf (innerFolder scheme) = some "a" := rfl
  have hidOuter : Yaak.idOf outerFolder = some "a" := rfl
  have hidInner : Yaak.idOf (innerFolder scheme) = some "b" := rfl
  obtain ⟨hmem, haround⟩ := h
  obtain rfl : r = innerRequest := List.mem_singleton.mp hmem
  refine ⟨rfl, ?_⟩
  rw [hfolders] at haround
  have hown : Yaak.folderIdOf innerRequest = some "b" := rfl
  cases haround with
  | top h => exact absurd (hown.symm.trans h) (by decide)
  | inside hg hparent habove =>
    rw [hown] at hparent
    rcases List.mem_pair.mp hg with rfl | rfl
    · exact absurd (hparent.trans hidOuter) (by decide)
    · cases habove with
      | top h => exact absurd (hinner.symm.trans h) (by decide)
      | inside hg hparent habove =>
        rw [hinner] at hparent
        rcases List.mem_pair.mp hg with rfl | rfl
        · cases habove with
          | top h => rfl
          | inside hg hparent habove =>
            rw [houter] at hparent
            rcases List.mem_pair.mp hg with rfl | rfl
            · exact absurd (hparent.trans hidOuter) (by decide)
            · exact absurd (hparent.trans hidInner) (by decide)
        · exact absurd (hparent.trans hidInner) (by decide)

theorem ownIds_nestedDoc (scheme : String) : Yaak.OwnIds (Yaak.foldersOf (nestedDoc scheme)) where
  present f hf := by
    rcases List.mem_pair.mp hf with rfl | rfl
    · rfl
    · rfl
  distinct := by
    change [some "a", some "b"].Nodup
    decide

/-- The nodes of the document that lie in the given folder. -/
def nestedNodes (readers : Readers) (scheme : String) (parent : Option String) : List Yaak.Node :=
  Yaak.nodesOf readers (Yaak.foldersOf (nestedDoc scheme)) (Yaak.requestsOf (nestedDoc scheme))
    parent

theorem nestedNodes_eq (readers : Readers) (scheme : String) :
    nestedNodes readers scheme none = [.folder outerFolder] ∧
      nestedNodes readers scheme (some "a") = [.folder (innerFolder scheme)] ∧
      nestedNodes readers scheme (some "b") = [.request innerRequest] :=
  ⟨List.mergeSort_singleton _, List.mergeSort_singleton _, List.mergeSort_singleton _⟩

/-- The folders in one another, and the request in the inner one. -/
def nestedItems (readers : Readers) (scheme : String) : List ImportedItem :=
  [.folder (Yaak.importFolder outerFolder false)
    [.folder (Yaak.importFolder (innerFolder scheme) true)
      [.request (Yaak.buildRequest readers innerRequest true)]]]

theorem buildChildren_nestedDoc (readers : Readers) (scheme : String) :
    Yaak.buildChildren readers (Yaak.foldersOf (nestedDoc scheme))
      (Yaak.requestsOf (nestedDoc scheme)) 3 none false = some (nestedItems readers scheme) := by
  have hauth : Yaak.hasAuth outerFolder = true := by
    rw [Yaak.hasAuth, decide_eq_true_eq]
    exact ImportedAuth.noConfusion
  obtain ⟨houter, hinner, hrequest⟩ := nestedNodes_eq readers scheme
  rw [nestedNodes] at houter hinner hrequest
  have hone : Yaak.buildChildren readers (Yaak.foldersOf (nestedDoc scheme))
      (Yaak.requestsOf (nestedDoc scheme)) 1 (some "b") true =
      some [.request (Yaak.buildRequest readers innerRequest true)] := by
    rw [Yaak.buildChildren, hrequest]
    rfl
  have htwo : Yaak.buildChildren readers (Yaak.foldersOf (nestedDoc scheme))
      (Yaak.requestsOf (nestedDoc scheme)) 2 (some "a") true =
      some [.folder (Yaak.importFolder (innerFolder scheme) true)
        [.request (Yaak.buildRequest readers innerRequest true)]] := by
    rw [Yaak.buildChildren, hinner, Yaak.buildNodes, Bool.true_or,
      show Yaak.idOf (innerFolder scheme) = some "b" from rfl, hone]
    rfl
  rw [Yaak.buildChildren, houter, Yaak.buildNodes, hauth, Bool.or_true,
    show Yaak.idOf outerFolder = some "a" from rfl, htwo]
  rfl

theorem parse_nestedDoc (scheme : String) :
    ∃ parsed, GroupedFormat.yaak.parse (nestedReaders scheme) 3 (nestedText scheme) =
        some (.ok parsed) ∧ parsed.collection.rootAuth = .none ∧
      parsed.collection.items = nestedItems (nestedReaders scheme) scheme := by
  have hroot : Yaak.rootAuth (nestedDoc scheme) = .none := rfl
  have hschema : (nestedDoc scheme).get "yaakSchema" = some (.number "4") := rfl
  rw [GroupedFormat.parse, Yaak.parseYaak, nestedReaders_parseValue]
  simp only [Yaak.collectionOf, hschema, hroot, ne_eq, not_true, decide_false,
    buildChildren_nestedDoc]
  exact ⟨_, rfl, rfl, rfl⟩

/-- The request inherits in the inner folder, below the outer one. -/
theorem itemsRequests_nestedItems (readers : Readers) (scheme : String) :
    itemsRequests [] (nestedItems readers scheme) =
      [(Yaak.buildRequest readers innerRequest true,
        [convertAuth (Yaak.importFolder (innerFolder scheme) true).auth,
          convertAuth (Yaak.importFolder outerFolder false).auth])] := rfl

/-- So the plan has one request. -/
theorem nestedItems_requests {col : ImportedCollection} {readers : Readers} {scheme : String}
    (h : col.items = nestedItems readers scheme) (source : Source) (ws : String) (base : ℚ) :
    ∃ r, (buildPlan source ws base col).requests = [r] := by
  obtain ⟨built, hbuilt, hall⟩ :=
    convertItems_converted source ws base none col.items ⟨[], [], 0, 0⟩ []
  rw [h, itemsRequests_nestedItems, List.forall₂_cons_left_iff] at hall
  obtain ⟨r, rest, -, hrest, rfl⟩ := hall
  rw [List.forall₂_nil_left_iff.mp hrest] at hbuilt
  exact ⟨r, hbuilt⟩

theorem authOf_innerFolder : Yaak.authOf (innerFolder "bearer") = .bearer "inner" := by
  have hplain : Yaak.convertTemplate "inner" = "inner" := Yaak.convertTemplate_plain (by decide)
  change ImportedAuth.bearer (Yaak.convertTemplate "inner") = _
  rw [hplain]

theorem grouped_auth_nestedDoc :
    ∃ parsed, GroupedFormat.yaak.parse (nestedReaders "bearer") 3 (nestedText "bearer") =
        some (.ok parsed) ∧
      ∀ r ∈ (buildPlan tally "w1" 0 parsed.collection).requests,
        (Send.resolveInheritedAuthAnnotated r.auth r.folderId
          (buildPlan tally "w1" 0 parsed.collection).folders
          (withRootAuth (buildPlan tally "w1" 0 parsed.collection).rootAuth
            (Send.workspaceWith .none))).auth = convertAuth (.bearer "inner") := by
  obtain ⟨parsed, hparsed, -, hitems⟩ := parse_nestedDoc "bearer"
  refine ⟨parsed, hparsed, fun r hr => ?_⟩
  obtain ⟨-, hall⟩ := grouped_auth tally injective_tally tally_ne_empty (nestedReaders "bearer")
    .yaak (nestedText "bearer") (nestedDoc "bearer") (nestedReaders_parseValue "bearer") "w1" 0
    (Send.workspaceWith .none) rfl
  obtain ⟨hroot, entries, hsits, hsent⟩ := hall 3 parsed hparsed
  obtain ⟨r', hrequests⟩ := nestedItems_requests hitems tally "w1" 0
  rw [hrequests, List.mem_singleton] at hr
  rw [hr]
  rw [hrequests, List.forall₂_cons_right_iff] at hsent
  obtain ⟨q, rest, hq, -, rfl⟩ := hsent
  obtain ⟨hrequest, hgroups⟩ := nestedDoc_sits (hsits q List.mem_cons_self)
  have hnearest : nearestScheme ((GroupedFormat.yaak.authFormat (nestedReaders "bearer")).around
      parsed.collection.rootAuth q.2) = .bearer "inner" := by
    rw [hgroups]
    change nearestScheme (Yaak.authOf (innerFolder "bearer") :: _) = _
    rw [authOf_innerFolder, nearestScheme_cons]
    rfl
  have hown : (GroupedFormat.yaak.authFormat (nestedReaders "bearer")).own q.1 = none := by
    rw [hrequest]
    rfl
  have heq := hq.2.mpr (Or.inr fun ty hty => by rw [hnearest] at hty; cases hty)
  rw [heq, hown]
  exact congrArg convertAuth hnearest

/-- Below a folder with an unknown scheme, the request is sent with the auth of the outer one. -/
theorem outer_auth_found :
    ¬ ∀ (source : Source), Function.Injective source.newId → (∀ n, source.newId n ≠ "") →
      ∀ (readers : Readers) (format : GroupedFormat) (content : String) (doc : Json),
        readers.parseValue (format.text content) = .ok doc → format.IsExport doc →
        ∀ (created : Workspace), created.auth = .none →
        ∀ fuel parsed, format.parse readers fuel content = some (.ok parsed) →
          ∃ entries : List (Json × List Json), (∀ q ∈ entries, format.Sits doc q.1 q.2) ∧
            List.Forall₂ (fun q r =>
              (Send.resolveInheritedAuthAnnotated r.auth r.folderId
                (buildPlan source "w1" 0 parsed.collection).folders
                (withRootAuth (buildPlan source "w1" 0 parsed.collection).rootAuth
                  created)).auth =
                convertAuth (documentAuth ((format.authFormat readers).own q.1)
                  ((format.authFormat readers).around (format.rootAuth doc) q.2)))
              entries (buildPlan source "w1" 0 parsed.collection).requests := by
  intro h
  obtain ⟨parsed, hparsed, hroot, hitems⟩ := parse_nestedDoc "digest"
  have hdoc := nestedReaders_parseValue "digest"
  have hexport : GroupedFormat.yaak.IsExport (nestedDoc "digest") :=
    ⟨rfl, ownIds_nestedDoc "digest"⟩
  obtain ⟨entries, hsits, hall⟩ := h tally injective_tally tally_ne_empty (nestedReaders "digest")
    .yaak (nestedText "digest") (nestedDoc "digest") hdoc hexport (Send.workspaceWith .none) rfl 3
    parsed hparsed
  obtain ⟨hroot', hfollows⟩ := @parse_follows _ .yaak _ _ hdoc _ _ hparsed
  rw [← hroot'] at hfollows
  obtain ⟨entries', hsits', hsent⟩ := @Follows.sent tally "w1" 0 injective_tally tally_ne_empty _ _
    _ hfollows (Send.workspaceWith .none) rfl
  obtain ⟨r, hrequests⟩ := nestedItems_requests hitems tally "w1" 0
  rw [hrequests, List.forall₂_cons_right_iff] at hall hsent
  obtain ⟨q, rest, hq, -, rfl⟩ := hall
  obtain ⟨q', rest', hq', -, rfl⟩ := hsent
  obtain ⟨hrequest, hgroups⟩ := nestedDoc_sits (hsits q List.mem_cons_self)
  obtain ⟨hrequest', hgroups'⟩ := nestedDoc_sits (hsits' q' List.mem_cons_self)
  obtain rfl : q = q' := Prod.ext (hrequest.trans hrequest'.symm) (hgroups.trans hgroups'.symm)
  rw [← hroot'] at hq
  rcases hq'.2.mp hq with ⟨auth, hown, -⟩ | hclear
  · rw [hrequest] at hown
    cases hown
  · rw [hgroups, hroot] at hclear
    have houter : isKnown (Yaak.authOf outerFolder) = true := rfl
    have hunknown := hclear "digest" rfl (Yaak.authOf outerFolder)
      (List.mem_cons_of_mem _ List.mem_cons_self)
    rw [houter] at hunknown
    cases hunknown

end Voleeo.Imports
