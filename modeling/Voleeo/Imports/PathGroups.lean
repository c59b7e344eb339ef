import Mathlib.Data.List.Forall2
import Mathlib.Data.String.Basic
import Voleeo.Postman.Imported
import Voleeo.Trie

/-!
# Requests grouped by their paths

The importers of API descriptions put requests into a trie of path segments and turn its nodes
into folders. A request that is alone at the end of its path stays with the requests above.
-/
namespace Voleeo.Imports
open Postman

/-- The parts of a path between slashes, without the empty ones. -/
def segments (path : String) : List String :=
  ((path.toList.splitOn '/').filter (· ≠ [])).map String.ofList

abbrev PathNode := Trie String ImportedRequest

def pathFolder (seg : String) : ImportedFolder :=
  { name := seg, description := none, auth := .none, headers := [], «variables» := [] }

mutual

def nodeToItems : Trie String ImportedRequest → List ImportedItem
  | .node requests children => requests.map .request ++ childrenToItems children

def childrenToItems : Branches String ImportedRequest → List ImportedItem
  | .nil => []
  | .cons seg child rest =>
    (if 1 < child.values.length ∨ child.branches.isEmpty = false then
      [.folder (pathFolder seg) (nodeToItems child)]
    else child.values.map .request) ++ childrenToItems rest

end

def groupByPath (requests : List ImportedRequest) : List ImportedItem :=
  nodeToItems (Trie.ofList (fun r : ImportedRequest => segments r.path) requests)

/-! ## Requests in their folders -/

mutual

/-- The requests of an item with the folders that they are in, the outermost first. -/
def itemLeaves : ImportedItem → List (List ImportedFolder × ImportedRequest)
  | .request r => [([], r)]
  | .folder f items => (leaves items).map (underKey f)

def leaves : List ImportedItem → List (List ImportedFolder × ImportedRequest)
  | [] => []
  | item :: rest => itemLeaves item ++ leaves rest

end

@[simp] theorem leaves_nil : leaves [] = [] := rfl

@[simp] theorem leaves_cons (item : ImportedItem) (rest : List ImportedItem) :
    leaves (item :: rest) = itemLeaves item ++ leaves rest := rfl

theorem leaves_append (items items' : List ImportedItem) :
    leaves (items ++ items') = leaves items ++ leaves items' := by
  induction items with
  | nil => rfl
  | cons item items ih => rw [List.cons_append, leaves_cons, leaves_cons, ih, List.append_assoc]

theorem leaves_map_request (requests : List ImportedRequest) :
    leaves (requests.map .request) = requests.map fun r => ([], r) := by
  induction requests with
  | nil => rfl
  | cons r requests ih => rw [List.map_cons, leaves_cons, ih]; rfl

def folderNames (leaf : List ImportedFolder × ImportedRequest) : List String :=
  leaf.1.map (·.name)

/-- A leaf of the items is an entry of the trie, in folders that are a beginning of its path. -/
def IsPlaced (leaf : List ImportedFolder × ImportedRequest)
    (entry : List String × ImportedRequest) : Prop :=
  leaf.2 = entry.2 ∧ folderNames leaf <+: entry.1

theorem isPlaced_requests (requests : List ImportedRequest) (path : List String) :
    List.Forall₂ IsPlaced (requests.map fun r => ([], r)) (requests.map fun r => (path, r)) := by
  rw [List.forall₂_map_left_iff, List.forall₂_map_right_iff]
  exact List.forall₂_same.mpr fun r hr => ⟨rfl, List.nil_prefix⟩

mutual

theorem nodeToItems_placed :
    ∀ t : Trie String ImportedRequest, List.Forall₂ IsPlaced (leaves (nodeToItems t)) t.entries
  | .node requests children => by
      rw [nodeToItems, Trie.entries, leaves_append, leaves_map_request]
      exact List.rel_append (isPlaced_requests requests []) (childrenToItems_placed children)

theorem childrenToItems_placed : ∀ b : Branches String ImportedRequest,
    List.Forall₂ IsPlaced (leaves (childrenToItems b)) b.entries
  | .nil => List.Forall₂.nil
  | .cons seg child rest => by
      rw [childrenToItems, Branches.entries, leaves_append]
      refine List.rel_append ?_ (childrenToItems_placed rest)
      split_ifs with hfolder
      · rw [leaves_cons, leaves_nil, List.append_nil, itemLeaves, List.forall₂_map_left_iff,
          List.forall₂_map_right_iff]
        refine (nodeToItems_placed child).imp ?_
        rintro leaf entry ⟨hrequest, hfolders⟩
        exact ⟨hrequest, (List.prefix_cons_inj seg).mpr hfolders⟩
      · -- A node without branches holds only its own requests.
        obtain ⟨requests, branches⟩ := child
        obtain _ | ⟨key, below, others⟩ := branches
        · have hentries : (Trie.node requests Branches.nil : PathNode).entries =
              requests.map fun r => ([], r) := List.append_nil _
          rw [leaves_map_request, hentries, List.map_map]
          exact isPlaced_requests requests [seg]
        · exact absurd (Or.inr rfl) hfolder

end

/-! ## The groups of a list of requests -/

/-- The requests of a description, in the trie of their paths. -/
def pathTrie (requests : List ImportedRequest) : Trie String ImportedRequest :=
  Trie.ofList (fun r : ImportedRequest => segments r.path) requests

theorem path_of_mem_entries {requests : List ImportedRequest} {e : List String × ImportedRequest}
    (h : e ∈ (pathTrie requests).entries) : e.1 = segments e.2.path := by
  obtain ⟨r, -, rfl⟩ := List.mem_map.mp ((Trie.entries_ofList_perm _ requests).subset h)
  rfl

theorem exists_entry_of_mem {items : List (List ImportedFolder × ImportedRequest)}
    {entries : List (List String × ImportedRequest)} (h : List.Forall₂ IsPlaced items entries)
    {leaf : List ImportedFolder × ImportedRequest} (hleaf : leaf ∈ items) :
    ∃ e ∈ entries, IsPlaced leaf e := by
  induction h with
  | nil => cases hleaf
  | cons hfirst hrest ih =>
    rcases List.mem_cons.mp hleaf with rfl | hmem
    · exact ⟨_, List.mem_cons_self, hfirst⟩
    · obtain ⟨e, he, hplaced⟩ := ih hmem
      exact ⟨e, List.mem_cons_of_mem _ he, hplaced⟩

theorem leaves_groupByPath (requests : List ImportedRequest) :
    (leaves (groupByPath requests)).map Prod.snd = (pathTrie requests).entries.map Prod.snd := by
  have hplaced := nodeToItems_placed (pathTrie requests)
  rw [← List.forall₂_eq_eq_eq, List.forall₂_map_left_iff, List.forall₂_map_right_iff]
  exact hplaced.imp fun leaf entry h => h.1

/-- Grouping keeps every request once, keeps those of one path in order, and puts each request
into folders along a beginning of its path. -/
theorem groupByPath_keeps (requests : List ImportedRequest) :
    ((leaves (groupByPath requests)).map Prod.snd).Perm requests ∧
    (∀ segs, ((leaves (groupByPath requests)).map Prod.snd).filter (segments ·.path = segs) =
      requests.filter (segments ·.path = segs)) ∧
    ∀ leaf ∈ leaves (groupByPath requests), folderNames leaf <+: segments leaf.2.path := by
  have hentries : (pathTrie requests).entries.Perm (requests.map fun r => (segments r.path, r)) :=
    Trie.entries_ofList_perm _ requests
  refine ⟨?_, ?_, ?_⟩
  · rw [leaves_groupByPath]
    have hrequests := hentries.map Prod.snd
    rwa [List.map_map, show (Prod.snd ∘ fun r : ImportedRequest => (segments r.path, r)) = id from
      rfl, List.map_id] at hrequests
  · intro segs
    rw [leaves_groupByPath, List.filter_map,
      ← Trie.filter_entries_ofList (fun r : ImportedRequest => segments r.path)]
    refine congrArg (List.map Prod.snd) (List.filter_congr ?_)
    intro e he
    rw [path_of_mem_entries he]
    rfl
  · intro leaf hleaf
    obtain ⟨e, he, hrequest, hfolders⟩ :=
      exists_entry_of_mem (nodeToItems_placed (pathTrie requests)) hleaf
    rwa [path_of_mem_entries he, ← hrequest] at hfolders

end Voleeo.Imports
