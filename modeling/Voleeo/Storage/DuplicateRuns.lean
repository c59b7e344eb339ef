import Mathlib.Tactic.Linarith
import Voleeo.Storage.Duplicates
import Voleeo.Storage.EnvironmentRuns
import Voleeo.Storage.QuietRuns

/-!
# Where copies land

The copy of an item is shown directly below the item exactly if no sibling that another store keeps
lies on the way to the next of the siblings that its own store keeps. So every run of copies that
meet no such sibling keeps all orders apart.
-/
namespace Voleeo.Storage
open Fallible (Outcome)
open Voleeo.Tree (ItemKind folderItem requestItem connectionItem grpcItem RequestState buildTree
  TreeNode)

variable {m : Machine} {d d' : Disk} {ws id : String} {kind : ItemKind} {place : Option String}
  {items before after added : List Tree.Item} {t t' : ℕ}

/-! ## Copies on the disk -/

/-- The kinds of items in the store that keeps the kind. -/
def storeKinds : ItemKind → List ItemKind
  | .folder | .request => [.folder, .request]
  | .webSocket => [.webSocket]
  | .grpc => [.grpc]

/-- The items in the store that keeps the kind. -/
def ownItems (kind : ItemKind) (items : List Tree.Item) : List Tree.Item :=
  items.filter fun i => i.kind ∈ storeKinds kind

theorem ownItems_append (kind : ItemKind) (items items' : List Tree.Item) :
    ownItems kind (items ++ items') = ownItems kind items ++ ownItems kind items' :=
  List.filter_append ..

/-- A store keeps items of all its kinds and of no others. -/
theorem ownItems_of_kinds {kinds : List ItemKind} (h : ∀ i ∈ items, i.kind ∈ kinds) :
    ((∀ k ∈ kinds, k ∈ storeKinds kind) → ownItems kind items = items) ∧
      ((∀ k ∈ kinds, k ∉ storeKinds kind) → ownItems kind items = []) := by
  refine ⟨fun hall => ?_, fun hnone => ?_⟩
  · exact List.filter_eq_self.mpr fun i hi => decide_eq_true (hall _ (h i hi))
  · exact List.filter_eq_nil_iff.mpr fun i hi hmem =>
      hnone _ (h i hi) (of_decide_eq_true hmem)

/-- The connections of a workspace, and its gRPC requests. -/
def Disk.connectionItems (d : Disk) (ws : String) : List Tree.Item :=
  (d.connections.toList.filter fun c => c.workspaceId = ws).map connectionItem

def Disk.grpcItems (d : Disk) (ws : String) : List Tree.Item :=
  (d.grpcRequests.toList.filter fun g => g.workspaceId = ws).map grpcItem

theorem Disk.items_eq (d : Disk) (ws : String) :
    d.items ws = d.store.items ws ++ (d.connectionItems ws ++ d.grpcItems ws) := rfl

theorem kind_of_mem_store {w : World} : ∀ i ∈ w.items ws, i.kind ∈ [.folder, .request] := by
  intro i hi
  rcases List.mem_append.mp hi with hi | hi
  · obtain ⟨f, -, rfl⟩ := List.mem_map.mp hi
    exact List.mem_cons_self
  · obtain ⟨r, -, rfl⟩ := List.mem_map.mp hi
    exact List.mem_cons_of_mem _ List.mem_cons_self

theorem kind_of_mem_connections : ∀ i ∈ d.connectionItems ws, i.kind ∈ [.webSocket] :=
  List.forall_mem_map.mpr fun _ _ => List.mem_cons_self

theorem kind_of_mem_grpc : ∀ i ∈ d.grpcItems ws, i.kind ∈ [.grpc] :=
  List.forall_mem_map.mpr fun _ _ => List.mem_cons_self

theorem ownItems_disk (d : Disk) (ws : String) (kind : ItemKind) :
    ownItems kind (d.items ws) = match kind with
      | .folder | .request => d.store.items ws
      | .webSocket => d.connectionItems ws
      | .grpc => d.grpcItems ws := by
  have hstore := @ownItems_of_kinds kind _ _ (@kind_of_mem_store ws d.store)
  have hconnections := @ownItems_of_kinds kind _ _ (@kind_of_mem_connections d ws)
  have hgrpc := @ownItems_of_kinds kind _ _ (@kind_of_mem_grpc d ws)
  rw [Disk.items_eq, ownItems_append, ownItems_append]
  cases kind with
  | folder | request =>
    rw [hstore.1 (by decide), hconnections.2 (by decide), hgrpc.2 (by decide),
      List.append_nil, List.append_nil]
  | webSocket =>
    rw [hstore.2 (by decide), hconnections.1 (by decide), hgrpc.2 (by decide),
      List.nil_append, List.append_nil]
  | grpc =>
    rw [hstore.2 (by decide), hconnections.2 (by decide), hgrpc.1 (by decide),
      List.nil_append, List.nil_append]

/-! ## Connections and gRPC requests -/

/-- Only time has passed, as far as items go. -/
structure SameItems (d d' : Disk) : Prop where
  store : SameFiles d.store d'.store
  connections : d'.connections = d.connections
  grpcRequests : d'.grpcRequests = d.grpcRequests

theorem SameItems.refl (d : Disk) : SameItems d d := ⟨.refl _, rfl, rfl⟩

theorem SameItems.trans {d'' : Disk} (h : SameItems d d') (h' : SameItems d' d'') :
    SameItems d d'' :=
  ⟨h.store.trans h'.store, h'.connections.trans h.connections, h'.grpcRequests.trans h.grpcRequests⟩

theorem SameItems.items_eq (h : SameItems d d') (ws : String) : d'.items ws = d.items ws := by
  rw [Disk.items, Disk.items, h.store.items_eq, h.connections, h.grpcRequests]

/-- An operation of the request store leaves the other stores as they are. -/
theorem onWorld_gives {α : Type} {x : Store α} {Q : α → World → Prop} (h : Gives x d.store Q) :
    Gives (onWorld x) d fun a d' => Q a d'.store ∧ d' = { d with store := d'.store } := by
  rw [Gives, Outcome] at h ⊢
  rw [onWorld, Fallible.zoom]
  rcases hrun : x d.store with ⟨e | a, w⟩
  · trivial
  · rw [hrun] at h
    exact ⟨h, rfl⟩

theorem onWorld_reads {α : Type} {x : Store α} {Q : α → Prop} (h : Reads x d.store Q) :
    Gives (onWorld x) d fun a d' => SameItems d d' ∧ Q a := by
  refine Outcome.mono (onWorld_gives (Gives.reads h)) ?_ fun _ _ he => he
  rintro a d' ⟨⟨hsame, hQ⟩, hd'⟩
  refine ⟨⟨hsame, ?_, ?_⟩, hQ⟩
  · rw [hd']
  · rw [hd']

theorem listSorted_gives {α κ : Type} [LinearOrder κ] {list : Disk → List α} {key : α → κ}
    (hsame : ∀ d', SameItems d d' → list d' = list d) : Gives (listSorted m list key) d
      fun l d' => SameItems d d' ∧ l.Perm (list d) := by
  refine Outcome.bind (onWorld_reads .fileSystem) fun _ d₁ ⟨h₁, _⟩ => ?_
  refine Outcome.bind (Outcome.get (Q := fun a d' => a = d₁ ∧ d' = d₁) ⟨rfl, rfl⟩) ?_
  rintro _ _ ⟨rfl, rfl⟩
  refine Outcome.bind (onWorld_reads (.ask _)) fun entries d₂ ⟨h₂, hentries⟩ => ?_
  refine Outcome.pure ⟨h₁.trans h₂, (sortBy_perm _ _).trans ?_⟩
  rw [hentries, ← hsame _ h₁]
  exact m.readDir_perm _ _

theorem fail_gives {α : Type} {e : VoleeoError} {Q : α → Disk → Prop} :
    Gives (fail e : OnDisk α) d Q := trivial

theorem getConnection_gives : Gives (getConnection m ws id) d fun c d' =>
    SameItems d d' ∧ c ∈ d.connections.toList ∧ connectionKey c = (ws, id) := by
  refine Outcome.bind (onWorld_reads (.lift _)) fun _ d₁ ⟨h₁, _⟩ => ?_
  refine Outcome.bind (onWorld_reads (.lift _)) fun _ d₂ ⟨h₂, _⟩ => ?_
  refine Outcome.bind (Outcome.get (Q := fun a d' => a = d₂ ∧ d' = d₂) ⟨rfl, rfl⟩) ?_
  rintro _ _ ⟨rfl, rfl⟩
  split
  · exact fail_gives
  · rename_i conn hfind
    refine Outcome.bind (onWorld_reads .fileSystem) fun _ d₃ ⟨h₃, _⟩ => ?_
    split
    · exact fail_gives
    · rw [(h₁.trans h₂).connections, Records.find?_eq_some_iff] at hfind
      exact Outcome.pure ⟨(h₁.trans h₂).trans h₃, hfind⟩

theorem getGrpc_gives : Gives (getGrpc m ws id) d fun g d' =>
    SameItems d d' ∧ g ∈ d.grpcRequests.toList ∧ grpcKey g = (ws, id) := by
  refine Outcome.bind (onWorld_reads (.lift _)) fun _ d₁ ⟨h₁, _⟩ => ?_
  refine Outcome.bind (onWorld_reads (.lift _)) fun _ d₂ ⟨h₂, _⟩ => ?_
  refine Outcome.bind (Outcome.get (Q := fun a d' => a = d₂ ∧ d' = d₂) ⟨rfl, rfl⟩) ?_
  rintro _ _ ⟨rfl, rfl⟩
  split
  · exact fail_gives
  · rename_i req hfind
    refine Outcome.bind (onWorld_reads .fileSystem) fun _ d₃ ⟨h₃, _⟩ => ?_
    split
    · exact fail_gives
    · rw [(h₁.trans h₂).grpcRequests, Records.find?_eq_some_iff] at hfind
      exact Outcome.pure ⟨(h₁.trans h₂).trans h₃, hfind⟩

theorem connectionOrderAfter_gives {after : ℚ} :
    Gives (connectionOrderAfter m ws place after) d fun order d' => SameItems d d' ∧
      order = halfway after ((itemsAt (d.connectionItems ws) place).map Tree.Item.order) := by
  refine Outcome.bind (Q := fun l d' => SameItems d d' ∧
    l.Perm (d.connections.toList.filter fun c => c.workspaceId = ws)) ?_ fun l d₁ ⟨h₁, hl⟩ => ?_
  · refine Outcome.bind (onWorld_reads workspaceDir_reads) fun _ d₁ ⟨h₁, _⟩ => ?_
    refine Outcome.mono (listSorted_gives fun d' h => by rw [h.connections]) ?_ fun _ _ he => he
    rintro l d₂ ⟨h₂, hl⟩
    rw [h₁.connections] at hl
    exact ⟨h₁.trans h₂, hl⟩
  · refine Outcome.pure ⟨h₁, halfway_perm ?_⟩
    rw [Disk.connectionItems, itemsAt, List.filter_map, List.map_map]
    exact (hl.filter _).map _

theorem grpcOrderAfter_gives {after : ℚ} :
    Gives (grpcOrderAfter m ws place after) d fun order d' => SameItems d d' ∧
      order = halfway after ((itemsAt (d.grpcItems ws) place).map Tree.Item.order) := by
  refine Outcome.bind (Q := fun l d' => SameItems d d' ∧
    l.Perm (d.grpcRequests.toList.filter fun g => g.workspaceId = ws)) ?_ fun l d₁ ⟨h₁, hl⟩ => ?_
  · refine Outcome.bind (onWorld_reads workspaceDir_reads) fun _ d₁ ⟨h₁, _⟩ => ?_
    refine Outcome.mono (listSorted_gives fun d' h => by rw [h.grpcRequests]) ?_ fun _ _ he => he
    rintro l d₂ ⟨h₂, hl⟩
    rw [h₁.grpcRequests] at hl
    exact ⟨h₁.trans h₂, hl⟩
  · refine Outcome.pure ⟨h₁, halfway_perm ?_⟩
    rw [Disk.grpcItems, itemsAt, List.filter_map, List.map_map]
    exact (hl.filter _).map _

/-- The end of a copy: an id is drawn, the time is read, and the file is written. -/
theorem writeCopy_gives {α : Type} {copy : String → String → α} {file : String → String → File} :
    Gives (do
      let new ← onWorld (ask m.newId)
      let now ← now m
      validate ws
      validate new
      writeFile m (file new now)
      return copy new now) d fun a d' => ∃ new now d₁, a = copy new now ∧ SameItems d d₁ ∧
        Drawn m.toEnv d.store.tick d₁.store.tick new ∧ d' = d₁.put (file new now) := by
  refine Outcome.bind (onWorld_gives newId_gives) fun new d₁ hend => ?_
  obtain ⟨⟨hstore, hdrawn⟩, hd₁⟩ := hend
  have h₁ : SameItems d d₁ := ⟨hstore, by rw [hd₁], by rw [hd₁]⟩
  refine Outcome.bind (onWorld_reads (.ask m.now)) fun now d₂ hend => ?_
  obtain ⟨h₂, _⟩ := hend
  refine Outcome.bind (onWorld_reads (.lift _)) fun _ d₃ hend => ?_
  obtain ⟨h₃, _⟩ := hend
  refine Outcome.bind (onWorld_reads (.lift _)) fun _ d₄ hend => ?_
  obtain ⟨h₄, _⟩ := hend
  rw [writeFile, bind_assoc]
  refine Outcome.bind (onWorld_reads .fileSystem) fun _ d₅ hend => ?_
  obtain ⟨h₅, _⟩ := hend
  have hsame := (h₂.trans h₃).trans (h₄.trans h₅)
  exact ⟨new, now, d₅, rfl, h₁.trans hsame, hdrawn.mono le_rfl hsame.store.tick, rfl⟩

/-- A single item has come. -/
theorem Duplicated.single {src copy : Tree.Item} {d₁ : Disk} (hsame : SameItems d d₁)
    (htick : d'.store.tick = d₁.store.tick) (hmem : src ∈ ownItems src.kind (d.items ws))
    (hperm : (d'.items ws).Perm (copy :: d.items ws)) (hkind : copy.kind = src.kind)
    (hfolder : copy.folderId = src.folderId)
    (hdrawn : Drawn m.toEnv d.store.tick d₁.store.tick copy.id)
    (horder : copy.order = halfway src.order
      ((itemsAt (ownItems src.kind (d.items ws)) src.folderId).map Tree.Item.order)) :
    Duplicated m.toEnv d.store.tick d'.store.tick (d.items ws) (d'.items ws)
      (ownItems src.kind (d.items ws)) src.kind src.id copy := by
  rw [htick]
  exact ⟨src, hmem, rfl, rfl, horder, [], .single hsame.store.tick hperm hkind hfolder hdrawn⟩

theorem items_putConnection {c : WsConnection} (hnew : ∀ i ∈ d.items c.workspaceId, i.id ≠ c.id) :
    ((d.put (.connection c)).items c.workspaceId).Perm
      (connectionItem c :: d.items c.workspaceId) := by
  have hput := @toList_put_of_new _ _ d.connections c fun b hb hkey => by
    refine hnew (connectionItem b) ?_ (congrArg Prod.snd hkey)
    rw [← show b.workspaceId = c.workspaceId from congrArg Prod.fst hkey]
    exact List.mem_append_right _ (List.mem_append_left _
      (List.mem_map_of_mem (List.mem_filter.mpr ⟨hb, decide_eq_true rfl⟩)))
  rw [Disk.items, Disk.put, hput]
  simp only [List.filter_cons, decide_true, if_true, List.map_cons, List.cons_append]
  exact List.perm_middle

theorem items_putGrpc {g : GrpcRequest} (hnew : ∀ i ∈ d.items g.workspaceId, i.id ≠ g.id) :
    ((d.put (.grpc g)).items g.workspaceId).Perm (grpcItem g :: d.items g.workspaceId) := by
  have hput := @toList_put_of_new _ _ d.grpcRequests g fun b hb hkey => by
    refine hnew (grpcItem b) ?_ (congrArg Prod.snd hkey)
    rw [← show b.workspaceId = g.workspaceId from congrArg Prod.fst hkey]
    exact List.mem_append_right _ (List.mem_append_right _
      (List.mem_map_of_mem (List.mem_filter.mpr ⟨hb, decide_eq_true rfl⟩)))
  rw [Disk.items, Disk.put, hput]
  simp only [List.filter_cons, decide_true, if_true, List.map_cons]
  rw [← List.append_assoc]
  refine List.perm_middle.trans ?_
  rw [List.append_assoc]
  exact .refl _

theorem duplicateConnection_gives (hfree : NewIdsFree m.toEnv d.store.tick (d.items ws)) :
    Gives (duplicateConnection m ws id) d fun c d' =>
      Duplicated m.toEnv d.store.tick d'.store.tick (d.items ws) (d'.items ws)
        (ownItems .webSocket (d.items ws)) .webSocket id (connectionItem c) := by
  refine Outcome.bind getConnection_gives fun src d₁ ⟨h₁, hmem, hkey⟩ => ?_
  obtain ⟨rfl, rfl⟩ := Prod.mk.inj hkey
  refine Outcome.bind connectionOrderAfter_gives fun order d₂ ⟨h₂, horder⟩ => ?_
  have h₁₂ := h₁.trans h₂
  refine Outcome.mono writeCopy_gives ?_ fun _ _ he => he
  rintro _ d' ⟨new, now, d₃, rfl, h₃, hdrawn, rfl⟩
  have hsame := h₁₂.trans h₃
  have hdrawn' := hdrawn.mono h₁₂.store.tick le_rfl
  have hown := ownItems_disk d src.workspaceId .webSocket
  refine @Duplicated.single m d _ src.workspaceId (connectionItem src) _ d₃ hsame rfl
    ?_ ?_ rfl rfl hdrawn' ?_
  · rw [show (connectionItem src).kind = .webSocket from rfl, hown]
    exact List.mem_map_of_mem (List.mem_filter.mpr ⟨hmem, decide_eq_true rfl⟩)
  · rw [← hsame.items_eq]
    refine items_putConnection ?_
    rw [hsame.items_eq]
    exact hfree.id_ne hdrawn'
  · rw [show (connectionItem src).kind = .webSocket from rfl, hown, Disk.connectionItems,
      ← h₁.connections]
    exact horder

theorem duplicateGrpc_gives (hfree : NewIdsFree m.toEnv d.store.tick (d.items ws)) :
    Gives (duplicateGrpc m ws id) d fun g d' =>
      Duplicated m.toEnv d.store.tick d'.store.tick (d.items ws) (d'.items ws)
        (ownItems .grpc (d.items ws)) .grpc id (grpcItem g) := by
  refine Outcome.bind getGrpc_gives fun src d₁ ⟨h₁, hmem, hkey⟩ => ?_
  obtain ⟨rfl, rfl⟩ := Prod.mk.inj hkey
  refine Outcome.bind grpcOrderAfter_gives fun order d₂ ⟨h₂, horder⟩ => ?_
  have h₁₂ := h₁.trans h₂
  refine Outcome.mono writeCopy_gives ?_ fun _ _ he => he
  rintro _ d' ⟨new, now, d₃, rfl, h₃, hdrawn, rfl⟩
  have hsame := h₁₂.trans h₃
  have hdrawn' := hdrawn.mono h₁₂.store.tick le_rfl
  have hown := ownItems_disk d src.workspaceId .grpc
  refine @Duplicated.single m d _ src.workspaceId (grpcItem src) _ d₃ hsame rfl
    ?_ ?_ rfl rfl hdrawn' ?_
  · rw [show (grpcItem src).kind = .grpc from rfl, hown]
    exact List.mem_map_of_mem (List.mem_filter.mpr ⟨hmem, decide_eq_true rfl⟩)
  · rw [← hsame.items_eq]
    refine items_putGrpc ?_
    rw [hsame.items_eq]
    exact hfree.id_ne hdrawn'
  · rw [show (grpcItem src).kind = .grpc from rfl, hown, Disk.grpcItems, ← h₁.grpcRequests]
    exact horder

/-! ## Any duplicate -/

theorem DistinctOrders.sublist (h : DistinctOrders items) (hsub : before.Sublist items) :
    DistinctOrders before :=
  ⟨fun i hi => h.positive i (hsub.subset hi), fun place =>
    (h.distinct place).sublist ((hsub.filter _).map _)⟩

/-- Items of the other stores stay as they are. -/
theorem Duplicated.frame {own : List Tree.Item} {copy : Tree.Item}
    (h : Duplicated m.toEnv t t' before after own kind id copy) (others : List Tree.Item) :
    Duplicated m.toEnv t t' (before ++ others) (after ++ others) own kind id copy := by
  obtain ⟨src, hsrc, hkind, hid, horder, added, hcopied⟩ := h
  refine ⟨src, hsrc, hkind, hid, horder, added, { hcopied with perm := ?_ }⟩
  have hperm := hcopied.perm.append_right others
  rwa [List.append_assoc, List.cons_append] at hperm

/-- A duplicate operation that ends has brought a copy. -/
theorem duplicate_gives (hfree : NewIdsFree m.toEnv d.store.tick (d.items ws))
    (hdistinct : DistinctOrders (d.items ws)) :
    Gives (duplicate m ws kind id) d fun copy d' =>
      Duplicated m.toEnv d.store.tick d'.store.tick (d.items ws) (d'.items ws)
        (ownItems kind (d.items ws)) kind id copy := by
  have hsub : (d.store.items ws).Sublist (d.items ws) := List.sublist_append_left _ _
  have hfree' : NewIdsFree m.toEnv d.store.tick (d.store.items ws) :=
    fun i hi => hfree i (hsub.subset hi)
  have hown := ownItems_disk d ws kind
  cases kind with
  | folder =>
    have hfolder := @duplicateFolder_duplicated m.toEnv _ ws id hfree' (hdistinct.sublist hsub)
    refine Outcome.bind (onWorld_gives hfolder) fun f d' ⟨hdup, hd'⟩ => Outcome.pure ?_
    rw [hown, hd']
    exact hdup.frame _
  | request =>
    have hrequest := @duplicateRequest_duplicated m.toEnv _ ws id hfree'
    refine Outcome.bind (onWorld_gives hrequest) fun r d' ⟨hdup, hd'⟩ => Outcome.pure ?_
    rw [hown, hd']
    exact hdup.frame _
  | webSocket =>
    exact Outcome.bind (duplicateConnection_gives hfree) fun c d' hdup => Outcome.pure hdup
  | grpc => exact Outcome.bind (duplicateGrpc_gives hfree) fun g d' hdup => Outcome.pure hdup

/-! ## Where a copy lands -/

/-- Each sibling in another store that is behind the item is behind the middle between the item
and the next of its own store, or by more than one behind the item if that is the last. -/
def Clear (items : List Tree.Item) (kind : ItemKind) (id : String) : Prop :=
  ∀ o ∈ items, o.kind = kind → o.id = id →
    ∀ y ∈ itemsAt items o.folderId, y.kind ∉ storeKinds kind → o.order < y.order →
      (∃ n ∈ itemsAt (ownItems kind items) o.folderId,
        o.order < n.order ∧ o.order + n.order < 2 * y.order) ∨
      (∀ n ∈ itemsAt (ownItems kind items) o.folderId, n.order ≤ o.order) ∧
        o.order + 1 < y.order

/-- In every tree that is built from the items, the copy is directly below the original, and the
orders stay positive and distinct. -/
structure Landed (before after : List Tree.Item) (kind : ItemKind) (id : String)
    (copy : Tree.Item) : Prop where
  original : ∃ o ∈ before, o.kind = kind ∧ o.id = id
  below : ∀ o ∈ before, o.kind = kind → o.id = id → copy.kind = kind ∧
    ∀ (dateParse : String → ℚ) (s s' : RequestState) (fuel fuel' : ℕ),
      s.items.Perm before → s'.items.Perm after → ∃ front back,
        (buildTree dateParse s (fuel + 1) o.folderId).map TreeNode.item = front ++ o :: back ∧
        (buildTree dateParse s' (fuel' + 1) o.folderId).map TreeNode.item =
          front ++ o :: copy :: back
  distinct : DistinctOrders after

theorem lt_halfway (after : ℚ) (orders : List ℚ) : after < halfway after orders := by
  rw [halfway]
  split
  · linarith
  · rename_i n hn
    have hmem := (List.min?_eq_some_iff.mp hn).1
    have hlt : after < n := of_decide_eq_true (List.mem_filter.mp hmem).2
    linarith

theorem halfway_lt_iff {after x : ℚ} {orders : List ℚ} : halfway after orders < x ↔
    (∃ n ∈ orders, after < n ∧ after + n < 2 * x) ∨ (∀ n ∈ orders, n ≤ after) ∧ after + 1 < x := by
  rw [halfway]
  split
  · rename_i hnone
    have hnil := List.filter_eq_nil_iff.mp (List.min?_eq_none_iff.mp hnone)
    have hle : ∀ n ∈ orders, n ≤ after := fun n hn => by simpa using hnil n hn
    constructor
    · exact fun hlt => .inr ⟨hle, hlt⟩
    · rintro (⟨n, hn, hlt, -⟩ | ⟨-, hlt⟩)
      · exact absurd hlt (not_lt.mpr (hle n hn))
      · exact hlt
  · rename_i n hmin
    obtain ⟨hn, hleast⟩ := List.min?_eq_some_iff.mp hmin
    obtain ⟨hmem, hlt⟩ := List.mem_filter.mp hn
    have hlt' : after < n := of_decide_eq_true hlt
    constructor
    · exact fun h => .inl ⟨n, hmem, hlt', by linarith⟩
    · rintro (⟨k, hk, hltk, hx⟩ | ⟨hall, -⟩)
      · have hle := hleast k (List.mem_filter.mpr ⟨hk, decide_eq_true hltk⟩)
        linarith
      · exact absurd hlt' (not_lt.mpr (hall n hmem))

theorem halfway_lt_of_mem {after order : ℚ} {orders : List ℚ} (hmem : order ∈ orders)
    (hlt : after < order) : halfway after orders < order :=
  halfway_lt_iff.mpr (.inl ⟨order, hmem, hlt, by linarith⟩)

/-- The place of a copy is clear exactly if it is before every sibling behind the original. -/
theorem clear_iff (hunique : ∀ i ∈ items, ∀ j ∈ items, i.kind = j.kind → i.id = j.id → i = j)
    {o : Tree.Item} (ho : o ∈ items) :
    Clear items o.kind o.id ↔ ∀ y ∈ itemsAt items o.folderId, o.order < y.order →
      halfway o.order ((itemsAt (ownItems o.kind items) o.folderId).map Tree.Item.order) <
        y.order := by
  constructor
  · intro hclear y hy hlt
    by_cases hkind : y.kind ∈ storeKinds o.kind
    · refine halfway_lt_of_mem (List.mem_map_of_mem ?_) hlt
      obtain ⟨hmem, hplace⟩ := mem_itemsAt.mp hy
      exact mem_itemsAt.mpr ⟨List.mem_filter.mpr ⟨hmem, decide_eq_true hkind⟩, hplace⟩
    · rw [halfway_lt_iff, List.forall_mem_map]
      simp only [List.mem_map, exists_exists_and_eq_and]
      exact hclear o ho rfl rfl y hy hkind hlt
  · intro h o' ho' hkind hid y hy _ hlt
    obtain rfl := hunique o' ho' o ho hkind hid
    have hhalfway := h y hy hlt
    rw [halfway_lt_iff, List.forall_mem_map] at hhalfway
    simpa only [List.mem_map, exists_exists_and_eq_and] using hhalfway

theorem effectiveOrder_of_pos {dateParse : String → ℚ} {i : Tree.Item} (h : 0 < i.order) :
    i.effectiveOrder dateParse = i.order := by
  rw [Tree.Item.effectiveOrder, if_neg h.ne']

/-- The tree shows the items at a place by their orders. -/
theorem item_buildTree_sorted {dateParse : String → ℚ} {s : RequestState}
    (hs : s.items.Perm items) (hpos : ∀ i ∈ items, 0 < i.order) (fuel : ℕ) {l : List Tree.Item}
    (hl : (buildTree dateParse s (fuel + 1) place).map TreeNode.item = l) :
    l.Perm (itemsAt items place) ∧ l.Pairwise fun i j => i.order ≤ j.order := by
  rw [Tree.item_buildTree, Tree.siblings] at hl
  have hperm : l.Perm (itemsAt items place) := by
    rw [← hl]
    exact (sortBy_perm _ _).trans (hs.filter _)
  refine ⟨hperm, ?_⟩
  have hsorted := pairwise_sortBy (Tree.Item.effectiveOrder dateParse)
    (s.items.filter fun i => decide (i.folderId = place))
  rw [hl] at hsorted
  have heffective : ∀ i ∈ l, i.effectiveOrder dateParse = i.order := fun i hi =>
    effectiveOrder_of_pos (hpos i (mem_itemsAt.mp (hperm.mem_iff.mp hi)).1)
  refine hsorted.imp_of_mem fun {i j} hi hj hle => ?_
  rwa [heffective i hi, heffective j hj] at hle

/-- The tree shows items with distinct orders in the one way that has them in order. -/
theorem item_buildTree_of_strict {dateParse : String → ℚ} {s : RequestState}
    {l : List Tree.Item} (hs : s.items.Perm items) (hpos : ∀ i ∈ items, 0 < i.order)
    (hl : l.Perm (itemsAt items place)) (hstrict : (l.map Tree.Item.order).Pairwise (· < ·))
    (fuel : ℕ) : (buildTree dateParse s (fuel + 1) place).map TreeNode.item = l := by
  rw [Tree.item_buildTree, Tree.siblings]
  refine sortBy_eq_of_strict (hl.trans (hs.filter _).symm) ?_
  have heffective : ∀ i ∈ l, i.effectiveOrder dateParse = i.order := fun i hi =>
    effectiveOrder_of_pos (hpos i (mem_itemsAt.mp (hl.mem_iff.mp hi)).1)
  refine (List.pairwise_map.mp hstrict).imp_of_mem fun {i j} hi hj hlt => ?_
  rwa [heffective i hi, heffective j hj]

/-- Siblings in the order in which they are shown, around one of them. -/
theorem exists_sorted (hdistinct : DistinctOrders items) {o : Tree.Item} (ho : o ∈ items) :
    ∃ front back, (front ++ o :: back).Perm (itemsAt items o.folderId) ∧
      ((front ++ o :: back).map Tree.Item.order).Pairwise (· < ·) := by
  have hperm := sortBy_perm Tree.Item.order (itemsAt items o.folderId)
  obtain ⟨front, back, hsplit⟩ := List.append_of_mem (hperm.mem_iff.mpr (mem_itemsAt.mpr ⟨ho, rfl⟩))
  refine ⟨front, back, hsplit ▸ hperm, ?_⟩
  have hsorted := List.pairwise_map.mpr (pairwise_sortBy Tree.Item.order (itemsAt items o.folderId))
  have hnodup := ((hperm.map Tree.Item.order).nodup_iff).mpr (hdistinct.distinct o.folderId)
  rw [hsplit] at hsorted hnodup
  exact (hsorted.and hnodup).imp fun h => lt_of_le_of_ne h.1 h.2

namespace Copied

variable {env : Env} {src copy : Tree.Item}

theorem newIdsFree (h : Copied env t t' before after src copy added) (hsrc : src ∈ before)
    (hfree : NewIdsFree env t before) : NewIdsFree env t' after := by
  refine NewIdsFree.perm (NewIdsFree.append (List.forall_mem_cons.mpr ⟨fun s hs => ?_,
    hfree.mono h.tick⟩) fun i hi s hs => ?_) h.perm
  · rw [h.folder]
    exact ⟨h.drawn.ne_newId hs, (hfree src hsrc s (h.tick.trans hs)).2⟩
  · obtain ⟨hid, id, hfolder, hid'⟩ := h.added_drawn i hi
    refine ⟨hid.ne_newId hs, fun heq => ?_⟩
    exact hid'.ne_newId hs (Option.some.inj (hfolder.symm.trans heq))

/-- What comes with the copy lies in new folders, where nothing was. -/
theorem itemsAt_added (h : Copied env t t' before after src copy added)
    (hfree : NewIdsFree env t before) (place : Option String) :
    itemsAt added place = [] ∨ itemsAt before place = [] ∧ ∀ i ∈ before, i.folderId ≠ place := by
  by_cases hempty : itemsAt added place = []
  · exact .inl hempty
  · obtain ⟨i, hat⟩ := List.exists_mem_of_ne_nil _ hempty
    obtain ⟨hi, rfl⟩ := mem_itemsAt.mp hat
    obtain ⟨-, id, hfolder, hid⟩ := h.added_drawn i hi
    rw [hfolder]
    refine .inr ⟨hfree.itemsAt_eq_nil hid, fun j hj => ?_⟩
    obtain ⟨s, hs, -, rfl⟩ := hid
    exact (hfree j hj s hs).2

theorem itemsAt_perm (h : Copied env t t' before after src copy added) (hsrc : src ∈ before)
    (hfree : NewIdsFree env t before) :
    (itemsAt after src.folderId).Perm (copy :: itemsAt before src.folderId) := by
  have hperm := h.perm.filter fun i => decide (i.folderId = src.folderId)
  have hcons := itemsAt_cons_self copy before
  rw [h.folder] at hcons
  rw [← itemsAt, ← itemsAt, itemsAt_append, hcons] at hperm
  rcases h.itemsAt_added hfree src.folderId with hadded | ⟨-, hnone⟩
  · rwa [hadded] at hperm
  · exact absurd rfl (hnone src hsrc)

theorem distinctOrders (h : Copied env t t' before after src copy added) (hsrc : src ∈ before)
    (hfree : NewIdsFree env t before) (hdistinct : DistinctOrders before)
    (hlt : src.order < copy.order)
    (hnodup : ((copy :: itemsAt before src.folderId).map Tree.Item.order).Nodup) :
    DistinctOrders after := by
  refine ⟨fun i hi => ?_, fun place => ?_⟩
  · rcases List.mem_append.mp (h.perm.mem_iff.mp hi) with hi | hi
    · exact h.positive i hi
    · rcases List.mem_cons.mp hi with rfl | hi
      · exact (hdistinct.positive src hsrc).trans hlt
      · exact hdistinct.positive i hi
  · by_cases hplace : src.folderId = place
    · subst hplace
      exact (((h.itemsAt_perm hsrc hfree).map _).nodup_iff).mpr hnodup
    · have hperm := h.perm.filter fun i => decide (i.folderId = place)
      have hne : copy.folderId ≠ place := by rwa [h.folder]
      rw [← itemsAt, ← itemsAt, itemsAt_append, itemsAt_cons_ne hne] at hperm
      refine ((hperm.map _).nodup_iff).mpr ?_
      rcases h.itemsAt_added hfree place with hnil | ⟨hnil, -⟩
      · rw [hnil]
        exact hdistinct.distinct place
      · rw [hnil, List.append_nil]
        exact h.distinct place

end Copied

/-- The copy lands below its original exactly if its place is clear. -/
theorem Duplicated.landed_iff {copy : Tree.Item} {env : Env} {s s' : RequestState}
    (h : Duplicated env t t' before after (ownItems kind before) kind id copy)
    (hfree : NewIdsFree env t before) (hdistinct : DistinctOrders before)
    (hunique : ∀ i ∈ before, ∀ j ∈ before, i.kind = j.kind → i.id = j.id → i = j)
    (hs : s.items.Perm before) (hs' : s'.items.Perm after) :
    Landed before after kind id copy ↔ Clear before kind id := by
  obtain ⟨src, hsrc, rfl, rfl, horder, added, hcopied⟩ := h
  have hmem := List.mem_of_mem_filter hsrc
  have hat := hcopied.itemsAt_perm hmem hfree
  rw [clear_iff hunique hmem, ← horder]
  have hlt : src.order < copy.order := by
    rw [horder]
    exact lt_halfway _ _
  constructor
  · intro hlanded y hy hlty
    obtain ⟨-, htree⟩ := hlanded.below src hmem rfl rfl
    obtain ⟨front, back, hbefore, hafter⟩ := htree (fun _ => 0) s s' 0 0 hs hs'
    obtain ⟨hperm, hsorted⟩ := item_buildTree_sorted hs hdistinct.positive 0 hbefore
    obtain ⟨-, hsorted'⟩ := item_buildTree_sorted hs' hlanded.distinct.positive 0 hafter
    have hne : copy.order ≠ y.order := by
      have hnodup := ((hat.map _).nodup_iff).mp (hlanded.distinct.distinct src.folderId)
      rw [List.map_cons, List.nodup_cons] at hnodup
      exact fun heq => hnodup.1 (heq ▸ List.mem_map_of_mem hy)
    have hy' := hperm.mem_iff.mpr hy
    rw [List.mem_append, List.mem_cons] at hy'
    rcases hy' with hfront | rfl | hback
    · have hle := (List.pairwise_append.mp hsorted).2.2 y hfront src List.mem_cons_self
      exact absurd hlty (not_lt.mpr hle)
    · exact absurd hlty (lt_irrefl _)
    · have hcons := (List.pairwise_cons.mp (List.pairwise_append.mp hsorted').2.1).2
      exact lt_of_le_of_ne ((List.pairwise_cons.mp hcons).1 y hback) hne
  · intro hclear
    obtain ⟨front, back, hsorted, hstrict⟩ := exists_sorted hdistinct hmem
    have hsorted' : (front ++ src :: copy :: back).Perm (itemsAt after src.folderId) := by
      have hmiddle : (front ++ src :: copy :: back).Perm (copy :: (front ++ src :: back)) :=
        ((List.Perm.swap copy src back).append_left front).trans List.perm_middle
      exact hmiddle.trans ((hsorted.cons copy).trans hat.symm)
    have hstrict' : ((front ++ src :: copy :: back).map Tree.Item.order).Pairwise (· < ·) := by
      rw [List.pairwise_map, List.pairwise_append, List.pairwise_cons] at hstrict ⊢
      obtain ⟨hfront, ⟨hsrcBack, hback⟩, hacross⟩ := hstrict
      have hcopyBack : ∀ y ∈ back, copy.order < y.order := fun y hy => hclear y
        (hsorted.mem_iff.mp (List.mem_append_right _ (List.mem_cons_of_mem _ hy))) (hsrcBack y hy)
      refine ⟨hfront, ⟨List.forall_mem_cons.mpr ⟨hlt, hsrcBack⟩,
        List.pairwise_cons.mpr ⟨hcopyBack, hback⟩⟩, fun x hx => ?_⟩
      have hx' := List.forall_mem_cons.mp (hacross x hx)
      exact List.forall_mem_cons.mpr ⟨hx'.1, List.forall_mem_cons.mpr ⟨hx'.1.trans hlt, hx'.2⟩⟩
    have hdistinct' : DistinctOrders after := by
      refine hcopied.distinctOrders hmem hfree hdistinct hlt ?_
      rw [← ((hat.map _).nodup_iff), ← ((hsorted'.map _).nodup_iff)]
      exact hstrict'.imp fun h => h.ne
    refine ⟨⟨src, hmem, rfl, rfl⟩, fun o ho hkind hid => ?_, hdistinct'⟩
    obtain rfl := hunique o ho src hmem hkind hid
    refine ⟨hcopied.kind, fun dateParse r r' fuel fuel' hr hr' => ⟨front, back, ?_, ?_⟩⟩
    · exact item_buildTree_of_strict hr hdistinct.positive hsorted hstrict fuel
    · exact item_buildTree_of_strict hr' hdistinct'.positive hsorted' hstrict' fuel'

/-! ## Runs -/

/-- The lists that the app loads from the stores. -/
def Disk.loaded (d : Disk) (ws : String) : RequestState where
  folders := d.store.folders.toList.filter fun f => f.workspaceId = ws
  requests := d.store.requests.toList.filter fun r => r.workspaceId = ws
  connections := d.connections.toList.filter fun c => c.workspaceId = ws
  grpcRequests := d.grpcRequests.toList.filter fun g => g.workspaceId = ws

theorem items_loaded (d : Disk) (ws : String) : (d.loaded ws).items.Perm (d.items ws) := by
  rw [RequestState.items, Disk.items, World.items, List.append_assoc]
  exact .refl _

/-- The items of one kind. -/
def Disk.kindItems (d : Disk) (ws : String) : ItemKind → List Tree.Item
  | .folder => (d.store.folders.toList.filter fun f => f.workspaceId = ws).map folderItem
  | .request => (d.store.requests.toList.filter fun r => r.workspaceId = ws).map requestItem
  | .webSocket => d.connectionItems ws
  | .grpc => d.grpcItems ws

theorem mem_kindItems {i : Tree.Item} (hi : i ∈ d.items ws) : i ∈ d.kindItems ws i.kind := by
  rw [Disk.items_eq, World.items, List.mem_append, List.mem_append, List.mem_append] at hi
  rcases hi with (hi | hi) | hi | hi
  · obtain ⟨f, -, rfl⟩ := List.mem_map.mp hi
    exact hi
  · obtain ⟨r, -, rfl⟩ := List.mem_map.mp hi
    exact hi
  · obtain ⟨c, -, rfl⟩ := List.mem_map.mp hi
    exact hi
  · obtain ⟨g, -, rfl⟩ := List.mem_map.mp hi
    exact hi

/-- No two items of one kind have the same id. -/
theorem eq_of_kind_id (d : Disk) (ws : String) : ∀ i ∈ d.items ws, ∀ j ∈ d.items ws,
    i.kind = j.kind → i.id = j.id → i = j := by
  have hkey : ∀ {α : Type} {key : α → FileKey} (records : Records key) (workspace : α → String)
      (item : α → Tree.Item), (∀ a, key a = (workspace a, (item a).id)) →
      ∀ i ∈ (records.toList.filter fun a => workspace a = ws).map item,
      ∀ j ∈ (records.toList.filter fun a => workspace a = ws).map item, i.id = j.id → i = j := by
    intro α key records workspace item hkeys i hi j hj hid
    obtain ⟨a, ha, rfl⟩ := List.mem_map.mp hi
    obtain ⟨b, hb, rfl⟩ := List.mem_map.mp hj
    obtain ⟨ha, hwa⟩ := List.mem_filter.mp ha
    obtain ⟨hb, hwb⟩ := List.mem_filter.mp hb
    have hws : workspace a = workspace b :=
      (of_decide_eq_true hwa).trans (of_decide_eq_true hwb).symm
    refine congrArg item (List.inj_on_of_nodup_map records.nodup ha hb ?_)
    rw [hkeys, hkeys, hws, hid]
  intro i hi j hj hkind hid
  have hi' := mem_kindItems hi
  have hj' := mem_kindItems hj
  rw [← hkind] at hj'
  cases hk : i.kind with
  | folder =>
    rw [hk] at hi' hj'
    exact hkey d.store.folders ApiFolder.workspaceId folderItem (fun _ => rfl) i hi' j hj' hid
  | request =>
    rw [hk] at hi' hj'
    exact hkey d.store.requests HttpRequest.workspaceId requestItem (fun _ => rfl) i hi' j hj' hid
  | webSocket =>
    rw [hk] at hi' hj'
    exact hkey d.connections WsConnection.workspaceId connectionItem (fun _ => rfl) i hi' j hj' hid
  | grpc =>
    rw [hk] at hi' hj'
    exact hkey d.grpcRequests GrpcRequest.workspaceId grpcItem (fun _ => rfl) i hi' j hj' hid

/-- A duplicate operation that was done, with the items before and after it. -/
structure DuplicateStep where
  before : List Tree.Item
  after : List Tree.Item
  kind : ItemKind
  id : String
  copy : Tree.Item

def DuplicateStep.Landed (step : DuplicateStep) : Prop :=
  Storage.Landed step.before step.after step.kind step.id step.copy

def DuplicateStep.Clear (step : DuplicateStep) : Prop := Storage.Clear step.before step.kind step.id

/-- Duplicate operations that are done one after the other. -/
inductive DuplicateRun (m : Machine) (ws : String) : Disk → List DuplicateStep → Disk → Prop
  | nil (d : Disk) : DuplicateRun m ws d [] d
  | cons {d d' d'' : Disk} {kind : ItemKind} {id : String} {copy : Tree.Item}
      {steps : List DuplicateStep} : duplicate m ws kind id d = (.ok copy, d') →
      DuplicateRun m ws d' steps d'' →
      DuplicateRun m ws d (⟨d.items ws, d'.items ws, kind, id, copy⟩ :: steps) d''

/-- What one operation does. -/
theorem duplicate_step {copy : Tree.Item} (hfree : NewIdsFree m.toEnv d.store.tick (d.items ws))
    (hdistinct : DistinctOrders (d.items ws)) (hrun : duplicate m ws kind id d = (.ok copy, d')) :
    NewIdsFree m.toEnv d'.store.tick (d'.items ws) ∧
      (Landed (d.items ws) (d'.items ws) kind id copy ↔ Clear (d.items ws) kind id) := by
  have hdup := (duplicate_gives hfree hdistinct).of_ok hrun
  refine ⟨?_, hdup.landed_iff hfree hdistinct (eq_of_kind_id d ws) (items_loaded d ws)
    (items_loaded d' ws)⟩
  obtain ⟨src, hsrc, -, -, -, added, hcopied⟩ := hdup
  exact hcopied.newIdsFree (List.mem_of_mem_filter hsrc) hfree

/-- In every run of duplicate operations all copies land directly below their originals exactly if
each finds its place clear. -/
theorem copies_land_iff (m : Machine) (ws : String) (d d' : Disk) (steps : List DuplicateStep)
    (hfree : NewIdsFree m.toEnv d.store.tick (d.items ws)) (hdistinct : DistinctOrders (d.items ws))
    (hrun : DuplicateRun m ws d steps d') :
    (∀ step ∈ steps, step.Landed) ↔ ∀ step ∈ steps, step.Clear := by
  induction hrun with
  | nil d => exact ⟨nofun, nofun⟩
  | cons hstep hrest ih =>
      obtain ⟨hfree', hlanded⟩ := duplicate_step hfree hdistinct hstep
      rw [List.forall_mem_cons, List.forall_mem_cons]
      refine (and_congr_right fun h => ih hfree' h.distinct).trans (and_congr_left fun _ => ?_)
      exact hlanded

/-! ## A copy that does not land below its original -/

def socket : WsConnection where
  id := "c1"
  connectionType := "ws"
  model := "wsConnection"
  workspaceId := "ws1"
  folderId := none
  name := "Events"
  url := "wss://example.org/events"
  parameters := []
  headers := []
  auth := .none
  order := 1
  createdAt := ""
  updatedAt := ""

/-- A connection at the order one, and a folder. -/
def socketAndFolder (order : ℚ) : Disk where
  store := ⟨⟨[{ authFolder with order := order }], List.nodup_singleton _⟩,
    ⟨[], List.nodup_nil⟩, 0⟩
  connections := ⟨[socket], List.nodup_singleton _⟩
  grpcRequests := ⟨[], List.nodup_nil⟩
  workspaces := ⟨[], List.nodup_nil⟩
  sharedEnvironments := ⟨[], List.nodup_nil⟩
  localEnvironments := ⟨[], List.nodup_nil⟩
  others := ⟨[], List.nodup_nil⟩

theorem items_socketAndFolder (order : ℚ) : (socketAndFolder order).items "ws1" =
    [folderItem { authFolder with order := order }, connectionItem socket] := rfl

theorem listConnections_socket (order : ℚ) (n : ℕ) :
    listConnections faultlessMachine "ws1" ((socketAndFolder order).later n) =
      (.ok [socket], (socketAndFolder order).later (n + 3)) := by
  have hvalid : validateId "ws1" = .ok () := by decide
  have hsort : sortBy (fun c : WsConnection => toLex (c.order, c.createdAt)) [socket] = [socket] :=
    List.mergeSort_singleton socket
  rw [listConnections, Fallible.bind_eq_ok (createDir_quiet (fun _ => rfl) hvalid _), listSorted,
    Fallible.bind_eq_ok (call_quiet (fun _ => rfl) _), Fallible.bind_eq_ok (Fallible.get_apply _)]
  change (Except.ok (sortBy _ [socket]), _) = _
  rw [hsort]
  rfl

theorem duplicate_socket_ok (order : ℚ) : ∃ copy d',
    duplicate faultlessMachine "ws1" .webSocket "c1" (socketAndFolder order) = (.ok copy, d') := by
  have hget : getConnection faultlessMachine "ws1" "c1" (socketAndFolder order) =
      (.ok socket, (socketAndFolder order).later 1) := rfl
  rw [duplicate, duplicateConnection, bind_assoc, Fallible.bind_eq_ok hget, bind_assoc,
    connectionOrderAfter, bind_assoc, Fallible.bind_eq_ok (listConnections_socket order 1),
    pure_bind]
  have hws : validateId "ws1" = .ok () := by decide
  have hnew : validateId (faultlessMachine.newId 4) = .ok () := by decide
  have hdraw : onWorld (ask faultlessMachine.newId) ((socketAndFolder order).later (1 + 3)) =
    (.ok (faultlessMachine.newId 4), (socketAndFolder order).later 5) := rfl
  have hnow : now faultlessMachine ((socketAndFolder order).later 5) =
    (.ok (faultlessMachine.now 5), (socketAndFolder order).later 6) := rfl
  rw [bind_assoc, Fallible.bind_eq_ok hdraw, bind_assoc, Fallible.bind_eq_ok hnow]
  simp only [bind_assoc]
  rw [Fallible.bind_eq_ok (validate_run hws), Fallible.bind_eq_ok (validate_run hnew),
    Fallible.bind_eq_ok (writeFile_quiet (fun _ => rfl) _ _)]
  exact ⟨_, _, rfl⟩

theorem newIdsFree_socketAndFolder (order : ℚ) :
    NewIdsFree faultlessMachine.toEnv 0 ((socketAndFolder order).items "ws1") := by
  have hfirst : ∀ i ∈ (socketAndFolder order).items "ws1",
      i.id.toList.head? ≠ some 'n' ∧ i.folderId = none := by
    rw [items_socketAndFolder, List.forall_mem_cons, List.forall_mem_singleton]
    have hfolder : "f1".toList.head? ≠ some 'n' := by decide
    have hsocket : "c1".toList.head? ≠ some 'n' := by decide
    exact ⟨⟨hfolder, rfl⟩, ⟨hsocket, rfl⟩⟩
  intro i hi s _
  obtain ⟨hhead, hfolder⟩ := hfirst i hi
  refine ⟨fun heq => hhead ?_, by simp [hfolder]⟩
  rw [heq]
  exact congrArg List.head? String.toList_ofList

theorem distinctOrders_socketAndFolder {order : ℚ} (hpos : 0 < order) (hne : order ≠ 1) :
    DistinctOrders ((socketAndFolder order).items "ws1") := by
  rw [items_socketAndFolder]
  refine ⟨?_, fun place => ?_⟩
  · rw [List.forall_mem_cons, List.forall_mem_singleton]
    exact ⟨hpos, by norm_num [connectionItem, socket]⟩
  · have hnodup : ([folderItem { authFolder with order := order }, connectionItem socket].map
        Tree.Item.order).Nodup := by
      simpa [folderItem, connectionItem, socket] using hne
    exact hnodup.sublist (List.filter_sublist.map _)

theorem clear_socketAndFolder_iff (order : ℚ) :
    Clear ((socketAndFolder order).items "ws1") .webSocket "c1" ↔ (1 < order → 2 < order) := by
  have hat : ∀ i ∈ (socketAndFolder order).items "ws1", i.folderId = none := by
    rw [items_socketAndFolder, List.forall_mem_cons, List.forall_mem_singleton]
    exact ⟨rfl, rfl⟩
  have hplace : itemsAt ((socketAndFolder order).items "ws1") none =
      [folderItem { authFolder with order := order }, connectionItem socket] :=
    List.filter_eq_self.mpr fun i hi => decide_eq_true (hat i hi)
  have hown : itemsAt (ownItems .webSocket ((socketAndFolder order).items "ws1")) none =
      [connectionItem socket] := rfl
  have hsocket : connectionItem socket ∈ (socketAndFolder order).items "ws1" := by
    rw [items_socketAndFolder]
    exact List.mem_cons_of_mem _ List.mem_cons_self
  have hiff := @clear_iff _ (eq_of_kind_id (socketAndFolder order) "ws1") _ hsocket
  rw [show (connectionItem socket).folderId = none from rfl, hplace,
    show (connectionItem socket).kind = .webSocket from rfl, hown, List.forall_mem_cons,
    List.forall_mem_singleton] at hiff
  have hhalfway : halfway (connectionItem socket).order
      ([connectionItem socket].map Tree.Item.order) = 2 := by
    norm_num [halfway, connectionItem, socket]
  rw [hhalfway] at hiff
  exact hiff.trans (and_iff_left fun h => absurd h (lt_irrefl _))

/-- With the folder at the order three the copy is put between. -/
theorem copies_land_below_socket : ∃ steps d',
    DuplicateRun faultlessMachine "ws1" (socketAndFolder 3) steps d' ∧ steps ≠ [] ∧
      ∀ step ∈ steps, step.Landed := by
  obtain ⟨copy, d', hrun⟩ := duplicate_socket_ok 3
  have hsteps : DuplicateRun faultlessMachine "ws1" (socketAndFolder 3) _ d' :=
    .cons hrun (.nil d')
  refine ⟨_, d', hsteps, List.cons_ne_nil _ _, ?_⟩
  refine (copies_land_iff faultlessMachine "ws1" (socketAndFolder 3) d' _
    (newIdsFree_socketAndFolder 3) (distinctOrders_socketAndFolder (by norm_num) (by norm_num))
    hsteps).mpr ?_
  rw [List.forall_mem_singleton]
  exact (clear_socketAndFolder_iff 3).mpr fun _ => by norm_num

/-- With the folder at the order two the copy gets the order of the folder. -/
theorem copies_land_false : ¬ ∀ (m : Machine) (ws : String) (d d' : Disk)
    (steps : List DuplicateStep), NewIdsFree m.toEnv d.store.tick (d.items ws) →
      DistinctOrders (d.items ws) → DuplicateRun m ws d steps d' →
        ∀ step ∈ steps, step.Landed := by
  intro h
  obtain ⟨copy, d', hrun⟩ := duplicate_socket_ok 2
  have hfree := newIdsFree_socketAndFolder 2
  have hdistinct := @distinctOrders_socketAndFolder 2 (by norm_num) (by norm_num)
  have hlanded := h faultlessMachine "ws1" (socketAndFolder 2) d' _ hfree hdistinct
    (.cons hrun (.nil d')) _ List.mem_cons_self
  have hclear := (duplicate_step hfree hdistinct hrun).2.mp hlanded
  exact lt_irrefl (2 : ℚ) ((clear_socketAndFolder_iff 2).mp hclear (by norm_num))

end Voleeo.Storage
