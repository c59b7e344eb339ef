import Voleeo.Storage.Disk
import Voleeo.Storage.TreeWalks
import Voleeo.Tree.BuildTree

/-!
# Duplicates of items

A copy of an item is put halfway to the next of its siblings. Each store looks at the siblings that
it keeps itself: folders and requests, connections, or gRPC requests.
-/
namespace Voleeo.Storage
open Fallible (Outcome get)
open Voleeo.Tree (ItemKind folderItem requestItem connectionItem grpcItem)

/-! ## Connections and gRPC requests -/

section Operations
variable (m : Machine)

def getConnection (workspaceId id : String) : OnDisk WsConnection := do
  validate workspaceId
  validate id
  match (← get).connections.find? (workspaceId, id) with
  | none => fail (.notFound s!"connection {id}")
  | some conn =>
    call m
    if conn.id ≠ id then fail (.storage s!"connection file id mismatch for {id}")
    else return conn

def getGrpc (workspaceId id : String) : OnDisk GrpcRequest := do
  validate workspaceId
  validate id
  match (← get).grpcRequests.find? (workspaceId, id) with
  | none => fail (.notFound s!"grpc request {id}")
  | some req =>
    call m
    if req.id ≠ id then fail (.storage s!"grpc file id mismatch for {id}")
    else return req

/-- Halfway to the smallest of the orders above the given one. -/
def halfway (after : ℚ) (orders : List ℚ) : ℚ :=
  match (orders.filter fun order => after < order).min? with
  | none => after + 1
  | some n => (after + n) / 2

def connectionOrderAfter (workspaceId : String) (parentId : Option String) (after : ℚ) :
    OnDisk ℚ := do
  let connections ← listConnections m workspaceId
  return halfway after ((connections.filter fun c => c.folderId = parentId).map (·.order))

def grpcOrderAfter (workspaceId : String) (parentId : Option String) (after : ℚ) : OnDisk ℚ := do
  let grpcRequests ← listGrpc m workspaceId
  return halfway after ((grpcRequests.filter fun g => g.folderId = parentId).map (·.order))

def duplicateConnection (workspaceId id : String) : OnDisk WsConnection := do
  let src ← getConnection m workspaceId id
  let order ← connectionOrderAfter m workspaceId src.folderId src.order
  let new ← onWorld (ask m.newId)
  let now ← now m
  let conn : WsConnection := {
    src with id := new, name := s!"Copy of {src.name}", order := order, createdAt := now,
             updatedAt := now }
  validate workspaceId
  validate new
  writeFile m (.connection conn)
  return conn

def duplicateGrpc (workspaceId id : String) : OnDisk GrpcRequest := do
  let src ← getGrpc m workspaceId id
  let order ← grpcOrderAfter m workspaceId src.folderId src.order
  let new ← onWorld (ask m.newId)
  let now ← now m
  let req : GrpcRequest := {
    src with id := new, name := s!"Copy of {src.name}", order := order, createdAt := now,
             updatedAt := now }
  validate workspaceId
  validate new
  writeFile m (.grpc req)
  return req

/-- A duplicate operation of one of the stores, with the item that it returns. -/
def duplicate (workspaceId : String) : ItemKind → String → OnDisk Tree.Item
  | .folder, id => return folderItem (← onWorld (duplicateFolder m.toEnv workspaceId id))
  | .request, id => return requestItem (← onWorld (duplicateRequest m.toEnv workspaceId id))
  | .webSocket, id => return connectionItem (← duplicateConnection m workspaceId id)
  | .grpc, id => return grpcItem (← duplicateGrpc m workspaceId id)

end Operations

/-! ## Items on the disk -/

def World.items (w : World) (ws : String) : List Tree.Item :=
  (w.folders.toList.filter fun f => f.workspaceId = ws).map folderItem ++
    (w.requests.toList.filter fun r => r.workspaceId = ws).map requestItem

/-- The items of a workspace, of all kinds. -/
def Disk.items (d : Disk) (ws : String) : List Tree.Item :=
  d.store.items ws ++
    ((d.connections.toList.filter fun c => c.workspaceId = ws).map connectionItem ++
      (d.grpcRequests.toList.filter fun g => g.workspaceId = ws).map grpcItem)

/-- The items at a place. -/
def itemsAt (items : List Tree.Item) (place : Option String) : List Tree.Item :=
  items.filter fun i => i.folderId = place

/-- One of the ids that are drawn between two ticks. -/
def Drawn (env : Env) (t t' : ℕ) (id : String) : Prop := ∃ s, t ≤ s ∧ s < t' ∧ id = env.newId s

/-- No item has an id that is yet to be drawn, or is in a folder with one. -/
def NewIdsFree (env : Env) (t : ℕ) (items : List Tree.Item) : Prop :=
  ∀ i ∈ items, ∀ s ≥ t, i.id ≠ env.newId s ∧ i.folderId ≠ some (env.newId s)

/-- The orders at each place are positive and pairwise distinct. -/
structure DistinctOrders (items : List Tree.Item) : Prop where
  positive : ∀ i ∈ items, 0 < i.order
  distinct : ∀ place, ((itemsAt items place).map Tree.Item.order).Nodup

/-- Items that are put into a new folder, and into folders in it that are drawn meanwhile. -/
structure Filling (env : Env) (dst : String) (t t' : ℕ) (added : List Tree.Item) (orders : List ℚ) :
    Prop where
  tick : t ≤ t'
  positive : ∀ i ∈ added, 0 < i.order
  drawn : ∀ i ∈ added, Drawn env t t' i.id
  folder : ∀ i ∈ added, i.folderId = some dst ∨ ∃ id, i.folderId = some id ∧ Drawn env t t' id
  into : ((itemsAt added (some dst)).map Tree.Item.order).Perm orders
  inside : ∀ id, Drawn env t t' id → ((itemsAt added (some id)).map Tree.Item.order).Nodup

/-- A copy has come to the items, and for a folder what is in it. -/
structure Copied (env : Env) (t t' : ℕ) (before after : List Tree.Item) (src copy : Tree.Item)
    (added : List Tree.Item) : Prop where
  tick : t ≤ t'
  perm : after.Perm (added ++ copy :: before)
  kind : copy.kind = src.kind
  folder : copy.folderId = src.folderId
  drawn : Drawn env t t' copy.id
  positive : ∀ i ∈ added, 0 < i.order
  added_drawn : ∀ i ∈ added, Drawn env t t' i.id ∧ ∃ id, i.folderId = some id ∧ Drawn env t t' id
  distinct : ∀ place, ((itemsAt added place).map Tree.Item.order).Nodup

variable {env : Env} {w w' : World} {ws id : String} {place : Option String}
  {items before after added added' : List Tree.Item} {orders orders' : List ℚ} {t t' t'' : ℕ}
  {dst dst' : String} {i : Tree.Item}

/-! ## Ids that are drawn -/

theorem Drawn.mono (h : Drawn env t t' id) {u u' : ℕ} (hu : u ≤ t) (hu' : t' ≤ u') :
    Drawn env u u' id := by
  obtain ⟨s, hs, hs', rfl⟩ := h
  exact ⟨s, hu.trans hs, hs'.trans_le hu', rfl⟩

theorem Drawn.ne_newId (h : Drawn env t t' id) {s : ℕ} (hs : t' ≤ s) : id ≠ env.newId s := by
  obtain ⟨r, -, hr, rfl⟩ := h
  intro heq
  have hrs := env.newId_injective heq
  omega

theorem Drawn.disjoint (h : Drawn env t t' id) {u : ℕ} : ¬ Drawn env t' u id := by
  rintro ⟨s, hs, -, hid⟩
  exact h.ne_newId hs hid

theorem Drawn.split (h : Drawn env t t'' id) (t' : ℕ) :
    Drawn env t t' id ∨ Drawn env t' t'' id := by
  obtain ⟨s, hs, hs', rfl⟩ := h
  rcases Nat.lt_or_ge s t' with hlt | hge
  · exact .inl ⟨s, hs, hlt, rfl⟩
  · exact .inr ⟨s, hge, hs', rfl⟩

theorem mem_itemsAt : i ∈ itemsAt items place ↔ i ∈ items ∧ i.folderId = place := by
  rw [itemsAt, List.mem_filter, decide_eq_true_eq]

theorem itemsAt_append (items added : List Tree.Item) (place : Option String) :
    itemsAt (items ++ added) place = itemsAt items place ++ itemsAt added place :=
  List.filter_append ..

theorem itemsAt_cons_self (i : Tree.Item) (items : List Tree.Item) :
    itemsAt (i :: items) i.folderId = i :: itemsAt items i.folderId :=
  List.filter_cons_of_pos (decide_eq_true rfl)

theorem itemsAt_cons_ne (h : i.folderId ≠ place) (items : List Tree.Item) :
    itemsAt (i :: items) place = itemsAt items place :=
  List.filter_cons_of_neg (by simpa using h)

theorem itemsAt_eq_nil (h : ∀ i ∈ items, i.folderId ≠ place) : itemsAt items place = [] := by
  refine List.filter_eq_nil_iff.mpr fun i hi => ?_
  simpa using h i hi

theorem NewIdsFree.itemsAt_eq_nil (h : NewIdsFree env t items) (hid : Drawn env t t' id) :
    itemsAt items (some id) = [] := by
  obtain ⟨s, hs, -, rfl⟩ := hid
  exact Storage.itemsAt_eq_nil fun i hi => (h i hi s hs).2

theorem NewIdsFree.mono (h : NewIdsFree env t items) (htick : t ≤ t') : NewIdsFree env t' items :=
  fun i hi s hs => h i hi s (htick.trans hs)

theorem NewIdsFree.append (h : NewIdsFree env t items) (h' : NewIdsFree env t added) :
    NewIdsFree env t (added ++ items) := by
  intro i hi
  rcases List.mem_append.mp hi with hi | hi
  · exact h' i hi
  · exact h i hi

theorem NewIdsFree.perm (h : NewIdsFree env t before) (hperm : after.Perm before) :
    NewIdsFree env t after := fun i hi => h i (hperm.mem_iff.mp hi)

/-! ## Filling a folder -/

theorem Filling.nil (t : ℕ) : Filling env dst t t [] [] where
  tick := le_rfl
  positive := nofun
  drawn := nofun
  folder := nofun
  into := .refl _
  inside _ _ := List.nodup_nil

theorem Filling.newIdsFree (h : Filling env dst t t' added orders)
    (hdst : ∀ s ≥ t, dst ≠ env.newId s) : NewIdsFree env t' added := by
  intro i hi s hs
  refine ⟨(h.drawn i hi).ne_newId hs, ?_⟩
  rcases h.folder i hi with hfolder | ⟨id, hfolder, hid⟩
  · rw [hfolder]
    exact fun heq => hdst s (h.tick.trans hs) (Option.some.inj heq)
  · rw [hfolder]
    exact fun heq => hid.ne_newId hs (Option.some.inj heq)

theorem Filling.later (h : Filling env dst t t' added orders) (htick : t' ≤ t'')
    (hdst : ∀ s ≥ t, dst ≠ env.newId s) : Filling env dst t t'' added orders where
  tick := h.tick.trans htick
  positive := h.positive
  drawn i hi := (h.drawn i hi).mono le_rfl htick
  folder i hi := (h.folder i hi).imp_right fun ⟨id, hfolder, hid⟩ =>
    ⟨id, hfolder, hid.mono le_rfl htick⟩
  into := h.into
  inside id hid := by
    rcases hid.split t' with hid | hid
    · exact h.inside id hid
    · rw [(h.newIdsFree hdst).itemsAt_eq_nil hid]
      exact List.nodup_nil

/-- One more item in the folder. -/
theorem Filling.cons (h : Filling env dst t t' added orders) (hdst : ∀ s ≥ t, dst ≠ env.newId s)
    (htick : t' ≤ t'') (hid : Drawn env t' t'' i.id) (hfolder : i.folderId = some dst)
    (hpos : 0 < i.order) : Filling env dst t t'' (i :: added) (i.order :: orders) where
  tick := h.tick.trans htick
  positive := List.forall_mem_cons.mpr ⟨hpos, h.positive⟩
  drawn := List.forall_mem_cons.mpr ⟨hid.mono h.tick le_rfl, (h.later htick hdst).drawn⟩
  folder := List.forall_mem_cons.mpr ⟨.inl hfolder, (h.later htick hdst).folder⟩
  into := by
    rw [← hfolder, itemsAt_cons_self, hfolder]
    exact h.into.cons i.order
  inside id' hid' := by
    have hne : i.folderId ≠ some id' := by
      rw [hfolder]
      rintro ⟨⟩
      obtain ⟨s, hs, -, heq⟩ := hid'
      exact hdst s hs heq
    rw [itemsAt_cons_ne hne]
    exact (h.later htick hdst).inside id' hid'

/-- Items in a folder that is in the folder. -/
theorem Filling.nest (h : Filling env dst t t' added orders) (hdst : ∀ s ≥ t, dst ≠ env.newId s)
    (h' : Filling env dst' t' t'' added' orders') (hdst' : Drawn env t t' dst')
    (hnew : itemsAt added (some dst') = []) (horders : orders'.Nodup) :
    Filling env dst t t'' (added' ++ added) orders := by
  have hlater := h.later h'.tick hdst
  have hfar : ∀ id, id ≠ dst' → ¬ Drawn env t' t'' id → itemsAt added' (some id) = [] := by
    intro id hne hnot
    refine itemsAt_eq_nil fun i hi heq => ?_
    rcases h'.folder i hi with hfolder | ⟨id', hfolder, hid'⟩
    · exact hne (Option.some.inj (heq.symm.trans hfolder))
    · exact hnot (Option.some.inj (heq.symm.trans hfolder) ▸ hid')
  have hne : dst ≠ dst' := by
    rintro rfl
    obtain ⟨s, hs, -, heq⟩ := hdst'
    exact hdst s hs heq
  refine ⟨hlater.tick, ?_, ?_, ?_, ?_, fun id hid => ?_⟩
  · exact List.forall_mem_append.mpr ⟨h'.positive, h.positive⟩
  · exact List.forall_mem_append.mpr ⟨fun i hi => (h'.drawn i hi).mono h.tick le_rfl, hlater.drawn⟩
  · refine List.forall_mem_append.mpr ⟨fun i hi => .inr ?_, hlater.folder⟩
    rcases h'.folder i hi with hfolder | ⟨id, hfolder, hid⟩
    · exact ⟨dst', hfolder, hdst'.mono le_rfl h'.tick⟩
    · exact ⟨id, hfolder, hid.mono h.tick le_rfl⟩
  · rw [itemsAt_append, hfar dst hne fun ⟨s, hs, _, heq⟩ => hdst s (h.tick.trans hs) heq]
    exact h.into
  · rw [itemsAt_append]
    by_cases heq : id = dst'
    · subst heq
      rw [hnew, List.append_nil]
      exact h'.into.nodup_iff.mpr horders
    · rcases hid.split t' with hid | hid
      · rw [hfar id heq hid.disjoint]
        exact h.inside id hid
      · rw [(h.newIdsFree hdst).itemsAt_eq_nil hid, List.append_nil]
        exact h'.inside id hid

/-! ## Single copies -/

/-- Where the operation succeeds, it ends as stated. -/
def Gives {σ α : Type} (x : Fallible σ Failure α) (s : σ) (Q : α → σ → Prop) : Prop :=
  Outcome x s Q fun _ _ => True

namespace Gives

variable {α β : Type} {x : Store α} {g : α → Store β} {Q : α → Prop} {P : β → World → Prop}

theorem reads (hx : Reads x w Q) : Gives x w fun a w' => SameFiles w w' ∧ Q a :=
  Outcome.mono hx (fun _ _ h => h) fun _ _ _ => trivial

theorem andThen (hx : Reads x w Q) (hg : ∀ a w', SameFiles w w' → Q a → Gives (g a) w' P) :
    Gives (x >>= g) w P :=
  Outcome.bind (reads hx) fun a w' h => hg a w' h.1 h.2

end Gives

theorem newId_gives : Gives (ask env.newId) w fun id w' =>
    SameFiles w w' ∧ Drawn env w.tick w'.tick id :=
  ⟨⟨rfl, rfl, Nat.le_succ _⟩, w.tick, le_rfl, Nat.lt_succ_self _, rfl⟩

/-- An item has come to the items of a workspace, under an id that was drawn. -/
structure Adds (env : Env) (ws : String) (w w' : World) (i : Tree.Item) : Prop where
  tick : w.tick ≤ w'.tick
  drawn : Drawn env w.tick w'.tick i.id
  perm : (w'.items ws).Perm (i :: w.items ws)

theorem SameFiles.items_eq (h : SameFiles w w') (ws : String) : w'.items ws = w.items ws := by
  rw [World.items, World.items, h.folders, h.requests]

theorem Adds.of_same {w₁ w₂ w₃ : World} (h : SameFiles w w₁) (hadds : Adds env ws w₁ w₂ i)
    (h' : SameFiles w₂ w₃) : Adds env ws w w₃ i where
  tick := h.tick.trans (hadds.tick.trans h'.tick)
  drawn := hadds.drawn.mono h.tick h'.tick
  perm := by
    rw [h'.items_eq, ← h.items_eq ws]
    exact hadds.perm

theorem folderItem_mem {f : ApiFolder} (hf : f ∈ w.folders.toList) :
    folderItem f ∈ w.items f.workspaceId :=
  List.mem_append_left _ (List.mem_map_of_mem (List.mem_filter.mpr ⟨hf, decide_eq_true rfl⟩))

theorem requestItem_mem {r : HttpRequest} (hr : r ∈ w.requests.toList) :
    requestItem r ∈ w.items r.workspaceId :=
  List.mem_append_right _ (List.mem_map_of_mem (List.mem_filter.mpr ⟨hr, decide_eq_true rfl⟩))

theorem exists_folder_of_mem (h : i ∈ w.items ws) (hkind : i.kind = .folder) :
    ∃ f ∈ w.folders.toList, f.workspaceId = ws ∧ folderItem f = i := by
  rcases List.mem_append.mp h with h | h
  · obtain ⟨f, hf, rfl⟩ := List.mem_map.mp h
    obtain ⟨hf, hws⟩ := List.mem_filter.mp hf
    exact ⟨f, hf, of_decide_eq_true hws, rfl⟩
  · obtain ⟨r, -, rfl⟩ := List.mem_map.mp h
    cases hkind

theorem toList_put_of_new {α : Type} {key : α → FileKey} {records : Records key} {a : α}
    (h : ∀ b ∈ records.toList, key b ≠ key a) : (records.put a).toList = a :: records.toList :=
  congrArg (a :: ·) (List.filter_eq_self.mpr fun b hb => decide_eq_true (h b hb))

/-- A folder is written under an id that no item has. -/
theorem writeFolder_adds {f : ApiFolder} {w₁ w₂ : World} (hws : f.workspaceId = ws)
    (hfree : ∀ i ∈ w.items ws, i.id ≠ f.id) (hid : Drawn env w.tick w₁.tick f.id)
    (h₁ : SameFiles w w₁) (htick : w₁.tick ≤ w₂.tick) (hfolders : w₂.folders = w₁.folders.put f)
    (hrequests : w₂.requests = w₁.requests) : Adds env ws w w₂ (folderItem f) := by
  subst hws
  have hput := @toList_put_of_new _ _ w.folders f fun g hg hkey => by
    refine hfree (folderItem g) ?_ (congrArg Prod.snd hkey)
    rw [← show g.workspaceId = f.workspaceId from congrArg Prod.fst hkey]
    exact folderItem_mem hg
  refine ⟨h₁.tick.trans htick, hid.mono le_rfl htick, ?_⟩
  rw [World.items, hfolders, hrequests, h₁.folders, h₁.requests, hput]
  simp only [List.filter_cons, decide_true, if_true, List.map_cons, List.cons_append]
  exact .refl _

theorem writeRequest_adds {r : HttpRequest} {w₁ w₂ : World} (hws : r.workspaceId = ws)
    (hfree : ∀ i ∈ w.items ws, i.id ≠ r.id) (hid : Drawn env w.tick w₁.tick r.id)
    (h₁ : SameFiles w w₁) (htick : w₁.tick ≤ w₂.tick) (hfolders : w₂.folders = w₁.folders)
    (hrequests : w₂.requests = w₁.requests.put r) :
    Adds env ws w w₂ (requestItem r) := by
  subst hws
  have hput := @toList_put_of_new _ _ w.requests r fun q hq hkey => by
    refine hfree (requestItem q) ?_ (congrArg Prod.snd hkey)
    rw [← show q.workspaceId = r.workspaceId from congrArg Prod.fst hkey]
    exact requestItem_mem hq
  refine ⟨h₁.tick.trans htick, hid.mono le_rfl htick, ?_⟩
  rw [World.items, hfolders, hrequests, h₁.folders, h₁.requests, hput]
  simp only [List.filter_cons, decide_true, if_true, List.map_cons]
  exact List.perm_middle

theorem NewIdsFree.id_ne (h : NewIdsFree env t items) (hid : Drawn env t t' id) :
    ∀ i ∈ items, i.id ≠ id := by
  obtain ⟨s, hs, -, rfl⟩ := hid
  exact fun i hi => (h i hi s hs).1

/-- An item that is new has nothing in it. -/
theorem Adds.itemsAt_new (h : Adds env ws w w' i) (hfree : NewIdsFree env w.tick (w.items ws))
    (hne : i.folderId ≠ some i.id) : itemsAt (w'.items ws) (some i.id) = [] := by
  have hperm := h.perm.filter fun j => decide (j.folderId = some i.id)
  rw [← itemsAt, ← itemsAt, itemsAt_cons_ne hne, hfree.itemsAt_eq_nil h.drawn] at hperm
  exact hperm.eq_nil

theorem copyFolder_adds {f : ApiFolder} {folderId : Option String} {name : String} {order : ℚ}
    (hfree : NewIdsFree env w.tick (w.items f.workspaceId)) :
    Gives (copyFolder env f folderId name order) w fun c w' =>
      Adds env f.workspaceId w w' (folderItem c) ∧ (folderItem c).folderId = folderId ∧
        (folderItem c).order = order := by
  refine Outcome.bind newId_gives fun id w₁ ⟨h₁, hid⟩ => ?_
  refine Gives.andThen (.ask env.now) fun now w₂ h₂ _ => ?_
  refine Gives.andThen (.lift _) fun _ w₃ h₃ _ => Gives.andThen (.lift _) fun _ w₄ h₄ _ => ?_
  rw [writeFolder, bind_assoc]
  refine Gives.andThen .fileSystem fun _ w₅ h₅ _ => ⟨?_, rfl, rfl⟩
  have hsame := ((h₁.trans h₂).trans (h₃.trans h₄)).trans h₅
  have hdrawn := hid.mono le_rfl ((h₂.trans h₃).trans (h₄.trans h₅)).tick
  exact writeFolder_adds rfl (hfree.id_ne hid) hdrawn hsame (Nat.le_refl w₅.tick) rfl rfl

theorem copyRequest_adds {r : HttpRequest} {folderId : Option String} {name : String} {order : ℚ}
    (hfree : NewIdsFree env w.tick (w.items r.workspaceId)) :
    Gives (copyRequest env r folderId name order) w fun c w' =>
      Adds env r.workspaceId w w' (requestItem c) ∧ (requestItem c).folderId = folderId ∧
        (requestItem c).order = order := by
  refine Outcome.bind newId_gives fun id w₁ ⟨h₁, hid⟩ => ?_
  refine Gives.andThen (.ask env.now) fun now w₂ h₂ _ => ?_
  refine Gives.andThen (.lift _) fun _ w₃ h₃ _ => Gives.andThen (.lift _) fun _ w₄ h₄ _ => ?_
  rw [writeRequest, bind_assoc]
  refine Gives.andThen .fileSystem fun _ w₅ h₅ _ => ⟨?_, rfl, rfl⟩
  have hsame := ((h₁.trans h₂).trans (h₃.trans h₄)).trans h₅
  have hdrawn := hid.mono le_rfl ((h₂.trans h₃).trans (h₄.trans h₅)).tick
  exact writeRequest_adds rfl (hfree.id_ne hid) hdrawn hsame (Nat.le_refl w₅.tick) rfl rfl

/-! ## Lists and orders -/

theorem listFolders_perm : Reads (listFolders env ws) w fun folders =>
    folders.Perm (w.folders.toList.filter fun f => f.workspaceId = ws) := by
  refine .bind workspaceDir_reads fun _ w₁ h₁ _ => .bind .fileSystem fun _ w₂ h₂ _ => ?_
  refine .bind get_reads fun _ w₃ h₃ heq => .bind (.ask _) fun entries w₄ h₄ hentries => ?_
  subst heq hentries
  rw [← h₁.folders, ← h₂.folders]
  exact .pure ((sortBy_perm _ _).trans (env.readDir_perm _ _))

theorem listRequests_perm : Reads (listRequests env ws) w fun requests =>
    requests.Perm (w.requests.toList.filter fun r => r.workspaceId = ws) := by
  refine .bind workspaceDir_reads fun _ w₁ h₁ _ => .bind .fileSystem fun _ w₂ h₂ _ => ?_
  refine .bind get_reads fun _ w₃ h₃ heq => .bind (.ask _) fun entries w₄ h₄ hentries => ?_
  subst heq hentries
  rw [← h₁.requests, ← h₂.requests]
  exact .pure ((sortBy_perm _ _).trans (env.readDir_perm _ _))

theorem itemsAt_items (w : World) (ws : String) (place : Option String) :
    itemsAt (w.items ws) place =
      ((w.folders.toList.filter fun f => f.workspaceId = ws).filter
        fun f => f.folderId = place).map folderItem ++
      ((w.requests.toList.filter fun r => r.workspaceId = ws).filter
        fun r => r.folderId = place).map requestItem := by
  rw [World.items, itemsAt_append, itemsAt, itemsAt, List.filter_map, List.filter_map]
  rfl

theorem min?_eq_of_perm {l l' : List ℚ} (h : l.Perm l') : l.min? = l'.min? := by
  ext a
  rw [List.min?_eq_some_iff, List.min?_eq_some_iff, h.mem_iff]
  simp only [h.mem_iff]

theorem halfway_perm {after : ℚ} (h : orders.Perm orders') :
    halfway after orders = halfway after orders' := by
  rw [halfway, halfway, min?_eq_of_perm (h.filter _)]

/-- The loop over the siblings finds the smallest order. -/
theorem foldl_smaller (smaller : Option ℚ → ℚ → Option ℚ)
    (hnone : ∀ order, smaller none order = some order)
    (hsome : ∀ n order, smaller (some n) order = some (min n order)) (l : List ℚ)
    (next : Option ℚ) : l.foldl smaller next = (next.toList ++ l).min? := by
  induction l generalizing next with
  | nil => cases next <;> rfl
  | cons order l ih =>
    rw [List.foldl_cons, ih]
    cases next with
    | none => rw [hnone]; rfl
    | some n => rw [hsome]; rfl

theorem map_order_filter {α : Type} (l : List α) (order : α → ℚ) (p : α → Prop) [DecidablePred p]
    (after : ℚ) : (l.filter fun a => p a ∧ after < order a).map order =
      ((l.filter fun a => p a).map order).filter fun x => after < x := by
  rw [List.filter_map, List.filter_filter]
  refine congrArg (List.map order) (List.filter_congr fun a _ => ?_)
  rw [Bool.decide_and, Bool.and_comm]
  rfl

theorem orderAfter_halfway {after : ℚ} : Reads (orderAfter env ws place after) w fun order =>
    order = halfway after ((itemsAt (w.items ws) place).map Tree.Item.order) := by
  refine .bind listRequests_perm fun requests w₁ h₁ hrequests =>
    .bind listFolders_perm fun folders w₂ h₂ hfolders => .pure ?_
  rw [h₁.folders] at hfolders
  have hown : ((itemsAt (w.items ws) place).map Tree.Item.order).Perm
      ((requests.filter fun r => r.folderId = place).map (·.order) ++
        (folders.filter fun f => f.folderId = place).map (·.order)) := by
    rw [itemsAt_items, List.map_append, List.map_map, List.map_map]
    refine List.perm_append_comm.trans (.append ?_ ?_)
    · exact ((hrequests.filter _).map _).symm
    · exact ((hfolders.filter _).map _).symm
  rw [halfway_perm hown, halfway, List.filter_append, ← map_order_filter requests,
    ← map_order_filter folders, foldl_smaller _ (fun _ => rfl) fun _ _ => rfl,
    foldl_smaller _ (fun _ => rfl) fun _ _ => rfl]
  generalize (requests.filter _).map _ = own
  generalize (folders.filter _).map _ = others
  cases own with
  | nil => rfl
  | cons x own =>
    rw [Option.toList_none, List.nil_append, List.min?_cons', Option.toList_some,
      List.singleton_append, List.min?_cons', List.cons_append, List.min?_cons', List.foldl_append]

/-! ## What is in a folder -/

/-- Since the first world only items that fill the folder have come. -/
def Filled (env : Env) (ws dst : String) (w w' : World) (orders : List ℚ) : Prop :=
  ∃ added, (w'.items ws).Perm (added ++ w.items ws) ∧
    Filling env dst w.tick w'.tick added orders

theorem Filled.tick (h : Filled env ws dst w w' orders) : w.tick ≤ w'.tick := by
  obtain ⟨added, -, hfilling⟩ := h
  exact hfilling.tick

theorem Filled.perm (h : Filled env ws dst w w' orders) (horders : orders.Perm orders') :
    Filled env ws dst w w' orders' := by
  obtain ⟨added, hitems, hfilling⟩ := h
  exact ⟨added, hitems, { hfilling with into := hfilling.into.trans horders }⟩

theorem Filled.of_same (h : SameFiles w w') (hdst : ∀ s ≥ w.tick, dst ≠ env.newId s) :
    Filled env ws dst w w' [] :=
  ⟨[], .of_eq (h.items_eq ws), (Filling.nil w.tick).later h.tick hdst⟩

theorem Filled.then_same {w'' : World} (h : Filled env ws dst w w' orders) (hsame : SameFiles w' w'')
    (hdst : ∀ s ≥ w.tick, dst ≠ env.newId s) : Filled env ws dst w w'' orders := by
  obtain ⟨added, hitems, hfilling⟩ := h
  refine ⟨added, ?_, hfilling.later hsame.tick hdst⟩
  rw [hsame.items_eq]
  exact hitems

theorem Filled.newIdsFree (h : Filled env ws dst w w' orders)
    (hdst : ∀ s ≥ w.tick, dst ≠ env.newId s) (hfree : NewIdsFree env w.tick (w.items ws)) :
    NewIdsFree env w'.tick (w'.items ws) := by
  obtain ⟨added, hitems, hfilling⟩ := h
  exact ((hfree.mono hfilling.tick).append (hfilling.newIdsFree hdst)).perm hitems

theorem Filled.adds {w'' : World} (h : Filled env ws dst w w' orders)
    (hdst : ∀ s ≥ w.tick, dst ≠ env.newId s) (hadds : Adds env ws w' w'' i)
    (hfolder : i.folderId = some dst) (hpos : 0 < i.order) :
    Filled env ws dst w w'' (i.order :: orders) := by
  obtain ⟨added, hitems, hfilling⟩ := h
  exact ⟨i :: added, hadds.perm.trans (hitems.cons i),
    hfilling.cons hdst hadds.tick hadds.drawn hfolder hpos⟩

/-- A folder in the folder is filled. -/
theorem Filled.nest {w'' : World} (h : Filled env ws dst w w' orders)
    (hdst : ∀ s ≥ w.tick, dst ≠ env.newId s) (h' : Filled env ws dst' w' w'' orders')
    (hdst' : Drawn env w.tick w'.tick dst') (hnew : itemsAt (w'.items ws) (some dst') = [])
    (horders : orders'.Nodup) : Filled env ws dst w w'' orders := by
  obtain ⟨added, hitems, hfilling⟩ := h
  obtain ⟨added', hitems', hfilling'⟩ := h'
  refine ⟨added' ++ added, ?_, hfilling.nest hdst hfilling' hdst' ?_ horders⟩
  · rw [List.append_assoc]
    exact hitems'.trans (hitems.append_left added')
  · have hperm := hitems.filter fun i => decide (i.folderId = some dst')
    rw [← itemsAt, ← itemsAt, hnew, itemsAt_append] at hperm
    exact (List.append_eq_nil_iff.mp hperm.nil_eq.symm).1

/-- The places have the items that they had. -/
def KeepsItems (T : Set String) (items items' : List Tree.Item) : Prop :=
  ∀ x ∈ T, (itemsAt items' (some x)).Perm (itemsAt items (some x))

variable {T : Set String} {base : List Tree.Item}

theorem Filled.kept (h : Filled env ws dst w w' orders) (hdst : dst ∉ T)
    (hT : ∀ x ∈ T, ∀ s ≥ w.tick, x ≠ env.newId s) (hkept : KeepsItems T base (w.items ws)) :
    KeepsItems T base (w'.items ws) := by
  obtain ⟨added, hitems, hfilling⟩ := h
  intro x hx
  have hnone : itemsAt added (some x) = [] := by
    refine itemsAt_eq_nil fun i hi heq => ?_
    rcases hfilling.folder i hi with hfolder | ⟨id, hfolder, s, hs, -, rfl⟩
    · exact hdst (Option.some.inj (hfolder.symm.trans heq) ▸ hx)
    · exact hT x hx s hs (Option.some.inj (heq.symm.trans hfolder))
  have hperm := hitems.filter fun i => decide (i.folderId = some x)
  rw [← itemsAt, ← itemsAt, itemsAt_append, hnone] at hperm
  exact hperm.trans (hkept x hx)

/-- A loop that puts one item into the folder in each round. -/
theorem forM_filled {γ : Type} {g : γ → Store PUnit} {order : γ → ℚ} {xs : List γ} {w₁ : World}
    (h : ∀ x ∈ xs, ∀ w' orders, Filled env ws dst w w' orders → Gives (g x) w' fun _ w'' =>
      Filled env ws dst w w'' (order x :: orders)) (hstart : Filled env ws dst w w₁ orders) :
    Gives (xs.forM g) w₁ fun _ w' => Filled env ws dst w w' (xs.map order ++ orders) := by
  induction xs generalizing w₁ orders with
  | nil => exact Outcome.pure hstart
  | cons x xs ih =>
    refine Outcome.bind (h x List.mem_cons_self w₁ orders hstart) fun _ w₂ h₂ => ?_
    refine Outcome.mono (ih (fun y hy => h y (List.mem_cons_of_mem _ hy)) h₂) (fun _ w' h' => ?_)
      fun _ _ he => he
    exact h'.perm List.perm_middle

/-- The folders and the requests at a place that has kept its items. -/
theorem kinds_perm {l : List Tree.Item} {folders : List ApiFolder} {requests : List HttpRequest}
    (h : (folders.map folderItem ++ requests.map requestItem).Perm l) :
    (folders.map folderItem).Perm (l.filter fun i => i.kind = .folder) ∧
      (requests.map requestItem).Perm (l.filter fun i => i.kind ≠ .folder) := by
  constructor
  · have hperm := h.filter fun i => decide (i.kind = .folder)
    rwa [List.filter_append, List.filter_eq_self.mpr (List.forall_mem_map.mpr fun _ _ => rfl),
      List.filter_eq_nil_iff.mpr (List.forall_mem_map.mpr fun _ _ => Bool.false_ne_true), List.append_nil]
      at hperm
  · have hperm := h.filter fun i => decide (i.kind ≠ .folder)
    rwa [List.filter_append,
      List.filter_eq_nil_iff.mpr (List.forall_mem_map.mpr fun _ _ => Bool.false_ne_true),
      List.filter_eq_self.mpr (List.forall_mem_map.mpr fun _ _ => rfl)] at hperm

theorem orders_perm {l : List Tree.Item} {folders : List ApiFolder} {requests : List HttpRequest}
    (hfolders : (folders.map folderItem).Perm (l.filter fun i => i.kind = .folder))
    (hrequests : (requests.map requestItem).Perm (l.filter fun i => i.kind ≠ .folder)) :
    (folders.map (·.order) ++ requests.map (·.order)).Perm (l.map Tree.Item.order) := by
  have hsplit : (l.filter (fun i => decide (i.kind = .folder)) ++
      l.filter fun i => decide (i.kind ≠ .folder)).Perm l := by
    simp only [ne_eq, decide_not]
    exact List.filter_append_perm ..
  have hperm := ((hfolders.append hrequests).trans hsplit).map Tree.Item.order
  rwa [List.map_append, List.map_map, List.map_map] at hperm

/-- Everything under a folder is copied into another one that is empty. -/
theorem copyFolderChildren_filled {fuel : ℕ} {src : String} (hbase : DistinctOrders base)
    (hclosed : ∀ i ∈ base, i.kind = .folder → ∀ x ∈ T, i.folderId = some x → i.id ∈ T)
    (hT : ∀ x ∈ T, ∀ s ≥ w.tick, x ≠ env.newId s) (hkept : KeepsItems T base (w.items ws))
    (hfree : NewIdsFree env w.tick (w.items ws)) (hsrc : src ∈ T) (hdst : dst ∉ T)
    (hnew : ∀ s ≥ w.tick, dst ≠ env.newId s) :
    Gives (copyFolderChildren env ws fuel src dst) w fun _ w' =>
      Filled env ws dst w w' ((itemsAt base (some src)).map Tree.Item.order) := by
  induction fuel generalizing w src dst with
  | zero => exact Outcome.throw trivial
  | succ fuel ih =>
    rw [copyFolderChildren]
    refine Gives.andThen listRequests_perm fun requests w₁ h₁ hrequests => ?_
    have hplace := fun (w' : World) (hkept' : KeepsItems T base (w'.items ws)) =>
      kinds_perm (itemsAt_items w' ws (some src) ▸ hkept' src hsrc)
    have hrequests' := (((hrequests.filter fun r => r.folderId = some src).map requestItem).trans
      (hplace w hkept).2)
    have hmem : ∀ r ∈ requests.filter (fun r => r.folderId = some src),
        r.workspaceId = ws ∧ requestItem r ∈ base := fun r hr => by
      refine ⟨?_, ?_⟩
      · have hr' := hrequests.mem_iff.mp (List.mem_of_mem_filter hr)
        exact of_decide_eq_true (List.mem_filter.mp hr').2
      · have hr' := hrequests'.mem_iff.mp (List.mem_map_of_mem hr)
        exact (mem_itemsAt.mp (List.mem_of_mem_filter hr')).1
    have hstart : Filled env ws dst w w₁ [] := .of_same h₁ hnew
    refine Outcome.bind (@forM_filled _ _ _ _ _ _ _ (fun r : HttpRequest => r.order) _ _
      (fun r hr w' orders hfilled => ?_) hstart) fun _ w₂ h₂ => ?_
    · obtain ⟨rfl, hr⟩ := hmem r hr
      refine Outcome.bind (copyRequest_adds (hfilled.newIdsFree hnew hfree)) ?_
      rintro c w'' ⟨hadds, hfolder, horder⟩
      have hpos : 0 < (requestItem c).order := by
        rw [horder]
        exact hbase.positive _ hr
      have hfilled' := hfilled.adds hnew hadds hfolder hpos
      rw [horder] at hfilled'
      exact Outcome.pure hfilled'
    rw [List.append_nil] at h₂
    have hkept₂ := h₂.kept hdst hT hkept
    refine Gives.andThen listFolders_perm fun folders w₃ h₃ hfolders => ?_
    have hfolders' := (((hfolders.filter fun f => f.folderId = some src).map folderItem).trans
      (hplace w₂ hkept₂).1)
    have hmem : ∀ f ∈ folders.filter (fun f => f.folderId = some src),
        f.workspaceId = ws ∧ folderItem f ∈ base ∧ f.folderId = some src := fun f hf => by
      have hf' := hfolders.mem_iff.mp (List.mem_of_mem_filter hf)
      refine ⟨of_decide_eq_true (List.mem_filter.mp hf').2, ?_,
        of_decide_eq_true (List.mem_filter.mp hf).2⟩
      have hf' := hfolders'.mem_iff.mp (List.mem_map_of_mem hf)
      exact (mem_itemsAt.mp (List.mem_of_mem_filter hf')).1
    refine Outcome.mono (@forM_filled _ _ _ _ _ _ _ (fun f : ApiFolder => f.order) _ _
      (fun f hf w' orders hfilled => ?_) (h₂.then_same h₃ hnew))
      (fun _ w' h' => h'.perm (orders_perm hfolders' hrequests')) fun _ _ he => he
    obtain ⟨rfl, hf, hsrc'⟩ := hmem f hf
    have hfree' := hfilled.newIdsFree hnew hfree
    refine Outcome.bind (copyFolder_adds hfree') ?_
    rintro c w'' ⟨hadds, hfolder, horder⟩
    have hpos : 0 < (folderItem c).order := by
      rw [horder]
      exact hbase.positive _ hf
    have hfilled' := hfilled.adds hnew hadds hfolder hpos
    rw [horder] at hfilled'
    -- The copy is empty, and it is none of the folders that are copied.
    have hempty : itemsAt (w''.items f.workspaceId) (some c.id) = [] := by
      refine hadds.itemsAt_new hfree' ?_
      obtain ⟨s, hs, -, hid⟩ := hadds.drawn
      rw [hfolder]
      exact fun heq => hnew s (hfilled.tick.trans hs) ((Option.some.inj heq).trans hid)
    have hdrawn : Drawn env w.tick w''.tick c.id := hadds.drawn.mono hfilled.tick le_rfl
    have htick : w.tick ≤ w''.tick := hfilled'.tick
    refine Outcome.mono (ih (fun x hx s hs => hT x hx s (htick.trans hs))
      (hfilled'.kept hdst hT hkept) (hfilled'.newIdsFree hnew hfree)
      (hclosed _ hf rfl src hsrc hsrc') ?_ fun s hs => hdrawn.ne_newId hs)
      (fun _ w₄ h₄ => ?_) fun _ _ he => he
    · intro hc
      obtain ⟨s, hs, -, hid⟩ := hdrawn
      exact hT _ hc s hs hid
    · exact hfilled'.nest hnew h₄ hdrawn hempty (hbase.distinct _)

/-! ## Copies of folders and requests -/

/-- A copy of an item has come, halfway to the next of the items that the store keeps itself. -/
def Duplicated (env : Env) (t t' : ℕ) (before after own : List Tree.Item) (kind : ItemKind)
    (id : String) (copy : Tree.Item) : Prop :=
  ∃ src ∈ own, src.kind = kind ∧ src.id = id ∧
    copy.order = halfway src.order ((itemsAt own src.folderId).map Tree.Item.order) ∧
    ∃ added, Copied env t t' before after src copy added

theorem Copied.single {src copy : Tree.Item} (htick : t ≤ t') (hperm : after.Perm (copy :: before))
    (hkind : copy.kind = src.kind) (hfolder : copy.folderId = src.folderId)
    (hdrawn : Drawn env t t' copy.id) : Copied env t t' before after src copy [] where
  tick := htick
  perm := hperm
  kind := hkind
  folder := hfolder
  drawn := hdrawn
  positive := nofun
  added_drawn := nofun
  distinct _ := List.nodup_nil

theorem duplicateRequest_duplicated (hfree : NewIdsFree env w.tick (w.items ws)) :
    Gives (duplicateRequest env ws id) w fun r w' =>
      Duplicated env w.tick w'.tick (w.items ws) (w'.items ws) (w.items ws) .request id
        (requestItem r) := by
  refine Gives.andThen getRequest_reads fun src w₁ h₁ hsrc => ?_
  obtain ⟨hmem, rfl, rfl⟩ := hsrc
  refine Gives.andThen orderAfter_halfway fun order w₂ h₂ horder => ?_
  have h₁₂ := h₁.trans h₂
  have hfree₂ : NewIdsFree env w₂.tick (w₂.items src.workspaceId) := by
    rw [h₁₂.items_eq]
    exact hfree.mono h₁₂.tick
  refine Outcome.mono (copyRequest_adds hfree₂) ?_ fun _ _ he => he
  rintro r w₃ ⟨hadds, hfolder, horder'⟩
  have hadds' := hadds.of_same h₁₂ (.refl w₃)
  refine ⟨requestItem src, requestItem_mem hmem, rfl, rfl, ?_, [],
    .single hadds'.tick hadds'.perm rfl hfolder hadds'.drawn⟩
  rw [horder', horder, h₁.items_eq]
  rfl

/-- What a copy of a folder brings. -/
theorem Filled.copied {w₁ w₂ : World} {src copy : Tree.Item} (hadds : Adds env ws w w₁ copy)
    (hfilled : Filled env ws copy.id w₁ w₂ orders) (horders : orders.Nodup)
    (hkind : copy.kind = src.kind) (hfolder : copy.folderId = src.folderId) :
    ∃ added, Copied env w.tick w₂.tick (w.items ws) (w₂.items ws) src copy added := by
  obtain ⟨added, hitems, hfilling⟩ := hfilled
  have hplace : ∀ i ∈ added, ∃ id, i.folderId = some id ∧ Drawn env w.tick w₂.tick id := by
    intro i hi
    rcases hfilling.folder i hi with hfolder | ⟨id, hfolder, hid⟩
    · exact ⟨copy.id, hfolder, hadds.drawn.mono le_rfl hfilling.tick⟩
    · exact ⟨id, hfolder, hid.mono hadds.tick le_rfl⟩
  refine ⟨added, hadds.tick.trans hfilling.tick, hitems.trans (hadds.perm.append_left added), hkind,
    hfolder, hadds.drawn.mono le_rfl hfilling.tick, hfilling.positive, fun i hi =>
    ⟨(hfilling.drawn i hi).mono hadds.tick le_rfl, hplace i hi⟩, fun place => ?_⟩
  by_cases hempty : itemsAt added place = []
  · rw [hempty]
    exact List.nodup_nil
  · obtain ⟨i, hat⟩ := List.exists_mem_of_ne_nil _ hempty
    obtain ⟨hi, rfl⟩ := mem_itemsAt.mp hat
    rcases hfilling.folder i hi with hfolder | ⟨id, hfolder, hid⟩
    · rw [hfolder]
      exact hfilling.into.nodup_iff.mpr horders
    · rw [hfolder]
      exact hfilling.inside id hid

theorem freshIn_of_newIdsFree (hfree : NewIdsFree env w.tick (w.items ws)) : FreshIn env ws w := by
  rintro t ht f hf rfl
  exact (hfree (folderItem f) (folderItem_mem hf) t ht).1

theorem duplicateFolder_duplicated (hfree : NewIdsFree env w.tick (w.items ws))
    (hdistinct : DistinctOrders (w.items ws)) :
    Gives (duplicateFolder env ws id) w fun f w' =>
      Duplicated env w.tick w'.tick (w.items ws) (w'.items ws) (w.items ws) .folder id
        (folderItem f) := by
  have hfresh := freshIn_of_newIdsFree hfree
  by_cases hcycle : OnCycle (w.parentOf ws) id
  · -- From a folder on a cycle no copy comes to an end.
    obtain ⟨p, hp, -⟩ := hcycle.exists_parent
    obtain ⟨f, hf, hws, hid, -⟩ := parentOf_eq_some_iff.mp hp
    have hends := @duplicateFolderWithin_ends env w ws id ∅ (w.folders.toList.length + 1) hfresh
      ⟨f, hf, Prod.ext hws hid⟩ (fun _ _ _ h => h) (fun _ h => h.elim) fun _ h => h.elim
    exact Outcome.mono hends (fun _ _ h => absurd hcycle h) fun _ _ _ => trivial
  refine Gives.andThen get_reads fun _ w₁ h₁ _ => ?_
  refine Gives.andThen getFolder_reads fun src w₂ h₂ hsrc => ?_
  rw [h₁.folders] at hsrc
  obtain ⟨hmem, rfl, rfl⟩ := hsrc
  refine Gives.andThen orderAfter_halfway fun order w₃ h₃ horder => ?_
  have hsame := (h₁.trans h₂).trans h₃
  rw [(h₁.trans h₂).items_eq] at horder
  have hfree₃ : NewIdsFree env w₃.tick (w₃.items src.workspaceId) := by
    rw [hsame.items_eq]
    exact hfree.mono hsame.tick
  refine Outcome.bind (copyFolder_adds hfree₃) ?_
  rintro copy w₄ ⟨hadds, hfolder, horder'⟩
  have hadds' := hadds.of_same hsame (.refl w₄)
  -- Nothing is put into the folders that are copied.
  let T : Set String := {x | Under (w.parentOf src.workspaceId) src.id x}
  have hT : ∀ x ∈ T, ∀ s ≥ w.tick, x ≠ env.newId s := by
    intro x hx s hs
    cases hx with
    | self => exact hfresh s hs src hmem rfl
    | link hparent _ =>
      obtain ⟨f, hf, hws, rfl, -⟩ := parentOf_eq_some_iff.mp hparent
      exact hfresh s hs f hf hws
  have hclosed : ∀ i ∈ w.items src.workspaceId, i.kind = .folder → ∀ x ∈ T,
      i.folderId = some x → i.id ∈ T := by
    intro i hi hkind x hx hplace
    obtain ⟨f, hf, hws, rfl⟩ := exists_folder_of_mem hi hkind
    have hlink := (parentOf_of_mem hf).trans (congrArg some hplace)
    rw [hws] at hlink
    exact .link hlink hx
  have hkept : KeepsItems T (w.items src.workspaceId) (w₄.items src.workspaceId) := by
    intro x hx
    have hne : (folderItem copy).folderId ≠ some x := by
      intro heq
      refine hcycle ⟨x, ?_, hx⟩
      rw [parentOf_of_mem hmem, ← hfolder, heq]
    have hperm := hadds'.perm.filter fun i => decide (i.folderId = some x)
    rwa [← itemsAt, ← itemsAt, itemsAt_cons_ne hne] at hperm
  have hfree₄ : NewIdsFree env w₄.tick (w₄.items src.workspaceId) := by
    refine NewIdsFree.perm (List.forall_mem_cons.mpr ⟨fun s hs => ?_, hfree.mono hadds'.tick⟩)
      hadds'.perm
    refine ⟨hadds'.drawn.ne_newId hs, ?_⟩
    rw [hfolder]
    exact (hfree (folderItem src) (folderItem_mem hmem) s (hadds'.tick.trans hs)).2
  refine Outcome.bind (copyFolderChildren_filled hdistinct hclosed
    (fun x hx s hs => hT x hx s (hadds'.tick.trans hs)) hkept hfree₄ .self ?_
    fun s hs => hadds'.drawn.ne_newId hs) fun _ w₅ hfilled => ?_
  · intro hc
    obtain ⟨s, hs, -, hid⟩ := hadds'.drawn
    exact hT _ hc s hs hid
  · have hkind : (folderItem copy).kind = (folderItem src).kind := rfl
    obtain ⟨added, hcopied⟩ :=
      Filled.copied hadds' hfilled (hdistinct.distinct _) hkind hfolder
    refine Outcome.pure ⟨folderItem src, folderItem_mem hmem, rfl, rfl, ?_, added, hcopied⟩
    rw [horder', horder]
    rfl

end Voleeo.Storage
