import Voleeo.Tree.BuildTree

/-!
# Siblings in the tree

The searches in the tree of a forest find what the lists say: the parent of an
item is the folder it names, and the children of a folder are the sorted items
that name it.
-/
namespace Voleeo.Tree

/-- All nodes, at any depth. -/
def allNodes : List TreeNode → List TreeNode
  | [] => []
  | .folder f children :: rest => .folder f children :: (allNodes children ++ allNodes rest)
  | n :: rest => n :: allNodes rest

theorem mem_allNodes_folder {n : TreeNode} {f : ApiFolder} {children rest : List TreeNode} :
    n ∈ allNodes (.folder f children :: rest) ↔
      n = .folder f children ∨ n ∈ allNodes children ∨ n ∈ allNodes rest := by
  rw [allNodes, List.mem_cons, List.mem_append]

theorem mem_allNodes_cons {n m : TreeNode} {rest : List TreeNode} (h : n ∈ allNodes rest) :
    n ∈ allNodes (m :: rest) := by
  cases m with
  | folder f children => exact mem_allNodes_folder.mpr (.inr (.inr h))
  | _ =>
    rw [allNodes]
    · exact List.mem_cons_of_mem _ h
    · intro f children heq
      cases heq

theorem mem_allNodes_of_mem {n : TreeNode} {nodes : List TreeNode} (h : n ∈ nodes) :
    n ∈ allNodes nodes := by
  fun_induction allNodes nodes with
  | case1 => cases h
  | case2 f children rest ihchildren ihrest =>
    rcases List.mem_cons.mp h with rfl | h
    · exact List.mem_cons_self
    · exact List.mem_cons_of_mem _ (List.mem_append_right _ (ihrest h))
  | case3 m rest hm ih =>
    rcases List.mem_cons.mp h with rfl | h
    · exact List.mem_cons_self
    · exact List.mem_cons_of_mem _ (ih h)

theorem mem_allNodes {n : TreeNode} {nodes : List TreeNode} :
    n ∈ allNodes nodes ↔
      n ∈ nodes ∨ ∃ f children, .folder f children ∈ nodes ∧ n ∈ allNodes children := by
  fun_induction allNodes nodes with
  | case1 => simp
  | case2 f children rest ihchildren ihrest =>
    rw [List.mem_cons, List.mem_append, ihrest]
    constructor
    · rintro (rfl | h | h | ⟨g, c, hg, h⟩)
      · exact .inl List.mem_cons_self
      · exact .inr ⟨f, children, List.mem_cons_self, h⟩
      · exact .inl (List.mem_cons_of_mem _ h)
      · exact .inr ⟨g, c, List.mem_cons_of_mem _ hg, h⟩
    · rintro (h | ⟨g, c, hg, h⟩)
      · rcases List.mem_cons.mp h with rfl | h
        · exact .inl rfl
        · exact .inr (.inr (.inl h))
      · rcases List.mem_cons.mp hg with heq | hg
        · obtain ⟨rfl, rfl⟩ := TreeNode.folder.inj heq
          exact .inr (.inl h)
        · exact .inr (.inr (.inr ⟨g, c, hg, h⟩))
  | case3 m rest hm ih =>
    rw [List.mem_cons, ih, List.mem_cons]
    constructor
    · rintro (rfl | h | ⟨g, c, hg, h⟩)
      · exact .inl (.inl rfl)
      · exact .inl (.inr h)
      · exact .inr ⟨g, c, List.mem_cons_of_mem _ hg, h⟩
    · rintro ((rfl | h) | ⟨g, c, hg, h⟩)
      · exact .inl rfl
      · exact .inr (.inl h)
      · rcases List.mem_cons.mp hg with heq | hg
        · exact absurd heq.symm (hm g c)
        · exact .inr (.inr ⟨g, c, hg, h⟩)

theorem mem_allNodes_children {f : ApiFolder} {children nodes : List TreeNode} {n : TreeNode}
    (hf : .folder f children ∈ allNodes nodes) (hn : n ∈ children) : n ∈ allNodes nodes := by
  fun_induction allNodes nodes with
  | case1 => cases hf
  | case2 g c rest ihchildren ihrest =>
    rw [List.mem_cons, List.mem_append] at hf ⊢
    rcases hf with heq | hf | hf
    · obtain ⟨rfl, rfl⟩ := TreeNode.folder.inj heq
      exact .inr (.inl (mem_allNodes_of_mem hn))
    · exact .inr (.inl (ihchildren hf))
    · exact .inr (.inr (ihrest hf))
  | case3 m rest hm ih =>
    rcases List.mem_cons.mp hf with heq | hf
    · exact absurd heq.symm (hm f children)
    · exact List.mem_cons_of_mem _ (ih hf)

/-! ## The searches -/

theorem getFolderChildren_sound {nodes children : List TreeNode} {id : String}
    (h : getFolderChildren nodes id = some children) :
    ∃ f, f.id = id ∧ .folder f children ∈ allNodes nodes := by
  fun_induction getFolderChildren nodes id with
  | case1 => cases h
  | case2 f c rest =>
    cases h
    exact ⟨f, rfl, mem_allNodes_folder.mpr (.inl rfl)⟩
  | case3 f c rest id hne found hfound ih =>
    cases h
    obtain ⟨g, hg, hmem⟩ := ih hfound
    exact ⟨g, hg, mem_allNodes_folder.mpr (.inr (.inl hmem))⟩
  | case4 f c rest id hne hnone ihchildren ih =>
    obtain ⟨g, hg, hmem⟩ := ih h
    exact ⟨g, hg, mem_allNodes_cons hmem⟩
  | case5 n rest id hn ih =>
    obtain ⟨g, hg, hmem⟩ := ih h
    exact ⟨g, hg, mem_allNodes_cons hmem⟩

theorem getFolderChildren_isSome {f : ApiFolder} {children nodes : List TreeNode}
    (h : .folder f children ∈ allNodes nodes) : (getFolderChildren nodes f.id).isSome := by
  fun_induction allNodes nodes with
  | case1 => cases h
  | case2 g c rest ihchildren ihrest =>
    rw [getFolderChildren]
    rw [List.mem_cons, List.mem_append] at h
    split_ifs with hid
    · rfl
    · rcases h with heq | h | h
      · obtain ⟨rfl, -⟩ := TreeNode.folder.inj heq
        exact absurd rfl hid
      · obtain ⟨found, hfound⟩ := Option.isSome_iff_exists.mp (ihchildren h)
        rw [hfound]
        rfl
      · split
        · rfl
        · exact ihrest h
  | case3 m rest hm ih =>
    rw [getFolderChildren]
    · rcases List.mem_cons.mp h with heq | h
      · exact absurd heq.symm (hm f children)
      · exact ih h
    · exact hm

theorem findParent_sound {nodes : List TreeNode} {id : String} {parent found : Option String}
    (h : findParent nodes id parent = some found) :
    (found = parent ∧ ∃ n ∈ nodes, getId n = id) ∨
      ∃ f children, .folder f children ∈ allNodes nodes ∧ found = some f.id ∧
        ∃ n ∈ children, getId n = id := by
  fun_induction findParent nodes id parent with
  | case1 => cases h
  | case2 f children rest parent =>
    cases h
    exact .inl ⟨rfl, _, List.mem_cons_self, rfl⟩
  | case3 f children rest id parent hne place hplace ih =>
    cases h
    rcases ih hplace with ⟨rfl, hn⟩ | ⟨g, c, hg, hrest⟩
    · exact .inr ⟨f, children, mem_allNodes_folder.mpr (.inl rfl), rfl, hn⟩
    · exact .inr ⟨g, c, mem_allNodes_folder.mpr (.inr (.inl hg)), hrest⟩
  | case4 f children rest id parent hne hnone ihchildren ih =>
    rcases ih h with ⟨rfl, n, hn, hid⟩ | ⟨g, c, hg, hrest⟩
    · exact .inl ⟨rfl, n, List.mem_cons_of_mem _ hn, hid⟩
    · exact .inr ⟨g, c, mem_allNodes_cons hg, hrest⟩
  | case5 n rest parent hn =>
    cases h
    exact .inl ⟨rfl, n, List.mem_cons_self, rfl⟩
  | case6 n rest id parent hn hne ih =>
    rcases ih h with ⟨rfl, m, hm, hid⟩ | ⟨g, c, hg, hrest⟩
    · exact .inl ⟨rfl, m, List.mem_cons_of_mem _ hm, hid⟩
    · exact .inr ⟨g, c, mem_allNodes_cons hg, hrest⟩

theorem findParent_isSome {n : TreeNode} {nodes : List TreeNode} (h : n ∈ allNodes nodes)
    (parent : Option String) : (findParent nodes (getId n) parent).isSome := by
  fun_induction allNodes nodes generalizing parent with
  | case1 => cases h
  | case2 f children rest ihchildren ihrest =>
    rw [findParent]
    rw [List.mem_cons, List.mem_append] at h
    split_ifs with hid
    · rfl
    · rcases h with rfl | h | h
      · exact absurd rfl hid
      · obtain ⟨found, hfound⟩ := Option.isSome_iff_exists.mp (ihchildren h (some f.id))
        rw [hfound]
        rfl
      · split
        · rfl
        · exact ihrest h parent
  | case3 m rest hm ih =>
    rw [findParent]
    · split_ifs with hid
      · rfl
      · rcases List.mem_cons.mp h with rfl | h
        · exact absurd rfl hid
        · exact ih h parent
    · exact hm

/-! ## The tree of a forest -/

variable {dateParse : String → ℚ} {s : RequestState}

theorem mem_siblings {i : Item} {place : Option String} :
    i ∈ siblings dateParse s place ↔ i ∈ s.items ∧ i.folderId = place := by
  rw [siblings, mem_sortBy, List.mem_filter, decide_eq_true_eq]

/-- The children of a folder node are the tree below it. -/
theorem children_of_mem_buildTree {fuel : ℕ} {place : Option String} {f : ApiFolder}
    {children : List TreeNode}
    (h : .folder f children ∈ buildTree dateParse s (fuel + 1) place) :
    f ∈ s.folders ∧ f.folderId = place ∧ children = buildTree dateParse s fuel (some f.id) := by
  simp only [buildTree, mem_sortBy, List.mem_append, List.mem_map] at h
  rcases h with ((⟨g, hg, heq⟩ | ⟨r, -, heq⟩) | ⟨c, -, heq⟩) | ⟨r, -, heq⟩
  · obtain ⟨rfl, rfl⟩ := TreeNode.folder.inj heq
    rw [List.mem_filter, decide_eq_true_eq] at hg
    exact ⟨hg.1, hg.2, rfl⟩
  all_goals cases heq

/-- The fuel of `tree` lasts at every depth. -/
theorem children_of_mem_allNodes (h : Forest s) {fuel n : ℕ} {place : Option String}
    (hdepth : Depth s.parentOf place n) (hfuel : fuel + n = s.folders.length + 1)
    {f : ApiFolder} {children : List TreeNode}
    (hf : .folder f children ∈ allNodes (buildTree dateParse s fuel place)) :
    f ∈ s.folders ∧ ∃ fuel', children = buildTree dateParse s (fuel' + 1) (some f.id) := by
  induction fuel generalizing place n with
  | zero =>
    rw [buildTree, allNodes] at hf
    cases hf
  | succ fuel ih =>
    have hchild : ∀ {g : ApiFolder} {c : List TreeNode},
        .folder g c ∈ buildTree dateParse s (fuel + 1) place →
          g ∈ s.folders ∧ Depth s.parentOf (some g.id) (n + 1) ∧
            c = buildTree dateParse s fuel (some g.id) := by
      intro g c hg
      obtain ⟨hmem, hplace, hc⟩ := children_of_mem_buildTree hg
      exact ⟨hmem, .link (by rw [parentOf_folder h.nodup hmem, hplace]) hdepth, hc⟩
    rcases mem_allNodes.mp hf with hf | ⟨g, c, hg, hf⟩
    · obtain ⟨hmem, hdepth', hc⟩ := hchild hf
      have hle := depth_le hdepth'
      exact ⟨hmem, fuel - 1, by rw [hc, show fuel - 1 + 1 = fuel by omega]⟩
    · obtain ⟨-, hdepth', rfl⟩ := hchild hg
      exact ih hdepth' (by omega) hf

theorem children_of_mem_tree (h : Forest s) {f : ApiFolder} {children : List TreeNode}
    (hf : .folder f children ∈ allNodes (tree dateParse s)) :
    f ∈ s.folders ∧ children.map TreeNode.item = siblings dateParse s (some f.id) := by
  obtain ⟨hmem, fuel, rfl⟩ := children_of_mem_allNodes h .root rfl hf
  exact ⟨hmem, item_buildTree fuel _⟩

/-- Every item of a rooted place is in the tree. -/
theorem exists_node (h : Forest s) {place : Option String} (hplace : Rooted s.parentOf place)
    {i : Item} (hi : i ∈ s.items) (hfolder : i.folderId = place) :
    ∃ n ∈ allNodes (tree dateParse s), n.item = i := by
  induction hplace generalizing i with
  | root =>
    have hmem : i ∈ (tree dateParse s).map TreeNode.item := by
      rw [tree, item_buildTree]
      exact mem_siblings.mpr ⟨hi, hfolder⟩
    obtain ⟨n, hn, rfl⟩ := List.mem_map.mp hmem
    exact ⟨n, mem_allNodes_of_mem hn, rfl⟩
  | link hparent _ ih =>
    obtain ⟨f, hf, rfl, hplace'⟩ := parentOf_eq_some hparent
    obtain ⟨n, hn, hitem⟩ := ih (folder_mem_items hf) hplace'
    cases n with
    | folder g children =>
      obtain ⟨-, hchildren⟩ := children_of_mem_tree h hn
      have hid : g.id = f.id := congrArg Item.id hitem
      have hmem : i ∈ children.map TreeNode.item := by
        rw [hchildren, hid]
        exact mem_siblings.mpr ⟨hi, hfolder⟩
      obtain ⟨m, hm, rfl⟩ := List.mem_map.mp hmem
      exact ⟨m, mem_allNodes_children hn hm, rfl⟩
    | _ => cases congrArg Item.kind hitem

theorem getChildren_tree (h : Forest s) {place : Option String} (hplace : Rooted s.parentOf place) :
    ∃ children, getChildren (tree dateParse s) place = some children ∧
      children.map TreeNode.item = siblings dateParse s place := by
  cases hplace with
  | root => exact ⟨_, rfl, item_buildTree _ _⟩
  | link hparent hrest =>
    obtain ⟨f, hf, rfl, hplace'⟩ := parentOf_eq_some hparent
    obtain ⟨n, hn, hitem⟩ := @exists_node dateParse s h _ hrest _ (folder_mem_items hf) hplace'
    cases n with
    | folder g children =>
      have hid : g.id = f.id := congrArg Item.id hitem
      obtain ⟨found, hfound⟩ := Option.isSome_iff_exists.mp (getFolderChildren_isSome hn)
      obtain ⟨g', hg', hmem⟩ := getFolderChildren_sound hfound
      refine ⟨found, by rw [getChildren, ← hid, hfound], ?_⟩
      rw [(children_of_mem_tree h hmem).2, hg', hid]
    | _ => cases congrArg Item.kind hitem

theorem item_of_mem_children (h : Forest s) {place : Option String}
    {children : List TreeNode} (hchildren : children.map TreeNode.item = siblings dateParse s place)
    {n : TreeNode} (hn : n ∈ children) {i : Item} (hi : i ∈ s.items) (hid : getId n = i.id) :
    i.folderId = place := by
  have hmem : n.item ∈ siblings dateParse s place := hchildren ▸ List.mem_map_of_mem hn
  obtain ⟨hitem, hplace⟩ := mem_siblings.mp hmem
  rw [getId_eq] at hid
  rw [← eq_of_id h.nodup hitem hi hid, hplace]

theorem findParent_tree (h : Forest s) {i : Item} (hi : i ∈ s.items) :
    findParent (tree dateParse s) i.id none = some i.folderId := by
  obtain ⟨n, hn, rfl⟩ := @exists_node dateParse s h _ (h.rooted i hi) i hi rfl
  obtain ⟨found, hfound⟩ := Option.isSome_iff_exists.mp (findParent_isSome hn none)
  rw [getId_eq] at hfound
  rw [hfound]
  rcases findParent_sound hfound with ⟨rfl, m, hm, hid⟩ | ⟨f, c, hf, rfl, m, hm, hid⟩
  · rw [item_of_mem_children h (item_buildTree _ _) hm hi hid]
  · rw [item_of_mem_children h (children_of_mem_tree h hf).2 hm hi hid]

end Voleeo.Tree
