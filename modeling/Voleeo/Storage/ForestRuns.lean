import Voleeo.Storage.Forest

/-!
# Runs keep the forest

Each operation is stated as an outcome from a forest: it ends in a forest, with
a result or with an error, and no recursion is cut off. A copy walks a set of
folders that no copy is put into; a cascade deletes a folder after it has
deleted everything in it.
-/
namespace Voleeo.Storage
open Fallible (Outcome)

variable {env : Env} {w w' : World} {ws id : String} {f : ApiFolder} {r : HttpRequest}

/-- A forest in which new ids are new. -/
structure Inv (env : Env) (w : World) : Prop where
  forest : Forest w
  fresh : Fresh env w

/-- Only time has passed. -/
structure SameFiles (w w' : World) : Prop where
  folders : w'.folders = w.folders
  requests : w'.requests = w.requests
  tick : w.tick ≤ w'.tick

theorem SameFiles.refl (w : World) : SameFiles w w := ⟨rfl, rfl, Nat.le_refl _⟩

theorem SameFiles.trans {w'' : World} (h : SameFiles w w') (h' : SameFiles w' w'') :
    SameFiles w w'' :=
  ⟨h'.folders.trans h.folders, h'.requests.trans h.requests, Nat.le_trans h.tick h'.tick⟩

theorem parentOf_of_folders (h : w'.folders = w.folders) (ws : String) :
    w'.parentOf ws = w.parentOf ws := by
  funext id
  rw [World.parentOf, World.parentOf, h]

theorem SameFiles.parentOf (h : SameFiles w w') (ws : String) : w'.parentOf ws = w.parentOf ws :=
  parentOf_of_folders h.folders ws

theorem SameFiles.forest (h : SameFiles w w') (hforest : Forest w) : Forest w' := by
  refine ⟨fun f hf => ?_, fun r hr => ?_⟩
  · rw [h.parentOf]
    exact hforest.folders f (h.folders ▸ hf)
  · rw [h.parentOf]
    exact hforest.requests r (h.requests ▸ hr)

theorem SameFiles.inv (h : SameFiles w w') (hinv : Inv env w) : Inv env w' :=
  ⟨h.forest hinv.forest, fun t ht f hf => hinv.fresh t (Nat.le_trans h.tick ht) f (h.folders ▸ hf)⟩

/-- An operation that only reads fails with the files as they are. -/
def ReadFails (w : World) (e : Failure) (w' : World) : Prop := e ≠ .outOfFuel ∧ SameFiles w w'

/-- An operation fails in a forest. -/
def Fails (env : Env) (e : Failure) (w : World) : Prop := e ≠ .outOfFuel ∧ Inv env w

theorem ReadFails.fails {e : Failure} (h : ReadFails w e w') (hinv : Inv env w) : Fails env e w' :=
  ⟨h.1, h.2.inv hinv⟩

/-! ## Reading -/

/-- The operation reads: it ends with the files as they are. -/
def Reads {α : Type} (x : Store α) (w : World) (Q : α → Prop) : Prop :=
  Outcome x w (fun a w' => SameFiles w w' ∧ Q a) (ReadFails w)

namespace Reads

variable {α β : Type} {x : Store α} {g : α → Store β} {Q : α → Prop} {R : β → Prop}

theorem pure {a : α} (h : Q a) : Reads (Pure.pure a) w Q := ⟨.refl w, h⟩

theorem throw (e : VoleeoError) : Reads (Storage.throw e : Store α) w Q := ⟨nofun, .refl w⟩

theorem mono {Q' : α → Prop} (hx : Reads x w Q) (h : ∀ a, Q a → Q' a) : Reads x w Q' :=
  Outcome.mono hx (fun a _ ⟨hsame, hQ⟩ => ⟨hsame, h a hQ⟩) fun _ _ he => he

theorem bind (hx : Reads x w Q) (hg : ∀ a w', SameFiles w w' → Q a → Reads (g a) w' R) :
    Reads (x >>= g) w R := by
  refine Outcome.bind hx fun a w' ⟨hsame, hQ⟩ => Outcome.mono (hg a w' hsame hQ) ?_ ?_
  · exact fun b w'' ⟨hsame', hR⟩ => ⟨hsame.trans hsame', hR⟩
  · exact fun e w'' h => ⟨h.1, hsame.trans h.2⟩

theorem ask (answer : ℕ → α) : Reads (Storage.ask answer) w fun a => a = answer w.tick :=
  ⟨⟨rfl, rfl, Nat.le_succ _⟩, rfl⟩

theorem lift (x : Except VoleeoError α) : Reads (Storage.lift x) w fun a => x = .ok a := by
  cases x with
  | ok a => exact .pure rfl
  | error e => exact .throw e

theorem fileSystem : Reads (Storage.fileSystem env) w fun _ => True := by
  refine .bind (.ask env.fault) fun message w' _ _ => ?_
  split
  · exact .throw _
  · exact .pure trivial

/-- What comes before in an operation that goes on to change files. -/
theorem andThen {P : β → World → Prop} (hinv : Inv env w) (hx : Reads x w Q)
    (hg : ∀ a w', SameFiles w w' → Q a → Outcome (g a) w' P (Fails env)) :
    Outcome (x >>= g) w P (Fails env) := by
  refine Outcome.bind (Outcome.mono hx (fun _ _ h => h) fun _ _ h => h.fails hinv) ?_
  rintro a w' ⟨hsame, hQ⟩
  exact hg a w' hsame hQ

end Reads

theorem get_reads : Reads Fallible.get w fun w' => w' = w := ⟨.refl w, rfl⟩

theorem workspaceDir_reads : Reads (workspaceDir env ws) w fun _ => True :=
  .bind (.lift _) fun _ _ _ _ => .fileSystem

theorem listFolders_reads : Reads (listFolders env ws) w fun folders =>
    ∀ f, f ∈ folders ↔ f ∈ w.folders.toList ∧ f.workspaceId = ws := by
  refine .bind workspaceDir_reads fun _ w₁ h₁ _ => .bind .fileSystem fun _ w₂ h₂ _ => ?_
  refine .bind get_reads fun _ w₃ h₃ heq => .bind (.ask _) fun entries w₄ h₄ hentries => ?_
  subst heq hentries
  refine .pure fun f => ?_
  rw [mem_sortBy, (env.readDir_perm _ _).mem_iff, List.mem_filter, h₂.folders, h₁.folders,
    decide_eq_true_eq]

theorem listRequests_reads : Reads (listRequests env ws) w fun requests =>
    ∀ r, r ∈ requests ↔ r ∈ w.requests.toList ∧ r.workspaceId = ws := by
  refine .bind workspaceDir_reads fun _ w₁ h₁ _ => .bind .fileSystem fun _ w₂ h₂ _ => ?_
  refine .bind get_reads fun _ w₃ h₃ heq => .bind (.ask _) fun entries w₄ h₄ hentries => ?_
  subst heq hentries
  refine .pure fun r => ?_
  rw [mem_sortBy, (env.readDir_perm _ _).mem_iff, List.mem_filter, h₂.requests, h₁.requests,
    decide_eq_true_eq]

theorem getFolder_reads : Reads (getFolder env ws id) w fun f =>
    f ∈ w.folders.toList ∧ f.workspaceId = ws ∧ f.id = id := by
  refine .bind (.lift _) fun _ w₁ h₁ _ => .bind (.lift _) fun _ w₂ h₂ _ => ?_
  refine .bind get_reads fun _ w₃ h₃ heq => ?_
  subst heq
  split
  · exact .throw _
  · rename_i folder hfind
    refine .bind .fileSystem fun _ w₄ h₄ _ => .pure ?_
    rw [h₂.folders, h₁.folders, Records.find?_eq_some_iff] at hfind
    exact ⟨hfind.1, congrArg Prod.fst hfind.2, congrArg Prod.snd hfind.2⟩

theorem getRequest_reads : Reads (getRequest env ws id) w fun r =>
    r ∈ w.requests.toList ∧ r.workspaceId = ws ∧ r.id = id := by
  refine .bind (.lift _) fun _ w₁ h₁ _ => .bind (.lift _) fun _ w₂ h₂ _ => ?_
  refine .bind get_reads fun _ w₃ h₃ heq => ?_
  subst heq
  split
  · exact .throw _
  · rename_i req hfind
    refine .bind .fileSystem fun _ w₄ h₄ _ => ?_
    split
    · exact .throw _
    · rw [h₂.requests, h₁.requests, Records.find?_eq_some_iff] at hfind
      exact .pure ⟨hfind.1, congrArg Prod.fst hfind.2, congrArg Prod.snd hfind.2⟩

theorem orderAfter_reads {parentId : Option String} {after : ℚ} :
    Reads (orderAfter env ws parentId after) w fun _ => True :=
  .bind listRequests_reads fun _ _ _ _ => .bind listFolders_reads fun _ _ _ _ => .pure trivial

/-! ## Checking a parent -/

/-- The chain of the place ends at the root, and does not pass through what is moved. -/
def GoodPlace (w : World) (ws : String) (moving place : Option String) : Prop :=
  Rooted (w.parentOf ws) place ∧ ∀ k, moving = some k → Avoids (w.parentOf ws) k place

theorem GoodPlace.of_same {moving place : Option String} (h : SameFiles w w')
    (hgood : GoodPlace w' ws moving place) : GoodPlace w ws moving place := by
  rwa [GoodPlace, h.parentOf] at hgood

/-- The walk visits ever higher folders, so no folder stops it twice, and the fuel lasts. -/
theorem walkParents_reads {moving : Option String} (hforest : Forest w) {fuel : ℕ}
    {seen : List String} {place : Option String}
    (hfuel : (place = none ∨ 0 < fuel) ∧ ∀ d, Depth (w.parentOf ws) place d → d ≤ fuel)
    (hseen : ∀ x ∈ seen, ∃ n, Depth (w.parentOf ws) (some x) n ∧
      ∀ d, Depth (w.parentOf ws) place d → d < n) :
    Reads (walkParents env ws moving fuel seen place) w fun _ => GoodPlace w ws moving place := by
  induction fuel generalizing w seen place with
  | zero =>
    obtain rfl : place = none := hfuel.1.resolve_right (Nat.lt_irrefl 0)
    exact .pure ⟨.root, fun _ _ => .root⟩
  | succ fuel ih =>
    cases place with
    | none => exact .pure ⟨.root, fun _ _ => .root⟩
    | some id =>
      rw [walkParents]
      split_ifs with hmoving hmem
      · exact .throw _
      · obtain ⟨n, hn, hlt⟩ := hseen id hmem
        exact absurd (hlt n hn) (Nat.lt_irrefl n)
      refine .bind (.lift _) fun _ w₁ h₁ _ => .bind get_reads fun _ w₂ h₂ heq => ?_
      subst heq
      split
      · exact .throw _
      rename_i folder hfind
      rw [h₁.folders, Records.find?_eq_some_iff] at hfind
      obtain ⟨hfolder, hkey⟩ := hfind
      obtain rfl : folder.workspaceId = ws := congrArg Prod.fst hkey
      obtain rfl : folder.id = id := congrArg Prod.snd hkey
      have hparent := parentOf_of_mem hfolder
      refine .bind .fileSystem fun _ w₃ h₃ _ => ?_
      have hsame := (h₁.trans h₂).trans h₃
      have hlink : ∀ d, Depth (w.parentOf folder.workspaceId) folder.folderId d →
          Depth (w.parentOf folder.workspaceId) (some folder.id) (d + 1) :=
        fun d hd => .link hparent hd
      obtain ⟨m, hm⟩ := (hforest.rooted_parent hfolder).exists_depth
      refine (ih (hsame.forest hforest) ?_ ?_).mono fun _ hgood => ?_
      · rw [hsame.parentOf]
        refine ⟨?_, fun d hd => Nat.le_of_succ_le_succ (hfuel.2 _ (hlink d hd))⟩
        have hle := hfuel.2 _ (hlink m hm)
        cases hplace : folder.folderId with
        | none => exact .inl rfl
        | some next =>
          rw [hplace] at hm
          cases hm with
          | link => exact .inr (by omega)
      · rw [hsame.parentOf]
        intro x hx
        rcases List.mem_cons.mp hx with rfl | hx
        · refine ⟨m + 1, hlink m hm, fun d hd => ?_⟩
          rw [hd.unique hm]
          exact Nat.lt_succ_self m
        · obtain ⟨n, hn, hlt⟩ := hseen x hx
          exact ⟨n, hn, fun d hd => Nat.lt_of_succ_lt (hlt _ (hlink d hd))⟩
      · obtain ⟨hrooted, havoids⟩ := hgood.of_same hsame
        refine ⟨.link hparent hrooted, fun k hk => ?_⟩
        have hne : folder.id ≠ k := fun heq => hmoving (by rw [hk, heq])
        exact .link (by rwa [Function.update_of_ne hne]) (havoids k hk)

theorem checkParent_reads {moving place : Option String} (hforest : Forest w) :
    Reads (checkParent env ws place moving) w fun _ => GoodPlace w ws moving place := by
  refine .bind (.lift _) fun _ w₁ h₁ _ => .bind get_reads fun _ w₂ h₂ heq => ?_
  subst heq
  have hsame := h₁.trans h₂
  refine (walkParents_reads (hsame.forest hforest) ⟨.inr (Nat.succ_pos _), fun d hd => ?_⟩
    (by simp)).mono fun _ hgood => hgood.of_same hsame
  rw [hsame.parentOf] at hd
  rw [h₁.folders]
  exact Nat.le_succ_of_le (depth_le_length hd)


/-! ## Writing -/

/-- An id that no folder has, and that is not drawn again. -/
structure IsNew (env : Env) (id : String) (w : World) : Prop where
  unused : ∀ f ∈ w.folders.toList, f.id ≠ id
  drawn : ∀ t, w.tick ≤ t → id ≠ env.newId t

theorem IsNew.of_same (h : IsNew env id w) (hsame : SameFiles w w') : IsNew env id w' :=
  ⟨fun f hf => h.unused f (hsame.folders ▸ hf), fun t ht => h.drawn t (Nat.le_trans hsame.tick ht)⟩

theorem newId_outcome (hinv : Inv env w) : Outcome (ask env.newId) w
    (fun id w' => SameFiles w w' ∧ IsNew env id w') (Fails env) := by
  refine ⟨⟨rfl, rfl, Nat.le_succ _⟩, fun f hf => hinv.fresh w.tick (Nat.le_refl _) f hf, ?_⟩
  intro t (ht : w.tick + 1 ≤ t) heq
  rw [← env.newId_injective heq] at ht
  exact Nat.not_succ_le_self _ ht

theorem writeFolder_outcome (hinv : Inv env w)
    (hparent : Avoids (w.parentOf f.workspaceId) f.id f.folderId)
    (hid : ∀ t, w.tick ≤ t → f.id ≠ env.newId t) : Outcome (writeFolder env f) w
      (fun _ w' => Inv env w' ∧ w'.folders = w.folders.put f) (Fails env) := by
  refine Reads.andThen hinv .fileSystem fun _ w₁ h₁ _ => .modify ⟨⟨?_, ?_⟩, ?_⟩
  · exact (h₁.forest hinv.forest).putFolder (by rwa [h₁.parentOf])
  · intro t ht g hg
    have ht' := Nat.le_trans h₁.tick ht
    obtain rfl | ⟨hmem, -⟩ := Records.mem_put.mp hg
    · exact hid t ht'
    · exact hinv.fresh t ht' g (h₁.folders ▸ hmem)
  · rw [← h₁.folders]

theorem writeRequest_outcome (hinv : Inv env w)
    (hparent : Rooted (w.parentOf r.workspaceId) r.folderId) : Outcome (writeRequest env r) w
      (fun _ w' => Inv env w' ∧ w'.folders = w.folders) (Fails env) := by
  refine Reads.andThen hinv .fileSystem fun _ w₁ h₁ _ => .modify ⟨⟨?_, ?_⟩, h₁.folders⟩
  · exact (h₁.forest hinv.forest).putRequest (by rwa [h₁.parentOf])
  · exact (h₁.inv hinv).fresh

/-- The folders are those before and one more, under an id of its own. -/
structure Added (w : World) (f : ApiFolder) (w' : World) : Prop where
  mem_iff : ∀ g, g ∈ w'.folders.toList ↔ g = f ∨ g ∈ w.folders.toList
  unused : ∀ g ∈ w.folders.toList, g.id ≠ f.id

/-- The end of every operation that writes a new folder. -/
theorem addFolder_outcome {x y : Except VoleeoError Unit} (hinv : Inv env w)
    (hnew : IsNew env f.id w) (hparent : Rooted (w.parentOf f.workspaceId) f.folderId) :
    Outcome (do lift x; lift y; writeFolder env f; return f) w
      (fun g w' => g = f ∧ Inv env w' ∧ Added w f w') (Fails env) := by
  refine Reads.andThen hinv (.lift x) fun _ w₁ h₁ _ => ?_
  refine Reads.andThen (h₁.inv hinv) (.lift y) fun _ w₂ h₂ _ => ?_
  have hsame := h₁.trans h₂
  have hnew' := hnew.of_same hsame
  have hunknown : w.parentOf f.workspaceId f.id = none := by
    by_contra hne
    obtain ⟨place, hplace⟩ := Option.ne_none_iff_exists'.mp hne
    obtain ⟨g, hg, -, hid, -⟩ := parentOf_eq_some_iff.mp hplace
    exact hnew.unused g hg hid
  refine .bind (writeFolder_outcome (hsame.inv hinv) ?_ hnew'.drawn) ?_
  · rw [hsame.parentOf]
    exact hparent.avoids_unknown hunknown
  · rintro _ w₃ ⟨hinv₃, hfolders⟩
    refine .pure ⟨rfl, hinv₃, fun g => ?_, hnew.unused⟩
    rw [hfolders, Records.mem_put, hsame.folders]
    have hkey : g ∈ w.folders.toList → folderKey g ≠ folderKey f := fun hg heq =>
      hnew.unused g hg (congrArg Prod.snd heq)
    exact or_congr_right (and_iff_left_of_imp hkey)

theorem addRequest_outcome {x y : Except VoleeoError Unit} (hinv : Inv env w)
    (hparent : Rooted (w.parentOf r.workspaceId) r.folderId) :
    Outcome (do lift x; lift y; writeRequest env r; return r) w
      (fun _ w' => Inv env w' ∧ w'.folders = w.folders) (Fails env) := by
  refine Reads.andThen hinv (.lift x) fun _ w₁ h₁ _ => ?_
  refine Reads.andThen (h₁.inv hinv) (.lift y) fun _ w₂ h₂ _ => ?_
  have hsame := h₁.trans h₂
  refine .bind (writeRequest_outcome (hsame.inv hinv) (by rwa [hsame.parentOf])) ?_
  rintro _ w₃ ⟨hinv₃, hfolders⟩
  exact .pure ⟨hinv₃, hfolders.trans hsame.folders⟩

/-! ## Creating and moving -/

theorem createFolder_outcome {folderId : Option String} {name : String} (hinv : Inv env w) :
    Outcome (createFolder env ws folderId name) w (fun _ w' => Inv env w') (Fails env) := by
  refine Reads.andThen hinv (checkParent_reads hinv.forest) fun _ w₁ h₁ hgood => ?_
  refine Reads.andThen (h₁.inv hinv) workspaceDir_reads fun _ w₂ h₂ _ => ?_
  have h₁₂ := h₁.trans h₂
  refine .bind (newId_outcome (h₁₂.inv hinv)) fun id w₃ ⟨h₃, hnew⟩ => ?_
  have h₁₃ := h₁₂.trans h₃
  refine Reads.andThen (h₁₃.inv hinv) (.ask env.now) fun now w₄ h₄ _ => ?_
  have h₁₄ := h₁₃.trans h₄
  refine Reads.andThen (h₁₄.inv hinv) (.ask env.timestampMillis) fun order w₅ h₅ _ => ?_
  have h₁₅ := h₁₄.trans h₅
  refine (addFolder_outcome (h₁₅.inv hinv) (hnew.of_same (h₄.trans h₅)) ?_).mono
    (fun _ _ h => h.2.1) fun _ _ h => h
  rw [h₁₅.parentOf]
  exact hgood.1

theorem createRequest_outcome {folderId : Option String} {name method url : String}
    (hinv : Inv env w) : Outcome (createRequest env ws folderId name method url) w
      (fun _ w' => Inv env w') (Fails env) := by
  refine Reads.andThen hinv (checkParent_reads hinv.forest) fun _ w₁ h₁ hgood => ?_
  refine Reads.andThen (h₁.inv hinv) workspaceDir_reads fun _ w₂ h₂ _ => ?_
  have h₁₂ := h₁.trans h₂
  refine Reads.andThen (h₁₂.inv hinv) (.ask env.newId) fun id w₃ h₃ _ => ?_
  have h₁₃ := h₁₂.trans h₃
  refine Reads.andThen (h₁₃.inv hinv) (.ask env.now) fun now w₄ h₄ _ => ?_
  have h₁₄ := h₁₃.trans h₄
  refine Reads.andThen (h₁₄.inv hinv) (.ask env.timestampMillis) fun order w₅ h₅ _ => ?_
  have h₁₅ := h₁₄.trans h₅
  refine (addRequest_outcome (h₁₅.inv hinv) ?_).mono (fun _ _ h => h.1) fun _ _ h => h
  rw [h₁₅.parentOf]
  exact hgood.1

theorem updateFolderPosition_outcome {folderId : Option String} {order : ℚ}
    (hinv : Inv env w) : Outcome (updateFolderPosition env ws id folderId order) w
      (fun _ w' => Inv env w') (Fails env) := by
  refine Reads.andThen hinv (checkParent_reads hinv.forest) fun _ w₁ h₁ hgood => ?_
  refine Reads.andThen (h₁.inv hinv) getFolder_reads fun f w₂ h₂ hf => ?_
  obtain ⟨hmem, rfl, rfl⟩ := hf
  have h₁₂ := h₁.trans h₂
  simp only [saveFolderIfChanged]
  split
  · exact .pure (h₁₂.inv hinv)
  · refine Reads.andThen (h₁₂.inv hinv) (.ask env.now) fun now w₃ h₃ _ => ?_
    have h₁₃ := h₁₂.trans h₃
    have hinv₃ := h₁₃.inv hinv
    refine (writeFolder_outcome hinv₃ ?_ fun t ht => ?_).mono (fun _ _ h => h.1) fun _ _ h => h
    · rw [h₁₃.parentOf]
      exact hgood.2 f.id rfl
    · exact hinv₃.fresh t ht f (by rwa [(h₂.trans h₃).folders])

theorem updateRequestPosition_outcome {folderId : Option String} {order : ℚ}
    (hinv : Inv env w) : Outcome (updateRequestPosition env ws id folderId order) w
      (fun _ w' => Inv env w') (Fails env) := by
  refine Reads.andThen hinv (checkParent_reads hinv.forest) fun _ w₁ h₁ hgood => ?_
  refine Reads.andThen (h₁.inv hinv) getRequest_reads fun r w₂ h₂ hr => ?_
  obtain ⟨hmem, rfl, rfl⟩ := hr
  have h₁₂ := h₁.trans h₂
  simp only [saveRequestIfChanged]
  split
  · exact .pure (h₁₂.inv hinv)
  · refine Reads.andThen (h₁₂.inv hinv) (.ask env.now) fun now w₃ h₃ _ => ?_
    have h₁₃ := h₁₂.trans h₃
    refine (writeRequest_outcome (h₁₃.inv hinv) ?_).mono (fun _ _ h => h.1) fun _ _ h => h
    rw [h₁₃.parentOf]
    exact hgood.1

/-! ## Copying -/

/-- Folders that are walked while copies are made: no copy is put into one of them. -/
structure Walked (env : Env) (ws : String) (T : String → Prop) (N : ℕ) (w : World) : Prop where
  inv : Inv env w
  exist : ∀ x, T x → ∃ f ∈ w.folders.toList, f.workspaceId = ws ∧ f.id = x
  closed : ∀ f ∈ w.folders.toList, f.workspaceId = ws → ∀ x, f.folderId = some x → T x → T f.id
  depth : ∀ x, T x → ∀ d, Depth (w.parentOf ws) (some x) d → d ≤ N

def Grows (w w' : World) : Prop := ∀ f ∈ w.folders.toList, f ∈ w'.folders.toList

theorem Grows.depth (h : Grows w w') {place : Option String} {n : ℕ}
    (hn : Depth (w.parentOf ws) place n) : Depth (w'.parentOf ws) place n := by
  refine hn.mono fun k place hk => ?_
  obtain ⟨f, hf, hws, hid, hplace⟩ := parentOf_eq_some_iff.mp hk
  exact parentOf_eq_some_iff.mpr ⟨f, h f hf, hws, hid, hplace⟩

theorem Grows.of_folders (h : w'.folders = w.folders) : Grows w w' := fun f hf => by rwa [h]

theorem Grows.trans {w'' : World} (h : Grows w w') (h' : Grows w' w'') : Grows w w'' :=
  fun f hf => h' f (h f hf)

theorem Walked.of_folders {T : String → Prop} {N : ℕ} (h : Walked env ws T N w)
    (hinv : Inv env w') (hfolders : w'.folders = w.folders) : Walked env ws T N w' := by
  refine ⟨hinv, fun x hx => ?_, fun f hf => ?_, fun x hx d hd => ?_⟩
  · rw [hfolders]
    exact h.exist x hx
  · exact h.closed f (hfolders ▸ hf)
  · rw [parentOf_of_folders hfolders] at hd
    exact h.depth x hx d hd

theorem copyFolder_outcome {folderId : Option String} {name : String} {order : ℚ}
    (hinv : Inv env w) (hparent : Rooted (w.parentOf f.workspaceId) folderId) :
    Outcome (copyFolder env f folderId name order) w
      (fun c w' => c.workspaceId = f.workspaceId ∧ c.folderId = folderId ∧ Inv env w' ∧
        Added w c w') (Fails env) := by
  refine .bind (newId_outcome hinv) fun id w₁ ⟨h₁, hnew⟩ => ?_
  refine Reads.andThen (h₁.inv hinv) (.ask env.now) fun now w₂ h₂ _ => ?_
  have h₁₂ := h₁.trans h₂
  refine (addFolder_outcome (h₁₂.inv hinv) (hnew.of_same h₂) ?_).mono ?_ fun _ _ h => h
  · rw [h₁₂.parentOf]
    exact hparent
  · rintro _ w₃ ⟨rfl, hinv₃, hadded⟩
    refine ⟨rfl, rfl, hinv₃, fun g => ?_, fun g hg => hadded.unused g (by rwa [h₁₂.folders])⟩
    rw [hadded.mem_iff, h₁₂.folders]

theorem copyRequest_outcome {folderId : Option String} {name : String} {order : ℚ}
    (hinv : Inv env w) (hparent : Rooted (w.parentOf r.workspaceId) folderId) :
    Outcome (copyRequest env r folderId name order) w
      (fun _ w' => Inv env w' ∧ w'.folders = w.folders) (Fails env) := by
  refine Reads.andThen hinv (.ask env.newId) fun id w₁ h₁ _ => ?_
  refine Reads.andThen (h₁.inv hinv) (.ask env.now) fun now w₂ h₂ _ => ?_
  have h₁₂ := h₁.trans h₂
  refine (addRequest_outcome (h₁₂.inv hinv) ?_).mono ?_ fun _ _ h => h
  · rw [h₁₂.parentOf]
    exact hparent
  · rintro _ w₃ ⟨hinv₃, hfolders⟩
    exact ⟨hinv₃, hfolders.trans h₁₂.folders⟩

/-- A copy into another folder leaves the walked folders as they are. -/
theorem Walked.added {T : String → Prop} {N : ℕ} {c : ApiFolder} (h : Walked env ws T N w)
    (hinv : Inv env w') (hadded : Added w c w')
    (hparent : ∀ x, c.folderId = some x → ¬ T x) : Walked env ws T N w' := by
  have hgrows : Grows w w' := fun f hf => (hadded.mem_iff f).mpr (.inr hf)
  refine ⟨hinv, fun x hx => ?_, fun f hf hws x hfolder hx => ?_, fun x hx d hd => ?_⟩
  · obtain ⟨f, hf, hfacts⟩ := h.exist x hx
    exact ⟨f, hgrows f hf, hfacts⟩
  · obtain rfl | hf := (hadded.mem_iff f).mp hf
    · exact absurd hx (hparent x hfolder)
    · exact h.closed f hf hws x hfolder hx
  · obtain ⟨f, hf, rfl, rfl⟩ := h.exist x hx
    obtain ⟨n, hn⟩ := (h.inv.forest.folders f hf).exists_depth
    rw [hd.unique (hgrows.depth hn)]
    exact h.depth f.id hx n hn

theorem copyFolderChildren_outcome {T : String → Prop} {N fuel : ℕ} {src dst : String}
    (h : Walked env ws T N w) (hsrc : T src) (hdst : ¬ T dst)
    (hexists : ∃ f ∈ w.folders.toList, f.workspaceId = ws ∧ f.id = dst)
    (hfuel : ∀ d, Depth (w.parentOf ws) (some src) d → N < d + fuel) :
    Outcome (copyFolderChildren env ws fuel src dst) w
      (fun _ w' => Walked env ws T N w' ∧ Grows w w') (Fails env) := by
  induction fuel generalizing w src dst with
  | zero =>
    obtain ⟨f, hf, rfl, rfl⟩ := h.exist src hsrc
    obtain ⟨n, hn⟩ := (h.inv.forest.folders f hf).exists_depth
    have hle := h.depth f.id hsrc n hn
    have hlt := hfuel n hn
    omega
  | succ fuel ih =>
    have hrooted : ∀ w', Walked env ws T N w' → Grows w w' →
        Rooted (w'.parentOf ws) (some dst) := by
      intro w' hwalked hgrows
      obtain ⟨f, hf, rfl, rfl⟩ := hexists
      exact hwalked.inv.forest.folders f (hgrows f hf)
    rw [copyFolderChildren]
    refine Reads.andThen h.inv listRequests_reads fun requests w₁ h₁ hrequests => ?_
    refine .bind (.forM (I := fun w' => Walked env ws T N w' ∧ Grows w w')
      ⟨h.of_folders (h₁.inv h.inv) h₁.folders, .of_folders h₁.folders⟩ ?_) ?_
    · rintro r hr w' ⟨hwalked, hgrows⟩
      obtain ⟨-, rfl⟩ := (hrequests r).mp (List.mem_of_mem_filter hr)
      refine .bind (copyRequest_outcome hwalked.inv (hrooted w' hwalked hgrows)) ?_
      rintro _ w'' ⟨hinv, hfolders⟩
      exact .pure ⟨hwalked.of_folders hinv hfolders, hgrows.trans (.of_folders hfolders)⟩
    · rintro _ w₂ ⟨hwalked₂, hgrows₂⟩
      refine Reads.andThen hwalked₂.inv listFolders_reads fun folders w₃ h₃ hfolders => ?_
      refine (Outcome.forM (I := fun w' => Walked env ws T N w' ∧ Grows w₂ w')
        ⟨hwalked₂.of_folders (h₃.inv hwalked₂.inv) h₃.folders, .of_folders h₃.folders⟩ ?_).mono
        (fun _ _ hI => ⟨hI.1, hgrows₂.trans hI.2⟩) fun _ _ he => he
      rintro f hf w' ⟨hwalked, hgrows⟩
      rw [List.mem_filter, decide_eq_true_eq, hfolders] at hf
      obtain ⟨⟨hmem, rfl⟩, hparent⟩ := hf
      refine .bind (copyFolder_outcome hwalked.inv
        (hrooted w' hwalked (hgrows₂.trans hgrows))) fun c w'' hcopy => ?_
      obtain ⟨hws, hfolderId, hinv, hadded⟩ := hcopy
      have hgrows' : Grows w' w'' := fun g hg => (hadded.mem_iff g).mpr (.inr hg)
      have hwalked' := hwalked.added hinv hadded fun x hx => by
        rw [hfolderId] at hx
        cases hx
        exact hdst
      refine (ih hwalked' (hwalked.closed f (hgrows f hmem) rfl src hparent hsrc) ?_
        ⟨c, (hadded.mem_iff c).mpr (.inl rfl), hws, rfl⟩ ?_).mono
        (fun _ _ hI => ⟨hI.1, (hgrows.trans hgrows').trans hI.2⟩) fun _ _ he => he
      · intro hc
        obtain ⟨g, hg, -, hid⟩ := hwalked.exist c.id hc
        exact hadded.unused g hg hid
      · -- The folder is one link below the one it is in, and that has not moved.
        intro d hd
        obtain ⟨g, hg, hgws, rfl⟩ := h.exist src hsrc
        obtain ⟨n, hn⟩ := (h.inv.forest.folders g hg).exists_depth
        rw [hgws] at hn
        have hlink := parentOf_of_mem (hgrows' f (hgrows f hmem))
        rw [hparent] at hlink
        rw [hd.unique (.link hlink (((hgrows₂.trans hgrows).trans hgrows').depth hn))]
        have hlt := hfuel n hn
        omega

/-- The folder and what is below it. -/
def Below (w : World) (ws id x : String) : Prop :=
  (∃ f ∈ w.folders.toList, f.workspaceId = ws ∧ f.id = x) ∧ ¬ Avoids (w.parentOf ws) id (some x)

theorem duplicateFolder_outcome (hinv : Inv env w) :
    Outcome (duplicateFolder env ws id) w (fun _ w' => Inv env w') (Fails env) := by
  refine Reads.andThen hinv get_reads fun _ w₁ h₁ heq => ?_
  subst heq
  refine Reads.andThen (h₁.inv hinv) getFolder_reads fun src w₂ h₂ hsrc => ?_
  obtain ⟨hmem, rfl, rfl⟩ := hsrc
  have hinv₁ := h₁.inv hinv
  refine Reads.andThen (h₂.inv hinv₁) orderAfter_reads fun order w₃ h₃ _ => ?_
  have h₁₃ := h₂.trans h₃
  have hparent := hinv₁.forest.rooted_parent hmem
  refine .bind (copyFolder_outcome (h₁₃.inv hinv₁) ?_) fun copy w₄ hcopy => ?_
  · rwa [h₁₃.parentOf]
  obtain ⟨hws, hfolderId, hinv₄, hadded⟩ := hcopy
  have hadded' : Added w₁ copy w₄ := ⟨fun g => by rw [hadded.mem_iff, h₁₃.folders],
    fun g hg => hadded.unused g (by rwa [h₁₃.folders])⟩
  -- No folder below the source is the parent of the copy.
  have hwalked : Walked env src.workspaceId (Below w₁ src.workspaceId src.id)
      w₁.folders.toList.length w₁ := by
    refine ⟨hinv₁, fun x hx => hx.1, fun f hf hws x hx hbelow => ⟨⟨f, hf, hws, rfl⟩, ?_⟩,
      fun x hx d hd => depth_le_length hd⟩
    intro havoids
    refine hbelow.2 (havoids.parent ?_)
    rw [← hws, parentOf_of_mem hf, hx]
  have hsrc : Below w₁ src.workspaceId src.id src.id :=
    ⟨⟨src, hmem, rfl, rfl⟩, not_avoids_self⟩
  have hgrows : Grows w₁ w₄ := fun f hf => (hadded'.mem_iff f).mpr (.inr hf)
  refine .bind (copyFolderChildren_outcome (hwalked.added hinv₄ hadded' fun x hx hbelow => ?_) hsrc
    ?_ ⟨copy, (hadded'.mem_iff copy).mpr (.inl rfl), hws, rfl⟩ fun d hd => ?_) ?_
  · rw [hfolderId] at hx
    have havoids := (hinv₁.forest.folders src hmem).avoids_parent (parentOf_of_mem hmem)
    rw [hx] at havoids
    exact hbelow.2 havoids
  · rintro ⟨⟨g, hg, -, hid⟩, -⟩
    exact hadded'.unused g hg hid
  · rw [h₁.folders]
    omega
  · exact fun _ w₅ hI => .pure hI.1.inv

theorem duplicateRequest_outcome (hinv : Inv env w) :
    Outcome (duplicateRequest env ws id) w (fun _ w' => Inv env w') (Fails env) := by
  refine Reads.andThen hinv getRequest_reads fun src w₁ h₁ hsrc => ?_
  obtain ⟨hmem, rfl, rfl⟩ := hsrc
  refine Reads.andThen (h₁.inv hinv) orderAfter_reads fun order w₂ h₂ _ => ?_
  have h₁₂ := h₁.trans h₂
  refine (copyRequest_outcome (h₁₂.inv hinv) ?_).mono (fun _ _ h => h.1) fun _ _ h => h
  rw [h₁₂.parentOf]
  exact hinv.forest.requests src hmem

/-! ## Deleting -/

structure Shrinks (w w' : World) : Prop where
  folders : ∀ f ∈ w'.folders.toList, f ∈ w.folders.toList
  requests : ∀ r ∈ w'.requests.toList, r ∈ w.requests.toList

theorem Shrinks.of_same (h : SameFiles w w') : Shrinks w w' :=
  ⟨fun _ hf => h.folders ▸ hf, fun _ hr => h.requests ▸ hr⟩

theorem Shrinks.trans {w'' : World} (h : Shrinks w w') (h' : Shrinks w' w'') : Shrinks w w'' :=
  ⟨fun f hf => h.folders f (h'.folders f hf), fun r hr => h.requests r (h'.requests r hr)⟩

theorem Shrinks.depth (h : Shrinks w w') {place : Option String} {n : ℕ}
    (hn : Depth (w'.parentOf ws) place n) : Depth (w.parentOf ws) place n := by
  refine hn.mono fun k place hk => ?_
  obtain ⟨f, hf, hws, hid, hplace⟩ := parentOf_eq_some_iff.mp hk
  exact parentOf_eq_some_iff.mpr ⟨f, h.folders f hf, hws, hid, hplace⟩

theorem deleteRequest_outcome (hinv : Inv env w) : Outcome (deleteRequest env ws id) w
    (fun _ w' => Inv env w' ∧ Shrinks w w' ∧ ∀ r ∈ w'.requests.toList, requestKey r ≠ (ws, id))
    (Fails env) := by
  refine Reads.andThen hinv (.lift _) fun _ w₁ h₁ _ => ?_
  refine Reads.andThen (h₁.inv hinv) (.lift _) fun _ w₂ h₂ _ => ?_
  have h₁₂ := h₁.trans h₂
  have hinv₂ := h₁₂.inv hinv
  refine .bind (.get (Q := fun a w' => a = w₂ ∧ w' = w₂) ⟨rfl, rfl⟩) ?_
  rintro _ _ ⟨rfl, rfl⟩
  split_ifs with hfind
  · refine Reads.andThen hinv₂ .fileSystem fun _ w₃ h₃ _ => .modify ⟨⟨?_, ?_⟩, ?_, ?_⟩
    · exact (h₃.forest hinv₂.forest).removeRequest _
    · exact (h₃.inv hinv₂).fresh
    · exact (Shrinks.of_same (h₁₂.trans h₃)).trans
        ⟨fun f hf => hf, fun r hr => (Records.mem_remove.mp hr).1⟩
    · exact fun r hr => (Records.mem_remove.mp hr).2
  · refine .pure ⟨hinv₂, .of_same h₁₂, ?_⟩
    rw [Option.not_isSome_iff_eq_none, Records.find?_eq_none_iff] at hfind
    exact hfind

/-- A folder with nothing in it can be deleted. -/
theorem deleteFolder_outcome (hinv : Inv env w)
    (hfolders : ∀ f ∈ w.folders.toList, f.workspaceId = ws → f.folderId ≠ some id)
    (hrequests : ∀ r ∈ w.requests.toList, r.workspaceId = ws → r.folderId ≠ some id) :
    Outcome (deleteFolder env ws id) w
      (fun _ w' => Inv env w' ∧ Shrinks w w' ∧ ∀ f ∈ w'.folders.toList, folderKey f ≠ (ws, id))
      (Fails env) := by
  refine Reads.andThen hinv (.lift _) fun _ w₁ h₁ _ => ?_
  refine Reads.andThen (h₁.inv hinv) (.lift _) fun _ w₂ h₂ _ => ?_
  have h₁₂ := h₁.trans h₂
  have hinv₂ := h₁₂.inv hinv
  refine .bind (.get (Q := fun a w' => a = w₂ ∧ w' = w₂) ⟨rfl, rfl⟩) ?_
  rintro _ _ ⟨rfl, rfl⟩
  split_ifs with hfind
  · refine Reads.andThen hinv₂ .fileSystem fun _ w₃ h₃ _ => .modify ⟨⟨?_, ?_⟩, ?_, ?_⟩
    · refine (h₃.forest hinv₂.forest).removeFolder (fun f hf => ?_) fun r hr => ?_
      · exact hfolders f (by rwa [← (h₁₂.trans h₃).folders])
      · exact hrequests r (by rwa [← (h₁₂.trans h₃).requests])
    · exact fun t ht f hf => (h₃.inv hinv₂).fresh t ht f (Records.mem_remove.mp hf).1
    · exact (Shrinks.of_same (h₁₂.trans h₃)).trans
        ⟨fun f hf => (Records.mem_remove.mp hf).1, fun r hr => hr⟩
    · exact fun f hf => (Records.mem_remove.mp hf).2
  · refine .pure ⟨hinv₂, .of_same h₁₂, ?_⟩
    rw [Option.not_isSome_iff_eq_none, Records.find?_eq_none_iff] at hfind
    exact hfind

theorem deleteFolderTree_outcome {N fuel : ℕ} (hinv : Inv env w)
    (hN : ∀ n place, Depth (w.parentOf ws) place n → n ≤ N) (hpos : 0 < fuel)
    (hfuel : ∀ d, Depth (w.parentOf ws) (some id) d → N < d + fuel) :
    Outcome (deleteFolderTree env ws fuel id) w
      (fun _ w' => Inv env w' ∧ Shrinks w w' ∧ ∀ f ∈ w'.folders.toList, folderKey f ≠ (ws, id))
      (Fails env) := by
  induction fuel generalizing w id with
  | zero => exact absurd hpos (Nat.lt_irrefl 0)
  | succ fuel ih =>
    rw [deleteFolderTree]
    refine Reads.andThen hinv listRequests_reads fun requests w₁ h₁ hrequests => ?_
    refine .bind (.forM_done (I := fun w' => Inv env w' ∧ Shrinks w w')
      (D := fun r w' => r ∉ w'.requests.toList) ⟨h₁.inv hinv, .of_same h₁⟩ ?_) ?_
    · rintro r hr w' ⟨hinv', hshrinks⟩
      obtain ⟨-, rfl⟩ := (hrequests r).mp (List.mem_of_mem_filter hr)
      refine (deleteRequest_outcome hinv').mono ?_ fun _ _ he => he
      rintro _ w'' ⟨hinv'', hshrinks', hgone⟩
      exact ⟨⟨hinv'', hshrinks.trans hshrinks'⟩, fun hmem => hgone r hmem rfl,
        fun r' hr' hmem => hr' (hshrinks'.requests r' hmem)⟩
    · rintro _ w₂ ⟨⟨hinv₂, hshrinks₂⟩, hgone, -⟩
      refine Reads.andThen hinv₂ listFolders_reads fun folders w₃ h₃ hfolders => ?_
      have hinv₃ := h₃.inv hinv₂
      have hshrinks₃ := hshrinks₂.trans (.of_same h₃)
      refine .bind (.forM_done (I := fun w' => Inv env w' ∧ Shrinks w₃ w')
        (D := fun f w' => f ∉ w'.folders.toList) ⟨hinv₃, .of_same (.refl w₃)⟩ ?_) ?_
      · rintro f hf w' ⟨hinv', hshrinks⟩
        rw [List.mem_filter, decide_eq_true_eq, hfolders] at hf
        obtain ⟨⟨hmem, rfl⟩, hparent⟩ := hf
        have hshrinks' := hshrinks₃.trans hshrinks
        -- The folder is one link below the one that is deleted.
        have hmem' := hshrinks₂.folders f hmem
        have hlink := parentOf_of_mem hmem'
        rw [hparent] at hlink
        obtain ⟨n, hn⟩ := (hinv.forest.rooted_parent hmem').exists_depth
        rw [hparent] at hn
        have hle := hN _ _ (.link hlink hn)
        have hlt := hfuel n hn
        refine (ih hinv' (fun m place hm => hN m place (hshrinks'.depth hm)) (by omega)
          fun d hd => ?_).mono ?_ fun _ _ he => he
        · rw [(hshrinks'.depth hd).unique (.link hlink hn)]
          omega
        · rintro _ w'' ⟨hinv'', hshrinks'', hgone'⟩
          exact ⟨⟨hinv'', hshrinks.trans hshrinks''⟩, fun hmem => hgone' f hmem rfl,
            fun g hg hmem => hg (hshrinks''.folders g hmem)⟩
      · rintro _ w₄ ⟨⟨hinv₄, hshrinks₄⟩, hgone₄, -⟩
        have hshrinks := hshrinks₃.trans hshrinks₄
        refine (deleteFolder_outcome hinv₄ ?_ ?_).mono ?_ fun _ _ he => he
        · intro f hf hws hparent
          have hmem := h₃.folders ▸ hshrinks₄.folders f hf
          exact hgone₄ f (List.mem_filter.mpr
            ⟨(hfolders f).mpr ⟨hmem, hws⟩, decide_eq_true hparent⟩) hf
        · intro r hr hws hparent
          have hmem := h₃.requests ▸ hshrinks₄.requests r hr
          exact hgone r (List.mem_filter.mpr
            ⟨(hrequests r).mpr ⟨hshrinks.requests r hr, hws⟩, decide_eq_true hparent⟩) hmem
        · rintro _ w₅ ⟨hinv₅, hshrinks₅, hgone₅⟩
          exact ⟨hinv₅, hshrinks.trans hshrinks₅, hgone₅⟩

theorem deleteFolderCascade_outcome (hinv : Inv env w) :
    Outcome (deleteFolderCascade env ws id) w (fun _ w' => Inv env w') (Fails env) := by
  refine Reads.andThen hinv get_reads fun _ w₁ h₁ heq => ?_
  subst heq
  refine (deleteFolderTree_outcome (h₁.inv hinv) (fun n place hn => depth_le_length hn)
    (Nat.succ_pos _) fun d hd => ?_).mono (fun _ _ h => h.1) fun _ _ he => he
  rw [h₁.folders]
  omega

/-! ## Calls -/

theorem Call.exec_outcome (hinv : Inv env w) (call : Call) :
    Outcome (call.exec env) w (fun _ w' => Inv env w') (Fails env) := by
  cases call with
  | createFolder => exact .bind (createFolder_outcome hinv) fun _ _ h => .pure h
  | createRequest => exact .bind (createRequest_outcome hinv) fun _ _ h => .pure h
  | updateFolderPosition => exact updateFolderPosition_outcome hinv
  | updateRequestPosition => exact updateRequestPosition_outcome hinv
  | duplicateFolder => exact .bind (duplicateFolder_outcome hinv) fun _ _ h => .pure h
  | duplicateRequest => exact .bind (duplicateRequest_outcome hinv) fun _ _ h => .pure h
  | deleteRequest => exact (deleteRequest_outcome hinv).mono (fun _ _ h => h.1) fun _ _ h => h
  | deleteFolderCascade => exact deleteFolderCascade_outcome hinv

theorem Call.exec_inv (hinv : Inv env w) (call : Call) :
    Inv env (call.exec env w).2 ∧ (call.exec env w).1 ≠ .error .outOfFuel := by
  have houtcome := call.exec_outcome hinv
  rw [Fallible.Outcome] at houtcome
  rcases hrun : call.exec env w with ⟨a | e, w'⟩ <;> rw [hrun] at houtcome
  · exact ⟨houtcome.2, fun heq => houtcome.1 (Except.error.inj heq)⟩
  · exact ⟨houtcome, fun heq => by cases heq⟩

theorem runCalls_inv (hinv : Inv env w) (calls : List Call) : Inv env (runCalls env w calls) := by
  induction calls generalizing w with
  | nil => exact hinv
  | cons call rest ih => exact ih (call.exec_inv hinv).1

/-- A call whose check of the parent fails ends there. -/
theorem Call.exec_of_check {call : Call} {check : Store Unit} {e : Failure}
    (hcheck : call.check env = some check) (herror : check w = (.error e, w')) :
    call.exec env w = (.error e, w') := by
  cases call with
  | createFolder =>
    cases hcheck
    exact Fallible.bind_eq_error (Fallible.bind_eq_error herror)
  | createRequest =>
    cases hcheck
    exact Fallible.bind_eq_error (Fallible.bind_eq_error herror)
  | updateFolderPosition =>
    cases hcheck
    exact Fallible.bind_eq_error herror
  | updateRequestPosition =>
    cases hcheck
    exact Fallible.bind_eq_error herror
  | duplicateFolder => cases hcheck
  | duplicateRequest => cases hcheck
  | deleteRequest => cases hcheck
  | deleteFolderCascade => cases hcheck

theorem Call.check_reads {call : Call} {check : Store Unit} (hforest : Forest w)
    (hcheck : call.check env = some check) : Reads check w fun _ => True := by
  cases call with
  | createFolder =>
    cases hcheck
    exact (checkParent_reads hforest).mono fun _ _ => trivial
  | createRequest =>
    cases hcheck
    exact (checkParent_reads hforest).mono fun _ _ => trivial
  | updateFolderPosition =>
    cases hcheck
    exact (checkParent_reads hforest).mono fun _ _ => trivial
  | updateRequestPosition =>
    cases hcheck
    exact (checkParent_reads hforest).mono fun _ _ => trivial
  | duplicateFolder => cases hcheck
  | duplicateRequest => cases hcheck
  | deleteRequest => cases hcheck
  | deleteFolderCascade => cases hcheck

/-- Whatever calls have run, the files form a forest, the next call comes to an end, and it leaves
all files unchanged if its check of the parent fails. -/
theorem forest_invariant (env : Env) (w : World) (hforest : Forest w) (hfresh : Fresh env w)
    (calls : List Call) :
    let w' := runCalls env w calls
    Forest w' ∧ ∀ call : Call, (call.exec env w').1 ≠ .error .outOfFuel ∧
      ∀ check e w'', call.check env = some check → check w' = (.error e, w'') →
        call.exec env w' = (.error e, w'') ∧ w''.folders = w'.folders ∧
          w''.requests = w'.requests := by
  intro w'
  have hinv : Inv env w' := runCalls_inv ⟨hforest, hfresh⟩ calls
  refine ⟨hinv.forest, fun call => ⟨(call.exec_inv hinv).2, ?_⟩⟩
  intro check e w'' hcheck herror
  have hreads := Call.check_reads hinv.forest hcheck
  rw [Reads, Outcome, herror] at hreads
  exact ⟨Call.exec_of_check hcheck herror, hreads.2.folders, hreads.2.requests⟩

/-! ## One folder -/

/-- An environment without faults. -/
def faultless : Env where
  newId t := String.ofList ('n' :: List.replicate t 'a')
  newId_injective t t' h := by
    have hlength := congrArg List.length (List.cons.inj (String.ofList_injective h)).2
    simpa using hlength
  now _ := "2024-01-01T00:00:00.000000"
  timestampMillis t := t
  fault _ := none
  readDir _ _ l := l
  readDir_perm _ _ l := .refl l

def authFolder : ApiFolder where
  id := "f1"
  folderType := "api"
  model := "folder"
  workspaceId := "ws1"
  folderId := none
  name := "Auth"
  headers := []
  auth := .none
  «variables» := []
  color := none
  order := 1
  createdAt := ""
  updatedAt := ""

def oneFolder : World where
  folders := ⟨[authFolder], List.nodup_singleton _⟩
  requests := ⟨[], List.nodup_nil⟩
  tick := 0

/-- A subfolder is made, and the folder is to be moved into itself. -/
theorem forest_invariant_one_folder :
    Forest (runCalls faultless oneFolder [.createFolder "ws1" (some "f1") "Sub",
      .updateFolderPosition "ws1" "f1" (some "f1") 1, .duplicateFolder "ws1" "f1"]) := by
  refine (forest_invariant faultless oneFolder ⟨fun f hf => ?_, by simp [oneFolder]⟩ ?_ _).1
  · obtain rfl : f = authFolder := by simpa [oneFolder] using hf
    have hroot : oneFolder.parentOf "ws1" "f1" = some none := rfl
    exact .link hroot .root
  · intro t _ f hf heq
    obtain rfl : f = authFolder := by simpa [oneFolder] using hf
    have hfirst := congrArg (fun s => s.toList.head?) heq
    simp [authFolder, faultless] at hfirst

end Voleeo.Storage
