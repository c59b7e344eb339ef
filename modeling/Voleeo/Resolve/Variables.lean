import Voleeo.OrderedMap
import Voleeo.Resolve.FolderChain

/-!
# Values of template variables

The web app lists the variables in order of precedence and takes the first
enabled row of a name. The Rust resolver writes the layers into a map, weakest
first. Both are compared with a lookup through layers of rows.
-/
namespace Voleeo.Resolve
open OrderedMap

/-! ## Lookup through layers -/

/-- The value of the first enabled row of a name. -/
def rowValue (rows : List EnvironmentVariable) (name : String) : Option String :=
  (rows.find? fun v => v.enabled && v.key == name).map (·.value)

/-- The value in the first layer that has an enabled row of the name. -/
def lookupLayers (layers : List (List EnvironmentVariable)) (name : String) : Option String :=
  layers.findSome? fun rows => rowValue rows name

theorem rowValue_append (rows rows' : List EnvironmentVariable) (name : String) :
    rowValue (rows ++ rows') name = (rowValue rows name).or (rowValue rows' name) := by
  simp only [rowValue, List.find?_append, Option.map_or]

theorem rowValue_eq_none {rows : List EnvironmentVariable} {name : String} :
    rowValue rows name = none ↔ ∀ v ∈ rows, v.enabled = true → v.key ≠ name := by
  simp [rowValue]

theorem rowValue_filter_enabled (rows : List EnvironmentVariable) (name : String) :
    rowValue (rows.filter (·.enabled)) name = rowValue rows name := by
  simp only [rowValue, List.find?_filter]
  congr 2
  funext v
  rw [Bool.eq_iff_iff]
  simp

/-- Filtering a layer by a test on the key keeps a name or loses it as a whole. -/
theorem rowValue_filter_key (rows : List EnvironmentVariable) (keep : String → Bool)
    (name : String) :
    rowValue (rows.filter fun v => keep v.key) name =
      if keep name then rowValue rows name else none := by
  simp only [rowValue, List.find?_filter]
  split_ifs with h
  · congr 2
    funext v
    by_cases hk : v.key = name
    · simp [hk, h]
    · simp [hk]
  · rw [Option.map_eq_none_iff, List.find?_eq_none]
    intro v _
    by_cases hk : v.key = name
    · simp [hk, h]
    · simp [hk]

theorem lookupLayers_cons (rows : List EnvironmentVariable)
    (layers : List (List EnvironmentVariable)) (name : String) :
    lookupLayers (rows :: layers) name = (rowValue rows name).or (lookupLayers layers name) := by
  simp only [lookupLayers, List.findSome?_cons]
  cases rowValue rows name <;> rfl

theorem lookupLayers_append (layers layers' : List (List EnvironmentVariable)) (name : String) :
    lookupLayers (layers ++ layers') name =
      (lookupLayers layers name).or (lookupLayers layers' name) := by
  simp only [lookupLayers, List.findSome?_append]

/-! ## The web app -/

def mergeEnvVars (globalVars personalVars systemVars : List EnvironmentVariable) :
    List EnvironmentVariable :=
  let personalKeys := personalVars.map (·.key)
  let voleeoKeys := ((globalVars ++ personalVars).filter (·.enabled)).map (·.key)
  personalVars ++ globalVars.filter (fun v => !personalKeys.contains v.key) ++
    systemVars.filter fun v => !voleeoKeys.contains v.key

/-- Enabled folder variables, nearest folder first. -/
def inheritedFolderVars (folderId : Option String) (folders : List ApiFolder) :
    List EnvironmentVariable :=
  (ancestorChainRootFirst folderId folders).reverse.flatMap fun f => f.variables.filter (·.enabled)

def mergeInheritedVariables (request : HttpRequest) (folders : List ApiFolder)
    (envVars : List EnvironmentVariable) : List EnvironmentVariable :=
  inheritedFolderVars request.folderId folders ++ envVars

/-- The variables of the global environment. -/
def globalVars (environments : List Environment) : List EnvironmentVariable :=
  ((environments.find? fun e => e.kind = .global).map (·.variables)).getD []

/-- The variables of the selected environment. -/
def personalVars (environments : List Environment) (envId : Option String) :
    List EnvironmentVariable :=
  ((envId.bind fun id => environments.find? fun e => e.id = id).map (·.variables)).getD []

/-- The value the web app resolves a name to. -/
def webValue (environments : List Environment) (envId : Option String)
    (systemVars : List EnvironmentVariable) (request : HttpRequest) (folders : List ApiFolder)
    (name : String) : Option String :=
  rowValue (mergeInheritedVariables request folders
    (mergeEnvVars (globalVars environments) (personalVars environments envId) systemVars)) name

/-! ## The Rust resolver -/

/-- `decrypt` stands for the key lookup and the cipher; it is asked for encrypted rows only. -/
def plainValue (decrypt : String → String) (v : EnvironmentVariable) : String :=
  if v.encrypted then decrypt v.value else v.value

def insertEnabled (decrypt : String → String) (vars : OrderedMap String String)
    (rows : List EnvironmentVariable) : OrderedMap String String :=
  (rows.filter (·.enabled)).foldl (fun m v => m.set v.key (plainValue decrypt v)) vars

def insertEnvironment (decrypt : String → String) (vars : OrderedMap String String) :
    Option Environment → OrderedMap String String
  | some env => insertEnabled decrypt vars env.variables
  | none => vars

/-- Layering, weakest first: allowlisted system variables, global, personal. -/
def loadEnvVarsFrom (decrypt : String → String) (allowlisted : OrderedMap String String)
    (envs : List Environment) (envId : Option String) : OrderedMap String String :=
  let vars := insertEnvironment decrypt allowlisted (envs.find? fun e => e.kind = .global)
  insertEnvironment decrypt vars (envId.bind fun id => envs.find? fun e => e.id = id)

def applyFolderVars (decrypt : String → String) (vars : OrderedMap String String)
    (folderId : Option String) (folders : List ApiFolder) : OrderedMap String String :=
  (ancestorChainRootFirstRs folderId folders).foldl
    (fun m folder => insertEnabled decrypt m folder.variables) vars

/-- The map of the allowlisted system variables; a disabled row never comes from the allowlist. -/
def allowlistedVars (systemVars : List EnvironmentVariable) : OrderedMap String String :=
  ofList ((systemVars.filter (·.enabled)).map fun v => (v.key, v.value))

/-- The value the Rust resolver gives a name. -/
def mcpValue (decrypt : String → String) (environments : List Environment) (envId : Option String)
    (systemVars : List EnvironmentVariable) (request : HttpRequest) (folders : List ApiFolder)
    (name : String) : Option String :=
  (applyFolderVars decrypt
    (loadEnvVarsFrom decrypt (allowlistedVars systemVars) environments envId)
    request.folderId folders).get? name

/-! ## The web app as a lookup -/

theorem inheritedFolderVars_value (folderId : Option String) (folders : List ApiFolder)
    (name : String) :
    rowValue (inheritedFolderVars folderId folders) name =
      lookupLayers ((climb (fun id => id == "") folders [] folderId).map (·.variables)) name := by
  unfold inheritedFolderVars ancestorChainRootFirst
  rw [List.reverse_reverse]
  induction climb (fun id => id == "") folders [] folderId with
  | nil => rfl
  | cons f fs ih =>
    rw [List.flatMap_cons, rowValue_append, rowValue_filter_enabled, ih, List.map_cons,
      lookupLayers_cons]

/-- A disabled personal row stands in front of an enabled global one. -/
def Shadowed (globals personals : List EnvironmentVariable) (name : String) : Prop :=
  (∃ v ∈ personals, v.key = name) ∧ rowValue personals name = none ∧
    rowValue globals name ≠ none

instance (globals personals : List EnvironmentVariable) (name : String) :
    Decidable (Shadowed globals personals name) := by
  unfold Shadowed
  infer_instance

theorem contains_enabled_keys (rows : List EnvironmentVariable) (name : String) :
    ((rows.filter (·.enabled)).map (·.key)).contains name = (rowValue rows name).isSome := by
  rw [Bool.eq_iff_iff, Option.isSome_iff_ne_none, Ne, rowValue_eq_none]
  simp [and_assoc]

theorem mergeEnvVars_value (globals personals systems : List EnvironmentVariable) (name : String) :
    rowValue (mergeEnvVars globals personals systems) name =
      if Shadowed globals personals name then none
      else lookupLayers [personals, globals, systems] name := by
  have hsystem : rowValue (systems.filter fun v =>
      !(((globals ++ personals).filter (·.enabled)).map (·.key)).contains v.key) name =
        if ((rowValue globals name).or (rowValue personals name)).isSome then none
        else rowValue systems name := by
    rw [rowValue_filter_key systems fun k =>
      !(((globals ++ personals).filter (·.enabled)).map (·.key)).contains k]
    rw [contains_enabled_keys, rowValue_append]
    cases (rowValue globals name).or (rowValue personals name) <;> rfl
  simp only [mergeEnvVars, rowValue_append, hsystem,
    rowValue_filter_key _ fun k => !(personals.map (·.key)).contains k]
  have hkeys : (personals.map (·.key)).contains name = true ↔ ∃ v ∈ personals, v.key = name := by
    simp
  simp only [lookupLayers_cons, Shadowed, ← hkeys]
  cases hp : rowValue personals name <;> cases hg : rowValue globals name <;>
    cases hk : (personals.map (·.key)).contains name <;> simp [lookupLayers]

/-! ## The Rust resolver as a lookup -/

/-- Rows of one list with pairwise different keys and no ciphertext. -/
structure PlainRows (rows : List EnvironmentVariable) : Prop where
  keys_nodup : (rows.map (·.key)).Nodup
  unencrypted : ∀ v ∈ rows, v.encrypted = false

theorem find?_reverse_of_unique {α : Type} {p : α → Bool} {l : List α}
    (h : ∀ a ∈ l, ∀ b ∈ l, p a = true → p b = true → a = b) : l.reverse.find? p = l.find? p := by
  cases hl : l.find? p with
  | none =>
    rw [List.find?_eq_none] at hl ⊢
    intro x hx
    exact hl x (List.mem_reverse.mp hx)
  | some a =>
    cases hr : l.reverse.find? p with
    | none =>
      rw [List.find?_eq_none] at hr
      exact absurd (List.find?_some hl) (hr a (List.mem_reverse.mpr (List.mem_of_find?_eq_some hl)))
    | some b =>
      have hb := List.mem_reverse.mp (List.mem_of_find?_eq_some hr)
      rw [h b hb a (List.mem_of_find?_eq_some hl) (List.find?_some hr) (List.find?_some hl)]

theorem reverse_lookup_enabled {rows : List EnvironmentVariable} (h : (rows.map (·.key)).Nodup)
    (value : EnvironmentVariable → String) (name : String) :
    ((rows.filter (·.enabled)).map fun v => (v.key, value v)).reverse.lookup name =
      (rows.find? fun v => v.enabled && v.key == name).map value := by
  have hlookup : ∀ l : List EnvironmentVariable,
      (l.map fun v => (v.key, value v)).lookup name =
        (l.find? fun v => v.key == name).map value := by
    intro l
    induction l with
    | nil => rfl
    | cons v l ih =>
      rw [List.map_cons, lookup_cons_ite, ih, List.find?_cons]
      by_cases hk : v.key = name
      · simp [hk]
      · rw [if_neg (Ne.symm hk), beq_false_of_ne hk]
  have huniq : ∀ a ∈ rows, ∀ b ∈ rows, (a.enabled && a.key == name) = true →
      (b.enabled && b.key == name) = true → a = b := by
    intro a ha b hb hpa hpb
    simp only [Bool.and_eq_true, beq_iff_eq] at hpa hpb
    exact List.inj_on_of_nodup_map h ha hb (hpa.2.trans hpb.2.symm)
  rw [← List.map_reverse, hlookup, ← List.filter_reverse, List.find?_filter,
    ← find?_reverse_of_unique huniq]
  congr 2
  funext v
  rw [Bool.eq_iff_iff]
  simp

/-- Inserting a layer puts it in front of what the map held. -/
theorem get?_insertEnabled {rows : List EnvironmentVariable} (h : PlainRows rows)
    (decrypt : String → String) (vars : OrderedMap String String) (name : String) :
    (insertEnabled decrypt vars rows).get? name = (rowValue rows name).or (vars.get? name) := by
  have hfold : insertEnabled decrypt vars rows =
      ((rows.filter (·.enabled)).map fun v => (v.key, plainValue decrypt v)).foldl
        (fun m row => m.set row.1 row.2) vars := by
    rw [List.foldl_map]
    rfl
  rw [hfold, get?_foldl_set, reverse_lookup_enabled h.keys_nodup]
  congr 1
  unfold rowValue
  cases hf : rows.find? fun v => v.enabled && v.key == name with
  | none => rfl
  | some v => simp [plainValue, h.unencrypted v (List.mem_of_find?_eq_some hf)]

theorem get?_applyFolderVars {folders : List ApiFolder} (h : ∀ f ∈ folders, PlainRows f.variables)
    (decrypt : String → String) (vars : OrderedMap String String) (folderId : Option String)
    (name : String) :
    (applyFolderVars decrypt vars folderId folders).get? name =
      (lookupLayers ((climb (fun _ => false) folders [] folderId).map (·.variables)) name).or
        (vars.get? name) := by
  have hchain : ∀ f ∈ climb (fun _ => false) folders [] folderId, PlainRows f.variables :=
    fun f hf => h f (mem_of_mem_climb hf)
  unfold applyFolderVars ancestorChainRootFirstRs
  rw [List.foldl_reverse]
  generalize climb (fun _ => false) folders [] folderId = chain at hchain
  induction chain with
  | nil => rfl
  | cons f fs ih =>
    rw [List.foldr_cons, get?_insertEnabled (hchain f List.mem_cons_self),
      ih fun g hg => hchain g (List.mem_cons_of_mem _ hg), List.map_cons, lookupLayers_cons,
      Option.or_assoc]

theorem get?_insertEnvironment {env : Option Environment}
    (h : PlainRows ((env.map (·.variables)).getD [])) (decrypt : String → String)
    (vars : OrderedMap String String) (name : String) :
    (insertEnvironment decrypt vars env).get? name =
      (rowValue ((env.map (·.variables)).getD []) name).or (vars.get? name) := by
  cases env with
  | none => rfl
  | some env => exact get?_insertEnabled h decrypt vars name

theorem get?_allowlistedVars {systems : List EnvironmentVariable} (h : PlainRows systems)
    (name : String) : (allowlistedVars systems).get? name = rowValue systems name := by
  rw [allowlistedVars, get?_ofList, reverse_lookup_enabled h.keys_nodup]
  rfl

theorem get?_loadEnvVarsFrom {envs : List Environment} {envId : Option String}
    {systems : List EnvironmentVariable} (hg : PlainRows (globalVars envs))
    (hp : PlainRows (personalVars envs envId)) (hs : PlainRows systems)
    (decrypt : String → String) (name : String) :
    (loadEnvVarsFrom decrypt (allowlistedVars systems) envs envId).get? name =
      lookupLayers [personalVars envs envId, globalVars envs, systems] name := by
  rw [loadEnvVarsFrom, get?_insertEnvironment hp, get?_insertEnvironment hg,
    get?_allowlistedVars hs]
  simp only [lookupLayers_cons]
  simp [lookupLayers, personalVars, globalVars]

/-! ## Agreement of the two resolvers -/

section Agreement

variable (decrypt : String → String) (environments : List Environment) (envId : Option String)
  (systemVars : List EnvironmentVariable) (request : HttpRequest) (folders : List ApiFolder)
  (name : String)

/-- The folders that the web app climbs through, nearest first. -/
def webFolders : List ApiFolder := climb (fun id => id == "") folders [] request.folderId

/-- The folders that only the Rust resolver reaches, through an empty folder id. -/
def hiddenFolders : List ApiFolder :=
  (climb (fun _ => false) folders [] request.folderId).drop (webFolders request folders).length

theorem climb_split : climb (fun _ => false) folders [] request.folderId =
    webFolders request folders ++ hiddenFolders request folders := by
  obtain ⟨rest, hrest⟩ := climb_prefix folders [] request.folderId
  unfold hiddenFolders
  rw [← hrest]
  simp [webFolders]

theorem hiddenFolders_eq_nil (hid : ∀ f ∈ folders, f.id ≠ "") :
    hiddenFolders request folders = [] := by
  unfold hiddenFolders webFolders
  rw [climb_eq_of_no_empty folders hid, List.drop_length]

/-- The two resolvers give the name the same value, or both none. -/
def ValuesAgree : Prop :=
  webValue environments envId systemVars request folders name =
    mcpValue decrypt environments envId systemVars request folders name

/-- A folder on the web app's chain defines the name, or no disabled personal row shadows an
enabled global one and the folders behind an empty id add no other value. -/
def AgreementCondition : Prop :=
  lookupLayers ((webFolders request folders).map (·.variables)) name ≠ none ∨
    (¬ Shadowed (globalVars environments) (personalVars environments envId) name ∧
      (lookupLayers ((hiddenFolders request folders).map (·.variables)) name = none ∨
        lookupLayers ((hiddenFolders request folders).map (·.variables)) name =
          lookupLayers [personalVars environments envId, globalVars environments, systemVars]
            name))

/-- The rows that reach the resolvers: one row a key in each list, and nothing encrypted. -/
structure WellFormedVars : Prop where
  globals : PlainRows (globalVars environments)
  personals : PlainRows (personalVars environments envId)
  systems : PlainRows systemVars
  folderVars : ∀ f ∈ folders, PlainRows f.variables

variable {environments envId systemVars folders}

theorem webValue_eq :
    webValue environments envId systemVars request folders name =
      (lookupLayers ((webFolders request folders).map (·.variables)) name).or
        (if Shadowed (globalVars environments) (personalVars environments envId) name then none
          else lookupLayers [personalVars environments envId, globalVars environments, systemVars]
            name) := by
  rw [webValue, mergeInheritedVariables, rowValue_append, inheritedFolderVars_value,
    mergeEnvVars_value]
  rfl

theorem mcpValue_eq (h : WellFormedVars environments envId systemVars folders) :
    mcpValue decrypt environments envId systemVars request folders name =
      (lookupLayers ((webFolders request folders).map (·.variables)) name).or
        ((lookupLayers ((hiddenFolders request folders).map (·.variables)) name).or
          (lookupLayers [personalVars environments envId, globalVars environments, systemVars]
            name)) := by
  rw [mcpValue, get?_applyFolderVars h.folderVars,
    get?_loadEnvVarsFrom h.globals h.personals h.systems, climb_split, List.map_append,
    lookupLayers_append, Option.or_assoc]

theorem lookupLayers_ne_none_of_shadowed {globals personals systems : List EnvironmentVariable}
    {name : String} (h : Shadowed globals personals name) :
    lookupLayers [personals, globals, systems] name ≠ none := by
  obtain ⟨-, hp, hg⟩ := h
  rw [lookupLayers_cons, lookupLayers_cons, hp]
  cases hv : rowValue globals name with
  | none => exact absurd hv hg
  | some v => simp

/-- The resolvers agree on a name exactly under the condition. -/
theorem valuesAgree_iff (h : WellFormedVars environments envId systemVars folders) :
    ValuesAgree decrypt environments envId systemVars request folders name ↔
      AgreementCondition environments envId systemVars request folders name := by
  unfold ValuesAgree AgreementCondition
  rw [webValue_eq, mcpValue_eq decrypt request name h]
  cases hweb : lookupLayers ((webFolders request folders).map (·.variables)) name with
  | some v => simp
  | none =>
      have henv := @lookupLayers_ne_none_of_shadowed (globalVars environments)
        (personalVars environments envId) systemVars name
      by_cases hshadow : Shadowed (globalVars environments) (personalVars environments envId) name
      · have hne := henv hshadow
        cases hhid : lookupLayers ((hiddenFolders request folders).map (·.variables)) name with
        | none => simpa [hshadow] using Ne.symm hne
        | some v => simp [hshadow]
      · cases hhid : lookupLayers ((hiddenFolders request folders).map (·.variables)) name with
        | none => simp [hshadow]
        | some v => simpa [hshadow] using eq_comm

/-- With ids that are not empty, only a disabled personal row makes the resolvers differ. -/
theorem agreementCondition_iff_of_ids (hid : ∀ f ∈ folders, f.id ≠ "") :
    AgreementCondition environments envId systemVars request folders name ↔
      lookupLayers ((webFolders request folders).map (·.variables)) name ≠ none ∨
        ¬ Shadowed (globalVars environments) (personalVars environments envId) name := by
  simp [AgreementCondition, hiddenFolders_eq_nil request folders hid, lookupLayers]

end Agreement

def environmentOf (id : String) (kind : EnvironmentKind) (vars : List EnvironmentVariable) :
    Environment where
  id := id
  workspaceId := "w1"
  kind := kind
  name := id
  color := ""
  shared := false
  «variables» := vars
  createdAt := ""
  updatedAt := ""

/-- A global host, switched off in the personal environment. -/
def hostEnvironments : List Environment :=
  [environmentOf "g" .global [⟨"HOST", "api.test", false, true⟩],
    environmentOf "dev" .personal [⟨"HOST", "localhost", false, false⟩]]

theorem hostEnvironments_wellFormed : WellFormedVars hostEnvironments (some "dev") [] [] where
  globals := ⟨by decide, by decide⟩
  personals := ⟨by decide, by decide⟩
  systems := ⟨by decide, by decide⟩
  folderVars := by simp

theorem valuesAgree_iff_host :
    ValuesAgree id hostEnvironments (some "dev") [] HttpRequest.blank [] "HOST" ↔
      AgreementCondition hostEnvironments (some "dev") [] HttpRequest.blank [] "HOST" :=
  valuesAgree_iff id HttpRequest.blank "HOST" hostEnvironments_wellFormed

/-- The web app has no value for the host, and the Rust resolver has the global one. -/
theorem disabled_personal_hides_global :
    WellFormedVars hostEnvironments (some "dev") [] [] ∧
      ¬ ValuesAgree id hostEnvironments (some "dev") [] HttpRequest.blank [] "HOST" := by
  refine ⟨hostEnvironments_wellFormed, ?_⟩
  have hchain : webFolders HttpRequest.blank [] = [] := by
    simp [webFolders, HttpRequest.blank, climb]
  have hhidden := hiddenFolders_eq_nil HttpRequest.blank [] (by decide)
  rw [ValuesAgree, webValue_eq, mcpValue_eq id _ _ hostEnvironments_wellFormed, hchain, hhidden]
  decide

end Voleeo.Resolve
