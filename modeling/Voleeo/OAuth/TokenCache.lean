import Voleeo.Crypto.Cipher
import Voleeo.Runs
import Mathlib.Tactic.SplitIfs

/-!
# The cache of OAuth tokens

A workspace keeps the tokens of all cache keys in one file. A call reads the whole
file, puts or removes the entry of its key, and writes the whole file back. Only
calls of one kind take a lock, and that lock is for one key.
-/
namespace Voleeo.OAuth
open Crypto

structure CachedToken where
  key : String
  accessToken : String
  refreshToken : String
  tokenType : String
  scope : String
  expiresAt : ℤ
  encrypted : Bool
  deriving DecidableEq, Repr

structure TokenResult where
  accessToken : String
  refreshToken : String
  tokenType : String
  scope : String
  expiresAt : ℤ
  deriving DecidableEq, Repr

/-- Whether the workspace is encrypted, its key file, and the nonces that are drawn. -/
structure Keyring where
  encrypted : Bool
  key : Except VoleeoError Aead
  nonces : ℕ → Nonce

def CachedToken.new (key : String) (result : TokenResult) : CachedToken where
  key
  accessToken := result.accessToken
  refreshToken := result.refreshToken
  tokenType := result.tokenType
  scope := result.scope
  expiresAt := result.expiresAt
  encrypted := false

def CachedToken.isExpired (t : CachedToken) (now : ℤ) : Bool :=
  t.expiresAt ≠ 0 && decide (t.expiresAt ≤ now)

/-! ## Reading and changing the file -/

def openField (aead : Aead) (field : String) : Except VoleeoError String :=
  if isEncrypted field then decrypt aead field else .ok field

def load (keyring : Keyring) (tokens : List CachedToken) (key : String) :
    Except VoleeoError (Option CachedToken) :=
  match tokens.find? (·.key = key) with
  | none => .ok none
  | some token =>
    if token.encrypted then do
      let aead ← keyring.key
      let accessToken ← openField aead token.accessToken
      let refreshToken ← openField aead token.refreshToken
      return some { token with accessToken, refreshToken, encrypted := false }
    else .ok (some token)

def sealField (aead : Aead) (nonce : Nonce) (field : String) : String :=
  if field ≠ "" ∧ ¬ isEncrypted field then encrypt aead nonce field else field

/-- The entry that `save` writes for a token. -/
def sealToken (keyring : Keyring) (token : CachedToken) : Except VoleeoError CachedToken :=
  if keyring.encrypted then do
    let aead ← keyring.key
    return { token with
      accessToken := sealField aead (keyring.nonces 0) token.accessToken
      refreshToken := sealField aead (keyring.nonces 1) token.refreshToken
      encrypted := true }
  else .ok token

def removeKey (key : String) (tokens : List CachedToken) : List CachedToken :=
  tokens.filter fun t => t.key ≠ key

def putEntry (entry : CachedToken) (tokens : List CachedToken) : List CachedToken :=
  removeKey entry.key tokens ++ [entry]

theorem key_sealToken {keyring : Keyring} {token entry : CachedToken}
    (h : sealToken keyring token = .ok entry) : entry.key = token.key := by
  rw [sealToken] at h
  split_ifs at h
  · cases hkey : keyring.key with
    | error e =>
      rw [hkey] at h
      cases h
    | ok aead =>
      rw [hkey] at h
      cases h
      rfl
  · cases h
    rfl

theorem find?_removeKey (key k : String) (tokens : List CachedToken) :
    (removeKey key tokens).find? (·.key = k) =
      if k = key then none else tokens.find? (·.key = k) := by
  rw [removeKey, List.find?_filter]
  split_ifs with hk
  · subst hk
    simp
  · congr 1
    funext t
    by_cases ht : t.key = k
    · simp [ht, hk]
    · simp [ht]

theorem find?_putEntry (entry : CachedToken) (k : String) (tokens : List CachedToken) :
    (putEntry entry tokens).find? (·.key = k) =
      if k = entry.key then some entry else tokens.find? (·.key = k) := by
  rw [putEntry, List.find?_append, find?_removeKey]
  by_cases hk : k = entry.key
  · subst hk
    simp
  · have hne : entry.key ≠ k := Ne.symm hk
    simp [hk, hne]

/-! ## Calls -/

inductive CallKind
  | ensure
  | save
  | clear
  deriving DecidableEq, Repr

/-- How far a call has come. It knows the file as it has read it, with the entry to put. -/
inductive Phase
  | idle
  | locked
  | saving (entry : CachedToken)
  | seen (tokens : List CachedToken) (entry : Option CachedToken)
  | finished
  deriving DecidableEq, Repr

structure State (τ : Type) where
  file : List CachedToken
  lock : String → Option τ
  phase : τ → Phase
  /-- The entry saved last for a key, or none behind its removal. No step reads it. -/
  last : String → Option CachedToken

inductive Step (τ : Type)
  | lock (c : τ)
  /-- `ensure_token` loads its token, and may refresh or fetch one. -/
  | load (c : τ) (now : ℤ) (keyring : Keyring) (fetched : Option TokenResult)
  /-- `save_token` of an interactive fetch begins. -/
  | fetched (c : τ) (keyring : Keyring) (result : TokenResult)
  | read (c : τ)
  | write (c : τ)
  /-- A call ends with an error. -/
  | fail (c : τ)

variable {τ : Type}

def State.start (file : List CachedToken) : State τ where
  file
  lock _ := none
  phase _ := .idle
  last key := file.find? (·.key = key)

section
variable [DecidableEq τ]

def State.setPhase (s : State τ) (c : τ) (phase : Phase) : State τ :=
  { s with phase := Function.update s.phase c phase }

/-- A call that ends releases its lock. -/
def State.finish (s : State τ) (c : τ) : State τ :=
  { s.setPhase c .finished with lock := fun k => (s.lock k).filter fun d => !decide (d = c) }

def State.prepare (s : State τ) (c : τ) (key : String) (keyring : Keyring)
    (result : TokenResult) : State τ :=
  match sealToken keyring (.new key result) with
  | .ok entry => s.setPhase c (.saving entry)
  | .error _ => s.finish c

/-- What `ensure_token` does with the cached token: it uses one that has not expired. -/
def State.loaded (s : State τ) (c : τ) (key : String) (now : ℤ) (keyring : Keyring)
    (fetched : Option TokenResult) : State τ :=
  match load keyring s.file key, fetched with
  | .error _, _ => s.finish c
  | .ok _, none => s.finish c
  | .ok cached, some result =>
    if cached.any fun t => !t.isExpired now then s.finish c
    else s.prepare c key keyring result

def State.save (s : State τ) (c : τ) (key : String) (file : List CachedToken)
    (entry : Option CachedToken) : State τ :=
  { s.finish c with file, last := Function.update s.last key entry }

variable (kind : τ → CallKind) (key : τ → String)

/-- One step of any call. A call that is not at this step does nothing. -/
def step (s : State τ) : Step τ → State τ
  | .lock c =>
    if kind c = .ensure ∧ s.phase c = .idle ∧ s.lock (key c) = none then
      { s.setPhase c .locked with lock := Function.update s.lock (key c) (some c) }
    else s
  | .load c now keyring fetched =>
    if s.phase c = .locked then s.loaded c (key c) now keyring fetched else s
  | .fetched c keyring result =>
    if kind c = .save ∧ s.phase c = .idle then s.prepare c (key c) keyring result else s
  | .read c =>
    match s.phase c with
    | .saving entry => s.setPhase c (.seen s.file (some entry))
    | .idle =>
      if kind c = .clear then
        if s.file.any (·.key = key c) then s.setPhase c (.seen s.file none) else s.finish c
      else s
    | _ => s
  | .write c =>
    match s.phase c with
    | .seen tokens (some entry) => s.save c (key c) (putEntry entry tokens) (some entry)
    | .seen tokens none => s.save c (key c) (removeKey (key c) tokens) none
    | _ => s
  | .fail c => s.finish c

end

/-- The file holds for each key the entry saved last, or none behind its removal. -/
def State.Right (s : State τ) : Prop := ∀ k, s.file.find? (·.key = k) = s.last k

/-- A call writes the file while the entries of the other keys are as it has read them. -/
def Clean (key : τ → String) (s : State τ) : Step τ → Prop
  | .write c => ∀ tokens entry, s.phase c = .seen tokens entry → ∀ k ≠ key c,
      tokens.find? (·.key = k) = s.file.find? (·.key = k)
  | _ => True

/-! ## What every clean step keeps -/

/-- The entry that a call is about to put has the key of the call. -/
def Phase.Owned (k : String) : Phase → Prop
  | .saving entry | .seen _ (some entry) => entry.key = k
  | _ => True

structure Inv (key : τ → String) (s : State τ) : Prop where
  right : s.Right
  owned : ∀ c, (s.phase c).Owned (key c)

theorem inv_start (key : τ → String) (file : List CachedToken) : Inv key (State.start file) :=
  ⟨fun _ => rfl, fun _ => trivial⟩

variable [DecidableEq τ] {kind : τ → CallKind} {key : τ → String} {s : State τ} {c : τ}

theorem Inv.setPhase (h : Inv key s) {p : Phase} (howned : p.Owned (key c)) :
    Inv key (s.setPhase c p) where
  right := h.right
  owned d := by
    by_cases hd : d = c
    · subst hd
      simpa [State.setPhase] using howned
    · simpa [State.setPhase, hd] using h.owned d

theorem Inv.finish (h : Inv key s) : Inv key (s.finish c) :=
  ⟨h.right, (h.setPhase (c := c) (p := .finished) trivial).owned⟩

theorem Inv.prepare (h : Inv key s) (keyring : Keyring) (result : TokenResult) :
    Inv key (s.prepare c (key c) keyring result) := by
  rw [State.prepare]
  split
  · rename_i entry hentry
    exact h.setPhase (key_sealToken hentry)
  · exact h.finish

theorem Inv.loaded (h : Inv key s) (now : ℤ) (keyring : Keyring)
    (fetched : Option TokenResult) : Inv key (s.loaded c (key c) now keyring fetched) := by
  cases hload : load keyring s.file (key c) with
  | error e => simpa only [State.loaded, hload] using h.finish
  | ok cached =>
    cases fetched with
    | none => simpa only [State.loaded, hload] using h.finish
    | some result =>
      simp only [State.loaded, hload]
      split_ifs
      · exact h.finish
      · exact h.prepare keyring result

/-- A write whose content differs from the file in its own key only. -/
theorem Inv.save (h : Inv key s) {file : List CachedToken} {entry : Option CachedToken}
    (hfile : ∀ k, file.find? (·.key = k) = if k = key c then entry else s.file.find? (·.key = k)) :
    Inv key (s.save c (key c) file entry) where
  right k := by
    show file.find? (·.key = k) = Function.update s.last (key c) entry k
    rw [hfile]
    split_ifs with hk
    · rw [hk, Function.update_self]
    · rw [Function.update_of_ne hk]
      exact h.right k
  owned := h.finish.owned

theorem inv_write (h : Inv key s) (hclean : Clean key s (.write c)) :
    Inv key (step kind key s (.write c)) := by
  rw [step]
  split
  · rename_i tokens entry hseen
    have howned : entry.key = key c := by
      have hphase := h.owned c
      rwa [hseen] at hphase
    refine h.save fun k => ?_
    rw [find?_putEntry, howned]
    split_ifs with hk
    · rfl
    · exact hclean tokens (some entry) hseen k hk
  · rename_i tokens hseen
    refine h.save fun k => ?_
    rw [find?_removeKey]
    split_ifs with hk
    · rfl
    · exact hclean tokens none hseen k hk
  · exact h

theorem inv_step {a : Step τ} (h : Inv key s) (hclean : Clean key s a) :
    Inv key (step kind key s a) := by
  cases a with
  | lock c =>
    rw [step]
    split_ifs
    · exact ⟨h.right, (h.setPhase (c := c) (p := .locked) trivial).owned⟩
    · exact h
  | load c now keyring fetched =>
    rw [step]
    split_ifs
    · exact h.loaded now keyring fetched
    · exact h
  | fetched c keyring result =>
    rw [step]
    split_ifs
    · exact h.prepare keyring result
    · exact h
  | read c =>
    rw [step]
    split
    · rename_i entry hsaving
      have howned := h.owned c
      rw [hsaving] at howned
      exact h.setPhase howned
    · split_ifs
      · exact h.setPhase trivial
      · exact h.finish
      · exact h
    · exact h
  | write c => exact inv_write h hclean
  | fail c => exact h.finish

/-- A write that does not know the entry of another key brings back an old one, or none. -/
theorem not_right_step {a : Step τ} (h : Inv key s) (hclean : ¬ Clean key s a) :
    ¬ (step kind key s a).Right := by
  intro hright
  cases a with
  | write c =>
    simp only [Clean, not_forall] at hclean
    obtain ⟨tokens, entry, hseen, k, hk, hchanged⟩ := hclean
    refine hchanged ((Eq.trans ?_ (hright k)).trans ?_)
    · cases entry with
      | some entry =>
        have howned : entry.key = key c := by
          have hphase := h.owned c
          rwa [hseen] at hphase
        simp only [step, hseen, State.save, find?_putEntry, howned, if_neg hk]
      | none => simp only [step, hseen, State.save, find?_removeKey, if_neg hk]
    · cases entry <;>
        simp only [step, hseen, State.save, Function.update_of_ne hk, h.right k]
  | lock c => exact hclean trivial
  | load c now keyring fetched => exact hclean trivial
  | fetched c keyring result => exact hclean trivial
  | read c => exact hclean trivial
  | fail c => exact hclean trivial

/-- The file holds the entries saved last all along a run exactly if no call writes it behind a
change of another key that it has not read. -/
theorem token_cache_right_iff {τ : Type} [DecidableEq τ] (kind : τ → CallKind)
    (key : τ → String) (file : List CachedToken) (steps : List (Step τ)) :
    (∀ front, front <+: steps → (Runs.run (step kind key) (.start file) front).Right) ↔
      ∀ front a, front ++ [a] <+: steps →
        Clean key (Runs.run (step kind key) (.start file) front) a :=
  Runs.holds_along_iff (step kind key) (Inv key) State.Right (Clean key) (fun _ h => h.right)
    (fun _ _ => inv_step) (fun _ _ => not_right_step) (inv_start key file) steps

/-- Two interactive fetches for different keys read the empty file before either writes. -/
theorem save_loses_other_key :
    ¬ (Runs.run (step (fun _ => .save) fun c : Bool => if c then "k1" else "k2") (.start [])
      [.fetched true ⟨false, .error (.crypto ""), fun _ => Vector.replicate 12 0⟩
          ⟨"t1", "r1", "Bearer", "", 0⟩,
        .fetched false ⟨false, .error (.crypto ""), fun _ => Vector.replicate 12 0⟩
          ⟨"t2", "r2", "Bearer", "", 0⟩,
        .read true, .read false, .write true, .write false]).Right := by
  intro hright
  exact absurd (hright "k1") (by decide)

end Voleeo.OAuth
