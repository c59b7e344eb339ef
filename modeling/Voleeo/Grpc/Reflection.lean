import Mathlib.Data.String.Basic
import Voleeo.Fallible
import Voleeo.OrderedMap
import Voleeo.StableSort

/-!
# Reflection

The descriptors of a server are collected by asking the server for them: the files of each service,
and then, as long as a file names a dependency that is not there, the files by their names. The
server may answer anything at all. Each name is asked for once, so that the loop ends.
-/
namespace Voleeo.Grpc
open Fallible (Outcome get modify throw)

/-- What is read of a `FileDescriptorProto`. -/
structure FileDescriptor where
  name : Option String
  dependency : List String

inductive MessageRequest
  | listServices
  | fileContainingSymbol (symbol : String)
  | fileByFilename (name : String)
  deriving DecidableEq, Repr

inductive MessageResponse (β : Type)
  | listServices (service : List String)
  | fileDescriptor (files : List β)
  | error (message : String)
  /-- A response to another request. -/
  | other

inductive Failure
  | status (message : String)
  /-- A loop that was cut off. -/
  | outOfFuel
  deriving DecidableEq, Repr

/-- The requests so far with their responses; a request may fail. -/
abbrev Log (β : Type) := List (MessageRequest × Except String (MessageResponse β))

/-- A server may look at everything that was asked and answered before. -/
abbrev Server (β : Type) := Log β → MessageRequest → Except String (MessageResponse β)

/-- Files under their names. The order of the source's map is not specified, and nothing here
depends on it. -/
abbrev Files (β : Type) := OrderedMap String β

abbrev Collect (β α : Type) := Fallible (Log β) Failure α

variable {β : Type} (decode : β → Option FileDescriptor) (server : Server β)

/-! ## The collection -/

def reflectOnce (request : MessageRequest) : Collect β (MessageResponse β) := do
  let log ← get
  let response := server log request
  modify fun log => log ++ [(request, response)]
  match response with
  | .error message => throw (.status message)
  | .ok response => return response

/-- The name that a file declares, if it can be decoded. -/
def declaredName (bytes : β) : Option String := (decode bytes).bind FileDescriptor.name

/-- A file that cannot be decoded or has no name is left out; the first file with a name stays. -/
def indexFile (files : Files β) (bytes : β) : Files β :=
  match declaredName decode bytes with
  | none => files
  | some name => if (files.get? name).isSome then files else files.set name bytes

def indexFiles (files : Files β) (raw : List β) : Files β := raw.foldl (indexFile decode) files

/-- Equal neighbours are taken once. -/
def dedup : List String → List String
  | [] => []
  | [a] => [a]
  | a :: b :: l => if a = b then dedup (b :: l) else a :: dedup (b :: l)

def missingDeps (files : Files β) : List String :=
  dedup (sortBy id (((files.values.filterMap decode).flatMap FileDescriptor.dependency).filter
    fun dep => (files.get? dep).isNone))

/-- The files of each service; a service without them is passed over. -/
def serviceFiles : List String → Files β → Collect β (Files β)
  | [], files => return files
  | service :: services, files => do
      match ← reflectOnce server (.fileContainingSymbol service) with
      | .fileDescriptor raw => serviceFiles services (indexFiles decode files raw)
      | _ => serviceFiles services files

/-- The dependencies are asked for one by one. -/
def requestDeps : List String → Files β → List String → Collect β (Files β × List String)
  | [], files, requested => return (files, requested)
  | dep :: fresh, files, requested => do
      match ← reflectOnce server (.fileByFilename dep) with
      | .fileDescriptor raw =>
        requestDeps fresh (indexFiles decode files raw) (requested ++ [dep])
      | .error message => throw (.status s!"reflection error for {dep}: {message}")
      | _ => throw (.status s!"expected FileDescriptorResponse for {dep}")

/-- The loop over the missing dependencies; `fuel` bounds its rounds. -/
def dependencyLoop : ℕ → Files β → List String → Collect β (Files β)
  | 0, _, _ => throw .outOfFuel
  | fuel + 1, files, requested =>
    let missing := missingDeps decode files
    if missing = [] then return files
    else
      let fresh := missing.filter fun dep => dep ∉ requested
      if fresh = [] then
        throw (.status ("reflection server never provided dependencies: " ++
          ", ".intercalate missing))
      else do
        let (files, requested) ← requestDeps decode server fresh files requested
        dependencyLoop fuel files requested

def collect (fuel : ℕ) : Collect β (List β) := do
  match ← reflectOnce server .listServices with
  | .listServices services =>
    let files ← serviceFiles decode server services .empty
    let files ← dependencyLoop decode server fuel files []
    return files.values
  | _ => throw (.status "expected ListServicesResponse")

/-! ## What the log says -/

/-- The files of the responses that were indexed, in the order in which they came. -/
def received (log : Log β) : List β :=
  log.flatMap fun p => match p.2 with
    | .ok (.fileDescriptor files) => files
    | _ => []

/-- The names that were asked for. -/
def askedNames (log : Log β) : List String :=
  log.filterMap fun p => match p.1 with
    | .fileByFilename name => some name
    | _ => none

/-- The first file that declares the name. -/
def firstDeclared (files : List β) (name : String) : Option β :=
  files.find? fun bytes => declaredName decode bytes = some name

/-- No file of the server names a dependency outside the list. -/
def FiniteDeps (names : List String) : Prop :=
  ∀ log request raw, server log request = .ok (.fileDescriptor raw) → ∀ bytes ∈ raw,
    ∀ file, decode bytes = some file → ∀ dep ∈ file.dependency, dep ∈ names

variable {decode} {server} {log : Log β} {files : Files β} {requested names : List String}
  {name : String} {raw : List β} {files' : Files β}

theorem received_concat (request : MessageRequest) (response : Except String (MessageResponse β)) :
    received (log ++ [(request, response)]) = received log ++ match response with
      | .ok (.fileDescriptor files) => files
      | _ => [] := by
  rw [received, List.flatMap_append, List.flatMap_singleton]
  rfl

theorem askedNames_concat (request : MessageRequest)
    (response : Except String (MessageResponse β)) :
    askedNames (log ++ [(request, response)]) = askedNames log ++ match request with
      | .fileByFilename name => [name]
      | _ => [] := by
  rw [askedNames, List.filterMap_append]
  cases request <;> rfl

theorem reflectOnce_outcome (request : MessageRequest) :
    Outcome (reflectOnce server request) log
      (fun response log' => server log request = .ok response ∧
        log' = log ++ [(request, .ok response)])
      (fun e log' => e ≠ .outOfFuel ∧ ∃ message, log' = log ++ [(request, .error message)]) := by
  rw [reflectOnce]
  refine .bind (.get (Q := fun before log' => log = before ∧ log = log') ⟨rfl, rfl⟩) ?_
  rintro _ _ ⟨rfl, rfl⟩
  refine .bind (.modify (Q := fun _ log' => log ++ [(request, server log request)] = log') rfl) ?_
  rintro _ _ rfl
  cases hresponse : server log request with
  | error message => exact .throw ⟨nofun, message, rfl⟩
  | ok response => exact .pure ⟨rfl, rfl⟩

/-! ## Indexing -/

theorem get?_indexFile (files : Files β) (bytes : β) (name : String) :
    (indexFile decode files bytes).get? name =
      (files.get? name).or (if declaredName decode bytes = some name then some bytes else none) := by
  rw [indexFile]
  cases hname : declaredName decode bytes with
  | none => simp
  | some other =>
    dsimp only
    split_ifs with hsome heq heq
    · obtain rfl := Option.some.inj heq
      obtain ⟨b, hb⟩ := Option.isSome_iff_exists.mp hsome
      rw [hb]
      rfl
    · rw [Option.or_none]
    · obtain rfl := Option.some.inj heq
      rw [OrderedMap.get?_set, if_pos rfl, Option.not_isSome_iff_eq_none.mp hsome, Option.none_or]
    · rw [OrderedMap.get?_set, if_neg fun h => heq (congrArg some h.symm), Option.or_none]

theorem get?_indexFiles (files : Files β) (raw : List β) (name : String) :
    (indexFiles decode files raw).get? name =
      (files.get? name).or (firstDeclared decode raw name) := by
  induction raw generalizing files with
  | nil => rw [firstDeclared, List.find?_nil, Option.or_none]; rfl
  | cons bytes raw ih =>
    have hstep : indexFiles decode files (bytes :: raw) =
      indexFiles decode (indexFile decode files bytes) raw := rfl
    rw [hstep, ih, get?_indexFile, Option.or_assoc, firstDeclared, firstDeclared, List.find?_cons]
    by_cases hname : declaredName decode bytes = some name
    · simp [hname]
    · simp [hname]

theorem firstDeclared_append (front back : List β) (name : String) :
    firstDeclared decode (front ++ back) name =
      (firstDeclared decode front name).or (firstDeclared decode back name) :=
  List.find?_append ..

/-! ## Missing dependencies -/

theorem mem_dedup {l : List String} {a : String} : a ∈ dedup l ↔ a ∈ l := by
  induction l using dedup.induct with
  | case1 => exact Iff.rfl
  | case2 b => exact Iff.rfl
  | case3 b l ih =>
    rw [dedup, if_pos rfl, ih]
    simp
  | case4 b c l hne ih => rw [dedup, if_neg hne, List.mem_cons, ih, ← List.mem_cons]

/-- Neighbours of a sorted list that are taken once are distinct from all others. -/
theorem dedup_strict {l : List String} (h : l.Pairwise (· ≤ ·)) : (dedup l).Pairwise (· < ·) := by
  induction l using dedup.induct with
  | case1 => exact .nil
  | case2 b => exact List.pairwise_singleton _ _
  | case3 b l ih =>
    rw [dedup, if_pos rfl]
    exact ih (List.pairwise_cons.mp h).2
  | case4 b c l hne ih =>
    obtain ⟨hb, hrest⟩ := List.pairwise_cons.mp h
    rw [dedup, if_neg hne]
    refine List.pairwise_cons.mpr ⟨fun a ha => ?_, ih hrest⟩
    have hlt : b < c := lt_of_le_of_ne (hb c List.mem_cons_self) hne
    rcases List.mem_cons.mp (mem_dedup.mp ha) with rfl | ha
    · exact hlt
    · exact hlt.trans_le ((List.pairwise_cons.mp hrest).1 a ha)

theorem nodup_missingDeps (files : Files β) : (missingDeps decode files).Nodup :=
  (dedup_strict (pairwise_sortBy id _)).imp fun h => h.ne

theorem mem_missingDeps {dep : String} : dep ∈ missingDeps decode files ↔
    (∃ bytes ∈ files.values, ∃ file, decode bytes = some file ∧ dep ∈ file.dependency) ∧
      files.get? dep = none := by
  rw [missingDeps, mem_dedup, mem_sortBy, List.mem_filter, List.mem_flatMap,
    Option.isNone_iff_eq_none]
  simp only [List.mem_filterMap]
  refine and_congr_left fun _ => ⟨?_, ?_⟩
  · rintro ⟨file, ⟨bytes, hbytes, hfile⟩, hdep⟩
    exact ⟨bytes, hbytes, file, hfile, hdep⟩
  · rintro ⟨bytes, hbytes, file, hfile, hdep⟩
    exact ⟨file, ⟨bytes, hbytes, hfile⟩, hdep⟩

/-! ## Runs -/

/-- What holds of log and files between two requests. -/
structure Collecting (decode : β → Option FileDescriptor) (server : Server β) (log : Log β)
    (files : Files β) : Prop where
  answered : ∀ p ∈ log, ∃ before, p.2 = server before p.1
  indexed : ∀ name, files.get? name = firstDeclared decode (received log) name

theorem Collecting.start : Collecting decode server [] .empty :=
  ⟨nofun, fun _ => rfl⟩

/-- A response that is taken as it came; files are indexed, all others change nothing. -/
theorem Collecting.received (h : Collecting decode server log files) {request : MessageRequest}
    {response : MessageResponse β} (hresponse : server log request = .ok response)
    (htaken : files' = match response with
      | .fileDescriptor raw => indexFiles decode files raw
      | _ => files) :
    Collecting decode server (log ++ [(request, .ok response)]) files' := by
  refine ⟨fun p hp => ?_, fun name => ?_⟩
  · rcases List.mem_append.mp hp with hp | hp
    · exact h.answered p hp
    · obtain rfl := List.mem_singleton.mp hp
      exact ⟨log, hresponse.symm⟩
  · rw [received_concat, firstDeclared_append, ← h.indexed, htaken]
    cases response with
    | fileDescriptor raw => exact get?_indexFiles files raw name
    | _ => exact (Option.or_none ..).symm

theorem Collecting.received_of_mem (h : Collecting decode server log files) {bytes : β}
    (hb : bytes ∈ files.values) :
    bytes ∈ Grpc.received log ∧ ∃ name, declaredName decode bytes = some name ∧
      files.get? name = some bytes := by
  obtain ⟨⟨name, _⟩, hentry, rfl⟩ := List.mem_map.mp hb
  have hget := OrderedMap.get?_eq_some.mpr hentry
  have hfirst := hget.symm.trans (h.indexed name)
  refine ⟨List.mem_of_find?_eq_some hfirst.symm, name, ?_, hget⟩
  simpa using List.find?_some hfirst.symm

/-- Dependencies of received files stay among the names of the server. -/
theorem Collecting.missing_mem (h : Collecting decode server log files)
    (hfinite : FiniteDeps decode server names) {dep : String}
    (hdep : dep ∈ missingDeps decode files) : dep ∈ names := by
  obtain ⟨⟨bytes, hbytes, file, hfile, hmem⟩, -⟩ := mem_missingDeps.mp hdep
  obtain ⟨⟨request, response⟩, hp, hin⟩ := List.mem_flatMap.mp (h.received_of_mem hbytes).1
  obtain ⟨before, hanswer⟩ := h.answered _ hp
  match response, hanswer, hin with
  | .ok (.fileDescriptor raw), hanswer, hin =>
    exact hfinite before request raw hanswer.symm bytes hin file hfile dep hmem

theorem serviceFiles_outcome {services : List String} (h : Collecting decode server log files)
    (hasked : askedNames log = []) :
    Outcome (serviceFiles decode server services files) log
      (fun files' log' => Collecting decode server log' files' ∧ askedNames log' = [])
      (fun e log' => e ≠ .outOfFuel ∧ askedNames log' = []) := by
  induction services generalizing files log with
  | nil => exact .pure ⟨h, hasked⟩
  | cons service services ih =>
    rw [serviceFiles]
    refine .bind (.mono (reflectOnce_outcome _) (fun _ _ hq => hq) ?_) ?_
    · rintro e _ ⟨hne, message, rfl⟩
      exact ⟨hne, by rw [askedNames_concat, hasked]; rfl⟩
    · rintro response _ ⟨hresponse, rfl⟩
      have hnext : askedNames (log ++ [(.fileContainingSymbol service, .ok response)]) = [] := by
        rw [askedNames_concat, hasked]
        rfl
      have hstep := h.received hresponse rfl
      cases response with
      | fileDescriptor raw => exact ih hstep hnext
      | listServices _ => exact ih hstep hnext
      | error _ => exact ih hstep hnext
      | other => exact ih hstep hnext

/-- Dependencies are asked for in order; an error leaves the last of them out. -/
theorem requestDeps_outcome {fresh : List String} (h : Collecting decode server log files)
    (hasked : askedNames log = requested) :
    Outcome (requestDeps decode server fresh files requested) log
      (fun r log' => Collecting decode server log' r.1 ∧ r.2 = requested ++ fresh ∧
        askedNames log' = r.2)
      (fun e log' => e ≠ .outOfFuel ∧ askedNames log' <+: requested ++ fresh) := by
  induction fresh generalizing files log requested with
  | nil => exact .pure ⟨h, (List.append_nil _).symm, hasked⟩
  | cons dep fresh ih =>
    have hnext : ∀ response, askedNames (log ++ [(.fileByFilename dep, response)]) =
        requested ++ [dep] := fun response => by rw [askedNames_concat, hasked]
    have happend : requested ++ dep :: fresh = requested ++ [dep] ++ fresh := by simp
    rw [requestDeps, happend]
    refine .bind (.mono (reflectOnce_outcome _) (fun _ _ hq => hq) ?_) ?_
    · rintro e _ ⟨hne, message, rfl⟩
      exact ⟨hne, by rw [hnext]; exact List.prefix_append _ _⟩
    · rintro response _ ⟨hresponse, rfl⟩
      have hstep := h.received hresponse rfl
      have hcut : askedNames (log ++ [(.fileByFilename dep, .ok response)]) <+:
          requested ++ [dep] ++ fresh := by
        rw [hnext]
        exact List.prefix_append _ _
      cases response with
      | fileDescriptor raw => exact ih hstep (hnext _)
      | listServices _ => exact .throw ⟨nofun, hcut⟩
      | error _ => exact .throw ⟨nofun, hcut⟩
      | other => exact .throw ⟨nofun, hcut⟩

/-- Each round asks for at least one new name, and all of them are names of the server. -/
theorem dependencyLoop_outcome {fuel : ℕ} (h : Collecting decode server log files)
    (hasked : askedNames log = requested) (hnodup : requested.Nodup) :
    Outcome (dependencyLoop decode server fuel files requested) log
      (fun files' log' => Collecting decode server log' files' ∧ (askedNames log').Nodup ∧
        missingDeps decode files' = [])
      (fun e log' => (askedNames log').Nodup ∧ ∀ names, FiniteDeps decode server names →
        requested ⊆ names → names.length < fuel + requested.length → e ≠ .outOfFuel) := by
  induction fuel generalizing files log requested with
  | zero =>
    refine .throw ⟨hasked ▸ hnodup, fun names _ hsub hlen => ?_⟩
    have hle := (List.subperm_of_subset hnodup hsub).length_le
    omega
  | succ fuel ih =>
    rw [dependencyLoop]
    dsimp only
    split_ifs with hmissing hfresh
    · exact .pure ⟨h, hasked ▸ hnodup, hmissing⟩
    · exact .throw ⟨hasked ▸ hnodup, fun _ _ _ _ => nofun⟩
    · have hnext : (requested ++ (missingDeps decode files).filter
          fun dep => dep ∉ requested).Nodup := by
        refine List.nodup_append.mpr ⟨hnodup, (nodup_missingDeps files).filter _, ?_⟩
        rintro a ha b hb rfl
        simpa [ha] using (List.mem_filter.mp hb).2
      refine .bind (.mono (requestDeps_outcome h hasked) (fun _ _ hq => hq) ?_) ?_
      · rintro e log' ⟨hne, hprefix⟩
        exact ⟨hnext.sublist hprefix.sublist, fun _ _ _ _ => hne⟩
      · rintro ⟨files', requested'⟩ log' ⟨hcollecting, hrequested, hasked'⟩
        dsimp only at hrequested hasked' hcollecting
        subst hrequested
        refine .mono (ih hcollecting hasked' hnext) (fun _ _ hq => hq) ?_
        rintro e log'' ⟨hdone, hlimit⟩
        refine ⟨hdone, fun names hfinite hsub hlen => hlimit names hfinite ?_ ?_⟩
        · intro dep hdep
          rcases List.mem_append.mp hdep with hdep | hdep
          · exact hsub hdep
          · exact h.missing_mem hfinite (List.mem_filter.mp hdep).1
        · have hpos := List.length_pos_iff.mpr hfresh
          rw [List.length_append]
          omega

/-- The end of a collection that began with nothing. -/
theorem collect_outcome (fuel : ℕ) :
    Outcome (collect decode server fuel) []
      (fun raw log => (askedNames log).Nodup ∧ ∃ files, Collecting decode server log files ∧
        missingDeps decode files = [] ∧ raw = files.values)
      (fun e log => (askedNames log).Nodup ∧ ∀ names, FiniteDeps decode server names →
        names.length < fuel → e ≠ .outOfFuel) := by
  rw [collect]
  refine .bind (.mono (reflectOnce_outcome _) (fun _ _ hq => hq) ?_) ?_
  · rintro e _ ⟨hne, message, rfl⟩
    exact ⟨.nil, fun _ _ _ => hne⟩
  · rintro response _ ⟨hresponse, rfl⟩
    have hempty : Collecting decode server [] .empty := .start
    have hstart := hempty.received hresponse rfl
    cases response with
    | listServices services =>
      refine .bind (.mono (serviceFiles_outcome hstart rfl) (fun _ _ hq => hq) ?_) ?_
      · rintro e log ⟨hne, hasked⟩
        exact ⟨hasked ▸ .nil, fun _ _ _ => hne⟩
      · rintro files log ⟨hfiles, hasked⟩
        refine .bind (.mono (dependencyLoop_outcome hfiles hasked .nil) (fun _ _ hq => hq) ?_) ?_
        · rintro e log' ⟨hdone, hlimit⟩
          exact ⟨hdone, fun names hfinite hlen =>
            hlimit names hfinite (List.nil_subset _) (by simpa using hlen)⟩
        · rintro files' log' ⟨hfiles', hdone, hmissing⟩
          exact .pure ⟨hdone, files', hfiles', hmissing, rfl⟩
    | fileDescriptor _ => exact .throw ⟨.nil, fun _ _ _ => nofun⟩
    | error _ => exact .throw ⟨.nil, fun _ _ _ => nofun⟩
    | other => exact .throw ⟨.nil, fun _ _ _ => nofun⟩

/-! ## The closed file set -/

/-- The files returned for the responses: dependencies are declared, each name by one file, and
each name by the first file that came with it. -/
structure ClosedFiles (decode : β → Option FileDescriptor) (log : Log β) (raw : List β) :
    Prop where
  closed : ∀ bytes ∈ raw, ∀ file, decode bytes = some file → ∀ dep ∈ file.dependency,
    ∃ other ∈ raw, declaredName decode other = some dep
  once : (raw.map (declaredName decode)).Nodup
  named : ∀ bytes ∈ raw, bytes ∈ received log ∧ declaredName decode bytes ≠ none
  first : ∀ name bytes, firstDeclared decode (received log) name = some bytes → bytes ∈ raw

theorem Collecting.closedFiles (h : Collecting decode server log files)
    (hmissing : missingDeps decode files = []) : ClosedFiles decode log files.values where
  closed bytes hbytes file hfile dep hdep := by
    have hpresent : files.get? dep ≠ none := fun hnone =>
      List.not_mem_nil (hmissing ▸ mem_missingDeps.mpr ⟨⟨bytes, hbytes, file, hfile, hdep⟩, hnone⟩)
    obtain ⟨other, hother⟩ := Option.ne_none_iff_exists'.mp hpresent
    refine ⟨other, List.mem_map.mpr ⟨_, OrderedMap.get?_eq_some.mp hother, rfl⟩, ?_⟩
    simpa using List.find?_some ((h.indexed dep).symm.trans hother)
  once := by
    have hkeys : files.values.map (declaredName decode) = files.keys.map some := by
      rw [OrderedMap.values, OrderedMap.keys, List.map_map, List.map_map]
      refine List.map_congr_left fun entry hentry => ?_
      obtain ⟨name, bytes⟩ := entry
      have hget := (h.indexed name).symm.trans (OrderedMap.get?_eq_some.mpr hentry)
      simpa using List.find?_some hget
    rw [hkeys]
    exact (OrderedMap.nodup_keys files).map (Option.some_injective _)
  named bytes hbytes := by
    obtain ⟨hreceived, name, hname, -⟩ := h.received_of_mem hbytes
    exact ⟨hreceived, by rw [hname]; exact Option.some_ne_none _⟩
  first name bytes hfirst :=
    List.mem_map.mpr ⟨_, OrderedMap.get?_eq_some.mp ((h.indexed name).trans hfirst), rfl⟩

/-- Whatever the server answers, no file is asked for twice, and what is returned is closed. If the
server names finitely many dependencies, the loop ends. -/
theorem collect_closed (fuel : ℕ) :
    (askedNames (collect decode server fuel []).2).Nodup ∧
    (∀ names, FiniteDeps decode server names → names.length < fuel →
      (collect decode server fuel []).1 ≠ .error .outOfFuel) ∧
    ∀ raw, (collect decode server fuel []).1 = .ok raw →
      ClosedFiles decode (collect decode server fuel []).2 raw := by
  have hrun := @collect_outcome _ decode server fuel
  match hend : collect decode server fuel [] with
  | (.ok raw, log) =>
      obtain ⟨hasked, files, hfiles, hmissing, rfl⟩ := hrun.of_ok hend
      refine ⟨hasked, fun _ _ _ => nofun, fun raw hraw => ?_⟩
      obtain rfl := Except.ok.inj hraw
      exact hfiles.closedFiles hmissing
  | (.error e, log) =>
      obtain ⟨hasked, hlimit⟩ := hrun.of_error hend
      refine ⟨hasked, fun names hfinite hlen heq => ?_, nofun⟩
      exact hlimit names hfinite hlen (Except.error.inj heq)

/-- All files of a response with names that no earlier response had are among the files. -/
def FirstResponsesKept (decode : β → Option FileDescriptor) (log : Log β) (raw : List β) : Prop :=
  ∀ front request files back, log = front ++ (request, .ok (.fileDescriptor files)) :: back →
    ∀ bytes ∈ files, ∀ name, declaredName decode bytes = some name →
      (∀ earlier ∈ received front, declaredName decode earlier ≠ some name) → bytes ∈ raw

/-- Two files with one name in one response: the second one is dropped. -/
theorem second_file_dropped : ¬ ∀ (decode : Bool → Option FileDescriptor) (server : Server Bool)
    (fuel : ℕ) (raw : List Bool) (log : Log Bool),
    collect decode server fuel [] = (.ok raw, log) → FirstResponsesKept decode log raw := by
  intro h
  let decode : Bool → Option FileDescriptor := fun _ => some ⟨some "a.proto", []⟩
  let server : Server Bool := fun _ request => match request with
    | .listServices => .ok (.listServices ["Service"])
    | _ => .ok (.fileDescriptor [false, true])
  let log : Log Bool := [(.listServices, .ok (.listServices ["Service"])),
    (.fileContainingSymbol "Service", .ok (.fileDescriptor [false, true]))]
  have hmissing : missingDeps decode (indexFiles decode .empty [false, true]) = [] :=
    List.eq_nil_iff_forall_not_mem.mpr fun dep hdep => by
      obtain ⟨⟨_, _, _, hfile, hmem⟩, -⟩ := mem_missingDeps.mp hdep
      obtain rfl := Option.some.inj hfile
      exact List.not_mem_nil hmem
  have hloop : ∀ log, dependencyLoop decode server 1 (indexFiles decode .empty [false, true]) []
      log = (.ok (indexFiles decode .empty [false, true]), log) := by
    intro log
    rw [dependencyLoop]
    dsimp only
    rw [if_pos hmissing]
    rfl
  have hrun : collect decode server 1 [] = (.ok [false], log) := by
    have hfirst : collect decode server 1 [] = (do
        let files ← dependencyLoop decode server 1 (indexFiles decode .empty [false, true]) []
        return files.values : Collect Bool (List Bool)) log := rfl
    rw [hfirst, Fallible.bind_eq_ok (hloop log)]
    rfl
  have hkept := h decode server 1 [false] log hrun
    [(.listServices, .ok (.listServices ["Service"]))] _ _ [] rfl true (by simp) "a.proto" rfl nofun
  simp at hkept

end Voleeo.Grpc
