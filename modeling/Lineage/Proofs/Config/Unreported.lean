/-
Lineage.Proofs.Config.Unreported — how a step of reading settings fails
without being about a value.

A failure that is about a value is told to the user; any other ends the
program.  A step of several fails so if its first part does, or if that
goes well and the rest fails so (`unreported_bind_iff`), which takes every
step apart.  A YAML file can fail to be read by another fault than of a
value, its name can be too long, and a policy file can be absent or a
directory; a variable can hold a document nested too deep; mappings can
be nested too deep to be laid over one another or to be copied; policies
can come from something that is no path.  That is all
(`unreported_readLayer_iff`, `unreported_lay_iff`,
`unreported_loadPoliciesFrom_iff`).
-/
import Lineage.Proofs.Config.Checks
import Lineage.Proofs.Config.Sources
import Lineage.Proofs.Config.Variables
import Lineage.Proofs.Files.Loading
import Lineage.Proofs.Group.Misfits
import Lineage.Proofs.Outcome
import Lineage.Proofs.Value.Overlapping

namespace Lineage

variable {α β : Type}

/-! ## Steps that fail unreported -/

/-- A step fails, and not because of a value. -/
def Unreported (x : Except Failure α) (failure : Failure) : Prop :=
  x = .error failure ∧ failure.concernsValue = false

section Steps

variable {x : Except Failure α} {failure : Failure}

@[simp] theorem not_unreported_ok {a : α} : ¬ Unreported (.ok a) failure := by
  simp [Unreported]

@[simp] theorem unreported_error_iff {e : Failure} :
    Unreported (.error e : Except Failure α) failure
      ↔ e = failure ∧ failure.concernsValue = false := by
  simp [Unreported]

theorem unreported_error_of {e : Failure} (h : e.concernsValue = false) :
    Unreported (.error e : Except Failure α) failure ↔ failure = e := by
  rw [unreported_error_iff]
  constructor
  · exact fun h => h.1.symm
  · rintro rfl
    exact ⟨rfl, h⟩

theorem not_unreported_of_value {e : Failure} (h : e.concernsValue = true) :
    ¬ Unreported (.error e : Except Failure α) failure := by
  rw [unreported_error_iff]
  rintro ⟨rfl, hvalue⟩
  rw [h] at hvalue
  cases hvalue

/-- Of two steps the first fails, or it goes well and the second fails. -/
theorem unreported_bind_iff {f : α → Except Failure β} :
    Unreported (x >>= f) failure
      ↔ Unreported x failure ∨ ∃ a, x = .ok a ∧ Unreported (f a) failure := by
  cases x <;> simp [bind, Except.bind]

theorem unreported_map_iff {f : α → β} : Unreported (x.map f) failure ↔ Unreported x failure := by
  cases x <;> simp [Except.map]

/-- A fault that is passed on as a failure of some kind. -/
theorem unreported_mapError_iff {ε : Type} {y : Except ε α} {failed : ε → Failure} :
    Unreported (y.mapError failed) failure
      ↔ ∃ e, y = .error e ∧ (failed e).concernsValue = false ∧ failure = failed e := by
  cases y with
  | ok a => simp [Except.mapError]
  | error e =>
    simp only [Except.mapError, unreported_error_iff, Except.error.injEq, exists_eq_left']
    constructor
    · rintro ⟨rfl, h⟩
      exact ⟨h, rfl⟩
    · rintro ⟨h, rfl⟩
      exact ⟨rfl, h⟩

/-- What is reported as a fault of the settings is about a value before
and after, and all else stays as it is. -/
theorem unreported_reported_iff :
    Unreported (x.mapError Settings.reported) failure ↔ Unreported x failure := by
  cases x with
  | ok a => simp [Except.mapError]
  | error e =>
    simp only [Except.mapError, unreported_error_iff]
    unfold Settings.reported
    split
    · rfl
    · split_ifs with hvalue
      · refine iff_of_false ?_ ?_
        · rintro ⟨rfl, h⟩
          cases h
        · rintro ⟨rfl, h⟩
          rw [hvalue] at h
          cases h
      · rfl

/-- The faults of fields are about values, so only a misfit would not be
reported. -/
theorem not_unreported_checked {x : Schema.Checked α} {model : Schema.Model}
    (hmisfit : ¬ ∃ m, x = .misfit m) :
    ¬ Unreported ((x.toExcept model).mapError .rejected) failure := by
  cases x with
  | ok a => exact not_unreported_ok
  | faulty items => exact not_unreported_of_value rfl
  | misfit m => exact absurd ⟨m, rfl⟩ hmisfit

end Steps

/-! ## Files -/

namespace Files

variable {f : Files} {p : Path} {fault : FileFault}

/-- Looking for an entry can only fail over the length of a name. -/
theorem exists_of_find?_eq_error (h : f.find? p = .error fault) :
    ∃ q, fault = .nameTooLong q := by
  unfold find? at h
  split at h
  · cases h
  · cases h
    exact ⟨_, rfl⟩
  · cases h

theorem exists_of_has_eq_error (h : f.has p = .error fault) : ∃ q, fault = .nameTooLong q := by
  unfold has at h
  cases hfind : f.find? p with
  | ok entry =>
    rw [hfind] at h
    cases h
  | error e =>
    rw [hfind] at h
    exact Except.error.inj h ▸ exists_of_find?_eq_error hfind

theorem exists_of_hasFile_eq_error (h : f.hasFile p = .error fault) :
    ∃ q, fault = .nameTooLong q := by
  unfold hasFile at h
  cases hfind : f.find? p with
  | ok entry =>
    rw [hfind] at h
    cases h
  | error e =>
    rw [hfind] at h
    exact Except.error.inj h ▸ exists_of_find?_eq_error hfind

/-- A file is there exactly if its bytes can be read. -/
theorem hasFile_iff : f.hasFile p = .ok true ↔ ∃ bytes, f.readBytes p = .ok bytes := by
  unfold hasFile readBytes
  cases f.find? p with
  | error fault => simp [Except.map]
  | ok entry =>
    cases entry with
    | none => simp [Except.map]
    | some entry => cases entry <;> simp [Except.map]

theorem exists_readBytes_of_readText {cs : List Char} (h : f.readText p = .ok cs) :
    ∃ bytes, f.readBytes p = .ok bytes := by
  unfold readText at h
  split at h
  · cases h
  · exact ⟨_, by assumption⟩

theorem has_of_isDirectory (h : f.readBytes p = .error (.isDirectory p)) : f.has p = .ok true := by
  unfold readBytes at h
  unfold has
  split at h
  · rename_i hfind
    obtain ⟨q, rfl⟩ := exists_of_find?_eq_error hfind
    cases h
  · cases h
  · rename_i hfind
    rw [hfind]
    rfl
  · cases h

/-- The bytes of an entry that is there cannot be read only if it is a
directory. -/
theorem eq_isDirectory_of_readBytes (hhas : f.has p = .ok true) (h : f.readBytes p = .error fault) :
    fault = .isDirectory p := by
  unfold has at hhas
  unfold readBytes at h
  cases hfind : f.find? p with
  | error e =>
    rw [hfind] at hhas
    cases hhas
  | ok entry =>
    rw [hfind] at h hhas
    cases entry with
    | none => cases hhas
    | some entry =>
      cases entry with
      | file bytes => cases h
      | directory => exact (Except.error.inj h).symm

end Files

namespace Config

variable {f : Files} {p : Path} {vars : Variables} {failure : Failure}

/-- Policies hold no lists that a check could not handle. -/
theorem checkPolicies_ne_misfit (fields : Fields) :
    ¬ ∃ m, Policies.checkFields fields = .misfit m := by
  rw [Policies.checkFields]
  simp only [Schema.Checked.exists_misfit_of_seq_iff, Schema.Checked.exists_misfit_of_map_iff,
    Schema.optional_ne_misfit, Schema.exists_misfit_of_optionalChecked_iff, false_or]
  rintro ⟨_, v, -, h⟩
  revert h
  unfold GroupPolicy.checkValue
  split
  · simp only [Schema.Checked.exists_misfit_of_seq_iff, Schema.Checked.exists_misfit_of_map_iff,
      Schema.optional_ne_misfit, or_self]
    exact id
  · simp

/-! ## YAML files -/

theorem unreported_yaml_iff {v : Except Yaml.Fault Graph} :
    Unreported (v.mapError .yaml) failure
      ↔ ∃ fault, v = .error fault ∧ fault.kind ≠ .value ∧ failure = .yaml fault := by
  rw [unreported_mapError_iff]
  simp [Failure.concernsValue]

section Yaml

variable [YamlReader]

/-- The text of a file cannot be read as YAML, with a fault that is none
of a value. -/
inductive OffYaml (f : Files) (p : Path) : Failure → Prop
  | intro {cs : List Char} {fault : Yaml.Fault} (htext : f.readText p = .ok cs)
      (h : YamlReader.read cs = .error fault) (hkind : fault.kind ≠ .value) :
      OffYaml f p (.yaml fault)

/-- A YAML file cannot be opened, or breaks YAML. -/
theorem unreported_readYaml_iff :
    Unreported (readYaml f p) failure
      ↔ (∃ fault, f.readBytes p = .error fault ∧ fault.concernsValue = false
          ∧ failure = .file fault)
        ∨ OffYaml f p failure := by
  have hoff : OffYaml f p failure ↔ ∃ cs, f.readText p = .ok cs ∧
      Unreported ((YamlReader.read cs).mapError .yaml) failure := by
    simp only [unreported_yaml_iff]
    constructor
    · rintro ⟨htext, h, hkind⟩
      exact ⟨_, htext, _, h, hkind, rfl⟩
    · rintro ⟨cs, htext, fault, h, hkind, rfl⟩
      exact ⟨htext, h, hkind⟩
  rw [hoff, readYaml]
  unfold Files.readText
  cases f.readBytes p with
  | error fault =>
    simp only [unreported_error_iff, Except.error.injEq, exists_eq_left', reduceCtorEq, false_and,
      exists_false, or_false]
    constructor
    · rintro ⟨rfl, h⟩
      exact ⟨h, rfl⟩
    · rintro ⟨h, rfl⟩
      exact ⟨rfl, h⟩
  | ok bytes =>
    dsimp only
    cases Text.Utf8.decodeAll bytes with
    | error fault =>
      simp only [unreported_error_iff, reduceCtorEq, false_and, exists_false, or_false, iff_false,
        not_and]
      rintro rfl h
      cases h
    | ok cs => simp

theorem OffYaml.exists_readBytes (h : OffYaml f p failure) :
    ∃ bytes, f.readBytes p = .ok bytes := by
  cases h with
  | intro htext _ _ => exact Files.exists_readBytes_of_readText htext

/-- Reading a configuration file fails without being about a value: its
name is too long, or it breaks YAML. -/
inductive LayerAstray (f : Files) (p : Path) : Failure → Prop
  | nameTooLong {q : Path} (h : f.hasFile p = .error (.nameTooLong q)) :
      LayerAstray f p (.file (.nameTooLong q))
  | yaml {failure : Failure} (h : OffYaml f p failure) : LayerAstray f p failure

/-- A file that holds no mapping is a fault of a value. -/
theorem unreported_readLayer_iff :
    Unreported (readLayer f p) failure ↔ LayerAstray f p failure := by
  constructor
  · rintro ⟨h, hvalue⟩
    unfold readLayer at h
    split at h
    · rename_i hfile
      obtain ⟨q, rfl⟩ := Files.exists_of_hasFile_eq_error hfile
      cases h
      exact .nameTooLong hfile
    · cases h
    · rename_i hfile
      split at h
      · rename_i hread
        cases h
        rcases unreported_readYaml_iff.mp ⟨hread, hvalue⟩ with ⟨_, hbytes, -⟩ | hyaml
        · obtain ⟨_, hthere⟩ := Files.hasFile_iff.mp hfile
          rw [hbytes] at hthere
          cases hthere
        · exact .yaml hyaml
      · split at h
        · cases h
        · split at h
          · cases h
          · cases h
            cases hvalue
  · intro h
    cases h with
    | nameTooLong h => exact ⟨by rw [readLayer, h], rfl⟩
    | yaml h =>
      obtain ⟨hread, hvalue⟩ := unreported_readYaml_iff.mpr (.inr h)
      exact ⟨by rw [readLayer, Files.hasFile_iff.mpr h.exists_readBytes, hread], hvalue⟩

/-- Reading a policy file fails without being about a value: the file is
not there or is a directory, its name is too long, or it breaks YAML. -/
inductive PolicyFileAstray (f : Files) (p : Path) : Failure → Prop
  | nameTooLong {q : Path} (h : f.has p = .error (.nameTooLong q)) :
      PolicyFileAstray f p (.file (.nameTooLong q))
  | absent (h : f.has p = .ok false) : PolicyFileAstray f p (.absent .policies p)
  | directory (h : f.readBytes p = .error (.isDirectory p)) :
      PolicyFileAstray f p (.file (.isDirectory p))
  | yaml {failure : Failure} (h : OffYaml f p failure) : PolicyFileAstray f p failure

theorem unreported_readPolicyFile_iff :
    Unreported (readPolicyFile f p) failure ↔ PolicyFileAstray f p failure := by
  constructor
  · rintro ⟨h, hvalue⟩
    unfold readPolicyFile at h
    split at h
    · rename_i hhas
      obtain ⟨q, rfl⟩ := Files.exists_of_has_eq_error hhas
      cases h
      exact .nameTooLong hhas
    · rename_i hhas
      cases h
      exact .absent hhas
    · rename_i hhas
      split at h
      · rename_i hread
        cases h
        rcases unreported_readYaml_iff.mp ⟨hread, hvalue⟩ with ⟨_, hbytes, -, rfl⟩ | hyaml
        · obtain rfl := Files.eq_isDirectory_of_readBytes hhas hbytes
          exact .directory hbytes
        · exact .yaml hyaml
      · split at h
        · cases h
        · split at h
          · cases h
          · cases h
            cases hvalue
  · intro h
    cases h with
    | nameTooLong h => exact ⟨by rw [readPolicyFile, h], rfl⟩
    | absent h => exact ⟨by rw [readPolicyFile, h], rfl⟩
    | directory h =>
      obtain ⟨hread, hvalue⟩ := unreported_readYaml_iff.mpr (.inl ⟨_, h, rfl, rfl⟩)
      exact ⟨by rw [readPolicyFile, Files.has_of_isDirectory h, hread], hvalue⟩
    | yaml h =>
      obtain ⟨_, hbytes⟩ := h.exists_readBytes
      obtain ⟨hread, hvalue⟩ := unreported_readYaml_iff.mpr (.inr h)
      exact ⟨by rw [readPolicyFile, Files.has_of_readBytes hbytes, hread], hvalue⟩

end Yaml

/-! ## Laying -/

variable [Stack]

/-- Mappings cannot be laid over one another exactly if they hold mappings
under the same names, more of them within one another than there is room
for. -/
theorem unreported_lay_iff {routine : Routine} {lower upper : Mapping} :
    Unreported (lay routine lower upper) failure
      ↔ lower.Overlaps (Stack.room routine) upper ∧ failure = .tooDeep routine := by
  rw [← Mapping.lay_eq_none_iff, lay]
  cases lower.lay (Stack.room routine) upper with
  | some m => simp
  | none =>
    rw [eq_self_iff_true, true_and]
    exact unreported_error_of rfl

/-! ## Policies -/

/-- A document nested too deep is the only fault of a policy variable
that is not about a value. -/
theorem unreported_plantVariable_iff {h : Heap} {root : Nat} {e : List Text × Text} :
    Unreported (Variables.plantVariable h root e) failure
      ↔ ∃ fault, Json.readWithin (Stack.room .readPolicy) e.2 = .error fault
        ∧ fault.cause.kind = .depth ∧ failure = .json fault := by
  have hcrossing (v : Value) : ¬ Unreported
      (((h.plant v).1.enter root e.1 (h.plant v).2).mapError .crossing) failure := by
    rw [unreported_mapError_iff]
    rintro ⟨c, -, hvalue, -⟩
    cases hvalue
  simp only [Variables.plantVariable, unreported_bind_iff, hcrossing, and_false, exists_false,
    or_false, unreported_mapError_iff, Variables.decode_eq_error_iff]
  constructor
  · rintro ⟨fault, hlimit, hvalue, rfl⟩
    exact ⟨fault, hlimit.read_eq, by simpa [Failure.concernsValue] using hvalue, rfl⟩
  · rintro ⟨fault, hread, hdepth, rfl⟩
    refine ⟨fault, ⟨hread, ?_⟩, by simp [Failure.concernsValue, hdepth], rfl⟩
    rw [hdepth]
    decide

/-- The first document nested too deep ends a run of variables, unless one
before it is refused. -/
theorem unreported_enterPlanted_iff {h : Heap} {root : Nat} {entries : List (List Text × Text)} :
    Unreported (Variables.enterPlanted h root entries) failure
      ↔ ∃ before path text after entered fault, entries = before ++ (path, text) :: after
        ∧ Variables.enterPlanted h root before = .ok entered
        ∧ Json.readWithin (Stack.room .readPolicy) text = .error fault
        ∧ fault.cause.kind = .depth ∧ failure = .json fault := by
  induction entries generalizing h with
  | nil => simp [Variables.enterPlanted]
  | cons e rest ih =>
    rw [Variables.enterPlanted_cons, unreported_bind_iff, unreported_plantVariable_iff]
    simp only [ih]
    constructor
    · rintro (⟨fault, hread, hdepth, rfl⟩
        | ⟨made, hmade, before, path, text, after, entered, fault, rfl, hbefore, h⟩)
      · exact ⟨[], e.1, e.2, rest, h, fault, rfl, rfl, hread, hdepth, rfl⟩
      · refine ⟨e :: before, path, text, after, entered, fault, rfl, ?_, h⟩
        rw [Variables.enterPlanted_cons]
        exact bind_eq_ok_iff.mpr ⟨made, hmade, hbefore⟩
    · rintro ⟨before, path, text, after, entered, fault, heq, hbefore, h⟩
      cases before with
      | nil =>
        obtain ⟨rfl, rfl⟩ := List.cons.inj heq
        exact .inl ⟨fault, h⟩
      | cons first before =>
        obtain ⟨rfl, rfl⟩ := List.cons.inj heq
        rw [Variables.enterPlanted_cons] at hbefore
        obtain ⟨made, hmade, hbefore⟩ := bind_eq_ok_iff.mp hbefore
        exact .inr ⟨made, hmade, before, path, text, after, entered, fault, rfl, hbefore, h⟩

section Loading

variable [YamlReader]

/-- Reading policies fails without being about a value: they come from
nothing that can be a path or from a mapping nested too deep, their file
cannot be read, or a variable holds a document nested too deep. -/
inductive PoliciesAstray (f : Files) (vars : Variables) (source : Graph) : Failure → Prop
  | source (hobject : source.mapping? = none) (htext : ∀ t, source.root ≠ .scalar (.text t)) :
      PoliciesAstray f vars source (.noPath (source.heap.kindWord source.root))
  | copy {m : Mapping} (hobject : source.mapping? = some m)
      (h : m.heap.copies (Stack.room .copy) m.links = false) :
      PoliciesAstray f vars source (.tooDeep .copy)
  | file {t : Text} {failure : Failure} (ht : source.root = .scalar (.text t))
      (h : PolicyFileAstray f (Path.ofText t) failure) : PoliciesAstray f vars source failure
  | nested {h entered : Heap} {root : Nat} {before after : List (List Text × Text)}
      {path : List Text} {text : Text} {fault : Json.Fault}
      (hsource : policySource f source = .ok (h, root))
      (hpaths : vars.pathsOf Variables.policyStart = before ++ (path, text) :: after)
      (hbefore : Variables.enterPlanted h root before = .ok entered)
      (h : Json.readWithin (Stack.room .readPolicy) text = .error fault)
      (hdepth : fault.cause.kind = .depth) : PoliciesAstray f vars source (.json fault)

theorem unreported_policySource_iff {source : Graph} :
    Unreported (policySource f source) failure
      ↔ (source.mapping? = none ∧ (∀ t, source.root ≠ .scalar (.text t))
          ∧ failure = .noPath (source.heap.kindWord source.root))
        ∨ (∃ m, source.mapping? = some m ∧ m.heap.copies (Stack.room .copy) m.links = false
          ∧ failure = .tooDeep .copy)
        ∨ ∃ t, source.root = .scalar (.text t)
          ∧ PolicyFileAstray f (Path.ofText t) failure := by
  have hobject (t : Text) (ht : source.root = .scalar (.text t)) : source.mapping? = none := by
    cases hmapping : source.mapping? with
    | none => rfl
    | some m =>
      obtain ⟨-, hlinks⟩ := Graph.of_mapping? hmapping
      rw [ht] at hlinks
      cases hlinks
  unfold policySource
  cases hmapping : source.mapping? with
  | some m =>
    have htext (t : Text) : source.root ≠ .scalar (.text t) := fun ht => by
      rw [hobject t ht] at hmapping
      cases hmapping
    cases hcopies : m.heap.copies (Stack.room .copy) m.links with
    | true => simp [hcopies, htext]
    | false =>
      have herror : Unreported (.error (.tooDeep .copy) : Except Failure (Heap × Nat)) failure
          ↔ failure = .tooDeep .copy :=
        unreported_error_of rfl
      simpa [hcopies, htext] using herror
  | none =>
    dsimp only
    split
    · rename_i t ht
      simp [ht, unreported_readPolicyFile_iff]
    · rename_i htext
      have htext : ∀ t, source.root ≠ .scalar (.text t) := htext
      rw [unreported_error_of rfl]
      simp [htext]

theorem unreported_loadPoliciesFrom_iff {model : Schema.Model} {source : Graph} :
    Unreported (loadPoliciesFrom f vars model source) failure
      ↔ PoliciesAstray f vars source failure := by
  have hsteps : loadPoliciesFrom f vars model source
      = policySource f source >>= fun r => vars.policiesIn r.1 r.2 >>= fun h =>
        ((Policies.checkFields (policyFields h r.2)).toExcept model).mapError .rejected := by
    rw [loadPoliciesFrom]
    cases policySource f source with
    | error e => rfl
    | ok r =>
      dsimp only [bind, Except.bind]
      cases vars.policiesIn r.1 r.2 <;> rfl
  rw [hsteps, unreported_bind_iff, unreported_policySource_iff]
  constructor
  · rintro ((⟨hobject, htext, rfl⟩ | ⟨m, hobject, hcopies, rfl⟩ | ⟨t, ht, h⟩) | ⟨r, hsource, h⟩)
    · exact .source hobject htext
    · exact .copy hobject hcopies
    · exact .file ht h
    · rcases unreported_bind_iff.mp h with h | ⟨entered, -, h⟩
      · obtain ⟨_, _, _, _, _, _, hpaths, hbefore, hread, hdepth, rfl⟩ :=
          unreported_enterPlanted_iff.mp h
        exact .nested hsource hpaths hbefore hread hdepth
      · exact absurd h (not_unreported_checked (checkPolicies_ne_misfit _))
  · intro h
    cases h with
    | source hobject htext => exact .inl (.inl ⟨hobject, htext, rfl⟩)
    | copy hobject hcopies => exact .inl (.inr (.inl ⟨_, hobject, hcopies, rfl⟩))
    | file ht h => exact .inl (.inr (.inr ⟨_, ht, h⟩))
    | nested hsource hpaths hbefore hread hdepth =>
      exact .inr ⟨_, hsource, unreported_bind_iff.mpr (.inl (unreported_enterPlanted_iff.mpr
        ⟨_, _, _, _, _, _, hpaths, hbefore, hread, hdepth, rfl⟩))⟩

end Loading

end Config

end Lineage
