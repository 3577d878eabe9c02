/-
Lineage.Proofs.Config.Astray — when reading settings fails without
telling.

Settings are read step by step: the variables for whole fields are
gathered with the arguments, then come the directory of the configuration
files, the default file, the file of the environment, the nested
variables, what all of them say together, the policies, and at last the
output directories are made.  `Astray` lists how each step can fail
without being about a value, where the steps before it went well, and that
is all there is (`unreported_loadFrom_iff`).  What the package does with
arguments that have names of its own is left to it.
-/
import Lineage.Proofs.Config.Sources
import Lineage.Proofs.Config.Unreported

namespace Lineage

namespace Settings

variable {s : Surroundings} {vars : Variables} {failure : Failure}

/-- Settings hold no lists that a check could not handle. -/
theorem checkFields_ne_misfit (home : Path) (policies : Policies) (fields : Fields) :
    ¬ ∃ m, checkFields home policies fields = .misfit m := by
  rw [checkFields]
  simp only [Schema.Checked.exists_misfit_of_seq_iff, Schema.Checked.exists_misfit_of_map_iff,
    Schema.optional_ne_misfit, Schema.exists_misfit_of_optionalChecked_iff, false_or, or_false]
  rintro (⟨_, v, -, h⟩ | ⟨m, h⟩)
  · revert h
    unfold checkPaths
    split
    · simp only [Schema.Checked.exists_misfit_of_seq_iff, Schema.Checked.exists_misfit_of_map_iff,
        Schema.optional_ne_misfit, or_self]
      exact id
    · simp
  · cases h

section Whole

variable [Stack]

/-! ## Variables for whole fields -/

theorem unreported_decodeField_iff {field : String} {raw : Text} :
    Unreported (decodeField field raw) failure
      ↔ ∃ fault, Json.readWithin (Stack.room .readField) raw = .error fault
        ∧ fault.cause.kind = .depth ∧ failure = .json fault := by
  unfold decodeField
  cases Json.readWithin (Stack.room .readField) raw with
  | ok v =>
    refine iff_of_false (fun h => ?_) (by simp)
    revert h
    split <;> simp_all
  | error fault =>
    dsimp only
    split_ifs with hdepth
    · rw [unreported_error_iff]
      constructor
      · rintro ⟨rfl, -⟩
        exact ⟨fault, rfl, hdepth, rfl⟩
      · rintro ⟨_, heq, -, rfl⟩
        obtain rfl := Except.error.inj heq
        exact ⟨rfl, by simp [Failure.concernsValue, hdepth]⟩
    · refine iff_of_false (not_unreported_of_value rfl) ?_
      rintro ⟨_, heq, h, -⟩
      rw [← Except.error.inj heq] at h
      exact hdepth h

/-- The value that the variable for a field gives to it. -/
def fieldVariable (vars : Variables) (field : String) : Except Failure (Option Value) :=
  match vars.field? field with
  | none => .ok none
  | some raw =>
    if (spellings field).isEmpty then .ok (some (.text raw)) else decodeField field raw

theorem fieldVariables_cons (field : String) (rest : List String) :
    fieldVariables vars (field :: rest)
      = fieldVariable vars field >>= fun found => (fieldVariables vars rest).map fun more =>
        (found.map fun v => (Scalar.text field, v)).toList ++ more := by
  rw [fieldVariables]
  split
  · rename_i e hfound
    rw [show fieldVariable vars field = .error e from hfound]
    rfl
  · rename_i hfound
    rw [show fieldVariable vars field = .ok none from hfound]
    cases fieldVariables vars rest <;> rfl
  · rename_i v hfound
    rw [show fieldVariable vars field = .ok (some v) from hfound]
    rfl

theorem unreported_fieldVariable_iff {field : String} :
    Unreported (fieldVariable vars field) failure
      ↔ ∃ raw fault, vars.field? field = some raw ∧ (spellings field).isEmpty = false
        ∧ Json.readWithin (Stack.room .readField) raw = .error fault
        ∧ fault.cause.kind = .depth ∧ failure = .json fault := by
  unfold fieldVariable
  cases vars.field? field with
  | none => simp
  | some raw =>
    dsimp only
    split_ifs with hplain
    · simp [hplain]
    · rw [unreported_decodeField_iff]
      simp [hplain]

/-- A document nested too deep is the only fault of a variable for a whole
field that is not about a value. -/
theorem unreported_fieldVariables_iff {fields : List String} :
    Unreported (fieldVariables vars fields) failure
      ↔ ∃ before field after whole, fields = before ++ field :: after
        ∧ fieldVariables vars before = .ok whole
        ∧ Unreported (fieldVariable vars field) failure := by
  induction fields with
  | nil => simp [fieldVariables]
  | cons field rest ih =>
    rw [fieldVariables_cons, unreported_bind_iff]
    constructor
    · rintro (h | ⟨found, hfound, h⟩)
      · exact ⟨[], field, rest, [], rfl, rfl, h⟩
      · obtain ⟨before, field', after, whole, rfl, hbefore, h⟩ := ih.mp (unreported_map_iff.mp h)
        have hmore : fieldVariables vars (field :: before)
            = .ok ((found.map fun v => (Scalar.text field, v)).toList ++ whole) := by
          rw [fieldVariables_cons, hfound]
          exact map_eq_ok_iff.mpr ⟨whole, hbefore, rfl⟩
        exact ⟨field :: before, field', after, _, rfl, hmore, h⟩
    · rintro ⟨before, field', after, whole, heq, hbefore, h⟩
      cases before with
      | nil =>
        obtain ⟨rfl, -⟩ := List.cons.inj heq
        exact .inl h
      | cons first before =>
        obtain ⟨rfl, rfl⟩ := List.cons.inj heq
        rw [fieldVariables_cons] at hbefore
        obtain ⟨found, hfound, hmore⟩ := bind_eq_ok_iff.mp hbefore
        obtain ⟨whole', hwhole', -⟩ := map_eq_ok_iff.mp hmore
        refine .inr ⟨found, hfound, unreported_map_iff.mpr (ih.mpr ?_)⟩
        exact ⟨before, field', after, whole', rfl, hwhole', h⟩

end Whole

/-! ## Output directories -/

/-- The path at which a directory of the settings is made. -/
def placed (site p : Path) : Path :=
  if p.isAbsolute then p else site.join p

/-- An output directory cannot be made, over what stands in its place. -/
inductive MakingAstray (s : Surroundings) (settings : Settings) : Failure → Prop
  | output {fault : FileFault} (hcreate : settings.createDirs = true)
      (h : (s.files.makeDirectory (placed s.site settings.paths.outputDir)).2 = some fault)
      (hfault : fault.concernsValue = false) : MakingAstray s settings (.file fault)
  | logs {files : Files} {fault : FileFault} (hcreate : settings.createDirs = true)
      (houtput : s.files.makeDirectory (placed s.site settings.paths.outputDir) = (files, none))
      (h : (files.makeDirectory (placed s.site settings.paths.logsDir)).2 = some fault)
      (hfault : fault.concernsValue = false) : MakingAstray s settings (.file fault)

theorem makeDirectory_cases (site : Path) (f : Files) (p : Path) :
    (∃ g, f.makeDirectory (placed site p) = (g, none)
        ∧ makeDirectory site f p = .ok (g, placed site p))
      ∨ ∃ g fault, f.makeDirectory (placed site p) = (g, some fault)
        ∧ makeDirectory site f p = .error (reported (.file fault)) := by
  unfold makeDirectory
  dsimp only
  rw [← placed]
  rcases f.makeDirectory (placed site p) with ⟨g, _ | fault⟩
  · exact .inl ⟨g, rfl, rfl⟩
  · exact .inr ⟨g, fault, rfl, rfl⟩

theorem unreported_makeDirectory_iff {site p : Path} {f : Files} :
    Unreported (makeDirectory site f p) failure
      ↔ ∃ fault, (f.makeDirectory (placed site p)).2 = some fault
        ∧ fault.concernsValue = false ∧ failure = .file fault := by
  rcases makeDirectory_cases site f p with ⟨g, hmade, hok⟩ | ⟨g, fault, hmade, herror⟩
  · simp [hmade, hok]
  · rw [hmade, herror]
    have hreported : Unreported (.error (reported (.file fault)) : Except Failure (Files × Path))
          failure
        ↔ Unreported (.error (.file fault) : Except Failure (Files × Path)) failure :=
      unreported_reported_iff (x := .error (.file fault))
    dsimp only
    rw [hreported, unreported_error_iff]
    constructor
    · rintro ⟨rfl, h⟩
      exact ⟨fault, rfl, h, rfl⟩
    · rintro ⟨_, heq, h, rfl⟩
      obtain rfl := Option.some.inj heq
      exact ⟨rfl, h⟩

theorem makeDirectory_eq_ok_iff {site p q : Path} {f g : Files} :
    makeDirectory site f p = .ok (g, q)
      ↔ f.makeDirectory (placed site p) = (g, none) ∧ placed site p = q := by
  rcases makeDirectory_cases site f p with ⟨g', hmade, hok⟩ | ⟨g', fault, hmade, herror⟩
  · simp [hmade, hok]
  · simp [hmade, herror]

theorem makeDirectories_eq_bind {settings : Settings} (h : settings.createDirs = true) :
    makeDirectories s settings
      = makeDirectory s.site s.files settings.paths.outputDir >>= fun r =>
        (makeDirectory s.site r.1 settings.paths.logsDir).map fun r' =>
          ({ settings with paths := ⟨r.2, r'.2⟩ }, r'.1) := by
  rw [makeDirectories, if_pos h]
  cases makeDirectory s.site s.files settings.paths.outputDir with
  | error e => rfl
  | ok r =>
    dsimp only [bind, Except.bind]
    cases makeDirectory s.site r.1 settings.paths.logsDir <;> rfl

theorem unreported_makeDirectories_iff {settings : Settings} :
    Unreported (makeDirectories s settings) failure ↔ MakingAstray s settings failure := by
  cases hcreate : settings.createDirs with
  | true =>
    rw [makeDirectories_eq_bind hcreate, unreported_bind_iff, unreported_makeDirectory_iff]
    simp only [unreported_map_iff, unreported_makeDirectory_iff, Prod.exists,
      makeDirectory_eq_ok_iff]
    constructor
    · rintro (⟨fault, h, hfault, rfl⟩ | ⟨files, _, ⟨houtput, -⟩, fault, h, hfault, rfl⟩)
      · exact .output hcreate h hfault
      · exact .logs hcreate houtput h hfault
    · intro h
      cases h with
      | output _ h hfault => exact .inl ⟨_, h, hfault, rfl⟩
      | logs _ houtput h hfault => exact .inr ⟨_, _, ⟨houtput, rfl⟩, _, h, hfault, rfl⟩
  | false =>
    have hmake : makeDirectories s settings = .ok (settings, s.files) := by
      rw [makeDirectories, if_neg (by simp [hcreate])]
    rw [hmake]
    refine iff_of_false not_unreported_ok fun h => ?_
    cases h with
    | output hmade _ _ => simp [hcreate] at hmade
    | logs hmade _ _ _ => simp [hcreate] at hmade

/-! ## Gathering -/

section Gathering

variable [Stack] {arguments : Mapping}

/-- Bringing the arguments and the variables for whole fields together
fails without being about a value: a variable holds a document nested too
deep, or there are too many mappings within one another to be laid over
each other. -/
inductive GatheringAstray (vars : Variables) (arguments : Mapping) : Failure → Prop
  | field {before after : List String} {field : String} {whole : Fields} {raw : Text}
      {fault : Json.Fault} (hfields : fieldNames = before ++ field :: after)
      (hbefore : fieldVariables vars before = .ok whole) (hraw : vars.field? field = some raw)
      (hnested : (spellings field).isEmpty = false)
      (h : Json.readWithin (Stack.room .readField) raw = .error fault)
      (hdepth : fault.cause.kind = .depth) : GatheringAstray vars arguments (.json fault)
  | overlap {whole : Fields} (hwhole : fieldVariables vars fieldNames = .ok whole)
      (h : (Mapping.ofFields whole).Overlaps (Stack.room .gather) arguments) :
      GatheringAstray vars arguments (.tooDeep .gather)

theorem unreported_gatherFields_iff :
    Unreported (gatherFields vars arguments) failure ↔ GatheringAstray vars arguments failure := by
  have hsteps : gatherFields vars arguments
      = fieldVariables vars fieldNames >>= fun whole =>
        Config.lay .gather (.ofFields whole) arguments := by
    rw [gatherFields]
    cases fieldVariables vars fieldNames <;> rfl
  simp only [hsteps, unreported_bind_iff, unreported_fieldVariables_iff, Config.unreported_lay_iff]
  constructor
  · rintro (⟨before, field, after, whole, hfields, hbefore, h⟩ | ⟨whole, hwhole, h, rfl⟩)
    · obtain ⟨raw, fault, hraw, hnested, hread, hdepth, rfl⟩ := unreported_fieldVariable_iff.mp h
      exact .field hfields hbefore hraw hnested hread hdepth
    · exact .overlap hwhole h
  · intro h
    cases h with
    | field hfields hbefore hraw hnested h hdepth =>
      exact .inl ⟨_, _, _, _, hfields, hbefore,
        unreported_fieldVariable_iff.mpr ⟨_, _, hraw, hnested, h, hdepth, rfl⟩⟩
    | overlap hwhole h => exact .inr ⟨_, hwhole, h, rfl⟩

end Gathering

/-! ## The layers -/

section Layers

variable {explicit : Mapping}

/-- The directory of the configuration files can be had unless it is
something that can be no path. -/
theorem unreported_layerDirectory_iff {home : Path} :
    Unreported (layerDirectory home explicit) failure
      ↔ ∃ g, explicit.get? (.text "config_dir") = some g ∧ (∀ t, g.root ≠ .scalar (.text t))
        ∧ g.heap.saysNothing g.root = false ∧ failure = .noPath (g.heap.kindWord g.root) := by
  unfold layerDirectory
  cases explicit.get? (.text "config_dir") with
  | none => simp
  | some g =>
    dsimp only
    split_ifs with hsaid
    · simp [hsaid]
    · split
      · rename_i t ht
        simp [ht]
      · rename_i htext
        have htext : ∀ t, g.root ≠ .scalar (.text t) := htext
        rw [unreported_error_of rfl]
        simp [htext, hsaid]

theorem unreported_nestedVariables_iff :
    Unreported (vars.nestedVariables.mapError .scalarOnPath) failure
      ↔ ∃ c, vars.nestedVariables = .error c ∧ failure = .scalarOnPath c := by
  rw [unreported_mapError_iff]
  simp [Failure.concernsValue]

variable [Stack]

/-- The name of the file can be had unless it is a value nested too deep
to be spelled. -/
theorem unreported_layerName_iff :
    Unreported (layerName vars explicit) failure
      ↔ ∃ g, explicit.get? (.text "environment") = some g ∧ g.heap.saysNothing g.root = false
        ∧ g.plainText (Stack.room .spell) = none ∧ failure = .tooDeep .spell := by
  unfold layerName
  cases explicit.get? (.text "environment") with
  | none => simp
  | some g =>
    dsimp only
    split_ifs with hsaid
    · simp [hsaid]
    · cases hspelled : g.plainText (Stack.room .spell) with
      | some name => simp [hspelled]
      | none =>
        dsimp only
        rw [unreported_error_of rfl]
        simp [hsaid, hspelled]

/-- Of mappings that are laid over one another, one holds too many under
names of those below it, within one another. -/
inductive LayingAstray (routine : Routine) (lower : Mapping) (layers : List Mapping) :
    Failure → Prop
  | intro {before after : List Mapping} {m laid : Mapping} (hlayers : layers = before ++ m :: after)
      (hbefore : Config.layAll routine lower before = .ok laid)
      (h : laid.Overlaps (Stack.room routine) m) :
      LayingAstray routine lower layers (.tooDeep routine)

theorem unreported_layAll_iff {routine : Routine} {lower : Mapping} {layers : List Mapping} :
    Unreported (Config.layAll routine lower layers) failure
      ↔ LayingAstray routine lower layers failure := by
  induction layers generalizing lower with
  | nil =>
    refine iff_of_false not_unreported_ok fun h => ?_
    cases h with
    | intro hlayers _ _ => simp at hlayers
  | cons first rest ih =>
    simp only [Config.layAll_cons, unreported_bind_iff, Config.unreported_lay_iff, ih]
    constructor
    · rintro (⟨h, rfl⟩ | ⟨laid, hlaid, h⟩)
      · exact .intro (List.nil_append _).symm rfl h
      · cases h with
        | @intro before after m made hlayers hbefore h =>
          have hlaying : Config.layAll routine lower (first :: before) = .ok made := by
            rw [Config.layAll_cons]
            exact bind_eq_ok_iff.mpr ⟨laid, hlaid, hbefore⟩
          exact .intro (congrArg (first :: ·) hlayers) hlaying h
    · intro h
      cases h with
      | @intro before after m made hlayers hbefore h =>
        cases before with
        | nil =>
          obtain ⟨rfl, rfl⟩ := List.cons.inj hlayers
          cases hbefore
          exact .inl ⟨h, rfl⟩
        | cons first' before =>
          obtain ⟨rfl, rfl⟩ := List.cons.inj hlayers
          rw [Config.layAll_cons] at hbefore
          obtain ⟨laid, hlaid, hbefore⟩ := bind_eq_ok_iff.mp hbefore
          exact .inr ⟨laid, hlaid, .intro rfl hbefore h⟩

variable [YamlReader]

/-- Bringing the layers together fails without being about a value: a
file does, or the environment cannot be spelled, or a nested variable ends
on the way of another one, or the layers hold too many mappings within one
another. -/
inductive LayersAstray (s : Surroundings) (directory : Path) (explicit : Mapping) :
    Failure → Prop
  | standard {failure : Failure}
      (h : Config.LayerAstray s.files (directory.child "default.yaml") failure) :
      LayersAstray s directory explicit failure
  | spelling {standard : Mapping} {g : Graph}
      (hstandard : Config.readLayer s.files (directory.child "default.yaml") = .ok standard)
      (hg : explicit.get? (.text "environment") = some g)
      (hsaid : g.heap.saysNothing g.root = false)
      (h : g.plainText (Stack.room .spell) = none) :
      LayersAstray s directory explicit (.tooDeep .spell)
  | named {standard : Mapping} {layer : Text} {failure : Failure}
      (hstandard : Config.readLayer s.files (directory.child "default.yaml") = .ok standard)
      (hlayer : layerName s.vars explicit = .ok layer)
      (h : Config.LayerAstray s.files (directory.child (layer ++ ".yaml")) failure) :
      LayersAstray s directory explicit failure
  | crossing {standard named : Mapping} {layer : Text} {c : ScalarOnPath}
      (hstandard : Config.readLayer s.files (directory.child "default.yaml") = .ok standard)
      (hlayer : layerName s.vars explicit = .ok layer)
      (hnamed : Config.readLayer s.files (directory.child (layer ++ ".yaml")) = .ok named)
      (h : s.vars.nestedVariables = .error c) :
      LayersAstray s directory explicit (.scalarOnPath c)
  | laying {standard named : Mapping} {layer : Text} {nested : Fields} {failure : Failure}
      (hstandard : Config.readLayer s.files (directory.child "default.yaml") = .ok standard)
      (hlayer : layerName s.vars explicit = .ok layer)
      (hnamed : Config.readLayer s.files (directory.child (layer ++ ".yaml")) = .ok named)
      (hnested : s.vars.nestedVariables = .ok nested)
      (h : LayingAstray .layer .empty [standard, named, .ofFields nested] failure) :
      LayersAstray s directory explicit failure

theorem unreported_layeredMapping_iff {s : Surroundings} {directory : Path} :
    Unreported (Config.layeredMapping s.files s.vars directory (layerName s.vars explicit)) failure
      ↔ LayersAstray s directory explicit failure := by
  simp only [Config.layeredMapping_eq_bind, unreported_bind_iff, Config.unreported_readLayer_iff,
    unreported_layerName_iff, unreported_nestedVariables_iff, unreported_layAll_iff]
  constructor
  · rintro (h | ⟨standard, hstandard, ⟨g, hg, hsaid, h, rfl⟩ | ⟨layer, hlayer, h | ⟨named, hnamed,
      ⟨c, h, rfl⟩ | ⟨nested, hnested, h⟩⟩⟩⟩)
    · exact .standard h
    · exact .spelling hstandard hg hsaid h
    · exact .named hstandard hlayer h
    · exact .crossing hstandard hlayer hnamed h
    · exact .laying hstandard hlayer hnamed (mapError_eq_ok_iff.mp hnested) h
  · intro h
    cases h with
    | standard h => exact .inl h
    | spelling hstandard hg hsaid h =>
      exact .inr ⟨_, hstandard, .inl ⟨_, hg, hsaid, h, rfl⟩⟩
    | named hstandard hlayer h => exact .inr ⟨_, hstandard, .inr ⟨_, hlayer, .inl h⟩⟩
    | crossing hstandard hlayer hnamed h =>
      exact .inr ⟨_, hstandard, .inr ⟨_, hlayer, .inr ⟨_, hnamed, .inl ⟨_, h, rfl⟩⟩⟩⟩
    | laying hstandard hlayer hnamed hnested h =>
      exact .inr ⟨_, hstandard, .inr ⟨_, hlayer, .inr ⟨_, hnamed,
        .inr ⟨_, mapError_eq_ok_iff.mpr hnested, h⟩⟩⟩⟩

/-- Bringing together the layers and what is said explicitly fails without
being about a value. -/
inductive CombiningAstray (s : Surroundings) (explicit : Mapping) : Failure → Prop
  | directory {g : Graph} (hg : explicit.get? (.text "config_dir") = some g)
      (htext : ∀ t, g.root ≠ .scalar (.text t)) (hsaid : g.heap.saysNothing g.root = false) :
      CombiningAstray s explicit (.noPath (g.heap.kindWord g.root))
  | layers {directory : Path} {failure : Failure}
      (hdirectory : layerDirectory s.home explicit = .ok directory)
      (h : LayersAstray s directory explicit failure) : CombiningAstray s explicit failure
  | merge {directory : Path} {below : Mapping}
      (hdirectory : layerDirectory s.home explicit = .ok directory)
      (hbelow : Config.layeredMapping s.files s.vars directory (layerName s.vars explicit)
        = .ok below)
      (h : below.Overlaps (Stack.room .merge) explicit) :
      CombiningAstray s explicit (.tooDeep .merge)
  | policies {directory : Path} {below combined : Mapping} {failure : Failure}
      (hdirectory : layerDirectory s.home explicit = .ok directory)
      (hbelow : Config.layeredMapping s.files s.vars directory (layerName s.vars explicit)
        = .ok below)
      (hcombined : Config.lay .merge below explicit = .ok combined)
      (h : Config.PoliciesAstray s.files s.vars (policySourceOf combined) failure) :
      CombiningAstray s explicit failure

theorem unreported_combine_iff {s : Surroundings} :
    Unreported (combine s explicit none) failure ↔ CombiningAstray s explicit failure := by
  have hpolicies (combined : Mapping) :
      Unreported (policiesOf s combined none) failure
        ↔ Config.PoliciesAstray s.files s.vars (policySourceOf combined) failure :=
    Config.unreported_loadPoliciesFrom_iff
  simp only [combine_eq_bind, unreported_bind_iff, unreported_map_iff,
    unreported_layerDirectory_iff, unreported_layeredMapping_iff, Config.unreported_lay_iff,
    hpolicies]
  constructor
  · rintro (⟨g, hg, htext, hsaid, rfl⟩ | ⟨directory, hdirectory, h | ⟨below, hbelow,
      ⟨h, rfl⟩ | ⟨combined, hcombined, h⟩⟩⟩)
    · exact .directory hg htext hsaid
    · exact .layers hdirectory h
    · exact .merge hdirectory hbelow h
    · exact .policies hdirectory hbelow hcombined h
  · intro h
    cases h with
    | directory hg htext hsaid => exact .inl ⟨_, hg, htext, hsaid, rfl⟩
    | layers hdirectory h => exact .inr ⟨_, hdirectory, .inl h⟩
    | merge hdirectory hbelow h =>
      exact .inr ⟨_, hdirectory, .inr ⟨_, hbelow, .inl ⟨h, rfl⟩⟩⟩
    | policies hdirectory hbelow hcombined h =>
      exact .inr ⟨_, hdirectory, .inr ⟨_, hbelow, .inr ⟨_, hcombined, h⟩⟩⟩

end Layers

/-! ## Reading settings -/

section Loading

variable [Stack] [YamlReader] [SettingsReader] {arguments : Mapping}

/-- Reading settings fails without being about a value: the first step
that fails is one of these.  Arguments with names of the package are its
own matter. -/
inductive Astray (s : Surroundings) (arguments : Mapping) : Failure → Prop
  | package {failure : Failure} (hreserved : ¬ arguments.Plain)
      (h : Unreported (SettingsReader.gather s arguments) failure) : Astray s arguments failure
  | gathering {failure : Failure} (hplain : arguments.Plain)
      (h : GatheringAstray s.vars arguments failure) : Astray s arguments failure
  | combining {gathered : Mapping} {failure : Failure}
      (hgathered : SettingsReader.gather s arguments = .ok gathered)
      (h : CombiningAstray s gathered.said failure) : Astray s arguments failure
  | making (src : Sources s arguments) {policies : Policies} {validated : Settings}
      {failure : Failure} (hpolicies : policiesOf s src.combined none = .ok policies)
      (hvalidated : checkFields s.home policies (src.combined.view fieldDepth) = .ok validated)
      (h : MakingAstray s validated failure) : Astray s arguments failure

/-- Reading settings fails otherwise than about a value exactly if it goes
astray. -/
theorem unreported_loadFrom_iff :
    Unreported (loadFrom s arguments none) failure ↔ Astray s arguments failure := by
  simp only [loadFrom_eq_bind, unreported_bind_iff, unreported_reported_iff,
    unreported_combine_iff, unreported_makeDirectories_iff,
    not_unreported_checked (checkFields_ne_misfit _ _ _), false_or]
  constructor
  · rintro (h | ⟨gathered, hgathered, h | ⟨⟨combined, policies⟩, hcombined, validated,
      hvalidated, h⟩⟩)
    · by_cases hplain : arguments.Plain
      · rw [SettingsReader.gather_plain s arguments hplain] at h
        exact .gathering hplain (unreported_gatherFields_iff.mp h)
      · exact .package hplain h
    · exact .combining hgathered h
    · obtain ⟨src, rfl, hpolicies⟩ :=
        exists_sources_of_combine hgathered (mapError_eq_ok_iff.mp hcombined)
      exact .making src hpolicies
        (Schema.Checked.toExcept_eq_ok_iff.mp (mapError_eq_ok_iff.mp hvalidated)) h
  · intro h
    cases h with
    | package hreserved h => exact .inl h
    | gathering hplain h =>
      rw [SettingsReader.gather_plain s arguments hplain]
      exact .inl (unreported_gatherFields_iff.mpr h)
    | combining hgathered h => exact .inr ⟨_, hgathered, .inl h⟩
    | making src hpolicies hvalidated h =>
      exact .inr ⟨_, src.gathered_eq, .inr ⟨_, mapError_eq_ok_iff.mpr (src.combine_eq hpolicies),
        _, mapError_eq_ok_iff.mpr (Schema.Checked.toExcept_eq_ok_iff.mpr hvalidated), h⟩⟩

end Loading

end Settings

end Lineage
