/-
Lineage.Proofs.Config.Sources — what settings are read from.

Reading settings goes through five sources: the variables for whole
fields and the arguments, which are gathered first, the default file, the
file of an environment and the nested variables.  `Sources` is what each
of them holds, with the proof that it was read there; settings can only
be read if it exists (`exists_sources_of_loadFrom`), and then they are
what the checks make of `Sources.combined`.  The sources may share parts,
but what is seen of them together, as far as settings have fields, is
what is seen of each, merged (`Sources.view_below`,
`Sources.view_combined`).
-/
import Lineage.Config.Settings
import Lineage.Proofs.Config.Variables
import Lineage.Proofs.Group.Ids
import Lineage.Proofs.Value.Viewing

namespace Lineage

open Settings

/-! ## What says something -/

/-- What is seen of a value is null only if it is null. -/
theorem Heap.isNull_view {h : Heap} (hs : h.Sound) (depth : Nat) {r : Ref}
    (hr : r.Within h.length) : (h.view depth r).isNull = decide (r = .scalar .null) := by
  cases r with
  | scalar s =>
    rw [view]
    cases s <;> simp [Value.isNull]
  | place n =>
    obtain ⟨b, hb, -⟩ := hs.exists_body hr
    cases depth <;> cases b <;> simp [view, hb, Value.isNull]

/-- What is seen of the fields that say something are those of what is
seen that are not null. -/
theorem Mapping.view_said (m : Mapping) (depth : Nat) :
    m.said.view depth = (m.view depth).filter fun f => !f.2.isNull := by
  unfold Mapping.view Mapping.said Heap.viewLinks
  rw [List.filter_map]
  refine congrArg _ (List.filter_congr fun l hl => ?_)
  rw [Function.comp_apply, Heap.isNull_view m.sound depth (m.within.refs l hl)]
  simp

/-! ## Variables for whole fields -/

theorem proper_respell {fields : Fields} (h : (Value.object fields).Proper) (known : List Text) :
    (Value.object (respell known fields)).Proper := by
  refine .ofPairs fun p hp => ?_
  obtain ⟨⟨name, v⟩, hmem, rfl⟩ := List.mem_map.mp hp
  have hv : v.Proper := h.of_mem hmem
  exact hv

theorem proper_respellDeep {fields : Fields} (h : (Value.object fields).Proper)
    (known : Spellings) : (Value.object (respellDeep known fields)).Proper := by
  have houter := proper_respell h (known.map (·.1))
  refine .object (houter.unrepeated.of_keys_eq ?_) fun f hf => ?_
  · unfold respellDeep Keyed.keys
    rw [List.map_map]
    refine List.map_congr_left fun f _ => ?_
    obtain ⟨name, v⟩ := f
    cases v <;> rfl
  · obtain ⟨⟨name, v⟩, hmem, rfl⟩ := List.mem_map.mp hf
    have hv : v.Proper := houter.of_mem hmem
    cases v with
    | object inner => exact proper_respell hv _
    | scalar s => exact hv
    | array items => exact hv

section Whole

variable [Stack]

/-- The variables for whole fields give each field one value. -/
theorem keys_fieldVariables_sublist {vars : Variables} {fields : List String} {whole : Fields}
    (h : fieldVariables vars fields = .ok whole) :
    whole.keys.Sublist (fields.map fun field => .text field) := by
  induction fields generalizing whole with
  | nil =>
    cases h
    exact List.Sublist.slnil
  | cons field rest ih =>
    rw [fieldVariables] at h
    split at h
    · cases h
    · exact (ih h).cons _
    · obtain ⟨more, hmore, rfl⟩ := map_eq_ok_iff.mp h
      exact (ih hmore).cons_cons _

theorem unrepeated_fieldVariables {vars : Variables} {whole : Fields}
    (h : fieldVariables vars fieldNames = .ok whole) : whole.Unrepeated := by
  have hnames : (fieldNames.map fun field => Scalar.text field).Pairwise
      fun name other => (name == other) = false := by
    decide
  exact hnames.sublist (keys_fieldVariables_sublist h)

theorem proper_of_decodeField {field : String} {raw : Text} {v : Value}
    (h : decodeField field raw = .ok (some v)) : v.Proper := by
  unfold decodeField at h
  split at h
  · cases h
  · cases h
  · rename_i hread
    cases h
    exact proper_respellDeep (Json.proper_of_readWithin hread) _
  · rename_i hread
    cases h
    exact Json.proper_of_readWithin hread

/-- What variables for whole fields say is a proper mapping. -/
theorem proper_fieldVariables {vars : Variables} {whole : Fields}
    (h : fieldVariables vars fieldNames = .ok whole) : (Value.object whole).Proper := by
  refine .object (unrepeated_fieldVariables h) ?_
  generalize fieldNames = names at h
  induction names generalizing whole with
  | nil =>
    cases h
    exact fun _ hf => absurd hf List.not_mem_nil
  | cons field rest ih =>
    rw [fieldVariables] at h
    split at h
    · cases h
    · exact ih h
    · rename_i v hhere
      obtain ⟨more, hmore, rfl⟩ := map_eq_ok_iff.mp h
      intro f hf
      rcases List.mem_cons.mp hf with rfl | hf
      · split at hhere
        · cases hhere
        · split at hhere
          · cases hhere
            exact .scalar _
          · exact proper_of_decodeField hhere
      · exact ih hmore f hf

end Whole

/-! ## Layers -/

variable [Stack]

theorem Config.lay_eq_ok_iff {routine : Routine} {lower upper m : Mapping} :
    Config.lay routine lower upper = .ok m ↔ lower.lay (Stack.room routine) upper = some m := by
  unfold Config.lay
  cases lower.lay (Stack.room routine) upper <;> simp

theorem Config.layAll_cons (routine : Routine) (lower upper : Mapping) (rest : List Mapping) :
    Config.layAll routine lower (upper :: rest)
      = Config.lay routine lower upper >>= fun m => Config.layAll routine m rest := by
  rw [Config.layAll]
  cases Config.lay routine lower upper <;> rfl

/-- What is seen of an object laid over another is what is seen of both,
merged. -/
theorem Config.view_of_lay {routine : Routine} {lower upper m : Mapping}
    (h : Config.lay routine lower upper = .ok m) (depth : Nat) :
    m.view depth = merge (lower.view depth) (upper.view depth) :=
  Mapping.view_lay (Config.lay_eq_ok_iff.mp h) depth

section Steps

variable [YamlReader]

/-- Bringing the layers together, step by step. -/
theorem Config.layeredMapping_eq_bind (f : Files) (vars : Variables) (directory : Path)
    (environment : Except Failure Text) :
    Config.layeredMapping f vars directory environment
      = Config.readLayer f (directory.child "default.yaml") >>= fun standard =>
        environment >>= fun environment =>
          Config.readLayer f (directory.child (environment ++ ".yaml")) >>= fun named =>
            vars.nestedVariables.mapError .scalarOnPath >>= fun nested =>
              Config.layAll .layer .empty [standard, named, .ofFields nested] := by
  rw [Config.layeredMapping, Config.layers]
  cases Config.readLayer f (directory.child "default.yaml") with
  | error failure => rfl
  | ok standard =>
    dsimp only [bind, Except.bind]
    cases environment with
    | error failure => rfl
    | ok environment =>
      dsimp only
      cases Config.readLayer f (directory.child (environment ++ ".yaml")) with
      | error failure => rfl
      | ok named => cases vars.nestedVariables <;> rfl

/-- Bringing the layers and what is said explicitly together, step by
step. -/
theorem Settings.combine_eq_bind (s : Surroundings) (explicit : Mapping)
    (given : Option Policies) :
    combine s explicit given
      = layerDirectory s.home explicit >>= fun directory =>
        Config.layeredMapping s.files s.vars directory (layerName s.vars explicit) >>= fun below =>
          Config.lay .merge below explicit >>= fun combined =>
            (policiesOf s combined given).map fun p => (combined, p) := by
  unfold combine
  cases layerDirectory s.home explicit with
  | error failure => rfl
  | ok directory =>
    dsimp only [bind, Except.bind]
    cases Config.layeredMapping s.files s.vars directory (layerName s.vars explicit) with
    | error failure => rfl
    | ok below =>
      dsimp only
      cases Config.lay .merge below explicit <;> rfl

/-- Reading settings, step by step. -/
theorem Settings.loadFrom_eq_bind [SettingsReader] (s : Surroundings) (arguments : Mapping)
    (given : Option Policies) :
    loadFrom s arguments given
      = SettingsReader.gather s arguments >>= fun gathered =>
        (combine s gathered.said given).mapError reported >>= fun r =>
          ((checkFields s.home r.2 (r.1.view fieldDepth)).toExcept .settings).mapError .rejected
            >>= fun settings => makeDirectories s settings := by
  unfold loadFrom
  cases SettingsReader.gather s arguments with
  | error failure => rfl
  | ok gathered =>
    dsimp only [bind, Except.bind]
    cases combine s gathered.said given with
    | error failure => rfl
    | ok r =>
      dsimp only [Except.mapError]
      cases (checkFields s.home r.2 (r.1.view fieldDepth)).toExcept .settings <;> rfl

end Steps

/-! ## The sources -/

variable [YamlReader] [SettingsReader]

/-- What the sources of settings hold. -/
structure Sources (s : Surroundings) (arguments : Mapping) where
  /-- What the arguments and the variables for whole fields say
  together. -/
  gathered : Mapping
  gathered_eq : SettingsReader.gather s arguments = .ok gathered
  /-- The directory of the configuration files. -/
  directory : Path
  directory_eq : layerDirectory s.home gathered.said = .ok directory
  /-- What the default file holds. -/
  standard : Mapping
  standard_eq : Config.readLayer s.files (directory.child "default.yaml") = .ok standard
  /-- The name of the environment of which the file was read. -/
  layer : Text
  layer_eq : layerName s.vars gathered.said = .ok layer
  /-- What the file of the environment holds. -/
  named : Mapping
  named_eq : Config.readLayer s.files (directory.child (layer ++ ".yaml")) = .ok named
  /-- What the nested variables say. -/
  nested : Fields
  nested_eq : s.vars.nestedVariables = .ok nested
  /-- What the files and the nested variables say together. -/
  below : Mapping
  below_eq : Config.layAll .layer .empty [standard, named, .ofFields nested] = .ok below
  /-- What all sources say together. -/
  combined : Mapping
  combined_eq : Config.lay .merge below gathered.said = .ok combined

namespace Sources

variable {s : Surroundings} {arguments : Mapping} (src : Sources s arguments)

/-- What is said explicitly, by a variable for a whole field or an
argument; null says nothing. -/
def explicit : Mapping :=
  src.gathered.said

theorem entered_nested :
    Entered (.object []) (Variables.asTexts (s.vars.pathsOf Variables.settingsStart))
      (.object src.nested) :=
  Variables.entered_of_nestedVariables src.nested_eq

theorem proper_nested : (Value.object src.nested).Proper := by
  refine src.entered_nested.proper .empty fun e he => ?_
  obtain ⟨raw, -, heq⟩ := Variables.mem_asTexts he
  rw [heq]
  exact .scalar _

/-- What is seen of the files and the nested variables together. -/
theorem view_below (depth : Nat) :
    src.below.view depth
      = merge (merge (merge [] (src.standard.view depth)) (src.named.view depth))
        (cutFields depth src.nested) := by
  have hlaid := src.below_eq
  rw [Config.layAll_cons] at hlaid
  obtain ⟨first, hfirst, hlaid⟩ := bind_eq_ok_iff.mp hlaid
  rw [Config.layAll_cons] at hlaid
  obtain ⟨second, hsecond, hlaid⟩ := bind_eq_ok_iff.mp hlaid
  rw [Config.layAll_cons] at hlaid
  obtain ⟨third, hthird, hlaid⟩ := bind_eq_ok_iff.mp hlaid
  rw [← Except.ok.inj hlaid, Config.view_of_lay hthird, Config.view_of_lay hsecond,
    Config.view_of_lay hfirst, Mapping.view_ofFields src.proper_nested]
  rfl

/-- What is seen of all sources together. -/
theorem view_combined (depth : Nat) :
    src.combined.view depth = merge (src.below.view depth) (src.explicit.view depth) :=
  Config.view_of_lay src.combined_eq depth

/-- What was gathered from arguments that are no names of the package. -/
theorem view_gathered (hplain : arguments.Plain) :
    ∃ whole, fieldVariables s.vars fieldNames = .ok whole ∧ ∀ depth,
      src.gathered.view depth = merge (cutFields depth whole) (arguments.view depth) := by
  have hgathered := src.gathered_eq
  rw [SettingsReader.gather_plain s arguments hplain, gatherFields] at hgathered
  split at hgathered
  · cases hgathered
  · rename_i whole hwhole
    refine ⟨whole, hwhole, fun depth => ?_⟩
    rw [Config.view_of_lay hgathered, Mapping.view_ofFields (proper_fieldVariables hwhole)]

end Sources

/-- An installation in one directory, with variables and configuration
files. -/
def Surroundings.installed (vars : Variables) (configuration : List (Text × String)) :
    Surroundings :=
  let home : List Text := ["srv"]
  let config : List Text := ["srv", "config"]
  let file : Text × String → List Text × Entry := fun (name, content) =>
    (config ++ [name], .file (content.toList.flatMap Text.Utf8.encodeChar))
  { files := { entries := (home, .directory) :: (config, .directory) :: configuration.map file }
    vars := vars
    home := ⟨"/", home⟩
    site := ⟨"/", home⟩
    userHome := ⟨"/", home⟩
    clock := ⟨0⟩ }

/-! ## Reading settings -/

variable {s : Surroundings} {arguments : Mapping} {given : Option Policies} {settings : Settings}
  {files : Files}

/-- The layers and what is said explicitly come together only if each
source could be read. -/
theorem exists_sources_of_combine {gathered combined : Mapping} {policies : Policies}
    (hgathered : SettingsReader.gather s arguments = .ok gathered)
    (h : combine s gathered.said given = .ok (combined, policies)) :
    ∃ src : Sources s arguments, src.combined = combined
      ∧ policiesOf s combined given = .ok policies := by
  rw [combine_eq_bind] at h
  obtain ⟨directory, hdirectory, h⟩ := bind_eq_ok_iff.mp h
  obtain ⟨below, hbelow, h⟩ := bind_eq_ok_iff.mp h
  obtain ⟨combined', hcombined, h⟩ := bind_eq_ok_iff.mp h
  obtain ⟨policies', hpolicies, heq⟩ := map_eq_ok_iff.mp h
  cases heq
  rw [Config.layeredMapping_eq_bind] at hbelow
  obtain ⟨standard, hstandard, hbelow⟩ := bind_eq_ok_iff.mp hbelow
  obtain ⟨layer, hlayer, hbelow⟩ := bind_eq_ok_iff.mp hbelow
  obtain ⟨named, hnamed, hbelow⟩ := bind_eq_ok_iff.mp hbelow
  obtain ⟨nested, hnested, hbelow⟩ := bind_eq_ok_iff.mp hbelow
  exact ⟨⟨gathered, hgathered, directory, hdirectory, standard, hstandard, layer, hlayer, named,
    hnamed, nested, mapError_eq_ok_iff.mp hnested, below, hbelow, combined, hcombined⟩, rfl,
    hpolicies⟩

/-- What the layers come to where each source could be read. -/
theorem Sources.layeredMapping_eq (src : Sources s arguments) :
    Config.layeredMapping s.files s.vars src.directory (layerName s.vars src.explicit)
      = .ok src.below := by
  rw [Config.layeredMapping_eq_bind]
  exact bind_eq_ok_iff.mpr ⟨_, src.standard_eq, bind_eq_ok_iff.mpr ⟨_, src.layer_eq,
    bind_eq_ok_iff.mpr ⟨_, src.named_eq, bind_eq_ok_iff.mpr
      ⟨_, mapError_eq_ok_iff.mpr src.nested_eq, src.below_eq⟩⟩⟩⟩

theorem Sources.combine_eq (src : Sources s arguments) {policies : Policies}
    (h : policiesOf s src.combined given = .ok policies) :
    combine s src.explicit given = .ok (src.combined, policies) := by
  rw [combine_eq_bind]
  exact bind_eq_ok_iff.mpr ⟨_, src.directory_eq, bind_eq_ok_iff.mpr ⟨_, src.layeredMapping_eq,
    bind_eq_ok_iff.mpr ⟨_, src.combined_eq, map_eq_ok_iff.mpr ⟨_, h, rfl⟩⟩⟩⟩

/-- Settings are read only if all sources could be; they are what the
checks make of all that the sources say. -/
theorem exists_sources_of_loadFrom (h : loadFrom s arguments given = .ok (settings, files)) :
    ∃ (src : Sources s arguments) (policies : Policies) (validated : Settings),
      policiesOf s src.combined given = .ok policies
        ∧ checkFields s.home policies (src.combined.view fieldDepth) = .ok validated
        ∧ makeDirectories s validated = .ok (settings, files) := by
  rw [loadFrom_eq_bind] at h
  obtain ⟨gathered, hgathered, h⟩ := bind_eq_ok_iff.mp h
  obtain ⟨⟨combined, policies⟩, hcombined, h⟩ := bind_eq_ok_iff.mp h
  obtain ⟨validated, hvalidated, hmade⟩ := bind_eq_ok_iff.mp h
  obtain ⟨src, rfl, hpolicies⟩ :=
    exists_sources_of_combine hgathered (mapError_eq_ok_iff.mp hcombined)
  exact ⟨src, policies, validated, hpolicies,
    Schema.Checked.toExcept_eq_ok_iff.mp (mapError_eq_ok_iff.mp hvalidated), hmade⟩

end Lineage
