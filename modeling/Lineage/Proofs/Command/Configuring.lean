/-
Lineage.Proofs.Command.Configuring — which configurations a command line
does not report.

The overrides of a command line are laid over one another, the
environment is put among them, and settings are read from what they come
to.  A failure about a value is told to the user, any other ends the
program, so what is not reported is what goes astray in one of the two
steps (`settings_told_or_astray`): overrides that hold too many mappings
under the same names, within one another, or settings that cannot be read
for another reason than a value (`Settings.Astray`).
-/
import Lineage.Command.Explore
import Lineage.Proofs.Command.Overrides
import Lineage.Proofs.Config.Astray

namespace Lineage

/-! ## Room for the overrides -/

namespace Override

open Value (Proper)

/-- The fields of the object under a name. -/
def inner? (fields : Fields) (name : Scalar) : Option Fields :=
  (Keyed.get? fields name).bind Value.fields?

theorem inner?_eq_some_iff {fields inner : Fields} {name : Scalar} :
    inner? fields name = some inner ↔ Keyed.get? fields name = some (.object inner) := by
  rw [inner?, Option.bind_eq_some_iff]
  constructor
  · rintro ⟨v, hv, hfields⟩
    cases v with
    | object fields =>
      cases hfields
      exact hv
    | scalar s => cases hfields
    | array items => cases hfields
  · exact fun h => ⟨_, h, rfl⟩

/-- There is no room for the calls exactly if both hold objects under the
same names, as many within one another as there are calls. -/
theorem overlays_eq_false_iff {room : Nat} {lower upper : Fields}
    (hupper : Proper (.object upper)) :
    overlays room lower upper = false ↔ Overlap inner? inner? room lower upper := by
  induction room generalizing lower upper with
  | zero => exact iff_of_true rfl (.here _ _)
  | succ room ih =>
    rw [overlays, List.all_eq_false, overlap_succ_iff]
    constructor
    · rintro ⟨⟨name, v⟩, hmem, h⟩
      have hget := hupper.unrepeated.get?_of_mem hmem
      dsimp only at h hget
      split at h
      · rename_i below above hbelow
        have habove : Proper (.object above) := hupper.of_get? hget
        exact ⟨name, below, above, inner?_eq_some_iff.mpr hbelow, inner?_eq_some_iff.mpr hget,
          (ih habove).mp (by simpa using h)⟩
      · simp at h
    · rintro ⟨name, below, above, hbelow, habove, hinner⟩
      rw [inner?_eq_some_iff] at hbelow habove
      obtain ⟨k, hmem, hname⟩ := Keyed.exists_mem_of_get? habove
      have hlower : Keyed.get? lower k = some (.object below) := by
        rw [Keyed.get?_congr lower hname, hbelow]
      refine ⟨(k, .object above), hmem, ?_⟩
      simpa [hlower] using (ih (hupper.of_get? habove)).mpr hinner

variable [Stack] {os : List Override} {fields : Fields}

/-- An override holds too many mappings under names of those that the
overrides before it come to, within one another. -/
def Crowded (fields : Fields) (os : List Override) : Prop :=
  ∃ before o after, os = before ++ o :: after
    ∧ Overlap inner? inner? (Stack.room .overlay) (before.foldl enter fields) o.layer

theorem crowded_cons {o : Override} :
    Crowded fields (o :: os)
      ↔ Overlap inner? inner? (Stack.room .overlay) fields o.layer
        ∨ Crowded (enter fields o) os := by
  constructor
  · rintro ⟨before, o', after, heq, h⟩
    cases before with
    | nil =>
      obtain ⟨rfl, rfl⟩ := List.cons.inj heq
      exact .inl h
    | cons first before =>
      obtain ⟨rfl, rfl⟩ := List.cons.inj heq
      exact .inr ⟨before, o', after, rfl, h⟩
  · rintro (h | ⟨before, o', after, rfl, h⟩)
    · exact ⟨[], o, os, rfl, h⟩
    · exact ⟨o :: before, o', after, rfl, h⟩

theorem not_crowded_nil : ¬ Crowded fields [] := by
  rintro ⟨before, o, after, heq, -⟩
  simp at heq

/-- Overrides are laid over one another unless one of them is crowded. -/
theorem layOver_cases (fields : Fields) (hos : ∀ o ∈ os, o.WellFormed) :
    (¬ Crowded fields os ∧ layOver fields os = .ok (os.foldl enter fields))
      ∨ (Crowded fields os ∧ layOver fields os = .error (.tooDeep .overlay)) := by
  induction os generalizing fields with
  | nil => exact .inl ⟨not_crowded_nil, rfl⟩
  | cons o rest ih =>
    obtain ⟨ho, hrest⟩ := List.forall_mem_cons.mp hos
    have hfields : o.toValue.fields?.getD [] = o.layer := by
      rw [ho.toValue_eq]
      rfl
    rw [crowded_cons, ← overlays_eq_false_iff ho.proper_layer, layOver, hfields]
    cases hroom : overlays (Stack.room .overlay) fields o.layer with
    | true => simpa using ih _ hrest
    | false => simp

end Override

/-! ## What the command line tells -/

namespace Explore

open Settings Override

/-- The command line tells of the failures that are about values, and of
no others. -/
theorem configurationEnding_cases (failure : Failure) :
    (failure.concernsValue = true ∧ ∃ t, configurationEnding failure = .troubled t)
      ∨ (failure.concernsValue = false ∧ configurationEnding failure = .failed failure) := by
  unfold configurationEnding
  split
  · exact .inl ⟨rfl, _, rfl⟩
  · cases h : failure.concernsValue with
    | true => exact .inl ⟨rfl, _, if_pos rfl⟩
    | false => exact .inr ⟨rfl, if_neg Bool.false_ne_true⟩

section Reporting

variable [Stack] [YamlReader] [SettingsReader] {s : Surroundings} {common : Common}
  {overrides : List Override}

/-- Reading the settings of a command line fails without being told: its
overrides hold too many mappings within one another, or reading settings
from what they come to goes astray. -/
inductive CommandAstray (s : Surroundings) (common : Common) (overrides : List Override) :
    Failure → Prop
  | overlay (h : Crowded [] overrides) : CommandAstray s common overrides (.tooDeep .overlay)
  | settings {failure : Failure} (hroom : ¬ Crowded [] overrides)
      (h : Astray s (.ofFields (withEnvironment common.environment (mergeAll overrides))) failure) :
      CommandAstray s common overrides failure

/-- What is told of reading settings, and what is not. -/
theorem load_told_or_astray {arguments : Fields} :
    (∀ failure, (load s arguments none).mapError configurationEnding = .error (.failed failure)
        ↔ Astray s (.ofFields arguments) failure)
      ∧ (((∃ r, (load s arguments none).mapError configurationEnding = .ok r)
          ∨ ∃ t, (load s arguments none).mapError configurationEnding = .error (.troubled t))
        ↔ ∀ failure, ¬ Astray s (.ofFields arguments) failure) := by
  simp only [← unreported_loadFrom_iff, ← load.eq_1]
  cases load s arguments none with
  | ok r => simp [Except.mapError]
  | error failure =>
    simp only [Except.mapError, unreported_error_iff]
    rcases configurationEnding_cases failure with ⟨hvalue, t, ht⟩ | ⟨hvalue, hfailed⟩
    · rw [ht]
      have hnone (failure' : Failure) :
          ¬ (failure = failure' ∧ failure'.concernsValue = false) := by
        rintro ⟨rfl, hoff⟩
        rw [hvalue] at hoff
        cases hoff
      exact ⟨fun failure' => iff_of_false (by rintro ⟨⟩) (hnone failure'),
        iff_of_true (.inr ⟨t, rfl⟩) hnone⟩
    · rw [hfailed]
      refine ⟨fun failure' => ⟨fun h => ?_, fun h => by rw [h.1]⟩,
        iff_of_false ?_ fun h => h failure ⟨rfl, hvalue⟩⟩
      · obtain rfl := Ending.failed.inj (Except.error.inj h)
        exact ⟨rfl, hvalue⟩
      · rintro (⟨r, h⟩ | ⟨t, h⟩) <;> cases h

/-- Reading the settings of a command line, where its overrides can be
read. -/
theorem settingsOf_cases (h : Override.parseAll common.overrides = .ok overrides) :
    (¬ Crowded [] overrides ∧ settingsOf s common
        = (load s (withEnvironment common.environment (mergeAll overrides)) none).mapError
          configurationEnding)
      ∨ (Crowded [] overrides ∧ settingsOf s common = .error (.failed (.tooDeep .overlay))) := by
  simp only [settingsOf, h, argumentsOf]
  rcases layOver_cases [] (wellFormed_of_parseAll h) with
    ⟨hroom, hlaid⟩ | ⟨hcrowded, hlaid⟩
  · rw [hlaid]
    exact .inl ⟨hroom, rfl⟩
  · rw [hlaid]
    exact .inr ⟨hcrowded, rfl⟩

/-- Where the overrides of a command line can be read, settings are
read from them, or the command line tells what is wrong, unless it goes
astray; then it fails as that. -/
theorem settings_told_or_astray (h : Override.parseAll common.overrides = .ok overrides) :
    (∀ failure, settingsOf s common = .error (.failed failure)
        ↔ CommandAstray s common overrides failure)
      ∧ (((∃ r, settingsOf s common = .ok r) ∨ ∃ t, settingsOf s common = .error (.troubled t))
        ↔ ∀ failure, ¬ CommandAstray s common overrides failure) := by
  rcases settingsOf_cases (s := s) h with ⟨hroom, heq⟩ | ⟨hcrowded, heq⟩
  · have hastray (failure : Failure) : CommandAstray s common overrides failure
        ↔ Astray s (.ofFields (withEnvironment common.environment (mergeAll overrides)))
          failure := by
      constructor
      · intro h
        cases h with
        | overlay hcrowded => exact absurd hcrowded hroom
        | settings _ h => exact h
      · exact .settings hroom
    simp only [heq, hastray]
    exact load_told_or_astray
  · have hastray (failure : Failure) : CommandAstray s common overrides failure
        ↔ failure = .tooDeep .overlay := by
      constructor
      · intro h
        cases h with
        | overlay _ => rfl
        | settings hroom _ => exact absurd hcrowded hroom
      · rintro rfl
        exact .overlay hcrowded
    simp only [heq, hastray]
    simp [eq_comm]

end Reporting

theorem settings_told_or_astray_layered :
    let s := Surroundings.installed [("GROUPHIERARCHY_POLICY__GROUPS__CACHE_MAX_SIZE", "7")]
      [("testing.yaml", "policies: {groups: {max_depth: 3}}\n")]
    let common : Common := ⟨some "testing", ["policies.groups.max_depth=4"], false⟩
    ∃ overrides settings files, Override.parseAll common.overrides = .ok overrides
      ∧ settingsOf s common = .ok (settings, files)
      ∧ settings.policies.groups = ⟨4, 7, 300⟩
      ∧ ∀ failure, ¬ CommandAstray s common overrides failure := by
  intro s common
  obtain ⟨overrides, hoverrides⟩ := exists_ok_of_isOk
    (show (Override.parseAll common.overrides).isOk = true by decide +kernel)
  obtain ⟨⟨settings, files⟩, hsettings, hgroups⟩ := map_toOption_eq_some_iff.mp
    (show (settingsOf s common).toOption.map (fun r => r.1.policies.groups) = some ⟨4, 7, 300⟩ by
      decide +kernel)
  exact ⟨overrides, settings, files, hoverrides, hsettings, hgroups,
    (settings_told_or_astray hoverrides).2.mp (.inl ⟨_, hsettings⟩)⟩

/-- A nested variable that goes on beyond another one is told to no
one. -/
theorem settings_astray_crossing :
    let s := Surroundings.installed
      [("GROUPHIERARCHY_SETTINGS__A", "1"), ("GROUPHIERARCHY_SETTINGS__A__B", "2")] []
    let common : Common := ⟨none, [], false⟩
    ∃ overrides, Override.parseAll common.overrides = .ok overrides
      ∧ settingsOf s common = .error (.failed (.scalarOnPath .below)) := by
  intro s common
  have hsorted : s.vars.sorted = s.vars := List.mergeSort_of_pairwise (by decide)
  obtain ⟨gathered, hgathered, heq⟩ := map_toOption_eq_some_iff.mp
    (show (SettingsReader.gather s (.ofFields [])).toOption.map (fun m =>
        ((layerDirectory s.home m.said).toOption, (layerName s.vars m.said).toOption))
      = some ((some ⟨"/", ["srv", "config"]⟩, some "development") : Option Path × Option Text) by
      decide +kernel)
  obtain ⟨hdirectory, hlayer⟩ := Prod.mk.inj heq
  obtain ⟨standard, hstandard⟩ := exists_ok_of_isOk
    (show (Config.readLayer s.files ⟨"/", ["srv", "config", "default.yaml"]⟩).isOk = true by
      decide +kernel)
  obtain ⟨named, hnamed⟩ := exists_ok_of_isOk
    (show (Config.readLayer s.files ⟨"/", ["srv", "config", "development.yaml"]⟩).isOk = true by
      decide +kernel)
  have hnested : s.vars.nestedVariables = .error .below := by
    rw [Variables.nestedVariables, Variables.pathsOf, hsorted]
    rfl
  have hastray : Astray s (.ofFields []) (.scalarOnPath .below) :=
    .combining hgathered (.layers (toOption_eq_some_iff.mp hdirectory)
      (.crossing hstandard (toOption_eq_some_iff.mp hlayer) hnamed hnested))
  have hsettings : settingsOf s common = (load s [] none).mapError configurationEnding := rfl
  exact ⟨[], rfl, hsettings.trans (load_told_or_astray.1 _ |>.mpr hastray)⟩

end Explore

end Lineage
