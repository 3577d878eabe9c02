/-
Lineage.Proofs.Config.Environment — the environment of settings and the
file that was read for it.

Two things go by the name of an environment: the field of the settings,
and the file that is laid over the default file.  They agree where a
variable for the whole field or an argument names the environment.
Otherwise the file is that of the variable `GROUPHIERARCHY_ENV`, which
the field does not take up, and the field is what the files and the
nested variables say, on which the choice of the file does not depend
(`environment_of_load`).
-/
import Lineage.Proofs.Config.Checks
import Lineage.Proofs.Config.Sources
import Lineage.Usual

namespace Lineage

open Settings Schema

/-- A value that is an environment spells its name. -/
theorem eq_name_of_checkEnvironment {v : Value} {e : Environment}
    (h : checkEnvironment v = .ok e) : v = .text e.name := by
  unfold checkEnvironment at h
  split at h
  · split at h
    · rename_i t e' hname
      cases h
      have hspelled := List.find?_some hname
      rw [beq_iff_eq.mp hspelled]
    · cases h
  · cases h

/-- The environment that was found, or the usual one, has the name of the
field. -/
theorem name_of_validated {found : Option Value} {e : Environment}
    (h : Validated checkEnvironment .development found e) :
    found.getD (.text Environment.development.name) = .text e.name := by
  cases found with
  | none => rw [show e = .development from h, Option.getD_none]
  | some v => rw [eq_name_of_checkEnvironment h, Option.getD_some]

section Layer

variable [Stack] {vars : Variables} {explicit : Mapping}

/-- What is said explicitly names the file, if it is an environment. -/
theorem layerName_of_environment {depth : Nat} {e : Environment}
    (h : Keyed.get? (explicit.view depth) (.text "environment") = some (.text e.name)) :
    layerName vars explicit = .ok e.name := by
  rw [Mapping.get?_view] at h
  obtain ⟨r, hget, hview⟩ := Option.map_eq_some_iff.mp h
  obtain rfl := Heap.eq_scalar_of_view explicit.sound (explicit.within.of_get? hget) hview
  obtain ⟨g, hg, -, hroot⟩ := Mapping.exists_graph hget
  have hsaid : (Scalar.text e.name).saysNothing = false := by cases e <;> decide
  rw [layerName, hg]
  simp only [hroot, Heap.saysNothing, hsaid, Graph.plainText]
  rfl

/-- Where nothing names an environment explicitly, the file is that of
the variable for it. -/
theorem layerName_of_none {depth : Nat}
    (h : Keyed.get? (explicit.view depth) (.text "environment") = none) :
    layerName vars explicit = .ok (usualLayer vars) := by
  rw [Mapping.get?_view] at h
  rw [layerName, Mapping.get?_eq_none (Option.map_eq_none_iff.mp h)]

end Layer

section Reading

variable [Stack] [YamlReader] [SettingsReader]

namespace Sources

variable {s : Surroundings} {arguments : Mapping} (src : Sources s arguments)

/-- The environment that the arguments and the variable for the whole
field name. -/
def explicitEnvironment : Option Value :=
  Keyed.get? (src.explicit.view fieldDepth) (.text "environment")

/-- The environment that the files and the nested variables name. -/
def environmentBelow : Option Value :=
  Keyed.get? (src.below.view fieldDepth) (.text "environment")

/-- The environment of all sources is the one that is said explicitly, or
what the files and the nested variables say. -/
theorem environment_combined
    (hplain : Plain (Keyed.get? (src.combined.view fieldDepth) (.text "environment"))) :
    Keyed.get? (src.combined.view fieldDepth) (.text "environment")
      = src.explicitEnvironment.or src.environmentBelow := by
  have hget : Keyed.get? (src.combined.view fieldDepth) (.text "environment")
      = laid src.environmentBelow src.explicitEnvironment := by
    rw [src.view_combined]
    exact get?_merge (src.explicit.unrepeated_view fieldDepth) _ _
  rw [hget] at hplain ⊢
  exact laid_eq_or hplain

end Sources

variable {s : Surroundings} {arguments : Mapping} {given : Option Policies} {settings : Settings}
  {files : Files}

/-- The environment of the settings is the one of which the file was read
exactly if it is named explicitly, or the files and the nested variables
come to the environment that the variable for it names, each with
`development` where it says nothing.  Where nothing names it explicitly
the field is what the files and the nested variables say. -/
theorem environment_of_load (h : loadFrom s arguments given = .ok (settings, files)) :
    ∃ src : Sources s arguments,
      (settings.environment.name = src.layer
        ↔ src.explicitEnvironment.isSome
          ∨ src.environmentBelow.getD (.text "development") = .text (usualLayer s.vars))
      ∧ (src.explicitEnvironment = none →
        src.layer = usualLayer s.vars
          ∧ src.environmentBelow.getD (.text "development")
            = .text settings.environment.name) := by
  obtain ⟨src, policies, validated, -, hchecked, hmade⟩ := exists_sources_of_loadFrom h
  have henvironment : Validated checkEnvironment .development
      (Keyed.get? (src.combined.view fieldDepth) (.text "environment")) settings.environment := by
    rw [(of_makeDirectories hmade).1]
    exact (of_checkFields hchecked).1
  rw [src.environment_combined (henvironment.plain fun _ hcheck => by cases hcheck)] at henvironment
  refine ⟨src, ?_⟩
  cases hexplicit : src.explicitEnvironment with
  | some v =>
    rw [hexplicit, Option.some_or] at henvironment
    have hname : layerName s.vars src.explicit = .ok settings.environment.name :=
      layerName_of_environment
        (hexplicit.trans (congrArg some (eq_name_of_checkEnvironment henvironment)))
    have hlayer : src.layer = settings.environment.name :=
      Except.ok.inj (src.layer_eq.symm.trans hname)
    simp [hlayer]
  | none =>
    rw [hexplicit, Option.none_or] at henvironment
    have hname := name_of_validated henvironment
    have hlayer : src.layer = usualLayer s.vars :=
      Except.ok.inj (src.layer_eq.symm.trans (layerName_of_none hexplicit))
    refine ⟨?_, fun _ => ⟨hlayer, hname⟩⟩
    rw [hlayer, show (Value.text "development") = .text Environment.development.name from rfl,
      hname]
    simp

end Reading

/-- An argument decides on both, whatever the variable for the
environment says. -/
theorem environment_of_load_argument :
    let s := Surroundings.installed [("GROUPHIERARCHY_ENV", "testing")]
      [("testing.yaml", "policies:\n  groups:\n    max_depth: 2\n"),
        ("production.yaml", "policies:\n  groups:\n    max_depth: 4\n")]
    let arguments := Mapping.ofFields [(.text "environment", .text "production")]
    ∃ settings files, loadFrom s arguments none = .ok (settings, files)
      ∧ settings.policies.groups.maxDepth = 4
      ∧ ∃ src : Sources s arguments, settings.environment.name = src.layer := by
  intro s arguments
  obtain ⟨⟨settings, files⟩, hload, hdepth⟩ := map_toOption_eq_some_iff.mp
    (show (loadFrom s arguments none).toOption.map (fun r => r.1.policies.groups.maxDepth)
        = some 4 by
      decide +kernel)
  obtain ⟨src, hagree, -⟩ := environment_of_load hload
  have hexplicit : src.explicitEnvironment.isSome = true :=
    of_toOption_all (P := fun m : Mapping =>
      (Keyed.get? (m.said.view fieldDepth) (.text "environment")).isSome = true)
      src.gathered_eq (by decide +kernel)
  exact ⟨settings, files, hload, hdepth, src, hagree.mpr (.inl hexplicit)⟩

/-- The variable for the environment alone decides on the file, and the
field does not take it up. -/
theorem environment_differs_from_layer :
    let s := Surroundings.installed [("GROUPHIERARCHY_ENV", "testing")]
      [("testing.yaml", "policies:\n  groups:\n    cache_max_size: 0\n")]
    ∃ settings files, load s [] none = .ok (settings, files)
      ∧ settings.environment = .development
      ∧ settings.policies.groups.cacheMaxSize = 0
      ∧ ∀ src : Sources s (.ofFields []), src.layer = "testing" := by
  intro s
  obtain ⟨⟨settings, files⟩, hload, hread⟩ := map_toOption_eq_some_iff.mp
    (show (load s [] none).toOption.map
        (fun r => (r.1.environment, r.1.policies.groups.cacheMaxSize)) = some (.development, 0) by
      decide +kernel)
  obtain ⟨henvironment, hsize⟩ := Prod.mk.inj hread
  refine ⟨settings, files, hload, henvironment, hsize, fun src => ?_⟩
  have hnone : Keyed.get? (src.gathered.said.view fieldDepth) (.text "environment") = none :=
    of_toOption_all (P := fun m : Mapping =>
      Keyed.get? (m.said.view fieldDepth) (.text "environment") = none)
      src.gathered_eq (by decide +kernel)
  exact Except.ok.inj (src.layer_eq.symm.trans (layerName_of_none hnone))

end Lineage
