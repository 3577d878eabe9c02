/-
Lineage.Proofs.Config.Precedence — which source a setting comes from.

A field of policies or paths that holds no others is a `Leaf`.  Where all
that the sources hold on the way to it are mappings (`Sources.ClearAt`),
it is read from the first source that defines it, whatever the sources
say elsewhere, beside it as well (`leaves_of_load`).  The sources come
together in three different ways: mappings are merged, raw texts are
entered into a mapping that is merged, and decoded values are entered
into the policies.  Each of them keeps a clear path clear and lets
through what it does not define.

The last way changes the mapping in its place.  Where a file or an
argument holds one mapping under several names, a policy variable that is
entered under one of them is found under the others (`leaves_of_shared`),
so the fields that are met on the way of the variable and on that of the
field must be the same (`Sources.UntangledAt`).
-/
import Lineage.Proofs.Config.Checks
import Lineage.Proofs.Config.Sources
import Lineage.Usual

namespace Lineage

open Settings Schema
open Value (names)
open Variables (Decoded pathsOf settingsStart policyStart)

/-! ## Leaves -/

/-- The fields of policies and paths that hold no others. -/
inductive Leaf where
  | policies (leaf : PolicyLeaf)
  | paths (leaf : PathLeaf)
  deriving DecidableEq, Repr

namespace Leaf

/-- The names that lead to a field within settings. -/
def path : Leaf → List Text
  | .policies leaf => "policies" :: leaf.path
  | .paths leaf => ["paths", leaf.name]

/-- The settings hold in the field what was found for it. -/
def Holds (home : Path) (settings : Settings) (found : Option Value) : Leaf → Prop
  | .policies leaf => leaf.Holds settings.policies found
  | .paths leaf => leaf.Holds home settings.paths found

/-- Every field has at least two names. -/
theorem exists_names (leaf : Leaf) :
    ∃ name next path, names leaf.path = name :: next :: path := by
  rcases leaf with (_ | _ | _ | _) | (_ | _) <;> exact ⟨_, _, _, rfl⟩

/-- No field stands deeper than settings have fields. -/
theorem length_names (leaf : Leaf) : (names leaf.path).length ≤ fieldDepth + 1 := by
  rcases leaf with (_ | _ | _ | _) | (_ | _) <;> decide

theorem at?_empty (leaf : Leaf) : (Value.object []).at? (names leaf.path) = none := by
  obtain ⟨name, next, path, hnames⟩ := leaf.exists_names
  rw [hnames]
  rfl

end Leaf

/-! ## The mapping of the policies -/

/-- The fields that policies are checked by are what is seen of their
mapping. -/
theorem object_policyFields {h : Heap} {root : Nat}
    (hbody : ∃ links, h[root]? = some (.fields links)) :
    Value.object (Config.policyFields h root) = h.view fieldDepth (.place root) := by
  obtain ⟨links, hlinks⟩ := hbody
  have hlinks := Heap.links?_place_iff.mpr hlinks
  rw [Config.policyFields, hlinks, Option.getD_some, fieldDepth, (Heap.view_of_links? hlinks).2]

section Policies

variable [Stack] [YamlReader]

/-- The mapping that policies are read from is an object of a sound
heap. -/
theorem Config.sound_of_policySource {f : Files} {source : Graph} {h : Heap} {root : Nat}
    (hsource : Config.policySource f source = .ok (h, root)) :
    h.Sound ∧ ∃ links, h[root]? = some (.fields links) := by
  unfold Config.policySource at hsource
  split at hsource
  · rename_i m _
    split at hsource
    · cases hsource
      exact ⟨m.sound.concat (b := .fields m.links) m.within, m.links, by simp⟩
    · cases hsource
  · split at hsource
    · unfold Config.readPolicyFile at hsource
      split at hsource
      · cases hsource
      · cases hsource
      · split at hsource
        · cases hsource
        · rename_i g _
          split at hsource
          · cases hsource
            exact ⟨by decide, [], rfl⟩
          · split at hsource
            · rename_i n m hroot hmapping
              cases hsource
              obtain ⟨-, hlinks⟩ := Graph.of_mapping? hmapping
              rw [hroot] at hlinks
              exact ⟨g.sound, m.links, Heap.links?_place_iff.mp hlinks⟩
            · cases hsource
    · cases hsource

/-- Policies that are read are the checked ones of a mapping into which
the policy variables were entered. -/
theorem of_policiesOf {s : Surroundings} {combined : Mapping} {policies : Policies}
    (h : policiesOf s combined none = .ok policies) :
    ∃ heap root grown, Config.policySource s.files (policySourceOf combined) = .ok (heap, root)
      ∧ s.vars.policiesIn heap root = .ok grown
      ∧ Policies.checkFields (Config.policyFields grown root) = .ok policies := by
  rw [policiesOf] at h
  unfold Config.loadPoliciesFrom at h
  split at h
  · cases h
  · rename_i heap root hsource
    split at h
    · cases h
    · rename_i grown hgrown
      exact ⟨heap, root, grown, hsource, hgrown,
        Checked.toExcept_eq_ok_iff.mp (mapError_eq_ok_iff.mp h)⟩

/-- What is seen of the mapping that policies are read from, where the
source is one. -/
theorem view_of_policySource {f : Files} {source : Graph} {links : Links} {h : Heap} {root : Nat}
    (hlinks : source.heap.links? source.root = some links)
    (hsource : Config.policySource f source = .ok (h, root)) (depth : Nat) :
    h.view (depth + 1) (.place root) = .object (source.heap.viewLinks depth links) := by
  obtain ⟨m, hm, hheap, rfl⟩ := Graph.exists_mapping hlinks
  unfold Config.policySource at hsource
  rw [hm] at hsource
  dsimp only at hsource
  split at hsource
  · cases hsource
    have hplace : Heap.links? (m.heap ++ [.fields m.links]) (.place m.heap.length)
        = some m.links :=
      Heap.links?_place_iff.mpr (by simp)
    rw [(Heap.view_of_links? hplace).2,
      Heap.viewLinks_of_kept m.sound (List.prefix_append _ _) depth m.within, hheap]
  · cases hsource

/-- Where the sources hold a mapping under `policies`, or nothing, this is
the mapping. -/
theorem at?_of_policySource {f : Files} {combined : Mapping} {h : Heap} {root : Nat} {next : Text}
    {path : List Text} (hsource : Config.policySource f (policySourceOf combined) = .ok (h, root))
    (hclear : (Value.object (combined.view fieldDepth)).Clear
      (names ("policies" :: next :: path))) :
    (h.view fieldDepth (.place root)).at? (names (next :: path))
      = (Value.object (combined.view fieldDepth)).at? (names ("policies" :: next :: path)) := by
  have hempty (hnothing : policySourceOf combined = .ofValue (.object [])) :
      (h.view fieldDepth (.place root)).at? (names (next :: path)) = none := by
    rw [hnothing] at hsource
    have hlinks : (Graph.ofValue (.object [])).heap.links? (Graph.ofValue (.object [])).root
        = some [] := rfl
    rw [fieldDepth, view_of_policySource hlinks hsource]
    rfl
  rw [Value.at?_names_cons (.object (combined.view fieldDepth))]
  change _ = (Keyed.get? (combined.view fieldDepth) (.text "policies")).bind _
  have hfield := Value.clear_cons.mp hclear
  rw [Mapping.get?_view] at hfield ⊢
  cases hget : Keyed.get? combined.links (.text "policies") with
  | none => exact hempty (by rw [policySourceOf, Mapping.get?_eq_none hget])
  | some r =>
    rw [hget] at hfield
    obtain ⟨inner, hinner, -⟩ := hfield _ rfl
    obtain ⟨links, hlinks⟩ : ∃ links, combined.heap.links? r = some links := by
      refine Option.ne_none_iff_exists'.mp fun hnone => ?_
      have hplain := (Heap.fields?_view combined.heap fieldDepth r).mpr hnone
      rw [hinner] at hplain
      cases hplain
    have hview : combined.heap.view fieldDepth r
        = .object (combined.heap.viewLinks 1 links) :=
      (Heap.view_of_links? hlinks).2 1
    obtain ⟨g, hg, hheap, rfl⟩ := Mapping.exists_graph hget
    rw [Option.map_some, Option.bind_some, hview]
    cases hsaid : g.heap.saysNothing g.root with
    | true =>
      have hnone : links = [] := by
        obtain ⟨n, hn, hbody⟩ := Heap.exists_place_of_links? hlinks
        rw [← hheap] at hbody
        rw [hn] at hsaid
        simpa [Heap.saysNothing, Heap.body?, hbody] using hsaid
      rw [hempty (by rw [policySourceOf, hg]; simp [hsaid]), hnone]
      rfl
    | false =>
      have hsame : policySourceOf combined = g := by
        rw [policySourceOf, hg]
        simp [hsaid]
      rw [hsame] at hsource
      rw [fieldDepth, view_of_policySource (hheap ▸ hlinks) hsource, hheap]

end Policies

/-! ## Clear paths -/

/-- Dropping fields that are null changes nothing on the way along a
clear path of more than one name. -/
theorem clear_and_at?_filter {fields : Fields} {name next : Scalar} {path : List Scalar}
    (hnames : fields.Unrepeated) (h : (Value.object fields).Clear (name :: next :: path)) :
    let kept := Value.object (fields.filter fun f => !f.2.isNull)
    kept.Clear (name :: next :: path)
      ∧ kept.at? (name :: next :: path) = (Value.object fields).at? (name :: next :: path) := by
  have hget : Keyed.get? (fields.filter fun f => !f.2.isNull) name = Keyed.get? fields name := by
    rw [Keyed.get?_filter hnames fun v => !v.isNull]
    cases hfield : Keyed.get? fields name with
    | none => rfl
    | some v =>
      obtain ⟨inner, rfl, -⟩ := Value.clear_cons.mp h v hfield
      rfl
  refine ⟨Value.clear_cons.mpr fun v hv => ?_, ?_⟩
  · exact Value.clear_cons.mp h v (hget ▸ hv)
  · rw [Value.at?_cons, Value.at?_cons, hget]

section Reading

variable [Stack] [YamlReader] [SettingsReader]

namespace Sources

variable {s : Surroundings} {arguments : Mapping} (src : Sources s arguments)

/-- What the variables for whole fields say. -/
def whole (_ : Sources s arguments) : Fields :=
  cutFields fieldDepth ((fieldVariables s.vars fieldNames).toOption.getD [])

/-- On the way to a field every source holds a mapping, if it holds
anything there. -/
structure ClearAt (leaf : Leaf) : Prop where
  standard : (Value.object (src.standard.view fieldDepth)).Clear (names leaf.path)
  named : (Value.object (src.named.view fieldDepth)).Clear (names leaf.path)
  whole : (Value.object src.whole).Clear (names leaf.path)
  arguments : (Value.object (arguments.view fieldDepth)).Clear (names leaf.path)
  /-- No nested variable puts a text there. -/
  nested : ∀ e ∈ pathsOf settingsStart s.vars, e.1 <+: leaf.path → e.1 = leaf.path
  /-- Nor does a policy variable put anything there. -/
  policy : ∀ within, leaf = .policies within →
    ∀ e ∈ pathsOf policyStart s.vars, e.1 <+: within.path → e.1 = within.path

/-- No policy variable meets a field on its way that is met at another
place of the way to the field. -/
def UntangledAt (leaf : Leaf) : Prop :=
  ∀ within, leaf = .policies within →
    ∀ h root, Config.policySource s.files (policySourceOf src.combined) = .ok (h, root) →
      ∀ e ∈ pathsOf policyStart s.vars, h.Unmixed (.place root) e.1 within.path

/-- What the first source that defines a path says: an argument, a
variable for a whole field, a nested variable, the file of the
environment or the default file. -/
def first? (path : List Text) : Option Value :=
  ((Value.object (arguments.view fieldDepth)).at? (names path)).or <|
    ((Value.object src.whole).at? (names path)).or <|
      ((lastAt path (pathsOf settingsStart s.vars)).map .text).or <|
        ((Value.object (src.named.view fieldDepth)).at? (names path)).or
          ((Value.object (src.standard.view fieldDepth)).at? (names path))

/-- What is found for a field: policy variables come before all other
sources. -/
def found (decoded : List (List Text × Value)) : Leaf → Option Value
  | .policies leaf => (lastAt leaf.path decoded).or (src.first? ("policies" :: leaf.path))
  | .paths leaf => src.first? ["paths", leaf.name]

end Sources

namespace Sources

variable {s : Surroundings} {arguments : Mapping} {src : Sources s arguments} {leaf : Leaf}

/-- What was gathered from arguments that are no names of the package. -/
theorem view_gathered_eq (hplain : arguments.Plain) :
    src.gathered.view fieldDepth = merge src.whole (arguments.view fieldDepth)
      ∧ (Value.object src.whole).Proper := by
  obtain ⟨whole, hwhole, hview⟩ := src.view_gathered hplain
  have heq : src.whole = cutFields fieldDepth whole := by
    rw [Sources.whole, hwhole]
    rfl
  rw [heq]
  refine ⟨hview fieldDepth, ?_⟩
  rw [← Mapping.view_ofFields (proper_fieldVariables hwhole)]
  exact Mapping.proper_view _ _

/-- No nested variable ends on the way. -/
theorem ClearAt.entries (h : src.ClearAt leaf) :
    ∀ e ∈ Variables.asTexts (pathsOf settingsStart s.vars),
      e.1 <+: leaf.path → e.1 = leaf.path := by
  intro e he
  obtain ⟨raw, hraw, -⟩ := Variables.mem_asTexts he
  exact h.nested _ hraw

/-- What is seen of the nested variables. -/
theorem cut_nested :
    Value.object (cutFields fieldDepth src.nested)
      = (Value.object src.nested).cut (fieldDepth + 1) := by
  rw [Value.cut]
  rfl

theorem proper_cut_nested : (Value.object (cutFields fieldDepth src.nested)).Proper := by
  rw [← Mapping.view_ofFields src.proper_nested]
  exact Mapping.proper_view _ _

/-- What the nested variables say is clear where each of them is. -/
theorem ClearAt.clear_nested (h : src.ClearAt leaf) :
    (Value.object (cutFields fieldDepth src.nested)).Clear (names leaf.path) := by
  rw [cut_nested]
  exact (src.entered_nested.clear (Value.clear_empty _) h.entries).cut leaf.length_names

/-- Where the nested variables say no mapping, the last one for the path
counts. -/
theorem ClearAt.at?_nested (h : src.ClearAt leaf)
    (hplain : Plain ((Value.object (cutFields fieldDepth src.nested)).at? (names leaf.path))) :
    (Value.object (cutFields fieldDepth src.nested)).at? (names leaf.path)
      = (lastAt leaf.path (pathsOf settingsStart s.vars)).map .text := by
  rw [cut_nested, Value.at?_cut _ leaf.length_names] at hplain ⊢
  have hwhole : Plain ((Value.object src.nested).at? (names leaf.path)) := by
    intro fields heq
    rw [heq] at hplain
    cases hdepth : fieldDepth + 1 - (names leaf.path).length with
    | zero => exact hplain [] (by rw [hdepth, Option.map_some, Value.cut])
    | succ depth => exact hplain _ (by rw [hdepth, Option.map_some, Value.cut])
  rw [src.entered_nested.at?_eq h.entries hwhole, leaf.at?_empty, Option.or_none,
    Variables.lastAt_asTexts, Option.map_map]
  refine congrArg (fun f => Option.map f _) (funext fun raw => ?_)
  rw [Function.comp_apply, Value.cut]

/-- What the files and the nested variables say together. -/
theorem ClearAt.below (h : src.ClearAt leaf) :
    (Value.object (src.below.view fieldDepth)).Clear (names leaf.path)
      ∧ (Plain ((Value.object (src.below.view fieldDepth)).at? (names leaf.path)) →
        (Value.object (src.below.view fieldDepth)).at? (names leaf.path)
          = ((lastAt leaf.path (pathsOf settingsStart s.vars)).map .text).or
            (((Value.object (src.named.view fieldDepth)).at? (names leaf.path)).or
              ((Value.object (src.standard.view fieldDepth)).at? (names leaf.path)))) := by
  have hclear := Value.clear_empty (names leaf.path)
  have hstandard := hclear.overlay h.standard (src.standard.proper_view fieldDepth)
  have hnamed := hstandard.overlay h.named (src.named.proper_view fieldDepth)
  have heq : Value.object (src.below.view fieldDepth)
      = (((Value.object []).overlay (.object (src.standard.view fieldDepth))).overlay
          (.object (src.named.view fieldDepth))).overlay
        (.object (cutFields fieldDepth src.nested)) := by
    simp [src.view_below]
  rw [heq, h.clear_nested.at?_overlay proper_cut_nested,
    h.named.at?_overlay (src.named.proper_view fieldDepth),
    h.standard.at?_overlay (src.standard.proper_view fieldDepth), leaf.at?_empty, none_laid]
  exact ⟨hnamed.overlay h.clear_nested proper_cut_nested, fun hplain =>
    laid_eq_or_of_plain hplain (fun hfiles => laid_eq_or hfiles) h.at?_nested⟩

/-- What the variables for whole fields and the arguments say together. -/
theorem ClearAt.explicit (h : src.ClearAt leaf) (hplain : arguments.Plain) :
    (Value.object (src.explicit.view fieldDepth)).Clear (names leaf.path)
      ∧ (Value.object (src.explicit.view fieldDepth)).at? (names leaf.path)
        = laid ((Value.object src.whole).at? (names leaf.path))
          ((Value.object (arguments.view fieldDepth)).at? (names leaf.path)) := by
  obtain ⟨hview, hwhole⟩ := src.view_gathered_eq hplain
  have hproper := arguments.proper_view fieldDepth
  have hclear := h.whole.overlay h.arguments hproper
  have hat := h.arguments.at?_overlay hproper (.object src.whole)
  rw [Value.object_overlay_object] at hclear hat
  rw [← hat, Sources.explicit, Mapping.view_said, hview]
  obtain ⟨name, next, path, hnames⟩ := leaf.exists_names
  rw [hnames] at hclear ⊢
  exact clear_and_at?_filter (hwhole.merge hproper).unrepeated hclear

/-- All sources together are clear where each of them is, and what they
say there, if it is no mapping, is what the first of them says. -/
theorem ClearAt.combined (h : src.ClearAt leaf) (hplain : arguments.Plain) :
    (Value.object (src.combined.view fieldDepth)).Clear (names leaf.path)
      ∧ (Plain ((Value.object (src.combined.view fieldDepth)).at? (names leaf.path)) →
        (Value.object (src.combined.view fieldDepth)).at? (names leaf.path)
          = src.first? leaf.path) := by
  obtain ⟨hbelow, hlower⟩ := h.below
  obtain ⟨hexplicit, hupper⟩ := h.explicit hplain
  have hproper := src.explicit.proper_view fieldDepth
  have heq : Value.object (src.combined.view fieldDepth)
      = (Value.object (src.below.view fieldDepth)).overlay
        (.object (src.explicit.view fieldDepth)) := by
    rw [Value.object_overlay_object, src.view_combined]
  rw [heq, hexplicit.at?_overlay hproper, hupper]
  refine ⟨hbelow.overlay hexplicit hproper, fun hplain => ?_⟩
  rw [laid_eq_or_of_plain hplain hlower fun hexplicit => laid_eq_or hexplicit, Option.or_assoc]
  rfl

end Sources

/-! ## Every leaf -/

namespace Sources

variable {s : Surroundings} {arguments : Mapping} {src : Sources s arguments}

/-- Policies hold in every field that the sources are clear at what the
policy variables or the first other source say. -/
theorem holds_policies {policies : Policies} (hplain : arguments.Plain)
    (h : policiesOf s src.combined none = .ok policies) :
    ∃ decoded, Decoded (pathsOf policyStart s.vars) decoded
      ∧ ∀ leaf, src.ClearAt (.policies leaf) → src.UntangledAt (.policies leaf) →
        leaf.Holds policies (src.found decoded (.policies leaf)) := by
  obtain ⟨heap, root, grown, hsource, hgrown, hchecked⟩ := of_policiesOf h
  obtain ⟨decoded, hdecoded, hrun⟩ := Variables.grafted_of_enterPlanted hgrown
  obtain ⟨hsound, hbody⟩ := Config.sound_of_policySource hsource
  have hbears := Heap.Bears.refl hsound hbody
  have hne : ∀ d ∈ decoded, d.1 ≠ [] := by
    intro d hd
    obtain ⟨raw, hraw⟩ := hdecoded.mem hd
    exact Variables.ne_nil_of_mem_pathsOf hraw
  refine ⟨decoded, hdecoded, fun leaf hclear huntangled => ?_⟩
  have hholds := holds_of_checkPolicies hchecked leaf
  rw [object_policyFields (hbears.of_grafted hrun hdecoded.proper hne).body] at hholds
  obtain ⟨next, path, hpath⟩ : ∃ next path, leaf.path = next :: path := by
    cases leaf <;> exact ⟨_, _, rfl⟩
  obtain ⟨hcombined, hfirst⟩ := hclear.combined hplain
  have hat : (heap.view fieldDepth (.place root)).at? (names leaf.path)
      = (Value.object (src.combined.view fieldDepth)).at? (names (Leaf.policies leaf).path) := by
    rw [Leaf.path, hpath] at hcombined ⊢
    exact at?_of_policySource hsource hcombined
  have hvalue := hrun.at?_eq hbears hdecoded.proper hne
    (fun d hd hpre => by
      obtain ⟨raw, hraw⟩ := hdecoded.mem hd
      exact hclear.policy leaf rfl _ hraw hpre)
    (fun d hd => by
      obtain ⟨raw, hraw⟩ := hdecoded.mem hd
      exact huntangled leaf rfl heap root hsource _ hraw)
    leaf.length_path hholds.bare
  rw [hvalue] at hholds
  rw [found]
  cases hlast : lastAt leaf.path decoded with
  | some v =>
    rw [hlast, Option.some_or] at hholds
    exact hholds
  | none =>
    rw [hlast, Option.none_or, hat] at hholds
    rw [Option.none_or, ← Leaf.path, ← hfirst hholds.bare.plain]
    exact hholds

end Sources

variable {s : Surroundings} {arguments : Mapping} {settings : Settings} {files : Files}

/-- **Precedence.**  When settings are read, every field of policies and
paths at which the sources are clear and untangled is validated from the
first source that defines it: a policy variable (for policies only), an
argument, a variable for a whole field, a nested variable, the file of the
environment, the default file, or else it has the default of its class.
The arguments have no names that the package keeps for itself. -/
theorem leaves_of_load (hplain : arguments.Plain)
    (h : loadFrom s arguments none = .ok (settings, files)) :
    ∃ (src : Sources s arguments) (decoded : List (List Text × Value)) (validated : Settings),
      Decoded (pathsOf policyStart s.vars) decoded
        ∧ makeDirectories s validated = .ok (settings, files)
        ∧ ∀ leaf, src.ClearAt leaf → src.UntangledAt leaf →
          leaf.Holds s.home validated (src.found decoded leaf) := by
  obtain ⟨src, policies, validated, hpolicies, hchecked, hmade⟩ := exists_sources_of_loadFrom h
  obtain ⟨-, hpaths, rfl⟩ := of_checkFields hchecked
  obtain ⟨decoded, hdecoded, hholds⟩ := Sources.holds_policies hplain hpolicies
  refine ⟨src, decoded, validated, hdecoded, hmade, fun leaf hclear huntangled => ?_⟩
  cases leaf with
  | policies leaf => exact hholds leaf hclear huntangled
  | paths leaf =>
    have hleaf := hpaths leaf
    rw [Leaf.Holds, Sources.found]
    have hfirst := (hclear.combined hplain).2 hleaf.plain
    rw [Leaf.path] at hfirst
    rw [← hfirst]
    exact hleaf

/-- What all sources say together is found by bringing them together. -/
theorem Sources.combined_of_all (src : Sources s arguments) {P : Mapping → Prop}
    [DecidablePred P]
    (h : ((SettingsReader.gather s arguments >>= fun gathered =>
      combine s gathered.said (some {})).toOption.all fun r => decide (P r.1)) = true) :
    P src.combined := by
  have hgiven : policiesOf s src.combined (some {}) = .ok {} := rfl
  exact of_toOption_all (P := fun r : Mapping × Policies => P r.1)
    (bind_eq_ok_iff.mpr ⟨_, src.gathered_eq, src.combine_eq hgiven⟩) h

/-- The directory and the name of the file are found by gathering what is
said explicitly. -/
theorem Sources.places_of_gathered (src : Sources s arguments) {directory : Path} {layer : Text}
    (h : ((SettingsReader.gather s arguments).toOption.all fun m =>
      decide ((layerDirectory s.home m.said).toOption = some directory
        ∧ (layerName s.vars m.said).toOption = some layer)) = true) :
    src.directory = directory ∧ src.layer = layer := by
  obtain ⟨hdirectory, hlayer⟩ := of_toOption_all
    (P := fun m : Mapping => (layerDirectory s.home m.said).toOption = some directory
      ∧ (layerName s.vars m.said).toOption = some layer) src.gathered_eq h
  rw [src.directory_eq] at hdirectory
  rw [src.layer_eq] at hlayer
  exact ⟨Option.some.inj hdirectory, Option.some.inj hlayer⟩

end Reading

/-- Two files that define different limits, and a policy variable. -/
def layeredInstallation : Surroundings :=
  .installed [("GROUPHIERARCHY_POLICY__GROUPS__MAX_DEPTH", "6")]
    [("default.yaml", "policies:\n  groups:\n    max_depth: 2\n    cache_max_size: 20\n"),
      ("development.yaml", "policies:\n  groups:\n    cache_expiration_seconds: 3\n")]

/-- An argument that gives the version alone. -/
def versionArgument : Mapping :=
  .ofFields [(.text "policies", .object [(.text "policy_version", .text "new")])]

/-- On the way to all policies the fields hold mappings, if anything. -/
def ClearAtPolicies (fields : Fields) : Prop :=
  ∀ leaf ∈ PolicyLeaf.all, (Value.object fields).Clear (names (Leaf.policies leaf).path)

instance : DecidablePred ClearAtPolicies := fun fields =>
  inferInstanceAs (Decidable (∀ leaf ∈ PolicyLeaf.all,
    (Value.object fields).Clear (names (Leaf.policies leaf).path)))

/-- The policy variables are unmixed with the way to all policies in the
mapping that these are read from. -/
def UntangledPolicies (s : Surroundings) (combined : Mapping) : Prop :=
  (Config.policySource s.files (policySourceOf combined)).toOption.all (fun r =>
    decide (∀ leaf ∈ PolicyLeaf.all, ∀ e ∈ pathsOf policyStart s.vars,
      r.1.Unmixed (.place r.2) e.1 leaf.path)) = true

instance (s : Surroundings) : DecidablePred (UntangledPolicies s) := fun combined =>
  inferInstanceAs (Decidable ((Config.policySource s.files (policySourceOf combined)).toOption.all
    (fun r => decide (∀ leaf ∈ PolicyLeaf.all, ∀ e ∈ pathsOf policyStart s.vars,
      r.1.Unmixed (.place r.2) e.1 leaf.path)) = true))

/-- What the sources of this installation hold is clear at all
policies. -/
theorem clearAt_layered (src : Sources layeredInstallation versionArgument) (leaf : PolicyLeaf) :
    src.ClearAt (.policies leaf) ∧ src.UntangledAt (.policies leaf) := by
  obtain ⟨hdirectory, hlayer⟩ : src.directory = ⟨"/", ["srv", "config"]⟩
      ∧ src.layer = "development" :=
    src.places_of_gathered (by decide +kernel)
  -- Each file is read once for all four fields.
  have hstandard := of_toOption_all (P := fun m : Mapping => ClearAtPolicies (m.view fieldDepth))
    src.standard_eq (by
      rw [hdirectory]
      decide +kernel)
  have hnamed := of_toOption_all (P := fun m : Mapping => ClearAtPolicies (m.view fieldDepth))
    src.named_eq (by
      rw [hdirectory, hlayer]
      decide +kernel)
  have hwhole : ClearAtPolicies src.whole := by
    unfold Sources.whole
    decide +kernel
  have hargument : ClearAtPolicies (versionArgument.view fieldDepth) := by decide +kernel
  have hnested : pathsOf settingsStart layeredInstallation.vars = [] := by decide +kernel
  have hpolicy : pathsOf policyStart layeredInstallation.vars
      = [([("groups" : Text), "max_depth"], ("6" : Text))] := by
    decide +kernel
  have huntangled : UntangledPolicies layeredInstallation src.combined :=
    src.combined_of_all (by decide +kernel)
  have hleaf := leaf.mem_all
  refine ⟨⟨hstandard leaf hleaf, hnamed leaf hleaf, hwhole leaf hleaf, hargument leaf hleaf,
    fun e he => ?_, ?_⟩, ?_⟩
  · rw [hnested] at he
    cases he
  · rintro within - e he hpre
    rw [hpolicy] at he
    obtain rfl := List.mem_singleton.mp he
    cases within with
    | policyVersion => exact absurd hpre (by decide)
    | maxDepth => rfl
    | cacheMaxSize => exact absurd hpre (by decide)
    | cacheExpirationSeconds => exact absurd hpre (by decide)
  · rintro within - h root hsource e he
    unfold UntangledPolicies at huntangled
    rw [hsource] at huntangled
    exact of_decide_eq_true huntangled within within.mem_all e he

/-- The version comes from the argument, the depth from the variable
although the default file defines it too, the size of the cache from the
default file and its time from that of the environment. -/
theorem leaves_of_load_layered :
    ∃ settings files, loadFrom layeredInstallation versionArgument none = .ok (settings, files)
      ∧ settings.policies = ⟨"new", ⟨6, 20, 3⟩⟩
      ∧ ∃ (src : Sources layeredInstallation versionArgument)
        (decoded : List (List Text × Value)), ∀ leaf : PolicyLeaf, src.ClearAt (.policies leaf)
          ∧ src.UntangledAt (.policies leaf)
          ∧ leaf.Holds settings.policies (src.found decoded (.policies leaf)) := by
  obtain ⟨⟨settings, files⟩, hload, hpolicies⟩ := map_toOption_eq_some_iff.mp
    (show (loadFrom layeredInstallation versionArgument none).toOption.map (fun r => r.1.policies)
        = some ⟨"new", ⟨6, 20, 3⟩⟩ by
      decide +kernel)
  obtain ⟨src, decoded, validated, -, hmade, hleaves⟩ := leaves_of_load (by decide) hload
  refine ⟨settings, files, hload, hpolicies, src, decoded, fun leaf => ?_⟩
  obtain ⟨hclear, huntangled⟩ := clearAt_layered src leaf
  have hholds := hleaves _ hclear huntangled
  rw [Leaf.Holds, ← (of_makeDirectories hmade).2] at hholds
  exact ⟨hclear, huntangled, hholds⟩

instance (found : Option Value) (s : Scalar) : Decidable (found = some (.scalar s)) :=
  match found with
  | some (.scalar t) => decidable_of_iff (t = s) (by simp)
  | some (.array _) => isFalse (by simp)
  | some (.object _) => isFalse (by simp)
  | none => isFalse (by simp)

/-- A file that holds one mapping under two names, and a policy variable
that is entered under one of them. -/
def sharedInstallation : Surroundings :=
  .installed [("GROUPHIERARCHY_POLICY__OTHER__MAX_DEPTH", "8")]
    [("default.yaml", "policies:\n  groups: &g \x7bmax_depth: 4\x7d\n  other: *g\n")]

/-- The sources of this installation are clear at the depth, which the
default file defines and no other source does. -/
theorem found_shared (src : Sources sharedInstallation (.ofFields []))
    {decoded : List (List Text × Value)}
    (hdecoded : Decoded (pathsOf policyStart sharedInstallation.vars) decoded) :
    src.ClearAt (.policies .maxDepth)
      ∧ src.found decoded (.policies .maxDepth) = some (.int 4) := by
  obtain ⟨hdirectory, hlayer⟩ : src.directory = ⟨"/", ["srv", "config"]⟩
      ∧ src.layer = "development" :=
    src.places_of_gathered (by decide +kernel)
  obtain ⟨hclear, hfour⟩ : (Value.object (src.standard.view fieldDepth)).Clear
        (names (Leaf.policies .maxDepth).path)
      ∧ (Value.object (src.standard.view fieldDepth)).at?
        (names (Leaf.policies .maxDepth).path) = some (.int 4) :=
    of_toOption_all (P := fun m : Mapping =>
      (Value.object (m.view fieldDepth)).Clear (names (Leaf.policies .maxDepth).path)
        ∧ (Value.object (m.view fieldDepth)).at? (names (Leaf.policies .maxDepth).path)
          = some (.int 4)) src.standard_eq (by
      rw [hdirectory]
      decide +kernel)
  have hnamed : src.named.view fieldDepth = [] :=
    List.isEmpty_iff.mp <| of_toOption_all
      (P := fun m : Mapping => (m.view fieldDepth).isEmpty = true) src.named_eq (by
        rw [hdirectory, hlayer]
        decide +kernel)
  have hwhole : src.whole = [] := by
    unfold Sources.whole
    rw [← List.isEmpty_iff]
    decide +kernel
  have hnested : pathsOf settingsStart sharedInstallation.vars = [] := by decide +kernel
  have hpolicy : pathsOf policyStart sharedInstallation.vars
      = [([("other" : Text), "max_depth"], ("8" : Text))] := by
    decide +kernel
  constructor
  · refine ⟨hclear, ?_, ?_, Value.clear_empty _, fun e he => ?_, ?_⟩
    · rw [hnamed]
      exact Value.clear_empty _
    · rw [hwhole]
      exact Value.clear_empty _
    · rw [hnested] at he
      cases he
    · rintro within heq e he hpre
      obtain rfl := Leaf.policies.inj heq
      rw [hpolicy] at he
      obtain rfl := List.mem_singleton.mp he
      exact absurd hpre (by decide)
  · -- The only policy variable leads to another field.
    have hlast : lastAt PolicyLeaf.maxDepth.path decoded = none := by
      rw [hpolicy] at hdecoded
      cases hdecoded with
      | cons hd hrest =>
        cases hrest
        have hapart : ([("other" : Text), "max_depth"] : List Text) ≠ PolicyLeaf.maxDepth.path := by
          decide
        rw [lastAt, lastAt, hd.1, if_neg hapart]
        rfl
    rw [Sources.found, hlast, Option.none_or, Sources.first?, hwhole, hnested, hnamed]
    exact hfour

/-- The depth comes from the variable, although this leads to another
field and the default file alone defines the depth. -/
theorem leaves_of_shared :
    ∃ settings files, loadFrom sharedInstallation (.ofFields []) none = .ok (settings, files)
      ∧ ∀ (src : Sources sharedInstallation (.ofFields [])) (decoded : List (List Text × Value)),
        Decoded (pathsOf policyStart sharedInstallation.vars) decoded →
          src.ClearAt (.policies .maxDepth)
            ∧ src.found decoded (.policies .maxDepth) = some (.int 4)
            ∧ ¬ PolicyLeaf.maxDepth.Holds settings.policies
              (src.found decoded (.policies .maxDepth)) := by
  obtain ⟨⟨settings, files⟩, hload, hdepth⟩ := map_toOption_eq_some_iff.mp
    (show (loadFrom sharedInstallation (.ofFields []) none).toOption.map
        (fun r => r.1.policies.groups.maxDepth) = some 8 by
      decide +kernel)
  refine ⟨settings, files, hload, fun src decoded hdecoded => ?_⟩
  obtain ⟨hclear, hfound⟩ := found_shared src hdecoded
  refine ⟨hclear, hfound, fun hholds => ?_⟩
  rw [hfound] at hholds
  have hfour : settings.policies.groups.maxDepth = 4 := (Except.ok.inj hholds).symm
  rw [hfour] at hdepth
  exact absurd hdepth (by decide)

end Lineage
