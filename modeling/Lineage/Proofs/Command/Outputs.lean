/-
Lineage.Proofs.Command.Outputs — three ways to the same document.

What is displayed can be written to a file, printed by the command line
for displays, and printed by the command `show` of the other command
line.  The first writes sorted names and characters as they are, the
others names in their order and escapes; but the texts of loaded records
and annotations are unpaired, so each is read as the document of the same
views (`outputs_agree`).  Nothing is written unless all views could be
produced.  Of the surroundings only the files matter, and of the settings
only the limits: neither the time nor any variable changes the views.
-/
import Lineage.Command.Explore
import Lineage.Proofs.Config.Sources
import Lineage.Proofs.Directory.Shown
import Lineage.Proofs.Directory.Undated
import Lineage.Proofs.Files.Loaded

namespace Lineage

namespace Json

/-! ## Names in their order -/

mutual

/-- Where names stand in the order of the object, a value stays as it
is. -/
theorem Style.arranged_of_unsorted {style : Style} (h : style.sorted = false) :
    ∀ v : Value, style.arranged v = v
  | .scalar _ => rfl
  | .array items => by rw [arranged, arrangedItems_of_unsorted h items]
  | .object fields => by
    rw [arranged, arrangedFields_of_unsorted h fields, order, h]
    rfl

theorem Style.arrangedItems_of_unsorted {style : Style} (h : style.sorted = false) :
    ∀ items : List Value, style.arrangedItems items = items
  | [] => rfl
  | item :: rest => by
    rw [arrangedItems, arranged_of_unsorted h item, arrangedItems_of_unsorted h rest]

theorem Style.arrangedFields_of_unsorted {style : Style} (h : style.sorted = false) :
    ∀ fields : Fields, style.arrangedFields fields = fields
  | [] => rfl
  | (name, value) :: rest => by
    rw [arrangedFields, arranged_of_unsorted h value, arrangedFields_of_unsorted h rest]

end

end Json

/-! ## Loading and projecting -/

namespace Display

variable {s : Surroundings} {settings : Settings} {r : DisplayRequest} {views : List View}

/-- Printed views are read as their document. -/
theorem read_printViews (htexts : ∀ v ∈ views, v.AllTexts Json.Unpaired)
    (hroom : 2 * View.heightAll views + 1 ≤ Json.maxNesting) :
    Json.read (printViews views) = .ok (.array (View.toValues views)) := by
  have hspaced : printStyle.Spaced := Files.spaced_documentStyle
  have hlegible := (View.legible_toValues Json.unpaired_ofChars htexts).mono (fun _ ht => ht) hroom
  have hend : ∀ p ∈ Text.ofString "\n", p.isIn Json.isGap = true := by decide
  have hread := Json.readWithin_print hspaced hlegible hend
  rw [Json.Style.arranged_of_unsorted rfl] at hread
  exact hread

variable [Stack]

/-- Views are what the store of the loaded records shows of the heads. -/
theorem viewsOf_eq_ok_iff :
    viewsOf s settings r = .ok views
      ↔ ∃ gs, s.files.loadGroups s.clock.stamp r.groups = .ok gs
        ∧ ∃ acls, aclsOf s.files r.acls = .ok acls
          ∧ (Directory.display acls s.clock
            ((Directory.empty settings.policies.groups).upsertAll gs) r.heads).2 = .ok views := by
  unfold viewsOf directoryOf
  cases s.files.loadGroups s.clock.stamp r.groups with
  | error failure => simp [Except.map]
  | ok gs =>
    cases aclsOf s.files r.acls with
    | error failure => simp [Except.map]
    | ok acls => simp [Except.map, mapError_eq_ok_iff]

/-- The texts of views that were loaded and projected are unpaired, and
the views are not too high to be read. -/
theorem texts_and_room_of_viewsOf (h : viewsOf s settings r = .ok views) :
    (∀ v ∈ views, v.AllTexts Json.Unpaired)
      ∧ 2 * View.heightAll views + 1 ≤ Json.maxNesting := by
  obtain ⟨gs, hgs, acls, hacls, hshown⟩ := viewsOf_eq_ok_iff.mp h
  obtain ⟨hc, hcurrent⟩ :=
    Directory.consistent_and_current_upsertAll settings.policies.groups gs
  have hgroups : ∀ x g,
      ((Directory.empty settings.policies.groups).upsertAll gs).records.get? x = some g →
      g.Unpaired := fun x g hg =>
    (Directory.mem_of_upsertAll hg).elim (fun h => by cases h)
      (Files.unpaired_of_loadGroups hgs g)
  have hannotations : ∀ a ∈ acls, a.Unpaired := by
    unfold aclsOf at hacls
    split at hacls
    · rw [← Except.ok.inj hacls]
      exact fun a ha => absurd ha List.not_mem_nil
    · exact Files.unpaired_of_loadAcls hacls
  refine ⟨Directory.allTexts_of_display hc hcurrent
      (fun x g hg => ⟨(hgroups x g hg).shortId, (hgroups x g hg).name,
        (hgroups x g hg).description⟩)
      (fun a ha => ⟨(hannotations a ha).localName, (hannotations a ha).roles⟩) hshown,
    View.room_of_ofCollection fun v hv => ?_⟩
  obtain ⟨_, c, w, -, hw, rfl⟩ := hcurrent.exists_of_display hshown v hv
  exact ⟨c, w, acls, hw, rfl⟩

/-- The views depend on the files and on the limits, and on nothing else
of what is around. -/
theorem viewsOf_of_sameFiles {s' : Surroundings} {settings' : Settings}
    (hfiles : s'.files = s.files)
    (hpolicy : settings'.policies.groups = settings.policies.groups)
    (h : viewsOf s settings r = .ok views) : viewsOf s' settings' r = .ok views := by
  obtain ⟨gs, hgs, acls, hacls, hshown⟩ := viewsOf_eq_ok_iff.mp h
  obtain ⟨gs', hgs', hredated⟩ := Files.exists_of_loadGroups_later hgs s'.clock.stamp
  obtain ⟨hc, hcurrent⟩ := Directory.consistent_and_current_upsertAll settings.policies.groups gs
  obtain ⟨hc', hcurrent'⟩ :=
    Directory.consistent_and_current_upsertAll settings.policies.groups gs'
  have hstores := Directory.Redated.upsertAll hredated
    (d := .empty settings.policies.groups) ⟨rfl, rfl⟩
  have hempty := Directory.cache_upsertAll (d := .empty settings.policies.groups) rfl gs
  rw [viewsOf_eq_ok_iff, hfiles, hpolicy]
  exact ⟨gs', hgs', acls, hacls,
    hstores.display_eq hc hc' hcurrent hcurrent' hempty hshown s'.clock⟩

end Display

/-! ## Files that are there -/

theorem Files.has_of_loadGroups [Stack] {f : Files} {now : Int} {ps : List Path} {gs : List Group}
    (h : f.loadGroups now ps = .ok gs) : ∀ p ∈ ps, f.has p = .ok true := by
  induction ps generalizing gs with
  | nil => exact fun p hp => absurd hp List.not_mem_nil
  | cons p rest ih =>
    obtain ⟨_, hgroups, _, hmore, -⟩ := loadGroups_cons_eq_ok_iff.mp h
    exact List.forall_mem_cons.mpr ⟨(loadGroupsOf_eq_ok_iff.mp hgroups).1, ih hmore⟩

theorem Files.has_of_loadAcls [Stack] {f : Files} {p : Path} {acls : List Acl}
    (h : f.loadAcls p = .ok acls) : f.has p = .ok true := by
  unfold loadAcls at h
  split at h
  · cases h
  · cases h
  · assumption

/-- The path does not start with a tilde. -/
def Path.Untilded (p : Path) : Prop :=
  p.text.head? ≠ some (.char '~')

namespace Explore

variable {s : Surroundings} {settings : Settings}

theorem expandHome_of_untilded {p : Path} (h : p.Untilded) : expandHome s p = .ok p := by
  unfold expandHome
  split
  · rename_i user rest hrelative hnames
    refine absurd ?_ h
    have hroot : p.root = [] := by simpa [Path.isAbsolute] using hrelative
    rw [Path.text, hroot, hnames]
    cases rest <;> rfl
  · rfl

theorem resolvePath_of_has {filesToo : Bool} {p : Path} (h : p.Untilded)
    (hp : s.files.has p = .ok true) : resolvePath s filesToo p = .ok p := by
  simp only [resolvePath, expandHome_of_untilded h, hp]

theorem resolvePaths_of_has {ps : List Path} (h : ∀ p ∈ ps, p.Untilded)
    (hps : ∀ p ∈ ps, s.files.has p = .ok true) : resolvePaths s ps = .ok ps := by
  induction ps with
  | nil => rfl
  | cons p rest ih =>
    obtain ⟨hp, hrest⟩ := List.forall_mem_cons.mp h
    obtain ⟨hhas, hmore⟩ := List.forall_mem_cons.mp hps
    simp only [resolvePaths, resolvePath_of_has hp hhas, ih hrest hmore]
    rfl

/-- Views that a display produces are those that the command shows. -/
theorem viewsOf_of_display [Stack] {r : DisplayRequest} {views : List View}
    (hgroups : ∀ p ∈ r.groups, p.Untilded) (hacls : ∀ p ∈ r.acls, p.Untilded)
    (h : Display.viewsOf s settings r = .ok views) :
    viewsOf s settings r.heads r.groups r.acls = .ok views := by
  obtain ⟨gs, hgs, acls, hannotations, hshown⟩ := Display.viewsOf_eq_ok_iff.mp h
  have hload : loadDirectory s settings r.groups
      = .ok ((Directory.empty settings.policies.groups).upsertAll gs) := by
    rw [loadDirectory, resolvePaths_of_has hgroups (Files.has_of_loadGroups hgs)]
    exact mapError_eq_ok_iff.mpr (map_eq_ok_iff.mpr ⟨gs, hgs, rfl⟩)
  have hloadAcls : loadAcls s r.acls = .ok acls := by
    cases hp : r.acls with
    | none =>
      rw [hp] at hannotations
      obtain rfl : [] = acls := Except.ok.inj hannotations
      rfl
    | some p =>
      rw [hp] at hannotations
      rw [loadAcls, resolvePath_of_has (hacls p hp) (Files.has_of_loadAcls hannotations)]
      exact mapError_eq_ok_iff.mpr hannotations
  rw [viewsOf, hload]
  dsimp only
  rw [hloadAcls]
  exact mapError_eq_ok_iff.mpr hshown

end Explore

/-! ## The outputs -/

namespace Display

variable [Stack] {s : Surroundings} {settings : Settings} {r : DisplayRequest}
  {views : List View}

theorem displayFiles_of_failure {failure : Failure} (h : viewsOf s settings r = .error failure) :
    displayFiles s settings r = (s.files, .error failure) := by
  unfold displayFiles
  rw [h]

theorem displayFiles_of_none (h : viewsOf s settings r = .ok views) (houtput : r.output = none) :
    displayFiles s settings r = (s.files, .ok views) := by
  unfold displayFiles
  rw [h, houtput]

/-- A file that a display has written is read as the document of the
views, but for the order of names. -/
theorem readText_of_displayFiles {p : Path} {g : Files} {result : List View}
    (h : viewsOf s settings r = .ok views) (houtput : r.output = some p)
    (hshow : displayFiles s settings r = (g, .ok result)) :
    result = views ∧ ∃ cs w, g.readText p = .ok cs ∧ Json.read (.ofChars cs) = .ok w
      ∧ w.Alike (.array (View.toValues views)) := by
  obtain ⟨htexts, hroom⟩ := texts_and_room_of_viewsOf h
  unfold displayFiles at hshow
  rw [h, houtput] at hshow
  dsimp only at hshow
  split at hshow
  · rename_i hwrite
    obtain ⟨rfl, hresult⟩ := Prod.mk.inj hshow
    obtain ⟨cs, hcs, hjson⟩ := View.readText_of_writeViews htexts hwrite
    obtain ⟨w, hw, halike⟩ := hjson _ hroom
    exact ⟨(Except.ok.inj hresult).symm, cs, w, hcs, hw, halike⟩
  · cases hshow

/-- Views without surrogates are written wherever a file can be. -/
theorem displayFiles_of_whole {p : Path} (h : viewsOf s settings r = .ok views)
    (houtput : r.output = some p) (hwhole : ∀ v ∈ views, v.Whole)
    (hwritable : (s.files.writeText p []).2 = none) :
    (displayFiles s settings r).2 = .ok views := by
  have hfault := View.fault_writeViews hwhole s.files p
  unfold displayFiles
  rw [h, houtput]
  dsimp only
  split
  · rfl
  · rename_i hwrite
    rw [hwrite, hwritable] at hfault
    cases hfault

/-- The command line for displays prints views that it does not write. -/
theorem run_of_viewsOf [YamlReader] [SettingsReader] {args : List Text} {a : Arguments}
    {files : Files}
    (hargs : readArguments args = .ok a)
    (hload : Settings.load s a.given none = .ok (settings, files))
    (h : viewsOf { s with files := files } settings a.request = .ok views)
    (houtput : a.request.output = none) :
    run s args = ⟨.exit 0, printViews views, files⟩ := by
  have hdisplay := displayFiles_of_none h houtput
  unfold run
  rw [hargs]
  dsimp only
  rw [hload]
  dsimp only
  rw [hdisplay, houtput]

end Display

/-- The command `show` prints views as a document. -/
theorem Explore.run_of_viewsOf [Stack] [YamlReader] [SettingsReader] [Console]
    {s : Surroundings} {settings : Settings} {args : List Text} {common : Common} {name : Text}
    {rest heads : List Text} {groups : List Path} {acls : Option Path} {files : Files}
    {views : List View}
    (hcommon : readCommon args = .ok (common, name, rest))
    (hsettings : settingsOf s common = .ok (settings, files))
    (hcommand : readCommand name rest = .ok (.showHeads heads groups acls none true))
    (h : viewsOf { s with files := files } settings heads groups acls = .ok views) :
    run s args = ⟨.done, [], Display.printViews views, files⟩ := by
  have hattempt : attempt s args = ⟨.done, [], Display.printViews views, files⟩ := by
    simp only [attempt, hcommon, hsettings, hcommand]
    dsimp only [runCommand]
    unfold showHeads
    rw [h]
    rfl
  rw [run, hattempt]
  rfl

/-- A display whose records cannot be loaded or whose hierarchies cannot
be projected leaves all files as they are.  Otherwise the file that a
display writes, what the command line for displays prints if it is to
write no file, and what the command `show` prints of the same records are
read as the same document, that of the views: exactly so where it is
printed, and with sorted names in the file.  Views without surrogates are
written wherever a file can be.  The command lines may be run in other
surroundings, with other settings, as long as the files and the limits
are the same. -/
theorem outputs_agree [Stack] [YamlReader] [SettingsReader] [Explore.Console] {s : Surroundings}
    {settings : Settings} {r : DisplayRequest}
    (hgroups : ∀ p ∈ r.groups, p.Untilded) (hacls : ∀ p ∈ r.acls, p.Untilded) :
    (∀ failure, Display.viewsOf s settings r = .error failure →
        Display.displayFiles s settings r = (s.files, .error failure))
      ∧ ∀ views, Display.viewsOf s settings r = .ok views →
        (∀ p g result,
          Display.displayFiles s settings { r with output := some p } = (g, .ok result) →
          result = views ∧ ∃ cs w, g.readText p = .ok cs ∧ Json.read (.ofChars cs) = .ok w
            ∧ w.Alike (.array (View.toValues views)))
        ∧ (∀ p, (∀ v ∈ views, v.Whole) → (s.files.writeText p []).2 = none →
          (Display.displayFiles s settings { r with output := some p }).2 = .ok views)
        ∧ (∀ s' settings' args a, Display.readArguments args = .ok a →
          a.request = { r with output := none } →
          Settings.load s' a.given none = .ok (settings', s.files) →
          settings'.policies.groups = settings.policies.groups →
          ∃ t, Display.run s' args = ⟨.exit 0, t, s.files⟩
            ∧ Json.read t = .ok (.array (View.toValues views)))
        ∧ ∀ s' settings' args common name rest,
          Explore.readCommon args = .ok (common, name, rest) →
          Explore.settingsOf s' common = .ok (settings', s.files) →
          settings'.policies.groups = settings.policies.groups →
          Explore.readCommand name rest
            = .ok (.showHeads r.heads r.groups r.acls none true) →
          ∃ t, Explore.run s' args = ⟨.done, [], t, s.files⟩
            ∧ Json.read t = .ok (.array (View.toValues views)) := by
  refine ⟨fun failure h => Display.displayFiles_of_failure h, fun views h => ?_⟩
  obtain ⟨htexts, hroom⟩ := Display.texts_and_room_of_viewsOf h
  have hread := Display.read_printViews htexts hroom
  -- A request is for the same views wherever they are to be written.
  have hoff (output : Option Path) :
      Display.viewsOf s settings { r with output := output } = .ok views := h
  refine ⟨fun p g result hshow => Display.readText_of_displayFiles (hoff _) rfl hshow,
    fun p hwhole hwritable => Display.displayFiles_of_whole (hoff _) rfl hwhole hwritable,
    fun s' settings' args a hargs hrequest hload hpolicy => ⟨_, ?_, hread⟩,
    fun s' settings' args common name rest hcommon hload hpolicy hcommand => ⟨_, ?_, hread⟩⟩
  all_goals have hfiles : ({ s' with files := s.files } : Surroundings).files = s.files := rfl
  · have hviews : Display.viewsOf { s' with files := s.files } settings' a.request
        = .ok views := by
      rw [hrequest]
      exact Display.viewsOf_of_sameFiles hfiles hpolicy (hoff none)
    exact Display.run_of_viewsOf hargs hload hviews (by rw [hrequest])
  · have hviews := Display.viewsOf_of_sameFiles hfiles hpolicy h
    exact Explore.run_of_viewsOf hcommon hload hcommand
      (Explore.viewsOf_of_display hgroups hacls hviews)

theorem outputs_agree_marked :
    let groups := "\x7b\"shortId\": \"R\", \"name\": \"Gr\u00fcn 🌲\"\x7d\n"
      ++ "\x7b\"shortId\": \"A\", \"name\": \"\\ud83c\\udf32\", \"referringGroups\": [\"R\"]\x7d\n"
    let acls := "\x7b\"group\": \"A\", \"roles\": [\"\u00e9\", \"\\\"\"]\x7d"
    let s := Surroundings.installed [] [("g.jsonl", groups), ("acls.json", acls)]
    let r : DisplayRequest :=
      ⟨[Path.ofText "/srv/config/g.jsonl"], ["R"], none, some (Path.ofText "/srv/config/acls.json")⟩
    let args : List Text :=
      ["/srv/config/g.jsonl", "--head", "R", "--acls", "/srv/config/acls.json"]
    let args' : List Text :=
      ["show", "R", "-g", "/srv/config/g.jsonl", "--acls", "/srv/config/acls.json", "--json"]
    (∀ p ∈ r.groups, p.Untilded) ∧ (∀ p ∈ r.acls, p.Untilded)
      ∧ ∃ settings views g cs w t t',
        Display.displayFiles s settings { r with output := some (Path.ofText "/srv/out.json") }
            = (g, .ok views)
          ∧ views.map View.shortId = ["R"]
          ∧ g.readText (Path.ofText "/srv/out.json") = .ok cs ∧ Json.read (.ofChars cs) = .ok w
          ∧ w.Alike (.array (View.toValues views))
          ∧ Display.run s args = ⟨.exit 0, t, s.files⟩
          ∧ Json.read t = .ok (.array (View.toValues views))
          ∧ Explore.run s args' = ⟨.done, [], t', s.files⟩
          ∧ Json.read t' = .ok (.array (View.toValues views)) := by
  intro groups acls s r args args'
  let settings : Settings := ⟨.development, ⟨"/", ["srv", "config"]⟩,
    Settings.standardPaths ⟨"/", ["srv"]⟩, false, {}⟩
  have hgroups : ∀ p ∈ r.groups, p.Untilded := by
    simp only [r, List.forall_mem_singleton]
    unfold Path.Untilded
    decide
  have hacls : ∀ p ∈ r.acls, p.Untilded := by
    intro p hp
    obtain rfl := Option.some.inj hp
    unfold Path.Untilded
    decide
  have hload : Settings.load s [] none = .ok (settings, s.files) :=
    toOption_eq_some_iff.mp (by decide +kernel)
  have hsettings : Explore.settingsOf s ⟨none, [], false⟩ = .ok (settings, s.files) :=
    toOption_eq_some_iff.mp (by decide +kernel)
  obtain ⟨views, hviews, hids⟩ := map_toOption_eq_some_iff.mp
    (show (Display.viewsOf s settings r).toOption.map (fun views => views.map View.shortId)
      = some ([("R" : Text)] : List Text) by decide +kernel)
  have hwhole := of_toOption_all (P := fun views : List View => ∀ v ∈ views, v.Whole) hviews
    (by decide +kernel)
  obtain ⟨hfile, hwritten, hprinted, hshown⟩ :=
    (outputs_agree hgroups hacls).2 views hviews
  have hshow := Prod.eta (Display.displayFiles s settings
    { r with output := some (Path.ofText "/srv/out.json") })
  rw [hwritten _ hwhole (by decide +kernel)] at hshow
  obtain ⟨-, cs, w, hcs, hw, halike⟩ := hfile _ _ _ hshow.symm
  obtain ⟨t, hrun, ht⟩ := hprinted s settings args _ rfl rfl hload rfl
  obtain ⟨t', hrun', ht'⟩ := hshown s settings args' _ _ _ rfl hsettings rfl rfl
  exact ⟨hgroups, hacls, settings, views, _, cs, w, t, t', hshow.symm, hids, hcs, hw, halike,
    hrun, ht, hrun', ht'⟩

end Lineage
