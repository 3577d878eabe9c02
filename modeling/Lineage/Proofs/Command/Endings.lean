/-
Lineage.Proofs.Command.Endings — how a command line ends on the files
that it is given.

Once its arguments are understood, its settings are read and its files
are there, a command that writes no file is done or tells of trouble,
with four exceptions: a document in its files is nested too deep, one of
them has ids that cannot be listed, the time for which collections are to
be kept is beyond the range of the doubles, or the console refuses what is
to be printed.  `Derails` says exactly when one of the first three is met,
that is, before anything else that is told (`ending_of_reads`); a command
that derails prints nothing, so that the fourth is met only where the
others are not (`ending_of_texts`).
-/
import Lineage.Proofs.Config.Sources
import Lineage.Proofs.Directory.Expiry
import Lineage.Proofs.Files.Loading

namespace Lineage.Explore

open Files

variable {s : Surroundings} {settings : Settings}

/-! ## Commands and their files -/

namespace Command

/-- The heads of a command. -/
def heads : Command → List Text
  | .showHeads heads _ _ _ _ => heads
  | .members head _ _ => [head]

/-- The files of records of a command. -/
def groups : Command → List Path
  | .showHeads _ groups _ _ _ => groups
  | .members _ groups _ => groups

/-- The file of annotations of a command. -/
def acls : Command → Option Path
  | .showHeads _ _ acls _ _ => acls
  | .members .. => none

/-- The file that a command writes. -/
def output : Command → Option Path
  | .showHeads _ _ _ output _ => output
  | .members .. => none

end Command

/-- The path leads to a file with this text. -/
def Holds (s : Surroundings) (p : Path) (cs : List Char) : Prop :=
  ∃ q, expandHome s p = .ok q ∧ s.files.readBytes q = .ok (Text.Utf8.encode cs)

/-- The files of a command are there and hold these texts. -/
structure Reads (s : Surroundings) (command : Command) (groups : List (List Char))
    (acls : Option (List Char)) : Prop where
  groups : List.Forall₂ (Holds s) command.groups groups
  acls : Option.Rel (Holds s) command.acls acls

/-- What a command line that ends without telling fails of. -/
def Ending.failure? : Ending → Option Failure
  | .failed failure => some failure
  | _ => none

theorem Ending.failure?_eq_some_iff {e : Ending} {failure : Failure} :
    e.failure? = some failure ↔ e = .failed failure := by
  cases e <;> simp [Ending.failure?]

theorem printed_ended {files : Files} {failure : Failure} {e : Ending}
    (h : (Outcome.ended files e).ending = .failed failure) :
    (Outcome.ended files e).printed = [] := by
  cases e with
  | troubled t => cases h
  | _ => rfl

/-! ## Asking the directory -/

/-- What a command asks of the directory of its records. -/
def answer (s : Surroundings) (d : Directory) (acls : List Acl) :
    Command → Except DirectoryFault Unit
  | .showHeads heads .. => (d.display acls s.clock heads).2.map fun _ => ()
  | .members head .. => (d.getCollection head s.clock).2.map fun _ => ()

/-- The directory answers, tells of a hierarchy, or cannot tell the time
of expiry of the first collection. -/
theorem answer_cases {d : Directory} (hc : d.Consistent) (hcurrent : d.Current)
    (hempty : d.cache = []) (acls : List Acl) (command : Command) :
    let overflow := ¬ d.policy.Serves ∧ ∃ head ∈ command.heads.head?, d.has head = true
    (answer s d acls command = .ok () ∧ ¬ overflow)
      ∨ (∃ f, answer s d acls command = .error (.hierarchy f) ∧ ¬ overflow)
      ∨ (answer s d acls command = .error .expiryOverflow ∧ overflow) := by
  have hoverflow : answer s d acls command = .error .expiryOverflow
      ↔ ¬ d.policy.Serves ∧ ∃ head ∈ command.heads.head?, d.has head = true := by
    simp only [← hc.exists_buildCollection_iff]
    cases command with
    | showHeads heads groups aclsFile output asJson =>
      rw [Command.heads, ← hcurrent.display_overflow_iff acls s.clock hempty, answer]
      cases (d.display acls s.clock heads).2 <;> simp [Except.map]
    | members head groups below =>
      have hhead : (∃ x ∈ (Command.members head groups below).heads.head?,
          ∃ c, d.buildCollection x = .ok c) ↔ ∃ c, d.buildCollection head = .ok c := by
        simp [Command.heads]
      rw [hhead, ← Directory.getCollection_overflow_iff head s.clock hempty, answer]
      cases (d.getCollection head s.clock).2 <;> simp [Except.map]
  have hfault : ∀ fault, answer s d acls command = .error fault →
      (∃ f, fault = .hierarchy f) ∨ fault = .expiryOverflow := by
    intro fault hanswer
    cases command with
    | showHeads heads groups aclsFile output asJson =>
      rw [answer] at hanswer
      cases hdisplay : (d.display acls s.clock heads).2 with
      | error f =>
        rw [hdisplay] at hanswer
        exact Except.error.inj hanswer ▸ Directory.fault_of_display hdisplay
      | ok views =>
        rw [hdisplay] at hanswer
        cases hanswer
    | members head groups below =>
      rw [answer] at hanswer
      cases hget : (d.getCollection head s.clock).2 with
      | error f =>
        rw [hget] at hanswer
        exact Except.error.inj hanswer ▸ Directory.fault_of_getCollection hget
      | ok c =>
        rw [hget] at hanswer
        cases hanswer
  cases hanswer : answer s d acls command with
  | ok u =>
    rw [hanswer] at hoverflow
    exact .inl ⟨rfl, fun h => by cases hoverflow.mpr h⟩
  | error fault =>
    rw [hanswer] at hoverflow
    rcases hfault fault hanswer with ⟨f, rfl⟩ | rfl
    · exact .inr (.inl ⟨f, rfl, fun h => by cases hoverflow.mpr h⟩)
    · exact .inr (.inr ⟨rfl, hoverflow.mp rfl⟩)

/-! ## Loading -/

theorem resolvePath_of_holds {p : Path} {cs : List Char} (h : Holds s p cs) (filesToo : Bool) :
    ∃ q, resolvePath s filesToo p = .ok q ∧ s.files.readBytes q = .ok (Text.Utf8.encode cs) := by
  obtain ⟨q, hexpand, hread⟩ := h
  exact ⟨q, by simp only [resolvePath, hexpand, has_of_readBytes hread], hread⟩

theorem resolvePaths_of_holds {ps : List Path} {contents : List (List Char)}
    (h : List.Forall₂ (Holds s) ps contents) :
    ∃ qs, resolvePaths s ps = .ok qs
      ∧ List.Forall₂ (fun q cs => s.files.readBytes q = .ok (Text.Utf8.encode cs)) qs contents := by
  induction h with
  | nil => exact ⟨[], rfl, .nil⟩
  | cons hp _ ih =>
    obtain ⟨q, hq, hread⟩ := resolvePath_of_holds hp false
    obtain ⟨qs, hqs, hreads⟩ := ih
    refine ⟨q :: qs, ?_, .cons hread hreads⟩
    simp only [resolvePaths, hq, hqs]
    rfl

/-- A result of loading as it is told: it is accepted, or it ends in
trouble, unless it fails untold. -/
theorem ending_of_loads {α : Type} {x : Except Failure α} {accepted untold : Prop}
    (h : Loads x accepted untold) (filesToo : Bool) :
    (accepted ∧ ¬ untold ∧ ∃ a, x.mapError (loadingEnding filesToo) = .ok a)
      ∨ (¬ accepted ∧ ¬ untold
        ∧ ∃ t, x.mapError (loadingEnding filesToo) = .error (.troubled t))
      ∨ (¬ accepted ∧ untold
        ∧ ∃ failure, x.mapError (loadingEnding filesToo) = .error (.failed failure)) := by
  rcases h.cases with ⟨a, rfl, haccepted, hnone⟩ | ⟨failure, rfl, hcontent, hnot, huntold⟩
  · exact .inl ⟨haccepted, hnone, a, rfl⟩
  · rw [← huntold]
    rcases loadingEnding_of_content hcontent filesToo with ⟨⟨t, ht⟩, hu⟩ | ⟨hf, hu⟩
    · exact .inr (.inl ⟨hnot, hu, t, congrArg Except.error ht⟩)
    · exact .inr (.inr ⟨hnot, hu, failure, congrArg Except.error hf⟩)

section Loading

variable [Stack]

/-- What a command meets that is told to no one, before anything that is:
in the lines of its records, in its annotations, or when it builds the
first collection. -/
inductive Derails (s : Surroundings) (settings : Settings) (command : Command)
    (groups : List (List Char)) : Option (List Char) → Prop
  | groups {acls : Option (List Char)}
      (h : BreaksOff (Accepts .readGroup (Group.check s.clock.stamp))
        (Upsets .readGroup Group.Unlistable) (groups.flatMap linesOf)) :
      Derails s settings command groups acls
  | nested {cs : List Char} {fault : Json.Fault}
      (hgroups : ∀ line ∈ groups.flatMap linesOf,
        Accepts .readGroup (Group.check s.clock.stamp) line)
      (h : aclDocuments cs = .error fault) (hdepth : fault.cause.kind = .depth) :
      Derails s settings command groups (some cs)
  | acls {cs : List Char} {vs : List Value}
      (hgroups : ∀ line ∈ groups.flatMap linesOf,
        Accepts .readGroup (Group.check s.clock.stamp) line)
      (hacls : aclDocuments cs = .ok vs)
      (h : BreaksOff (fun v => ∃ a, Acl.check v = .ok a) Acl.Unlistable vs) :
      Derails s settings command groups (some cs)
  | expiry {acls : Option (List Char)} {directory : Directory} {annotations : List Acl}
      {head : Text} (hgroups : loadDirectory s settings command.groups = .ok directory)
      (hacls : loadAcls s command.acls = .ok annotations) (hhead : head ∈ command.heads.head?)
      (hstored : directory.has head = true) (h : ¬ settings.policies.groups.Serves) :
      Derails s settings command groups acls

theorem loadDirectory_of_holds (settings : Settings) {ps : List Path}
    {contents : List (List Char)} (h : List.Forall₂ (Holds s) ps contents) :
    ∃ x, loadDirectory s settings ps = x.mapError (loadingEnding false)
      ∧ Loads x
        (∀ line ∈ contents.flatMap linesOf, Accepts .readGroup (Group.check s.clock.stamp) line)
        (BreaksOff (Accepts .readGroup (Group.check s.clock.stamp))
          (Upsets .readGroup Group.Unlistable) (contents.flatMap linesOf)) := by
  obtain ⟨qs, hqs, hreads⟩ := resolvePaths_of_holds h
  refine ⟨Display.directoryOf s settings qs, ?_, (loads_loadGroups hreads).map _⟩
  rw [loadDirectory, hqs]

theorem loadAcls_of_holds {acls : Option Path} {contents : Option (List Char)}
    (h : Option.Rel (Holds s) acls contents) :
    ∃ x, loadAcls s acls = x.mapError (loadingEnding true)
      ∧ Loads x
        (∀ cs ∈ contents, ∃ vs, aclDocuments cs = .ok vs ∧ ∀ v ∈ vs, ∃ a, Acl.check v = .ok a)
        (∃ cs ∈ contents, (∃ fault, aclDocuments cs = .error fault ∧ fault.cause.kind = .depth)
          ∨ ∃ vs, aclDocuments cs = .ok vs
            ∧ BreaksOff (fun v => ∃ a, Acl.check v = .ok a) Acl.Unlistable vs) := by
  cases h with
  | none => exact ⟨.ok [], rfl, .of_ok rfl nofun nofun⟩
  | some hp =>
    obtain ⟨q, hq, hread⟩ := resolvePath_of_holds hp true
    refine ⟨s.files.loadAcls q, ?_, (loads_loadAcls hread).congr (by simp) (by simp)⟩
    rw [loadAcls, hq]

/-! ## Running -/

/-- A command that writes no file ends as its first step that fails. -/
theorem ending_runCommand {command : Command} (h : command.output = none) :
    (runCommand s settings command).ending =
      match loadDirectory s settings command.groups with
      | .error e => e
      | .ok d =>
        match loadAcls s command.acls with
        | .error e => e
        | .ok acls =>
          match answer s d acls command with
          | .error fault => directoryEnding fault
          | .ok _ => .done := by
  have hended (e : Ending) : (Outcome.ended s.files e).ending = e := by
    cases e <;> rfl
  cases command with
  | showHeads heads groups acls output asJson =>
    obtain rfl : output = none := h
    unfold runCommand showHeads viewsOf
    dsimp only [Command.groups, Command.acls]
    cases loadDirectory s settings groups with
    | error e => exact hended e
    | ok d =>
      dsimp only
      cases loadAcls s acls with
      | error e => exact hended e
      | ok acls =>
        dsimp only [answer]
        cases (d.display acls s.clock heads).2 with
        | error fault => exact hended _
        | ok views => cases asJson <;> rfl
  | members head groups below =>
    unfold runCommand listMembers membersTable
    dsimp only [Command.groups, Command.acls, loadAcls]
    cases loadDirectory s settings groups with
    | error e => exact hended e
    | ok d =>
      dsimp only [answer]
      cases (d.getCollection head s.clock).2 with
      | error fault => exact hended _
      | ok c => rfl

/-- A command that fails prints nothing. -/
theorem printed_of_failed {command : Command} {failure : Failure}
    (h : (runCommand s settings command).ending = .failed failure) :
    (runCommand s settings command).printed = [] := by
  revert h
  cases command with
  | showHeads heads groups acls output asJson =>
    dsimp only [runCommand]
    unfold showHeads
    cases viewsOf s settings heads groups acls with
    | error e => exact printed_ended
    | ok views =>
      cases output with
      | some p =>
        dsimp only
        unfold writeViews
        split <;> simp [Outcome.ended]
      | none => cases asJson <;> simp
  | members head groups below =>
    dsimp only [runCommand]
    unfold listMembers
    cases membersTable s settings head groups below with
    | error e => exact printed_ended
    | ok table => simp

theorem exists_of_loadDirectory {ps : List Path} {d : Directory}
    (h : loadDirectory s settings ps = .ok d) :
    ∃ gs, d = (Directory.empty settings.policies.groups).upsertAll gs := by
  unfold loadDirectory at h
  split at h
  · cases h
  · obtain ⟨gs, -, rfl⟩ := map_eq_ok_iff.mp (mapError_eq_ok_iff.mp h)
    exact ⟨gs, rfl⟩

/-- A command asks a directory as it was loaded. -/
theorem answer_of_loadDirectory {ps : List Path} {d : Directory}
    (h : loadDirectory s settings ps = .ok d) (acls : List Acl) (command : Command) :
    let overflow := ¬ settings.policies.groups.Serves
      ∧ ∃ head ∈ command.heads.head?, d.has head = true
    (answer s d acls command = .ok () ∧ ¬ overflow)
      ∨ (∃ f, answer s d acls command = .error (.hierarchy f) ∧ ¬ overflow)
      ∨ (answer s d acls command = .error .expiryOverflow ∧ overflow) := by
  obtain ⟨gs, rfl⟩ := exists_of_loadDirectory h
  obtain ⟨hconsistent, hcurrent⟩ :=
    Directory.consistent_and_current_upsertAll settings.policies.groups gs
  have hpolicy : ((Directory.empty settings.policies.groups).upsertAll gs).policy
      = settings.policies.groups := Directory.policy_upsertAll gs
  have hempty := Directory.cache_upsertAll (d := Directory.empty settings.policies.groups) rfl gs
  have hcases := answer_cases (s := s) hconsistent hcurrent hempty acls command
  rwa [hpolicy] at hcases

theorem derails_iff {command : Command} {groups : List (List Char)} {acls : Option (List Char)} :
    Derails s settings command groups acls
      ↔ BreaksOff (Accepts .readGroup (Group.check s.clock.stamp))
          (Upsets .readGroup Group.Unlistable) (groups.flatMap linesOf)
        ∨ ((∀ line ∈ groups.flatMap linesOf, Accepts .readGroup (Group.check s.clock.stamp) line)
          ∧ ∃ cs ∈ acls, (∃ fault, aclDocuments cs = .error fault ∧ fault.cause.kind = .depth)
            ∨ ∃ vs, aclDocuments cs = .ok vs
              ∧ BreaksOff (fun v => ∃ a, Acl.check v = .ok a) Acl.Unlistable vs)
        ∨ ∃ directory annotations, loadDirectory s settings command.groups = .ok directory
          ∧ loadAcls s command.acls = .ok annotations ∧ ¬ settings.policies.groups.Serves
          ∧ ∃ head ∈ command.heads.head?, directory.has head = true := by
  constructor
  · intro h
    cases h with
    | groups h => exact .inl h
    | nested haccepted h hdepth => exact .inr (.inl ⟨haccepted, _, rfl, .inl ⟨_, h, hdepth⟩⟩)
    | acls haccepted hacls h => exact .inr (.inl ⟨haccepted, _, rfl, .inr ⟨_, hacls, h⟩⟩)
    | expiry hgroups hacls hhead hstored h =>
      exact .inr (.inr ⟨_, _, hgroups, hacls, h, _, hhead, hstored⟩)
  · rintro (h | ⟨haccepted, cs, hcs, ⟨fault, h, hdepth⟩ | ⟨vs, hdocuments, h⟩⟩
      | ⟨directory, annotations, hgroups, hacls, h, head, hhead, hstored⟩)
    · exact .groups h
    · obtain rfl : acls = some cs := hcs
      exact .nested haccepted h hdepth
    · obtain rfl : acls = some cs := hcs
      exact .acls haccepted hdocuments h
    · exact .expiry hgroups hacls hhead hstored h

/-- The command fails without telling exactly if it derails, and is done
or in trouble otherwise. -/
theorem ending_of_reads {command : Command} {groups : List (List Char)}
    {acls : Option (List Char)} (houtput : command.output = none)
    (hreads : Reads s command groups acls) :
    ((∃ failure, (runCommand s settings command).ending = .failed failure)
        ∧ Derails s settings command groups acls)
      ∨ (((runCommand s settings command).ending = .done
          ∨ ∃ t, (runCommand s settings command).ending = .troubled t)
        ∧ ¬ Derails s settings command groups acls) := by
  rw [ending_runCommand houtput, derails_iff]
  obtain ⟨x, hx, hgroups⟩ := loadDirectory_of_holds settings hreads.groups
  rcases ending_of_loads hgroups false with ⟨haccepted, huntold, d, hd⟩ | ⟨hnot, huntold, t, ht⟩
    | ⟨hnot, huntold, failure, hfailure⟩
  case inr.inl =>
    rw [hx.trans ht]
    refine .inr ⟨.inr ⟨t, rfl⟩, ?_⟩
    rintro (h | ⟨h, -⟩ | ⟨_, _, h, -⟩)
    · exact huntold h
    · exact hnot h
    · cases h
  case inr.inr =>
    rw [hx.trans hfailure]
    exact .inl ⟨⟨failure, rfl⟩, .inl huntold⟩
  -- The records are loaded; the annotations come next.
  have hload := hx.trans hd
  rw [hload]
  dsimp only
  obtain ⟨y, hy, hacls⟩ := loadAcls_of_holds hreads.acls
  rcases ending_of_loads hacls true with ⟨haclsAccepted, haclsUntold, annotations, hannotations⟩
    | ⟨haclsNot, haclsUntold, t, ht⟩ | ⟨haclsNot, haclsUntold, failure, hfailure⟩
  case inr.inl =>
    rw [hy.trans ht]
    refine .inr ⟨.inr ⟨t, rfl⟩, ?_⟩
    rintro (h | ⟨-, h⟩ | ⟨_, _, -, h, -⟩)
    · exact huntold h
    · exact haclsUntold h
    · cases h
  case inr.inr =>
    rw [hy.trans hfailure]
    exact .inl ⟨⟨failure, rfl⟩, .inr (.inl ⟨haccepted, haclsUntold⟩)⟩
  -- All is loaded; what is left is to answer.
  rw [hy.trans hannotations]
  dsimp only
  rcases answer_of_loadDirectory hload annotations command with
    ⟨hanswer, hserves⟩ | ⟨f, hanswer, hserves⟩ | ⟨hanswer, hserves⟩
  case inr.inr =>
    rw [hanswer]
    exact .inl ⟨⟨_, rfl⟩, .inr (.inr ⟨d, annotations, rfl, rfl, hserves⟩)⟩
  all_goals
    rw [hanswer]
    refine .inr ⟨by simp [directoryEnding], ?_⟩
    rintro (h | ⟨-, h⟩ | ⟨_, _, heq, -, h⟩)
    · exact huntold h
    · exact haclsUntold h
    · exact hserves (Except.ok.inj heq ▸ h)

/-! ## Command lines -/

variable [YamlReader] [SettingsReader] [Console] {args : List Text}

/-- The console refuses something of what a command line comes to. -/
inductive Refused (s : Surroundings) (args : List Text) : Prop
  | printed {p : Printed} {failure : Failure} (hp : p ∈ (attempt s args).printed)
      (h : Console.refuses p = some failure) : Refused s args
  | faults {rejection : Schema.Rejection} {failure : Failure}
      (hending : (attempt s args).ending = .troubled (.invalid rejection))
      (h : Console.refusesFaults s args rejection = some failure) : Refused s args

theorem refused_iff :
    Refused s args ↔ ∃ failure, (attempt s args).refusal? s args = some failure := by
  have hprinted : (∃ failure, refusal? (attempt s args).printed = some failure)
      ↔ ∃ p ∈ (attempt s args).printed, ∃ failure, Console.refuses p = some failure := by
    simp only [refusal?, ← Option.isSome_iff_exists, List.findSome?_isSome_iff]
  constructor
  · intro h
    rw [← Option.isSome_iff_exists, Outcome.refusal?, Option.isSome_or, Bool.or_eq_true]
    cases h with
    | printed hp h => exact .inl (Option.isSome_iff_exists.mpr (hprinted.mpr ⟨_, hp, _, h⟩))
    | faults hending h =>
      rw [hending]
      exact .inr (Option.isSome_iff_exists.mpr ⟨_, h⟩)
  · rintro ⟨failure, h⟩
    rcases Option.or_eq_some_iff.mp h with h | ⟨-, h⟩
    · obtain ⟨p, hp, _, h⟩ := hprinted.mp ⟨_, h⟩
      exact .printed hp h
    · split at h
      · rename_i hending
        exact .faults hending h
      · cases h

/-- What is refused makes a command line fail, and otherwise it comes to
what was attempted. -/
theorem run_cases (s : Surroundings) (args : List Text) :
    (Refused s args ∧ ∃ failure, (run s args).ending = .failed failure)
      ∨ (¬ Refused s args ∧ run s args = attempt s args) := by
  rw [refused_iff, run, Outcome.shown]
  cases (attempt s args).refusal? s args with
  | none => exact .inr ⟨by simp, rfl⟩
  | some failure => exact .inl ⟨⟨failure, rfl⟩, failure, rfl⟩

/-- Where a command line fails by itself, there is nothing to refuse. -/
theorem not_refused_of_failed {failure : Failure} (h : (attempt s args).ending = .failed failure)
    (hprinted : (attempt s args).printed = []) : ¬ Refused s args := by
  intro hrefused
  cases hrefused with
  | printed hp _ => simp [hprinted] at hp
  | faults hending _ => simp [h] at hending

/-- A command line that is understood, has settings and writes no file
fails without telling exactly if it derails on the texts of its files, or
the console refuses what it comes to; otherwise it is done or tells of
trouble. -/
theorem ending_of_texts {s : Surroundings} {args rest : List Text} {common : Common} {name : Text}
    {settings : Settings} {files : Files} {command : Command} {groups : List (List Char)}
    {acls : Option (List Char)} (hcommon : readCommon args = .ok (common, name, rest))
    (hsettings : settingsOf s common = .ok (settings, files))
    (hcommand : readCommand name rest = .ok command) (houtput : command.output = none)
    (hreads : Reads { s with files := files } command groups acls) :
    ((∃ failure, (run s args).ending = .failed failure)
        ↔ Derails { s with files := files } settings command groups acls ∨ Refused s args)
      ∧ (((run s args).ending = .done ∨ ∃ t, (run s args).ending = .troubled t)
        ↔ ¬ Derails { s with files := files } settings command groups acls ∧ ¬ Refused s args) := by
  have hattempt : attempt s args = runCommand { s with files := files } settings command := by
    simp only [attempt, hcommon, hsettings, hcommand]
  have hneither {e : Ending} : (∃ failure, e = .failed failure) →
      ¬ (e = .done ∨ ∃ t, e = .troubled t) := by
    rintro ⟨failure, rfl⟩ (h | ⟨t, h⟩) <;> cases h
  rcases ending_of_reads houtput hreads with ⟨hfailed, hderails⟩ | ⟨htold, hnot⟩
  · have hrun : run s args = attempt s args := by
      obtain ⟨failure, hfailure⟩ := hfailed
      rcases run_cases s args with ⟨hrefused, -⟩ | ⟨-, hrun⟩
      · rw [← hattempt] at hfailure
        refine absurd hrefused (not_refused_of_failed hfailure ?_)
        rw [hattempt] at hfailure ⊢
        exact printed_of_failed hfailure
      · exact hrun
    rw [hrun, hattempt]
    exact ⟨iff_of_true hfailed (.inl hderails),
      iff_of_false (hneither hfailed) fun h => h.1 hderails⟩
  · rcases run_cases s args with ⟨hrefused, hfailed⟩ | ⟨hshown, hrun⟩
    · exact ⟨iff_of_true hfailed (.inr hrefused),
        iff_of_false (hneither hfailed) fun h => h.2 hrefused⟩
    · rw [hrun, hattempt]
      exact ⟨iff_of_false (fun h => hneither h htold) (by simp [hnot, hshown]),
        iff_of_true htold ⟨hnot, hshown⟩⟩

end Loading

theorem ending_of_texts_annotated :
    let groups :=
      "\x7b\"shortId\": \"R\"\x7d\n\n\x7b\"shortId\": \"A\", \"referringGroups\": [\" R \"]\x7d\n"
    let acls := "\x7b\"group\": \"A\", \"roles\": \"xy\"\x7d"
    let s := Surroundings.installed [] [("g.jsonl", groups), ("acls.json", acls)]
    let args : List Text :=
      ["show", "R", "-g", "/srv/config/g.jsonl", "--acls", "/srv/config/acls.json"]
    ∃ common name rest settings files command, readCommon args = .ok (common, name, rest)
      ∧ settingsOf s common = .ok (settings, files) ∧ readCommand name rest = .ok command
      ∧ command.output = none
      ∧ Reads { s with files := files } command [groups.toList] (some acls.toList)
      ∧ (run s args).ending.exitCode? = some 0
      ∧ ¬ (Derails { s with files := files } settings command [groups.toList] (some acls.toList)
        ∨ Refused s args) := by
  intro groups acls s args
  obtain ⟨⟨settings, _⟩, hsettings, rfl⟩ := map_toOption_eq_some_iff.mp
    (show (settingsOf s ⟨none, [], false⟩).toOption.map (·.2) = some s.files by decide +kernel)
  have hreads : Reads s (.showHeads ["R"] [Path.ofText "/srv/config/g.jsonl"]
      (some (Path.ofText "/srv/config/acls.json")) none false) [groups.toList] (some acls.toList) :=
    { groups := .cons ⟨_, rfl, by decide +kernel⟩ .nil
      acls := .some ⟨_, rfl, by decide +kernel⟩ }
  have hcode : (run s args).ending.exitCode? = some 0 := by decide +kernel
  have hends : (∃ failure, (run s args).ending = .failed failure)
      ↔ Derails { s with files := s.files } settings _ [groups.toList] (some acls.toList)
        ∨ Refused s args :=
    (ending_of_texts rfl hsettings rfl rfl hreads).1
  refine ⟨_, _, _, _, _, _, rfl, hsettings, rfl, rfl, hreads, hcode, fun hderails => ?_⟩
  obtain ⟨failure, hfailure⟩ := hends.mpr hderails
  rw [hfailure] at hcode
  cases hcode

/-- An entry of a list of ids that is no text is told to no one. -/
theorem ending_untold_numbered :
    let groups := "\x7b\"shortId\": \"R\", \"referringGroups\": [1]\x7d\n"
    let s := Surroundings.installed [] [("g.jsonl", groups)]
    let args : List Text := ["show", "R", "-g", "/srv/config/g.jsonl"]
    ∃ common name rest settings files command, readCommon args = .ok (common, name, rest)
      ∧ settingsOf s common = .ok (settings, files) ∧ readCommand name rest = .ok command
      ∧ command.output = none ∧ Reads { s with files := files } command [groups.toList] none
      ∧ ∃ failure, (run s args).ending = .failed failure
        ∧ failure.message = "'int' object has no attribute 'strip'" := by
  intro groups s args
  obtain ⟨⟨settings, _⟩, hsettings, rfl⟩ := map_toOption_eq_some_iff.mp
    (show (settingsOf s ⟨none, [], false⟩).toOption.map (·.2) = some s.files by decide +kernel)
  refine ⟨_, _, _, _, _, _, rfl, hsettings, rfl, rfl,
    { groups := .cons ⟨_, rfl, by decide +kernel⟩ .nil, acls := .none }, ?_⟩
  have htold : (run s args).ending.failure?.map Failure.message
      = some "'int' object has no attribute 'strip'" := by
    decide +kernel
  obtain ⟨failure, hfailure, hmessage⟩ := Option.map_eq_some_iff.mp htold
  exact ⟨failure, Ending.failure?_eq_some_iff.mp hfailure, hmessage⟩

end Lineage.Explore
