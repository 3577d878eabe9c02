/-
Lineage.Proofs.Files.Loading — why loading from files fails.

Most that can be wrong with a file is told to the user: that it is no
text, that a line is no document, that the fields of a record are at
fault.  Two things are not: a document whose parts stand too deep within
one another, and a list of ids that cannot be listed (`Failure.Untold`).
Loading goes through the lines in order and stops at the first that is
not accepted, so it fails untold exactly if that one is of these two
kinds (`loads_loadGroups`, `loads_loadAcls`).
-/
import Lineage.Command.Explore
import Lineage.Proofs.Files.Stages
import Lineage.Proofs.Files.Writing
import Lineage.Proofs.Group.Misfits

namespace Lineage

/-! ## Failures that are told -/

/-- The failure is one that no one is told of. -/
inductive Failure.Untold : Failure → Prop
  | nested {fault : Json.Fault} (h : fault.cause.kind = .depth) : Untold (.json fault)
  | misfit (m : Schema.Misfit) : Untold (.rejected (.misfit m))

/-- The failure is about what a file holds. -/
inductive Failure.OfContent : Failure → Prop
  | badLine (p : Path) (line : Nat) : OfContent (.badLine p line)
  | json (fault : Json.Fault) : OfContent (.json fault)
  | rejected (rejection : Schema.Rejection) : OfContent (.rejected rejection)

/-- What is wrong with the contents of a file is told, with two
exceptions. -/
theorem Explore.loadingEnding_of_content {failure : Failure} (h : failure.OfContent)
    (filesToo : Bool) :
    ((∃ t, loadingEnding filesToo failure = .troubled t) ∧ ¬ failure.Untold)
      ∨ (loadingEnding filesToo failure = .failed failure ∧ failure.Untold) := by
  cases h with
  | badLine p line => exact .inl ⟨⟨_, rfl⟩, nofun⟩
  | json fault =>
    by_cases hdepth : fault.cause.kind = .depth
    · refine .inr ⟨?_, .nested hdepth⟩
      simp [loadingEnding, Failure.concernsValue, Failure.concernsFile, hdepth]
    · refine .inl ⟨⟨.told (Failure.json fault).message, ?_⟩, fun huntold => ?_⟩
      · simp [loadingEnding, Failure.concernsValue, hdepth]
      · cases huntold with
        | nested hkind => exact hdepth hkind
  | rejected rejection =>
    cases rejection with
    | faults model items => exact .inl ⟨⟨_, rfl⟩, nofun⟩
    | misfit m =>
      refine .inr ⟨?_, .misfit m⟩
      simp [loadingEnding, Failure.concernsValue, Failure.concernsFile]

namespace Files

open Schema

/-! ## What becomes of loading -/

variable {α : Type} {check : Value → Except Rejection α} {unlistable : Value → Prop}

/-- A result of loading, seen as what becomes of it: it is accepted as a
whole, or it fails, about what a file holds, and untold under a
condition. -/
structure Loads (x : Except Failure α) (accepted untold : Prop) : Prop where
  ok_iff : (∃ a, x = .ok a) ↔ accepted
  content : ∀ failure, x = .error failure → failure.OfContent
  untold_iff : (∃ failure, x = .error failure ∧ failure.Untold) ↔ untold

theorem Loads.of_ok {x : Except Failure α} {accepted untold : Prop} {a : α} (hx : x = .ok a)
    (haccepted : accepted) (huntold : ¬ untold) : Loads x accepted untold := by
  subst hx
  exact ⟨⟨fun _ => haccepted, fun _ => ⟨a, rfl⟩⟩, nofun, by simp [huntold]⟩

theorem Loads.of_error {x : Except Failure α} {accepted untold : Prop} {failure : Failure}
    (hx : x = .error failure) (hcontent : failure.OfContent) (haccepted : ¬ accepted)
    (huntold : failure.Untold ↔ untold) : Loads x accepted untold := by
  subst hx
  refine ⟨by simp [haccepted], fun _ h => Except.error.inj h ▸ hcontent, ?_⟩
  rw [← huntold]
  constructor
  · rintro ⟨_, h, hu⟩
    exact Except.error.inj h ▸ hu
  · exact fun h => ⟨failure, rfl, h⟩

theorem Loads.cases {x : Except Failure α} {accepted untold : Prop} (h : Loads x accepted untold) :
    (∃ a, x = .ok a ∧ accepted ∧ ¬ untold)
      ∨ ∃ failure, x = .error failure ∧ failure.OfContent ∧ ¬ accepted
        ∧ (failure.Untold ↔ untold) := by
  obtain ⟨hok, hcontent, huntold⟩ := h
  rw [← hok, ← huntold]
  cases x with
  | ok a => exact .inl ⟨a, rfl, ⟨a, rfl⟩, by simp⟩
  | error failure => exact .inr ⟨failure, rfl, hcontent failure rfl, by simp, by simp⟩

theorem Loads.congr {x : Except Failure α} {accepted untold accepted' untold' : Prop}
    (h : Loads x accepted untold) (haccepted : accepted ↔ accepted') (huntold : untold ↔ untold') :
    Loads x accepted' untold' :=
  ⟨h.ok_iff.trans haccepted, h.content, h.untold_iff.trans huntold⟩

/-- Working something out of what was loaded changes nothing of this. -/
theorem Loads.map {β : Type} {x : Except Failure α} {accepted untold : Prop}
    (h : Loads x accepted untold) (g : α → β) : Loads (x.map g) accepted untold := by
  rcases h.cases with ⟨a, rfl, haccepted, hnone⟩ | ⟨failure, rfl, hcontent, hnot, huntold⟩
  · exact .of_ok rfl haccepted hnone
  · exact .of_error rfl hcontent hnot huntold

/-- What is loaded after something else was. -/
theorem Loads.andThen {β γ : Type} {x : Except Failure α} {y : Except Failure β}
    {accepted untold accepted' untold' : Prop} (hx : Loads x accepted untold)
    (hy : Loads y accepted' untold') (g : α → β → γ) :
    Loads (x >>= fun a => y >>= fun b => .ok (g a b)) (accepted ∧ accepted')
      (untold ∨ (accepted ∧ untold')) := by
  rcases hx.cases with ⟨a, rfl, haccepted, hnone⟩ | ⟨failure, rfl, hcontent, hnot, huntold⟩
  · have hboth : Loads (y.map (g a)) (accepted ∧ accepted') (untold ∨ (accepted ∧ untold')) :=
      (hy.map (g a)).congr (by tauto) (by tauto)
    cases y <;> exact hboth
  · exact .of_error rfl hcontent (fun h => hnot h.1) (huntold.trans (by tauto))

/-- A document is checked as a whole, and what its check cannot handle is
not told. -/
theorem loads_check {v : Value}
    (hcheck : (∃ m, check v = .error (.misfit m)) ↔ unlistable v) :
    Loads ((check v).mapError .rejected) (∃ a, check v = .ok a) (unlistable v) := by
  rw [← hcheck]
  cases check v with
  | ok a => exact .of_ok rfl ⟨a, rfl⟩ (by simp)
  | error rejection =>
    refine .of_error rfl (.rejected rejection) (by simp) ⟨fun hu => ?_, ?_⟩
    · cases hu with
      | misfit m => exact ⟨m, rfl⟩
    · rintro ⟨m, heq⟩
      rw [Except.error.inj heq]
      exact .misfit m

/-- Annotations are checked in their order. -/
theorem loads_checkAcls (vs : List Value) :
    Loads (checkAcls vs) (∀ v ∈ vs, ∃ a, Acl.check v = .ok a)
      (BreaksOff (fun v => ∃ a, Acl.check v = .ok a) Acl.Unlistable vs) := by
  induction vs with
  | nil => exact .of_ok rfl (fun _ h => absurd h List.not_mem_nil) not_breaksOff_nil
  | cons v rest ih =>
    rw [checkAcls_cons]
    refine ((loads_check Acl.exists_misfit_of_check_iff).andThen ih List.cons).congr ?_ ?_
    · rw [List.forall_mem_cons]
    · rw [breaksOff_cons]

/-- A file whose bytes are those of some characters. -/
theorem has_of_readBytes {bytes : List UInt8} {f : Files} {p : Path}
    (h : f.readBytes p = .ok bytes) : f.has p = .ok true := by
  unfold readBytes at h
  unfold has
  split at h
  · cases h
  · rename_i hfind
    rw [hfind]
    rfl
  · cases h
  · cases h

/-! ## Lines -/

variable [Stack] {routine : Routine} {p : Path}

/-- The line is blank, or its document is accepted. -/
def Accepts (routine : Routine) (check : Value → Except Rejection α) (line : List Char) : Prop :=
  line.all Text.isBlank = true
    ∨ ∃ v a, Json.readWithin (Stack.room routine) (.ofChars line) = .ok v ∧ check v = .ok a

/-- The document of the line is nested too deep, or it is one that cannot
be handled. -/
def Upsets (routine : Routine) (unlistable : Value → Prop) (line : List Char) : Prop :=
  line.all Text.isBlank = false
    ∧ ((∃ fault, Json.readWithin (Stack.room routine) (.ofChars line) = .error fault
          ∧ fault.cause.kind = .depth)
      ∨ ∃ v, Json.readWithin (Stack.room routine) (.ofChars line) = .ok v ∧ unlistable v)

/-- What a line is not a document is either its grammar or its size. -/
theorem ofContent_of_readLine {number : Nat} {line : List Char} {failure : Failure}
    (h : readLine routine p number line = .error failure) :
    failure.OfContent ∧ (failure.Untold
      ↔ ∃ fault, Json.readWithin (Stack.room routine) (.ofChars line) = .error fault
        ∧ fault.cause.kind = .depth) := by
  unfold readLine at h
  split at h
  · cases h
  · rename_i fault hread
    rw [hread]
    obtain rfl := Except.error.inj h
    split_ifs with hgrammar
    · refine ⟨.badLine _ _, nofun, ?_⟩
      rintro ⟨_, heq, hdepth⟩
      rw [← Except.error.inj heq, hgrammar] at hdepth
      cases hdepth
    · refine ⟨.json fault, fun huntold => ?_, ?_⟩
      · cases huntold with
        | nested hdepth => exact ⟨fault, rfl, hdepth⟩
      · rintro ⟨_, heq, hdepth⟩
        rw [← Except.error.inj heq] at hdepth
        exact .nested hdepth

/-- The document of a line, checked. -/
theorem loads_line (hcheck : ∀ v, (∃ m, check v = .error (.misfit m)) ↔ unlistable v)
    (number : Nat) (line : List Char) :
    Loads (readLine routine p number line >>= fun v => (check v).mapError .rejected)
      (∃ v a, Json.readWithin (Stack.room routine) (.ofChars line) = .ok v ∧ check v = .ok a)
      ((∃ fault, Json.readWithin (Stack.room routine) (.ofChars line) = .error fault
          ∧ fault.cause.kind = .depth)
        ∨ ∃ v, Json.readWithin (Stack.room routine) (.ofChars line) = .ok v ∧ unlistable v) := by
  cases hread : Json.readWithin (Stack.room routine) (.ofChars line) with
  | ok v =>
    rw [readLine_eq_ok_iff.mpr hread]
    exact (loads_check (hcheck v)).congr (by simp) (by simp)
  | error fault =>
    have hline : ∃ failure, readLine routine p number line = .error failure := by
      simp only [readLine, hread]
      exact ⟨_, rfl⟩
    obtain ⟨failure, hline⟩ := hline
    obtain ⟨hcontent, huntold⟩ := ofContent_of_readLine hline
    rw [hread] at huntold
    rw [hline]
    exact .of_error rfl hcontent (by simp) (huntold.trans (by simp))

/-- Reading lines stops at the first that is not accepted. -/
theorem loads_readLines (hcheck : ∀ v, (∃ m, check v = .error (.misfit m)) ↔ unlistable v)
    (number : Nat) (lines : List (List Char)) :
    Loads (readLines routine check p number lines) (∀ line ∈ lines, Accepts routine check line)
      (BreaksOff (Accepts routine check) (Upsets routine unlistable) lines) := by
  induction lines generalizing number with
  | nil => exact .of_ok rfl (fun _ h => absurd h List.not_mem_nil) not_breaksOff_nil
  | cons line rest ih =>
    have hrest := ih (number + 1)
    cases hblank : line.all Text.isBlank with
    | true =>
      have hgood : Accepts routine check line := .inl hblank
      have hbad : ¬ Upsets routine unlistable line := fun h => by
        rw [h.1] at hblank
        cases hblank
      rw [readLines_cons_of_blank hblank]
      refine hrest.congr ?_ ?_
      · rw [List.forall_mem_cons, and_iff_right hgood]
      · rw [breaksOff_cons, or_iff_right hbad, and_iff_right hgood]
    | false =>
      have hgood : Accepts routine check line
          ↔ ∃ v a, Json.readWithin (Stack.room routine) (.ofChars line) = .ok v ∧ check v = .ok a :=
        or_iff_right (by rw [hblank]; exact Bool.false_ne_true)
      rw [readLines_cons hblank]
      refine ((loads_line hcheck number line).andThen hrest List.cons).congr ?_ ?_
      · rw [List.forall_mem_cons, hgood]
      · rw [breaksOff_cons, hgood, Upsets, and_iff_right hblank]

/-! ## Files of records -/

variable {f : Files}

/-- The lines of a text in a file. -/
def linesOf (cs : List Char) : List (List Char) :=
  Text.splitLines (Text.unifyLines cs)

theorem loadGroupsOf_of_text {now : Int} {cs : List Char}
    (h : f.readBytes p = .ok (Text.Utf8.encode cs)) :
    f.loadGroupsOf now p = readLines .readGroup (Group.check now) p 1 (linesOf cs) := by
  simp only [loadGroupsOf, has_of_readBytes h, h, PiecewiseLines.ofBytes_encode]
  rw [linesOf]
  cases readLines .readGroup (Group.check now) p 1 (Text.splitLines (Text.unifyLines cs)) <;> rfl

/-- Files of records are loaded if all lines of all files are accepted,
and fail untold exactly if the first line that is not accepted upsets its
check. -/
theorem loads_loadGroups {now : Int} {ps : List Path} {contents : List (List Char)}
    (h : List.Forall₂ (fun p cs => f.readBytes p = .ok (Text.Utf8.encode cs)) ps contents) :
    Loads (f.loadGroups now ps)
      (∀ line ∈ contents.flatMap linesOf, Accepts .readGroup (Group.check now) line)
      (BreaksOff (Accepts .readGroup (Group.check now)) (Upsets .readGroup Group.Unlistable)
        (contents.flatMap linesOf)) := by
  induction h with
  | nil => exact .of_ok rfl (fun _ h => absurd h List.not_mem_nil) not_breaksOff_nil
  | @cons p cs ps contents hp _ ih =>
    have hfile : Loads (f.loadGroupsOf now p)
        (∀ line ∈ linesOf cs, Accepts .readGroup (Group.check now) line)
        (BreaksOff (Accepts .readGroup (Group.check now)) (Upsets .readGroup Group.Unlistable)
          (linesOf cs)) := by
      rw [loadGroupsOf_of_text hp]
      exact loads_readLines (fun _ => Group.exists_misfit_of_check_iff) 1 (linesOf cs)
    rw [loadGroups_cons, List.flatMap_cons]
    refine (hfile.andThen ih (· ++ ·)).congr ?_ ?_
    · rw [List.forall_mem_append]
    · rw [breaksOff_append]

/-! ## A file of annotations -/

/-- The text of a file without blanks around it. -/
def bodyOf (cs : List Char) : List Char :=
  Text.trimWhere Text.isBlank (Text.unifyLines cs)

/-- The documents of the annotations that a text holds: the items of an
array, or the documents of its lines. -/
def aclDocuments (cs : List Char) : Except Json.Fault (List Value) :=
  if (bodyOf cs).head? = some '[' then
    (Json.readWithin arrayNesting (.ofChars (bodyOf cs))).map partsOf
  else
    ((linesOf cs).filter fun line => !line.all Text.isBlank).mapM fun line =>
      Json.readWithin (Stack.room .readAcl) (.ofChars line)

/-- Lines whose documents are taken as they are. -/
theorem readLines_ok (p : Path) (number : Nat) (lines : List (List Char)) :
    let documents := (lines.filter fun line => !line.all Text.isBlank).mapM fun line =>
      Json.readWithin (Stack.room .readAcl) (.ofChars line)
    (∃ vs, readLines .readAcl .ok p number lines = .ok vs ∧ documents = .ok vs)
      ∨ ∃ failure fault, readLines .readAcl .ok p number lines = .error failure
        ∧ documents = .error fault ∧ failure.OfContent
        ∧ (failure.Untold ↔ fault.cause.kind = .depth) := by
  induction lines generalizing number with
  | nil => exact .inl ⟨[], rfl, rfl⟩
  | cons line rest ih =>
    intro documents
    cases hblank : line.all Text.isBlank with
    | true =>
      have hskip : (line :: rest).filter (fun line => !line.all Text.isBlank)
          = rest.filter fun line => !line.all Text.isBlank :=
        List.filter_cons_of_neg (by simp [hblank])
      rw [readLines, if_pos hblank]
      simp only [documents, hskip]
      exact ih (number + 1)
    | false =>
      have hkeep : (line :: rest).filter (fun line => !line.all Text.isBlank)
          = line :: rest.filter fun line => !line.all Text.isBlank :=
        List.filter_cons_of_pos (by simp [hblank])
      rw [readLines, if_neg (by simp [hblank])]
      simp only [documents, hkeep, List.mapM_cons]
      cases hread : Json.readWithin (Stack.room .readAcl) (.ofChars line) with
      | error fault =>
        have hline : ∃ failure, readLine .readAcl p number line = .error failure := by
          simp only [readLine, hread]
          exact ⟨_, rfl⟩
        obtain ⟨failure, hline⟩ := hline
        obtain ⟨hcontent, huntold⟩ := ofContent_of_readLine hline
        rw [hline]
        exact .inr ⟨failure, fault, rfl, rfl, hcontent, huntold.trans (by simp [hread])⟩
      | ok v =>
        rw [readLine_eq_ok_iff.mpr hread]
        dsimp only
        rcases ih (number + 1) with ⟨vs, hvs, hdocuments⟩ | ⟨failure, fault, hfailure, hfault, h⟩
        · rw [hvs, hdocuments]
          exact .inl ⟨v :: vs, rfl, rfl⟩
        · rw [hfailure, hfault]
          exact .inr ⟨failure, fault, rfl, rfl, h⟩

/-- A file of annotations is loaded if it holds documents that are all
accepted, and fails untold exactly if its documents are nested too deep,
or the first document that is not accepted has roles that cannot be
listed. -/
theorem loads_loadAcls {cs : List Char} (h : f.readBytes p = .ok (Text.Utf8.encode cs)) :
    Loads (f.loadAcls p)
      (∃ vs, aclDocuments cs = .ok vs ∧ ∀ v ∈ vs, ∃ a, Acl.check v = .ok a)
      ((∃ fault, aclDocuments cs = .error fault ∧ fault.cause.kind = .depth)
        ∨ ∃ vs, aclDocuments cs = .ok vs
          ∧ BreaksOff (fun v => ∃ a, Acl.check v = .ok a) Acl.Unlistable vs) := by
  have htext := readText_of_readBytes h
  -- Once the documents are there, what follows is their check.
  have hchecked {vs : List Value} (hvs : aclDocuments cs = .ok vs) : Loads (checkAcls vs)
      (∃ vs, aclDocuments cs = .ok vs ∧ ∀ v ∈ vs, ∃ a, Acl.check v = .ok a)
      ((∃ fault, aclDocuments cs = .error fault ∧ fault.cause.kind = .depth)
        ∨ ∃ vs, aclDocuments cs = .ok vs
          ∧ BreaksOff (fun v => ∃ a, Acl.check v = .ok a) Acl.Unlistable vs) :=
    (loads_checkAcls vs).congr (by simp [hvs]) (by simp [hvs])
  unfold loadAcls
  rw [has_of_readBytes h, htext]
  dsimp only
  rw [← bodyOf, ← linesOf]
  split
  · rename_i rest hbody
    have hstart : (bodyOf cs).head? = some '[' := by rw [hbody]; rfl
    have hdocuments : aclDocuments cs
        = (Json.readWithin arrayNesting (.ofChars (bodyOf cs))).map partsOf := by
      rw [aclDocuments, if_pos hstart]
    cases hread : Json.readWithin arrayNesting (.ofChars (bodyOf cs)) with
    | error fault =>
      rw [hread] at hdocuments
      refine .of_error rfl (.json fault) (by simp [hdocuments, Except.map]) ⟨fun hu => ?_, ?_⟩
      · cases hu with
        | nested hdepth => exact .inl ⟨fault, hdocuments, hdepth⟩
      · simp only [hdocuments, Except.map]
        rintro (⟨_, heq, hdepth⟩ | ⟨_, heq, -⟩)
        · rw [← Except.error.inj heq] at hdepth
          exact .nested hdepth
        · cases heq
    | ok v =>
      rw [hread] at hdocuments
      exact hchecked hdocuments
  · rename_i hbody
    have hstart : (bodyOf cs).head? ≠ some '[' := by
      intro hhead
      obtain ⟨rest, hrest⟩ := List.head?_eq_some_iff.mp hhead
      exact hbody rest hrest
    have hdocuments : aclDocuments cs
        = ((linesOf cs).filter fun line => !line.all Text.isBlank).mapM fun line =>
          Json.readWithin (Stack.room .readAcl) (.ofChars line) := by
      rw [aclDocuments, if_neg hstart]
    rcases readLines_ok p 1 (linesOf cs) with ⟨vs, hvs, hok⟩
      | ⟨failure, fault, hfailure, hfault, hcontent, huntold⟩
    · rw [hvs]
      exact hchecked (hdocuments.trans hok)
    · have hdocuments := hdocuments.trans hfault
      rw [hfailure]
      refine .of_error rfl hcontent (by simp [hdocuments]) (huntold.trans ?_)
      simp [hdocuments]

end Files

end Lineage
