/-
Lineage.Proofs.Files.Turns — loading records, one line after the other.

Whatever the files, loading them takes one turn after the other: a path
under which there is nothing has one, and a file has one for each of its
lines, numbered from one, the blank ones among them (`Turns`).  A blank
line brings nothing and every other line the record of its document, so
the records are those of the other lines; the first turn that fails decides
how loading fails (`loadGroups_inTurns`).
-/
import Lineage.Proofs.Files.Loading
import Lineage.Proofs.Json.Limits
import Lineage.Proofs.Text.Lines

namespace Lineage

/-- What is to be done at one point of loading files. -/
inductive Turn where
  /-- There is nothing under a path. -/
  | absent (p : Path)
  /-- A line of a file, with its number. -/
  | line (p : Path) (number : Nat) (text : List Char)

namespace Turn

/-- The turn is a line of blanks. -/
def isBlank : Turn → Bool
  | .absent _ => false
  | .line _ _ text => text.all Text.isBlank

/-- The lines of a file, counted from a number. -/
def ofLines (p : Path) (number : Nat) (lines : List (List Char)) : List Turn :=
  (lines.zipIdx number).map fun (text, number) => .line p number text

variable [Stack]

/-- The line is the document of a record. -/
inductive Holds (now : Int) : Turn → Group → Prop
  | line (p : Path) (number : Nat) {text : List Char} {v : Value} {g : Group}
      (hfits : Json.Fits (Stack.room .readGroup) (.ofChars text))
      (hdocument : Json.Document (.ofChars text) v) (hcheck : Group.check now v = .ok g) :
      Holds now (.line p number text) g

/-- How a turn fails: there is no file, the line is no document, or its
document is no record, or a limit of the reader is met. -/
inductive Fails (now : Int) : Turn → Failure → Prop
  | absent (p : Path) : Fails now (.absent p) (.absent .groups p)
  | badLine (p : Path) (number : Nat) {text : List Char}
      (hblank : text.all Text.isBlank = false)
      (hfits : Json.Fits (Stack.room .readGroup) (.ofChars text))
      (hnone : ∀ v, ¬ Json.Document (.ofChars text) v) :
      Fails now (.line p number text) (.badLine p number)
  | rejected (p : Path) (number : Nat) {text : List Char} {v : Value}
      {rejection : Schema.Rejection} (hblank : text.all Text.isBlank = false)
      (hfits : Json.Fits (Stack.room .readGroup) (.ofChars text))
      (hdocument : Json.Document (.ofChars text) v)
      (hcheck : Group.check now v = .error rejection) :
      Fails now (.line p number text) (.rejected rejection)
  | limit (p : Path) (number : Nat) {text : List Char} {fault : Json.Fault}
      (hblank : text.all Text.isBlank = false)
      (hlimit : Json.Limit (Stack.room .readGroup) (.ofChars text) fault) :
      Fails now (.line p number text) (.json fault)

/-- What a turn comes to. -/
def load (now : Int) : Turn → Except Failure (List Group)
  | .absent p => .error (.absent .groups p)
  | .line p number text =>
    if text.all Text.isBlank then .ok []
    else
      (Files.readLine .readGroup p number text >>= fun v =>
        (Group.check now v).mapError .rejected).map ([·])

/-- The records of turns, up to the first that fails. -/
def loadAll (now : Int) (turns : List Turn) : Except Failure (List Group) :=
  (turns.mapM (load now)).map List.flatten

/-! ## One turn -/

section Load

variable {now : Int} {t : Turn} {p : Path} {number : Nat} {text : List Char}

theorem load_of_isBlank (h : t.isBlank = true) : t.load now = .ok [] := by
  cases t with
  | absent p => cases h
  | line p number text => exact if_pos h

theorem load_line (h : text.all Text.isBlank = false) :
    (line p number text).load now
      = (Files.readLine .readGroup p number text >>= fun v =>
        (Group.check now v).mapError .rejected).map ([·]) :=
  if_neg (by simp [h])

/-- A turn that is no blank line brings the record that it holds. -/
theorem load_eq_ok_iff (h : t.isBlank = false) {gs : List Group} :
    t.load now = .ok gs ↔ ∃ g, t.Holds now g ∧ gs = [g] := by
  cases t with
  | absent p =>
    refine iff_of_false (by simp [load]) ?_
    rintro ⟨g, hg, -⟩
    cases hg
  | line p number text =>
    simp only [load_line h, map_eq_ok_iff, bind_eq_ok_iff, mapError_eq_ok_iff,
      Files.readLine_eq_ok_iff, Json.readWithin_eq_ok_iff]
    constructor
    · rintro ⟨g, ⟨v, ⟨hdocument, hfits⟩, hcheck⟩, rfl⟩
      exact ⟨g, .line p number hfits hdocument hcheck, rfl⟩
    · rintro ⟨g, hg, rfl⟩
      cases hg with
      | line _ _ hfits hdocument hcheck => exact ⟨g, ⟨_, ⟨hdocument, hfits⟩, hcheck⟩, rfl⟩

/-- A line that is not read is no document, or it meets a limit. -/
theorem readLine_eq_error_iff {failure : Failure} :
    Files.readLine .readGroup p number text = .error failure
      ↔ (failure = .badLine p number ∧ Json.Fits (Stack.room .readGroup) (.ofChars text)
          ∧ ∀ v, ¬ Json.Document (.ofChars text) v)
        ∨ ∃ fault, failure = .json fault
          ∧ Json.Limit (Stack.room .readGroup) (.ofChars text) fault := by
  unfold Files.readLine
  cases hread : Json.readWithin (Stack.room .readGroup) (.ofChars text) with
  | ok v =>
    refine iff_of_false (by simp) ?_
    rintro (⟨-, -, hnone⟩ | ⟨fault, -, hlimit⟩)
    · exact hnone v (Json.readWithin_eq_ok_iff.mp hread).1
    · cases hread.symm.trans hlimit.read_eq
  | error fault =>
    rw [Except.error.injEq]
    by_cases hkind : fault.cause.kind = .grammar
    · obtain ⟨hnone, hfits⟩ := Json.exists_grammar_iff.mp ⟨fault, hread, hkind⟩
      rw [if_pos hkind]
      constructor
      · rintro rfl
        exact .inl ⟨rfl, hfits, hnone⟩
      · rintro (⟨rfl, -, -⟩ | ⟨other, -, hlimit⟩)
        · rfl
        · exact absurd hlimit (hfits other)
    · have hlimit : Json.Limit (Stack.room .readGroup) (.ofChars text) fault := ⟨hread, hkind⟩
      rw [if_neg hkind]
      constructor
      · rintro rfl
        exact .inr ⟨fault, rfl, hlimit⟩
      · rintro (⟨-, hfits, -⟩ | ⟨other, rfl, hother⟩)
        · exact absurd hlimit (hfits fault)
        · cases hread.symm.trans hother.read_eq
          rfl

theorem load_eq_error_iff {failure : Failure} :
    t.load now = .error failure ↔ t.Fails now failure := by
  cases t with
  | absent p =>
    constructor
    · intro h
      obtain rfl := Except.error.inj h
      exact .absent p
    · intro h
      cases h
      rfl
  | line p number text =>
    cases hblank : text.all Text.isBlank with
    | true =>
      have hnothing : (line p number text).load now = .ok [] := load_of_isBlank hblank
      refine iff_of_false (by simp [hnothing]) fun h => ?_
      cases h <;> simp_all
    | false =>
      rw [load_line hblank, map_eq_error_iff, bind_eq_error_iff, readLine_eq_error_iff]
      simp only [mapError_eq_error_iff, Files.readLine_eq_ok_iff, Json.readWithin_eq_ok_iff]
      constructor
      · rintro ((⟨rfl, hfits, hnone⟩ | ⟨fault, rfl, hlimit⟩)
          | ⟨v, ⟨hdocument, hfits⟩, rejection, hcheck, rfl⟩)
        · exact .badLine p number hblank hfits hnone
        · exact .limit p number hblank hlimit
        · exact .rejected p number hblank hfits hdocument hcheck
      · intro h
        cases h with
        | badLine _ _ _ hfits hnone => exact .inl (.inl ⟨rfl, hfits, hnone⟩)
        | limit _ _ _ hlimit => exact .inl (.inr ⟨_, rfl, hlimit⟩)
        | rejected _ _ _ hfits hdocument hcheck =>
          exact .inr ⟨_, ⟨hdocument, hfits⟩, _, hcheck, rfl⟩

end Load

/-! ## All turns -/

section LoadAll

variable {now : Int} {turns : List Turn}

@[simp] theorem loadAll_nil (now : Int) : loadAll now [] = .ok [] :=
  rfl

theorem loadAll_cons (now : Int) (t : Turn) (turns : List Turn) :
    loadAll now (t :: turns)
      = t.load now >>= fun gs => loadAll now turns >>= fun more => .ok (gs ++ more) := by
  rw [loadAll, loadAll, List.mapM_cons]
  cases t.load now with
  | error failure => rfl
  | ok gs => cases turns.mapM (load now) <;> rfl

theorem loadAll_append (now : Int) (turns later : List Turn) :
    loadAll now (turns ++ later)
      = loadAll now turns >>= fun gs => loadAll now later >>= fun more => .ok (gs ++ more) :=
  append_of_cons (load now) (loadAll now) rfl (loadAll_cons now) turns later

/-- The records are those that the lines hold which are not blank. -/
theorem loadAll_eq_ok_iff {gs : List Group} :
    loadAll now turns = .ok gs
      ↔ List.Forall₂ (Holds now) (turns.filter fun t => !t.isBlank) gs := by
  induction turns generalizing gs with
  | nil => simp [eq_comm]
  | cons t turns ih =>
    simp only [loadAll_cons, bind_eq_ok_iff, Except.ok.injEq]
    cases hblank : t.isBlank with
    | true =>
      rw [load_of_isBlank hblank, List.filter_cons_of_neg (by simp [hblank]), ← ih]
      simp
    | false =>
      rw [List.filter_cons_of_pos (by simp [hblank]), List.forall₂_cons_left_iff]
      simp only [load_eq_ok_iff hblank, ← ih]
      constructor
      · rintro ⟨_, ⟨g, hg, rfl⟩, more, hmore, rfl⟩
        exact ⟨g, more, hg, hmore, rfl⟩
      · rintro ⟨g, more, hg, hmore, rfl⟩
        exact ⟨[g], ⟨g, hg, rfl⟩, more, hmore, rfl⟩

/-- The first turn that fails decides. -/
theorem loadAll_eq_error_iff {failure : Failure} :
    loadAll now turns = .error failure
      ↔ BreaksOff (fun t => t.isBlank = true ∨ ∃ g, t.Holds now g)
        (fun t => t.Fails now failure) turns := by
  have hpasses (t : Turn) :
      (t.isBlank = true ∨ ∃ g, t.Holds now g) ↔ ∃ gs, t.load now = .ok gs := by
    cases hblank : t.isBlank with
    | true => simp [load_of_isBlank hblank]
    | false => simp [load_eq_ok_iff hblank]
  simp only [loadAll, map_eq_error_iff, mapM_eq_error_iff, load_eq_error_iff, hpasses]

end LoadAll

end Turn

namespace Files

/-! ## The turns of files -/

/-- Under each of the paths is nothing or a file of characters; these are
the turns of loading them. -/
inductive Turns (f : Files) : List Path → List Turn → Prop
  | nil : Turns f [] []
  | absent {p : Path} {ps : List Path} {turns : List Turn} (hp : f.has p = .ok false)
      (h : Turns f ps turns) : Turns f (p :: ps) (.absent p :: turns)
  | file {p : Path} {ps : List Path} {turns : List Turn} {cs : List Char}
      {lines : List (List Char)} (hp : f.readBytes p = .ok (Text.Utf8.encode cs))
      (hlines : Text.Lines cs lines) (h : Turns f ps turns) :
      Turns f (p :: ps) (Turn.ofLines p 1 lines ++ turns)

section Turns

variable {f : Files} {ps : List Path} {turns : List Turn}

theorem exists_turns_iff :
    (∃ turns, f.Turns ps turns)
      ↔ ∀ p ∈ ps, f.has p = .ok false ∨ ∃ cs, f.readBytes p = .ok (Text.Utf8.encode cs) := by
  constructor
  · rintro ⟨turns, h⟩
    induction h with
    | nil => exact fun _ hp => absurd hp List.not_mem_nil
    | absent hp _ ih => exact List.forall_mem_cons.mpr ⟨.inl hp, ih⟩
    | file hp _ _ ih => exact List.forall_mem_cons.mpr ⟨.inr ⟨_, hp⟩, ih⟩
  · intro h
    induction ps with
    | nil => exact ⟨[], .nil⟩
    | cons p ps ih =>
      obtain ⟨hp, hps⟩ := List.forall_mem_cons.mp h
      obtain ⟨turns, hturns⟩ := ih hps
      rcases hp with hp | ⟨cs, hp⟩
      · exact ⟨_, .absent hp hturns⟩
      · exact ⟨_, .file hp (Text.lines_splitLines cs) hturns⟩

variable [Stack]

/-- The lines of a file are read in turns. -/
theorem readLines_eq_loadAll (now : Int) (p : Path) (number : Nat) (lines : List (List Char)) :
    readLines .readGroup (Group.check now) p number lines
      = Turn.loadAll now (Turn.ofLines p number lines) := by
  induction lines generalizing number with
  | nil => rfl
  | cons line rest ih =>
    have hcons : Turn.ofLines p number (line :: rest)
        = .line p number line :: Turn.ofLines p (number + 1) rest := rfl
    rw [hcons, Turn.loadAll_cons, ← ih]
    cases hblank : line.all Text.isBlank with
    | true =>
      have hnothing : (Turn.line p number line).load now = .ok [] := Turn.load_of_isBlank hblank
      rw [readLines_cons_of_blank hblank, hnothing]
      cases readLines .readGroup (Group.check now) p (number + 1) rest <;> rfl
    | false =>
      rw [readLines_cons hblank, Turn.load_line hblank]
      cases readLine .readGroup p number line >>= fun v =>
        (Group.check now v).mapError .rejected <;> rfl

/-- Files are loaded in turns. -/
theorem Turns.loadGroups_eq (h : f.Turns ps turns) (now : Int) :
    f.loadGroups now ps = Turn.loadAll now turns := by
  induction h with
  | nil => rfl
  | absent hp _ _ =>
    rw [loadGroups_cons, loadGroupsOf, hp, Turn.loadAll_cons]
    rfl
  | @file p _ _ cs _ hp hlines _ ih =>
    obtain rfl := Text.lines_iff.mp hlines
    rw [loadGroups_cons, loadGroupsOf_of_text hp, readLines_eq_loadAll, ih, Turn.loadAll_append,
      linesOf]

/-- Records are loaded in the turns of their files, if under every path is
nothing or a file of characters.  All turns together bring one record for
every line that is not blank; they fail as the first one that fails, for
want of a file, a document or a record, or at a limit of the reader that
the line shows.  Paths may be loaded in two parts. -/
theorem loadGroups_inTurns (f : Files) (now : Int) (ps : List Path) :
    ((∃ turns, f.Turns ps turns)
        ↔ ∀ p ∈ ps, f.has p = .ok false ∨ ∃ cs, f.readBytes p = .ok (Text.Utf8.encode cs))
      ∧ (∀ turns, f.Turns ps turns →
        (∀ gs, f.loadGroups now ps = .ok gs
          ↔ List.Forall₂ (Turn.Holds now) (turns.filter fun t => !t.isBlank) gs)
        ∧ ∀ failure, f.loadGroups now ps = .error failure
          ↔ BreaksOff (fun t => t.isBlank = true ∨ ∃ g, t.Holds now g)
            (fun t => t.Fails now failure) turns)
      ∧ (∀ text fault, Json.Limit (Stack.room .readGroup) text fault →
        fault.cause.kind = .size ∧ Json.LongDigits text
          ∨ fault.cause.kind = .depth ∧ Stack.room .readGroup < Json.openings text)
      ∧ ∀ qs, f.loadGroups now (ps ++ qs)
        = f.loadGroups now ps >>= fun gs => f.loadGroups now qs >>= fun more =>
          .ok (gs ++ more) := by
  refine ⟨exists_turns_iff, fun turns h => ⟨fun gs => ?_, fun failure => ?_⟩,
    fun _ _ => Json.Limit.explained,
    append_of_cons (f.loadGroupsOf now) (f.loadGroups now) rfl (loadGroups_cons f now) ps⟩
  · rw [h.loadGroups_eq, Turn.loadAll_eq_ok_iff]
  · rw [h.loadGroups_eq, Turn.loadAll_eq_error_iff]

end Turns

/-- One file, `g`, and no other. -/
def alone (cs : List Char) : Files :=
  { entries := [(["g"], .file (Text.Utf8.encode cs))] }

theorem readBytes_alone (cs : List Char) :
    (alone cs).readBytes ⟨"", ["g"]⟩ = .ok (Text.Utf8.encode cs) :=
  rfl

/-- The third line of a file is no document.  The lines end in all three
ways, and the blank one counts; that there is no second file is not found
out. -/
theorem loadGroups_inTurns_endings :
    let g : Path := ⟨"", ["g"]⟩
    let h : Path := ⟨"", ["h"]⟩
    let record := "\x7b\"shortId\": \"R\"\x7d".toList
    let f := alone (record ++ ['\r', '\n', ' ', '\r', '[', '\n'])
    f.Turns [g, h] [.line g 1 record, .line g 2 [' '], .line g 3 ['['], .absent h]
      ∧ f.loadGroups 0 [g, h] = .error (.badLine g 3) := by
  intro g h record f
  have hlines : Text.Lines (record ++ ['\r', '\n', ' ', '\r', '[', '\n']) [record, [' '], ['[']] :=
    Text.lines_iff.mpr (by decide +kernel)
  have hturns : f.Turns [g, h] [.line g 1 record, .line g 2 [' '], .line g 3 ['['], .absent h] :=
    .file (readBytes_alone _) hlines (.absent (by decide +kernel) .nil)
  obtain ⟨-, hloads, -⟩ := loadGroups_inTurns f 0 [g, h]
  refine ⟨hturns, ((hloads _ hturns).2 _).mpr ⟨[_, _], _, [_], rfl, ?_, ?_⟩⟩
  · -- A record is read, and the line behind it is blank.
    obtain ⟨gs, hgs⟩ := exists_ok_of_isOk
      (show ((Turn.line g 1 record).load 0).isOk = true by decide +kernel)
    obtain ⟨group, hgroup, -⟩ := (Turn.load_eq_ok_iff (by decide +kernel)).mp hgs
    exact List.forall_mem_cons.mpr ⟨.inr ⟨group, hgroup⟩, List.forall_mem_singleton.mpr (.inl rfl)⟩
  · exact .badLine g 3 rfl
      (Json.fits_of_openings (Json.not_longDigits_unclosed 1) (by decide))
      (Json.not_document_unclosed Nat.one_pos)

/-- A line that is no document opens more arrays than there is room for, so
that loading fails without a word about the file and the line. -/
theorem loadGroups_fails_unclosed :
    let g : Path := ⟨"", ["g"]⟩
    let text := List.replicate 20000 '['
    (alone text).Turns [g] [.line g 1 text] ∧ text.all Text.isBlank = false
      ∧ (∀ v, ¬ Json.Document (.ofChars text) v) ∧ ¬ Json.LongDigits (.ofChars text)
      ∧ ∃ fault, (alone text).loadGroups 0 [g] = .error (.json fault)
        ∧ fault.cause = .nesting false := by
  intro g text
  have htext : Text.ofChars text = Json.unclosed 20000 := List.map_replicate
  have hblank : text.all Text.isBlank = false := by
    rw [List.all_replicate]
    decide
  have hne : text ≠ [] :=
    List.ne_nil_of_length_pos (by rw [List.length_replicate]; decide)
  have hplain : Text.OneLine text := fun c hc => by
    obtain rfl := List.eq_of_mem_replicate hc
    decide
  have hturns : (alone text).Turns [g] [.line g 1 text] :=
    .file (readBytes_alone text) (.last hne hplain) .nil
  obtain ⟨fault, hread, hcause⟩ := Json.readWithin_unclosed (show Json.maxNesting < 20000 by decide)
  refine ⟨hturns, hblank, fun v => ?_, ?_, fault, ?_, hcause⟩
  · exact htext ▸ Json.not_document_unclosed (by decide) v
  · exact htext ▸ Json.not_longDigits_unclosed 20000
  · have hfails : Turn.Fails 0 (.line g 1 text) (.json fault) :=
      .limit g 1 hblank ⟨htext ▸ hread, by rw [hcause]; decide⟩
    rw [hturns.loadGroups_eq, Turn.loadAll_eq_error_iff]
    exact ⟨[], _, [], rfl, fun _ h => absurd h List.not_mem_nil, hfails⟩

end Files

end Lineage
