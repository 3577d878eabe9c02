/-
Lineage.Proofs.Files.Annotations — annotations in a file, whatever its
form.

A file of annotations is one array, or holds an object on each of its
lines; the first character that is no blank tells which.  An array in any
layout starts with a bracket, also when its line ends are unified and the
blanks around it removed (`Json.Layout.strip_array`).  Lines start with the
brace of an object, because the first character of the file that is no
blank is the first one of its line (`Text.exists_head?_dropWhile`).  What
both forms are read as depends on the objects alone: in an array they stand
one step further within, and there is one step more room for it
(`brings_of_array`, `brings_of_lines`).  The checks that follow are the
same, so the two forms agree (`Brings.agree`).

Checked annotations are accepted as they are when they were written
(`Acl.check_dump`).  That they could be written shows that their texts hold
no surrogates (`whole_of_writeDocument`), so the document in the file is
legible, and they are loaded from it (`loadAcls_of_writeDocument`).
-/
import Lineage.Proofs.Files.Documents
import Lineage.Proofs.Files.Loading
import Lineage.Proofs.Group.Normal
import Lineage.Proofs.Json.LineEnds
import Lineage.Proofs.Text.Lines
import Lineage.Usual

namespace Lineage

/-! ## Blanks around a text -/

namespace Text

section Trim

variable {α : Type} {p : α → Bool}

theorem dropWhile_append_cons {gap : List α} (hgap : ∀ x ∈ gap, p x = true) {x : α}
    (hx : p x = false) (rest : List α) : (gap ++ x :: rest).dropWhile p = x :: rest := by
  rw [List.dropWhile_append_of_pos hgap, List.dropWhile_cons_of_neg (by simp [hx])]

/-- What stands between marks is kept when the blanks around it are
removed. -/
theorem trimWhere_marked {before behind : List α} (hbefore : ∀ x ∈ before, p x = true)
    (hbehind : ∀ x ∈ behind, p x = true) {first last : α} (hfirst : p first = false)
    (hlast : p last = false) (middle : List α) :
    trimWhere p (before ++ (first :: (middle ++ [last]) ++ behind))
      = first :: (middle ++ [last]) := by
  have hreverse : ∀ x ∈ behind.reverse, p x = true := fun x hx => hbehind x (List.mem_reverse.mp hx)
  have hturned : (first :: (middle ++ [last]) ++ behind).reverse
      = behind.reverse ++ last :: (middle.reverse ++ [first]) := by
    simp
  rw [trimWhere, List.cons_append, dropWhile_append_cons hbefore hfirst, ← List.cons_append,
    hturned, dropWhile_append_cons hreverse hlast]
  simp

theorem head?_trimWhere {xs : List α} {x : α} (h : (trimWhere p xs).head? = some x) :
    (xs.dropWhile p).head? = some x := by
  obtain ⟨rest, hrest⟩ := List.head?_eq_some_iff.mp h
  have hprefix : trimWhere p xs <+: xs.dropWhile p := List.rdropWhile_prefix p _
  obtain ⟨more, hmore⟩ := hprefix
  rw [← hmore, hrest]
  rfl

end Trim

theorem exists_cons_of_ofChars {cs : List Char} {c : Char}
    (h : (ofChars cs).head? = some (.char c)) : ∃ rest, cs = c :: rest := by
  cases cs with
  | nil => cases h
  | cons d rest => exact ⟨rest, congrArg (· :: rest) (CodePoint.char.inj (Option.some.inj h))⟩

theorem ofChars_dropWhile (class? : Char → Bool) (cs : List Char) :
    ofChars (cs.dropWhile class?) = (ofChars cs).dropWhile (CodePoint.isIn class?) := by
  rw [ofChars, ofChars, List.dropWhile_map]
  rfl

theorem ofChars_reverse (cs : List Char) : ofChars cs.reverse = (ofChars cs).reverse :=
  List.map_reverse

theorem ofChars_trimWhere (cs : List Char) :
    ofChars (trimWhere isBlank cs) = (ofChars cs).strip := by
  rw [strip, trimWhere, trimWhere, ofChars_reverse, ofChars_dropWhile, ofChars_reverse,
    ofChars_dropWhile]

/-- The first character of a text that is no blank is so on its line. -/
theorem exists_head?_dropWhile {us : List Char} {c : Char}
    (h : (us.dropWhile isBlank).head? = some c) :
    ∃ line ∈ splitLines us, (line.dropWhile isBlank).head? = some c := by
  fun_induction splitLines us with
  | case1 => cases h
  | case2 rest ih =>
    obtain ⟨line, hline, hc⟩ := ih h
    exact ⟨line, List.mem_cons_of_mem _ hline, hc⟩
  | case3 d rest hd hlines ih =>
    by_cases hblank : isBlank d = true
    · rw [List.dropWhile_cons_of_pos hblank] at h
      obtain ⟨line, hline, -⟩ := ih h
      rw [hlines] at hline
      exact absurd hline List.not_mem_nil
    · rw [List.dropWhile_cons_of_neg hblank] at h
      refine ⟨[d], List.mem_singleton_self _, ?_⟩
      rw [List.dropWhile_cons_of_neg hblank]
      exact h
  | case4 d rest hd line lines hlines ih =>
    by_cases hblank : isBlank d = true
    · rw [List.dropWhile_cons_of_pos hblank] at h
      obtain ⟨found, hfound, hc⟩ := ih h
      rw [hlines] at hfound
      rcases List.mem_cons.mp hfound with rfl | hfound
      · refine ⟨d :: found, List.mem_cons_self, ?_⟩
        rw [List.dropWhile_cons_of_pos hblank]
        exact hc
      · exact ⟨found, List.mem_cons_of_mem _ hfound, hc⟩
    · rw [List.dropWhile_cons_of_neg hblank] at h
      refine ⟨d :: line, List.mem_cons_self, ?_⟩
      rw [List.dropWhile_cons_of_neg hblank]
      exact h

end Text

namespace Json

theorem isBlank_of_isGap {c : Char} (h : isGap c = true) : Text.isBlank c = true := by
  simp only [isGap, Bool.or_eq_true, decide_eq_true_eq] at h
  rcases h with ((rfl | rfl) | rfl) | rfl <;> decide

theorem White.isBlank {gap : Text} (h : White gap) :
    ∀ p ∈ gap, p.isIn Text.isBlank = true := by
  intro p hp
  have hgap := h p hp
  cases p with
  | char c => exact isBlank_of_isGap hgap
  | surrogate offset => cases hgap

/-- Arrays and objects stand between their brackets. -/
theorem Renders.marks {t : Text} {v : Value} (h : Renders t v) :
    (∀ items, v = .array items → ∃ middle, t = .char '[' :: (middle ++ [.char ']']))
      ∧ ∀ fields, v = .object fields →
          ∃ middle, t = .char '\x7b' :: (middle ++ [.char '\x7d']) := by
  cases h with
  | word hword =>
    have hall : ∀ w ∈ words, ∃ s, w.2 = .scalar s := by simp [words]
    obtain ⟨s, rfl⟩ := hall _ hword
    simp
  | number hnumber => cases hnumber <;> simp
  | text => simp
  | @array body => exact ⟨fun _ _ => ⟨body, rfl⟩, by simp⟩
  | @object body => exact ⟨by simp, fun _ _ => ⟨body, rfl⟩⟩

/-- A layout of an array, without the blanks around it. -/
theorem Layout.strip_array {t : Text} {items : List Value} (h : Layout t (.array items)) :
    Layout t.strip (.array items) ∧ t.strip.head? = some (.char '[') := by
  obtain ⟨before, body, behind, hbefore, hbehind, hbody, rfl⟩ := h
  obtain ⟨middle, rfl⟩ := hbody.marks.1 items rfl
  rw [Text.strip, Text.trimWhere_marked hbefore.isBlank hbehind.isBlank rfl rfl]
  exact ⟨⟨[], _, [], nofun, nofun, hbody, by simp⟩, rfl⟩

/-- What stands first in a layout of an object, blanks apart. -/
theorem Layout.object_start {cs : List Char} {fields : Fields}
    (h : Layout (.ofChars cs) (.object fields)) :
    (cs.dropWhile Text.isBlank).head? = some '\x7b' := by
  obtain ⟨before, body, behind, hbefore, -, hbody, heq⟩ := h
  obtain ⟨middle, rfl⟩ := hbody.marks.2 fields rfl
  have hdrop := Text.ofChars_dropWhile Text.isBlank cs
  rw [heq, List.cons_append, Text.dropWhile_append_cons hbefore.isBlank rfl] at hdrop
  cases hchars : cs.dropWhile Text.isBlank with
  | nil =>
    rw [hchars] at hdrop
    cases hdrop
  | cons c rest =>
    rw [hchars] at hdrop
    rw [List.head?_cons, CodePoint.char.inj (List.cons.inj hdrop).1]

end Json

/-! ## The same failure -/

/-- The same failure, apart from a position that its wording does not
tell. -/
inductive Failure.Alike : Failure → Failure → Prop
  | same (failure : Failure) : Alike failure failure
  | limit {fault other : Json.Fault} (hcause : fault.cause = other.cause)
      (hkind : fault.cause.kind ≠ .grammar) : Alike (.json fault) (.json other)

theorem Failure.Alike.message {a b : Failure} (h : a.Alike b) : a.message = b.message := by
  cases h with
  | same => rfl
  | @limit fault other hcause hkind =>
    change fault.message = other.message
    unfold Json.Fault.message
    rw [← hcause]
    split
    · contradiction
    · rfl

namespace Files

open Json (Layout outcome outcomeItems)

/-- Both come to the same, or fail alike. -/
inductive Agree {α : Type} : Except Failure α → Except Failure α → Prop
  | ok (a : α) : Agree (.ok a) (.ok a)
  | error {a b : Failure} (h : a.Alike b) : Agree (.error a) (.error b)

theorem agree_refl {α : Type} (x : Except Failure α) : Agree x x := by
  cases x with
  | ok a => exact .ok a
  | error failure => exact .error (.same failure)

theorem Agree.message {α : Type} {x y : Except Failure α} (h : Agree x y) :
    x.mapError Failure.message = y.mapError Failure.message := by
  cases h with
  | ok a => rfl
  | error h => exact congrArg Except.error h.message

theorem Agree.eq_ok {α : Type} {x : Except Failure α} {a : α} (h : Agree x (.ok a)) :
    x = .ok a := by
  cases h
  rfl

/-! ## Loading what is there -/

section Loading

variable [Stack]

/-- What becomes of the documents of annotations: they are checked in
their order, unless reading one of them meets a limit. -/
inductive Brings (documents : List Value) : Except Failure (List Acl) → Prop
  | checked {vs : List Value} (h : outcomeItems (Stack.room .readAcl) documents = .ok vs) :
      Brings documents (checkAcls vs)
  | limit {fault : Json.Fault}
      (h : outcomeItems (Stack.room .readAcl) documents = .error fault.cause) :
      Brings documents (.error (.json fault))

theorem Brings.agree {documents : List Value} {x y : Except Failure (List Acl)}
    (hx : Brings documents x) (hy : Brings documents y) : Agree x y := by
  cases hx with
  | checked hvs =>
    cases hy with
    | checked hws =>
      rw [Except.ok.inj (hvs.symm.trans hws)]
      exact agree_refl _
    | limit h => cases hvs.symm.trans h
  | limit h =>
    cases hy with
    | checked hws => cases h.symm.trans hws
    | limit h' =>
      exact .error (.limit (Except.error.inj (h.symm.trans h')) (Json.kind_of_outcomeItems _ h))

variable {f : Files} {p : Path} {cs : List Char}

theorem loadAcls_of_text (h : f.readBytes p = .ok (Text.Utf8.encode cs)) :
    f.loadAcls p = match bodyOf cs with
      | '[' :: _ =>
        match Json.readWithin arrayNesting (.ofChars (bodyOf cs)) with
        | .error fault => .error (.json fault)
        | .ok v => checkAcls (partsOf v)
      | _ =>
        match readLines .readAcl .ok p 1 (linesOf cs) with
        | .error failure => .error failure
        | .ok vs => checkAcls vs := by
  simp only [loadAcls, has_of_readBytes h, readText_of_readBytes h]
  rfl

theorem brings_of_array {documents : List Value} (h : f.readBytes p = .ok (Text.Utf8.encode cs))
    (hlayout : Layout (.ofChars cs) (.array documents)) : Brings documents (f.loadAcls p) := by
  have hunified := hlayout.unified
  rw [← Text.ofChars_unifyLines] at hunified
  obtain ⟨hbody, hstart⟩ := hunified.strip_array
  rw [← Text.ofChars_trimWhere, ← bodyOf] at hbody hstart
  obtain ⟨rest, hrest⟩ := Text.exists_cons_of_ofChars hstart
  have hread := hbody.readWithin arrayNesting
  have houtcome : outcome arrayNesting (.array documents)
      = (outcomeItems (Stack.room .readAcl) documents).map .array := rfl
  rw [houtcome] at hread
  rw [loadAcls_of_text h]
  split
  · cases hfound : Json.readWithin arrayNesting (.ofChars (bodyOf cs)) with
    | error fault =>
      rw [hfound] at hread
      exact .limit (map_eq_error_iff.mp hread.symm)
    | ok v =>
      rw [hfound] at hread
      obtain ⟨vs, hvs, rfl⟩ := map_eq_ok_iff.mp hread.symm
      exact .checked hvs
  · rename_i hother
    exact absurd hrest (hother rest)

/-- The objects of lines are read one after the other. -/
theorem readLines_of_layouts (p : Path) (number : Nat) {lines : List (List Char)}
    {objects : List Fields}
    (h : List.Forall₂ (fun line fields => Layout (.ofChars line) (.object fields))
      (lines.filter fun line => !line.all Text.isBlank) objects) :
    (∃ vs, readLines .readAcl .ok p number lines = .ok vs
        ∧ outcomeItems (Stack.room .readAcl) (objects.map .object) = .ok vs)
      ∨ ∃ fault, readLines (α := Value) .readAcl .ok p number lines = .error (.json fault)
        ∧ outcomeItems (Stack.room .readAcl) (objects.map .object) = .error fault.cause := by
  induction lines generalizing number objects with
  | nil =>
    cases h
    exact .inl ⟨[], rfl, rfl⟩
  | cons line rest ih =>
    cases hblank : line.all Text.isBlank with
    | true =>
      rw [List.filter_cons_of_neg (by simp [hblank])] at h
      rw [readLines_cons_of_blank hblank]
      exact ih (number + 1) h
    | false =>
      rw [List.filter_cons_of_pos (by simp [hblank])] at h
      cases h with
      | @cons _ fields _ objects hline hrest =>
        have hread := hline.readWithin (Stack.room .readAcl)
        rw [readLines_cons hblank, List.map_cons, outcomeItems]
        cases hfound : Json.readWithin (Stack.room .readAcl) (.ofChars line) with
        | error fault =>
          rw [hfound] at hread
          have hkind : fault.cause.kind ≠ .grammar := Json.kind_of_outcome _ hread.symm
          have hfail : readLine .readAcl p number line = .error (.json fault) := by
            rw [readLine, hfound]
            exact congrArg _ (if_neg hkind)
          rw [hfail, ← hread]
          exact .inr ⟨fault, rfl, rfl⟩
        | ok v =>
          rw [hfound] at hread
          rw [readLine_eq_ok_iff.mpr hfound, ← hread]
          rcases ih (number + 1) hrest with ⟨vs, hvs, hsame⟩ | ⟨fault, hfault, hsame⟩
          · exact .inl ⟨v :: vs, by rw [hvs]; rfl, by rw [hsame]; rfl⟩
          · exact .inr ⟨fault, by rw [hfault]; rfl, by rw [hsame]; rfl⟩

theorem brings_of_lines {lines : List (List Char)} {objects : List Fields}
    (h : f.readBytes p = .ok (Text.Utf8.encode cs)) (hlines : Text.Lines cs lines)
    (hlayouts : List.Forall₂ (fun line fields => Layout (.ofChars line) (.object fields))
      (lines.filter fun line => !line.all Text.isBlank) objects) :
    Brings (objects.map .object) (f.loadAcls p) := by
  have hsplit : linesOf cs = lines := Text.lines_iff.mp hlines
  -- The first character that is no blank belongs to an object.
  have hobjects : ∀ line ∈ lines.filter fun line => !line.all Text.isBlank,
      (line.dropWhile Text.isBlank).head? = some '\x7b' :=
    ((List.forall₂_and_left _ _).mp (hlayouts.imp fun _ _ h => ⟨h.object_start, h⟩)).1
  have hstart {rest : List Char} (hbody : bodyOf cs = '[' :: rest) : False := by
    obtain ⟨line, hline, hfirst⟩ := Text.exists_head?_dropWhile
      (Text.head?_trimWhere (congrArg List.head? hbody))
    have hblank : line.all Text.isBlank = false := by
      rw [Bool.eq_false_iff]
      intro hall
      rw [List.dropWhile_eq_nil_iff.mpr (List.all_eq_true.mp hall)] at hfirst
      cases hfirst
    rw [← linesOf, hsplit] at hline
    have hobject := hobjects line (List.mem_filter.mpr ⟨hline, by simp [hblank]⟩)
    cases hfirst.symm.trans hobject
  rw [loadAcls_of_text h]
  split
  · rename_i hbody
    exact (hstart hbody).elim
  · rw [hsplit]
    rcases readLines_of_layouts p 1 hlayouts with ⟨vs, hvs, hsame⟩ | ⟨fault, hfault, hsame⟩
    · rw [hvs]
      exact .checked hsame
    · rw [hfault]
      exact .limit hsame

end Loading

end Files

/-! ## Annotations as documents -/

namespace Acl

/-- No text of the annotation holds a surrogate. -/
structure Whole (a : Acl) : Prop where
  localName : ∀ t ∈ a.localName, t.isBroken = false
  roles : ∀ r ∈ a.roles, r.isBroken = false

variable {a : Acl} {byAlias : Bool}

theorem whole_of_allTexts (h : (a.dump byAlias).AllTexts fun t => t.isBroken = false) :
    a.Whole := by
  cases h with
  | object _ h =>
    simp only [List.forall_mem_cons] at h
    obtain ⟨-, hlocal, hroles, -⟩ := h
    constructor
    · intro t ht
      rw [Option.mem_def.mp ht] at hlocal
      exact Value.AllTexts.text_iff.mp hlocal
    · intro r hr
      exact Value.AllTexts.text_iff.mp
        (Value.AllTexts.array_iff.mp hroles _ (List.mem_map.mpr ⟨r, hr, rfl⟩))

/-- A checked annotation without surrogates is a legible document. -/
theorem legible_dump {v : Value} (hcheck : check v = .ok a) (h : a.Whole) (byAlias : Bool) :
    Json.Legible (fun t => t.isBroken = false) 2 (a.dump byAlias) := by
  have hgroup : Json.Legible (fun t => t.isBroken = false) 1 (.text a.group) :=
    .text 1 (Schema.isBroken_of_checkText (by decide) (checkText_of_check hcheck))
  have hlocal : Json.Legible (fun t => t.isBroken = false) 1 (Group.textOrNull a.localName) := by
    cases hname : a.localName with
    | none => exact .null 1
    | some t => exact .text 1 (h.localName t hname)
  have hroles : Json.Legible (fun t => t.isBroken = false) 1 (Group.texts a.roles) := by
    refine .array fun v hv => ?_
    obtain ⟨r, hr, rfl⟩ := List.mem_map.mp hv
    exact .text 0 (h.roles r hr)
  refine .object ?_ ?_ ?_
  · simp only [List.forall_mem_cons]
    cases byAlias <;>
      exact ⟨⟨_, rfl, rfl⟩, ⟨_, rfl, rfl⟩, ⟨_, rfl, rfl⟩, fun _ hf => absurd hf List.not_mem_nil⟩
  · have hnames : List.Pairwise (fun k l => (k == l) = false)
        [Scalar.text "group", .text (if byAlias then "localName" else "local_name"),
          .text "roles"] := by
      cases byAlias <;> decide
    exact hnames
  · simp only [List.forall_mem_cons]
    exact ⟨hgroup, hlocal, hroles, fun _ hf => absurd hf List.not_mem_nil⟩

/-- The fields of a written annotation stand in the order of their names. -/
theorem arranged_dump (a : Acl) (byAlias : Bool) (indent : Option Text) :
    (Files.documentStyle indent).arranged (a.dump byAlias) = a.dump byAlias := by
  have hlocal : (Files.documentStyle indent).arranged (Group.textOrNull a.localName)
      = Group.textOrNull a.localName := by
    cases a.localName <;> rfl
  have hroles : (Files.documentStyle indent).arranged (Group.texts a.roles)
      = Group.texts a.roles := by
    rw [Group.texts, Json.Style.arranged, Json.Style.arrangedItems_eq_map, List.map_map]
    rfl
  have hsorted : (Files.documentStyle indent).order
      [(.text "group", .text a.group),
        (.text (if byAlias then "localName" else "local_name"), Group.textOrNull a.localName),
        (.text "roles", Group.texts a.roles)]
      = [(.text "group", .text a.group),
        (.text (if byAlias then "localName" else "local_name"), Group.textOrNull a.localName),
        (.text "roles", Group.texts a.roles)] := by
    have hnames : List.Pairwise (fun s t : Text => s.atMost t = true)
        ["group", if byAlias then "localName" else "local_name", "roles"] := by
      cases byAlias <;> decide
    exact List.mergeSort_of_pairwise
      ((List.pairwise_map (R := fun s t : Text => s.atMost t = true)).mp hnames)
  rw [dump, Json.Style.arranged]
  simp only [Json.Style.arrangedFields, hlocal, hroles]
  exact congrArg Value.object hsorted

end Acl

namespace Files

variable {f g : Files} {p : Path} {width : Nat} {byAlias : Bool} {acls : List Acl}

theorem checkAcls_dump (h : ∀ a ∈ acls, ∃ v, Acl.check v = .ok a) :
    checkAcls (acls.map (Acl.dump byAlias)) = .ok acls := by
  induction acls with
  | nil => rfl
  | cons a acls ih =>
    obtain ⟨⟨v, hv⟩, hrest⟩ := List.forall_mem_cons.mp h
    rw [List.map_cons, checkAcls, Acl.check_dump hv]
    dsimp only
    rw [ih hrest]
    rfl

/-- Written annotations are a legible document. -/
theorem legible_dumps (h : ∀ a ∈ acls, ∃ v, Acl.check v = .ok a) (hwhole : ∀ a ∈ acls, a.Whole)
    (byAlias : Bool) :
    Json.Legible (fun t => t.isBroken = false) 3 (.array (acls.map (Acl.dump byAlias))) := by
  refine .array fun v hv => ?_
  obtain ⟨a, ha, rfl⟩ := List.mem_map.mp hv
  obtain ⟨v, hv⟩ := h a ha
  exact Acl.legible_dump hv (hwhole a ha) byAlias

theorem arranged_dumps (acls : List Acl) (byAlias : Bool) (indent : Option Text) :
    (documentStyle indent).arranged (.array (acls.map (Acl.dump byAlias)))
      = .array (acls.map (Acl.dump byAlias)) := by
  rw [Json.Style.arranged, Json.Style.arrangedItems_eq_map, List.map_map]
  exact congrArg Value.array (List.map_congr_left fun a _ => a.arranged_dump byAlias indent)

/-- Annotations that were written held no surrogates. -/
theorem whole_of_writeDocument
    (hwrite : f.writeDocument p (some (Json.spaces width)) (.array (acls.map (Acl.dump byAlias)))
      = (g, none)) :
    ∀ a ∈ acls, a.Whole := by
  intro a ha
  have hbroken := isBroken_of_writeText hwrite
  have htexts := Json.allTexts_of_printAt rfl _
    (Text.isBroken_of_subset (List.subset_append_left _ _) hbroken)
  exact Acl.whole_of_allTexts
    (Value.AllTexts.array_iff.mp htexts _ (List.mem_map.mpr ⟨a, ha, rfl⟩))

/-- A written array stands between its brackets. -/
theorem exists_print_array (style : Json.Style) (items : List Value) :
    ∃ middle, Json.print style (.array items) = .char '[' :: (middle ++ [.char ']']) := by
  rw [Json.print, Json.printAt]
  unfold Json.Style.enclose
  split
  · exact ⟨[], rfl⟩
  · exact ⟨_, rfl⟩

/-- Annotations that were written are loaded as they were. -/
theorem loadAcls_of_writeDocument [Stack] (hroom : 2 ≤ Stack.room .readAcl)
    (h : ∀ a ∈ acls, ∃ v, Acl.check v = .ok a)
    (hwrite : f.writeDocument p (some (Json.spaces width)) (.array (acls.map (Acl.dump byAlias)))
      = (g, none)) :
    g.loadAcls p = .ok acls := by
  have hs : (documentStyle (some (Json.spaces width))).Spaced := spaced_documentStyle
  have hlegible := (legible_dumps h (whole_of_writeDocument hwrite) byAlias).mono
    (fun _ => Json.unpaired_of_isBroken) (Nat.succ_le_succ hroom : 3 ≤ arrayNesting)
  obtain ⟨cs, hcs, hline, hbytes⟩ := readBytes_of_writeDocument hlegible hs hwrite
  obtain ⟨middle, hprint⟩ :=
    exists_print_array (documentStyle (some (Json.spaces width))) (acls.map (Acl.dump byAlias))
  -- Without the line feed at its end the file is what was printed.
  have hbody : Text.ofChars (bodyOf cs) = .char '[' :: (middle ++ [.char ']']) := by
    have hnone : ∀ q ∈ ([] : Text), q.isIn Text.isBlank = true :=
      fun _ hq => absurd hq List.not_mem_nil
    rw [bodyOf, Text.unifyLines_of_not_mem hline, Text.ofChars_trimWhere, ← hcs, documentText,
      hprint]
    exact Text.trimWhere_marked hnone (by decide) rfl rfl middle
  have hread : Json.readWithin arrayNesting (.ofChars (bodyOf cs))
      = .ok (.array (acls.map (Acl.dump byAlias))) := by
    have hnone : ∀ q ∈ ([] : Text), q.isIn Json.isGap = true :=
      fun _ hq => absurd hq List.not_mem_nil
    have hprinted := Json.readWithin_print hs hlegible hnone
    rwa [List.append_nil, hprint, ← hbody, arranged_dumps] at hprinted
  obtain ⟨rest, hrest⟩ := Text.exists_cons_of_ofChars (congrArg List.head? hbody)
  rw [loadAcls_of_text hbytes]
  split
  · rw [hread]
    exact checkAcls_dump h
  · rename_i hother
    exact absurd hrest (hother rest)

/-! ## The form of a file -/

/-- The file holds the objects as one array, laid out in any way. -/
def HoldsArray (f : Files) (p : Path) (objects : List Fields) : Prop :=
  ∃ cs, f.readBytes p = .ok (Text.Utf8.encode cs)
    ∧ Json.Layout (.ofChars cs) (.array (objects.map .object))

/-- The file holds the objects, one on each of its lines but the blank
ones. -/
def HoldsLines (f : Files) (p : Path) (objects : List Fields) : Prop :=
  ∃ cs lines, f.readBytes p = .ok (Text.Utf8.encode cs) ∧ Text.Lines cs lines
    ∧ List.Forall₂ (fun line fields => Json.Layout (.ofChars line) (.object fields))
      (lines.filter fun line => !line.all Text.isBlank) objects

/-- Objects in one array, however it is laid out, are loaded as the same
objects on lines of their own are: as the same annotations, or with the
same failure.  Checked annotations that were written as one array, under
either spelling of their fields and with any indentation, are loaded as
they were where there is room for a value within another, and without
surrogates they can be written wherever any file can be. -/
theorem loadAcls_forms [Stack] :
    (∀ (f g : Files) (p q : Path) (objects : List Fields), HoldsArray f p objects →
      HoldsLines g q objects → Agree (f.loadAcls p) (g.loadAcls q)
        ∧ (f.loadAcls p).mapError Failure.message = (g.loadAcls q).mapError Failure.message)
    ∧ ∀ (f : Files) (p : Path) (acls : List Acl) (byAlias : Bool) (width : Nat),
      (∀ a ∈ acls, ∃ v, Acl.check v = .ok a) →
        let written :=
          f.writeDocument p (some (Json.spaces width)) (.array (acls.map (Acl.dump byAlias)))
        (2 ≤ Stack.room .readAcl → ∀ g, written = (g, none) → g.loadAcls p = .ok acls)
          ∧ ((∀ a ∈ acls, a.Whole) → written.2 = (f.writeText p []).2) := by
  refine ⟨fun f g p q objects hf hg => ?_, fun f p acls byAlias width hacls =>
    ⟨fun hroom g => loadAcls_of_writeDocument hroom hacls, fun hwhole => ?_⟩⟩
  · obtain ⟨cs, hbytes, hlayout⟩ := hf
    obtain ⟨ds, lines, hbytes', hlines, hlayouts⟩ := hg
    have hagree := (brings_of_array hbytes hlayout).agree (brings_of_lines hbytes' hlines hlayouts)
    exact ⟨hagree, hagree.message⟩
  · exact fault_writeDocument (legible_dumps hacls hwhole byAlias) spaced_documentStyle f p

/-- One array over several lines, and one line between blank ones, hold an
object with brackets and a line separator in a text.  An annotation is
written over the array and is loaded. -/
theorem loadAcls_forms_separated :
    let p : Path := ⟨"", ["p"]⟩
    let q : Path := ⟨"", ["q"]⟩
    let name : Text := "],\u2028["
    let f : Files := { entries := [
      (["p"], .file (Text.Utf8.encode "\r[\x7b \"group\" :\r\n\"],\u2028[\"\x7d\t]\n".toList)),
      (["q"], .file (Text.Utf8.encode "\r\n\x1c\r\x7b\"group\":\"],\u2028[\"\x7d".toList))] }
    let objects : List Fields := [[(.text "group", .text name)]]
    let a : Acl := ⟨name, some "\r\n", ["[", "]\u2028["]⟩
    HoldsArray f p objects ∧ HoldsLines f q objects ∧ f.loadAcls p = .ok [⟨name, none, []⟩]
      ∧ Acl.check a.toValue = .ok a
      ∧ ∃ g, f.writeDocument p (some (Json.spaces 2)) (.array [a.dump false]) = (g, none)
        ∧ g.loadAcls p = .ok [a] := by
  intro p q name f objects a
  have hwhite {gap : Text} (h : gap.all (CodePoint.isIn Json.isGap) = true) : Json.White gap :=
    List.all_eq_true.mp h
  have hgroup : Json.Quoted "group\"" (List.map .point ("group" : Text)) [] :=
    @Json.quoted_of_readPieces 0 _ _ _ rfl
  have hquoted : Json.Quoted "],\u2028[\"" (name.map .point) [] :=
    @Json.quoted_of_readPieces 0 _ _ _ rfl
  have hname : Json.Renders (.char '"' :: "],\u2028[\"")
      (.text (Json.joinPieces (name.map .point))) := .text hquoted
  have hobject {gap : Text} (hgap : Json.White gap) (label : Json.Label) :
      Json.Renders (.char '\x7b' :: (gap ++ (label.field (.char '"' :: "],\u2028[\"") ++ [])
        ++ [.char '\x7d'])) (.object [(.text label.name, .text name)]) :=
    @Json.Renders.object _ [(label, .char '"' :: "],\u2028[\"", .text name)] (.last hgap nofun)
      (List.forall_mem_singleton.mpr hname)
  -- The same object, once with white space and once without.
  let spread : Json.Label :=
    ⟨_, _, " ", "\r\n", hgroup, hwhite (by decide), hwhite (by decide)⟩
  let tight : Json.Label := ⟨_, _, [], [], hgroup, nofun, nofun⟩
  have hspace : Json.White " " := hwhite (by decide)
  have htab : Json.White "\t" := hwhite (by decide)
  have harray : HoldsArray f p objects :=
    ⟨_, rfl, "\r", _, "\n", hwhite (by decide), hwhite (by decide),
      @Json.Renders.array _ [(_, _)] (.last (nofun : Json.White []) htab)
        (List.forall_mem_singleton.mpr (hobject hspace spread)), rfl⟩
  have hlayout : Json.Layout "\x7b\"group\":\"],\u2028[\"\x7d"
      (.object [(.text "group", .text name)]) :=
    ⟨[], _, [], nofun, nofun, hobject (nofun : Json.White []) tight, rfl⟩
  have hlines : HoldsLines f q objects :=
    ⟨_, [[], ['\x1c'], "\x7b\"group\":\"],\u2028[\"\x7d".toList], rfl,
      Text.lines_iff.mpr (by decide +kernel), .cons hlayout .nil⟩
  obtain ⟨hagree, hwritten⟩ := loadAcls_forms
  have hcheck : Acl.check a.toValue = .ok a := by decide +kernel
  have hloaded : f.loadAcls q = .ok [⟨name, none, []⟩] :=
    toOption_eq_some_iff.mp (by decide +kernel)
  have hsame := (hagree f f p q objects harray hlines).1
  rw [hloaded] at hsame
  have hwhole : a.Whole := ⟨by decide, by decide⟩
  obtain ⟨hread, hfault⟩ := hwritten f p [a] false 2 (List.forall_mem_singleton.mpr ⟨_, hcheck⟩)
  have hwritable : (f.writeText p []).2 = none := by decide +kernel
  have hwrite := Prod.eta
    (f.writeDocument p (some (Json.spaces 2)) (.array ([a].map (Acl.dump false))))
  rw [hfault (List.forall_mem_singleton.mpr hwhole), hwritable] at hwrite
  exact ⟨harray, hlines, hsame.eq_ok, hcheck, _, hwrite.symm, hread (by decide) _ hwrite.symm⟩

end Files

end Lineage
