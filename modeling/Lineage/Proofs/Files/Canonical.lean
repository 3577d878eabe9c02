/-
Lineage.Proofs.Files.Canonical — what a document in a file shows of its
value.

Documents in files are written with the names of their objects sorted.  Two
alike values differ in the order of fields, and of their fields, which have
different names, sorting leaves one order (`Style.arrange_eq_of_perm`); so
they are written as the same text (`Legible.printAt_eq`).  In turn the text
is a document of one value alone, which is like the one that was written,
so that values written as the same text are alike
(`Files.writeDocument_canonical`).
-/
import Lineage.Proofs.Files.Documents
import Lineage.Proofs.Json.Limits
import Mathlib.Data.List.Nodup

namespace Lineage

namespace Json

/-! ## Sorted names -/

/-- Fields with different names are sorted to the same order from any
other. -/
theorem Style.arrange_eq_of_perm {style : Style} (hsorted : style.sorted = true)
    {parts others : List (Text × Text)} (hperm : parts.Perm others)
    (hnames : (parts.map Prod.fst).Nodup) : style.arrange parts = style.arrange others := by
  have hordered (xs : List (Text × Text)) :
      (xs.mergeSort fun a b => a.1.atMost b.1).Pairwise fun a b => a.1.atMost b.1 = true := by
    refine List.pairwise_mergeSort (fun _ _ _ hab hbc => ?_) (fun _ _ => ?_) xs
    · exact Text.atMost_trans hab hbc
    · exact Text.atMost_total _ _
  have hboth := (List.mergeSort_perm parts fun a b => a.1.atMost b.1).trans
    (hperm.trans (List.mergeSort_perm others fun a b => a.1.atMost b.1).symm)
  rw [arrange, arrange, if_pos hsorted, if_pos hsorted]
  refine hboth.eq_of_pairwise (fun p q hp hq hpq hqp => ?_) (hordered parts) (hordered others)
  have hp := (List.mergeSort_perm parts _).subset hp
  have hq := hperm.symm.subset ((List.mergeSort_perm others _).subset hq)
  exact List.inj_on_of_nodup_map hnames hp hq (Text.atMost_antisymm hpq hqp)

section Fields

variable {style : Style} {good : Text → Prop} {level : Nat} {fields : Fields}

/-- What is written of fields is what they say under every name. -/
theorem mem_printFields (hnames : ∀ f ∈ fields, ∃ t, f.1 = .text t ∧ good t)
    (honce : fields.Unrepeated) {name body : Text} :
    (name, body) ∈ printFields style level fields
      ↔ (fields.get? (.text name)).map (printAt style level) = some body := by
  rw [Style.printFields_eq_map, List.mem_map, Option.map_eq_some_iff]
  constructor
  · rintro ⟨f, hf, heq⟩
    obtain ⟨t, ht, -⟩ := hnames f hf
    obtain ⟨hname, hbody⟩ := Prod.mk.inj heq
    rw [ht] at hname
    obtain rfl : t = name := hname
    exact ⟨f.2, ht ▸ honce.get?_of_mem hf, hbody⟩
  · rintro ⟨v, hv, rfl⟩
    obtain ⟨k, hk, hkey⟩ := Keyed.exists_mem_of_get? hv
    obtain rfl := Scalar.text_beq_iff.mp (BEq.symm hkey)
    exact ⟨_, hk, rfl⟩

theorem nodup_printFields (hnames : ∀ f ∈ fields, ∃ t, f.1 = .text t ∧ good t)
    (honce : fields.Unrepeated) : ((printFields style level fields).map Prod.fst).Nodup := by
  rw [Style.printFields_eq_map, List.map_map]
  rw [Keyed.Unrepeated, Keyed.keys, List.pairwise_map] at honce
  refine List.pairwise_map.mpr (honce.imp_of_mem fun {f g} hf hg hne heq => ?_)
  obtain ⟨t, ht, -⟩ := hnames f hf
  obtain ⟨u, hu, -⟩ := hnames g hg
  rw [ht, hu, Scalar.text_beq_text, decide_eq_false_iff_not] at hne
  refine hne ?_
  simpa [ht, hu, nameText] using heq

end Fields

/-- With sorted names, alike values are written as the same text. -/
theorem Legible.printAt_eq {style : Style} (hsorted : style.sorted = true)
    {good fine : Text → Prop} {room more : Nat} {v w : Value} (hv : Legible good room v)
    (hw : Legible fine more w) (h : v.Alike w) (level : Nat) :
    printAt style level v = printAt style level w := by
  induction hv generalizing more w level with
  | null _ | bool _ _ | int _ _ | text _ _ =>
    cases h
    rfl
  | array _ ih =>
    cases h with
    | array hlength h =>
      cases hw with
      | array hothers =>
        rw [printAt, printAt, Style.printItems_eq_map, Style.printItems_eq_map]
        congr 1
        refine List.ext_getElem (by simpa using hlength) fun i hi hj => ?_
        rw [List.length_map] at hi hj
        rw [List.getElem_map, List.getElem_map]
        exact ih _ (List.getElem_mem hi) (hothers _ (List.getElem_mem hj))
          (h i _ _ (List.getElem?_eq_getElem hi) (List.getElem?_eq_getElem hj)) _
  | @object _ fields hnames honce _ ih =>
    cases h with
    | @object _ others hsome h =>
      cases hw with
      | object hnames' honce' hothers =>
        have hsame := Value.alike_object_iff.mp (.object hsome h)
        -- Under a name both objects hold nothing, or what is written the same.
        have hbodies (name : Scalar) : (fields.get? name).map (printAt style (level + 1))
            = (others.get? name).map (printAt style (level + 1)) := by
          have hrel := hsame name
          cases hf : fields.get? name with
          | none =>
            cases ho : others.get? name with
            | none => rfl
            | some w => simp [hf, ho] at hrel
          | some v =>
            cases ho : others.get? name with
            | none => simp [hf, ho] at hrel
            | some w =>
              obtain ⟨k, hk, -⟩ := Keyed.exists_mem_of_get? hf
              obtain ⟨l, hl, -⟩ := Keyed.exists_mem_of_get? ho
              exact congrArg some (ih _ hk (hothers _ hl) (h name v w hf ho) _)
        have hperm : (printFields style (level + 1) fields).Perm
            (printFields style (level + 1) others) := by
          refine (List.perm_ext_iff_of_nodup (nodup_printFields hnames honce).of_map
            (nodup_printFields hnames' honce').of_map).mpr fun part => ?_
          obtain ⟨name, body⟩ := part
          rw [mem_printFields hnames honce, mem_printFields hnames' honce', hbodies]
        rw [printAt, printAt,
          Style.arrange_eq_of_perm hsorted hperm (nodup_printFields hnames honce)]

/-- The order of the fields of an object does not change what it says. -/
theorem Legible.alike_of_perm {good : Text → Prop} {room : Nat} {fields others : Fields}
    (h : Legible good room (.object fields)) (hperm : fields.Perm others) :
    Value.Alike (.object fields) (.object others) := by
  cases h with
  | object _ honce hfields =>
    refine Value.alike_object_iff.mpr fun name => ?_
    rw [honce.get?_perm hperm]
    cases hget : Keyed.get? fields name with
    | none => exact .none
    | some v =>
      obtain ⟨k, hk, -⟩ := Keyed.exists_mem_of_get? hget
      have hlike : Value.Alike (Style.plain.arranged v) v := (hfields _ hk).alike_arranged
      exact .some (hlike.symm.trans hlike)

end Json

namespace Files

/-! ## Documents in files -/

/-- Writing a document without surrogates fails where writing an empty
file would.  Else the file holds one text, which is a document of one
value alone.  That value is like the one that was written and is read
wherever there is room for it, and exactly the values like it are written
as this text. -/
theorem writeDocument_canonical {room : Nat} {v : Value}
    (h : Json.Legible (fun t => t.isBroken = false) room v) (width : Nat) :
    ∃ cs, documentText (some (Json.spaces width)) v = .ofChars cs
      ∧ (∀ (f : Files) (p : Path),
        (f.writeDocument p (some (Json.spaces width)) v).2 = (f.writeText p []).2
          ∧ ∀ g, f.writeDocument p (some (Json.spaces width)) v = (g, none) →
            g.readBytes p = .ok (Text.Utf8.encode cs))
      ∧ (∃ w, w.Alike v ∧ (∀ u, Json.Document (.ofChars cs) u ↔ u = w)
        ∧ ∀ more, room ≤ more → Json.readWithin more (.ofChars cs) = .ok w)
      ∧ ∀ more w, Json.Legible (fun t => t.isBroken = false) more w →
        (documentText (some (Json.spaces width)) w = .ofChars cs ↔ w.Alike v) := by
  have hs : (documentStyle (some (Json.spaces width))).Spaced := spaced_documentStyle
  have hread {room : Nat} {v : Value} (h : Json.Legible (fun t => t.isBroken = false) room v)
      {more : Nat} (hmore : room ≤ more) := readWithin_documentText
    (h.mono (fun _ => Json.unpaired_of_isBroken) (Nat.le_refl room)) hs hmore
  obtain ⟨cs, hcs⟩ := exists_chars_documentText h hs
  refine ⟨cs, hcs, fun f p => ⟨fault_writeDocument h hs f p, fun g hwrite => ?_⟩,
    ⟨_, h.alike_arranged, fun u => ⟨fun hu => ?_, ?_⟩, fun more hmore => hcs ▸ hread h hmore⟩,
    fun more w hw => ⟨fun heq => ?_, fun hlike => ?_⟩⟩
  · rw [writeDocument, hcs] at hwrite
    exact readBytes_of_writeText hwrite
  · have hown := hread h (Nat.le_refl room)
    rcases Json.readWithin_of_document (hcs ▸ hu) room with hok | ⟨fault, herror, -⟩
    · exact Except.ok.inj (hok.symm.trans hown)
    · cases herror.symm.trans hown
  · rintro rfl
    exact hcs ▸ Json.document_of_readWithin (hread h (Nat.le_refl room))
  · -- What the text is read as is like both values.
    have hown := hread h (Nat.le_max_left room more)
    have hother := hread hw (Nat.le_max_right room more)
    rw [heq, ← hcs, hown] at hother
    have hlike : Value.Alike ((documentStyle (some (Json.spaces width))).arranged v) w :=
      Except.ok.inj hother ▸ hw.alike_arranged
    exact hlike.symm.trans h.alike_arranged
  · rw [← hcs, documentText, documentText, Json.print, Json.print,
      hw.printAt_eq rfl h hlike]

/-- Two objects that differ in the order of their fields are written as
one text, which is a document of a value like either. -/
theorem writeDocument_canonical_reordered :
    let v : Value := .object [(.text "b", .array [.null, .int (-1)]), (.text "a\n", .object [])]
    let w : Value := .object [(.text "a\n", .object []), (.text "b", .array [.null, .int (-1)])]
    let text : Text := "\x7b\n \"a\\n\": \x7b\x7d,\n \"b\": [\n  null,\n  -1\n ]\n\x7d\n"
    Json.Legible (fun t => t.isBroken = false) 2 v
      ∧ Json.Legible (fun t => t.isBroken = false) 2 w ∧ v ≠ w
      ∧ documentText (some (Json.spaces 1)) w = text ∧ documentText (some (Json.spaces 1)) v = text
      ∧ ∃ u, u.Alike w ∧ Json.Document text u := by
  intro v w text
  have hitems : Json.Legible (fun t => t.isBroken = false) 1 (.array [.null, .int (-1)]) :=
    .array (List.forall_mem_cons.mpr
      ⟨.null 0, List.forall_mem_singleton.mpr (.int 0 (by decide))⟩)
  have hempty : Json.Legible (fun t => t.isBroken = false) 1 (.object []) :=
    .object nofun .nil nofun
  have hv : Json.Legible (fun t => t.isBroken = false) 2 v :=
    .object (by simpa using ⟨rfl, rfl⟩) (List.pairwise_pair.mpr (by decide))
      (by simpa using ⟨hitems, hempty⟩)
  have hw : Json.Legible (fun t => t.isBroken = false) 2 w :=
    .object (by simpa using ⟨rfl, rfl⟩) (List.pairwise_pair.mpr (by decide))
      (by simpa using ⟨hempty, hitems⟩)
  have horder : (documentStyle (some (Json.spaces 1))).arrange
      (Json.printFields (documentStyle (some (Json.spaces 1))) (0 + 1)
        [(.text "a\n", .object []), (.text "b", .array [.null, .int (-1)])])
      = Json.printFields (documentStyle (some (Json.spaces 1))) (0 + 1)
        [(.text "a\n", .object []), (.text "b", .array [.null, .int (-1)])] :=
    List.mergeSort_of_pairwise (by decide)
  have htext : documentText (some (Json.spaces 1)) w = text := by
    rw [documentText, Json.print, Json.printAt, horder]
    decide +kernel
  have hlike : v.Alike w := hv.alike_of_perm (.swap _ _ _)
  obtain ⟨cs, hcs, -, ⟨u, hu, hdocument, -⟩, hsame⟩ := writeDocument_canonical hw 1
  rw [← hcs, htext] at hdocument hsame
  exact ⟨hv, hw, by simp [v, w], htext, (hsame 2 v hv).mpr hlike, u, hu, (hdocument u).mpr rfl⟩

end Files

end Lineage
