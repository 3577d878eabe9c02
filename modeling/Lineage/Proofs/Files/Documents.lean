/-
Lineage.Proofs.Files.Documents — a document that was written to a file
is read back.

What a written document consists of are the characters of the grammar and
the code points that stand within quotes (`Json.Legible.forall_printAt`).
None of them is a carriage return, since that is escaped between quotes,
so reading the file leaves its line ends as they are, and none is a
surrogate if none is in a text of the document, and only then
(`Json.allTexts_of_printAt`).  A legible document that
could be written is therefore read from the file as it was written, with
the names of its objects sorted (`readText_of_writeDocument`), and
without surrogates it can be written wherever any file can be
(`fault_writeDocument`).
-/
import Lineage.Proofs.Files.Writing
import Lineage.Proofs.Json.Alike
import Lineage.Proofs.Json.Texts

namespace Lineage

namespace Json

/-! ## The code points of a document -/

/-- A line feed or a visible character of ASCII, as they stand outside of
quotes. -/
def isPlain (c : Char) : Bool :=
  c = '\n' || (' ' ≤ c && c ≤ '~')

section Points

variable {P : CodePoint → Prop} {style : Style} {good : Text → Prop} {room : Nat} {v : Value}

theorem forall_ofChars (hplain : ∀ c, isPlain c = true → P (.char c)) {cs : List Char}
    (h : cs.all isPlain = true) : ∀ p ∈ Text.ofChars cs, P p := by
  intro p hp
  obtain ⟨c, hc, rfl⟩ := List.mem_map.mp hp
  exact hplain c (List.all_eq_true.mp h c hc)

theorem isPlain_of_isDigit {c : Char} (h : isDigit c = true) : isPlain c = true := by
  have hle {a b : Char} (h : a ≤ b) : a.toNat ≤ b.toNat := h
  simp only [isDigit, Bool.and_eq_true, decide_eq_true_eq] at h
  have hlow := Char.le_trans (by decide : ' ' ≤ '0') h.1
  have hhigh := Char.le_trans h.2 (by decide : '9' ≤ '~')
  simp [isPlain, hlow, hhigh]

theorem forall_decimal (hplain : ∀ c, isPlain c = true → P (.char c)) (i : Int) :
    ∀ p ∈ Text.decimal i, P p := by
  have hdigits (n : Nat) : (Nat.toDigits 10 n).all isPlain = true :=
    List.all_eq_true.mpr fun c hc => isPlain_of_isDigit (isDigit_of_mem_toDigits hc)
  cases i with
  | ofNat n =>
    rw [Int.ofNat_eq_natCast, decimal_ofNat]
    exact forall_ofChars hplain (hdigits n)
  | negSucc n =>
    rw [decimal_negSucc]
    exact List.forall_mem_cons.mpr
      ⟨hplain '-' (by decide), forall_ofChars hplain (hdigits (n + 1))⟩

theorem forall_quote (hplain : ∀ c, isPlain c = true → P (.char c)) {ascii : Bool} {t : Text}
    (ht : ∀ p ∈ t, ∀ q ∈ quotePoint ascii p, P q) : ∀ q ∈ quote ascii t, P q := by
  have hmark : P (.char '"') := hplain '"' (by decide)
  refine List.forall_mem_append.mpr ⟨List.forall_mem_cons.mpr ⟨hmark, fun q hq => ?_⟩,
    List.forall_mem_singleton.mpr hmark⟩
  obtain ⟨p, hp, hq⟩ := List.mem_flatMap.mp hq
  exact ht p hp q hq

theorem forall_newLine (hplain : ∀ c, isPlain c = true → P (.char c)) (hs : style.Spaced)
    {indent : Text} (hi : indent ∈ style.indent) (level : Nat) :
    ∀ p ∈ newLine indent level, P p := by
  refine List.forall_mem_cons.mpr ⟨hplain '\n' (by decide), fun p hp => ?_⟩
  obtain ⟨part, hpart, hmem⟩ := List.mem_flatten.mp hp
  rw [List.eq_of_mem_replicate hpart] at hmem
  rw [hs indent hi p hmem]
  exact hplain ' ' (by decide)

/-- Between brackets stand the parts and what separates them. -/
theorem forall_enclose (hplain : ∀ c, isPlain c = true → P (.char c)) (hs : style.Spaced)
    {level : Nat} {opening closing : Char} (hopening : isPlain opening = true)
    (hclosing : isPlain closing = true) {parts : List Text} (h : ∀ part ∈ parts, ∀ p ∈ part, P p) :
    ∀ p ∈ style.enclose level opening closing parts, P p := by
  have hedge (level : Nat) : ∀ p ∈ style.edge level, P p := by
    unfold Style.edge
    split
    · exact fun p hp => absurd hp List.not_mem_nil
    · rename_i indent hi
      exact forall_newLine hplain hs hi level
  have hseparator (level : Nat) : ∀ p ∈ style.separator level, P p := by
    unfold Style.separator
    split
    · exact forall_ofChars hplain (by decide)
    · rename_i indent hi
      exact List.forall_mem_cons.mpr
        ⟨hplain ',' (by decide), forall_newLine hplain hs hi level⟩
  cases parts with
  | nil => exact forall_ofChars hplain (by simp [hopening, hclosing])
  | cons first more =>
    have hmore : ∀ p ∈ more.flatMap fun part => style.separator (level + 1) ++ part, P p := by
      intro p hp
      obtain ⟨part, hpart, hp⟩ := List.mem_flatMap.mp hp
      exact List.forall_mem_append.mpr
        ⟨hseparator _, h part (List.mem_cons_of_mem _ hpart)⟩ p hp
    have hfirst := h first List.mem_cons_self
    have hend : ∀ p ∈ [CodePoint.char closing], P p :=
      List.forall_mem_singleton.mpr (hplain closing hclosing)
    exact List.forall_mem_append.mpr ⟨List.forall_mem_append.mpr ⟨List.forall_mem_append.mpr
      ⟨List.forall_mem_append.mpr ⟨List.forall_mem_cons.mpr ⟨hplain opening hopening, hedge _⟩,
        hfirst⟩, hmore⟩, hedge _⟩, hend⟩

/-- What holds of plain characters and of what stands within quotes
holds of a whole document. -/
theorem Legible.forall_printAt (hplain : ∀ c, isPlain c = true → P (.char c)) (hs : style.Spaced)
    (hquote : ∀ t, good t → ∀ p ∈ t, ∀ q ∈ quotePoint style.ascii p, P q)
    (h : Legible good room v) (level : Nat) : ∀ p ∈ printAt style level v, P p := by
  induction h generalizing level with
  | null _ => exact forall_ofChars hplain (by decide)
  | bool _ b => cases b <;> exact forall_ofChars hplain (by decide)
  | int _ _ => exact forall_decimal hplain _
  | text _ ht => exact forall_quote hplain (hquote _ ht)
  | array _ ih =>
    rw [printAt, Style.printItems_eq_map]
    refine forall_enclose hplain hs (by decide) (by decide) fun part hpart => ?_
    obtain ⟨v, hv, rfl⟩ := List.mem_map.mp hpart
    exact ih v hv _
  | object hnames _ _ ih =>
    rw [printAt, Style.arrange_printFields, List.map_map]
    refine forall_enclose hplain hs (by decide) (by decide) fun part hpart => ?_
    obtain ⟨f, hf, rfl⟩ := List.mem_map.mp hpart
    have hf := (Style.order_perm _).subset hf
    obtain ⟨t, hname, ht⟩ := hnames f hf
    have hname : ∀ q ∈ quote style.ascii (nameText f.1), P q := by
      rw [hname]
      exact forall_quote hplain (hquote t ht)
    exact List.forall_mem_append.mpr ⟨List.forall_mem_append.mpr
      ⟨hname, forall_ofChars hplain (by decide)⟩, ih f hf _⟩

end Points

/-! ## Line ends and surrogates -/

theorem hexChar_ne : ∀ d < 16, hexChar d ≠ '\r' := by
  decide

theorem not_mem_unitEscape (n : Nat) : ∀ q ∈ unitEscape n, q ≠ .char '\r' := by
  have hdigit (k : Nat) : CodePoint.char (hexChar (k % 16)) ≠ .char '\r' := fun heq =>
    hexChar_ne _ (Nat.mod_lt k (by decide)) (CodePoint.char.inj heq)
  simp only [unitEscape, Text.ofChars, List.map_cons, List.map_nil, List.forall_mem_cons]
  exact ⟨by decide, by decide, hdigit _, hdigit _, hdigit _, hdigit _,
    fun _ h => absurd h List.not_mem_nil⟩

/-- Between quotes a carriage return is escaped. -/
theorem not_mem_quotePoint (ascii : Bool) (p : CodePoint) :
    ∀ q ∈ quotePoint ascii p, q ≠ .char '\r' := by
  unfold quotePoint
  split
  · rename_i c
    split
    · rename_i letter hletter
      have hne : letter ≠ '\r' := by
        unfold escapeLetter? at hletter
        split at hletter <;> cases hletter <;> decide
      simp [Text.ofChars, hne]
    · rename_i hletter
      split_ifs
      · exact not_mem_unitEscape _
      · unfold pointEscape
        split_ifs
        · exact not_mem_unitEscape _
        · exact List.forall_mem_append.mpr ⟨not_mem_unitEscape _, not_mem_unitEscape _⟩
      · rw [List.forall_mem_singleton]
        intro heq
        obtain rfl := CodePoint.char.inj heq
        cases hletter
  · split_ifs
    · exact not_mem_unitEscape _
    · rename_i hchar _
      rw [List.forall_mem_singleton]
      exact hchar _

theorem isSurrogate_ofChars (cs : List Char) : ∀ q ∈ Text.ofChars cs, q.isSurrogate = false := by
  intro q hq
  obtain ⟨c, -, rfl⟩ := List.mem_map.mp hq
  rfl

/-- Between quotes a character is written in characters. -/
theorem isSurrogate_quotePoint (ascii : Bool) (c : Char) :
    ∀ q ∈ quotePoint ascii (.char c), q.isSurrogate = false := by
  unfold quotePoint
  split
  · split
    · exact isSurrogate_ofChars _
    · split_ifs
      · exact isSurrogate_ofChars _
      · unfold pointEscape
        split_ifs
        · exact isSurrogate_ofChars _
        · exact List.forall_mem_append.mpr ⟨isSurrogate_ofChars _, isSurrogate_ofChars _⟩
      · rw [List.forall_mem_singleton]
        rfl
  · rename_i hchar
    exact absurd rfl (hchar c)

/-! ## Texts without surrogates -/

section Surrogates

variable {style : Style}

/-- What is quoted without escapes is between the quotes, its surrogates
included. -/
theorem isBroken_of_quote {t : Text} (h : (quote false t).isBroken = false) :
    t.isBroken = false := by
  rw [Text.isBroken, List.any_eq_false] at h ⊢
  intro q hq hsurrogate
  cases q with
  | char c => cases hsurrogate
  | surrogate offset =>
    refine h (.surrogate offset) ?_ rfl
    refine List.mem_append_left _ (List.mem_cons_of_mem _ ?_)
    exact List.mem_flatMap.mpr ⟨_, hq, List.mem_singleton_self _⟩

theorem subset_enclose {level : Nat} {opening closing : Char} {parts : List Text} {part : Text}
    (h : part ∈ parts) : part ⊆ style.enclose level opening closing parts := by
  intro q hq
  cases parts with
  | nil => exact absurd h List.not_mem_nil
  | cons first more =>
    rw [Style.enclose]
    refine List.mem_append_left _ (List.mem_append_left _ ?_)
    rcases List.mem_cons.mp h with rfl | h
    · exact List.mem_append_left _ (List.mem_append_right _ hq)
    · exact List.mem_append_right _ (List.mem_flatMap.mpr ⟨part, h, List.mem_append_right _ hq⟩)

mutual

/-- Where nothing is escaped, a document without surrogates is one of texts
without surrogates. -/
theorem allTexts_of_printAt (hplain : style.ascii = false) {level : Nat} :
    ∀ v : Value, (printAt style level v).isBroken = false →
      v.AllTexts fun t => t.isBroken = false
  | .scalar s, h => by
    refine .scalar fun t ht => ?_
    subst ht
    have hquote : (quote style.ascii t).isBroken = false := h
    rw [hplain] at hquote
    exact isBroken_of_quote hquote
  | .array items, h => .array <| allTexts_of_printItems hplain items fun part hpart =>
      Text.isBroken_of_subset (subset_enclose hpart) h
  | .object fields, h => by
    rw [printAt, Style.arrange_printFields, List.map_map] at h
    have hpart {f : Scalar × Value} (hf : f ∈ fields) :
        (quote style.ascii (nameText f.1)).isBroken = false
          ∧ (printAt style (level + 1) f.2).isBroken = false := by
      have hfield : (quote style.ascii (nameText f.1) ++ ": "
          ++ printAt style (level + 1) f.2).isBroken = false :=
        Text.isBroken_of_subset (subset_enclose (List.mem_map.mpr
          ⟨f, (Style.order_perm fields).symm.subset hf, rfl⟩)) h
      exact ⟨Text.isBroken_of_subset (List.Subset.trans (List.subset_append_left _ _)
          (List.subset_append_left _ _)) hfield,
        Text.isBroken_of_subset (List.subset_append_right _ _) hfield⟩
    refine .object (fun f hf t ht => ?_)
      (allTexts_of_printFields hplain fields fun f hf => (hpart hf).2)
    have hname := (hpart hf).1
    rw [ht, hplain] at hname
    exact isBroken_of_quote hname

theorem allTexts_of_printItems (hplain : style.ascii = false) {level : Nat} :
    ∀ items : List Value, (∀ part ∈ printItems style level items, part.isBroken = false) →
      ∀ v ∈ items, v.AllTexts fun t => t.isBroken = false
  | [], _ => fun v hv => absurd hv List.not_mem_nil
  | item :: rest, h => by
    rw [printItems, List.forall_mem_cons] at h
    exact List.forall_mem_cons.mpr
      ⟨allTexts_of_printAt hplain item h.1, allTexts_of_printItems hplain rest h.2⟩

theorem allTexts_of_printFields (hplain : style.ascii = false) {level : Nat} :
    ∀ fields : Fields, (∀ f ∈ fields, (printAt style level f.2).isBroken = false) →
      ∀ f ∈ fields, f.2.AllTexts fun t => t.isBroken = false
  | [], _ => fun f hf => absurd hf List.not_mem_nil
  | (_, value) :: rest, h => by
    rw [List.forall_mem_cons] at h
    exact List.forall_mem_cons.mpr
      ⟨allTexts_of_printAt hplain value h.1, allTexts_of_printFields hplain rest h.2⟩

end

end Surrogates

end Json

namespace Files

variable {f g : Files} {p : Path} {indent : Option Text} {room : Nat} {v : Value}

theorem spaced_documentStyle {width : Nat} : (documentStyle (some (Json.spaces width))).Spaced := by
  intro indent hi p hp
  obtain rfl := Option.some.inj hi
  exact List.eq_of_mem_replicate hp

/-- What holds of plain characters and of what stands within quotes
holds of the text of a document. -/
theorem forall_documentText {P : CodePoint → Prop} {good : Text → Prop}
    (hplain : ∀ c, Json.isPlain c = true → P (.char c)) (hs : (documentStyle indent).Spaced)
    (hquote : ∀ t, good t → ∀ p ∈ t, ∀ q ∈ Json.quotePoint false p, P q)
    (h : Json.Legible good room v) : ∀ q ∈ documentText indent v, P q :=
  List.forall_mem_append.mpr
    ⟨h.forall_printAt hplain hs hquote 0, Json.forall_ofChars hplain (by decide)⟩

/-- A document without surrogates is written in characters. -/
theorem exists_chars_documentText (h : Json.Legible (fun t => t.isBroken = false) room v)
    (hs : (documentStyle indent).Spaced) : ∃ cs, documentText indent v = .ofChars cs := by
  have hpoints : ∀ q ∈ documentText indent v, q.isSurrogate = false :=
    forall_documentText (fun _ _ => rfl) hs (fun t ht => by
      obtain ⟨cs, rfl⟩ := Text.isBroken_eq_false_iff.mp ht
      intro q hq
      obtain ⟨c, -, rfl⟩ := List.mem_map.mp hq
      exact Json.isSurrogate_quotePoint false c) h
  exact Text.isBroken_eq_false_iff.mp (List.any_eq_false.mpr fun q hq => by simp [hpoints q hq])

/-- A document without surrogates can be written wherever any file can
be. -/
theorem fault_writeDocument (h : Json.Legible (fun t => t.isBroken = false) room v)
    (hs : (documentStyle indent).Spaced) (f : Files) (p : Path) :
    (f.writeDocument p indent v).2 = (f.writeText p []).2 := by
  obtain ⟨cs, hcs⟩ := exists_chars_documentText h hs
  rw [writeDocument, hcs]
  exact fault_writeText f p cs

/-- The text of a legible document is read as it was written. -/
theorem readWithin_documentText (h : Json.Legible Json.Unpaired room v)
    (hs : (documentStyle indent).Spaced) {more : Nat} (hmore : room ≤ more) :
    Json.readWithin more (documentText indent v) = .ok ((documentStyle indent).arranged v) := by
  have hend : Text.ofString "\n" = [.char '\n'] := by decide
  rw [documentText, hend]
  exact Json.readWithin_print hs (h.mono (fun _ ht => ht) hmore)
    (by simp [CodePoint.isIn, Json.isGap])

/-- What a file holds to which a legible document was written. -/
theorem readBytes_of_writeDocument (h : Json.Legible Json.Unpaired room v)
    (hs : (documentStyle indent).Spaced) (hwrite : f.writeDocument p indent v = (g, none)) :
    ∃ cs, documentText indent v = .ofChars cs ∧ '\r' ∉ cs
      ∧ g.readBytes p = .ok (Text.Utf8.encode cs) := by
  have hreturn : ∀ q ∈ documentText indent v, q ≠ .char '\r' :=
    forall_documentText (fun c hc heq => by
      obtain rfl := CodePoint.char.inj heq
      exact absurd hc (by decide)) hs (fun _ _ p _ => Json.not_mem_quotePoint false p) h
  rw [writeDocument] at hwrite
  obtain ⟨cs, hcs⟩ := Text.isBroken_eq_false_iff.mp (isBroken_of_writeText hwrite)
  have hline : '\r' ∉ cs := fun hmem =>
    hreturn (.char '\r') (hcs ▸ List.mem_map.mpr ⟨'\r', hmem, rfl⟩) rfl
  rw [hcs] at hwrite
  exact ⟨cs, hcs, hline, readBytes_of_writeText hwrite⟩

/-- A legible document that was written is read from the file as it was
written. -/
theorem readText_of_writeDocument (h : Json.Legible Json.Unpaired room v)
    (hs : (documentStyle indent).Spaced) (hwrite : f.writeDocument p indent v = (g, none)) :
    ∃ cs, g.readText p = .ok cs ∧ ∀ more, room ≤ more →
      Json.readWithin more (.ofChars cs) = .ok ((documentStyle indent).arranged v) := by
  obtain ⟨cs, hcs, hline, hbytes⟩ := readBytes_of_writeDocument h hs hwrite
  refine ⟨cs, ?_, fun more hmore => ?_⟩
  · rw [readText_of_readBytes hbytes, Text.unifyLines_of_not_mem hline]
  · rw [← hcs]
    exact readWithin_documentText h hs hmore

end Files

end Lineage
