/-
Lineage.Proofs.Files.Writing — a text that was written is read back.

Putting a file in place changes nothing but the entry under its names
(`entry?_putAt`), and no file is on the way to it, since the way leads
through directories (`walk_putAt`).  So a path leads to the same place
after a file was written there, and the file holds the text
(`readBytes_of_writeText`), which is read with its line ends written as
line feeds (`readText_of_readBytes`).  Whether a text can be written
depends on the text only through its surrogates (`fault_writeText`).
-/
import Lineage.Proofs.Text.Utf8
import Mathlib.Tactic.SplitIfs

namespace Lineage

/-- Without carriage returns the line ends are line feeds already. -/
theorem Text.unifyLines_of_not_mem {cs : List Char} (h : '\r' ∉ cs) : Text.unifyLines cs = cs := by
  fun_induction Text.unifyLines cs with
  | case1 => rfl
  | case2 rest _ => exact absurd List.mem_cons_self h
  | case3 rest _ _ => exact absurd List.mem_cons_self h
  | case4 c rest _ _ ih => rw [ih fun hmem => h (List.mem_cons_of_mem c hmem)]

namespace Files

variable {f g : Files} {p : Path}

/-! ## The place of a file -/

/-- Below the root, what was put in a place is found there, and
everything else is found where it was. -/
theorem entry?_putAt {names : List Text} (hne : names ≠ []) (e : Entry) (other : List Text) :
    entry? (f.putAt names e) other = if other = names then some e else f.entry? other := by
  have hlookup : ∀ entries : List (List Text × Entry),
      (entries.filter (fun x => x.1 ≠ names) ++ [(names, e)]).lookup other
        = if other = names then some e else entries.lookup other := by
    intro entries
    induction entries with
    | nil =>
      by_cases h : other = names
      · simp [h]
      · have hother : (other == names) = false := by simpa using h
        simp [h, hother, List.lookup_cons]
    | cons x rest ih =>
      by_cases hx : x.1 = names
      · rw [List.filter_cons_of_neg (by simpa using hx), ih, List.lookup_cons]
        by_cases h : other = names
        · rw [if_pos h, if_pos h]
        · have hother : (other == x.1) = false := by simpa [hx] using h
          rw [if_neg h, if_neg h, hother]
      · rw [List.filter_cons_of_pos (by simpa using hx), List.cons_append, List.lookup_cons, ih,
          List.lookup_cons]
        by_cases h : other = names
        · have hother : (other == x.1) = false := by simpa [h] using Ne.symm hx
          rw [if_pos h, if_pos h, hother]
        · rw [if_neg h, if_neg h]
  cases other with
  | nil => simp [Files.entry?, Ne.symm hne]
  | cons name rest =>
    exact hlookup f.entries

/-- A way through directories does not lead through a place where there
is none. -/
theorem walk_putAt {whole : Path} {names : List Text} (hne : names ≠ [])
    (hplace : f.entry? names ≠ some .directory) (e : Entry) {start way : List Text}
    {found : List Text} (h : f.walk whole start way = .ok found) :
    (f.putAt names e).walk whole start way = .ok found := by
  induction way generalizing start with
  | nil => exact h
  | cons name rest ih =>
    rw [walk] at h ⊢
    cases hentry : f.entry? start with
    | none =>
      rw [hentry] at h
      cases h
    | some entry =>
      cases entry with
      | file bytes =>
        rw [hentry] at h
        cases h
      | directory =>
        have hstart : start ≠ names := by
          rintro rfl
          exact hplace hentry
        rw [entry?_putAt hne, if_neg hstart, hentry]
        rw [hentry] at h
        dsimp only at h ⊢
        split_ifs at h ⊢
        · exact ih h
        · exact ih h

/-- Writing a file leaves the ways to its place open, so that its bytes
are found. -/
theorem readBytes_of_writeBytes {bytes : List UInt8} (h : f.writeBytes p bytes = (g, none)) :
    g.readBytes p = .ok bytes := by
  unfold writeBytes at h
  split at h
  · cases h
  · rename_i names hlocate
    split at h
    · cases h
    · rename_i hplace
      obtain rfl := (Prod.mk.inj h).1
      have hplace : f.entry? names ≠ some .directory := fun heq => hplace heq
      have hne : names ≠ [] := by
        rintro rfl
        exact hplace rfl
      have hlocate : (f.putAt names (.file bytes)).locate p = .ok names := by
        unfold locate at hlocate ⊢
        split at hlocate
        · cases hlocate
        · exact walk_putAt hne hplace _ hlocate
      rw [readBytes, find?, hlocate]
      dsimp only
      rw [entry?_putAt hne, if_pos rfl]

/-! ## Writing texts -/

/-- What comes of writing bytes does not depend on the bytes. -/
theorem fault_writeBytes (f : Files) (p : Path) (bytes others : List UInt8) :
    (f.writeBytes p bytes).2 = (f.writeBytes p others).2 := by
  unfold writeBytes
  split
  · rfl
  · split <;> rfl

/-- A text of characters can be written where any file can be. -/
theorem fault_writeText (f : Files) (p : Path) (cs : List Char) :
    (f.writeText p (.ofChars cs)).2 = (f.writeText p []).2 := by
  have hempty : Text.Utf8.encodeText [] = .ok [] := rfl
  unfold writeText
  rw [hempty, Text.Utf8.encodeText_ofChars]
  split
  · rfl
  · exact fault_writeBytes _ p _ _

/-- A text with a surrogate cannot be written. -/
theorem isBroken_of_writeText {t : Text} (h : f.writeText p t = (g, none)) :
    t.isBroken = false := by
  unfold writeText Text.Utf8.encodeText at h
  split at h
  · cases h
  · cases ht : t.chars? with
    | some cs =>
      exact Text.isBroken_eq_false_iff.mpr ⟨cs, Text.chars?_eq_some.mp ht⟩
    | none =>
      rw [ht] at h
      dsimp only at h
      split at h
      · cases h
      · rename_i hrefused
        exact absurd h (hrefused g)

/-- A text that was written is what the file holds. -/
theorem readBytes_of_writeText {cs : List Char} (h : f.writeText p (.ofChars cs) = (g, none)) :
    g.readBytes p = .ok (Text.Utf8.encode cs) := by
  unfold writeText at h
  split at h
  · cases h
  · rw [Text.Utf8.encodeText_ofChars] at h
    exact readBytes_of_writeBytes h

/-- What a file holds is read with its line ends unified. -/
theorem readText_of_readBytes {cs : List Char} (h : f.readBytes p = .ok (Text.Utf8.encode cs)) :
    f.readText p = .ok (Text.unifyLines cs) := by
  rw [readText, h]
  dsimp only
  rw [Text.Utf8.decodeAll_encode]

end Files

end Lineage
