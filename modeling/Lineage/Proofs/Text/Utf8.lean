/-
Lineage.Proofs.Text.Utf8 — characters survive as bytes.

The bytes of a character are read as that character, whatever follows
them (`next_encodeChar`), and bytes that stop within a character are
unfinished, never wrong (`next_eq_unfinished`).  So the bytes of a text are
read as the text, all at once (`decodeAll_encode`) and piece by piece,
wherever the pieces are cut (`decodeSome_of_prefix`); the lines of a file
are those of its text (`PiecewiseLines.ofBytes_encode`).
-/
import Lineage.Files.Records

namespace Lineage

namespace Text.Utf8

/-! ## Bytes as numbers -/

theorem toNat_byte {n : Nat} (h : n < 256) : (UInt8.ofNat n).toNat = n :=
  UInt8.toNat_ofNat_of_lt' h

theorem toNat_tail (n : Nat) : (UInt8.ofNat (0x80 + n % 64)).toNat = 0x80 + n % 64 :=
  toNat_byte (by omega)

theorem isTail_tail (n : Nat) : isTail (UInt8.ofNat (0x80 + n % 64)) = true := by
  simp only [isTail, Bool.and_eq_true, decide_eq_true_eq, UInt8.le_iff_toNat_le, toNat_tail,
    UInt8.reduceToNat]
  omega

theorem maySecond_iff {a b : UInt8} :
    maySecond a b = true ↔ (0x80 ≤ b.toNat ∧ b.toNat ≤ 0xBF)
      ∧ ¬ (a.toNat = 0xE0 ∧ b.toNat < 0xA0) ∧ ¬ (a.toNat = 0xED ∧ 0xA0 ≤ b.toNat)
      ∧ ¬ (a.toNat = 0xF0 ∧ b.toNat < 0x90) ∧ ¬ (a.toNat = 0xF4 ∧ 0x90 ≤ b.toNat) := by
  simp only [maySecond, isTail, Bool.and_eq_true, Bool.not_eq_true', decide_eq_true_eq,
    Bool.and_eq_false_iff, UInt8.le_iff_toNat_le, UInt8.lt_iff_toNat_lt, beq_eq_false_iff_ne,
    ne_eq, ← UInt8.toNat_inj, UInt8.reduceToNat, decide_eq_false_iff_not]
  omega

/-! ## One character -/

section Next

variable {a b c d : UInt8}

theorem next_two (ha : 0xC2 ≤ a.toNat ∧ a.toNat < 0xE0) (hb : isTail b = true)
    (rest : List UInt8) : next (a :: b :: rest) = .char (join (a.toNat - 0xC0) [b]) 2 := by
  simp only [next, UInt8.lt_iff_toNat_lt, UInt8.reduceToNat]
  rw [if_neg (by omega), if_neg (by omega), if_pos ha.2, if_pos hb]

theorem next_three (ha : 0xE0 ≤ a.toNat ∧ a.toNat < 0xF0) (hb : maySecond a b = true)
    (hc : isTail c = true) (rest : List UInt8) :
    next (a :: b :: c :: rest) = .char (join (a.toNat - 0xE0) [b, c]) 3 := by
  simp only [next, UInt8.lt_iff_toNat_lt, UInt8.reduceToNat]
  rw [if_neg (by omega), if_neg (by omega), if_neg (by omega), if_pos ha.2, if_neg (by simp [hb]),
    if_pos hc]

theorem next_four (ha : 0xF0 ≤ a.toNat ∧ a.toNat < 0xF5) (hb : maySecond a b = true)
    (hc : isTail c = true) (hd : isTail d = true) (rest : List UInt8) :
    next (a :: b :: c :: d :: rest) = .char (join (a.toNat - 0xF0) [b, c, d]) 4 := by
  simp only [next, UInt8.lt_iff_toNat_lt, UInt8.reduceToNat]
  rw [if_neg (by omega), if_neg (by omega), if_neg (by omega), if_neg (by omega), if_pos ha.2,
    if_neg (by simp [hb]), if_neg (by simp [hc]), if_pos hd]

end Next

/-- The bytes of a character are read as that character. -/
theorem next_encodeChar (c : Char) (rest : List UInt8) :
    next (encodeChar c ++ rest) = .char c (encodeChar c).length := by
  have hv : c.toNat < 0xD800 ∨ (0xDFFF < c.toNat ∧ c.toNat < 0x110000) := c.valid
  have hc : Char.ofNat c.toNat = c := Char.ofNat_toNat c
  unfold encodeChar
  generalize c.toNat = n at hv hc
  dsimp only
  -- One case per number of bytes; in each the bits that were split up are put together again.
  by_cases h1 : n < 0x80
  · have hbyte : (UInt8.ofNat n).toNat = n := toNat_byte (by omega)
    have hascii : UInt8.ofNat n < 0x80 := by
      rw [UInt8.lt_iff_toNat_lt, hbyte]
      exact h1
    rw [if_pos h1, List.singleton_append, next_ascii hascii, hbyte, hc]
    rfl
  rw [if_neg h1]
  by_cases h2 : n < 0x800
  · have hlead : (UInt8.ofNat (0xC0 + n / 64)).toNat = 0xC0 + n / 64 := toNat_byte (by omega)
    have hbits : (0xC0 + n / 64 - 0xC0) * 64 + (0x80 + n / 1 % 64 - 0x80) = n := by omega
    rw [if_pos h2, List.cons_append, List.singleton_append, next_two (by omega) (isTail_tail _),
      join, hlead, List.foldl_cons, List.foldl_nil, toNat_tail, hbits, hc]
    rfl
  rw [if_neg h2]
  by_cases h3 : n < 0x10000
  · have hlead : (UInt8.ofNat (0xE0 + n / 4096)).toNat = 0xE0 + n / 4096 := toNat_byte (by omega)
    have hsecond : maySecond (UInt8.ofNat (0xE0 + n / 4096)) (UInt8.ofNat (0x80 + n / 64 % 64))
        = true := by
      rw [maySecond_iff, hlead, toNat_tail]
      omega
    have hbits : ((0xE0 + n / 4096 - 0xE0) * 64 + (0x80 + n / 64 % 64 - 0x80)) * 64
        + (0x80 + n / 1 % 64 - 0x80) = n := by omega
    rw [if_pos h3, List.cons_append, List.cons_append, List.singleton_append,
      next_three (by omega) hsecond (isTail_tail _), join, hlead]
    simp only [List.foldl_cons, List.foldl_nil, toNat_tail, hbits, hc]
    rfl
  · have hlead : (UInt8.ofNat (0xF0 + n / 262144)).toNat = 0xF0 + n / 262144 :=
      toNat_byte (by omega)
    have hsecond : maySecond (UInt8.ofNat (0xF0 + n / 262144))
        (UInt8.ofNat (0x80 + n / 4096 % 64)) = true := by
      rw [maySecond_iff, hlead, toNat_tail]
      omega
    have hbits : (((0xF0 + n / 262144 - 0xF0) * 64 + (0x80 + n / 4096 % 64 - 0x80)) * 64
        + (0x80 + n / 64 % 64 - 0x80)) * 64 + (0x80 + n / 1 % 64 - 0x80) = n := by omega
    rw [if_neg h3, List.cons_append, List.cons_append, List.cons_append, List.singleton_append,
      next_four (by omega) hsecond (isTail_tail _) (isTail_tail _), join, hlead]
    simp only [List.foldl_cons, List.foldl_nil, toNat_tail, hbits, hc]
    rfl

/-- Bytes that stop within a character are unfinished. -/
theorem next_eq_unfinished {bytes more : List UInt8} {c : Char} {size : Nat}
    (h : next (bytes ++ more) = .char c size) (hne : bytes ≠ []) (hsize : bytes.length < size) :
    next bytes = .unfinished := by
  fun_cases next bytes <;> simp_all [next, -UInt8.not_lt] <;> omega

theorem length_encodeChar_pos (c : Char) : 0 < (encodeChar c).length := by
  unfold encodeChar
  grind

/-! ## Whole texts -/

theorem length_le_encode (cs : List Char) : cs.length ≤ (encode cs).length := by
  induction cs with
  | nil => exact Nat.le_refl 0
  | cons c rest ih =>
    have hpos := length_encodeChar_pos c
    have hcons : encode (c :: rest) = encodeChar c ++ encode rest := rfl
    rw [hcons, List.length_append, List.length_cons]
    omega

/-- The characters of a text come first, then what the bytes behind it
hold. -/
theorem run_encode (cs : List Char) (rest : List UInt8) (fuel position : Nat) :
    run (cs.length + fuel) position (encode cs ++ rest)
      = (cs ++ (run fuel (position + (encode cs).length) rest).1,
        (run fuel (position + (encode cs).length) rest).2) := by
  induction cs generalizing position with
  | nil => simp [encode]
  | cons c cs ih =>
    have hcons : encode (c :: cs) = encodeChar c ++ encode cs := rfl
    rw [hcons, List.append_assoc, List.length_cons, Nat.succ_add_eq_add_succ, Nat.add_succ, run,
      next_encodeChar]
    simp only [List.drop_left', ih, List.length_append, Nat.add_assoc, List.cons_append]

/-- The bytes of a text are read as the text. -/
theorem decodeAll_encode (cs : List Char) : decodeAll (encode cs) = .ok cs := by
  have hfuel : (encode cs).length + 1 = cs.length + ((encode cs).length - cs.length + 1) := by
    have := length_le_encode cs
    omega
  have hrun := run_encode cs [] ((encode cs).length - cs.length + 1) 0
  have hend (fuel position : Nat) : run (fuel + 1) position [] = ([], none) := rfl
  rw [List.append_nil, ← hfuel, hend, List.append_nil] at hrun
  rw [decodeAll, hrun]

/-! ## Bytes that more follow -/

/-- The start of the bytes of a text: some whole characters, and then
nothing or a part of the next one. -/
theorem exists_of_prefix {bytes more : List UInt8} {cs : List Char}
    (h : bytes ++ more = encode cs) :
    ∃ done later pending, cs = done ++ later ∧ bytes = encode done ++ pending
      ∧ pending ++ more = encode later ∧ (pending = [] ∨ next pending = .unfinished) := by
  induction cs generalizing bytes with
  | nil =>
    obtain ⟨rfl, rfl⟩ := List.append_eq_nil_iff.mp h
    exact ⟨[], [], [], rfl, rfl, rfl, .inl rfl⟩
  | cons c cs ih =>
    have hcons : encode (c :: cs) = encodeChar c ++ encode cs := rfl
    by_cases hsize : bytes.length < (encodeChar c).length
    · refine ⟨[], c :: cs, bytes, rfl, rfl, h, ?_⟩
      by_cases hne : bytes = []
      · exact .inl hne
      · have hnext : next (bytes ++ more) = .char c (encodeChar c).length := by
          rw [h, hcons, next_encodeChar]
        exact .inr (next_eq_unfinished hnext hne hsize)
    · -- The bytes reach beyond the character, so what is behind it starts the other ones.
      rw [hcons] at h
      obtain ⟨behind, rfl⟩ : encodeChar c <+: bytes :=
        List.prefix_of_prefix_length_le ⟨_, h.symm⟩ (List.prefix_append bytes more) (by omega)
      rw [List.append_assoc] at h
      obtain ⟨done, later, pending, rfl, rfl, hmore, hstop⟩ := ih (List.append_cancel_left h)
      exact ⟨c :: done, later, pending, rfl, (List.append_assoc ..).symm, hmore, hstop⟩

/-- The start of the bytes of a text is never at fault: it is read as
the characters that are whole, and the rest is handed back. -/
theorem decodeSome_of_prefix {bytes more : List UInt8} {cs : List Char}
    (h : bytes ++ more = encode cs) :
    ∃ done later pending, cs = done ++ later ∧ pending ++ more = encode later
      ∧ decodeSome bytes = (done, .pending pending) := by
  obtain ⟨done, later, pending, hcs, rfl, hmore, hstop⟩ := exists_of_prefix h
  refine ⟨done, later, pending, hcs, hmore, ?_⟩
  have hlength := length_le_encode done
  have hfuel : (encode done ++ pending).length + 1
      = done.length + ((encode done ++ pending).length - done.length + 1) := by
    rw [List.length_append]
    omega
  have hrun := run_encode done pending ((encode done ++ pending).length - done.length + 1) 0
  rw [← hfuel] at hrun
  rw [decodeSome, hrun]
  rcases hstop with rfl | hstop
  · simp [run, next]
  · simp [run, hstop]

end Text.Utf8

namespace PiecewiseLines

open Text.Utf8

/-- Reading on behind characters that have been read: the cuts between
the pieces do not matter. -/
theorem readPieces_encode {fuel : Nat} {read cs : List Char} {pending bytes : List UInt8}
    (hfuel : bytes.length < fuel) (h : pending ++ bytes = encode cs) :
    readPieces fuel read pending bytes
      = ⟨Text.splitLines (Text.unifyLines (read ++ cs)), none⟩ := by
  induction fuel generalizing read cs pending bytes with
  | zero => exact absurd hfuel (Nat.not_lt_zero _)
  | succ fuel ih =>
    cases bytes with
    | nil =>
      rw [List.append_nil] at h
      rw [readPieces, h, decodeAll_encode]
    | cons b bytes =>
      have hcut : (pending ++ (b :: bytes).take pieceSize) ++ (b :: bytes).drop pieceSize
          = encode cs := by
        rw [List.append_assoc, List.take_append_drop, h]
      obtain ⟨done, later, unread, rfl, hlater, hdecode⟩ := decodeSome_of_prefix hcut
      have hshorter : ((b :: bytes).drop pieceSize).length < fuel := by
        rw [List.length_cons] at hfuel
        rw [List.length_drop, List.length_cons, pieceSize]
        omega
      have hread : readPieces (fuel + 1) read pending (b :: bytes)
          = readPieces fuel (read ++ done) unread ((b :: bytes).drop pieceSize) := by
        rw [readPieces, hdecode]
        simp
      rw [hread, ih hshorter hlater, List.append_assoc]

/-- The lines of the bytes of a text are the lines of the text. -/
theorem ofBytes_encode (cs : List Char) :
    ofBytes (encode cs) = ⟨Text.splitLines (Text.unifyLines cs), none⟩ :=
  readPieces_encode (by omega) (List.nil_append _)

end PiecewiseLines

end Lineage
