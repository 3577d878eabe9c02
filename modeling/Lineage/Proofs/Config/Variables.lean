/-
Lineage.Proofs.Config.Variables — nested variables enter values at paths.

The two kinds of nested variables do the same with different values: the
raw texts are entered into an empty mapping, the decoded ones into the
policies that are there, and both only where no other value than a
mapping stands on the way (`enterRaw_eq_ok_iff`, `setPath_eq_ok_iff`).  So
both are runs of entries.  A decoded value is what its text stands for, as
long as the text meets no limit of the reader (`decode_eq_ok_iff`); the
first variable that is refused ends the run (`enterDecoded_eq_error_iff`).
-/
import Lineage.Config.Variables
import Lineage.Proofs.Json.Limits
import Lineage.Proofs.Value.Growing

namespace Lineage.Variables

open Value (names)

variable {vars : Variables} {fields fields' : Fields}

/-- A nested variable that counts spells a path of at least one name. -/
theorem ne_nil_of_mem_pathsOf {start : Text} {e : List Text × Text}
    (h : e ∈ pathsOf start vars) : e.1 ≠ [] := by
  obtain ⟨⟨name, raw⟩, -, he⟩ := List.mem_filterMap.mp h
  dsimp only at he
  split at he
  · cases he
    exact List.cons_ne_nil _ _
  · cases he

/-! ## Raw texts -/

/-- A raw text is entered at a path where only mappings stand on the
way. -/
theorem enterRaw_eq_ok_iff {path : List Text} {raw : Text} (hne : path ≠ []) :
    enterRaw fields path raw = .ok fields'
      ↔ (Value.object fields).Clear (names path)
        ∧ Value.object fields' = (Value.object fields).enter path (.text raw) := by
  induction path generalizing fields fields' with
  | nil => exact absurd rfl hne
  | cons name path ih =>
    cases path with
    | nil =>
      rw [enterRaw]
      exact ok_put_iff
    | cons next path =>
      have hrest : next :: path ≠ [] := List.cons_ne_nil _ _
      rw [enterRaw]
      cases hget : Keyed.get? fields (.text name) with
      | none => exact map_put_eq_ok_iff (by rw [hget]; rfl) (ih hrest)
      | some v =>
        cases v with
        | object inner => exact map_put_eq_ok_iff (by rw [hget]; rfl) (ih hrest)
        | scalar s => exact error_iff_of_blocked hget rfl
        | array items => exact error_iff_of_blocked hget rfl

/-- The values that raw texts stand for. -/
def asTexts (entries : List (List Text × Text)) : List (List Text × Value) :=
  entries.map fun e => (e.1, .text e.2)

theorem entered_of_enterRaws {entries : List (List Text × Text)}
    (hne : ∀ e ∈ entries, e.1 ≠ []) (h : enterRaws fields entries = .ok fields') :
    Entered (.object fields) (asTexts entries) (.object fields') := by
  induction entries generalizing fields with
  | nil =>
    cases h
    exact .nil _
  | cons e rest ih =>
    rw [enterRaws] at h
    split at h
    · cases h
    · rename_i made hmade
      obtain ⟨hclear, hobject⟩ := (enterRaw_eq_ok_iff (hne e List.mem_cons_self)).mp hmade
      have hrest := ih (fun e he => hne e (List.mem_cons_of_mem _ he)) h
      rw [hobject] at hrest
      exact .cons hclear hrest

/-- The nested variables of settings are entered into an empty
mapping. -/
theorem entered_of_nestedVariables {nested : Fields} (h : vars.nestedVariables = .ok nested) :
    Entered (.object []) (asTexts (pathsOf settingsStart vars)) (.object nested) :=
  entered_of_enterRaws (fun _ he => ne_nil_of_mem_pathsOf he) h

theorem mem_asTexts {entries : List (List Text × Text)} {e : List Text × Value}
    (h : e ∈ asTexts entries) : ∃ raw, (e.1, raw) ∈ entries ∧ e.2 = .text raw := by
  obtain ⟨⟨path, raw⟩, hmem, rfl⟩ := List.mem_map.mp h
  exact ⟨raw, hmem, rfl⟩

theorem lastAt_asTexts (path : List Text) (entries : List (List Text × Text)) :
    lastAt path (asTexts entries) = (lastAt path entries).map .text := by
  induction entries with
  | nil => rfl
  | cons e rest ih =>
    change (lastAt path (asTexts rest)).or (if e.1 = path then some (.text e.2) else none) = _
    rw [ih, lastAt]
    cases lastAt path rest with
    | some raw => rfl
    | none => by_cases h : e.1 = path <;> simp [h]

/-! ## Decoded values -/

/-- What a text stands for: the value of the document that it is, or the
text itself if it is none. -/
def StandsFor (raw : Text) (v : Value) : Prop :=
  Json.Document raw v ∨ (∀ w, ¬ Json.Document raw w) ∧ v = .text raw

section Decode

variable [Stack] {routine : Routine} {raw : Text} {v : Value} {fault : Json.Fault}

/-- Decoding a text fails at a limit of the reader alone. -/
theorem decode_eq_error_iff :
    decode routine raw = .error fault ↔ Json.Limit (Stack.room routine) raw fault := by
  unfold decode
  cases hread : Json.readWithin (Stack.room routine) raw with
  | ok v =>
    refine iff_of_false (by simp) fun hlimit => ?_
    cases hread.symm.trans hlimit.read_eq
  | error other =>
    dsimp only
    split
    · rename_i hkind
      refine iff_of_false (by simp) fun hlimit => ?_
      cases hread.symm.trans hlimit.read_eq
      exact hlimit.kind_ne hkind
    · rename_i hkind
      constructor
      · intro h
        cases h
        exact ⟨hread, hkind⟩
      · exact fun hlimit => hread.symm.trans hlimit.read_eq

/-- A text is decoded as what it stands for, unless it meets a limit of the
reader. -/
theorem decode_eq_ok_iff :
    decode routine raw = .ok v ↔ StandsFor raw v ∧ Json.Fits (Stack.room routine) raw := by
  unfold decode
  cases hread : Json.readWithin (Stack.room routine) raw with
  | ok w =>
    obtain ⟨hw, hfits⟩ := Json.readWithin_eq_ok_iff.mp hread
    constructor
    · intro h
      obtain rfl := Except.ok.inj h
      exact ⟨.inl hw, hfits⟩
    · rintro ⟨hv | ⟨hnone, -⟩, -⟩
      · exact hread.symm.trans (Json.readWithin_eq_ok_iff.mpr ⟨hv, hfits⟩)
      · exact absurd hw (hnone w)
  | error fault =>
    dsimp only
    split
    · rename_i hkind
      obtain ⟨hnone, hfits⟩ := Json.exists_grammar_iff.mp ⟨fault, hread, hkind⟩
      constructor
      · intro h
        obtain rfl := Except.ok.inj h
        exact ⟨.inr ⟨hnone, rfl⟩, hfits⟩
      · rintro ⟨hv | ⟨-, rfl⟩, -⟩
        · exact absurd hv (hnone v)
        · rfl
    · rename_i hlimit
      exact iff_of_false (by simp) fun h => h.2 fault ⟨hread, hlimit⟩

theorem exists_decode_of_fits (h : Json.Fits (Stack.room routine) raw) :
    ∃ v, decode routine raw = .ok v := by
  cases hdecode : decode routine raw with
  | ok v => exact ⟨v, rfl⟩
  | error fault => exact absurd (decode_eq_error_iff.mp hdecode) (h fault)

end Decode

variable [Stack]

/-- Why a variable is not entered: its text meets a limit of the reader,
or a value that is no object is in the way. -/
inductive Refusal (policies : Fields) (e : List Text × Text) : Failure → Prop
  | limit {fault : Json.Fault} (hlimit : Json.Limit (Stack.room .readPolicy) e.2 fault) :
      Refusal policies e (.json fault)
  | crossing {k : Nat} (hfits : Json.Fits (Stack.room .readPolicy) e.2)
      (hblocked : (Value.object policies).Blocked e.1 k) : Refusal policies e (.crossing ⟨e.1, k⟩)

section Entries

variable {e : List Text × Text} {entries before after : List (List Text × Text)}
  {failure : Failure}

/-- One variable entered. -/
def enterVariable (policies : Fields) (e : List Text × Text) : Except Failure Fields :=
  (decode .readPolicy e.2).mapError .json >>= fun v => (setPath policies e.1 v).mapError .crossing

theorem enterVariable_eq_error_iff :
    enterVariable fields e = .error failure ↔ Refusal fields e failure := by
  rw [enterVariable, bind_eq_error_iff]
  constructor
  · rintro (hdecode | ⟨v, hdecode, hset⟩)
    · obtain ⟨fault, hfault, rfl⟩ := mapError_eq_error_iff.mp hdecode
      exact .limit (decode_eq_error_iff.mp hfault)
    · obtain ⟨c, hc, rfl⟩ := mapError_eq_error_iff.mp hset
      obtain ⟨k, hblocked, rfl⟩ := setPath_eq_error_iff.mp hc
      exact .crossing (decode_eq_ok_iff.mp (mapError_eq_ok_iff.mp hdecode)).2 hblocked
  · rintro (hlimit | ⟨hfits, hblocked⟩)
    · exact .inl (mapError_eq_error_iff.mpr ⟨_, decode_eq_error_iff.mpr hlimit, rfl⟩)
    · obtain ⟨v, hdecode⟩ := exists_decode_of_fits hfits
      refine .inr ⟨v, mapError_eq_ok_iff.mpr hdecode, mapError_eq_error_iff.mpr ⟨_, ?_, rfl⟩⟩
      exact setPath_eq_error_iff.mpr ⟨_, hblocked, rfl⟩

theorem enterDecoded_cons (fields : Fields) (e : List Text × Text)
    (rest : List (List Text × Text)) :
    enterDecoded fields (e :: rest)
      = enterVariable fields e >>= fun made => enterDecoded made rest := by
  rw [enterDecoded, enterVariable]
  cases decode .readPolicy e.2 with
  | error fault => rfl
  | ok v =>
    dsimp only [Except.mapError, bind, Except.bind]
    cases setPath fields e.1 v <;> rfl

theorem enterDecoded_append (fields : Fields) (before after : List (List Text × Text)) :
    enterDecoded fields (before ++ after)
      = enterDecoded fields before >>= fun made => enterDecoded made after := by
  induction before generalizing fields with
  | nil => rfl
  | cons e before ih =>
    rw [List.cons_append, enterDecoded_cons, enterDecoded_cons]
    cases enterVariable fields e with
    | error failure => rfl
    | ok made => exact ih made

/-- Variables are entered up to the first one that is refused. -/
theorem enterDecoded_eq_error_iff :
    enterDecoded fields entries = .error failure
      ↔ ∃ before e after made, entries = before ++ e :: after
        ∧ enterDecoded fields before = .ok made ∧ Refusal made e failure := by
  induction entries generalizing fields with
  | nil => simp [enterDecoded]
  | cons e rest ih =>
    rw [enterDecoded_cons, bind_eq_error_iff, enterVariable_eq_error_iff]
    constructor
    · rintro (hrefusal | ⟨made, hmade, hrest⟩)
      · exact ⟨[], e, rest, fields, rfl, rfl, hrefusal⟩
      · obtain ⟨before, d, after, reached, rfl, hbefore, hd⟩ := ih.mp hrest
        refine ⟨e :: before, d, after, reached, rfl, ?_, hd⟩
        rw [enterDecoded_cons, hmade]
        exact hbefore
    · rintro ⟨before, d, after, reached, heq, hbefore, hd⟩
      cases before with
      | nil =>
        cases heq
        cases hbefore
        exact .inl hd
      | cons first before =>
        cases heq
        rw [enterDecoded_cons] at hbefore
        obtain ⟨made, hmade, hbefore⟩ := bind_eq_ok_iff.mp hbefore
        exact .inr ⟨made, hmade, ih.mpr ⟨before, d, after, reached, rfl, hbefore, hd⟩⟩

end Entries

/-- The entries with the values that their texts hold. -/
def Decoded (entries : List (List Text × Text)) (decoded : List (List Text × Value)) : Prop :=
  List.Forall₂ (fun e d => d.1 = e.1 ∧ decode .readPolicy e.2 = .ok d.2) entries decoded

theorem entered_of_enterDecoded {entries : List (List Text × Text)}
    (hne : ∀ e ∈ entries, e.1 ≠ []) (h : enterDecoded fields entries = .ok fields') :
    ∃ decoded, Decoded entries decoded ∧ Entered (.object fields) decoded (.object fields') := by
  induction entries generalizing fields with
  | nil =>
    cases h
    exact ⟨[], .nil, .nil _⟩
  | cons e rest ih =>
    rw [enterDecoded] at h
    split at h
    · cases h
    · rename_i v hv
      split at h
      · cases h
      · rename_i made hmade
        obtain ⟨hclear, hobject⟩ := (setPath_eq_ok_iff (hne e List.mem_cons_self)).mp hmade
        obtain ⟨decoded, hdecoded, hrest⟩ := ih (fun e he => hne e (List.mem_cons_of_mem _ he)) h
        rw [hobject] at hrest
        exact ⟨(e.1, v) :: decoded, .cons ⟨rfl, hv⟩ hdecoded, .cons hclear hrest⟩

/-- One variable entered into the mapping at a place of a heap. -/
def plantVariable (h : Heap) (root : Nat) (e : List Text × Text) : Except Failure Heap :=
  (decode .readPolicy e.2).mapError .json >>= fun v =>
    ((h.plant v).1.enter root e.1 (h.plant v).2).mapError .crossing

theorem enterPlanted_cons (h : Heap) (root : Nat) (e : List Text × Text)
    (rest : List (List Text × Text)) :
    enterPlanted h root (e :: rest)
      = plantVariable h root e >>= fun made => enterPlanted made root rest := by
  rw [enterPlanted, plantVariable]
  cases decode .readPolicy e.2 with
  | error fault => rfl
  | ok v =>
    dsimp only [Except.mapError, bind, Except.bind]
    cases (h.plant v).1.enter root e.1 (h.plant v).2 <;> rfl

/-- In a heap the policy variables are entered one after the other as
well. -/
theorem grafted_of_enterPlanted {entries : List (List Text × Text)} {h h' : Heap} {root : Nat}
    (hrun : enterPlanted h root entries = .ok h') :
    ∃ decoded, Decoded entries decoded ∧ Heap.Grafted root h decoded h' := by
  induction entries generalizing h with
  | nil =>
    cases hrun
    exact ⟨[], .nil, .nil _⟩
  | cons e rest ih =>
    rw [enterPlanted_cons] at hrun
    obtain ⟨made, hmade, hrun⟩ := bind_eq_ok_iff.mp hrun
    obtain ⟨v, hv, hmade⟩ := bind_eq_ok_iff.mp hmade
    obtain ⟨decoded, hdecoded, hrest⟩ := ih hrun
    exact ⟨(e.1, v) :: decoded, .cons ⟨rfl, mapError_eq_ok_iff.mp hv⟩ hdecoded,
      .cons (mapError_eq_ok_iff.mp hmade) hrest⟩

theorem proper_of_decode {routine : Routine} {raw : Text} {v : Value}
    (h : decode routine raw = .ok v) : v.Proper := by
  unfold decode at h
  split at h
  · rename_i hread
    cases h
    exact Json.proper_of_readWithin hread
  · split at h
    · cases h
      exact .scalar _
    · cases h

/-- Decoded values are proper. -/
theorem Decoded.proper {entries : List (List Text × Text)} {decoded : List (List Text × Value)}
    (h : Decoded entries decoded) : ∀ d ∈ decoded, d.2.Proper := by
  induction h with
  | nil => exact fun _ hd => absurd hd List.not_mem_nil
  | cons hdecode _ ih => exact List.forall_mem_cons.mpr ⟨proper_of_decode hdecode.2, ih⟩

/-- Decoding keeps the paths. -/
theorem Decoded.mem {entries : List (List Text × Text)} {decoded : List (List Text × Value)}
    (h : Decoded entries decoded) {d : List Text × Value} (hd : d ∈ decoded) :
    ∃ raw, (d.1, raw) ∈ entries := by
  induction h with
  | nil => cases hd
  | @cons e d' _ _ hpath _ ih =>
    rcases List.mem_cons.mp hd with rfl | hd
    · exact ⟨e.2, by rw [hpath.1]; exact List.mem_cons_self⟩
    · obtain ⟨raw, hraw⟩ := ih hd
      exact ⟨raw, List.mem_cons_of_mem _ hraw⟩

end Lineage.Variables
