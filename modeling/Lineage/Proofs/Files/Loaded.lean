/-
Lineage.Proofs.Files.Loaded — what is loaded from files.

A record that was loaded passed its check as the document of some line,
and an annotation as one of the documents of its file
(`exists_of_loadGroups`, `exists_of_loadAcls`).  Those documents consist
of characters, so their texts are unpaired, and what the checks make of a
text is a part of it.  So all texts that records and annotations bring to
a view are unpaired (`unpaired_of_loadGroups`, `unpaired_of_loadAcls`).
-/
import Lineage.Proofs.Files.Stages
import Lineage.Proofs.Group.RoundTrip
import Lineage.Proofs.Json.Texts

namespace Lineage

open Json (Unpaired)

/-! ## Parts of a text -/

/-- What is left of a list that was trimmed is a part of it. -/
theorem Text.trimWhere_infix {α : Type} (class? : α → Bool) (xs : List α) :
    trimWhere class? xs <:+: xs := by
  have hstart : xs.dropWhile class? <:+: xs := (List.dropWhile_suffix _).isInfix
  have hend : trimWhere class? xs <+: xs.dropWhile class? := List.rdropWhile_prefix class? _
  exact hend.isInfix.trans hstart

theorem Json.Unpaired.of_isInfix {t u : Text} (h : Unpaired t) (hu : u <:+: t) : Unpaired u :=
  List.IsChain.infix h hu

namespace Schema

/-! ## Lists of ids -/

/-- The mentioned texts are texts of the values. -/
theorem unpaired_of_mentions {vs : List Value} {ids : List Text}
    (hvs : ∀ v ∈ vs, v.AllTexts Unpaired) (h : mentions vs = .ok ids) :
    ∀ t ∈ ids, Unpaired t := by
  fun_induction mentions vs generalizing ids with
  | case1 =>
    obtain rfl := Except.ok.inj h
    exact fun t ht => absurd ht List.not_mem_nil
  | case2 rest ih => exact ih (fun v hv => hvs v (List.mem_cons_of_mem _ hv)) h
  | case3 t rest ih =>
    obtain ⟨more, hmore, rfl⟩ := Lineage.map_eq_ok_iff.mp h
    exact List.forall_mem_cons.mpr ⟨Value.AllTexts.text_iff.mp (hvs _ List.mem_cons_self),
      ih (fun v hv => hvs v (List.mem_cons_of_mem _ hv)) hmore⟩
  | case4 => cases h

theorem unpaired_of_checkMentions {vs : List Value} {ids : List Text}
    (hvs : ∀ v ∈ vs, v.AllTexts Unpaired) (h : checkMentions vs = .ok ids) :
    ∀ t ∈ ids, Unpaired t := by
  unfold checkMentions at h
  split at h
  · cases h
  · rename_i mentioned hmentions
    obtain rfl := Checked.ok.inj h
    intro t ht
    obtain ⟨-, s, hs, rfl⟩ := mem_uniqueIds.mp ht
    exact (unpaired_of_mentions hvs hmentions s hs).of_isInfix (Text.trimWhere_infix _ s)

/-- Roles are parts of the texts that spell them. -/
theorem unpaired_of_checkRoles {v : Value} {roles : List Text} (hv : v.AllTexts Unpaired)
    (h : checkRoles v = .ok roles) : ∀ r ∈ roles, Unpaired r := by
  unfold checkRoles at h
  split at h
  · obtain rfl := Checked.ok.inj h
    exact fun r hr => absurd hr List.not_mem_nil
  · -- the characters of a text
    refine unpaired_of_checkMentions (fun v hv => ?_) h
    obtain ⟨p, -, rfl⟩ := List.mem_map.mp hv
    exact Value.AllTexts.text_iff.mpr (List.isChain_singleton p)
  · exact unpaired_of_checkMentions (Value.AllTexts.array_iff.mp hv) h
  · refine unpaired_of_checkMentions (fun w hw => ?_) h
    obtain ⟨f, hf, rfl⟩ := List.mem_map.mp hw
    exact .scalar fun t ht => hv.name_of_mem hf ht
  · cases h

/-! ## Fields -/

variable {α : Type} {fields : Fields} {name : FieldName} {default a : α}

theorem unpaired_of_find {key : Text} {v : Value}
    (hfields : (Value.object fields).AllTexts Unpaired) (h : name.find fields = some (key, v)) :
    v.AllTexts Unpaired := by
  unfold FieldName.find at h
  split at h
  · rename_i hget
    obtain ⟨-, rfl⟩ := Prod.mk.inj (Option.some.inj h)
    exact hfields.of_get? hget
  · obtain ⟨w, hget, heq⟩ := Option.map_eq_some_iff.mp h
    obtain ⟨-, rfl⟩ := Prod.mk.inj heq
    exact hfields.of_get? hget

/-- What a field holds is its default, or was checked. -/
theorem of_optional {check : Value → Except Complaint α} {P : α → Prop}
    (hfields : (Value.object fields).AllTexts Unpaired)
    (h : Schema.optional fields name default check = .ok a) (hdefault : P default)
    (hcheck : ∀ v, v.AllTexts Unpaired → check v = .ok a → P a) : P a := by
  unfold Schema.optional at h
  split at h
  · exact Checked.ok.inj h ▸ hdefault
  · rename_i hfind
    exact hcheck _ (unpaired_of_find hfields hfind) (Checked.ofExcept_eq_ok_iff.mp h)

theorem of_required {check : Value → Except Complaint α} {P : α → Prop}
    (hfields : (Value.object fields).AllTexts Unpaired)
    (h : required fields name check = .ok a)
    (hcheck : ∀ v, v.AllTexts Unpaired → check v = .ok a → P a) : P a := by
  unfold required at h
  split at h
  · cases h
  · rename_i hfind
    exact hcheck _ (unpaired_of_find hfields hfind) (Checked.ofExcept_eq_ok_iff.mp h)

theorem of_optionalChecked {check : Value → Checked α} {P : α → Prop}
    (hfields : (Value.object fields).AllTexts Unpaired)
    (h : optionalChecked fields name default check = .ok a) (hdefault : P default)
    (hcheck : ∀ v, v.AllTexts Unpaired → check v = .ok a → P a) : P a := by
  unfold optionalChecked at h
  split at h
  · exact Checked.ok.inj h ▸ hdefault
  · rename_i hfind
    exact hcheck _ (unpaired_of_find hfields hfind) (Checked.below_eq_ok_iff.mp h)

theorem unpaired_of_checkText {least : Nat} {v : Value} {t : Text} (hv : v.AllTexts Unpaired)
    (h : checkText least v = .ok t) : Unpaired t := by
  rw [eq_of_checkText h] at hv
  exact Value.AllTexts.text_iff.mp hv

end Schema

/-! ## Records -/

open Schema

/-- The texts of the record that a view shows are unpaired. -/
structure Group.Unpaired (g : Group) : Prop where
  shortId : Json.Unpaired g.shortId
  name : Json.Unpaired g.name
  description : Json.Unpaired g.description

/-- The texts of the annotation are unpaired. -/
structure Acl.Unpaired (a : Acl) : Prop where
  localName : ∀ t ∈ a.localName, Json.Unpaired t
  roles : ∀ r ∈ a.roles, Json.Unpaired r

theorem Group.unpaired_of_check {now : Int} {v : Value} {g : Group} (hv : v.AllTexts Json.Unpaired)
    (h : check now v = .ok g) : g.Unpaired := by
  unfold check at h
  split at h
  · rename_i fields
    rw [Checked.toExcept_eq_ok_iff, checkFields] at h
    simp only [Checked.seq_eq_ok_iff, Checked.map_eq_ok_iff] at h
    -- Of the thirteen fields the second, the fourth and the fifth are texts of a view.
    obtain ⟨_, _, ⟨_, _, ⟨_, _, ⟨_, _, ⟨_, _, ⟨_, _, ⟨_, _, ⟨_, _, ⟨_, description, ⟨_, name, ⟨_, _,
      ⟨_, shortId, ⟨_, _, rfl⟩, hshortId, rfl⟩, -, rfl⟩, hname, rfl⟩, hdescription, rfl⟩, -, rfl⟩,
      -, rfl⟩, -, rfl⟩, -, rfl⟩, -, rfl⟩, -, rfl⟩, -, rfl⟩, -, rfl⟩ := h
    refine ⟨of_required hv hshortId fun v hv h => ?_,
      of_optional hv hname (Json.unpaired_ofChars _) fun _ => unpaired_of_checkText,
      of_optional hv hdescription (Json.unpaired_ofChars _) fun _ => unpaired_of_checkText⟩
    unfold checkShortId at h
    split at h
    · cases h
    · rename_i s hs
      dsimp only at h
      split_ifs at h
      rw [← Except.ok.inj h]
      exact (unpaired_of_checkText hv hs).of_isInfix (Text.trimWhere_infix _ s)
  · cases h

theorem Acl.unpaired_of_check {v : Value} {a : Acl} (hv : v.AllTexts Json.Unpaired)
    (h : check v = .ok a) : a.Unpaired := by
  unfold check at h
  split at h
  · rename_i fields
    rw [Checked.toExcept_eq_ok_iff, checkFields] at h
    simp only [Checked.seq_eq_ok_iff, Checked.map_eq_ok_iff] at h
    obtain ⟨_, roles, ⟨_, localName, ⟨_, _, rfl⟩, hlocal, rfl⟩, hroles, rfl⟩ := h
    refine ⟨of_optional (P := fun n : Option Text => ∀ t ∈ n, Json.Unpaired t) hv hlocal nofun
        fun v hv h => ?_,
      of_optionalChecked (P := fun rs : List Text => ∀ r ∈ rs, Json.Unpaired r) hv hroles
        (fun _ hr => absurd hr List.not_mem_nil) fun _ => unpaired_of_checkRoles⟩
    unfold checkTextOrNull at h
    split at h
    · rw [← Except.ok.inj h]
      exact nofun
    · obtain ⟨t, ht, rfl⟩ := map_eq_ok_iff.mp h
      intro u hu
      rw [← Option.some.inj hu]
      exact unpaired_of_checkText hv ht
  · cases h

/-! ## Files -/

namespace Files

theorem exists_of_checkAcls {vs : List Value} {acls : List Acl} (h : checkAcls vs = .ok acls) :
    ∀ a ∈ acls, ∃ v ∈ vs, Acl.check v = .ok a := by
  induction vs generalizing acls with
  | nil =>
    obtain rfl := Except.ok.inj h
    exact fun a ha => absurd ha List.not_mem_nil
  | cons v rest ih =>
    obtain ⟨a, hcheck, more, hmore, rfl⟩ := checkAcls_cons_eq_ok_iff.mp h
    refine List.forall_mem_cons.mpr ⟨⟨v, List.mem_cons_self, hcheck⟩, fun b hb => ?_⟩
    obtain ⟨w, hw, hb⟩ := ih hmore b hb
    exact ⟨w, List.mem_cons_of_mem _ hw, hb⟩

variable [Stack] {f : Files} {p : Path}

/-- What was read from the lines of a file are checked documents. -/
theorem exists_of_readLines {α : Type} {routine : Routine} {check : Value → Except Rejection α}
    {number : Nat} {lines : List (List Char)} {as : List α}
    (h : readLines routine check p number lines = .ok as) :
    ∀ a ∈ as, ∃ cs v, Json.readWithin (Stack.room routine) (.ofChars cs) = .ok v
      ∧ check v = .ok a := by
  induction lines generalizing number as with
  | nil =>
    obtain rfl := Except.ok.inj h
    exact fun a ha => absurd ha List.not_mem_nil
  | cons line rest ih =>
    cases hblank : line.all Text.isBlank with
    | true => exact ih (readLines_cons_of_blank hblank ▸ h)
    | false =>
      obtain ⟨v, a, more, hread, hcheck, hmore, rfl⟩ := (readLines_cons_eq_ok_iff hblank).mp h
      exact List.forall_mem_cons.mpr ⟨⟨line, v, hread, hcheck⟩, ih hmore⟩

/-- A record that was loaded is a document of its file that passed the
check. -/
theorem exists_of_loadGroups {now : Int} {ps : List Path} {gs : List Group}
    (h : f.loadGroups now ps = .ok gs) :
    ∀ g ∈ gs, ∃ cs v, Json.readWithin (Stack.room .readGroup) (.ofChars cs) = .ok v
      ∧ Group.check now v = .ok g := by
  induction ps generalizing gs with
  | nil =>
    obtain rfl := Except.ok.inj h
    exact fun g hg => absurd hg List.not_mem_nil
  | cons p rest ih =>
    obtain ⟨groups, hgroups, more, hmore, rfl⟩ := loadGroups_cons_eq_ok_iff.mp h
    obtain ⟨-, bytes, -, hlines, -⟩ := loadGroupsOf_eq_ok_iff.mp hgroups
    exact List.forall_mem_append.mpr ⟨exists_of_readLines hlines, ih hmore⟩

/-- An annotation that was loaded is a document of its file, or an item
of one, that passed the check. -/
theorem exists_of_loadAcls {acls : List Acl} (h : f.loadAcls p = .ok acls) :
    ∀ a ∈ acls, ∃ cs room v w, Json.readWithin room (.ofChars cs) = .ok v
      ∧ (w ∈ partsOf v ∨ w = v) ∧ Acl.check w = .ok a := by
  unfold loadAcls at h
  split at h
  · cases h
  · cases h
  · split at h
    · cases h
    · dsimp only at h
      split at h
      · split at h
        · cases h
        · rename_i v hread
          intro a ha
          obtain ⟨w, hw, hcheck⟩ := exists_of_checkAcls h a ha
          exact ⟨_, _, v, w, hread, .inl hw, hcheck⟩
      · split at h
        · cases h
        · rename_i vs hlines
          intro a ha
          obtain ⟨w, hw, hcheck⟩ := exists_of_checkAcls h a ha
          obtain ⟨cs, v, hread, heq⟩ := exists_of_readLines hlines w hw
          obtain rfl := Except.ok.inj heq
          exact ⟨cs, _, _, _, hread, .inr rfl, hcheck⟩

theorem unpaired_of_loadGroups {now : Int} {ps : List Path} {gs : List Group}
    (h : f.loadGroups now ps = .ok gs) : ∀ g ∈ gs, g.Unpaired := by
  intro g hg
  obtain ⟨cs, v, hread, hcheck⟩ := exists_of_loadGroups h g hg
  exact Group.unpaired_of_check (Json.allTexts_of_readWithin hread) hcheck

theorem unpaired_of_loadAcls {acls : List Acl} (h : f.loadAcls p = .ok acls) :
    ∀ a ∈ acls, a.Unpaired := by
  intro a ha
  obtain ⟨cs, room, v, w, hread, hw, hcheck⟩ := exists_of_loadAcls h a ha
  have hv := Json.allTexts_of_readWithin hread
  refine Acl.unpaired_of_check ?_ hcheck
  rcases hw with hw | rfl
  · unfold partsOf at hw
    split at hw
    · exact Value.AllTexts.array_iff.mp hv w hw
    · rw [List.mem_singleton.mp hw]
      exact hv
  · exact hv

end Files

end Lineage
