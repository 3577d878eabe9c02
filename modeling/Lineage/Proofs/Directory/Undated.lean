/-
Lineage.Proofs.Directory.Undated — when records were made is shown
nowhere.

The clock gives a creation time to records that name none, and nothing
else of what is loaded.  Views do not show it: records that differ in it
alone (`Group.undated`) are laid out in the same way and look the same,
so stores of such records show the same views (`Redated.display_eq`).
-/
import Lineage.Proofs.Directory.Display
import Lineage.Proofs.Directory.Expiry
import Lineage.Proofs.Directory.Shown
import Lineage.Proofs.Files.Stages
import Lineage.Proofs.Hierarchy.Shape

namespace Lineage

open Schema

/-! ## Records -/

/-- A field that may be left out is accepted whatever its default is. -/
theorem Schema.exists_of_optional {α : Type} {fields : Fields} {name : FieldName} {default : α}
    {check : Value → Except Complaint α} {a : α}
    (h : Schema.optional fields name default check = .ok a) (other : α) :
    ∃ b, Schema.optional fields name other check = .ok b := by
  unfold Schema.optional at h ⊢
  split at h
  · exact ⟨other, rfl⟩
  · exact ⟨a, h⟩

namespace Group

/-- The record without its creation time. -/
def undated (g : Group) : Group :=
  { g with creationMs := 0 }

theorem keepsPlace_undated : KeepsPlace undated where
  shortId _ := rfl
  references _ := rfl

/-- A document that is accepted at one time is accepted at any time, as a
record that differs in its creation time at most. -/
theorem exists_of_check {now : Int} {v : Value} {g : Group} (h : check now v = .ok g)
    (later : Int) : ∃ g', check later v = .ok g' ∧ g'.undated = g.undated := by
  unfold check at h ⊢
  split at h
  · rw [Checked.toExcept_eq_ok_iff, checkFields] at h
    simp only [Checked.seq_eq_ok_iff, Checked.map_eq_ok_iff] at h
    obtain ⟨_, references, ⟨_, deletion, ⟨_, modification, ⟨_, author, ⟨make, creation, hmake,
      hcreation, rfl⟩, hauthor, rfl⟩, hmodification, rfl⟩, hdeletion, rfl⟩, hreferences, rfl⟩ := h
    obtain ⟨creation', hcreation'⟩ := exists_of_optional hcreation later
    refine ⟨make creation' author modification deletion references, ?_, ?_⟩
    · rw [Checked.toExcept_eq_ok_iff, checkFields]
      simp only [Checked.seq_eq_ok_iff, Checked.map_eq_ok_iff]
      exact ⟨_, references, ⟨_, deletion, ⟨_, modification, ⟨_, author, ⟨make, creation', hmake,
        hcreation', rfl⟩, hauthor, rfl⟩, hmodification, rfl⟩, hdeletion, rfl⟩, hreferences, rfl⟩
    · obtain ⟨_, _, ⟨_, _, ⟨_, _, ⟨_, _, ⟨_, _, ⟨_, _, ⟨_, _, ⟨_, -, rfl⟩, -, rfl⟩, -, rfl⟩, -,
        rfl⟩, -, rfl⟩, -, rfl⟩, -, rfl⟩, -, rfl⟩ := hmake
      rfl
  · cases h

end Group

/-! ## Views -/

namespace View

mutual

theorem ofTree?_undated : ∀ t : Tree Group, ofTree? (t.map Group.undated) = ofTree? t
  | .node g path children => by
    rw [Tree.map, ofTree?, ofTree?, ofTrees_undated children]
    rfl

theorem ofTrees_undated : ∀ ts : List (Tree Group),
    ofTrees (Tree.mapAll Group.undated ts) = ofTrees ts
  | [] => rfl
  | t :: rest => by
    rw [Tree.mapAll, ofTrees, ofTrees, ofTree?_undated t, ofTrees_undated rest]

end

/-- Collections look the same without creation times. -/
theorem ofCollection_undated (c : Collection Group) :
    ofCollection (c.map Group.undated) = ofCollection c := by
  unfold ofCollection
  rw [Collection.hierarchy_map Group.keepsPlace_undated]
  cases c.hierarchy with
  | error fault => rfl
  | ok t =>
    have hid : (t.map Group.undated).shortId = t.shortId := by
      cases t
      rfl
    have hview : ofTree (t.map Group.undated) = ofTree t := by
      rw [ofTree, ofTree, ofTree?_undated, hid]
    dsimp only [Except.map]
    rw [hview]

end View

/-! ## Stores -/

namespace Directory

variable {d d' : Directory} {head : Text}

/-- A table of records without their creation times. -/
def undatedRecords (records : Keyed Text Group) : Keyed Text Group :=
  records.map fun r => (r.1, r.2.undated)

theorem get?_undatedRecords (records : Keyed Text Group) (x : Text) :
    (undatedRecords records).get? x = (records.get? x).map Group.undated := by
  induction records with
  | nil => rfl
  | cons r rest ih =>
    change (if r.1 == x then some r.2.undated else (undatedRecords rest).get? x) = _
    rw [ih, Keyed.get?, apply_ite (Option.map Group.undated)]
    rfl

theorem undatedRecords_put (records : Keyed Text Group) (x : Text) (g : Group) :
    undatedRecords (records.put x g) = (undatedRecords records).put x g.undated := by
  induction records with
  | nil => rfl
  | cons r rest ih =>
    change undatedRecords (if r.1 == x then (r.1, g) :: rest else (r.1, r.2) :: Keyed.put rest x g)
      = if r.1 == x then (r.1, g.undated) :: undatedRecords rest
        else (r.1, r.2.undated) :: (undatedRecords rest).put x g.undated
    rw [apply_ite undatedRecords, ← ih]
    rfl

theorem values_undatedRecords (records : Keyed Text Group) :
    (undatedRecords records).values = records.values.map Group.undated := by
  unfold undatedRecords Keyed.values
  rw [List.map_map, List.map_map]
  rfl

/-- The two stores have the same policy and the same records in the same
order, but for their creation times. -/
structure Redated (d d' : Directory) : Prop where
  policy : d'.policy = d.policy
  records : undatedRecords d'.records = undatedRecords d.records

namespace Redated

theorem upsert (h : Redated d d') {g g' : Group} (hg : g'.undated = g.undated) :
    Redated (d.upsert g) (d'.upsert g') := by
  have hvirtual : g'.virtual = g.virtual :=
    show g'.undated.virtual = g.undated.virtual from congrArg Group.virtual hg
  have hid : g'.shortId = g.shortId :=
    show g'.undated.shortId = g.undated.shortId from congrArg Group.shortId hg
  refine ⟨by rw [policy_upsert, policy_upsert, h.policy], ?_⟩
  cases hv : g.virtual with
  | true => rw [upsert_of_virtual hv, upsert_of_virtual (hvirtual.trans hv), h.records]
  | false =>
    rw [upsert_eq hv, upsert_eq (hvirtual.trans hv)]
    dsimp only
    rw [undatedRecords_put, undatedRecords_put, h.records, hg, hid]

theorem upsertAll {gs gs' : List Group}
    (hgs : List.Forall₂ (fun g g' => g'.undated = g.undated) gs gs') (h : Redated d d') :
    Redated (d.upsertAll gs) (d'.upsertAll gs') := by
  induction hgs generalizing d d' with
  | nil => exact h
  | cons hg _ ih => exact ih (h.upsert hg)

theorem membersOf_eq (h : Redated d d') (hc : Consistent d) (hc' : Consistent d') (head : Text) :
    (d'.membersOf head).map Group.undated = (d.membersOf head).map Group.undated := by
  have hvalues : d'.records.values.map Group.undated = d.records.values.map Group.undated := by
    rw [← values_undatedRecords, ← values_undatedRecords, h.records]
  have hkeep : (fun g => decide (head ∈ headsOf g)) ∘ Group.undated
      = fun g => decide (head ∈ headsOf g) := rfl
  have hfilter := congrArg (List.filter fun g => decide (head ∈ headsOf g)) hvalues
  rw [List.filter_map, List.filter_map, hkeep] at hfilter
  rw [hc'.membersOf_eq, hc.membersOf_eq, hfilter]

/-- The stores build the same collections, but for creation times. -/
theorem buildCollection_eq (h : Redated d d') (hc : Consistent d) (hc' : Consistent d')
    {c : Collection Group} (hbuild : d.buildCollection head = .ok c) :
    ∃ c', d'.buildCollection head = .ok c' ∧ c'.map Group.undated = c.map Group.undated := by
  obtain ⟨g, hg, rfl⟩ := hc.buildCollection_eq_ok_iff.mp hbuild
  have hget : (d'.records.get? head).map Group.undated = some g.undated := by
    rw [← get?_undatedRecords, h.records, get?_undatedRecords, hg]
    rfl
  obtain ⟨g', hg', hundated⟩ := Option.map_eq_some_iff.mp hget
  refine ⟨_, hc'.buildCollection_of_stored hg', ?_⟩
  have hothers : (fun m : Group => decide (m.shortId ≠ head)) ∘ Group.undated
      = fun m => decide (m.shortId ≠ head) := rfl
  have hmembers := congrArg (List.filter fun m : Group => decide (m.shortId ≠ head))
    (h.membersOf_eq hc hc' head)
  rw [List.filter_map, List.filter_map, hothers] at hmembers
  unfold Collection.map
  dsimp only
  rw [hundated, hmembers, h.policy]

theorem displayed_eq (h : Redated d d') (hc : Consistent d) (hc' : Consistent d')
    {acls : List Acl} {v : View} (hv : d.displayed acls head = .ok v) :
    d'.displayed acls head = .ok v := by
  unfold displayed at hv ⊢
  split at hv
  · cases hv
  · rename_i c hbuild
    obtain ⟨c', hbuild', hundated⟩ := h.buildCollection_eq hc hc' hbuild
    have hview : View.ofCollection c' = View.ofCollection c := by
      rw [← View.ofCollection_undated c', hundated, View.ofCollection_undated]
    rw [hbuild']
    dsimp only
    rw [hview]
    exact hv

end Redated

/-- A store that keeps nothing displays no heads, or its policy lets it
serve. -/
theorem Current.serves_of_display (h : Current d) (hempty : d.cache = []) {acls : List Acl}
    {now : Clock} {heads : List Text} {views : List View}
    (hviews : (Directory.display acls now d heads).2 = .ok views) :
    d.policy.Serves ∨ heads = [] := by
  by_contra hnot
  obtain ⟨hserves, hheads⟩ := not_or.mp hnot
  obtain ⟨head, rest, rfl⟩ := List.exists_cons_of_ne_nil hheads
  have hone := hviews
  rw [display_snd] at hone
  obtain ⟨view, hone, -⟩ := bind_eq_ok_iff.mp hone
  obtain ⟨c, -, hbuild, -⟩ := h.exists_of_displayOne hone
  rw [(h.display_overflow_iff _ _ hempty).mpr ⟨hserves, head, rfl, c, hbuild⟩] at hviews
  cases hviews

/-- What a store shows that keeps nothing is shown at any time, also
where the creation times of its records are others. -/
theorem Redated.display_eq (h : Redated d d') (hc : Consistent d) (hc' : Consistent d')
    (hcurrent : Current d) (hcurrent' : Current d') (hempty : d.cache = []) {acls : List Acl}
    {now : Clock} {heads : List Text} {views : List View}
    (hviews : (Directory.display acls now d heads).2 = .ok views) (later : Clock) :
    (Directory.display acls later d' heads).2 = .ok views := by
  rcases hcurrent.serves_of_display hempty hviews with hserves | rfl
  · rw [hcurrent.display_of_serves hserves, mapM_eq_ok_iff] at hviews
    rw [hcurrent'.display_of_serves (h.policy ▸ hserves), mapM_eq_ok_iff]
    exact hviews.imp fun _ _ hv => h.displayed_eq hc hc' hv
  · exact hviews

end Directory

/-! ## Files of records -/

namespace Files

variable [Stack] {f : Files} {p : Path}

/-- The records of two loads differ in their creation times at most. -/
abbrev RedatedRecords : List Group → List Group → Prop :=
  List.Forall₂ fun g g' => g'.undated = g.undated

theorem exists_of_readLines_check {now : Int} {number : Nat} {lines : List (List Char)}
    {gs : List Group} (h : readLines .readGroup (Group.check now) p number lines = .ok gs)
    (later : Int) : ∃ gs', readLines .readGroup (Group.check later) p number lines = .ok gs'
      ∧ RedatedRecords gs gs' := by
  induction lines generalizing number gs with
  | nil =>
    cases h
    exact ⟨[], rfl, .nil⟩
  | cons line rest ih =>
    cases hblank : line.all Text.isBlank with
    | true =>
      rw [readLines_cons_of_blank hblank] at h ⊢
      exact ih h
    | false =>
      obtain ⟨v, g, more, hread, hcheck, hmore, rfl⟩ := (readLines_cons_eq_ok_iff hblank).mp h
      obtain ⟨g', hg', hundated⟩ := Group.exists_of_check hcheck later
      obtain ⟨more', hmore', hrest⟩ := ih hmore
      exact ⟨g' :: more', (readLines_cons_eq_ok_iff hblank).mpr ⟨v, g', more', hread, hg', hmore',
        rfl⟩, .cons hundated hrest⟩

theorem exists_of_loadGroupsOf {now : Int} {gs : List Group} (h : f.loadGroupsOf now p = .ok gs)
    (later : Int) : ∃ gs', f.loadGroupsOf later p = .ok gs' ∧ RedatedRecords gs gs' := by
  obtain ⟨hthere, bytes, hbytes, hlines, hfault⟩ := loadGroupsOf_eq_ok_iff.mp h
  obtain ⟨gs', hgs', hredated⟩ := exists_of_readLines_check hlines later
  exact ⟨gs', loadGroupsOf_eq_ok_iff.mpr ⟨hthere, bytes, hbytes, hgs', hfault⟩, hredated⟩

/-- What can be loaded at one time can be loaded at any time. -/
theorem exists_of_loadGroups_later {now : Int} {ps : List Path} {gs : List Group}
    (h : f.loadGroups now ps = .ok gs) (later : Int) :
    ∃ gs', f.loadGroups later ps = .ok gs' ∧ RedatedRecords gs gs' := by
  induction ps generalizing gs with
  | nil =>
    cases h
    exact ⟨[], rfl, .nil⟩
  | cons p rest ih =>
    obtain ⟨groups, hgroups, more, hmore, rfl⟩ := loadGroups_cons_eq_ok_iff.mp h
    obtain ⟨groups', hgroups', hfirst⟩ := exists_of_loadGroupsOf hgroups later
    obtain ⟨more', hmore', hrest⟩ := ih hmore
    exact ⟨groups' ++ more', loadGroups_cons_eq_ok_iff.mpr ⟨groups', hgroups', more', hmore', rfl⟩,
      List.rel_append hfirst hrest⟩

end Files

end Lineage
