/-
Lineage.Proofs.Directory.Layered — stores whose references are an order.

A store is `Layered` if its references close no loop and a group lists
whatever stored group a group that it lists does.  Listed short ids that
are not stored are free.  Every collection built from a layered store is
ordered (`Layered.ordered`), so what is known of the hierarchies of
ordered collections holds of all hierarchies of the store.  Attaching a
group that no stored group lists keeps a store layered
(`Layered.upsert_attachedTo`): what the group inherits is closed, and
nothing inherits it.
-/
import Lineage.Proofs.Directory.Ancestry
import Lineage.Proofs.Directory.Display
import Lineage.Proofs.Directory.Effects
import Lineage.Proofs.Directory.History
import Lineage.Proofs.Hierarchy.Covering

namespace Lineage

/-! ## Tidy records -/

namespace Group

theorem Tidy.attachedTo {c : Group} (h : c.Tidy) (p : Group) (now : Int) :
    (c.attachedTo p now).Tidy :=
  ⟨h.shortId, fun _ hs => Schema.tidy_of_mem_uniqueIds hs⟩

theorem Tidy.deactivated {g : Group} (h : g.Tidy) (now : Int) : (g.deactivated now).Tidy :=
  ⟨h.shortId, h.references⟩

end Group

namespace Directory

variable {d : Directory} {x head child parent : Text} {c p : Group} {now limit : Int}

/-- The stored records are tidy if all records that were handed in are. -/
theorem tidy_run (policy : GroupPolicy) {calls : List Call}
    (hcalls : ∀ g, Call.upsert g ∈ calls → g.Tidy) {x : Text} {g : Group}
    (hg : (run policy calls).records.get? x = some g) : g.Tidy :=
  stored_run (fun _ p now hc _ => hc.attachedTo p now) (fun _ now hg => hg.deactivated now) policy
    hcalls x g hg

/-! ## What is stored and what is listed -/

theorem has_iff : d.has x = true ↔ ∃ g, d.records.get? x = some g :=
  Option.isSome_iff_exists

theorem has_eq_false_iff : d.has x = false ↔ d.records.get? x = none := by
  simp [Directory.has, Keyed.has]

theorem has_upsert_iff {g : Group} (hv : g.virtual = false) :
    (d.upsert g).has x = true ↔ g.shortId = x ∨ d.has x = true := by
  rw [has_iff, has_iff, get?_records_upsert hv]
  by_cases hx : g.shortId = x
  · simp [hx]
  · simp [hx]

theorem storedLists_iff {y : Text} {refs : List Text}
    (h : (d.records.get? x).map Group.references = some refs) : d.StoredLists x y ↔ y ∈ refs := by
  obtain ⟨g, hg, rfl⟩ := Option.map_eq_some_iff.mp h
  simp [StoredLists, hg]

/-- No stored group lists the short id. -/
def Unlisted (d : Directory) (x : Text) : Prop :=
  ∀ g ∈ d.records.values, x ∉ g.references

instance (d : Directory) (x : Text) : Decidable (d.Unlisted x) :=
  inferInstanceAs (Decidable (∀ g ∈ d.records.values, x ∉ g.references))

theorem Consistent.unlisted_iff (hc : Consistent d) :
    d.Unlisted x ↔ ∀ y, ¬ d.StoredLists y x := by
  constructor
  · rintro h y ⟨g, hg, hmem⟩
    have hvalue : g ∈ d.records.values := by
      rw [hc.mem_values_iff, hc.shortId_of_get? hg, hg]
    exact h g hvalue hmem
  · intro h g hg hmem
    exact h g.shortId ⟨g, hc.mem_values_iff.mp hg, hmem⟩

/-! ## Layered stores -/

/-- References close no loop, and among stored groups they are transitively
closed. -/
structure Layered (d : Directory) : Prop where
  loopFree : LoopFree d
  closed : ∀ {a b e}, d.StoredLists a b → d.StoredLists b e → d.has e = true → d.StoredLists a e

/-- The members of a collection that is built are the stored groups that
are its head or list it. -/
theorem Consistent.mem_members_iff (hc : Consistent d) {col : Collection Group}
    (hbuild : d.buildCollection head = .ok col) {m : Group} :
    m ∈ col.members ↔ d.records.get? m.shortId = some m ∧ head ∈ headsOf m := by
  obtain ⟨g, hg, rfl⟩ := hc.buildCollection_eq_ok_iff.mp hbuild
  have hid := hc.shortId_of_get? hg
  rw [Collection.members, List.mem_cons, List.mem_filter, hc.mem_membersOf_iff, decide_eq_true_eq]
  constructor
  · rintro (rfl | ⟨hm, -⟩)
    · exact ⟨hid ▸ hg, hid ▸ List.mem_cons_self⟩
    · exact hm
  · intro hm
    by_cases heq : m.shortId = head
    · rw [heq, hg] at hm
      exact .inl (Option.some.inj hm.1).symm
    · exact .inr ⟨hm, heq⟩

/-- The head of a collection that is built is stored under its short id,
and the other members have other ones, each its own. -/
theorem Consistent.head_and_ids (hc : Consistent d) {col : Collection Group}
    (hbuild : d.buildCollection head = .ok col) :
    col.headElement.shortId = head ∧ (∀ m ∈ col.others, m.shortId ≠ head)
      ∧ (col.members.map Group.shortId).Nodup := by
  obtain ⟨g, hg, rfl⟩ := hc.buildCollection_eq_ok_iff.mp hbuild
  have hid := hc.shortId_of_get? hg
  have hothers : ∀ m ∈ (d.membersOf head).filter fun m => m.shortId ≠ head, m.shortId ≠ head :=
    fun m hm => of_decide_eq_true (List.mem_filter.mp hm).2
  refine ⟨hid, hothers, ?_⟩
  rw [Collection.members, List.map_cons, List.nodup_cons]
  refine ⟨fun hmem => ?_, (hc.nodup_membersOf head).sublist (List.filter_sublist.map _)⟩
  obtain ⟨m, hm, heq⟩ := List.mem_map.mp hmem
  exact hothers m hm (heq.trans hid)

/-- A collection that is built from a layered store is ordered. -/
theorem Layered.ordered (h : Layered d) (hc : Consistent d) {col : Collection Group}
    (hbuild : d.buildCollection head = .ok col) : Collection.Ordered col := by
  obtain ⟨hhead, hothers, hids⟩ := hc.head_and_ids hbuild
  have hmem := fun m => hc.mem_members_iff hbuild (m := m)
  have hlists : ∀ m b, col.MemberLists m b → d.StoredLists m.shortId b.shortId := fun m b hm =>
    ⟨m, ((hmem m).mp hm.member).1, hm.lists⟩
  refine ⟨hids, fun m hm => ?_, fun m hm => ?_, fun a b e hab hbe => ?_⟩
  · rcases List.mem_cons.mp ((hmem m).mp (List.mem_cons_of_mem _ hm)).2 with heq | hlisted
    · exact absurd heq.symm (hothers m hm)
    · have hid : Grouped.shortId col.headElement = head := hhead
      rw [Lists, hid]
      exact hlisted
  · exact h.loopFree _ (Relation.TransGen.lift Group.shortId hlists _ _ hm)
  · have hstored := ((hmem a).mp hab.member).1
    obtain ⟨a', ha', hlisted⟩ := h.closed (hlists a b hab) (hlists b e hbe)
      (has_iff.mpr ⟨e, ((hmem e).mp hbe.listed).1⟩)
    rw [hstored] at ha'
    exact Option.some.inj ha' ▸ hlisted

/-! ## Trees -/

/-- The tree of a head, built from the records. -/
def tree (d : Directory) (head : Text) : Except HierarchyFault (Tree Group) := do
  let c ← d.buildCollection head
  c.hierarchy

theorem tree_eq_ok_iff {t : Tree Group} :
    d.tree head = .ok t ↔ ∃ c, d.buildCollection head = .ok c ∧ c.hierarchy = .ok t :=
  bind_eq_ok_iff

theorem nodup_walk_tree {t : Tree Group} (ht : d.tree head = .ok t) :
    (t.walk.map Tree.shortId).Nodup := by
  obtain ⟨c, -, hcol⟩ := tree_eq_ok_iff.mp ht
  exact Collection.nodup_walk_hierarchy hcol

theorem nodup_members_tree {t : Tree Group} (ht : d.tree head = .ok t) :
    (t.walk.map Tree.member).Nodup := by
  refine List.Nodup.of_map Group.shortId ?_
  rw [List.map_map]
  exact nodup_walk_tree ht

/-- The tree of a head in a layered store holds exactly the stored groups
that are the head or list it. -/
theorem Layered.mem_tree_iff (h : Layered d) (hc : Consistent d) {t : Tree Group}
    (ht : d.tree head = .ok t) {m : Group} : m ∈ t.walk.map Tree.member
      ↔ d.records.get? m.shortId = some m ∧ head ∈ headsOf m := by
  obtain ⟨c, hbuild, hcol⟩ := tree_eq_ok_iff.mp ht
  obtain ⟨hempty, rfl⟩ := Collection.hierarchy_eq_ok_iff.mp hcol
  rw [(Collection.perm_walk_members (h.ordered hc hbuild) hempty).mem_iff,
    hc.mem_members_iff hbuild]

theorem Layered.shortId_mem_tree_iff (h : Layered d) (hc : Consistent d) {t : Tree Group}
    (ht : d.tree head = .ok t) (hhead : d.has head = true) {s : Text} :
    s ∈ t.walk.map Tree.shortId ↔ s = head ∨ d.StoredLists s head := by
  have hmem := fun m => h.mem_tree_iff hc ht (m := m)
  constructor
  · intro hs
    obtain ⟨n, hn, rfl⟩ := List.mem_map.mp hs
    obtain ⟨hstored, hlists⟩ := (hmem n.member).mp (List.mem_map_of_mem hn)
    rcases List.mem_cons.mp hlists with heq | hlisted
    · exact .inl heq.symm
    · exact .inr ⟨n.member, hstored, hlisted⟩
  · intro hs
    obtain ⟨m, hm, hlists⟩ : ∃ m, d.records.get? s = some m ∧ head ∈ headsOf m := by
      rcases hs with rfl | ⟨m, hm, hlisted⟩
      · obtain ⟨g, hg⟩ := has_iff.mp hhead
        exact ⟨g, hg, hc.shortId_of_get? hg ▸ List.mem_cons_self⟩
      · exact ⟨m, hm, List.mem_cons_of_mem _ hlisted⟩
    obtain rfl := hc.shortId_of_get? hm
    obtain ⟨n, hn, heq⟩ := List.mem_map.mp ((hmem m).mpr ⟨hm, hlists⟩)
    exact List.mem_map.mpr ⟨n, hn, congrArg Group.shortId heq⟩

/-! ## Attaching a group that nobody lists -/

/-- If nothing leads to `c`, what `c` inherits from `p` is closed if what
was there is. -/
theorem closed_of_inherits {α : Type} {r r' : α → α → Prop} {K : α → Prop} {c p : α}
    (hr : ∀ x y, r' x y ↔ r x y ∨ (x = c ∧ (y = p ∨ r p y))) (hc : ∀ x, ¬ r x c) (hpc : p ≠ c)
    (hclosed : ∀ {x y z}, r x y → r y z → K z → r x z) {x y z : α} (hxy : r' x y) (hyz : r' y z)
    (hz : K z) : r' x z := by
  have hyc : y ≠ c := by
    rintro rfl
    rcases (hr x y).mp hxy with hxy | ⟨-, heq | hpy⟩
    · exact hc x hxy
    · exact hpc heq.symm
    · exact hc p hpy
  have hyz : r y z := ((hr y z).mp hyz).resolve_right fun hnew => hyc hnew.1
  rcases (hr x y).mp hxy with hxy | ⟨hx, rfl | hpy⟩
  · exact (hr x z).mpr (.inl (hclosed hxy hyz hz))
  · exact (hr x z).mpr (.inr ⟨hx, .inr hyz⟩)
  · exact (hr x z).mpr (.inr ⟨hx, .inr (hclosed hpy hyz hz)⟩)

section Attach

variable (hc : Consistent d) (ht : TidyLists d) (hchild : d.records.get? child = some c)
  (hparent : d.records.get? parent = some p) (hok : c.attachFault? p limit = none)
include hc hchild

theorem Consistent.has_upsert_attachedTo_iff :
    (d.upsert (c.attachedTo p now)).has x = true ↔ d.has x = true := by
  rw [has_iff, has_iff, get?_upsert_attachedTo hc hchild]
  by_cases hx : child = x
  · simp [← hx, hchild]
  · simp [hx]

include ht hparent hok

/-- Attaching a group that no stored group lists keeps a store layered. -/
theorem Layered.upsert_attachedTo (h : Layered d) (hu : d.Unlisted child) :
    Layered (d.upsert (c.attachedTo p now)) := by
  have hnone := hc.unlisted_iff.mp hu
  have hne : parent ≠ child := by
    have hne := (attachFault?_eq_none hok).1
    rwa [hc.shortId_of_get? hparent, hc.shortId_of_get? hchild] at hne
  refine ⟨?_, fun {a b e} hab hbe he => ?_⟩
  · rw [loopFree_upsert_attachedTo_iff hc ht hchild hparent hok]
    refine ⟨h.loopFree, fun hleads => ?_⟩
    obtain ⟨y, -, hy⟩ := Relation.TransGen.tail'_iff.mp hleads
    exact hnone y hy
  · rw [hc.has_upsert_attachedTo_iff hchild] at he
    exact closed_of_inherits (fun _ _ => storedLists_upsert_attachedTo hc ht hchild hparent) hnone
      hne h.closed hab hbe he

end Attach

end Directory

end Lineage
