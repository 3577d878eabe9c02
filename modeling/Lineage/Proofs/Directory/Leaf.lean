/-
Lineage.Proofs.Directory.Leaf — attaching a group that nobody lists.

In a layered store a group without references, which no stored group
lists, is attached below a parent.  The group becomes a member of the
hierarchies of the parent and of all that the parent lists, and of no
other one.  Each of these collections without the new member is the one
before (`Attaching.buildCollection_without`), and nothing in it lists the
new member, so its tree is the former one with the group somewhere below
(`Collection.hierarchy_without`).  It stands below the parent itself: the
parent lies between it and everything else that it lists
(`Attaching.exists_leaf`).
-/
import Lineage.Proofs.Directory.Orderly
import Lineage.Proofs.Hierarchy.Pruning

namespace Lineage.Directory

/-- A stored group that lists nothing and is not listed can be attached
below another one in a layered store. -/
structure Attaching (d : Directory) (child parent : Text) (c p : Group) : Prop where
  consistent : Consistent d
  tidy : TidyLists d
  layered : Layered d
  childStored : d.records.get? child = some c
  childListsNothing : c.references = []
  childUnlisted : d.Unlisted child
  parentStored : d.records.get? parent = some p
  accepted : c.attachFault? p d.policy.maxDepth = none

namespace Attaching

variable {d : Directory} {child parent head : Text} {c p m : Group} {now : Int} {t : Tree Group}

/-! ## The records -/

section Records

variable (h : Attaching d child parent c p)
include h

theorem shortId_child : c.shortId = child := h.consistent.shortId_of_get? h.childStored

theorem shortId_parent : p.shortId = parent := h.consistent.shortId_of_get? h.parentStored

theorem parent_ne_child : parent ≠ child := by
  have hne := (attachFault?_eq_none h.accepted).1
  rwa [h.shortId_parent, h.shortId_child] at hne

theorem layered_after : Layered (d.upsert (c.attachedTo p now)) :=
  h.layered.upsert_attachedTo h.consistent h.tidy h.childStored h.parentStored h.accepted
    h.childUnlisted

/-- The group now lists the parent and what the parent lists, and nothing
else. -/
theorem mem_references_iff {s : Text} :
    s ∈ (c.attachedTo p now).references ↔ s = parent ∨ s ∈ p.references := by
  rw [mem_references_attachedTo h.tidy h.childStored h.parentStored h.shortId_parent,
    h.childListsNothing]
  simp

theorem storedLists_parent_iff : d.StoredLists parent head ↔ head ∈ p.references := by
  simp [StoredLists, h.parentStored]

theorem headsOf_child : headsOf c = [child] := by
  rw [headsOf, h.childListsNothing, h.shortId_child]

theorem unlisted_after : (d.upsert (c.attachedTo p now)).Unlisted child := by
  have hnone := h.consistent.unlisted_iff.mp h.childUnlisted
  refine (h.consistent.upsert _).unlisted_iff.mpr fun y hy => ?_
  rcases (storedLists_upsert_attachedTo h.consistent h.tidy h.childStored h.parentStored).mp hy with
    hy | ⟨-, heq | hp⟩
  · exact hnone y hy
  · exact h.parent_ne_child heq.symm
  · exact hnone parent hp

theorem get?_after_of_ne (hne : head ≠ child) :
    (d.upsert (c.attachedTo p now)).records.get? head = d.records.get? head := by
  rw [get?_upsert_attachedTo h.consistent h.childStored, if_neg hne.symm]

theorem get?_after_self : (d.upsert (c.attachedTo p now)).records.get? child
    = some (c.attachedTo p now) := by
  rw [get?_upsert_attachedTo h.consistent h.childStored, if_pos rfl]

/-- Before, the group belongs to its own hierarchy alone. -/
theorem shortId_ne_child (hne : head ≠ child) (hstored : d.records.get? m.shortId = some m)
    (hlists : head ∈ headsOf m) : m.shortId ≠ child := by
  intro heq
  rw [heq, h.childStored] at hstored
  rw [← Option.some.inj hstored, h.headsOf_child] at hlists
  exact hne (List.mem_singleton.mp hlists)

/-- The parent stays as it is. -/
theorem get?_after_parent :
    (d.upsert (c.attachedTo p now)).records.get? p.shortId = some p := by
  rw [h.shortId_parent, h.get?_after_of_ne h.parent_ne_child, h.parentStored]

theorem mem_headsOf_parent (habove : head = parent ∨ d.StoredLists parent head) :
    head ∈ headsOf p := by
  rcases habove with rfl | hlists
  · exact h.shortId_parent ▸ List.mem_cons_self
  · exact List.mem_cons_of_mem _ (h.storedLists_parent_iff.mp hlists)

/-- Afterwards it belongs to that of the parent, too, and to those that
the parent belongs to. -/
theorem mem_headsOf_attachedTo (habove : head = parent ∨ d.StoredLists parent head) :
    head ∈ headsOf (c.attachedTo p now) := by
  refine List.mem_cons_of_mem _ (h.mem_references_iff.mpr (habove.imp_right fun hp => ?_))
  exact h.storedLists_parent_iff.mp hp

/-- The group heads no hierarchy that the parent belongs to. -/
theorem ne_child_of_above (habove : head = parent ∨ d.StoredLists parent head) :
    head ≠ child := by
  rintro rfl
  rcases habove with heq | hlists
  · exact h.parent_ne_child heq.symm
  · exact h.consistent.unlisted_iff.mp h.childUnlisted parent hlists

/-! ## The collections -/

/-- Of every hierarchy but that of the group itself, the members before
are the members without the group. -/
theorem membersOf_filter (hne : head ≠ child) :
    ((d.upsert (c.attachedTo p now)).membersOf head).filter (Collection.isOther child)
      = d.membersOf head := by
  have hv : (c.attachedTo p now).virtual = false :=
    (h.consistent.filed (Keyed.mem_of_get? h.childStored)).2
  have hvalues : (d.upsert (c.attachedTo p now)).records.values.filter (Collection.isOther child)
      = d.records.values.filter (Collection.isOther child) := by
    have hid : (c.attachedTo p now).shortId = child := h.shortId_child
    rw [upsert_eq hv, hid]
    refine Keyed.filter_values_put (Bool.eq_false_iff.mpr fun hother => ?_) fun old hold =>
      Bool.eq_false_iff.mpr fun hother => ?_
    · exact Collection.isOther_iff.mp hother hid
    · exact Collection.isOther_iff.mp hother (h.consistent.shortId_of_get? hold)
  have hold : ∀ m ∈ d.membersOf head, Collection.isOther child m = true := by
    intro m hm
    obtain ⟨hstored, hlists⟩ := h.consistent.mem_membersOf_iff.mp hm
    exact Collection.isOther_iff.mpr (h.shortId_ne_child hne hstored hlists)
  rw [(h.consistent.upsert _).membersOf_eq, List.filter_comm, hvalues, List.filter_comm,
    ← h.consistent.membersOf_eq, List.filter_eq_self.mpr hold]

/-- The collection of a head that is stored was the one without the
group. -/
theorem buildCollection_without (hne : head ≠ child) {col : Collection Group}
    (hbuild : (d.upsert (c.attachedTo p now)).buildCollection head = .ok col) :
    d.buildCollection head = .ok (col.without child) := by
  have hmembers : ((d.upsert (c.attachedTo p now)).membersOf head).filter
      (Collection.isOther child) = d.membersOf head :=
    h.membersOf_filter hne
  obtain ⟨g, hg, rfl⟩ := (h.consistent.upsert _).buildCollection_eq_ok_iff.mp hbuild
  rw [h.get?_after_of_ne hne] at hg
  refine h.consistent.buildCollection_eq_ok_iff.mpr ⟨g, hg, ?_⟩
  rw [← hmembers, List.filter_comm, policy_upsert]
  rfl

/-- Nothing in a collection lists the group. -/
theorem unlisted_members (hne : head ≠ child) {col : Collection Group}
    (hbuild : (d.upsert (c.attachedTo p now)).buildCollection head = .ok col) :
    Collection.Unlisted col child := by
  have hc' : Consistent (d.upsert (c.attachedTo p now)) := h.consistent.upsert _
  refine ⟨fun heq => hne ((hc'.head_and_ids hbuild).1.symm.trans heq), fun m hm hlisted => ?_⟩
  have hstored := ((hc'.mem_members_iff hbuild).mp hm).1
  exact hc'.unlisted_iff.mp h.unlisted_after m.shortId ⟨m, hstored, hlisted⟩

/-! ## The trees above the parent -/

/-- Without the group, and what would stand below it, the tree is the
former one. -/
theorem tree_prune (hne : head ≠ child)
    (ht : (d.upsert (c.attachedTo p now)).tree head = .ok t) : d.tree head = .ok (t.prune child) := by
  obtain ⟨col, hbuild, hcol⟩ := tree_eq_ok_iff.mp ht
  exact tree_eq_ok_iff.mpr ⟨_, h.buildCollection_without hne hbuild,
    Collection.hierarchy_without (h.unlisted_members hne hbuild) hcol⟩

theorem not_mem_before (hne : head ≠ child) (hbefore : d.tree head = .ok t) :
    child ∉ t.walk.map Tree.shortId := by
  intro hmem
  obtain ⟨n, hn, hid⟩ := List.mem_map.mp hmem
  obtain ⟨hstored, hlists⟩ :=
    (h.layered.mem_tree_iff h.consistent hbefore).mp (List.mem_map_of_mem hn)
  exact h.shortId_ne_child hne hstored hlists hid

/-- The tree has the groups that it had before, and the new one. -/
theorem perm_members (habove : head = parent ∨ d.StoredLists parent head)
    (ht : (d.upsert (c.attachedTo p now)).tree head = .ok t) :
    (t.walk.map Tree.member).Perm
      (c.attachedTo p now :: (t.prune child).walk.map Tree.member) := by
  have hne := h.ne_child_of_above habove
  have hbefore := h.tree_prune hne ht
  have hid : (c.attachedTo p now).shortId = child := h.shortId_child
  have hmem := fun m => h.layered.mem_tree_iff h.consistent hbefore (m := m)
  have hmem' := fun m => h.layered_after.mem_tree_iff (h.consistent.upsert _) ht (m := m)
  have hother : ∀ m ∈ (t.prune child).walk.map Tree.member, m.shortId ≠ child := fun m hm =>
    h.shortId_ne_child hne ((hmem m).mp hm).1 ((hmem m).mp hm).2
  refine (List.perm_ext_iff_of_nodup (nodup_members_tree ht) (List.nodup_cons.mpr
    ⟨fun hnew => hother _ hnew hid, nodup_members_tree hbefore⟩)).mpr fun m => ?_
  rw [List.mem_cons, hmem', hmem]
  constructor
  · rintro ⟨hstored, hlists⟩
    by_cases hm : m.shortId = child
    · rw [hm, h.get?_after_self] at hstored
      exact .inl (Option.some.inj hstored).symm
    · rw [h.get?_after_of_ne hm] at hstored
      exact .inr ⟨hstored, hlists⟩
  · rintro (rfl | ⟨hstored, hlists⟩)
    · exact ⟨hid ▸ h.get?_after_self, h.mem_headsOf_attachedTo habove⟩
    · exact ⟨(h.get?_after_of_ne (h.shortId_ne_child hne hstored hlists)).trans hstored, hlists⟩

/-- The group stands below the parent, and nothing below the group. -/
theorem exists_leaf (habove : head = parent ∨ d.StoredLists parent head)
    (ht : (d.upsert (c.attachedTo p now)).tree head = .ok t) :
    ∃ q ∈ t.walk, q.shortId = parent
      ∧ .node (c.attachedTo p now) q.childrenPath [] ∈ q.children := by
  have hc' : Consistent (d.upsert (c.attachedTo p now)) := h.consistent.upsert _
  have hne := h.ne_child_of_above habove
  have hid : (c.attachedTo p now).shortId = child := h.shortId_child
  obtain ⟨n, hn, hmember⟩ := List.mem_map.mp
    ((h.perm_members habove ht).mem_iff.mpr List.mem_cons_self)
  obtain ⟨col, hbuild, hcol⟩ := tree_eq_ok_iff.mp ht
  obtain ⟨-, rfl⟩ := Collection.hierarchy_eq_ok_iff.mp hcol
  have hord := h.layered_after.ordered hc' hbuild
  rcases Tree.exists_parent hn with rfl | ⟨q, hq, hchild⟩
  · exact absurd ((hc'.head_and_ids hbuild).1.symm.trans (congrArg Group.shortId hmember))
      (hid ▸ hne)
  obtain ⟨hlisted, hbetween⟩ := Collection.immediate_of_child hord hq hchild
  rw [hmember] at hlisted hbetween
  refine ⟨q, hq, ?_, ?_⟩
  · -- Whatever else the group lists, the parent lists, too.
    rcases h.mem_references_iff.mp hlisted.lists with heq | hp
    · exact heq
    · have hparent : p ∈ col.members :=
        (hc'.mem_members_iff hbuild).mpr ⟨h.get?_after_parent, h.mem_headsOf_parent habove⟩
      have hnew : col.MemberLists (c.attachedTo p now) p :=
        ⟨hlisted.member, hparent, h.mem_references_iff.mpr (.inl h.shortId_parent)⟩
      exact absurd ⟨hparent, hlisted.listed, hp⟩ (hbetween p hnew)
  · have hnone : n.children = [] := by
      refine List.eq_nil_iff_forall_not_mem.mpr fun n' hn' => ?_
      have hi := (Collection.immediate_of_child hord hn hn').1
      rw [hmember] at hi
      exact (h.unlisted_members hne hbuild).lists n'.member hi.member (hid ▸ hi.lists)
    have hpath : n.path = q.childrenPath := Layout.pathsKept_grown rfl q hq n hchild
    obtain ⟨m, path, children⟩ := n
    obtain rfl : m = c.attachedTo p now := hmember
    obtain rfl : children = [] := hnone
    exact hpath ▸ hchild

/-! ## The trees of other heads -/

/-- Every other collection is the one before. -/
theorem buildCollection_of_other (hne : head ≠ child)
    (hother : ¬ (d.has head = true ∧ (head = parent ∨ d.StoredLists parent head))) :
    (d.upsert (c.attachedTo p now)).buildCollection head = d.buildCollection head := by
  have hid : (c.attachedTo p now).shortId = child := h.shortId_child
  by_cases habove : head = parent ∨ d.StoredLists parent head
  · -- The head is not stored, and the parent lists it before and after.
    have hnone : d.records.get? head = none := by
      rw [← has_eq_false_iff, Bool.eq_false_iff]
      exact fun hhas => hother ⟨hhas, habove⟩
    have hc' : Consistent (d.upsert (c.attachedTo p now)) := h.consistent.upsert _
    have hlists := h.mem_headsOf_parent habove
    have hmember : p ∈ d.membersOf head :=
      h.consistent.mem_membersOf_iff.mpr ⟨h.shortId_parent ▸ h.parentStored, hlists⟩
    have hmember' : p ∈ (d.upsert (c.attachedTo p now)).membersOf head :=
      hc'.mem_membersOf_iff.mpr ⟨h.get?_after_parent, hlists⟩
    rw [hc'.buildCollection_of_not_stored ((h.get?_after_of_ne hne).trans hnone),
      h.consistent.buildCollection_of_not_stored hnone, if_neg (List.ne_nil_of_mem hmember),
      if_neg (List.ne_nil_of_mem hmember')]
  · refine h.consistent.buildCollection_upsert (not_mem_touched_iff.mpr ⟨fun hmem => ?_, ?_⟩)
    · rcases List.mem_cons.mp hmem with heq | hmem
      · exact hne (heq.trans hid)
      · rw [h.mem_references_iff, ← h.storedLists_parent_iff] at hmem
        exact habove hmem
    · intro previous hprevious hmem
      rw [hid, h.childStored] at hprevious
      rw [← Option.some.inj hprevious, h.headsOf_child] at hmem
      exact hne (List.mem_singleton.mp hmem)

end Records

end Attaching

/-- In any layered store of tidy records, as all checked ones are
(`Group.tidy_of_check`), a group that lists nothing and is not listed is
attached below another one.  If the tree of the parent, or of a head that
the parent lists, can be built afterwards, it could be before: it is the
former tree with the group below the parent, where nothing stands below
it.  The trees of all other heads are as they were, but for that of the
group itself. -/
theorem trees_of_attached_leaf_run (policy : GroupPolicy) {calls : List Call}
    (hcalls : ∀ g, Call.upsert g ∈ calls → g.Tidy) (hlayered : Layered (run policy calls))
    {x b : Text} {leaf g : Group} {now : Clock}
    (hstored : (run policy calls).records.get? x = some leaf) (hrefs : leaf.references = [])
    (hunlisted : (run policy calls).Unlisted x)
    (hok : ((run policy calls).attach x b now).2 = .ok g) :
    let d := run policy calls
    let d' := (d.attach x b now).1
    (∀ head, d.has head = true → head = b ∨ d.StoredLists b head → ∀ t, d'.tree head = .ok t →
        d.tree head = .ok (t.prune x)
          ∧ x ∉ (t.prune x).walk.map Tree.shortId
          ∧ (t.walk.map Tree.member).Perm (g :: (t.prune x).walk.map Tree.member)
          ∧ ∃ p ∈ t.walk, p.shortId = b ∧ .node g p.childrenPath [] ∈ p.children)
      ∧ ∀ head, head ≠ x → ¬ (d.has head = true ∧ (head = b ∨ d.StoredLists b head)) →
          d'.tree head = d.tree head := by
  intro d d'
  have hc : Consistent d := (consistent_and_current_run policy calls).1
  have htidy : TidyLists d := by
    refine ⟨fun {s m} hm => ?_, fun s hs => hlayered.loopFree s (.single hs)⟩
    have hm' : m.Tidy := tidy_run policy hcalls hm
    exact ⟨hc.shortId_of_get? hm ▸ hm'.shortId, hm'.references⟩
  rcases attach_cases d x b now with ⟨fault, heq⟩ | ⟨c, p, hchild, hparent, haccepted, heq⟩
  · rw [heq] at hok
    cases hok
  obtain rfl : leaf = c := Option.some.inj (hstored.symm.trans hchild)
  have hafter : d' = d.upsert (leaf.attachedTo p now.stamp) := congrArg Prod.fst heq
  obtain rfl : leaf.attachedTo p now.stamp = g := by
    rw [heq] at hok
    exact Except.ok.inj hok
  have h : Attaching d x b leaf p := ⟨hc, htidy, hlayered, hchild, hrefs, hunlisted, hparent,
    haccepted⟩
  rw [hafter]
  refine ⟨fun head _ habove t ht => ?_, fun head hne hother => ?_⟩
  · have hbefore := h.tree_prune (h.ne_child_of_above habove) ht
    exact ⟨hbefore, h.not_mem_before (h.ne_child_of_above habove) hbefore,
      h.perm_members habove ht, h.exists_leaf habove ht⟩
  · rw [tree, tree, h.buildCollection_of_other hne hother]

/-- To the braided hierarchies comes `x`, which lists nothing. -/
def growing : List Call :=
  braided ++ [.upsert (.plain [.char 'x'] [])]

/-- `x` is attached under `b`, which has two parents.  In the tree of `r` it
comes to stand after `g`, and the tree of `g` stays as it was. -/
theorem trees_of_attached_leaf_run_growing :
    (∀ g, Call.upsert g ∈ growing → g.Tidy) ∧ Layered (run {} growing)
      ∧ (run {} growing).Unlisted [.char 'x']
      ∧ ∃ g t, ((run {} growing).attach [.char 'x'] [.char 'b'] ⟨7000000⟩).2 = .ok g
        ∧ ((run {} growing).attach [.char 'x'] [.char 'b'] ⟨7000000⟩).1.tree [.char 'r'] = .ok t
        ∧ t.walk.map Tree.shortId
          = [[.char 'r'], [.char 'a'], [.char 'b'], [.char 'g'], [.char 'x'], [.char 'd']]
        ∧ (run {} growing).tree [.char 'r'] = .ok (t.prune [.char 'x'])
        ∧ ((run {} growing).attach [.char 'x'] [.char 'b'] ⟨7000000⟩).1.tree [.char 'g']
          = (run {} growing).tree [.char 'g'] := by
  have horderly : Orderly (empty {}) growing := by decide +kernel
  have htidy := horderly.tidy
  have hlayered := (founded_run {} horderly).layered
  have hunlisted : (run {} growing).Unlisted [.char 'x'] := by decide +kernel
  have hstored : (run {} growing).records.get? [.char 'x'] = some (.plain [.char 'x'] []) := by
    decide +kernel
  have hb : ∀ s, (run {} growing).StoredLists [.char 'b'] s
      ↔ s ∈ ([[.char 'r'], [.char 'a'], [.char 'd']] : List Text) := fun s =>
    storedLists_iff (by decide +kernel)
  have hattached : ((run {} growing).attach [.char 'x'] [.char 'b'] ⟨7000000⟩).2.toOption.map
      Group.shortId = some [.char 'x'] := by
    decide +kernel
  obtain ⟨g, hok, -⟩ := map_toOption_eq_some_iff.mp hattached
  have hids : (((run {} growing).attach [.char 'x'] [.char 'b'] ⟨7000000⟩).1.tree
      [.char 'r']).toOption.map (fun t => t.walk.map Tree.shortId)
        = some [[.char 'r'], [.char 'a'], [.char 'b'], [.char 'g'], [.char 'x'], [.char 'd']] := by
    decide +kernel
  obtain ⟨t, ht, hids⟩ := map_toOption_eq_some_iff.mp hids
  obtain ⟨habove, hothers⟩ :=
    trees_of_attached_leaf_run {} htidy hlayered hstored rfl hunlisted hok
  obtain ⟨hbefore, -⟩ := habove [.char 'r'] (by decide +kernel)
    (.inr ((hb _).mpr List.mem_cons_self)) t ht
  refine ⟨htidy, hlayered, hunlisted, g, t, hok, ht, hids, hbefore, hothers _ (by decide) ?_⟩
  rintro ⟨-, heq | hlists⟩
  · exact absurd heq (by decide)
  · exact absurd ((hb _).mp hlists) (by decide)

end Lineage.Directory
