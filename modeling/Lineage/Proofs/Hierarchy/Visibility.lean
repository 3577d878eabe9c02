/-
Lineage.Proofs.Hierarchy.Visibility — which groups a view shows, in
whatever order the members were added.

A view shows a node if it and all nodes above it hold active groups
(`Visible`).  So a placed group is shown exactly if it is active and the
group above it is shown (`shown_child_iff`).  The order of the members
decides below which of its parents a group stands, and an inactive parent
hides it where an active one does not; a group is `Contested` if two
orders place it below two parents of which the first view shows the one
and the second view does not show the other.  Going up from a group that
one view alone shows, one comes to a contested group before the parents of
the two trees part (`Reordered.exists_contested`), so the views of two
orders show the same groups exactly if no group is contested
(`views_of_reordered`).
-/
import Lineage.Proofs.Hierarchy.Hiding
import Lineage.Proofs.Hierarchy.Reordering

namespace Lineage

universe u

variable {α : Type u} [Grouped α]

namespace Tree

/-! ## Visible nodes -/

/-- The root holds an active group. -/
def Active (t : Tree α) : Prop :=
  (Grouped.group t.member).active = true

/-- A node of a tree, such that it and all nodes above it hold active
groups. -/
inductive Visible : Tree α → Tree α → Prop
  | here {t : Tree α} : t.Active → Visible t t
  | down {t child n : Tree α} :
      t.Active → child ∈ t.children → Visible child n → Visible t n

variable {t p n p' n' : Tree α}

omit [Grouped α] in
theorem mem_walk_of_mem_children (hp : p ∈ t.walk) (hn : n ∈ p.children) : n ∈ t.walk := by
  induction t using children_induction with
  | node t ih =>
    rcases mem_walk_cases hp with rfl | ⟨child, hc, hp⟩
    · exact mem_walk_of_child hn (mem_walk_self n)
    · exact mem_walk_of_child hc (ih child hc hp)

namespace Visible

theorem mem_walk (h : Visible t n) : n ∈ t.walk := by
  induction h with
  | here _ => exact mem_walk_self _
  | down _ hc _ ih => exact mem_walk_of_child hc ih

theorem active (h : Visible t n) : n.Active := by
  induction h with
  | here h => exact h
  | down _ _ _ ih => exact ih

theorem child (h : Visible t p) (hn : n ∈ p.children) (ha : n.Active) : Visible t n := by
  induction h with
  | here h => exact .down h hn (.here ha)
  | down h hc _ ih => exact .down h hc (ih hn)

/-- A visible node other than the root stands below a visible one. -/
theorem parent (h : Visible t n) : n = t ∨ ∃ p, Visible t p ∧ n ∈ p.children := by
  induction h with
  | here _ => exact .inl rfl
  | down ht hc _ ih =>
    right
    rcases ih with rfl | ⟨p, hp, hn⟩
    · exact ⟨_, .here ht, hc⟩
    · exact ⟨p, .down ht hc hp, hn⟩

end Visible

/-! ## Parents -/

/-- Where no short id occurs twice, a node stands below one node alone. -/
theorem parent_unique (hd : (t.walk.map shortId).Nodup) (hk : PathsKept t) (hp : p ∈ t.walk)
    (hn : n ∈ p.children) (hp' : p' ∈ t.walk) (hn' : n' ∈ p'.children)
    (h : n.shortId = n'.shortId) : p = p' := by
  have heq : n = n' := eq_of_shortId_eq hd (mem_walk_of_mem_children hp hn)
    (mem_walk_of_mem_children hp' hn') h
  have hpath : p.childrenPath = p'.childrenPath := by
    rw [← hk p hp n hn, heq, hk p' hp' n' hn']
  exact eq_of_shortId_eq hd hp hp' (List.append_inj' hpath rfl |>.2 |> List.singleton_inj.mp)

/-- The root stands below no node. -/
theorem ne_root_of_child (hk : PathsKept t) (hp : p ∈ t.walk) (hn : n ∈ p.children) : n ≠ t := by
  rintro rfl
  obtain ⟨ids, hl⟩ := mem_walk_iff_leads.mp hp
  have hlength := congrArg List.length (hk p hp n hn)
  rw [childrenPath, hk.path_of_leads hl] at hlength
  simp at hlength

end Tree

open Lineage.Tree

namespace View

/-! ## What a view shows -/

theorem ofTree?_eq_some_iff {t : Tree α} {v : View} : ofTree? t = some v ↔ t.Active
    ∧ v = .node (Grouped.group t.member).shortId (Grouped.group t.member).name
      (Grouped.group t.member).description (ofTrees t.children) [] := by
  obtain ⟨m, path, children⟩ := t
  have hactive : (Tree.node m path children).Active ↔ (Grouped.group m).active = true := Iff.rfl
  rw [ofTree?, hactive]
  split
  · rename_i ha
    simp only [ha, true_and, Option.some.injEq]
    exact eq_comm
  · rename_i ha
    simp [ha]

theorem mem_shortIdsAll_ofTrees {ts : List (Tree α)} {s : Text} :
    s ∈ shortIdsAll (ofTrees ts) ↔ ∃ t ∈ ts, ∃ v, ofTree? t = some v ∧ s ∈ v.shortIds := by
  induction ts with
  | nil => simp [ofTrees, shortIdsAll]
  | cons t rest ih =>
    rw [ofTrees]
    cases h : ofTree? t with
    | none => simp [ih, h]
    | some v => simp [shortIdsAll, ih, h]

/-- A view shows the visible nodes of its tree. -/
theorem mem_shortIds_iff {t : Tree α} {v : View} (h : ofTree? t = some v) {s : Text} :
    s ∈ v.shortIds ↔ ∃ n, Visible t n ∧ n.shortId = s := by
  induction t using children_induction generalizing v with
  | node t ih =>
    obtain ⟨ha, rfl⟩ := ofTree?_eq_some_iff.mp h
    rw [shortIds, List.mem_cons, mem_shortIdsAll_ofTrees]
    constructor
    · rintro (rfl | ⟨child, hc, v, hv, hs⟩)
      · exact ⟨t, .here ha, rfl⟩
      · obtain ⟨n, hn, hs⟩ := (ih child hc hv).mp hs
        exact ⟨n, .down ha hc hn, hs⟩
    · rintro ⟨n, hn, rfl⟩
      cases hn with
      | here _ => exact .inl rfl
      | @down _ child _ _ hc hn =>
        have hchild : child.Active := by
          cases hn with
          | here h => exact h
          | down h _ _ => exact h
        have hv := ofTree?_eq_some_iff.mpr ⟨hchild, rfl⟩
        exact .inr ⟨child, hc, _, hv, (ih child hc hv).mpr ⟨n, hn, rfl⟩⟩

/-- Where no short id occurs twice, a node is shown exactly if its group is
active and the node above it is shown. -/
theorem shown_child_iff {t p n : Tree α} {v : View} (h : ofTree? t = some v)
    (hd : (t.walk.map Tree.shortId).Nodup) (hk : PathsKept t) (hp : p ∈ t.walk)
    (hn : n ∈ p.children) : n.shortId ∈ v.shortIds ↔ p.shortId ∈ v.shortIds ∧ n.Active := by
  rw [mem_shortIds_iff h, mem_shortIds_iff h]
  constructor
  · rintro ⟨m, hm, hid⟩
    obtain rfl : m = n := eq_of_shortId_eq hd hm.mem_walk (mem_walk_of_mem_children hp hn) hid
    rcases hm.parent with heq | ⟨q, hq, hmq⟩
    · exact absurd heq (ne_root_of_child hk hp hn)
    · exact ⟨⟨q, hq, by rw [parent_unique hd hk hq.mem_walk hmq hp hn rfl]⟩, hm.active⟩
  · rintro ⟨⟨m, hm, hid⟩, ha⟩
    obtain rfl : m = p := eq_of_shortId_eq hd hm.mem_walk hp hid
    exact ⟨n, hm.child hn ha, rfl⟩

theorem root_shown {t : Tree α} {v : View} (h : ofTree? t = some v) : t.shortId ∈ v.shortIds :=
  (mem_shortIds_iff h).mpr ⟨t, .here (ofTree?_eq_some_iff.mp h).1, rfl⟩

/-! ## The view of a collection -/

theorem ofCollection_eq_ok_iff {c : Collection α} {v : View} :
    ofCollection c = .ok v ↔ ∃ t, c.hierarchy = .ok t ∧ ofTree? t = some v := by
  unfold ofCollection ofTree
  cases c.hierarchy with
  | error fault => simp
  | ok t => cases h : ofTree? t <;> simp [h]

theorem ofTree?_of_ofCollection {c : Collection α} {t : Tree α} {v : View}
    (ht : c.hierarchy = .ok t) (hv : ofCollection c = .ok v) : ofTree? t = some v := by
  obtain ⟨t', ht', hv⟩ := ofCollection_eq_ok_iff.mp hv
  obtain rfl : t = t' := Except.ok.inj (ht.symm.trans ht')
  exact hv

/-- The view of a collection that has one. -/
theorem ofCollection_eq_ok {c : Collection α} (hempty : c.headRoutes 9 = [])
    (hactive : (Grouped.group c.headElement).active = true) :
    ofCollection c = .ok (.node (Grouped.group c.headElement).shortId
      (Grouped.group c.headElement).name (Grouped.group c.headElement).description
      (ofTrees (Layout.grown c c.headNode 9).children) []) := by
  have ht := Collection.hierarchy_eq_ok_iff.mpr ⟨hempty, rfl⟩
  exact ofCollection_eq_ok_iff.mpr ⟨_, ht, ofTree?_eq_some_iff.mpr ⟨hactive, rfl⟩⟩

/-- A collection has no view if its hierarchy is too deep or its head is
inactive. -/
theorem ofCollection_eq_error_iff {c : Collection α} {fault : HierarchyFault} :
    ofCollection c = .error fault
      ↔ (c.headRoutes 9 ≠ [] ∧ .noView (.layersLeft c.head safetyDepth safetyDepth) = fault)
        ∨ (c.headRoutes 9 = [] ∧ ¬ (Grouped.group c.headElement).active = true
          ∧ .noView (.inactive (Grouped.shortId c.headElement)) = fault) := by
  have hgrown : ∀ n, (Layout.grown c c.headNode n).Active
      ↔ (Grouped.group c.headElement).active = true := fun n => Iff.rfl
  unfold ofCollection ofTree
  rw [Collection.hierarchy_eq]
  cases hroutes : c.headRoutes 9 with
  | cons r rest => simp
  | nil =>
    have hid : (Layout.grown c c.headNode 9).shortId = Grouped.shortId c.headElement := rfl
    cases hv : ofTree? (Layout.grown c c.headNode 9) with
    | some v =>
      have ha := (hgrown 9).mp (ofTree?_eq_some_iff.mp hv).1
      simp [hv, ha]
    | none =>
      have ha : ¬ (Grouped.group c.headElement).active = true := fun ha => by
        rw [ofTree?_eq_some_iff.mpr ⟨(hgrown 9).mpr ha, rfl⟩] at hv
        cases hv
      simp [hv, ha, hid]

end View

/-! ## Two orders -/

namespace Tree

/-- A tree places a group below another one. -/
def Places (t : Tree α) (parent child : Text) : Prop :=
  ∃ p ∈ t.walk, p.shortId = parent ∧ child ∈ p.children.map Tree.shortId

/-- In a tree a group stands above another one. -/
def Above (t : Tree α) (s x : Text) : Prop :=
  ∃ n ∈ t.walk, n.shortId = x ∧ s ∈ n.path

/-- Above a node stand the one that it is a child of, and what stands
above that one. -/
theorem above_child {t p n : Tree α} (hd : (t.walk.map shortId).Nodup) (hk : PathsKept t)
    (hp : p ∈ t.walk) (hn : n ∈ p.children) {s : Text} (h : s = p.shortId ∨ t.Above s p.shortId) :
    t.Above s n.shortId := by
  refine ⟨n, mem_walk_of_mem_children hp hn, rfl, ?_⟩
  rw [hk p hp n hn, childrenPath, List.mem_append, List.mem_singleton]
  rcases h with rfl | ⟨q, hq, hid, hs⟩
  · exact .inr rfl
  · exact .inl (eq_of_shortId_eq hd hq hp hid ▸ hs)

end Tree

namespace Collection

/-- A group is contested between two trees of a collection and their views:
it is an active member that lists two groups, the first tree places it
below the one, which the first view shows, and the second tree below the
other, which the second view does not show. -/
def Contested (c : Collection α) (t t' : Tree α) (v v' : View) (s : Text) : Prop :=
  ∃ m ∈ c.others, Grouped.shortId m = s ∧ (Grouped.group m).active = true
    ∧ ∃ q q', q ≠ q' ∧ q ∈ Grouped.references m ∧ q' ∈ Grouped.references m
      ∧ t.Places q s ∧ t'.Places q' s ∧ q ∈ v.shortIds ∧ q' ∉ v'.shortIds

/-- A contested group is shown in the first view alone. -/
theorem Contested.shown {c c' : Collection α} {t t' : Tree α} {v v' : View} {s : Text}
    (hd : (c.others.map Grouped.shortId).Nodup)
    (ht : c.hierarchy = .ok t) (ht' : c'.hierarchy = .ok t')
    (hv : View.ofTree? t = some v) (hv' : View.ofTree? t' = some v')
    (h : c.Contested t t' v v' s) : s ∈ v.shortIds ∧ s ∉ v'.shortIds := by
  obtain ⟨m, hm, rfl, hactive, q, q', -, -, -, ⟨p, hp, rfl, hchild⟩, ⟨p', hp', rfl, hchild'⟩,
    hshown, hhidden⟩ := h
  obtain ⟨n, hn, hid⟩ := List.mem_map.mp hchild
  obtain ⟨n', hn', hid'⟩ := List.mem_map.mp hchild'
  have hmember : n.member = m := by
    obtain ⟨hother, -, -⟩ := member_of_child ht hp hn
    exact List.inj_on_of_nodup_map hd hother hm hid
  constructor
  · rw [← hid, View.shown_child_iff hv (nodup_walk_hierarchy ht) (pathsKept_hierarchy ht) hp hn]
    exact ⟨hshown, by rwa [Active, hmember]⟩
  · rw [← hid', View.shown_child_iff hv' (nodup_walk_hierarchy ht') (pathsKept_hierarchy ht') hp' hn']
    exact fun h => hhidden h.1

namespace Reordered

variable {c c' : Collection α} {t t' : Tree α} {v v' : View} {n p : Tree α}
  (h : Reordered c c') (hd : (c.others.map Grouped.shortId).Nodup)
  (ht : c.hierarchy = .ok t) (ht' : c'.hierarchy = .ok t')
include h hd ht ht'

omit hd in
theorem shortId_root_eq : t.shortId = t'.shortId := by
  rw [Tree.shortId, Tree.shortId, member_hierarchy ht, member_hierarchy ht', h.headElement]

/-- What stands below another node in the one tree does so in the other,
and holds the same member. -/
theorem exists_child (hp : p ∈ t.walk) (hn : n ∈ p.children) :
    ∃ p' ∈ t'.walk, ∃ n' ∈ p'.children, n'.shortId = n.shortId ∧ n'.member = n.member := by
  obtain ⟨hother, hne, -⟩ := member_of_child ht hp hn
  have hplaced : n.shortId ∈ t'.walk.map Tree.shortId :=
    (h.shortId_mem_hierarchy_iff ht ht').mp (List.mem_map_of_mem (mem_walk_of_mem_children hp hn))
  obtain ⟨n', hn', hid⟩ := List.mem_map.mp hplaced
  rcases Tree.exists_parent hn' with rfl | ⟨p', hp', hchild⟩
  · rw [Tree.shortId, member_hierarchy ht', h.headElement] at hid
    exact absurd hid.symm hne
  · obtain ⟨hother', -, -⟩ := member_of_child ht' hp' hchild
    refine ⟨p', hp', n', hchild, hid, ?_⟩
    exact List.inj_on_of_nodup_map hd (h.others.mem_iff.mpr hother') hother hid

variable (hv : View.ofTree? t = some v) (hv' : View.ofTree? t' = some v')
include hv hv'

/-- Up from a group that the first view alone shows there is a contested
one, and the two trees agree on the way to it. -/
theorem exists_contested : ∀ n ∈ t.walk, n.shortId ∈ v.shortIds → n.shortId ∉ v'.shortIds →
    ∃ y, c.Contested t t' v v' y
      ∧ (y = n.shortId ∨ (t.Above y n.shortId ∧ t'.Above y n.shortId)) := by
  have hids := nodup_walk_hierarchy ht
  have hids' := nodup_walk_hierarchy ht'
  have hkept := pathsKept_hierarchy ht
  have hkept' := pathsKept_hierarchy ht'
  apply walk_induction
  · intro _ hhidden
    exact absurd (h.shortId_root_eq ht ht' ▸ View.root_shown hv') hhidden
  · intro p hp ih n hn hshown hhidden
    obtain ⟨hparent, hactive⟩ := (View.shown_child_iff hv hids hkept hp hn).mp hshown
    obtain ⟨p', hp', n', hn', hid, hmember⟩ := h.exists_child hd ht ht' hp hn
    have hparent' : p'.shortId ∉ v'.shortIds := fun hp'shown => by
      have hactive' : n'.Active := by rwa [Active, hmember]
      exact hhidden (hid ▸ (View.shown_child_iff hv' hids' hkept' hp' hn').mpr ⟨hp'shown, hactive'⟩)
    by_cases hpp : p.shortId = p'.shortId
    · -- The two trees agree so far, so the parent is shown in the first view alone, too.
      obtain ⟨y, hy, hup⟩ := ih hparent (hpp ▸ hparent')
      refine ⟨y, hy, .inr ⟨above_child hids hkept hp hn (hup.imp_right And.left), ?_⟩⟩
      rw [hpp] at hup
      exact hid ▸ above_child hids' hkept' hp' hn' (hup.imp_right And.right)
    · obtain ⟨hother, -, hlists⟩ := member_of_child ht hp hn
      obtain ⟨-, -, hlists'⟩ := member_of_child ht' hp' hn'
      refine ⟨n.shortId, ⟨n.member, hother, rfl, hactive, p.shortId, p'.shortId, hpp, hlists,
        hmember ▸ hlists', ⟨p, hp, rfl, List.mem_map_of_mem hn⟩, ⟨p', hp', rfl, ?_⟩, hparent,
        hparent'⟩, .inl rfl⟩
      exact hid ▸ List.mem_map_of_mem hn'

/-- A group that the first view alone shows is contested, or stands below
a contested one in both trees. -/
theorem contested_above : ∀ s ∈ v.shortIds, s ∉ v'.shortIds →
    ∃ y, c.Contested t t' v v' y ∧ (y = s ∨ (t.Above y s ∧ t'.Above y s)) := by
  intro s hshown hhidden
  obtain ⟨n, hn, rfl⟩ := (View.mem_shortIds_iff hv).mp hshown
  exact h.exists_contested hd ht ht' hv hv' n hn.mem_walk hshown hhidden

end Reordered

theorem nodup_others_addAll {head : α} {maxDepth : Int} {c : Collection α}
    (hmake : make? head maxDepth = some c) {ms : List α} (hids : (ms.map Grouped.shortId).Nodup) :
    ((c.addAll ms).1.others.map Grouped.shortId).Nodup := by
  have hnone : c.others = [] := by
    unfold make? at hmake
    split at hmake
    · cases hmake
    · obtain rfl := Option.some.inj hmake
      rfl
  rw [addAll_eq, hnone, List.nil_append]
  exact (List.filter_sublist.map _).nodup hids

/-- Add members with short ids of their own to a new collection in two
orders.  There is a view in both orders, or the same fault in both.  The
views show the same groups exactly if no group is contested, and a group
that one view alone shows is contested or stands below a contested one in
both trees. -/
theorem views_of_reordered {head : α} {maxDepth : Int} {c : Collection α}
    (hmake : make? head maxDepth = some c) {ms ms' : List α}
    (hids : (ms.map Grouped.shortId).Nodup) (hperm : ms.Perm ms') :
    let d := (c.addAll ms).1
    let d' := (c.addAll ms').1
    (∀ fault, View.ofCollection d = .error fault ↔ View.ofCollection d' = .error fault)
      ∧ ∀ t t' v v', d.hierarchy = .ok t → d'.hierarchy = .ok t' →
          View.ofCollection d = .ok v → View.ofCollection d' = .ok v' →
          ((∀ s, s ∈ v.shortIds ↔ s ∈ v'.shortIds)
              ↔ ∀ s, ¬ d.Contested t t' v v' s ∧ ¬ d'.Contested t' t v' v s)
            ∧ (∀ s ∈ v.shortIds, s ∉ v'.shortIds → ∃ y, d.Contested t t' v v' y
                ∧ (y = s ∨ (t.Above y s ∧ t'.Above y s)))
            ∧ ∀ s ∈ v'.shortIds, s ∉ v.shortIds → ∃ y, d'.Contested t' t v' v y
                ∧ (y = s ∨ (t'.Above y s ∧ t.Above y s)) := by
  intro d d'
  have hre : Reordered d d' := reordered_addAll c hperm
  have hd : (d.others.map Grouped.shortId).Nodup := nodup_others_addAll hmake hids
  have hd' : (d'.others.map Grouped.shortId).Nodup :=
    nodup_others_addAll hmake ((hperm.map Grouped.shortId).nodup_iff.mp hids)
  refine ⟨fun fault => ?_, fun t t' v v' ht ht' hv hv' => ?_⟩
  · rw [View.ofCollection_eq_error_iff, View.ofCollection_eq_error_iff, hre.headElement, hre.head,
      ne_eq, ne_eq, hre.headRoutes_eq_nil_iff]
  · replace hv := View.ofTree?_of_ofCollection ht hv
    replace hv' := View.ofTree?_of_ofCollection ht' hv'
    have hfirst := hre.contested_above hd ht ht' hv hv'
    have hsecond := hre.symm.contested_above hd' ht' ht hv' hv
    refine ⟨⟨fun hsame s => ⟨fun hs => ?_, fun hs => ?_⟩, fun hnone s => ⟨fun hs => ?_, fun hs => ?_⟩⟩,
      hfirst, hsecond⟩
    · obtain ⟨hin, hout⟩ := Contested.shown hd ht ht' hv hv' hs
      exact hout ((hsame s).mp hin)
    · obtain ⟨hin, hout⟩ := Contested.shown hd' ht' ht hv' hv hs
      exact hout ((hsame s).mpr hin)
    · by_contra hout
      obtain ⟨y, hy, -⟩ := hfirst s hs hout
      exact (hnone y).1 hy
    · by_contra hout
      obtain ⟨y, hy, -⟩ := hsecond s hs hout
      exact (hnone y).2 hy

/-- The head to which the groups below are added. -/
def shadeHead : Collection Group :=
  ⟨[.char 'r'], .plain [.char 'r'] [], [], 16⟩

/-- `x` lists `a`, which is inactive, and `b`. -/
def shaded : List Group :=
  let r : Text := [.char 'r']
  let a : Text := [.char 'a']
  let b : Text := [.char 'b']
  [{ Group.plain a [r] with active := false }, .plain b [r], .plain [.char 'x'] [r, a, b]]

/-- The same groups, `b` before `a`. -/
def unshaded : List Group :=
  let r : Text := [.char 'r']
  let a : Text := [.char 'a']
  let b : Text := [.char 'b']
  [.plain b [r], { Group.plain a [r] with active := false }, .plain [.char 'x'] [r, a, b]]

/-- The views of two orders can show different groups: `x` stands below
the inactive `a` in the one and below `b` in the other. -/
theorem views_differ_shaded :
    make? shadeHead.headElement 16 = some shadeHead
      ∧ (shaded.map Grouped.shortId).Nodup ∧ shaded.Perm unshaded
      ∧ ∃ v v', View.ofCollection (shadeHead.addAll shaded).1 = .ok v
        ∧ View.ofCollection (shadeHead.addAll unshaded).1 = .ok v'
        ∧ [.char 'x'] ∉ v.shortIds ∧ [.char 'x'] ∈ v'.shortIds := by
  have hv := View.ofCollection_eq_ok (c := (shadeHead.addAll shaded).1) (by decide +kernel)
    (by decide +kernel)
  have hv' := View.ofCollection_eq_ok (c := (shadeHead.addAll unshaded).1) (by decide +kernel)
    (by decide +kernel)
  exact ⟨rfl, by decide +kernel, by decide +kernel, _, _, hv, hv', by decide +kernel,
    by decide +kernel⟩

/-- A group is contested between the two orders. -/
theorem views_of_reordered_shaded :
    make? shadeHead.headElement 16 = some shadeHead
      ∧ (shaded.map Grouped.shortId).Nodup ∧ shaded.Perm unshaded
      ∧ ∃ t t' v v', (shadeHead.addAll shaded).1.hierarchy = .ok t
        ∧ (shadeHead.addAll unshaded).1.hierarchy = .ok t'
        ∧ View.ofCollection (shadeHead.addAll shaded).1 = .ok v
        ∧ View.ofCollection (shadeHead.addAll unshaded).1 = .ok v'
        ∧ ∃ s, (shadeHead.addAll unshaded).1.Contested t' t v' v s := by
  have hmake : make? shadeHead.headElement 16 = some shadeHead := rfl
  have hids : (shaded.map Grouped.shortId).Nodup := by decide +kernel
  have hperm : shaded.Perm unshaded := by decide +kernel
  have ht : (shadeHead.addAll shaded).1.hierarchy = .ok _ :=
    hierarchy_eq_ok_iff.mpr ⟨by decide +kernel, rfl⟩
  have ht' : (shadeHead.addAll unshaded).1.hierarchy = .ok _ :=
    hierarchy_eq_ok_iff.mpr ⟨by decide +kernel, rfl⟩
  have hv := View.ofCollection_eq_ok (c := (shadeHead.addAll shaded).1) (by decide +kernel)
    (by decide +kernel)
  have hv' := View.ofCollection_eq_ok (c := (shadeHead.addAll unshaded).1) (by decide +kernel)
    (by decide +kernel)
  obtain ⟨-, -, hsecond⟩ := (views_of_reordered hmake hids hperm).2 _ _ _ _ ht ht' hv hv'
  obtain ⟨y, hy, -⟩ := hsecond [.char 'x'] (by decide +kernel) (by decide +kernel)
  exact ⟨hmake, hids, hperm, _, _, _, _, ht, ht', hv, hv', y, hy⟩

end Collection

end Lineage
