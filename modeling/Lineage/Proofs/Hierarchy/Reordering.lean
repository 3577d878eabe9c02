/-
Lineage.Proofs.Hierarchy.Reordering — the order in which members were
added.

The order of the members decides in which order siblings come, below
which of its parents a group stands, and at which depth.  It does not
decide which routes there are: every stage of the layering rule asks only
what is among the members, so in another order the same groups stand below
a path (`Reordered.nextLevel`) and every layer holds the same routes
(`Reordered.routes`), only in another order.  A hierarchy is too deep
where the last layer holds a route, and it holds the groups at the ends of
routes, so neither depends on the order (`hierarchy_of_reordered`),
whatever the members list and however often a short id comes.
-/
import Lineage.Proofs.Hierarchy.WellPlaced

namespace Lineage.Collection

open Layout Lineage.Tree

universe u

/-- The two collections have one head, and below it the same members, each
equally often. -/
structure Reordered {α : Type u} (c c' : Collection α) : Prop where
  head : c'.head = c.head
  headElement : c'.headElement = c.headElement
  others : c.others.Perm c'.others

theorem Reordered.symm {α : Type u} {c c' : Collection α} (h : Reordered c c') : Reordered c' c :=
  ⟨h.head.symm, h.headElement.symm, h.others.symm⟩

theorem Reordered.members {α : Type u} {c c' : Collection α} (h : Reordered c c') :
    c.members.Perm c'.members := by
  rw [Collection.members, Collection.members, h.headElement]
  exact h.others.cons _

variable {α : Type u} [Grouped α]

/-- Candidates in another order become members in another order. -/
theorem reordered_addAll (c : Collection α) {ms ms' : List α} (h : ms.Perm ms') :
    Reordered (c.addAll ms).1 (c.addAll ms').1 := by
  rw [addAll_eq, addAll_eq]
  exact ⟨rfl, rfl, (h.filter _).append_left _⟩

/-! ## The layering rule -/

/-- The order of what is avoided does not matter. -/
theorem filter_avoids_perm {ms ms' bs bs' : List α} (h : ms.Perm ms') (hb : bs.Perm bs') :
    (ms.filter (avoids (bs.map Grouped.shortId))).Perm
      (ms'.filter (avoids (bs'.map Grouped.shortId))) := by
  have hsame : avoids (α := α) (bs.map Grouped.shortId) = avoids (bs'.map Grouped.shortId) := by
    funext m
    rw [Bool.eq_iff_iff, avoids_iff, avoids_iff]
    exact forall_congr' fun b => by rw [hb.mem_iff]
  rw [hsame]
  exact h.filter _

namespace Reordered

variable {c c' : Collection α} {t t' : Tree α} {s : Text}

/-- The same groups stand directly below a path. -/
theorem nextLevel (h : Reordered c c') (path : List Text) :
    (c.nextLevel path).Perm (c'.nextLevel path) := by
  have hcandidates := h.members.filter (listsPath path)
  have hdirect := hcandidates.filter (isDirect path)
  have hdeferred := hcandidates.filter fun m => !isDirect path m
  have hfree := filter_avoids_perm hdeferred hdirect
  exact hdirect.append (filter_avoids_perm hfree hfree)

theorem onward (h : Reordered c c') (route : List Text) :
    (c.onward route).Perm (c'.onward route) :=
  (h.nextLevel route).filter _

/-- Every layer holds the same routes. -/
theorem routes (h : Reordered c c') (first : List Text) (k : Nat) :
    (c.routes first k).Perm (c'.routes first k) := by
  induction k with
  | zero => exact .refl _
  | succ k ih => exact ih.flatMap fun r _ => (h.onward r).map _

theorem headRoutes (h : Reordered c c') (k : Nat) : (c.headRoutes k).Perm (c'.headRoutes k) := by
  rw [Collection.headRoutes, Collection.headRoutes, h.headElement]
  exact h.routes _ k

/-! ## Hierarchies -/

theorem headRoutes_eq_nil_iff (h : Reordered c c') {k : Nat} :
    c.headRoutes k = [] ↔ c'.headRoutes k = [] := by
  constructor
  · intro hnil
    exact List.perm_nil.mp (hnil ▸ (h.headRoutes k).symm)
  · intro hnil
    exact List.perm_nil.mp (hnil ▸ h.headRoutes k)

end Reordered

/-- A hierarchy holds the short ids at the ends of the routes of its
collection. -/
theorem shortId_mem_hierarchy_iff {c : Collection α} {t : Tree α} (ht : c.hierarchy = .ok t)
    {s : Text} : s ∈ t.walk.map Tree.shortId ↔ ∃ k, ∃ r ∈ c.headRoutes k, routeEnd r = s := by
  obtain ⟨hempty, rfl⟩ := hierarchy_eq_ok_iff.mp ht
  have hroot : routeEnd [Grouped.shortId c.headElement] = c.headNode.shortId := rfl
  rw [mem_walk_grown rfl]
  constructor
  · rintro (rfl | harrival)
    · exact ⟨0, _, List.mem_singleton_self _, hroot⟩
    · obtain ⟨k, hr⟩ := (exists_arrival_iff_exists_route hempty).mp harrival
      exact ⟨k + 1, hr⟩
  · rintro ⟨k, r, hr, rfl⟩
    cases k with
    | zero =>
      rw [List.mem_singleton.mp hr]
      exact .inl hroot
    | succ k => exact .inr ((exists_arrival_iff_exists_route hempty).mpr ⟨k, r, hr, rfl⟩)

theorem Reordered.shortId_mem_hierarchy_iff {c c' : Collection α} (h : Reordered c c')
    {t t' : Tree α} (ht : c.hierarchy = .ok t) (ht' : c'.hierarchy = .ok t') {s : Text} :
    s ∈ t.walk.map Tree.shortId ↔ s ∈ t'.walk.map Tree.shortId := by
  rw [Collection.shortId_mem_hierarchy_iff ht, Collection.shortId_mem_hierarchy_iff ht']
  exact exists_congr fun k => exists_congr fun r => by rw [(h.headRoutes k).mem_iff]

/-- In whatever order candidates are added to a collection, its hierarchy
is too deep in both orders or in neither, and if it is not, the two trees
hold the same short ids. -/
theorem hierarchy_of_reordered (c : Collection α) {ms ms' : List α} (h : ms.Perm ms') :
    let d := (c.addAll ms).1
    let d' := (c.addAll ms').1
    ((∃ fault, d.hierarchy = .error fault ∧ fault.kind = .tooDeep)
        ↔ ∃ fault, d'.hierarchy = .error fault ∧ fault.kind = .tooDeep)
      ∧ ((∃ t, d.hierarchy = .ok t) ↔ ∃ t', d'.hierarchy = .ok t')
      ∧ ∀ t t', d.hierarchy = .ok t → d'.hierarchy = .ok t' →
          ∀ s, s ∈ t.walk.map Tree.shortId ↔ s ∈ t'.walk.map Tree.shortId := by
  intro d d'
  have hd : Reordered d d' := reordered_addAll c h
  refine ⟨?_, ?_, fun t t' ht ht' s => hd.shortId_mem_hierarchy_iff ht ht'⟩
  · rw [hierarchy_tooDeep_iff, hierarchy_tooDeep_iff, ne_eq, ne_eq, hd.headRoutes_eq_nil_iff]
  · simp only [hierarchy_eq_ok_iff, exists_and_left, exists_eq, and_true]
    exact hd.headRoutes_eq_nil_iff

/-- `b` comes twice and has two parents, `u` and `v` list each other, `s`
lists itself, and `x` does not belong below `r`. -/
def jumble : List Group :=
  let r : Text := [.char 'r']
  let a : Text := [.char 'a']
  let d : Text := [.char 'd']
  let b : Text := [.char 'b']
  let u : Text := [.char 'u']
  let v : Text := [.char 'v']
  [.plain a [r], .plain u [r, v], .plain b [r, a, d], .plain [.char 's'] [r, [.char 's']],
    .plain d [r], .plain [.char 'x'] [a], .plain v [r, u], .plain b [r, a],
    .plain [.char 'g'] [r, d, b]]

/-- The head to which the jumble is added. -/
def jumbleHead : Collection Group :=
  ⟨[.char 'r'], .plain [.char 'r'] [], [], 16⟩

/-- From its end the jumble gives another tree, with `b` below `d` in place
of `a`, and the same groups in it. -/
theorem hierarchy_of_reordered_jumble :
    jumble.Perm jumble.reverse
      ∧ ∃ t t', (jumbleHead.addAll jumble).1.hierarchy = .ok t
        ∧ (jumbleHead.addAll jumble.reverse).1.hierarchy = .ok t'
        ∧ t.walk.map Tree.shortId
          = [[.char 'r'], [.char 'a'], [.char 'b'], [.char 'g'], [.char 'd']]
        ∧ t'.walk.map Tree.shortId
          = [[.char 'r'], [.char 'd'], [.char 'b'], [.char 'g'], [.char 'a']]
        ∧ ∀ s, s ∈ t.walk.map Tree.shortId ↔ s ∈ t'.walk.map Tree.shortId := by
  have hperm : jumble.Perm jumble.reverse := (List.reverse_perm jumble).symm
  have hempty : (jumbleHead.addAll jumble).1.headRoutes 9 = [] := by decide +kernel
  obtain ⟨-, hbuilt, hsame⟩ := hierarchy_of_reordered jumbleHead hperm
  have ht := hierarchy_eq_ok_iff.mpr ⟨hempty, rfl⟩
  obtain ⟨t', ht'⟩ := hbuilt.mp ⟨_, ht⟩
  have hids : t'.walk.map Tree.shortId
      = [[.char 'r'], [.char 'd'], [.char 'b'], [.char 'g'], [.char 'a']] := by
    obtain ⟨-, rfl⟩ := hierarchy_eq_ok_iff.mp ht'
    decide +kernel
  exact ⟨hperm, _, t', ht, ht', by decide +kernel, hids, hsame _ _ ht ht'⟩

end Lineage.Collection
