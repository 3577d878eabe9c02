/-
Lineage.Proofs.Hierarchy.Reheading — what the head itself is attached
under.

The head is one of the members that the layering rule looks through.  But
every route starts with the head, so the head lists a whole route only if
it lists itself.  A head that does not is a candidate at no route
(`filter_listsPath_members`), whatever else it lists, so two such heads
with one short id have the same levels, routes and arrivals, and the
hierarchies below them are the same (`hierarchy_rehead`).

A head that lists itself is a candidate at the first route.  It is not
placed again, but by then it has put off every member that is not a direct
one (`hierarchy_differs_selfListing`).
-/
import Lineage.Proofs.Hierarchy.WellPlaced

namespace Lineage

universe u

variable {α : Type u}

/-- The tree with another thing at its root. -/
def Tree.withMember (m : α) (t : Tree α) : Tree α :=
  .node m t.path t.children

/-- The collection with another head element, under the same name. -/
def Collection.rehead (c : Collection α) (h : α) : Collection α :=
  { c with headElement := h }

variable [Grouped α] {c c' : Collection α} {h : α} {s : Text} {path first : List Text} {k n : Nat}

namespace Collection

/-! ## Levels -/

/-- At a path that holds it, a head that does not list itself is no
candidate. -/
theorem filter_listsPath_members (hself : ¬ Lists c.headElement c.headElement)
    (hp : Grouped.shortId c.headElement ∈ path) :
    c.members.filter (listsPath path) = c.others.filter (listsPath path) := by
  refine List.filter_cons_of_neg fun hlists => hself ?_
  exact (listsPath_iff.mp hlists).2 _ hp

theorem nextLevel_rehead (hid : Grouped.shortId h = Grouped.shortId c.headElement)
    (hold : ¬ Lists c.headElement c.headElement) (hnew : ¬ Lists h h)
    (hp : Grouped.shortId c.headElement ∈ path) :
    (c.rehead h).nextLevel path = c.nextLevel path := by
  have hcandidates : (c.rehead h).members.filter (listsPath path)
      = c.members.filter (listsPath path) := by
    rw [filter_listsPath_members hold hp]
    exact filter_listsPath_members (c := c.rehead h) hnew (hid ▸ hp)
  rw [nextLevel, nextLevel, hcandidates]

/-! ## Routes -/

/-- Two collections that go on in the same way from all routes with an
entry have the same routes from a first one with that entry. -/
theorem routes_congr (hsame : ∀ route, s ∈ route → c'.onward route = c.onward route)
    (hs : s ∈ first) (k : Nat) : c'.routes first k = c.routes first k := by
  induction k with
  | zero => rfl
  | succ k ih =>
    rw [routes, ih, routes]
    exact List.flatMap_congr fun r hr => by rw [hsame r (mem_of_mem_routes hr hs)]

end Collection

namespace Layout

open Collection

theorem arrivals_congr (hsame : ∀ route, s ∈ route → c'.onward route = c.onward route)
    (hs : s ∈ first) (n : Nat) : arrivals c' first n = arrivals c first n := by
  rw [arrivals, arrivals]
  refine List.flatMap_congr fun k _ => ?_
  rw [arrivalsAt, routes_congr hsame hs, arrivalsAt]
  refine List.flatMap_congr fun r hr => ?_
  rw [arrivalsFrom, hsame r (mem_of_mem_routes hr hs), arrivalsFrom]

end Layout

namespace Collection

open Layout

/-! ## Hierarchies -/

/-- Replace the head of a collection by one with the same short id.  If
neither lists itself, the outcome is the same: the same fault, or the same
tree, but for what stands at its root. -/
theorem hierarchy_rehead (c : Collection α) {h : α}
    (hid : Grouped.shortId h = Grouped.shortId c.headElement)
    (hold : ¬ Lists c.headElement c.headElement) (hnew : ¬ Lists h h) :
    (c.rehead h).hierarchy = c.hierarchy.map (Tree.withMember h) := by
  have hsame : ∀ route, Grouped.shortId c.headElement ∈ route →
      (c.rehead h).onward route = c.onward route := fun route hr => by
    rw [onward, nextLevel_rehead hid hold hnew hr, onward]
  have hroutes : (c.rehead h).headRoutes 9 = c.headRoutes 9 := by
    have hfirst : (c.rehead h).headRoutes 9
        = (c.rehead h).routes [Grouped.shortId c.headElement] 9 := by
      rw [← hid]
      rfl
    rw [hfirst, routes_congr hsame List.mem_cons_self, headRoutes]
  have hgrown : grown (c.rehead h) (c.rehead h).headNode 9
      = (grown c c.headNode 9).withMember h := by
    have hpath : (c.rehead h).headNode.childrenPath = [Grouped.shortId c.headElement] :=
      congrArg ([·]) hid
    have hshort : (c.rehead h).headNode.shortId = Grouped.shortId c.headElement := hid
    rw [grown, grown, graft_of_childless rfl, graft_of_childless rfl, hpath, hshort, placements,
      arrivals_congr hsame List.mem_cons_self]
    rfl
  rw [hierarchy_eq, hierarchy_eq, hroutes, hgrown]
  split
  · rfl
  · rfl

/-- The head lists a group that is no member, and `a`, which stands below
it; `b` stands below `a`, and `x` lists a group that is no member. -/
def raised : Collection Group :=
  let r : Text := [.char 'r']
  let a : Text := [.char 'a']
  ⟨r, .plain r [[.char 'p'], a],
    [.plain a [r], .plain [.char 'x'] [r, [.char 'u']], .plain [.char 'b'] [r, a]], 16⟩

/-- A head that lists nothing has the same hierarchy. -/
theorem hierarchy_rehead_raised :
    let h : Group := .plain [.char 'r'] []
    Grouped.shortId h = Grouped.shortId raised.headElement
      ∧ ¬ Lists raised.headElement raised.headElement ∧ ¬ Lists h h
      ∧ ∃ t, raised.hierarchy = .ok t
        ∧ t.walk.map Tree.shortId = [[.char 'r'], [.char 'a'], [.char 'b'], [.char 'x']]
        ∧ (raised.rehead h).hierarchy = .ok (t.withMember h) := by
  intro h
  have hid : Grouped.shortId h = Grouped.shortId raised.headElement := rfl
  have hold : ¬ Lists raised.headElement raised.headElement := by decide +kernel
  have hnew : ¬ Lists h h := by decide +kernel
  have ht : raised.hierarchy = .ok (grown raised raised.headNode 9) :=
    hierarchy_eq_ok_iff.mpr ⟨by decide +kernel, rfl⟩
  refine ⟨hid, hold, hnew, _, ht, by decide +kernel, ?_⟩
  rw [hierarchy_rehead raised hid hold hnew, ht]
  rfl

/-- `a` stands below the head and lists a group that is no member, too. -/
def lone : Collection Group :=
  let r : Text := [.char 'r']
  ⟨r, .plain r [], [.plain [.char 'a'] [r, [.char 'x']]], 16⟩

theorem built_lone : Built lone := .of_addAll rfl rfl

/-- A head that lists itself can lose what stands below it. -/
theorem hierarchy_differs_selfListing :
    let h : Group := { lone.headElement with references := [[.char 'r']] }
    Built lone ∧ ∃ t t', lone.hierarchy = .ok t ∧ (lone.rehead h).hierarchy = .ok t'
      ∧ t.walk.map Tree.shortId = [[.char 'r'], [.char 'a']]
      ∧ t'.walk.map Tree.shortId = [[.char 'r']] := by
  intro h
  exact ⟨built_lone, _, _, hierarchy_eq_ok_iff.mpr ⟨by decide +kernel, rfl⟩,
    hierarchy_eq_ok_iff.mpr ⟨by decide +kernel, rfl⟩, by decide +kernel, by decide +kernel⟩

end Collection

end Lineage
