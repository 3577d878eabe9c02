/-
Lineage.Proofs.Hierarchy.Growth — a grown tree is what the layers of
routes say it is.

`GrownAlong` describes a tree by the routes alone: which short ids it
places, below which node each of them stands, and in which order siblings
come.  `grow_follows_routes` says that growing below a childless node
fails exactly when the layer at the limit is not empty, and otherwise
gives the tree so described.  The lemmas about `grown` before it are what
other modules know about grown trees.
-/
import Lineage.Proofs.Hierarchy.Routes

namespace Lineage

universe u

variable {α : Type u} [Grouped α]

namespace Layout

open Collection Lineage.Tree

/-- The tree grown below a node along the first layers of routes. -/
def grown (c : Collection α) (start : Tree α) (n : Nat) : Tree α :=
  graft start (placements c start.childrenPath n)

variable {c : Collection α} {start : Tree α} {n : Nat}

theorem grow_eq (c : Collection α) (start : Tree α) {depth limit : Int} (h : depth < limit) :
    c.grow start depth limit =
      let n := (limit - depth).toNat
      { tree := grown c start n
        fault := if (c.routes start.childrenPath n).isEmpty then none
          else some (.layersLeft c.head limit limit) } := by
  have hn : 0 < (limit - depth).toNat := by omega
  have hmax : max depth limit = limit := by omega
  rw [Collection.grow, expand_routes c _ hn, hmax]
  rfl

theorem routeEnd_childrenPath (start : Tree α) : routeEnd start.childrenPath = start.shortId :=
  routeEnd_concat _ _

theorem childrenPath_ne_nil (start : Tree α) : start.childrenPath ≠ [] := by
  simp [childrenPath]

theorem grounded_grown (c : Collection α) (start : Tree α) (n : Nat) :
    Grounded [start.shortId] (placements c start.childrenPath n) := by
  rw [← routeEnd_childrenPath]
  exact grounded_placements c (childrenPath_ne_nil start) n

theorem nodup_walk_grown (hs : start.children = []) :
    ((grown c start n).walk.map Tree.shortId).Nodup :=
  nodup_walk_graft hs (grounded_grown c start n)

theorem pathsKept_grown (hs : start.children = []) : PathsKept (grown c start n) :=
  pathsKept_graft hs (grounded_grown c start n)

/-- The placed short ids are those that are arrived at. -/
theorem mem_walk_grown (hs : start.children = []) {s : Text} :
    s ∈ (grown c start n).walk.map Tree.shortId ↔
      s = start.shortId ∨ ∃ a ∈ arrivals c start.childrenPath n, a.shortId = s := by
  rw [grown, (perm_walk_graft_ids hs (grounded_grown c start n)).mem_iff, List.mem_cons,
    mem_ids_placements]

/-- A child was placed by the first arrival at its short id, at the end
of a route that ends at the parent. -/
theorem exists_arrival_of_child (hs : start.children = []) {p child : Tree α}
    (hp : p ∈ (grown c start n).walk) (hc : child ∈ p.children) :
    ∃ a, (arrivals c start.childrenPath n).find? (fun b => b.shortId = child.shortId) = some a
      ∧ a.member = child.member ∧ routeEnd a.route = p.shortId := by
  obtain ⟨q, hq, hmember, hparent⟩ :=
    mem_placed_of_mem_children hs (grounded_grown c start n) hp hc
  obtain ⟨a, ha, rfl⟩ := exists_first_arrival hq
  have hmember : a.member = child.member := hmember
  have hid : a.shortId = child.shortId := by rw [Arrival.shortId, hmember]; rfl
  exact ⟨a, hid ▸ ha, hmember, hparent⟩

/-- The first arrival at a short id finds the first group of its level
that has this short id. -/
theorem find?_nextLevel_of_arrival {s : Text} {a : Arrival α}
    (h : (arrivals c start.childrenPath n).find? (fun b => b.shortId = s) = some a) :
    (c.nextLevel a.route).find? (fun m => Grouped.shortId m = s) = some a.member := by
  obtain ⟨k, _, h⟩ : ∃ k ∈ List.range n,
      (arrivalsAt c start.childrenPath k).find? (fun b => b.shortId = s) = some a := by
    rw [arrivals, List.find?_flatMap] at h
    exact List.exists_of_findSome?_eq_some h
  obtain ⟨r, _, h⟩ : ∃ r ∈ c.routes start.childrenPath k,
      (arrivalsFrom c r).find? (fun b => b.shortId = s) = some a := by
    rw [arrivalsAt, List.find?_flatMap] at h
    exact List.exists_of_findSome?_eq_some h
  rw [arrivalsFrom, List.find?_map, Option.map_eq_some_iff] at h
  obtain ⟨m, hm, rfl⟩ := h
  have hm : (c.onward r).find? (fun x => Grouped.shortId x = s) = some m := hm
  have hnew := (mem_onward.mp (List.mem_of_find?_eq_some hm)).2
  have hid : Grouped.shortId m = s := by
    have := List.find?_some hm
    exact of_decide_eq_true this
  -- A group with this short id is no entry of the route, so it is not left out.
  rw [onward, List.find?_filter] at hm
  rw [← hm]
  congr 1
  funext x
  by_cases hx : Grouped.shortId x = s
  · have hx' : s ∉ r := hid ▸ hnew
    simp [hx, hx']
  · simp [hx]

end Layout

namespace Collection

open Layout

/-! ## Whole hierarchies -/

/-- The head as a tree of its own. -/
def headNode (c : Collection α) : Tree α :=
  .node c.headElement [] []

/-- The routes of a layer below the head. -/
def headRoutes (c : Collection α) (k : Nat) : List (List Text) :=
  c.routes [Grouped.shortId c.headElement] k

/-- A whole hierarchy has room for nine layers of routes below the
head. -/
theorem hierarchy_eq (c : Collection α) :
    c.hierarchy =
      if (c.headRoutes 9).isEmpty then .ok (grown c c.headNode 9)
      else .error (.layersLeft c.head safetyDepth safetyDepth) := by
  have h : (1 : Int) < safetyDepth := by decide
  have hn : (safetyDepth - 1).toNat = 9 := by decide
  have hgrow := grow_eq c c.headNode h
  have hpath : c.headNode.childrenPath = [Grouped.shortId c.headElement] := rfl
  rw [hn, hpath] at hgrow
  rw [hierarchy, ← headNode, hgrow, headRoutes]
  by_cases hempty : c.routes [Grouped.shortId c.headElement] 9 = []
  · simp [hempty]
  · simp [hempty]

theorem hierarchy_eq_ok_iff {c : Collection α} {t : Tree α} :
    c.hierarchy = .ok t ↔ c.headRoutes 9 = [] ∧ t = grown c c.headNode 9 := by
  rw [hierarchy_eq]
  cases c.headRoutes 9 with
  | nil => simp [eq_comm]
  | cons r rest => simp

theorem nodup_walk_hierarchy {c : Collection α} {t : Tree α} (ht : c.hierarchy = .ok t) :
    (t.walk.map Tree.shortId).Nodup := by
  obtain ⟨-, rfl⟩ := hierarchy_eq_ok_iff.mp ht
  exact nodup_walk_grown rfl

theorem pathsKept_hierarchy {c : Collection α} {t : Tree α} (ht : c.hierarchy = .ok t) :
    Tree.PathsKept t := by
  obtain ⟨-, rfl⟩ := hierarchy_eq_ok_iff.mp ht
  exact pathsKept_grown rfl

theorem member_hierarchy {c : Collection α} {t : Tree α} (ht : c.hierarchy = .ok t) :
    t.member = c.headElement := by
  obtain ⟨-, rfl⟩ := hierarchy_eq_ok_iff.mp ht
  rfl

theorem depth_hierarchy {c : Collection α} {t : Tree α} (ht : c.hierarchy = .ok t) : t.depth = 0 := by
  obtain ⟨-, rfl⟩ := hierarchy_eq_ok_iff.mp ht
  rfl

theorem hierarchy_tooDeep_iff {c : Collection α} :
    (∃ fault, c.hierarchy = .error fault ∧ fault.kind = .tooDeep) ↔ c.headRoutes 9 ≠ [] := by
  rw [hierarchy_eq]
  cases c.headRoutes 9 with
  | nil => simp
  | cons r rest => simp [HierarchyFault.kind]

/-! ## Trees described by routes -/

/-- The routes of the layers after the first route, in order of
discovery. -/
def laterRoutes (c : Collection α) (first : List Text) (n : Nat) : List (List Text) :=
  (List.range n).flatMap fun k => c.routes first (k + 1)

/-- The first later route that ends in a short id. -/
def firstRoute? (c : Collection α) (first : List Text) (n : Nat) (s : Text) :
    Option (List Text) :=
  (c.laterRoutes first n).find? fun r => routeEnd r = s

/-- The ends of the later routes, each at its first discovery. -/
def discovered (c : Collection α) (first : List Text) (n : Nat) : List Text :=
  distinct ((c.laterRoutes first n).map routeEnd)

/-- The entry before the last one of a route. -/
def routeParent (route : List Text) : Text :=
  routeEnd route.dropLast

/-- A tree grows below a start along the first layers of routes. -/
structure GrownAlong (c : Collection α) (start : Tree α) (n : Nat) (t : Tree α) : Prop where
  /-- The start stands at the root. -/
  root : t.member = start.member ∧ t.path = start.path
  /-- No short id is placed twice. -/
  once : (t.walk.map Tree.shortId).Nodup
  /-- The start and all ends of later routes are placed, and nothing
  else. -/
  placed : ∀ s, s ∈ t.walk.map Tree.shortId ↔
    s = start.shortId ∨ ∃ k, ∃ r ∈ c.routes start.childrenPath (k + 1), routeEnd r = s
  /-- Below a node stand the short ids whose first route comes from it, in
  order of discovery. -/
  children : ∀ p ∈ t.walk, p.children.map Tree.shortId =
    (c.discovered start.childrenPath n).filter fun s =>
      (c.firstRoute? start.childrenPath n s).map routeParent = some p.shortId
  /-- A node holds the group that its first route finds on its level. -/
  member : ∀ p ∈ t.walk, ∀ child ∈ p.children, ∃ r,
    c.firstRoute? start.childrenPath n child.shortId = some (r ++ [child.shortId])
      ∧ (c.nextLevel r).find? (fun m => Grouped.shortId m = child.shortId) = some child.member

theorem laterRoutes_eq (c : Collection α) (first : List Text) (n : Nat) :
    c.laterRoutes first n = (arrivals c first n).map Arrival.longer := by
  rw [laterRoutes, arrivals, List.map_flatMap]
  congr 1
  funext k
  rw [map_longer_arrivalsAt]

theorem routeEnd_longer (a : Arrival α) : routeEnd a.longer = a.shortId :=
  routeEnd_concat _ _

theorem routeParent_longer (a : Arrival α) : routeParent a.longer = routeEnd a.route := by
  simp [routeParent, Arrival.longer]

theorem firstRoute?_eq (c : Collection α) (first : List Text) (n : Nat) (s : Text) :
    c.firstRoute? first n s =
      ((arrivals c first n).find? fun a => a.shortId = s).map Arrival.longer := by
  rw [firstRoute?, laterRoutes_eq, List.find?_map]
  simp only [Function.comp_def, routeEnd_longer]

theorem discovered_eq (c : Collection α) (first : List Text) (n : Nat) :
    c.discovered first n = ids (placements c first n) := by
  rw [discovered, laterRoutes_eq, List.map_map, ids_placements]
  congr 2
  funext a
  exact routeEnd_longer a

variable {c : Collection α} {start : Tree α} {n : Nat}

/-- Where the last layer is empty, the later routes are those of the
layers before it. -/
theorem exists_arrival_iff_exists_route {first : List Text} (hempty : c.routes first n = [])
    {s : Text} :
    (∃ a ∈ arrivals c first n, a.shortId = s) ↔
      ∃ k, ∃ r ∈ c.routes first (k + 1), routeEnd r = s := by
  constructor
  · rintro ⟨a, ha, rfl⟩
    obtain ⟨k, _, ha⟩ := mem_arrivals.mp ha
    refine ⟨k, a.longer, ?_, routeEnd_longer a⟩
    rw [← map_longer_arrivalsAt]
    exact List.mem_map_of_mem ha
  · rintro ⟨k, r, hr, rfl⟩
    have hk : k < n := by
      by_contra hge
      rw [routes_eq_nil_of_le hempty (by omega)] at hr
      exact List.not_mem_nil hr
    rw [← map_longer_arrivalsAt] at hr
    obtain ⟨a, ha, rfl⟩ := List.mem_map.mp hr
    exact ⟨a, mem_arrivals.mpr ⟨k, hk, ha⟩, (routeEnd_longer a).symm⟩

theorem children_grown (hs : start.children = []) {p : Tree α} (hp : p ∈ (grown c start n).walk) :
    p.children.map Tree.shortId =
      (c.discovered start.childrenPath n).filter fun s =>
        (c.firstRoute? start.childrenPath n s).map routeParent = some p.shortId := by
  have hmembers := congrArg (List.map Grouped.shortId)
    (children_graft hs (grounded_grown c start n) hp)
  rw [List.map_map, List.map_map] at hmembers
  rw [discovered_eq, ids, List.filter_map]
  refine hmembers.trans (congrArg _ (List.filter_congr fun q hq => ?_))
  obtain ⟨a, ha, rfl⟩ := exists_first_arrival hq
  have hid : Grouped.shortId a.placement.member = a.shortId := rfl
  have hparent : a.placement.parent = routeEnd a.route := rfl
  simp only [Function.comp_apply, hid, hparent, firstRoute?_eq, ha, Option.map_some,
    routeParent_longer, Option.some.injEq]

theorem grownAlong_grown (hs : start.children = [])
    (hempty : c.routes start.childrenPath n = []) : GrownAlong c start n (grown c start n) where
  root := ⟨rfl, rfl⟩
  once := nodup_walk_grown hs
  placed s := by rw [mem_walk_grown hs, exists_arrival_iff_exists_route hempty]
  children _ hp := children_grown hs hp
  member p hp child hc := by
    obtain ⟨a, ha, hmember, _⟩ := exists_arrival_of_child hs hp hc
    have hid : a.shortId = child.shortId := by rw [Arrival.shortId, hmember]; rfl
    refine ⟨a.route, ?_, ?_⟩
    · rw [firstRoute?_eq, ha, Option.map_some, Arrival.longer, hid]
    · rw [← hmember]
      exact find?_nextLevel_of_arrival ha

/-- Growing below a childless node fails as too deep exactly when the
layer of routes at the limit is not empty, and otherwise gives the tree
that the routes describe. -/
theorem grow_follows_routes (c : Collection α) (start : Tree α) (hs : start.children = [])
    {depth limit : Int} (h : depth < limit) :
    let n := (limit - depth).toNat
    let growth := c.grow start depth limit
    ((∃ fault, growth.fault = some fault ∧ fault.kind = .tooDeep)
        ↔ c.routes start.childrenPath n ≠ [])
      ∧ (growth.fault = none ↔ c.routes start.childrenPath n = [])
      ∧ (c.routes start.childrenPath n = [] → GrownAlong c start n growth.tree) := by
  intro n growth
  have hgrowth := grow_eq c start h
  have hfault : growth.fault = if (c.routes start.childrenPath n).isEmpty then none
      else some (.layersLeft c.head limit limit) := by
    simp only [growth, hgrowth, n]
  have htree : growth.tree = grown c start n := by
    simp only [growth, hgrowth, n]
  by_cases hempty : c.routes start.childrenPath n = []
  · refine ⟨?_, ?_, fun _ => ?_⟩
    · simp [hfault, hempty]
    · simp [hfault, hempty]
    · rw [htree]
      exact grownAlong_grown hs hempty
  · refine ⟨?_, ?_, fun hnil => absurd hnil hempty⟩
    · simp [hfault, hempty, HierarchyFault.kind]
    · simp [hfault, hempty]

/-- `a` and `d` stand below the head `r`, `b` below both, and `g` below
`d` and `b`, but not below `a`. -/
def twoParents : Collection Group :=
  let r : Text := [.char 'r']
  let a : Text := [.char 'a']
  let d : Text := [.char 'd']
  let b : Text := [.char 'b']
  ⟨r, .plain r [],
    [.plain a [r], .plain d [r], .plain b [r, a, d], .plain [.char 'g'] [r, d, b]], 32⟩

/-- Only the second parent of `b` leads to `g`, and `g` is placed. -/
theorem grow_follows_routes_twoParents :
    let start : Tree Group := .node twoParents.headElement [] []
    (start.children = [] ∧ 1 < safetyDepth)
      ∧ twoParents.routes start.childrenPath 9 = []
      ∧ [.char 'g'] ∈ (twoParents.grow start 1 safetyDepth).tree.walk.map Tree.shortId := by
  intro start
  have hempty : twoParents.routes start.childrenPath 9 = [] := by decide +kernel
  have hgrown := (grow_follows_routes twoParents start rfl (show 1 < safetyDepth by decide)).2.2
    hempty
  refine ⟨⟨rfl, by decide⟩, hempty, (hgrown.placed _).mpr (.inr ⟨2, ?_⟩)⟩
  exact ⟨[[.char 'r'], [.char 'd'], [.char 'b'], [.char 'g']], by decide +kernel, by decide⟩

end Collection

end Lineage
