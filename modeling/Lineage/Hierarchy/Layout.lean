/-
Lineage.Hierarchy.Layout — laying a collection out as a tree.

Layers of routes are expanded breadth first.  A group is placed once, at
the first route that reaches it, as a child of the group before it on
that route; a later route to a placed group is still followed, so that
groups which only it reaches are placed too.  A route never returns to a
group of its own.  Layers that are left when the depth limit is reached
make the layout fail.
-/
import Lineage.Hierarchy.Collection

namespace Lineage

universe u

/-- The greatest depth of a whole hierarchy; the head has depth one. -/
def safetyDepth : Int := 10

/-- A placed group: its parent is named by its short id, which no other
placed group has. -/
structure Placement (α : Type u) where
  member : α
  parent : Text

namespace Layout

variable {α : Type u} [Grouped α]

/-- What has been placed so far, in order of discovery, and the routes
of the next layer. -/
structure State (α : Type u) where
  placed : List (Placement α)
  routes : List (List Text)

/-- Follows a route to one group below its end. -/
def follow (route : List Text) (state : State α) (m : α) : State α :=
  let shortId := Grouped.shortId m
  if route.contains shortId then state
  else
    { placed :=
        if state.placed.any (fun p => Grouped.shortId p.member = shortId) then state.placed
        else state.placed ++ [⟨m, route.getLastD []⟩]
      routes := state.routes ++ [route ++ [shortId]] }

/-- Expands one route. -/
def expandRoute (c : Collection α) (state : State α) (route : List Text) : State α :=
  (c.nextLevel route).foldl (follow route) state

/-- Expands all routes of a layer. -/
def expandLayer (c : Collection α) (placed : List (Placement α)) (layer : List (List Text)) :
    State α :=
  layer.foldl (expandRoute c) ⟨placed, []⟩

/-- Expands layer after layer, at most `budget` of them: what has been
placed, and whether no layer was left. -/
def expand (c : Collection α) :
    Nat → List (Placement α) → List (List Text) → List (Placement α) × Bool
  | 0, placed, _ => (placed, false)
  | budget + 1, placed, layer =>
    let state := expandLayer c placed layer
    if state.routes.isEmpty then (state.placed, true)
    else expand c budget state.placed state.routes

/-- The trees of the placements below a parent, which has the path: a
child is placed later than its parent. -/
def sprout (parent : Text) (path : List Text) : List (Placement α) → List (Tree α)
  | [] => []
  | p :: later =>
    if p.parent = parent then
      let shortId := Grouped.shortId p.member
      .node p.member path (sprout shortId (path ++ [shortId]) later) :: sprout parent path later
    else sprout parent path later

/-- A tree grown by the placements below its root. -/
def graft (start : Tree α) (placed : List (Placement α)) : Tree α :=
  start.withChildren (start.children ++ sprout start.shortId start.childrenPath placed)

/-- The growth of a tree: the tree as far as it got, and the fault if
layers were left. -/
structure Growth (α : Type u) where
  tree : Tree α
  fault : Option HierarchyFault

end Layout

namespace Collection

variable {α : Type u} [Grouped α]

/-- Grows the tree below a node at a depth, up to a greatest depth. -/
def grow (c : Collection α) (start : Tree α) (depth limit : Int) : Layout.Growth α :=
  let (placed, complete) := Layout.expand c (limit - depth).toNat [] [start.childrenPath]
  { tree := Layout.graft start placed
    fault := if complete then none else some (.layersLeft c.head (max depth limit) limit) }

/-- The tree below the head. -/
def hierarchy (c : Collection α) : Except HierarchyFault (Tree α) :=
  let growth := c.grow (.node c.headElement [] []) 1 safetyDepth
  match growth.fault with
  | none => .ok growth.tree
  | some fault => .error fault

end Collection

end Lineage
