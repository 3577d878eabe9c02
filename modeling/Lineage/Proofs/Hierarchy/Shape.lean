/-
Lineage.Proofs.Hierarchy.Shape — the layout reads short ids and
references, and nothing else.

Replacing every member by one with the same short id and the same
references (`KeepsPlace`) commutes with every step of the layout: with
the layering rule, with the routes, with the arrivals and their
placements, and with the trees that grow from them.  So it gives the same
hierarchy of the replaced members, or the same fault (`hierarchy_map`).
-/
import Lineage.Proofs.Hierarchy.Growth

namespace Lineage

universe u

variable {α β : Type u} [Grouped α] [Grouped β]

/-- What replaces a member has its short id and its references. -/
structure KeepsPlace (f : α → β) : Prop where
  shortId : ∀ m, Grouped.shortId (f m) = Grouped.shortId m
  references : ∀ m, Grouped.references (f m) = Grouped.references m

variable {f : α → β}

namespace Collection

/-! ## The layering rule -/

theorem map_shortId_map (hf : KeepsPlace f) (ms : List α) :
    (ms.map f).map Grouped.shortId = ms.map Grouped.shortId := by
  rw [List.map_map]
  exact List.map_congr_left fun m _ => hf.shortId m

theorem listsPath_map (hf : KeepsPlace f) (path : List Text) :
    listsPath path ∘ f = listsPath path := by
  funext m
  simp [listsPath, hf.references]

theorem isDirect_map (hf : KeepsPlace f) (path : List Text) :
    isDirect path ∘ f = isDirect path := by
  funext m
  simp [isDirect, hf.references]

theorem avoids_map (hf : KeepsPlace f) (shortIds : List Text) :
    avoids shortIds ∘ f = avoids shortIds := by
  funext m
  simp [avoids, hf.references]

theorem nextLevel_map (hf : KeepsPlace f) (c : Collection α) (path : List Text) :
    (c.map f).nextLevel path = (c.nextLevel path).map f := by
  have hmembers : (c.map f).members = c.members.map f := rfl
  have hdeferred : (fun m => !isDirect path m) ∘ f = fun m => !isDirect path m := by
    funext m
    exact congrArg (!·) (congrFun (isDirect_map hf path) m)
  simp only [nextLevel, hmembers, List.filter_map, listsPath_map hf, isDirect_map hf, hdeferred,
    avoids_map hf, map_shortId_map hf, List.map_append]

theorem onward_map (hf : KeepsPlace f) (c : Collection α) (route : List Text) :
    (c.map f).onward route = (c.onward route).map f := by
  have hnew : (fun m => !route.contains (Grouped.shortId m)) ∘ f
      = fun m => !route.contains (Grouped.shortId m) := by
    funext m
    simp [hf.shortId]
  rw [onward, nextLevel_map hf, List.filter_map, hnew, onward]

theorem routes_map (hf : KeepsPlace f) (c : Collection α) (first : List Text) (k : Nat) :
    (c.map f).routes first k = c.routes first k := by
  induction k with
  | zero => rfl
  | succ k ih =>
    rw [routes, ih, routes]
    refine List.flatMap_congr fun r _ => ?_
    rw [onward_map hf, List.map_map]
    exact List.map_congr_left fun m _ => by rw [Function.comp_apply, hf.shortId]

end Collection

namespace Layout

open Collection

/-! ## Placements -/

/-- The arrival at what replaces a member. -/
def Arrival.map (f : α → β) (a : Arrival α) : Arrival β :=
  ⟨a.route, f a.member⟩

/-- The placement of what replaces a member. -/
def Placement.map (f : α → β) (p : Placement α) : Placement β :=
  ⟨f p.member, p.parent⟩

theorem arrivals_map (hf : KeepsPlace f) (c : Collection α) (first : List Text) (n : Nat) :
    arrivals (c.map f) first n = (arrivals c first n).map (Arrival.map f) := by
  have hfrom : ∀ r, arrivalsFrom (c.map f) r = (arrivalsFrom c r).map (Arrival.map f) := by
    intro r
    rw [arrivalsFrom, onward_map hf, arrivalsFrom, List.map_map, List.map_map]
    rfl
  have hat : ∀ k, arrivalsAt (c.map f) first k = (arrivalsAt c first k).map (Arrival.map f) := by
    intro k
    rw [arrivalsAt, routes_map hf, arrivalsAt, List.map_flatMap]
    exact List.flatMap_congr fun r _ => hfrom r
  rw [arrivals, arrivals, List.map_flatMap]
  exact List.flatMap_congr fun k _ => hat k

theorem ids_map (hf : KeepsPlace f) (placed : List (Placement α)) :
    ids (placed.map (Placement.map f)) = ids placed := by
  rw [ids, List.map_map]
  exact List.map_congr_left fun p _ => hf.shortId p.member

theorem place_map (hf : KeepsPlace f) (placed : List (Placement α)) (a : Arrival α) :
    place (placed.map (Placement.map f)) (a.map f) = (place placed a).map (Placement.map f) := by
  have hid : (a.map f).shortId = a.shortId := hf.shortId a.member
  have hplacement : (a.map f).placement = Placement.map f a.placement := rfl
  by_cases h : a.shortId ∈ ids placed
  · rw [place_of_mem h, place_of_mem (by rw [hid, ids_map hf]; exact h)]
  · rw [place_of_not_mem h, place_of_not_mem (by rw [hid, ids_map hf]; exact h), List.map_append,
      hplacement, List.map_singleton]

theorem placements_map (hf : KeepsPlace f) (c : Collection α) (first : List Text) (n : Nat) :
    placements (c.map f) first n = (placements c first n).map (Placement.map f) := by
  have hfold : ∀ as : List (Arrival α),
      as.foldl (fun placed a => place placed (a.map f)) ([].map (Placement.map f))
        = (as.foldl place []).map (Placement.map f) := fun as =>
    List.foldl_hom _ fun placed a => place_map hf placed a
  rw [placements, arrivals_map hf, List.foldl_map, placements]
  exact hfold _

/-! ## Trees -/

theorem sprout_map (hf : KeepsPlace f) (parent : Text) (path : List Text)
    (placed : List (Placement α)) :
    sprout parent path (placed.map (Placement.map f)) = Tree.mapAll f (sprout parent path placed) := by
  induction placed generalizing parent path with
  | nil => rfl
  | cons p later ih =>
    have hparent : (Placement.map f p).parent = p.parent := rfl
    have hid : Grouped.shortId (Placement.map f p).member = Grouped.shortId p.member :=
      hf.shortId p.member
    simp only [List.map_cons, sprout, hparent, hid, ih]
    by_cases h : p.parent = parent
    · rw [if_pos h, if_pos h, Tree.mapAll, Tree.map]
      rfl
    · rw [if_neg h, if_neg h]

theorem grown_headNode_map (hf : KeepsPlace f) (c : Collection α) (n : Nat) :
    grown (c.map f) (c.map f).headNode n = (grown c c.headNode n).map f := by
  have hid : (c.map f).headNode.shortId = c.headNode.shortId := hf.shortId c.headElement
  have hpath : (c.map f).headNode.childrenPath = c.headNode.childrenPath := by
    rw [Tree.childrenPath, hid]
    rfl
  rw [grown, grown, graft_of_childless rfl, graft_of_childless rfl, hid, hpath, placements_map hf,
    sprout_map hf]
  rfl

end Layout

open Layout

/-- Members that are replaced by ones with the same short ids and
references are laid out in the same way. -/
theorem Collection.hierarchy_map (hf : KeepsPlace f) (c : Collection α) :
    (c.map f).hierarchy = c.hierarchy.map (Tree.map f) := by
  have hroutes : (c.map f).headRoutes 9 = c.headRoutes 9 := by
    have hid : Grouped.shortId (c.map f).headElement = Grouped.shortId c.headElement :=
      hf.shortId c.headElement
    rw [headRoutes, hid, routes_map hf, headRoutes]
  rw [hierarchy_eq, hierarchy_eq, hroutes, grown_headNode_map hf]
  split
  · rfl
  · rfl

end Lineage
