/-
Lineage.Proofs.Hierarchy.Hiding — the view of a hierarchy in which a
group was deactivated.

`View.prune` takes out of a view every group with a short id, together
with all that stands below it, and leaves the rest in place.  The short
ids of a view are some of those of the tree it shows, in their order
(`shortIds_ofTree?`), so where the tree repeats none, there is one such
group at most.  Deactivating a group in a tree takes it out of the view in
just this way (`ofTree?_hide`).
-/
import Lineage.Hierarchy.View
import Lineage.Proofs.Directory.Changes
import Lineage.Proofs.Hierarchy.Shape

namespace Lineage

namespace View

/-! ## Taking a group out of a view -/

mutual

/-- The short ids of a view, a group before those below it. -/
def shortIds : View → List Text
  | .node s _ _ children _ => s :: shortIdsAll children

/-- The short ids of the views of a list. -/
def shortIdsAll : List View → List Text
  | [] => []
  | v :: rest => shortIds v ++ shortIdsAll rest

end

mutual

/-- The view without the views below its root that have a short id at
their roots. -/
def prune (x : Text) : View → View
  | .node s n d children roles => .node s n d (pruneAll x children) roles

/-- The views of a list without those that have a short id at their
roots, or below. -/
def pruneAll (x : Text) : List View → List View
  | [] => []
  | v :: rest => if v.shortId = x then pruneAll x rest else prune x v :: pruneAll x rest

end

theorem shortId_mem_shortIds (v : View) : v.shortId ∈ v.shortIds := by
  obtain ⟨s, n, d, children, roles⟩ := v
  rw [shortIds]
  exact List.mem_cons_self

mutual

/-- A view without the group stays as it is. -/
theorem prune_of_not_mem {x : Text} : ∀ v : View, x ∉ v.shortIds → v.prune x = v
  | .node s n d children roles, h => by
    rw [shortIds, List.mem_cons, not_or] at h
    rw [prune, pruneAll_of_not_mem children h.2]

theorem pruneAll_of_not_mem {x : Text} : ∀ vs : List View, x ∉ shortIdsAll vs → pruneAll x vs = vs
  | [], _ => rfl
  | v :: rest, h => by
    rw [shortIdsAll, List.mem_append, not_or] at h
    have hroot : v.shortId ≠ x := fun heq => h.1 (heq ▸ shortId_mem_shortIds v)
    rw [pruneAll, if_neg hroot, prune_of_not_mem v h.1, pruneAll_of_not_mem rest h.2]

end

mutual

/-- Without annotations a view stays as it is. -/
theorem enrich_nil : ∀ v : View, enrich [] v = v
  | .node s n d children roles => by
    rw [enrich, List.find?_nil]
    dsimp only
    rw [enrichAll_nil children]

theorem enrichAll_nil : ∀ vs : List View, enrichAll [] vs = vs
  | [] => rfl
  | v :: rest => by rw [enrichAll, enrich_nil v, enrichAll_nil rest]

end

/-! ## What a view shows -/

section Grouped

universe u

variable {α : Type u} [Grouped α]

theorem shortId_of_ofTree? {t : Tree α} {v : View} (h : ofTree? t = some v) :
    v.shortId = t.shortId := by
  obtain ⟨m, path, children⟩ := t
  rw [ofTree?] at h
  split at h
  · obtain rfl := Option.some.inj h
    rfl
  · cases h

mutual

/-- A view shows some of the groups of a tree, in their order. -/
theorem shortIds_ofTree? : ∀ (t : Tree α) (v : View), ofTree? t = some v →
    v.shortIds.Sublist (t.walk.map Tree.shortId)
  | .node m path children, v, h => by
    rw [ofTree?] at h
    split at h
    · obtain rfl := Option.some.inj h
      rw [shortIds, Tree.walk, List.map_cons]
      exact (shortIds_ofTrees children).cons_cons _
    · cases h

theorem shortIds_ofTrees : ∀ ts : List (Tree α),
    (shortIdsAll (ofTrees ts)).Sublist ((Tree.walkAll ts).map Tree.shortId)
  | [] => List.Sublist.refl _
  | t :: rest => by
    rw [Tree.walkAll, List.map_append, ofTrees]
    split
    · rename_i v hv
      rw [shortIdsAll]
      exact (shortIds_ofTree? t v hv).append (shortIds_ofTrees rest)
    · exact (shortIds_ofTrees rest).trans (List.sublist_append_right _ _)

end

end Grouped

end View

/-! ## Deactivating a group -/

namespace Group

/-- The group as it is after deactivating the one with a short id at a
time. -/
def hide (x : Text) (now : Int) (g : Group) : Group :=
  if g.shortId = x then g.deactivated now else g

variable {x : Text} {now : Int} {g : Group}

theorem hide_of_eq (h : g.shortId = x) : g.hide x now = g.deactivated now := if_pos h

theorem hide_of_ne (h : g.shortId ≠ x) : g.hide x now = g := if_neg h

@[simp] theorem hide_shortId (x : Text) (now : Int) (g : Group) :
    (g.hide x now).shortId = g.shortId := by
  unfold hide
  split <;> rfl

@[simp] theorem hide_references (x : Text) (now : Int) (g : Group) :
    (g.hide x now).references = g.references := by
  unfold hide
  split <;> rfl

/-- Deactivating changes neither short ids nor references. -/
theorem keepsPlace_hide (x : Text) (now : Int) : KeepsPlace (hide x now) where
  shortId := hide_shortId x now
  references := hide_references x now

end Group

namespace View

mutual

/-- Deactivating a group takes it out of the view, with all that stands
below it; without its root a tree has no view. -/
theorem ofTree?_hide (x : Text) (now : Int) : ∀ t : Tree Group,
    ofTree? (t.map (Group.hide x now))
      = if t.shortId = x then none else (ofTree? t).map (prune x)
  | .node g path children => by
    have hroot : (Tree.node g path children).shortId = g.shortId := rfl
    rw [Tree.map, ofTree?, ofTree?, ofTrees_hide x now children, hroot]
    by_cases h : g.shortId = x
    · rw [if_pos h, Group.hide_of_eq h]
      rfl
    · rw [if_neg h, Group.hide_of_ne h, apply_ite (Option.map (prune x))]
      rfl

theorem ofTrees_hide (x : Text) (now : Int) : ∀ ts : List (Tree Group),
    ofTrees (Tree.mapAll (Group.hide x now) ts) = pruneAll x (ofTrees ts)
  | [] => rfl
  | t :: rest => by
    rw [Tree.mapAll, ofTrees, ofTrees, ofTree?_hide x now t, ofTrees_hide x now rest]
    cases hv : ofTree? t with
    | none => rw [Option.map_none, ite_self]
    | some v =>
      have hid : v.shortId = t.shortId := shortId_of_ofTree? hv
      by_cases h : t.shortId = x
      · rw [if_pos h, pruneAll, if_pos (hid.trans h)]
      · rw [if_neg h, pruneAll, if_neg (hid ▸ h)]
        rfl

end

end View

end Lineage
