/-
Lineage.Proofs.Hierarchy.Pruning — taking a group that nobody lists out of
a collection.

`Collection.without` takes a member out, `Tree.prune` takes a node out
with all that stands below it.  If no member lists a group, the group
matters to the layout of no other one: on no level is another group a
direct or a free one because of it or put off for it
(`nextLevel_without`), and every route that reaches it ends there
(`nextLevel_of_mem_unlisted`).  So the routes without it are the routes
that avoid it (`routes_without`), the same groups arrive first at the same
places, and the hierarchy of the collection without the group is the
hierarchy of the whole one, pruned (`hierarchy_without`).
-/
import Lineage.Proofs.Hierarchy.Growth

namespace Lineage

universe u

variable {α : Type u} [Grouped α]

namespace Tree

mutual

/-- The tree without the nodes below its root that have a short id, and
without all below them. -/
def prune (x : Text) : Tree α → Tree α
  | .node m path children => .node m path (pruneAll x children)

/-- The trees of a list without the nodes that have a short id, and
without all below them. -/
def pruneAll (x : Text) : List (Tree α) → List (Tree α)
  | [] => []
  | t :: rest => if t.shortId = x then pruneAll x rest else prune x t :: pruneAll x rest

end

end Tree

/-- What a filter drops adds nothing. -/
theorem flatMap_filter_of_nil {γ δ : Type*} {xs : List γ} {p : γ → Bool} {f g : γ → List δ}
    (hkeep : ∀ a ∈ xs, p a = true → f a = g a) (hdrop : ∀ a ∈ xs, p a = false → g a = []) :
    (xs.filter p).flatMap f = xs.flatMap g := by
  induction xs with
  | nil => rfl
  | cons a rest ih =>
    have hrest := ih (fun b hb => hkeep b (List.mem_cons_of_mem _ hb))
      fun b hb => hdrop b (List.mem_cons_of_mem _ hb)
    rw [List.flatMap_cons, ← hrest]
    cases hp : p a with
    | true => rw [List.filter_cons_of_pos hp, List.flatMap_cons, hkeep a List.mem_cons_self hp]
    | false =>
      rw [List.filter_cons_of_neg (by simp [hp]), hdrop a List.mem_cons_self hp, List.nil_append]

namespace Collection

/-- The member has another short id. -/
def isOther (x : Text) (m : α) : Bool :=
  Grouped.shortId m ≠ x

theorem isOther_iff {x : Text} {m : α} : isOther x m = true ↔ Grouped.shortId m ≠ x := by
  simp [isOther]

/-- The collection without the members below its head that have a short
id. -/
def without (c : Collection α) (x : Text) : Collection α :=
  { c with others := c.others.filter (isOther x) }

/-- No member lists the short id, and it is not that of the head. -/
structure Unlisted (c : Collection α) (x : Text) : Prop where
  head : Grouped.shortId c.headElement ≠ x
  lists : ∀ m ∈ c.members, x ∉ Grouped.references m

variable {c : Collection α} {x : Text} {path first : List Text} {k n : Nat}

/-! ## The layering rule -/

/-- A group that does not list the short id avoids it anyway. -/
theorem avoids_filter_isOther {m : α} (hm : x ∉ Grouped.references m) (ms : List α) :
    avoids ((ms.filter (isOther x)).map Grouped.shortId) m
      = avoids (ms.map Grouped.shortId) m := by
  rw [Bool.eq_iff_iff, avoids_iff, avoids_iff]
  refine ⟨fun h b hb hl => ?_, fun h b hb => h b (List.mem_filter.mp hb).1⟩
  have hother : Grouped.shortId b ≠ x := fun heq => hm (heq ▸ hl)
  exact h b (List.mem_filter.mpr ⟨hb, isOther_iff.mpr hother⟩) hl

theorem filter_avoids_filter_isOther {ms : List α} (hms : ∀ m ∈ ms, x ∉ Grouped.references m)
    (bs : List α) :
    (ms.filter (isOther x)).filter (avoids ((bs.filter (isOther x)).map Grouped.shortId))
      = (ms.filter (avoids (bs.map Grouped.shortId))).filter (isOther x) := by
  rw [List.filter_filter, List.filter_filter]
  refine List.filter_congr fun m hm => ?_
  rw [avoids_filter_isOther (hms m hm), Bool.and_comm]

/-- On every level the other groups stand as they would without the
group. -/
theorem nextLevel_without (h : Unlisted c x) (path : List Text) :
    (c.without x).nextLevel path = (c.nextLevel path).filter (isOther x) := by
  have hmembers : (c.without x).members = c.members.filter (isOther x) := by
    rw [members, members, List.filter_cons_of_pos (isOther_iff.mpr h.head)]
    rfl
  let candidates := c.members.filter (listsPath path)
  let direct := candidates.filter (isDirect path)
  let deferred := candidates.filter fun m => !isDirect path m
  let free := deferred.filter (avoids (direct.map Grouped.shortId))
  have hdeferred : ∀ m ∈ deferred, x ∉ Grouped.references m := fun m hm =>
    h.lists m (List.mem_filter.mp (List.mem_filter.mp hm).1).1
  have hfree : (deferred.filter (isOther x)).filter
      (avoids ((direct.filter (isOther x)).map Grouped.shortId)) = free.filter (isOther x) :=
    filter_avoids_filter_isOther hdeferred direct
  have hroots : (free.filter (isOther x)).filter
      (avoids ((free.filter (isOther x)).map Grouped.shortId))
        = (free.filter (avoids (free.map Grouped.shortId))).filter (isOther x) :=
    filter_avoids_filter_isOther (fun m hm => hdeferred m (List.mem_filter.mp hm).1) free
  have hdef : c.nextLevel path = direct ++ free.filter (avoids (free.map Grouped.shortId)) := rfl
  have hcomm : ∀ (p : α → Bool) (ms : List α),
      (ms.filter (isOther x)).filter p = (ms.filter p).filter (isOther x) := fun p ms =>
    List.filter_comm ..
  rw [hdef, List.filter_append, ← hroots, ← hfree]
  simp only [nextLevel, hmembers, hcomm (listsPath path), hcomm (isDirect path),
    hcomm fun m => !isDirect path m]
  rfl

/-- No group stands below a path with the short id. -/
theorem nextLevel_of_mem_unlisted (h : Unlisted c x) (hx : x ∈ path) : c.nextLevel path = [] := by
  refine List.eq_nil_iff_forall_not_mem.mpr fun m hm => ?_
  exact h.lists m (mem_members_of_mem_nextLevel hm) (mem_references_of_mem_nextLevel hm x hx)

/-! ## Routes and arrivals -/

theorem onward_without (h : Unlisted c x) (route : List Text) :
    (c.without x).onward route = (c.onward route).filter (isOther x) := by
  rw [onward, onward, nextLevel_without h, List.filter_comm]

theorem onward_of_mem_unlisted (h : Unlisted c x) (hx : x ∈ path) : c.onward path = [] := by
  rw [onward, nextLevel_of_mem_unlisted h hx, List.filter_nil]

/-- The routes without the group are those that avoid it. -/
theorem routes_without (h : Unlisted c x) (hfirst : x ∉ first) (k : Nat) :
    (c.without x).routes first k = (c.routes first k).filter fun r => x ∉ r := by
  induction k with
  | zero => simp [routes, hfirst]
  | succ k ih =>
    rw [routes, ih, routes, List.filter_flatMap]
    refine flatMap_filter_of_nil (fun r _ hr => ?_) fun r _ hr => ?_
    · have hr : x ∉ r := by simpa using hr
      have havoids : (fun s => decide (x ∉ s)) ∘ (fun m => r ++ [Grouped.shortId m])
          = isOther (α := α) x := by
        funext m
        simp [isOther, hr, eq_comm]
      rw [onward_without h, List.filter_map, havoids]
    · have hr : x ∈ r := by simpa using hr
      rw [onward_of_mem_unlisted h hr, List.map_nil, List.filter_nil]

end Collection

namespace Layout

open Collection

variable {c : Collection α} {x : Text} {first : List Text} {n : Nat}

/-- The arrivals without the group are the arrivals at the other ones. -/
theorem arrivals_without (h : Unlisted c x) (hfirst : x ∉ first) (n : Nat) :
    arrivals (c.without x) first n = (arrivals c first n).filter fun a => a.shortId ≠ x := by
  rw [arrivals, arrivals, List.filter_flatMap]
  refine List.flatMap_congr fun k _ => ?_
  rw [arrivalsAt, routes_without h hfirst, arrivalsAt, List.filter_flatMap]
  refine flatMap_filter_of_nil (fun r _ _ => ?_) fun r _ hr => ?_
  · rw [arrivalsFrom, onward_without h, arrivalsFrom, List.filter_map]
    rfl
  · have hr : x ∈ r := by simpa using hr
    rw [arrivalsFrom, onward_of_mem_unlisted h hr, List.map_nil, List.filter_nil]

theorem firsts_filter_ne (x : Text) (as : List (Arrival α)) :
    firsts (as.filter fun a => a.shortId ≠ x) = (firsts as).filter fun a => a.shortId ≠ x := by
  induction as with
  | nil => rfl
  | cons a rest ih =>
    by_cases ha : a.shortId = x
    · rw [List.filter_cons_of_neg (by simpa using ha), ih, firsts,
        List.filter_cons_of_neg (by simpa using ha), List.filter_filter]
      refine List.filter_congr fun b _ => ?_
      simp [ha]
    · rw [List.filter_cons_of_pos (by simpa using ha), firsts, ih, firsts,
        List.filter_cons_of_pos (by simpa using ha), List.filter_comm]

/-- What is placed without the group are the placements of the other
ones. -/
theorem placements_without (h : Unlisted c x) (hfirst : x ∉ first) (n : Nat) :
    placements (c.without x) first n
      = (placements c first n).filter fun p => Grouped.shortId p.member ≠ x := by
  rw [placements_eq, arrivals_without h hfirst, firsts_filter_ne, placements_eq, List.filter_map]
  rfl

/-! ## Trees -/

/-- What sprouts from the placements of the other groups is what sprouts
from all placements, pruned. -/
theorem pruneAll_sprout (x parent : Text) (path : List Text) (placed : List (Placement α)) :
    Tree.pruneAll x (sprout parent path placed)
      = sprout parent path (placed.filter fun p => Grouped.shortId p.member ≠ x) := by
  induction placed generalizing parent path with
  | nil => rfl
  | cons p later ih =>
    have hroot : ∀ cs, (Tree.node p.member path cs).shortId = Grouped.shortId p.member :=
      fun _ => rfl
    by_cases hx : Grouped.shortId p.member = x
    · rw [List.filter_cons_of_neg (by simpa using hx), ← ih, sprout]
      by_cases hp : p.parent = parent
      · rw [if_pos hp, Tree.pruneAll, hroot, if_pos hx]
      · rw [if_neg hp]
    · rw [List.filter_cons_of_pos (by simpa using hx)]
      by_cases hp : p.parent = parent
      · rw [sprout, if_pos hp, sprout, if_pos hp, ← ih parent path]
        dsimp only
        rw [← ih, Tree.pruneAll, hroot, if_neg hx, Tree.prune]
      · rw [sprout, if_neg hp, sprout, if_neg hp, ih]

end Layout

open Layout

/-- The hierarchy of a collection without a group that no member lists is
the hierarchy of the whole collection, pruned. -/
theorem Collection.hierarchy_without {c : Collection α} {x : Text} (h : Unlisted c x)
    {t : Tree α} (ht : c.hierarchy = .ok t) : (c.without x).hierarchy = .ok (t.prune x) := by
  obtain ⟨hempty, rfl⟩ := hierarchy_eq_ok_iff.mp ht
  have hfirst : x ∉ [Grouped.shortId c.headElement] := by simpa using h.head.symm
  refine hierarchy_eq_ok_iff.mpr ⟨?_, ?_⟩
  · have hroutes := routes_without h hfirst 9
    rw [headRoutes] at hempty
    rw [hempty, List.filter_nil] at hroutes
    exact hroutes
  · have hplaced := placements_without h hfirst 9
    rw [grown, grown, graft_of_childless rfl, graft_of_childless rfl, Tree.prune,
      pruneAll_sprout]
    exact congrArg (fun placed => Tree.node c.headElement []
      (sprout c.headNode.shortId c.headNode.childrenPath placed)) hplaced.symm

end Lineage
