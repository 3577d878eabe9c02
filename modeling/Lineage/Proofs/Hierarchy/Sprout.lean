/-
Lineage.Proofs.Hierarchy.Sprout — trees that grow from placements.

`Grounded` is what makes a list of placements a tree: every parent is
known before its children, and every short id is new.  A childless start
with grounded placements grows into a tree that

* holds the start and every placed member once (`perm_walk_graft`),
* has as the children of a node the placements that name it as their
  parent, in order (`children_graft`), and
* hands every path on from parent to child (`pathsKept_graft`).
-/
import Lineage.Hierarchy.Layout
import Lineage.Proofs.Hierarchy.Walk

namespace Lineage.Layout

open Lineage.Tree

universe u

variable {α : Type u} [Grouped α]

/-- The short ids of placed groups. -/
def ids (placed : List (Placement α)) : List Text :=
  placed.map fun p => Grouped.shortId p.member

@[simp] theorem ids_nil : ids ([] : List (Placement α)) = [] := rfl

@[simp] theorem ids_cons (p : Placement α) (placed : List (Placement α)) :
    ids (p :: placed) = Grouped.shortId p.member :: ids placed := rfl

@[simp] theorem ids_append (a b : List (Placement α)) : ids (a ++ b) = ids a ++ ids b :=
  List.map_append

/-! ## Grounded placements -/

/-- Every placement names a parent that is known by then, and a new
short id, which is known from then on. -/
def Grounded : List Text → List (Placement α) → Prop
  | _, [] => True
  | known, p :: later =>
    p.parent ∈ known ∧ Grouped.shortId p.member ∉ known
      ∧ Grounded (known ++ [Grouped.shortId p.member]) later

theorem grounded_concat {known : List Text} {placed : List (Placement α)} {p : Placement α} :
    Grounded known (placed ++ [p]) ↔
      Grounded known placed ∧ p.parent ∈ known ++ ids placed
        ∧ Grouped.shortId p.member ∉ known ++ ids placed := by
  induction placed generalizing known with
  | nil => simp [Grounded]
  | cons q rest ih =>
    simp only [List.cons_append, Grounded, ih, ids_cons, List.append_assoc, List.nil_append,
      and_assoc]

theorem Grounded.nodup {known : List Text} {placed : List (Placement α)}
    (h : Grounded known placed) (hk : known.Nodup) : (known ++ ids placed).Nodup := by
  induction placed generalizing known with
  | nil => simpa using hk
  | cons p later ih =>
    obtain ⟨_, hnew, hlater⟩ := h
    have hk' : (known ++ [Grouped.shortId p.member]).Nodup := by
      rw [List.nodup_append]
      refine ⟨hk, by simp, ?_⟩
      intro a ha b hb hab
      rw [List.mem_singleton] at hb
      exact hnew (by rw [← hb, ← hab]; exact ha)
    simpa using ih hlater hk'

/-- No placement up to and with one of a short id has that short id as
its parent. -/
theorem Grounded.parent_ne {known : List Text} {earlier later : List (Placement α)}
    {p : Placement α} (h : Grounded known (earlier ++ p :: later)) :
    ∀ q ∈ earlier ++ [p], q.parent ≠ Grouped.shortId p.member := by
  have key : Grouped.shortId p.member ∉ known ++ ids earlier
      ∧ ∀ q ∈ earlier ++ [p], q.parent ∈ known ++ ids earlier := by
    induction earlier generalizing known with
    | nil =>
      obtain ⟨hp, hnew, _⟩ := h
      simpa using ⟨hnew, hp⟩
    | cons e rest ih =>
      obtain ⟨he, _, hrest⟩ := h
      obtain ⟨hnew, hparents⟩ := ih hrest
      refine ⟨by simpa using hnew, ?_⟩
      intro q hq
      rcases List.mem_cons.mp hq with rfl | hq
      · exact List.mem_append_left _ he
      · simpa using hparents q hq
  intro q hq heq
  exact key.1 (heq ▸ key.2 q hq)

theorem Grounded.filter_parent {known : List Text} {earlier later : List (Placement α)}
    {p : Placement α} (h : Grounded known (earlier ++ p :: later)) :
    (earlier ++ p :: later).filter (fun q => q.parent = Grouped.shortId p.member)
      = later.filter (fun q => q.parent = Grouped.shortId p.member) := by
  have hnone : (earlier ++ [p]).filter (fun q => q.parent = Grouped.shortId p.member) = [] := by
    rw [List.filter_eq_nil_iff]
    intro q hq
    simpa using h.parent_ne q hq
  rw [List.append_cons, List.filter_append, hnone, List.nil_append]

/-! ## The shape of a sprouted tree -/

theorem map_member_sprout (parent : Text) (path : List Text) (placed : List (Placement α)) :
    (sprout parent path placed).map Tree.member
      = (placed.filter (fun p => p.parent = parent)).map Placement.member := by
  induction placed with
  | nil => rfl
  | cons p later ih =>
    by_cases h : p.parent = parent
    · simp [sprout, h, ih, Tree.member]
    · simp [sprout, h, ih]

theorem path_of_mem_sprout {parent : Text} {path : List Text} {placed : List (Placement α)}
    {n : Tree α} (h : n ∈ sprout parent path placed) : n.path = path := by
  induction placed with
  | nil => simp [sprout] at h
  | cons p later ih =>
    by_cases hp : p.parent = parent
    · rw [sprout, if_pos hp] at h
      rcases List.mem_cons.mp h with rfl | h
      · rfl
      · exact ih h
    · rw [sprout, if_neg hp] at h
      exact ih h

/-- Every node below a parent is a placement with what sprouts below it
from the later placements. -/
theorem mem_walkAll_sprout {parent : Text} {path : List Text} {placed : List (Placement α)}
    {n : Tree α} (h : n ∈ walkAll (sprout parent path placed)) :
    ∃ earlier p later, placed = earlier ++ p :: later ∧ ∃ above,
      n = .node p.member above
        (sprout (Grouped.shortId p.member) (above ++ [Grouped.shortId p.member]) later) := by
  induction placed generalizing parent path with
  | nil => simp [sprout, walkAll] at h
  | cons p later ih =>
    -- A node from the later placements has one more placement before it.
    have hlater : ∀ {parent : Text} {path : List Text}, n ∈ walkAll (sprout parent path later) →
        ∃ earlier q rest, p :: later = earlier ++ q :: rest ∧ ∃ above,
          n = .node q.member above
            (sprout (Grouped.shortId q.member) (above ++ [Grouped.shortId q.member]) rest) := by
      intro parent path h
      obtain ⟨earlier, q, rest, hsplit, hn⟩ := ih h
      exact ⟨p :: earlier, q, rest, by rw [hsplit, List.cons_append], hn⟩
    by_cases hp : p.parent = parent
    · rw [sprout, if_pos hp] at h
      simp only [walkAll, walk, List.cons_append, List.mem_cons, List.mem_append] at h
      rcases h with rfl | h | h
      · exact ⟨[], p, later, rfl, path, rfl⟩
      · exact hlater h
      · exact hlater h
    · rw [sprout, if_neg hp] at h
      exact hlater h

/-! ## Every placement once -/

/-- The members placed below a parent, a member before those below it. -/
def below (parent : Text) : List (Placement α) → List α
  | [] => []
  | p :: later =>
    if p.parent = parent then p.member :: below (Grouped.shortId p.member) later ++ below parent later
    else below parent later

theorem map_member_walkAll_sprout (parent : Text) (path : List Text)
    (placed : List (Placement α)) :
    (walkAll (sprout parent path placed)).map Tree.member = below parent placed := by
  induction placed generalizing parent path with
  | nil => rfl
  | cons p later ih =>
    by_cases h : p.parent = parent
    · simp [sprout, below, h, walkAll, walk, ih, Tree.member]
    · simp [sprout, below, h, ih]

/-- One placement more: its member joins those below the known groups,
and its short id becomes a known one. -/
theorem perm_flatMap_below_cons {known : List Text} {p : Placement α}
    (hk : known.Nodup) (hp : p.parent ∈ known) (later : List (Placement α)) :
    (known.flatMap fun k => below k (p :: later)).Perm
      (p.member :: (known ++ [Grouped.shortId p.member]).flatMap fun k => below k later) := by
  obtain ⟨s, t, rfl⟩ := List.append_of_mem hp
  have hs : ∀ k ∈ s ++ t, p.parent ≠ k := by
    rintro k hk' rfl
    rw [List.nodup_middle] at hk
    exact (List.nodup_cons.mp hk).1 hk'
  have hsame : ∀ k ∈ s ++ t, below k (p :: later) = below k later := by
    intro k hk'
    rw [below, if_neg (hs k hk')]
  rw [List.flatMap_append, List.flatMap_cons,
    List.flatMap_congr fun k hk' => hsame k (List.mem_append_left _ hk'),
    List.flatMap_congr fun k hk' => hsame k (List.mem_append_right _ hk'), below, if_pos rfl]
  simp only [List.flatMap_append, List.flatMap_cons, List.flatMap_nil, List.append_nil,
    List.cons_append, List.append_assoc]
  refine List.perm_middle.trans (List.Perm.cons _ (List.Perm.append_left _ ?_))
  -- What stands below the new short id goes last.
  have hlast : (below (Grouped.shortId p.member) later
        ++ (below p.parent later ++ t.flatMap fun k => below k later)).Perm
      ((below p.parent later ++ t.flatMap fun k => below k later)
        ++ below (Grouped.shortId p.member) later) := List.perm_append_comm
  simpa using hlast

/-- Below the known groups together stands every grounded placement
once. -/
theorem Grounded.perm_flatMap_below {known : List Text} {placed : List (Placement α)}
    (h : Grounded known placed) (hk : known.Nodup) :
    (known.flatMap fun k => below k placed).Perm (placed.map Placement.member) := by
  induction placed generalizing known with
  | nil => simp [below]
  | cons p later ih =>
    obtain ⟨hp, _, hlater⟩ := id h
    have hk' : (known ++ [Grouped.shortId p.member]).Nodup := by
      have := h.nodup hk
      rw [ids_cons, List.append_cons] at this
      exact (List.nodup_append.mp this).1
    exact (perm_flatMap_below_cons hk hp later).trans ((ih hlater hk').cons p.member)

/-! ## Grafted trees -/

variable {start : Tree α} {placed : List (Placement α)}

theorem graft_of_childless (hs : start.children = []) :
    graft start placed
      = .node start.member start.path (sprout start.shortId start.childrenPath placed) := by
  simp [graft, withChildren, hs]

/-- The grown tree holds the start and every placed member once. -/
theorem perm_walk_graft (hs : start.children = []) (h : Grounded [start.shortId] placed) :
    ((graft start placed).walk.map Tree.member).Perm
      (start.member :: placed.map Placement.member) := by
  rw [graft_of_childless hs, walk, List.map_cons, map_member_walkAll_sprout]
  refine List.Perm.cons _ ?_
  simpa using h.perm_flatMap_below (List.nodup_singleton _)

theorem perm_walk_graft_ids (hs : start.children = []) (h : Grounded [start.shortId] placed) :
    ((graft start placed).walk.map Tree.shortId).Perm (start.shortId :: ids placed) := by
  have := (perm_walk_graft hs h).map Grouped.shortId
  rw [List.map_map, List.map_cons, List.map_map] at this
  exact this

theorem nodup_walk_graft (hs : start.children = []) (h : Grounded [start.shortId] placed) :
    ((graft start placed).walk.map Tree.shortId).Nodup :=
  (perm_walk_graft_ids hs h).nodup_iff.mpr (h.nodup (List.nodup_singleton _))

/-- What sprouts at a node is as good as if it came from all
placements. -/
theorem children_eq_sprout (hs : start.children = []) (h : Grounded [start.shortId] placed)
    {n : Tree α} (hn : n ∈ (graft start placed).walk) :
    ∃ later, n.children = sprout n.shortId n.childrenPath later
      ∧ placed.filter (fun p => p.parent = n.shortId)
        = later.filter (fun p => p.parent = n.shortId) := by
  rw [graft_of_childless hs, walk, List.mem_cons] at hn
  rcases hn with rfl | hn
  · exact ⟨placed, rfl, rfl⟩
  · obtain ⟨earlier, p, later, rfl, above, rfl⟩ := mem_walkAll_sprout hn
    exact ⟨later, rfl, h.filter_parent⟩

/-- The children of a node are the placements that name it as their
parent, in order. -/
theorem children_graft (hs : start.children = []) (h : Grounded [start.shortId] placed)
    {n : Tree α} (hn : n ∈ (graft start placed).walk) :
    n.children.map Tree.member
      = (placed.filter fun p => p.parent = n.shortId).map Placement.member := by
  obtain ⟨later, hc, hf⟩ := children_eq_sprout hs h hn
  rw [hc, map_member_sprout, hf]

theorem pathsKept_graft (hs : start.children = []) (h : Grounded [start.shortId] placed) :
    PathsKept (graft start placed) := by
  intro p hp n hn
  obtain ⟨later, hc, _⟩ := children_eq_sprout hs h hp
  rw [hc] at hn
  exact path_of_mem_sprout hn

theorem mem_placed_of_mem_children (hs : start.children = []) (h : Grounded [start.shortId] placed)
    {p n : Tree α} (hp : p ∈ (graft start placed).walk) (hn : n ∈ p.children) :
    ∃ q ∈ placed, q.member = n.member ∧ q.parent = p.shortId := by
  have hm : n.member ∈ p.children.map Tree.member := List.mem_map_of_mem hn
  rw [children_graft hs h hp, List.mem_map] at hm
  obtain ⟨q, hq, hqn⟩ := hm
  rw [List.mem_filter] at hq
  exact ⟨q, hq.1, hqn, by simpa using hq.2⟩

end Lineage.Layout
