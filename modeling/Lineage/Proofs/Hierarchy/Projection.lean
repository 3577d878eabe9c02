/-
Lineage.Proofs.Hierarchy.Projection — a view is its tree, less what is
hidden.

Two nodes of a tree can be equal and one of them hidden, so nodes are
named here by their addresses: an address is seen if the node there and all
nodes above it hold active groups (`Tree.seenAt`).  A view restricts a
tree (`View.Restricts`) if its nodes stand for the seen nodes of the tree,
all of them and in the order of the walk, children for children, in their
order, and each shows what its origin says.  The addresses of a view and
the seen ones of a tree are both made up child by child (`addresses_eq`,
`filter_seenAt_addresses`), and the active children of a node are counted
anew in the view; `origin` undoes that count on every step of the way.
-/
import Lineage.Proofs.Hierarchy.Pruning
import Lineage.Proofs.Hierarchy.Visibility
import Mathlib.Data.List.Infix

namespace Lineage

universe u

variable {α : Type u}

namespace Tree

/-! ## Addresses -/

theorem addressesFrom_eq (index : Nat) (ts : List (Tree α)) :
    addressesFrom index ts = (ts.zipIdx index).flatMap fun p => p.1.addresses.map (p.2 :: ·) := by
  induction ts generalizing index with
  | nil => rfl
  | cons t rest ih => rw [addressesFrom, ih, List.zipIdx_cons, List.flatMap_cons]

theorem addresses_eq (t : Tree α) :
    t.addresses = [] :: t.children.zipIdx.flatMap fun p => p.1.addresses.map (p.2 :: ·) := by
  obtain ⟨m, path, cs⟩ := t
  rw [addresses, addressesFrom_eq]
  rfl

@[simp] theorem at?_nil (t : Tree α) : t.at? [] = some t := by
  cases t
  rfl

theorem at?_cons (t : Tree α) (i : Nat) (rest : List Nat) :
    t.at? (i :: rest) = t.children[i]?.bind fun child => child.at? rest := by
  obtain ⟨m, path, cs⟩ := t
  rw [at?, children]
  cases cs[i]? <;> rfl

theorem at?_cons_of_getElem? {t child : Tree α} {i : Nat} (h : t.children[i]? = some child)
    (rest : List Nat) : t.at? (i :: rest) = child.at? rest := by
  rw [at?_cons, h, Option.bind_some]

/-- The walk visits the nodes at the addresses, in order. -/
theorem map_at?_addresses (t : Tree α) : t.addresses.map t.at? = t.walk.map some := by
  induction t using children_induction with
  | node t ih =>
    have hchildren : (t.children.zipIdx.flatMap fun p => p.1.addresses.map (p.2 :: ·)).map t.at?
        = (t.children.zipIdx.map Prod.fst).flatMap fun child => child.walk.map some := by
      rw [List.map_flatMap, List.flatMap_map]
      refine List.flatMap_congr fun p hp => ?_
      have hp := List.mem_zipIdx_iff_getElem?.mp hp
      rw [List.map_map, ← ih p.1 (List.mem_of_getElem? hp)]
      exact List.map_congr_left fun a _ => at?_cons_of_getElem? hp a
    rw [addresses_eq, walk_eq_cons, List.map_cons, List.map_cons, at?_nil, hchildren,
      List.zipIdx_map_fst, List.map_flatMap]

/-- An address of the tree leads to a node. -/
theorem exists_at?_of_mem_addresses {t : Tree α} {a : List Nat} (h : a ∈ t.addresses) :
    ∃ n, t.at? a = some n := by
  have hmem : t.at? a ∈ t.walk.map some := map_at?_addresses t ▸ List.mem_map_of_mem h
  obtain ⟨n, -, hn⟩ := List.mem_map.mp hmem
  exact ⟨n, hn.symm⟩

variable [Grouped α]

/-! ## Seen addresses -/

/-- The root holds an active group. -/
def isActive (t : Tree α) : Bool :=
  (Grouped.group t.member).active

theorem isActive_iff {t : Tree α} : t.isActive = true ↔ t.Active := Iff.rfl

/-- The node at an address and all nodes above it hold active groups. -/
def seenAt (t : Tree α) (address : List Nat) : Bool :=
  address.inits.all fun above => (t.at? above).any isActive

theorem seenAt_nil (t : Tree α) : t.seenAt [] = t.isActive := by
  simp [seenAt]

theorem seenAt_cons {t child : Tree α} {i : Nat} (h : t.children[i]? = some child)
    (rest : List Nat) : t.seenAt (i :: rest) = (t.isActive && child.seenAt rest) := by
  have hchild : (fun above => (t.at? above).any isActive) ∘ (i :: ·)
      = fun above => (child.at? above).any isActive := by
    funext above
    rw [Function.comp_apply, at?_cons_of_getElem? h]
  rw [seenAt, List.inits_cons, List.all_cons, List.all_map, hchild, at?_nil, seenAt]
  rfl

/-- Nothing is seen of a tree whose root is not active. -/
theorem seenAt_of_not_active {t : Tree α} (h : t.isActive = false) (a : List Nat) :
    t.seenAt a = false := by
  rw [seenAt, List.all_eq_false]
  exact ⟨[], (List.mem_inits _ _).mpr List.nil_prefix, by simp [h]⟩

/-- The active children of the root, each with its position. -/
def activeChildren (t : Tree α) : List (Tree α × Nat) :=
  t.children.zipIdx.filter fun p => p.1.isActive

theorem mem_activeChildren {t : Tree α} {p : Tree α × Nat} (h : p ∈ t.activeChildren) :
    t.children[p.2]? = some p.1 ∧ p.1.isActive = true := by
  obtain ⟨hp, ha⟩ := List.mem_filter.mp h
  exact ⟨List.mem_zipIdx_iff_getElem?.mp hp, ha⟩

theorem map_fst_activeChildren (t : Tree α) :
    t.activeChildren.map Prod.fst = t.children.filter isActive := by
  have hfilter : (t.children.zipIdx.map Prod.fst).filter isActive
      = (t.children.zipIdx.filter (isActive ∘ Prod.fst)).map Prod.fst := List.filter_map
  rw [List.zipIdx_map_fst] at hfilter
  exact hfilter.symm

/-- The positions of the active children increase. -/
theorem pairwise_lt_activeChildren (t : Tree α) :
    (t.activeChildren.map Prod.snd).Pairwise (· < ·) := by
  have hall : (t.children.zipIdx.map Prod.snd).Pairwise (· < ·) := by
    rw [List.zipIdx_map_snd]
    exact List.pairwise_lt_range'
  exact hall.sublist (List.filter_sublist.map _)

/-- The seen addresses of an active tree lead through its active
children. -/
theorem filter_seenAt_addresses {t : Tree α} (h : t.isActive = true) :
    t.addresses.filter t.seenAt = [] :: t.activeChildren.flatMap fun p =>
      (p.1.addresses.filter p.1.seenAt).map (p.2 :: ·) := by
  have hroot : t.seenAt [] = true := by rw [seenAt_nil, h]
  have hseen : ∀ p ∈ t.children.zipIdx, (p.1.addresses.map (p.2 :: ·)).filter t.seenAt
      = (p.1.addresses.filter p.1.seenAt).map (p.2 :: ·) := fun p hp => by
    rw [List.filter_map]
    refine congrArg _ (List.filter_congr fun a _ => ?_)
    rw [Function.comp_apply, seenAt_cons (List.mem_zipIdx_iff_getElem?.mp hp), h, Bool.true_and]
  rw [addresses_eq, List.filter_cons_of_pos hroot, List.filter_flatMap, activeChildren]
  refine congrArg _ (flatMap_filter_of_nil (fun p hp _ => (hseen p hp).symm) fun p hp hoff => ?_).symm
  rw [hseen p hp, List.filter_eq_nil_iff.mpr, List.map_nil]
  exact fun a _ => Bool.eq_false_iff.mp (seenAt_of_not_active hoff a)

end Tree

/-- Where a list is looked up entry by entry, what is kept of it is looked
up in turn. -/
theorem map_filter_zip {γ δ ε : Type*} {xs : List γ} {keys : List δ} {get : δ → Option γ}
    (h : keys.map get = xs.map some) (keep : δ → Bool) (f : γ → ε) :
    (keys.filter keep).map (fun k => (get k).map f)
      = ((xs.zip keys).filter fun p => keep p.2).map fun p => some (f p.1) := by
  induction keys generalizing xs with
  | nil => simp
  | cons k rest ih =>
    cases xs with
    | nil => cases h
    | cons x xs =>
      obtain ⟨hget, hrest⟩ := List.cons.inj h
      cases hk : keep k <;> simp [hk, hget, ih hrest]

namespace View

open Lineage.Tree

/-! ## Views as trees -/

/-- What a view shows of a group. -/
structure Face where
  shortId : Text
  name : Text
  description : Text
  roles : List Text
  deriving DecidableEq

mutual

/-- A view as a tree of what it shows. -/
def outline : View → Tree Face
  | .node s n d children roles => .node ⟨s, n, d, roles⟩ [] (outlines children)

/-- The views of a list as trees. -/
def outlines : List View → List (Tree Face)
  | [] => []
  | v :: rest => outline v :: outlines rest

end

theorem outlines_eq_map (vs : List View) : outlines vs = vs.map outline := by
  induction vs with
  | nil => rfl
  | cons v rest ih => rw [outlines, ih, List.map_cons]

variable [Grouped α]

/-- What a view is to show of the group at the root of a tree: its short
id, its name, its description, and no roles. -/
def face (t : Tree α) : Face :=
  let g := Grouped.group t.member
  ⟨g.shortId, g.name, g.description, []⟩

/-- The view of a tree whose root is active. -/
def shown (t : Tree α) : View :=
  let g := Grouped.group t.member
  .node g.shortId g.name g.description (ofTrees t.children) []

theorem ofTree?_eq (t : Tree α) : ofTree? t = if t.isActive then some (shown t) else none := by
  obtain ⟨m, path, cs⟩ := t
  rfl

theorem ofTrees_eq (ts : List (Tree α)) : ofTrees ts = (ts.filter isActive).map shown := by
  induction ts with
  | nil => rfl
  | cons t rest ih =>
    rw [ofTrees, ofTree?_eq, ih]
    cases h : t.isActive <;> simp [h]

theorem member_outline_shown (t : Tree α) : (shown t).outline.member = face t := rfl

/-- Below the root of a view stand the views of the active children. -/
theorem children_outline_shown (t : Tree α) :
    (shown t).outline.children = t.activeChildren.map fun p => (shown p.1).outline := by
  have h : (shown t).outline.children = outlines (ofTrees t.children) := rfl
  rw [h, outlines_eq_map, ofTrees_eq, ← map_fst_activeChildren, List.map_map, List.map_map]
  rfl

/-! ## Origins -/

/-- Where in a tree the node stands that its view shows at an address. -/
def origin : List Nat → Tree α → List Nat
  | [], _ => []
  | i :: rest, t =>
    match t.activeChildren[i]? with
    | some (child, position) => position :: origin rest child
    | none => i :: rest

@[simp] theorem origin_nil (t : Tree α) : origin [] t = [] := rfl

theorem origin_cons {t : Tree α} {i : Nat} {p : Tree α × Nat} (h : t.activeChildren[i]? = some p)
    (rest : List Nat) : origin (i :: rest) t = p.2 :: origin rest p.1 := by
  rw [origin, h]

/-- A view restricts a tree to its seen nodes, by origins. -/
structure Restricts (t : Tree α) (u : Tree Face) (origin : List Nat → List Nat) : Prop where
  /-- Its nodes come from all seen nodes of the tree, in order. -/
  nodes : u.addresses.map origin = t.addresses.filter t.seenAt
  /-- The children of a node come from children of its origin, in order. -/
  children : ∀ a n, u.at? a = some n → ∃ positions : List Nat, positions.Pairwise (· < ·)
    ∧ (List.range n.children.length).map (fun i => origin (a ++ [i]))
      = positions.map fun j => origin a ++ [j]
  /-- A node shows what its origin holds. -/
  faces : ∀ a n, u.at? a = some n → ∃ m, t.at? (origin a) = some m ∧ n.member = face m

theorem map_origin_addresses {t : Tree α} (h : t.isActive = true) :
    (shown t).outline.addresses.map (fun a => origin a t) = t.addresses.filter t.seenAt := by
  induction t using children_induction with
  | node t ih =>
    have hzip : t.activeChildren.zipIdx.map Prod.fst = t.activeChildren := List.zipIdx_map_fst ..
    rw [filter_seenAt_addresses h, addresses_eq, children_outline_shown, List.zipIdx_map,
      List.flatMap_map, List.map_cons, List.map_flatMap, origin]
    conv_rhs => rw [← hzip, List.flatMap_map]
    refine congrArg _ (List.flatMap_congr fun q hq => ?_)
    have hq := List.mem_zipIdx_iff_getElem?.mp hq
    obtain ⟨hchild, hactive⟩ := mem_activeChildren (List.mem_of_getElem? hq)
    rw [← ih q.1.1 (List.mem_of_getElem? hchild) hactive, List.map_map, List.map_map]
    exact List.map_congr_left fun a _ => origin_cons hq a

/-- Every node of a view but its root comes from an active child. -/
theorem exists_child_of_at?_cons {t : Tree α} {i : Nat} {rest : List Nat} {n : Tree Face}
    (h : (shown t).outline.at? (i :: rest) = some n) :
    ∃ p, t.activeChildren[i]? = some p ∧ (shown p.1).outline.at? rest = some n := by
  rw [at?_cons, children_outline_shown, List.getElem?_map] at h
  cases hp : t.activeChildren[i]? with
  | none => simp [hp] at h
  | some p => exact ⟨p, rfl, by simpa [hp] using h⟩

theorem exists_positions {t : Tree α} {a : List Nat} {n : Tree Face}
    (h : (shown t).outline.at? a = some n) :
    ∃ positions : List Nat, positions.Pairwise (· < ·)
      ∧ (List.range n.children.length).map (fun i => origin (a ++ [i]) t)
        = positions.map fun j => origin a t ++ [j] := by
  induction a generalizing t with
  | nil =>
    rw [at?_nil, Option.some.injEq] at h
    subst h
    refine ⟨t.activeChildren.map Prod.snd, pairwise_lt_activeChildren t, ?_⟩
    rw [children_outline_shown, List.length_map]
    refine List.ext_getElem (by simp) fun i hi _ => ?_
    have hlt : i < t.activeChildren.length := by simpa using hi
    simp [origin_cons (List.getElem?_eq_getElem hlt)]
  | cons i rest ih =>
    obtain ⟨p, hp, hn⟩ := exists_child_of_at?_cons h
    obtain ⟨positions, hsorted, heq⟩ := ih hn
    refine ⟨positions, hsorted, ?_⟩
    have hcons := congrArg (List.map (p.2 :: ·)) heq
    rw [List.map_map, List.map_map] at hcons
    simp only [List.cons_append, origin_cons hp]
    exact hcons

theorem exists_origin {t : Tree α} {a : List Nat} {n : Tree Face}
    (h : (shown t).outline.at? a = some n) :
    ∃ m, t.at? (origin a t) = some m ∧ n.member = face m := by
  induction a generalizing t with
  | nil =>
    rw [at?_nil, Option.some.injEq] at h
    exact ⟨t, at?_nil t, h ▸ member_outline_shown t⟩
  | cons i rest ih =>
    obtain ⟨p, hp, hn⟩ := exists_child_of_at?_cons h
    obtain ⟨m, hm, hface⟩ := ih hn
    refine ⟨m, ?_, hface⟩
    rw [origin_cons hp, at?_cons_of_getElem? (mem_activeChildren (List.mem_of_getElem? hp)).1]
    exact hm

theorem restricts_shown {t : Tree α} (h : t.isActive = true) :
    Restricts t (shown t).outline fun a => origin a t where
  nodes := map_origin_addresses h
  children _ _ := exists_positions
  faces _ _ := exists_origin

/-! ## The walk -/

/-- The view of an active tree is walked as the tree is, less what is
hidden. -/
theorem map_member_walk_outline {t : Tree α} (h : t.isActive = true) :
    (shown t).outline.walk.map Tree.member
      = ((t.walk.zip t.addresses).filter fun p => t.seenAt p.2).map fun p => face p.1 := by
  let u := (shown t).outline
  have horigin : ∀ a ∈ u.addresses, (u.at? a).map Tree.member = (t.at? (origin a t)).map face :=
    fun a ha => by
      obtain ⟨n, hn⟩ := exists_at?_of_mem_addresses ha
      obtain ⟨m, hm, hface⟩ := exists_origin hn
      rw [hn, hm, Option.map_some, Option.map_some, hface]
  refine List.map_injective_iff.mpr (fun _ _ => Option.some.inj) ?_
  calc (u.walk.map Tree.member).map some
      = (u.walk.map some).map (Option.map Tree.member) := by rw [List.map_map, List.map_map]; rfl
    _ = u.addresses.map fun a => (u.at? a).map Tree.member := by
        rw [← map_at?_addresses, List.map_map]
        rfl
    _ = (u.addresses.map fun a => origin a t).map fun b => (t.at? b).map face := by
        rw [List.map_congr_left horigin, List.map_map]
        rfl
    _ = (t.addresses.filter t.seenAt).map fun b => (t.at? b).map face := by
        rw [map_origin_addresses h]
    _ = (((t.walk.zip t.addresses).filter fun p => t.seenAt p.2).map fun p => face p.1).map
          some := by
        rw [List.map_map, map_filter_zip (map_at?_addresses t)]
        rfl

/-- Projecting a tree fails exactly if its root is inactive.  Otherwise
the view restricts the tree to its seen nodes, and the walk of the view is
the walk of the tree with the other nodes left out. -/
theorem ofTree_restricts (t : Tree α) :
    (∀ fault, ofTree t = .error fault ↔ ¬ t.Active ∧ fault = .inactive t.shortId)
      ∧ (t.Active → ∃ v, ofTree t = .ok v ∧ (∃ origin, Restricts t v.outline origin)
        ∧ v.outline.walk.map Tree.member
          = ((t.walk.zip t.addresses).filter fun p => t.seenAt p.2).map fun p => face p.1) := by
  have hactive : t.Active ↔ t.isActive = true := Iff.rfl
  rw [ofTree, ofTree?_eq, hactive]
  constructor
  · intro fault
    cases h : t.isActive
    · simp [eq_comm]
    · simp
  · intro h
    refine ⟨shown t, by rw [if_pos h], ⟨_, restricts_shown h⟩, map_member_walk_outline h⟩

/-- Below `r` stand `a`, which is inactive, with `g` below it, and `b`, with
the inactive `u` and with `g` once more below it. -/
def sheltered : Tree Group :=
  let r : Text := [.char 'r']
  let b : Text := [.char 'b']
  let a : Text := [.char 'a']
  let hidden (s : Text) : Group := { Group.plain s [r] with active := false }
  let g : Tree Group := .node (.plain [.char 'g'] [r]) [r, b] []
  .node (.plain r []) []
    [.node (hidden a) [r] [g], .node (.plain b [r]) [r] [.node (hidden [.char 'u']) [r, b] [], g]]

/-- The first `g` is hidden below `a`, the second one is shown. -/
theorem ofTree_restricts_sheltered :
    sheltered.Active ∧ ∃ v, ofTree sheltered = .ok v
      ∧ (∃ origin, Restricts sheltered v.outline origin)
      ∧ v.outline.walk.map Tree.member = [⟨[.char 'r'], [], [], []⟩, ⟨[.char 'b'], [], [], []⟩,
          ⟨[.char 'g'], [], [], []⟩] := by
  have hactive : sheltered.Active := rfl
  obtain ⟨v, hv, hrestricts, hwalk⟩ := (ofTree_restricts sheltered).2 hactive
  refine ⟨hactive, v, hv, hrestricts, ?_⟩
  rw [hwalk]
  decide +kernel

end View

end Lineage
