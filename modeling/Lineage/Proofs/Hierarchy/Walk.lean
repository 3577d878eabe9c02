/-
Lineage.Proofs.Hierarchy.Walk — the nodes of a tree.

* `Leads` — going down from the root through some groups arrives at a
  node; `mem_walk_iff_leads`: the nodes that `walk` lists are exactly
  those that can be arrived at.
* `walk_induction` — what holds of the root and passes from every node
  to its children holds of every node.
* `find?_of_mem_walk` — where no short id occurs twice, a short id finds
  the one node that has it.
-/
import Lineage.Hierarchy.Tree
import Mathlib.Data.List.Nodup

namespace Lineage.Tree

universe u

variable {α : Type u}

/-! ## Membership -/

theorem walkAll_eq_flatMap (ts : List (Tree α)) : walkAll ts = ts.flatMap walk := by
  induction ts with
  | nil => rfl
  | cons t rest ih => simp [walkAll, ih]

theorem walk_eq_cons (t : Tree α) : t.walk = t :: t.children.flatMap walk := by
  obtain ⟨m, p, cs⟩ := t
  simp [walk, walkAll_eq_flatMap, children]

theorem mem_walk_self (t : Tree α) : t ∈ t.walk := by
  rw [walk_eq_cons]
  exact List.mem_cons_self

theorem mem_walk_of_child {t child n : Tree α} (hc : child ∈ t.children) (hn : n ∈ child.walk) :
    n ∈ t.walk := by
  rw [walk_eq_cons]
  exact List.mem_cons_of_mem _ (List.mem_flatMap.mpr ⟨child, hc, hn⟩)

theorem mem_walk_cases {t n : Tree α} (h : n ∈ t.walk) :
    n = t ∨ ∃ child ∈ t.children, n ∈ child.walk := by
  rw [walk_eq_cons, List.mem_cons, List.mem_flatMap] at h
  exact h

/-- Induction on a tree that has children in a list: the children of the
root come first. -/
theorem children_induction {motive : Tree α → Prop}
    (node : ∀ t : Tree α, (∀ child ∈ t.children, motive child) → motive t) :
    ∀ t, motive t
  | .node m p cs => by
      apply node
      intro child hc
      have hlt : sizeOf child < sizeOf (Tree.node m p cs) := by
        have := List.sizeOf_lt_of_mem (show child ∈ cs from hc)
        simp only [Tree.node.sizeOf_spec]
        omega
      exact children_induction node child
termination_by t => sizeOf t
decreasing_by exact hlt

/-- What holds of the root and passes from every node to its children
holds of every node. -/
theorem walk_induction {P : Tree α → Prop} {t : Tree α} (root : P t)
    (step : ∀ p ∈ t.walk, P p → ∀ n ∈ p.children, P n) : ∀ n ∈ t.walk, P n := by
  induction t using children_induction with
  | node t ih =>
    intro n hn
    rcases mem_walk_cases hn with rfl | ⟨child, hc, hn⟩
    · exact root
    · refine ih child hc (step t (mem_walk_self t) root child hc) ?_ n hn
      intro p hp
      exact step p (mem_walk_of_child hc hp)

/-- A node other than the root is the child of a node. -/
theorem exists_parent {t n : Tree α} (hn : n ∈ t.walk) :
    n = t ∨ ∃ p ∈ t.walk, n ∈ p.children := by
  refine walk_induction (P := fun n => n = t ∨ ∃ p ∈ t.walk, n ∈ p.children) (.inl rfl) ?_ n hn
  intro p hp _ n hn
  exact .inr ⟨p, hp, hn⟩

section Grouped

variable [Grouped α]

/-! ## Ways down -/

/-- Going down from the root of a tree through groups with some short
ids, the root first, arrives at a node. -/
inductive Leads : Tree α → List Text → Tree α → Prop
  | here (t : Tree α) : Leads t [] t
  | down {t child n : Tree α} {ids : List Text} :
      child ∈ t.children → Leads child ids n → Leads t (t.shortId :: ids) n

/-- The nodes of a tree are those that a way down arrives at. -/
theorem mem_walk_iff_leads {t n : Tree α} : n ∈ t.walk ↔ ∃ ids, Leads t ids n := by
  constructor
  · induction t using children_induction with
    | node t ih =>
      intro hn
      rcases mem_walk_cases hn with rfl | ⟨child, hc, hn⟩
      · exact ⟨[], .here n⟩
      · obtain ⟨ids, hl⟩ := ih child hc hn
        exact ⟨_, .down hc hl⟩
  · rintro ⟨ids, hl⟩
    induction hl with
    | here t => exact mem_walk_self t
    | down hc _ ih => exact mem_walk_of_child hc ih

/-- Every node carries the path that its parent hands to its children. -/
def PathsKept (t : Tree α) : Prop :=
  ∀ p ∈ t.walk, ∀ n ∈ p.children, n.path = p.childrenPath

theorem PathsKept.child {t child : Tree α} (h : PathsKept t) (hc : child ∈ t.children) :
    PathsKept child :=
  fun p hp => h p (mem_walk_of_child hc hp)

/-- A kept path spells the way down to its node. -/
theorem PathsKept.path_of_leads {t n : Tree α} {ids : List Text} (h : PathsKept t)
    (hl : Leads t ids n) : n.path = t.path ++ ids := by
  induction hl with
  | here t => simp
  | @down t child n ids hc _ ih =>
    rw [ih (h.child hc), h t (mem_walk_self t) child hc, childrenPath, List.append_assoc]
    rfl

theorem PathsKept.depth_child {t p n : Tree α} (h : PathsKept t) (hp : p ∈ t.walk)
    (hn : n ∈ p.children) : n.depth = p.depth + 1 := by
  simp [depth, h p hp n hn, childrenPath]

/-! ## Finding -/

theorem eq_of_shortId_eq {t n n' : Tree α} (hd : (t.walk.map shortId).Nodup) (hn : n ∈ t.walk)
    (hn' : n' ∈ t.walk) (h : n.shortId = n'.shortId) : n = n' :=
  List.inj_on_of_nodup_map hd hn hn' h

/-- Where no short id occurs twice, a short id finds the one node that
has it. -/
theorem find?_of_mem_walk {t n : Tree α} (hd : (t.walk.map shortId).Nodup) (hn : n ∈ t.walk) :
    t.find? n.shortId = some n := by
  unfold find?
  cases hf : t.walk.find? fun node => node.shortId = n.shortId with
  | none =>
    have := List.find?_eq_none.mp hf n hn
    simp at this
  | some found =>
    have hm := List.mem_of_find?_eq_some hf
    have hs : found.shortId = n.shortId := by simpa using List.find?_some hf
    rw [eq_of_shortId_eq hd hm hn hs]

end Grouped

end Lineage.Tree
