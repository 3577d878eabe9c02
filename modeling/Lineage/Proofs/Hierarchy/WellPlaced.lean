/-
Lineage.Proofs.Hierarchy.WellPlaced — what every hierarchy keeps,
whatever its groups list.

No reference graph is excluded here: groups may list each other in
cycles, list themselves, list groups that are gone, or share short ids.
`hierarchy_wellPlaced` says what holds of the tree all the same.
-/
import Lineage.Proofs.Hierarchy.Growth
import Mathlib.Data.List.Induction

namespace Lineage.Collection

open Layout Lineage.Tree

universe u

variable {α : Type u} [Grouped α]

/-! ## Collections that are built up -/

/-- A collection made for a head, to which members were added one by one
or many at a time. -/
inductive Built : Collection α → Prop
  | made {head : α} {maxDepth : Int} {c : Collection α} :
      make? head maxDepth = some c → Built c
  | added {c c' : Collection α} {m : α} : Built c → c.add m = .ok c' → Built c'
  | addedAll {c : Collection α} (candidates : List α) :
      Built c → Built (c.addAll candidates).1

/-- A collection is built if adding its members to a new one gives it
back. -/
theorem Built.of_addAll {c : Collection α}
    (hmake : make? c.headElement c.maxDepth = some ⟨c.head, c.headElement, [], c.maxDepth⟩)
    (hadd : ((⟨c.head, c.headElement, [], c.maxDepth⟩ : Collection α).addAll c.others).1 = c) :
    Built c := by
  have hbuilt := Built.addedAll c.others (.made hmake)
  rwa [hadd] at hbuilt

theorem addAll_concat (c : Collection α) (candidates : List α) (m : α) :
    c.addAll (candidates ++ [m]) =
      match (c.addAll candidates).1.add m with
      | .ok c' => (c', (c.addAll candidates).2)
      | .error _ => ((c.addAll candidates).1, (c.addAll candidates).2 ++ [m]) := by
  rw [addAll, List.foldl_append]
  rfl

/-- The candidates that list the head are added, in order, and the others
are handed back, in order. -/
theorem addAll_eq (c : Collection α) (candidates : List α) :
    c.addAll candidates =
      ({ c with others := c.others ++ candidates.filter fun m => (Grouped.group m).refersTo c.head },
        candidates.filter fun m => !(Grouped.group m).refersTo c.head) := by
  induction candidates using List.reverseRecOn with
  | nil => simp [addAll]
  | append_singleton candidates m ih =>
    rw [addAll_concat, ih, Collection.add]
    by_cases hm : (Grouped.group m).refersTo c.head = true
    · simp [hm]
    · simp [hm]

/-- The head carries the name of the collection, and all others list
it. -/
structure Anchored (c : Collection α) : Prop where
  head : c.head = Grouped.shortId c.headElement
  others : ∀ m ∈ c.others, (Grouped.group m).refersTo c.head = true

theorem Anchored.add {c c' : Collection α} {m : α} (h : Anchored c) (ha : c.add m = .ok c') :
    Anchored c' := by
  unfold Collection.add at ha
  split at ha
  · rename_i hm
    obtain rfl := Except.ok.inj ha
    refine ⟨h.head, fun x hx => ?_⟩
    rcases List.mem_append.mp hx with hx | hx
    · exact h.others x hx
    · rw [List.mem_singleton.mp hx]
      exact hm
  · cases ha

theorem Anchored.addAll {c : Collection α} (h : Anchored c) (candidates : List α) :
    Anchored (c.addAll candidates).1 := by
  unfold Collection.addAll
  refine List.foldlRecOn (motive := fun state : Collection α × List α => Anchored state.1)
    candidates _ h ?_
  rintro ⟨c, rejected⟩ h m -
  dsimp only
  split
  · rename_i ha
    exact h.add ha
  · exact h

/-- However a collection was built up, it is anchored. -/
theorem Built.anchored {c : Collection α} (h : Built c) : Anchored c := by
  induction h with
  | made hm =>
    unfold make? at hm
    split at hm
    · cases hm
    · obtain rfl := Option.some.inj hm
      exact ⟨rfl, by simp⟩
  | added _ ha ih => exact ih.add ha
  | addedAll candidates _ ih => exact ih.addAll candidates

/-! ## Placed groups -/

/-- A group that is arrived at is another one than the head, lists the
whole route, and does not list itself. -/
theorem arrival_lists {c : Collection α} {n : Nat} {a : Arrival α}
    (ha : a ∈ arrivals c [Grouped.shortId c.headElement] n) :
    a.member ∈ c.others ∧ Lists a.member c.headElement
      ∧ routeEnd a.route ∈ Grouped.references a.member ∧ ¬ Lists a.member a.member := by
  obtain ⟨k, _, ha⟩ := mem_arrivals.mp ha
  obtain ⟨hr, hm⟩ := mem_arrivalsAt.mp ha
  obtain ⟨hlevel, hnew⟩ := mem_onward.mp hm
  have hhead : Grouped.shortId c.headElement ∈ a.route := mem_of_mem_routes hr List.mem_cons_self
  have hlists := mem_references_of_mem_nextLevel hlevel
  refine ⟨?_, hlists _ hhead, hlists _ (routeEnd_mem (List.ne_nil_of_mem hhead)),
    not_lists_self_of_mem_nextLevel hlevel hnew⟩
  rcases List.mem_cons.mp (mem_members_of_mem_nextLevel hlevel) with heq | hother
  · exact absurd (heq ▸ hhead) hnew
  · exact hother

/-- A node below another one holds a member other than the head, which
lists the group above it. -/
theorem member_of_child {c : Collection α} {t p n : Tree α} (ht : c.hierarchy = .ok t)
    (hp : p ∈ t.walk) (hn : n ∈ p.children) :
    n.member ∈ c.others ∧ n.shortId ≠ Grouped.shortId c.headElement
      ∧ p.shortId ∈ Grouped.references n.member := by
  obtain ⟨-, rfl⟩ := hierarchy_eq_ok_iff.mp ht
  obtain ⟨a, ha, hmember, hparent⟩ := exists_arrival_of_child rfl hp hn
  obtain ⟨hother, -, hend, -⟩ := arrival_lists (List.mem_of_find?_eq_some ha)
  rw [hmember] at hother hend
  refine ⟨hother, fun heq => ?_, hparent ▸ hend⟩
  obtain ⟨j, -, ha⟩ := mem_arrivals.mp (List.mem_of_find?_eq_some ha)
  obtain ⟨hr, hm⟩ := mem_arrivalsAt.mp ha
  have hnew : Grouped.shortId a.member ∉ a.route := (mem_onward.mp hm).2
  have hid : Grouped.shortId a.member = Grouped.shortId c.headElement := hmember ▸ heq
  exact hnew (hid ▸ mem_of_mem_routes hr List.mem_cons_self)

/-- What holds of every hierarchy, whatever its groups list. -/
structure WellPlaced (c : Collection α) (t : Tree α) : Prop where
  /-- The head stands at the root. -/
  root : t.member = c.headElement ∧ t.shortId = c.head
  /-- No short id stands at two nodes. -/
  once : (t.walk.map Tree.shortId).Nodup
  /-- A node below another one holds a member that lists the head and the
  group above it, but not itself. -/
  below : ∀ p ∈ t.walk, ∀ n ∈ p.children,
    n.member ∈ c.others
      ∧ (Grouped.group n.member).refersTo c.head = true
      ∧ (Grouped.group n.member).refersTo p.shortId = true
      ∧ (Grouped.group n.member).refersTo n.shortId = false
  /-- Every node but the root stands below another one. -/
  above : ∀ n ∈ t.walk, n = t ∨ ∃ p ∈ t.walk, n ∈ p.children
  /-- The path of a node, and no other list, is the way down to it. -/
  path : ∀ n ids, Leads t ids n ↔ n ∈ t.walk ∧ n.path = ids
  /-- A placed short id finds its node. -/
  found : ∀ n ∈ t.walk, t.find? n.shortId = some n

/-- However a collection was built up and whatever its groups list, a
hierarchy of it is well placed. -/
theorem hierarchy_wellPlaced {c : Collection α} (hc : Built c) {t : Tree α}
    (ht : c.hierarchy = .ok t) : WellPlaced c t := by
  obtain ⟨_, rfl⟩ := hierarchy_eq_ok_iff.mp ht
  have hanchored := hc.anchored
  have hs : c.headNode.children = [] := rfl
  have hkept : PathsKept (grown c c.headNode 9) := pathsKept_grown hs
  refine ⟨⟨rfl, hanchored.head.symm⟩, nodup_walk_grown hs, ?_, fun n hn => exists_parent hn, ?_,
    fun n hn => find?_of_mem_walk (nodup_walk_grown hs) hn⟩
  · intro p hp n hn
    obtain ⟨a, ha, hmember, hparent⟩ := exists_arrival_of_child hs hp hn
    obtain ⟨hother, hhead, hend, hself⟩ := arrival_lists (List.mem_of_find?_eq_some ha)
    rw [hmember] at hother hhead hend hself
    rw [hparent] at hend
    refine ⟨hother, ?_, ?_, ?_⟩
    · rw [hanchored.head]
      exact refersTo_iff_lists.mpr hhead
    · exact refersTo_iff_lists.mpr hend
    · exact Bool.eq_false_iff.mpr fun h => hself (refersTo_iff_lists.mp h)
  · intro n ids
    have hpath : ∀ {ids}, Leads (grown c c.headNode 9) ids n → n.path = ids := fun hl =>
      hkept.path_of_leads hl
    constructor
    · exact fun hl => ⟨mem_walk_iff_leads.mpr ⟨ids, hl⟩, hpath hl⟩
    · rintro ⟨hn, rfl⟩
      obtain ⟨ids, hl⟩ := mem_walk_iff_leads.mp hn
      rw [hpath hl]
      exact hl

/-- `a` and `b` list each other, `s` lists itself, and `b` comes twice,
the second time without `a`. -/
def tangled : Collection Group :=
  let r : Text := [.char 'r']
  let a : Text := [.char 'a']
  let b : Text := [.char 'b']
  let s : Text := [.char 's']
  ⟨r, .plain r [],
    [.plain a [r, b], .plain s [r, s], .plain b [r, a], .plain b [r], .plain [.char 'g'] [r, b]], 3⟩

theorem built_tangled : Built tangled := .of_addAll rfl rfl

/-- The hierarchy of a tangled collection is well placed: it holds `b`,
with `a` and `g` below it, and leaves `s` out. -/
theorem hierarchy_wellPlaced_tangled :
    Built tangled ∧ ∃ t, tangled.hierarchy = .ok t
      ∧ t.walk.map Tree.shortId = [[.char 'r'], [.char 'b'], [.char 'a'], [.char 'g']]
      ∧ WellPlaced tangled t := by
  have hempty : tangled.headRoutes 9 = [] := by decide +kernel
  have ht : tangled.hierarchy = .ok (grown tangled tangled.headNode 9) :=
    hierarchy_eq_ok_iff.mpr ⟨hempty, rfl⟩
  exact ⟨built_tangled, _, ht, by decide +kernel, hierarchy_wellPlaced built_tangled ht⟩

end Lineage.Collection
