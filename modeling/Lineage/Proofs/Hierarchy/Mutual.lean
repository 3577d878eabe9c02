/-
Lineage.Proofs.Hierarchy.Mutual — members that list each other.

No stage of the layering rule asks for mutual references.  Two members
that list each other keep one another out because at a path that both
list each is a reason to put off the other.  A third group can set them
apart: if one of the two lists it and the other does not, the rule may
look at one of them alone, at one path, and at the other one deeper
(`hierarchy_holds_mutual_evading`).  Nothing else lets them in: follow a
route to the first of the two that it reaches, and there the rule has met
such a group, on the route or at its end (`exists_apart_of_mem_onward`).
So where the two list the same other groups of the hierarchy, neither is
in it (`hierarchy_sets_mutual_apart`).
-/
import Lineage.Proofs.Hierarchy.Gaps
import Lineage.Proofs.Hierarchy.Reordering

namespace Lineage.Collection

open Layout Lineage.Tree

universe u

variable {α : Type u} [Grouped α] {c : Collection α} {q r first : List Text} {n k : Nat} {a b : α}

/-! ## Entries of routes -/

/-- Before an entry of some kind that a route does not start with there is
a first one: a route without any, which goes on to it. -/
theorem exists_first_entry {P : Text → Prop} (hr : r ∈ c.routes first k)
    (hfirst : ∀ s ∈ first, ¬ P s) {s : Text} (hs : s ∈ r) (hP : P s) :
    ∃ j, ∃ q ∈ c.routes first j, ∃ m ∈ c.onward q, P (Grouped.shortId m) ∧ ∀ s ∈ q, ¬ P s := by
  induction k generalizing r s with
  | zero =>
    rw [routes, List.mem_singleton] at hr
    exact absurd hP (hfirst s (hr ▸ hs))
  | succ k ih =>
    obtain ⟨q, hq, m, hm, rfl⟩ := mem_routes_succ.mp hr
    by_cases hearlier : ∃ s ∈ q, P s
    · obtain ⟨s, hs, hP⟩ := hearlier
      exact ih hq hs hP
    · have hnone : ∀ s ∈ q, ¬ P s := fun s hs hP => hearlier ⟨s, hs, hP⟩
      rcases List.mem_append.mp hs with hs | hs
      · exact absurd hP (hnone s hs)
      · exact ⟨k, q, hq, m, hm, List.mem_singleton.mp hs ▸ hP, hnone⟩

/-- To a group of some kind in a hierarchy, other than the head, leads a
first one: a route without any, which goes on to it. -/
theorem exists_first_of_mem_hierarchy {P : Text → Prop} {t : Tree α} (ht : c.hierarchy = .ok t)
    (hhead : ¬ P (Grouped.shortId c.headElement)) {s : Text}
    (hs : s ∈ t.walk.map Tree.shortId) (hP : P s) :
    ∃ j, ∃ q ∈ c.headRoutes j, ∃ m ∈ c.onward q, P (Grouped.shortId m) ∧ ∀ s ∈ q, ¬ P s := by
  obtain ⟨k, r, hr, rfl⟩ := (shortId_mem_hierarchy_iff ht).mp hs
  have hne : r ≠ [] := List.ne_nil_of_mem (mem_of_mem_routes hr List.mem_cons_self)
  have hfirst : ∀ s ∈ [Grouped.shortId c.headElement], ¬ P s := fun s hs =>
    List.mem_singleton.mp hs ▸ hhead
  exact exists_first_entry hr hfirst (routeEnd_mem hne) hP

/-- Every entry of a route is placed. -/
theorem exists_placed_of_mem_route (hd : (c.members.map Grouped.shortId).Nodup)
    (hempty : c.headRoutes n = []) (hr : r ∈ c.headRoutes k) {s : Text} (hs : s ∈ r) :
    ∃ z ∈ (grown c c.headNode n).walk.map Tree.member, Grouped.shortId z = s := by
  by_cases hhead : s = Grouped.shortId c.headElement
  · exact ⟨_, List.mem_map.mpr ⟨_, mem_walk_self _, rfl⟩, hhead.symm⟩
  · have hfirst : ∀ x ∈ [Grouped.shortId c.headElement], ¬ x = s := fun x hx heq =>
      hhead (heq.symm.trans (List.mem_singleton.mp hx))
    obtain ⟨j, q, hq, z, hz, hid, -⟩ := exists_first_entry (P := (· = s)) hr hfirst hs rfl
    exact ⟨z, mem_walk_of_mem_onward hd hempty hq hz, hid⟩

/-! ## Setting two members apart -/

/-- Of two members that list each other a path off which both stand leads
to the one alone only if the other does not list the whole path, or lists
a direct group that the one does not list. -/
theorem apart_of_mem_nextLevel (ha : a ∈ c.nextLevel q) (hb : b ∈ c.members)
    (hbq : Grouped.shortId b ∉ q) (haq : Grouped.shortId a ∉ q)
    (hab : Lists a b) (hba : Lists b a) :
    (∃ s ∈ q, s ∉ Grouped.references b) ∨ ∃ d, c.Direct q d ∧ Lists b d ∧ ¬ Lists a d := by
  have hacand := candidate_of_mem_nextLevel ha
  -- A direct group lists nothing off the path.
  have hanot : ¬ c.Direct q a := fun h => hbq ((isDirect_iff hacand.2).mp h.2 _ hab)
  have hbnot : ¬ c.Direct q b := fun h => haq ((isDirect_iff h.1.2).mp h.2 _ hba)
  obtain ⟨hafree, hroot⟩ := (mem_nextLevel.mp ha).resolve_left hanot
  by_cases hbcand : c.Candidate q b
  · right
    by_contra hnone
    have hbfree : c.Free q b := by
      refine ⟨hbcand, Bool.eq_false_iff.mpr fun h => hbnot ⟨hbcand, h⟩, fun d hd hl => ?_⟩
      exact hnone ⟨d, hd, hl, hafree.2.2 d hd⟩
    exact hroot b hbfree hab
  · left
    by_contra hnone
    refine hbcand ⟨hb, listsPath_iff.mpr ⟨(listsPath_iff.mp hacand.2).1, fun s hs => ?_⟩⟩
    by_contra hnot
    exact hnone ⟨s, hs, hnot⟩

/-- Where a route without either goes on to one of two members that list
each other, some other placed group is listed by one of the two alone. -/
theorem exists_apart_of_mem_onward (hd : (c.members.map Grouped.shortId).Nodup)
    (hempty : c.headRoutes n = []) (hq : q ∈ c.headRoutes k) (ha : a ∈ c.onward q)
    (hb : b ∈ c.members) (hbq : Grouped.shortId b ∉ q) (hab : Lists a b) (hba : Lists b a) :
    ∃ z ∈ (grown c c.headNode n).walk.map Tree.member,
      z ≠ a ∧ z ≠ b ∧ ¬ (Lists a z ↔ Lists b z) := by
  obtain ⟨hlevel, haq⟩ := mem_onward.mp ha
  have hall := mem_references_of_mem_nextLevel hlevel
  rcases apart_of_mem_nextLevel hlevel hb hbq haq hab hba with ⟨s, hs, hnot⟩ | ⟨d, hdir, hbd, had⟩
  · obtain ⟨z, hz, rfl⟩ := exists_placed_of_mem_route hd hempty hq hs
    refine ⟨z, hz, fun heq => haq (heq ▸ hs), fun heq => hbq (heq ▸ hs), fun hiff => ?_⟩
    exact hnot (hiff.mp (hall _ hs))
  · have hdnot : ∀ {x : α}, Lists d x → Grouped.shortId x ∈ q := fun hl =>
      (isDirect_iff hdir.1.2).mp hdir.2 _ hl
    have hdq : Grouped.shortId d ∉ q := fun h => had (hall _ h)
    have honward : d ∈ c.onward q := mem_onward.mpr ⟨mem_nextLevel.mpr (.inl hdir), hdq⟩
    refine ⟨d, mem_walk_of_mem_onward hd hempty hq honward, ?_, ?_, fun hiff => had (hiff.mpr hbd)⟩
    · rintro rfl
      exact hbq (hdnot hab)
    · rintro rfl
      exact haq (hdnot hba)

/-- If one of two members that list each other is in a hierarchy, then some
third group in it is listed by one of the two alone. -/
theorem hierarchy_sets_mutual_apart (hd : (c.members.map Grouped.shortId).Nodup) {t : Tree α}
    (ht : c.hierarchy = .ok t) (ha : a ∈ c.others) (hb : b ∈ c.others)
    (hab : Lists a b) (hba : Lists b a)
    (hplaced : a ∈ t.walk.map Tree.member ∨ b ∈ t.walk.map Tree.member) :
    ∃ z ∈ t.walk.map Tree.member, z ≠ a ∧ z ≠ b ∧ ¬ (Lists a z ↔ Lists b z) := by
  let P : Text → Prop := fun s => s = Grouped.shortId a ∨ s = Grouped.shortId b
  have hidPlaced : ∃ s ∈ t.walk.map Tree.shortId, P s := by
    rcases hplaced with h | h
    · obtain ⟨x, hx, rfl⟩ := List.mem_map.mp h
      exact ⟨_, List.mem_map_of_mem hx, .inl rfl⟩
    · obtain ⟨x, hx, rfl⟩ := List.mem_map.mp h
      exact ⟨_, List.mem_map_of_mem hx, .inr rfl⟩
  obtain ⟨s, hs, hP⟩ := hidPlaced
  have hhead : ¬ P (Grouped.shortId c.headElement) := by
    rw [members, List.map_cons, List.nodup_cons] at hd
    rintro (heq | heq)
    · exact hd.1 (heq ▸ List.mem_map_of_mem ha)
    · exact hd.1 (heq ▸ List.mem_map_of_mem hb)
  obtain ⟨j, q, hq, m, hm, hmP, hnone⟩ := exists_first_of_mem_hierarchy ht hhead hs hP
  have haq : Grouped.shortId a ∉ q := fun h => hnone _ h (.inl rfl)
  have hbq : Grouped.shortId b ∉ q := fun h => hnone _ h (.inr rfl)
  have ham : a ∈ c.members := List.mem_cons_of_mem _ ha
  have hbm : b ∈ c.members := List.mem_cons_of_mem _ hb
  have hmm : m ∈ c.members := mem_members_of_mem_nextLevel (mem_onward.mp hm).1
  obtain ⟨hempty, rfl⟩ := hierarchy_eq_ok_iff.mp ht
  -- Whichever of the two the route goes on to, the other one is not on it.
  rcases hmP with hid | hid
  · obtain rfl : m = a := List.inj_on_of_nodup_map hd hmm ham hid
    exact exists_apart_of_mem_onward hd hempty hq hm hbm hbq hab hba
  · obtain rfl : m = b := List.inj_on_of_nodup_map hd hmm hbm hid
    obtain ⟨z, hz, hzb, hza, hapart⟩ := exists_apart_of_mem_onward hd hempty hq hm ham haq hba hab
    exact ⟨z, hz, hza, hzb, fun hiff => hapart hiff.symm⟩

/-- `a` and `b` list each other, and `a` lists `d` as well. -/
def evading : Collection Group :=
  let r : Text := [.char 'r']
  let d : Text := [.char 'd']
  let a : Text := [.char 'a']
  let b : Text := [.char 'b']
  ⟨r, .plain r [], [.plain d [r], .plain a [r, d, b], .plain b [r, a]], 16⟩

theorem built_evading : Built evading := .of_addAll rfl rfl

/-- Two members that list each other can both be in the hierarchy: `b`
stands below the head and `a` below `d`. -/
theorem hierarchy_holds_mutual_evading :
    Built evading ∧ (evading.members.map Grouped.shortId).Nodup
      ∧ ∃ t, evading.hierarchy = .ok t ∧ ∃ a ∈ evading.others, ∃ b ∈ evading.others,
        a ≠ b ∧ Lists a b ∧ Lists b a
          ∧ a ∈ t.walk.map Tree.member ∧ b ∈ t.walk.map Tree.member := by
  have ht : evading.hierarchy = .ok (grown evading evading.headNode 9) :=
    hierarchy_eq_ok_iff.mpr ⟨by decide +kernel, rfl⟩
  refine ⟨built_evading, by decide +kernel, _, ht,
    .plain [.char 'a'] [[.char 'r'], [.char 'd'], [.char 'b']], by decide +kernel,
    .plain [.char 'b'] [[.char 'r'], [.char 'a']], by decide +kernel, ?_⟩
  decide +kernel

/-- The third group is `d`, which `a` alone lists. -/
theorem hierarchy_sets_mutual_apart_evading :
    let a : Group := .plain [.char 'a'] [[.char 'r'], [.char 'd'], [.char 'b']]
    let b : Group := .plain [.char 'b'] [[.char 'r'], [.char 'a']]
    (evading.members.map Grouped.shortId).Nodup ∧ a ∈ evading.others ∧ b ∈ evading.others
      ∧ Lists a b ∧ Lists b a
      ∧ ∃ t, evading.hierarchy = .ok t ∧ a ∈ t.walk.map Tree.member
        ∧ ∃ z ∈ t.walk.map Tree.member, z ≠ a ∧ z ≠ b ∧ ¬ (Lists a z ↔ Lists b z) := by
  intro a b
  have hd : (evading.members.map Grouped.shortId).Nodup := by decide +kernel
  have ha : a ∈ evading.others := by decide +kernel
  have hb : b ∈ evading.others := by decide +kernel
  have hab : Lists a b := by decide +kernel
  have hba : Lists b a := by decide +kernel
  have ht : evading.hierarchy = .ok (grown evading evading.headNode 9) :=
    hierarchy_eq_ok_iff.mpr ⟨by decide +kernel, rfl⟩
  have hplaced : a ∈ (grown evading evading.headNode 9).walk.map Tree.member := by decide +kernel
  exact ⟨hd, ha, hb, hab, hba, _, ht, hplaced,
    hierarchy_sets_mutual_apart hd ht ha hb hab hba (.inl hplaced)⟩

end Lineage.Collection
