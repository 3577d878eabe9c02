/-
Lineage.Proofs.Hierarchy.Covering — hierarchies of collections whose
references are an order.

In an ordered collection the layering rule finds exactly the groups whose
immediate predecessor is the end of the route (`EndsAt.mem_onward`),
whatever groups outside the collection are listed too.  So a route is a
way up through immediate predecessors, a way of every length up to the
longest chain exists (`exists_stepsTo_above`), and
`hierarchy_of_ordered` says when the hierarchy is too deep and what it is
otherwise: every member once, below an immediate predecessor, at the
least possible depth.
-/
import Lineage.Proofs.Hierarchy.Growth
import Mathlib.Logic.Relation
import Mathlib.Order.Bounds.Basic

namespace Lineage.Collection

open Layout Lineage.Tree

universe u

variable {α : Type u} [Grouped α]

/-- A member lists another member. -/
structure MemberLists (c : Collection α) (m b : α) : Prop where
  member : m ∈ c.members
  listed : b ∈ c.members
  lists : Lists m b

/-- The members have short ids of their own and all list the head, and
listing among members is acyclic and transitively closed.  What they list
outside the collection is free. -/
structure Ordered (c : Collection α) : Prop where
  distinctIds : (c.members.map Grouped.shortId).Nodup
  listsHead : ∀ m ∈ c.others, Lists m c.headElement
  acyclic : ∀ m, ¬ Relation.TransGen c.MemberLists m m
  closed : ∀ a b d, c.MemberLists a b → c.MemberLists b d → Lists a d

/-- `p` is an immediate predecessor of `m`: `m` lists it, and no third
member lists it and is listed by `m`. -/
def Immediate (c : Collection α) (p m : α) : Prop :=
  c.MemberLists m p ∧ ∀ z, c.MemberLists m z → ¬ c.MemberLists z p

/-- So many steps from immediate predecessor to member lead from the head
to a member. -/
inductive StepsTo (c : Collection α) : Nat → α → Prop
  | head : StepsTo c 0 c.headElement
  | next {k : Nat} {p m : α} : StepsTo c k p → c.Immediate p m → StepsTo c (k + 1) m

/-- There are `n` members each of which lists the head and all earlier
ones. -/
def HasChain (c : Collection α) (n : Nat) : Prop :=
  ∃ ms : List α, ms.length = n
    ∧ (∀ m ∈ ms, m ∈ c.members ∧ Lists m c.headElement)
    ∧ ms.Pairwise fun earlier later => Lists later earlier

/-! ## The order -/

namespace Ordered

variable {c : Collection α}

theorem irrefl (h : Ordered c) (m : α) : ¬ c.MemberLists m m :=
  fun hm => h.acyclic m (.single hm)

theorem trans (h : Ordered c) {a b d : α} (hab : c.MemberLists a b) (hbd : c.MemberLists b d) :
    c.MemberLists a d :=
  ⟨hab.member, hbd.listed, h.closed a b d hab hbd⟩

theorem asymm (h : Ordered c) {a b : α} (hab : c.MemberLists a b) : ¬ c.MemberLists b a :=
  fun hba => h.irrefl a (h.trans hab hba)

theorem eq_of_shortId_eq (h : Ordered c) {a b : α} (ha : a ∈ c.members) (hb : b ∈ c.members)
    (heq : Grouped.shortId a = Grouped.shortId b) : a = b :=
  List.inj_on_of_nodup_map h.distinctIds ha hb heq

theorem lists_head (h : Ordered c) {m : α} (hm : m ∈ c.others) :
    c.MemberLists m c.headElement :=
  ⟨List.mem_cons_of_mem _ hm, List.mem_cons_self, h.listsHead m hm⟩

/-- The head lists no member. -/
theorem not_head_lists (h : Ordered c) (b : α) : ¬ c.MemberLists c.headElement b := by
  intro hb
  rcases List.mem_cons.mp hb.listed with rfl | hother
  · exact h.irrefl _ hb
  · exact h.asymm hb (h.lists_head hother)

end Ordered

/-- Listing that lowers a rank is acyclic. -/
theorem acyclic_of_rank {c : Collection α} (rank : α → Nat)
    (h : ∀ m b, c.MemberLists m b → rank b < rank m) (m : α) :
    ¬ Relation.TransGen c.MemberLists m m := by
  have key : ∀ {b}, Relation.TransGen c.MemberLists m b → rank b < rank m := by
    intro b hb
    induction hb with
    | single hl => exact h _ _ hl
    | tail _ hl ih => exact Nat.lt_trans (h _ _ hl) ih
  exact fun hm => Nat.lt_irrefl _ (key hm)

theorem StepsTo.mem_members {c : Collection α} {k : Nat} {m : α} (h : c.StepsTo k m) :
    m ∈ c.members := by
  cases h with
  | head => exact List.mem_cons_self
  | next _ hi => exact hi.1.member

theorem StepsTo.eq_head {c : Collection α} {m : α} (h : c.StepsTo 0 m) : m = c.headElement := by
  cases h
  rfl

/-! ## Routes are ways up -/

/-- A route goes up in so many steps to a member: its entries are that
member, at the end, and members that it lists. -/
structure EndsAt (c : Collection α) (k : Nat) (route : List Text) (m : α) : Prop where
  steps : c.StepsTo k m
  last : ∃ before, route = before ++ [Grouped.shortId m]
  nodup : route.Nodup
  entries : ∀ s ∈ route, ∃ z ∈ c.members, Grouped.shortId z = s ∧ (z = m ∨ c.MemberLists m z)

namespace EndsAt

variable {c : Collection α} {k : Nat} {route : List Text} {m x : α}

theorem shortId_mem (h : EndsAt c k route m) : Grouped.shortId m ∈ route := by
  obtain ⟨before, rfl⟩ := h.last
  simp

theorem routeEnd_eq (h : EndsAt c k route m) : routeEnd route = Grouped.shortId m := by
  obtain ⟨before, rfl⟩ := h.last
  exact routeEnd_concat _ _

/-- Listing a whole route is listing its end. -/
theorem candidate_iff (hc : Ordered c) (h : EndsAt c k route m) :
    c.Candidate route x ↔ c.MemberLists x m := by
  constructor
  · rintro ⟨hx, hlists⟩
    exact ⟨hx, h.steps.mem_members, (listsPath_iff.mp hlists).2 _ h.shortId_mem⟩
  · intro hxm
    refine ⟨hxm.member, listsPath_iff.mpr ⟨h.nodup, fun s hs => ?_⟩⟩
    obtain ⟨z, _, rfl, rfl | hmz⟩ := h.entries s hs
    · exact hxm.lists
    · exact (hc.trans hxm hmz).lists

/-- A member above the end of a route is no entry of it. -/
theorem shortId_not_mem (hc : Ordered c) (h : EndsAt c k route m) (hxm : c.MemberLists x m) :
    Grouped.shortId x ∉ route := by
  intro hx
  obtain ⟨z, hz, heq, hzm⟩ := h.entries _ hx
  obtain rfl := hc.eq_of_shortId_eq hz hxm.member heq
  rcases hzm with rfl | hmz
  · exact hc.irrefl _ hxm
  · exact hc.asymm hxm hmz

/-- What a direct group lists among the members is on the route, so
nothing fits between it and the end. -/
theorem immediate_of_direct (hc : Ordered c) (h : EndsAt c k route m) (hd : c.Direct route x) :
    c.Immediate m x := by
  obtain ⟨hcand, hdirect⟩ := hd
  refine ⟨(h.candidate_iff hc).mp hcand, fun z hxz hzm => ?_⟩
  have hz : Grouped.shortId z ∈ route := (isDirect_iff hcand.2).mp hdirect _ hxz.lists
  exact h.shortId_not_mem hc hzm hz

/-- A group between a free group and the end would be direct, or free,
or list a direct one that the free group then lists too. -/
theorem immediate_of_free (hc : Ordered c) (h : EndsAt c k route m) (hf : c.Free route x)
    (hnone : ∀ f, c.Free route f → ¬ Lists x f) : c.Immediate m x := by
  obtain ⟨hcand, _, hnodirect⟩ := hf
  refine ⟨(h.candidate_iff hc).mp hcand, fun z hxz hzm => ?_⟩
  have hz : c.Candidate route z := (h.candidate_iff hc).mpr hzm
  by_cases hzd : isDirect route z = true
  · exact hnodirect z ⟨hz, hzd⟩ hxz.lists
  · by_cases hzfree : ∃ d, c.Direct route d ∧ Lists z d
    · obtain ⟨d, hd, hzd⟩ := hzfree
      have hxd : c.MemberLists x d := hc.trans hxz ⟨hzm.member, hd.1.1, hzd⟩
      exact hnodirect d hd hxd.lists
    · refine hnone z ⟨hz, by simpa using hzd, fun d hd hzd => ?_⟩ hxz.lists
      exact hzfree ⟨d, hd, hzd⟩

/-- A route goes on exactly to the groups that have its end as an
immediate predecessor. -/
theorem mem_onward (hc : Ordered c) (h : EndsAt c k route m) :
    x ∈ c.onward route ↔ c.Immediate m x := by
  rw [Collection.mem_onward, mem_nextLevel]
  constructor
  · rintro ⟨hd | ⟨hf, hnone⟩, _⟩
    · exact h.immediate_of_direct hc hd
    · exact h.immediate_of_free hc hf hnone
  · rintro ⟨hxm, hbetween⟩
    have hcand : c.Candidate route x := (h.candidate_iff hc).mpr hxm
    have hnone : ∀ z, c.Candidate route z → ¬ Lists x z := fun z hz hl =>
      hbetween z ⟨hxm.member, hz.1, hl⟩ ((h.candidate_iff hc).mp hz)
    refine ⟨?_, h.shortId_not_mem hc hxm⟩
    by_cases hd : isDirect route x = true
    · exact .inl ⟨hcand, hd⟩
    · exact .inr ⟨⟨hcand, by simpa using hd, fun d hd => hnone d hd.1⟩, fun f hf => hnone f hf.1⟩

theorem head (c : Collection α) :
    EndsAt c 0 [Grouped.shortId c.headElement] c.headElement where
  steps := .head
  last := ⟨[], rfl⟩
  nodup := List.nodup_singleton _
  entries _ hs := ⟨c.headElement, List.mem_cons_self, (List.mem_singleton.mp hs).symm, .inl rfl⟩

theorem next (hc : Ordered c) (h : EndsAt c k route m) (hi : c.Immediate m x) :
    EndsAt c (k + 1) (route ++ [Grouped.shortId x]) x where
  steps := .next h.steps hi
  last := ⟨route, rfl⟩
  nodup := by
    rw [List.nodup_append]
    refine ⟨h.nodup, List.nodup_singleton _, fun _ hs t ht => ?_⟩
    rintro rfl
    exact h.shortId_not_mem hc hi.1 (List.mem_singleton.mp ht ▸ hs)
  entries s hs := by
    rcases List.mem_append.mp hs with hs | hs
    · obtain ⟨z, hz, heq, rfl | hmz⟩ := h.entries s hs
      · exact ⟨z, hz, heq, .inr hi.1⟩
      · exact ⟨z, hz, heq, .inr (hc.trans hi.1 hmz)⟩
    · exact ⟨x, hi.1.member, (List.mem_singleton.mp hs).symm, .inl rfl⟩

end EndsAt

section Routes

variable {c : Collection α} {k : Nat} {m : α}

/-- Every route of a layer goes up in as many steps as the layer says. -/
theorem exists_endsAt (hc : Ordered c) {route : List Text} (hr : route ∈ c.headRoutes k) :
    ∃ m, EndsAt c k route m := by
  induction k generalizing route with
  | zero =>
    rw [headRoutes, routes, List.mem_singleton] at hr
    exact ⟨c.headElement, hr ▸ EndsAt.head c⟩
  | succ k ih =>
    obtain ⟨q, hq, x, hx, rfl⟩ := mem_routes_succ.mp hr
    obtain ⟨m, hm⟩ := ih hq
    exact ⟨x, hm.next hc ((hm.mem_onward hc).mp hx)⟩

/-- Every way up is a route of its layer. -/
theorem exists_route (hc : Ordered c) (h : c.StepsTo k m) :
    ∃ route ∈ c.headRoutes k, EndsAt c k route m := by
  induction h with
  | head => exact ⟨_, List.mem_singleton_self _, EndsAt.head c⟩
  | @next k p m _ hi ih =>
    obtain ⟨route, hr, hends⟩ := ih
    refine ⟨_, mem_routes_succ.mpr ⟨route, hr, m, (hends.mem_onward hc).mpr hi, rfl⟩, ?_⟩
    exact hends.next hc hi

end Routes

/-! ## Chains -/

section Chains

open Classical in
/-- The members between two members. -/
noncomputable def between (c : Collection α) (p m : α) : List α :=
  c.members.filter fun z => c.MemberLists m z ∧ c.MemberLists z p

theorem mem_between {c : Collection α} {p m z : α} :
    z ∈ c.between p m ↔ c.MemberLists m z ∧ c.MemberLists z p := by
  simp only [between, List.mem_filter, decide_eq_true_eq, and_iff_right_iff_imp]
  exact fun h => h.2.member

open Classical in
theorem length_between_lt {c : Collection α} {p p' m m' z : α} (hz : z ∈ c.between p m)
    (hsub : ∀ y ∈ c.between p' m', y ∈ c.between p m) (hnot : z ∉ c.between p' m') :
    (c.between p' m').length < (c.between p m).length := by
  have hfilter : c.between p' m' =
      (c.between p m).filter fun y => c.MemberLists m' y ∧ c.MemberLists y p' := by
    rw [between, between, List.filter_filter]
    refine List.filter_congr fun y _ => ?_
    by_cases hy : c.MemberLists m' y ∧ c.MemberLists y p'
    · simp [hy, mem_between.mp (hsub y (mem_between.mpr hy))]
    · simp [hy]
  rw [hfilter, List.length_filter_lt_length_iff_exists]
  exact ⟨z, hz, fun h => hnot (mem_between.mpr (of_decide_eq_true h))⟩

variable {c : Collection α} {k : Nat} {m p : α}

/-- Between a member and one that lists it there is a way up in one step
or more. -/
theorem exists_stepsTo_above (hc : Ordered c) (hp : c.StepsTo k p) (hmp : c.MemberLists m p) :
    ∃ j, k < j ∧ c.StepsTo j m := by
  -- The fewer members there are between the two, the sooner there is a single step.
  induction hn : (c.between p m).length using Nat.strongRecOn generalizing k p m with
  | ind n ih =>
    by_cases hi : c.Immediate p m
    · exact ⟨k + 1, Nat.lt_succ_self k, .next hp hi⟩
    · obtain ⟨z, hmz, hzp⟩ : ∃ z, c.MemberLists m z ∧ c.MemberLists z p := by
        by_contra hnone
        exact hi ⟨hmp, fun z hmz hzp => hnone ⟨z, hmz, hzp⟩⟩
      have hz : z ∈ c.between p m := mem_between.mpr ⟨hmz, hzp⟩
      have hbelow : (c.between p z).length < n := by
        rw [← hn]
        refine length_between_lt hz (fun y hy => ?_) fun hzz => ?_
        · obtain ⟨hzy, hyp⟩ := mem_between.mp hy
          exact mem_between.mpr ⟨hc.trans hmz hzy, hyp⟩
        · exact hc.irrefl z (mem_between.mp hzz).1
      have habove : (c.between z m).length < n := by
        rw [← hn]
        refine length_between_lt hz (fun y hy => ?_) fun hzz => ?_
        · obtain ⟨hmy, hyz⟩ := mem_between.mp hy
          exact mem_between.mpr ⟨hmy, hc.trans hyz hzp⟩
        · exact hc.irrefl z (mem_between.mp hzz).2
      obtain ⟨i, hki, hzi⟩ := ih _ hbelow hp hzp rfl
      obtain ⟨j, hij, hmj⟩ := ih _ habove hzi hmz rfl
      exact ⟨j, Nat.lt_trans hki hij, hmj⟩

/-- A chain above a member leads up at least as many steps. -/
theorem exists_stepsTo_of_chain (hc : Ordered c) {ms : List α} (hp : c.StepsTo k p)
    (hmem : ∀ m ∈ ms, c.MemberLists m p) (hms : ms.Pairwise fun a b => Lists b a) :
    ∃ j m, k + ms.length ≤ j ∧ c.StepsTo j m := by
  induction ms generalizing k p with
  | nil => exact ⟨k, p, by simp, hp⟩
  | cons m rest ih =>
    obtain ⟨hm, hrest⟩ := List.pairwise_cons.mp hms
    have hmp := hmem m List.mem_cons_self
    obtain ⟨i, hki, hmi⟩ := exists_stepsTo_above hc hp hmp
    have hmem' : ∀ x ∈ rest, c.MemberLists x m := fun x hx =>
      ⟨(hmem x (List.mem_cons_of_mem _ hx)).member, hmp.member, hm x hx⟩
    obtain ⟨j, x, hij, hxj⟩ := ih hmi hmem' hrest
    exact ⟨j, x, by simp only [List.length_cons]; omega, hxj⟩

/-- A way up passes through a chain of as many members as it has steps. -/
theorem exists_chain_of_stepsTo (hc : Ordered c) (h : c.StepsTo k m) :
    ∃ ms : List α, ms.length = k ∧ (∀ x ∈ ms, c.MemberLists x c.headElement)
      ∧ (∀ x ∈ ms, x = m ∨ c.MemberLists m x)
      ∧ ms.Pairwise fun a b => Lists b a := by
  induction h with
  | head => exact ⟨[], by simp⟩
  | @next k p m hp hi ih =>
    obtain ⟨ms, hlen, hhead, hlisted, hpair⟩ := ih
    have hmx : ∀ x ∈ ms, c.MemberLists m x := fun x hx => by
      rcases hlisted x hx with rfl | hpx
      · exact hi.1
      · exact hc.trans hi.1 hpx
    refine ⟨ms ++ [m], by simp [hlen], fun x hx => ?_, fun x hx => ?_, ?_⟩
    · rcases List.mem_append.mp hx with hx | hx
      · exact hhead x hx
      · rw [List.mem_singleton.mp hx]
        rcases List.mem_cons.mp hi.1.member with rfl | hother
        · exact absurd hi.1 (hc.not_head_lists p)
        · exact hc.lists_head hother
    · rcases List.mem_append.mp hx with hx | hx
      · exact .inr (hmx x hx)
      · exact .inl (List.mem_singleton.mp hx)
    · rw [List.pairwise_append]
      refine ⟨hpair, List.pairwise_singleton _ _, fun x hx y hy => ?_⟩
      rw [List.mem_singleton.mp hy]
      exact (hmx x hx).lists

theorem headRoutes_ne_nil_iff (hc : Ordered c) (n : Nat) :
    c.headRoutes n ≠ [] ↔ c.HasChain n := by
  constructor
  · intro hne
    obtain ⟨route, hr⟩ := List.exists_mem_of_ne_nil _ hne
    obtain ⟨m, hm⟩ := exists_endsAt hc hr
    obtain ⟨ms, hlen, hhead, _, hpair⟩ := exists_chain_of_stepsTo hc hm.steps
    exact ⟨ms, hlen, fun x hx => ⟨(hhead x hx).member, (hhead x hx).lists⟩, hpair⟩
  · rintro ⟨ms, hlen, hmem, hpair⟩ hnil
    have hhead : ∀ x ∈ ms, c.MemberLists x c.headElement := fun x hx =>
      ⟨(hmem x hx).1, List.mem_cons_self, (hmem x hx).2⟩
    obtain ⟨j, m, hj, hm⟩ := exists_stepsTo_of_chain hc .head hhead hpair
    obtain ⟨route, hr, _⟩ := exists_route hc hm
    rw [headRoutes, routes_eq_nil_of_le hnil (by omega)] at hr
    exact List.not_mem_nil hr

end Chains

/-! ## The tree -/

section Tree

variable {c : Collection α} {n : Nat}

theorem mem_members_of_mem_walk {x : Tree α} (hx : x ∈ (grown c c.headNode n).walk) :
    x.member ∈ c.members := by
  rcases exists_parent hx with rfl | ⟨p, hp, hc⟩
  · exact List.mem_cons_self
  · obtain ⟨a, ha, hmember, _⟩ := exists_arrival_of_child rfl hp hc
    obtain ⟨k, _, ha⟩ := mem_arrivals.mp (List.mem_of_find?_eq_some ha)
    have hlevel := (Collection.mem_onward.mp (mem_arrivalsAt.mp ha).2).1
    exact hmember ▸ mem_members_of_mem_nextLevel hlevel

theorem mem_members_of_mem_hierarchy {t x : Tree α} (ht : c.hierarchy = .ok t)
    (hx : x ∈ t.walk) : x.member ∈ c.members := by
  obtain ⟨-, rfl⟩ := hierarchy_eq_ok_iff.mp ht
  exact mem_members_of_mem_walk hx

/-- A child was arrived at first from its parent, in the first layer that
arrives at it. -/
theorem exists_endsAt_parent (hc : Ordered c) {p child : Tree α}
    (hp : p ∈ (grown c c.headNode n).walk) (hchild : child ∈ p.children) :
    ∃ k route, EndsAt c k route p.member ∧ c.Immediate p.member child.member
      ∧ ∀ j < k, ¬ c.StepsTo (j + 1) child.member := by
  obtain ⟨a, ha, hmember, hend⟩ := exists_arrival_of_child rfl hp hchild
  obtain ⟨k, _, hak, hfirst⟩ := find?_arrivals ha
  obtain ⟨hr, hm⟩ := mem_arrivalsAt.mp hak
  obtain ⟨m, hends⟩ := exists_endsAt hc hr
  have heq : m = p.member := by
    refine hc.eq_of_shortId_eq hends.steps.mem_members (mem_members_of_mem_walk hp) ?_
    rw [← hends.routeEnd_eq]
    exact hend
  rw [heq] at hends
  refine ⟨k, a.route, hends, hmember ▸ (hends.mem_onward hc).mp hm, fun j hj hsteps => ?_⟩
  obtain ⟨_, hq, hi⟩ : ∃ q, c.StepsTo j q ∧ c.Immediate q child.member := by
    cases hsteps with
    | next hq hi => exact ⟨_, hq, hi⟩
  obtain ⟨route, hroute, hqends⟩ := exists_route hc hq
  have harrival : Arrival.mk route child.member ∈ arrivalsAt c [Grouped.shortId c.headElement] j :=
    mem_arrivalsAt.mpr ⟨hroute, (hqends.mem_onward hc).mpr hi⟩
  exact hfirst j hj _ harrival (decide_eq_true rfl)

theorem immediate_of_child (hc : Ordered c) {p child : Tree α}
    (hp : p ∈ (grown c c.headNode n).walk) (hchild : child ∈ p.children) :
    c.Immediate p.member child.member := by
  obtain ⟨_, _, _, hi, _⟩ := exists_endsAt_parent hc hp hchild
  exact hi

/-- A node stands as deep as the shortest way up to its member is
long. -/
theorem isLeast_depth (hc : Ordered c) :
    ∀ x ∈ (grown c c.headNode n).walk, IsLeast {k | c.StepsTo k x.member} x.depth := by
  apply walk_induction
  · exact ⟨.head, fun _ _ => Nat.zero_le _⟩
  · intro p hp hleast child hchild
    obtain ⟨k, route, hends, hi, hfirst⟩ := exists_endsAt_parent hc hp hchild
    have hdepth : child.depth = p.depth + 1 := (pathsKept_grown rfl).depth_child hp hchild
    have hstep : c.StepsTo (p.depth + 1) child.member := .next hleast.1 hi
    have hpk : p.depth = k := by
      have hle : p.depth ≤ k := hleast.2 hends.steps
      have hge : ¬ p.depth < k := fun hlt => hfirst p.depth hlt hstep
      omega
    refine ⟨hdepth ▸ hstep, fun j hj => ?_⟩
    cases j with
    | zero =>
      -- No steps lead to the head alone, which stands below nothing.
      have hhead : child.member = c.headElement := StepsTo.eq_head hj
      exact absurd (hhead ▸ hi.1) (hc.not_head_lists p.member)
    | succ j =>
      have hge : ¬ j < k := fun hlt => hfirst j hlt hj
      omega

theorem perm_walk_members (hc : Ordered c) (hempty : c.headRoutes n = []) :
    ((grown c c.headNode n).walk.map Tree.member).Perm c.members := by
  have hnodup : ((grown c c.headNode n).walk.map Tree.member).Nodup := by
    have hids : ((grown c c.headNode n).walk.map Tree.shortId).Nodup := nodup_walk_grown rfl
    refine List.Nodup.of_map Grouped.shortId ?_
    rw [List.map_map]
    exact hids
  refine (List.perm_ext_iff_of_nodup hnodup (List.Nodup.of_map _ hc.distinctIds)).mpr fun m => ?_
  rw [List.mem_map]
  constructor
  · rintro ⟨x, hx, rfl⟩
    exact mem_members_of_mem_walk hx
  · intro hm
    rcases List.mem_cons.mp hm with rfl | hother
    · exact ⟨_, mem_walk_self _, rfl⟩
    · obtain ⟨j, hj, hsteps⟩ := exists_stepsTo_above hc .head (hc.lists_head hother)
      obtain ⟨j, rfl⟩ : ∃ i, j = i + 1 := ⟨j - 1, by omega⟩
      obtain ⟨route, hroute, hends⟩ := exists_route hc hsteps
      have hplaced : Grouped.shortId m ∈ (grown c c.headNode n).walk.map Tree.shortId := by
        rw [mem_walk_grown rfl]
        refine .inr ((exists_arrival_iff_exists_route hempty).mpr ⟨j, route, hroute, ?_⟩)
        exact hends.routeEnd_eq
      obtain ⟨x, hx, heq⟩ := List.mem_map.mp hplaced
      exact ⟨x, hx, hc.eq_of_shortId_eq (mem_members_of_mem_walk hx) hm heq⟩

end Tree

/-- The hierarchy of an ordered collection is too deep exactly if nine
members list the head and all earlier ones.  Otherwise it is a tree of
all members, each once, below one of its immediate predecessors, and as
deep as the fewest steps from the head to it. -/
theorem hierarchy_of_ordered {c : Collection α} (hc : Ordered c) :
    ((∃ fault, c.hierarchy = .error fault ∧ fault.kind = .tooDeep) ↔ c.HasChain 9)
      ∧ (¬ c.HasChain 9 → ∃ t, c.hierarchy = .ok t
        ∧ (t.walk.map Tree.member).Perm c.members
        ∧ (∀ p ∈ t.walk, ∀ n ∈ p.children, c.Immediate p.member n.member)
        ∧ ∀ n ∈ t.walk, IsLeast {k | c.StepsTo k n.member} n.depth) := by
  constructor
  · rw [hierarchy_tooDeep_iff, headRoutes_ne_nil_iff hc]
  · intro hnone
    have hempty : c.headRoutes 9 = [] := by
      by_contra hne
      exact hnone ((headRoutes_ne_nil_iff hc 9).mp hne)
    refine ⟨_, hierarchy_eq_ok_iff.mpr ⟨hempty, rfl⟩, perm_walk_members hc hempty, ?_,
      isLeast_depth hc⟩
    exact fun p hp n hn => immediate_of_child hc hp hn

/-- `a` and `d` stand below the head `r`, `b` below both and `g` below
`b`; `a` also lists a group that is no member. -/
def diamond : Collection Group :=
  let r : Text := [.char 'r']
  let a : Text := [.char 'a']
  let d : Text := [.char 'd']
  let b : Text := [.char 'b']
  ⟨r, .plain r [],
    [.plain [.char 'g'] [r, a, d, b], .plain a [r, [.char 'x']], .plain b [r, a, d],
      .plain d [r]], 16⟩

theorem ordered_diamond : Ordered diamond where
  distinctIds := by decide +kernel
  listsHead := by
    unfold Lists
    decide +kernel
  acyclic := by
    apply acyclic_of_rank fun m => m.references.length
    rintro m b ⟨hm, hb, hl⟩
    have key : ∀ m ∈ diamond.members, ∀ b ∈ diamond.members,
        Grouped.shortId b ∈ Grouped.references m → b.references.length < m.references.length := by
      decide +kernel
    exact key m hm b hb hl
  closed := by
    rintro a b d ⟨ha, hb, hab⟩ ⟨_, hd, hbd⟩
    have key : ∀ a ∈ diamond.members, ∀ b ∈ diamond.members, ∀ d ∈ diamond.members,
        Grouped.shortId b ∈ Grouped.references a → Grouped.shortId d ∈ Grouped.references b →
          Grouped.shortId d ∈ Grouped.references a := by
      decide +kernel
    exact key a ha b hb d hd hab hbd

/-- The hierarchy of the diamond holds every member once. -/
theorem hierarchy_of_ordered_diamond :
    Ordered diamond ∧ ¬ diamond.HasChain 9
      ∧ ∃ t, diamond.hierarchy = .ok t ∧ (t.walk.map Tree.member).Perm diamond.members
        ∧ (∀ p ∈ t.walk, ∀ n ∈ p.children, diamond.Immediate p.member n.member)
        ∧ ∀ n ∈ t.walk, IsLeast {k | diamond.StepsTo k n.member} n.depth := by
  have hempty : diamond.headRoutes 9 = [] := by decide +kernel
  have hnone : ¬ diamond.HasChain 9 := fun h =>
    (headRoutes_ne_nil_iff ordered_diamond 9).mpr h hempty
  exact ⟨ordered_diamond, hnone, (hierarchy_of_ordered ordered_diamond).2 hnone⟩

end Lineage.Collection
