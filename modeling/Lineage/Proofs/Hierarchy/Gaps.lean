/-
Lineage.Proofs.Hierarchy.Gaps — which members a hierarchy can miss.

Where listing among the members is acyclic, a member stays out of the
hierarchy for one reason alone: its own list has a gap.  It lists a
member from which references lead on to a group of the tree, and it does
not list that group itself (`hierarchy_misses_only_gaps`).  A member that
lists every group above it has no gap, and is placed.

The proof follows a route as far as a member lists all of it
(`exists_last_route`).  There the layering rule either admits the member
or puts it off for a group that it lists, and what it was put off for
leads on to a group that is admitted (`exists_nextLevel_of_free`).
-/
import Lineage.Proofs.Hierarchy.Covering
import Lineage.Proofs.Hierarchy.WellPlaced
import Mathlib.Data.Set.Finite.List

namespace Lineage.Collection

open Layout Lineage.Tree

universe u

variable {α : Type u}

/-- Where an acyclic relation leads into a list, every way along it comes
to an end. -/
theorem exists_end_of_acyclic {r : α → α → Prop} {xs : List α} (hr : ∀ a b, r a b → b ∈ xs)
    (hacyclic : ∀ a, ¬ Relation.TransGen r a a) (a : α) :
    ∃ b, Relation.ReflTransGen r a b ∧ ∀ x, ¬ r b x := by
  let below : {x // x ∈ a :: xs} → {x // x ∈ a :: xs} → Prop :=
    fun x y => Relation.TransGen r y.1 x.1
  have : Finite {x // x ∈ a :: xs} := (List.finite_toSet (a :: xs)).to_subtype
  have : Std.Irrefl below := ⟨fun x => hacyclic x.1⟩
  have : IsTrans _ below := ⟨fun _ _ _ hxy hyz => hyz.trans hxy⟩
  have hwf : WellFounded below := Finite.wellFounded_of_trans_of_irrefl below
  obtain ⟨b, hab, hmin⟩ := hwf.has_min {x | Relation.ReflTransGen r a x.1}
    ⟨⟨a, List.mem_cons_self⟩, .refl⟩
  refine ⟨b.1, hab, fun x hbx => ?_⟩
  exact hmin ⟨x, List.mem_cons_of_mem _ (hr _ _ hbx)⟩ (hab.tail hbx) (.single hbx)

variable [Grouped α]

/-! ## Putting off -/

section Level

variable {c : Collection α} {path : List Text} {m f : α}

/-- A candidate that does not stand directly below a path is put off for
a group that it lists: a direct one, or a free one where it is free
itself. -/
theorem exists_listed_of_not_mem_nextLevel (hc : c.Candidate path m) (h : m ∉ c.nextLevel path) :
    (∃ d, c.Direct path d ∧ Lists m d)
      ∨ (c.Free path m ∧ ∃ f, c.Free path f ∧ Lists m f) := by
  rw [mem_nextLevel, not_or] at h
  obtain ⟨hdirect, hroot⟩ := h
  by_cases hd : ∃ d, c.Direct path d ∧ Lists m d
  · exact .inl hd
  · have hfree : c.Free path m :=
      ⟨hc, Bool.eq_false_iff.mpr fun hm => hdirect ⟨hc, hm⟩, fun d hdir hl => hd ⟨d, hdir, hl⟩⟩
    refine .inr ⟨hfree, ?_⟩
    by_contra hnone
    exact hroot ⟨hfree, fun f hf hl => hnone ⟨f, hf, hl⟩⟩

/-- Listing among the free groups of a path. -/
def FreeLists (c : Collection α) (path : List Text) (a b : α) : Prop :=
  c.Free path a ∧ c.Free path b ∧ Lists a b

theorem transGen_memberLists {a b : α} (h : Relation.TransGen (c.FreeLists path) a b) :
    Relation.TransGen c.MemberLists a b :=
  Relation.TransGen.mono (fun _ _ hl => ⟨hl.1.1.1, hl.2.1.1.1, hl.2.2⟩) _ _ h

/-- From a free group, listing among the free ones leads to one that
stands directly below the path. -/
theorem exists_nextLevel_of_free
    (hacyclic : ∀ a, ¬ Relation.TransGen (c.FreeLists path) a a) (hf : c.Free path f) :
    ∃ g, g ∈ c.nextLevel path ∧ c.Free path g
      ∧ Relation.ReflTransGen (c.FreeLists path) f g := by
  have hmem : ∀ a b, c.FreeLists path a b → b ∈ c.members := fun _ _ h => h.2.1.1.1
  obtain ⟨g, hfg, hend⟩ := exists_end_of_acyclic hmem hacyclic f
  have hg : c.Free path g := by
    cases hfg with
    | refl => exact hf
    | tail _ hlast => exact hlast.2.1
  exact ⟨g, mem_nextLevel.mpr (.inr ⟨hg, fun x hx hl => hend x ⟨hg, hx, hl⟩⟩), hg, hfg⟩

end Level

/-! ## Following a route -/

section Routes

variable {c : Collection α} {first r : List Text} {n k : Nat}

theorem nodup_of_mem_routes (hf : first.Nodup) (hr : r ∈ c.routes first k) : r.Nodup := by
  induction k generalizing r with
  | zero =>
    rw [routes, List.mem_singleton] at hr
    exact hr ▸ hf
  | succ k ih =>
    obtain ⟨q, hq, m, hm, rfl⟩ := mem_routes_succ.mp hr
    have hnew : Grouped.shortId m ∉ q := (mem_onward.mp hm).2
    rw [List.nodup_append]
    refine ⟨ih hq, List.nodup_singleton _, fun s hs t ht => ?_⟩
    rintro rfl
    exact hnew (List.mem_singleton.mp ht ▸ hs)

/-- A route that holds only short ids of a list goes on to a last one
that does: from there no group of the list is reached. -/
theorem exists_last_route (hempty : c.routes first n = []) {listed : List Text}
    (hr : r ∈ c.routes first k) (hlisted : ∀ s ∈ r, s ∈ listed) :
    ∃ j, ∃ q ∈ c.routes first j,
      (∀ s ∈ q, s ∈ listed) ∧ ∀ x ∈ c.onward q, Grouped.shortId x ∉ listed := by
  induction hleft : n - k generalizing k r with
  | zero =>
    rw [routes_eq_nil_of_le hempty (by omega)] at hr
    exact absurd hr List.not_mem_nil
  | succ left ih =>
    by_cases hon : ∃ x ∈ c.onward r, Grouped.shortId x ∈ listed
    · obtain ⟨x, hx, hxl⟩ := hon
      refine ih (mem_routes_succ.mpr ⟨r, hr, x, hx, rfl⟩) (fun s hs => ?_) (by omega)
      rcases List.mem_append.mp hs with hs | hs
      · exact hlisted s hs
      · exact List.mem_singleton.mp hs ▸ hxl
    · exact ⟨k, r, hr, hlisted, fun x hx hxl => hon ⟨x, hx, hxl⟩⟩

/-- What a route goes on to is placed. -/
theorem mem_walk_of_mem_onward (hd : (c.members.map Grouped.shortId).Nodup)
    (hempty : c.headRoutes n = []) (hr : r ∈ c.headRoutes k) {x : α} (hx : x ∈ c.onward r) :
    x ∈ (grown c c.headNode n).walk.map Tree.member := by
  have hroute : r ++ [Grouped.shortId x] ∈ c.headRoutes (k + 1) :=
    mem_routes_succ.mpr ⟨r, hr, x, hx, rfl⟩
  have hplaced : Grouped.shortId x ∈ (grown c c.headNode n).walk.map Tree.shortId := by
    rw [mem_walk_grown rfl]
    exact .inr ((exists_arrival_iff_exists_route hempty).mpr
      ⟨k, _, hroute, routeEnd_concat _ _⟩)
  obtain ⟨node, hnode, hid⟩ := List.mem_map.mp hplaced
  have hx' : x ∈ c.members := mem_members_of_mem_nextLevel (mem_onward.mp hx).1
  exact List.mem_map.mpr
    ⟨node, hnode, List.inj_on_of_nodup_map hd (mem_members_of_mem_walk hnode) hx' hid⟩

end Routes

/-! ## Gaps -/

/-- The list of a member has a gap: the member lists another one from
which references lead on to a group that the member does not list. -/
def Gap (c : Collection α) (m g : α) : Prop :=
  ∃ b, c.MemberLists m b ∧ Relation.TransGen c.MemberLists b g ∧ ¬ Lists m g

theorem mem_walk_or_gap {c : Collection α} {n : Nat}
    (hd : (c.members.map Grouped.shortId).Nodup)
    (hacyclic : ∀ m, ¬ Relation.TransGen c.MemberLists m m) (hempty : c.headRoutes n = [])
    {m : α} (hm : m ∈ c.members) (hhead : Lists m c.headElement) :
    m ∈ (grown c c.headNode n).walk.map Tree.member
      ∨ ∃ g ∈ (grown c c.headNode n).walk.map Tree.member, c.Gap m g := by
  have hfirst : [Grouped.shortId c.headElement] ∈ c.headRoutes 0 := List.mem_singleton_self _
  obtain ⟨k, q, hq, hlisted, hlast⟩ := exists_last_route hempty hfirst
    (fun s hs => by rw [List.mem_singleton.mp hs]; exact hhead)
  have hnodup : q.Nodup := nodup_of_mem_routes (List.nodup_singleton _) hq
  have hcand : c.Candidate q m := ⟨hm, listsPath_iff.mpr ⟨hnodup, hlisted⟩⟩
  -- A candidate on the route would list itself.
  have honward : ∀ x ∈ c.nextLevel q, x ∈ c.onward q := fun x hx => by
    obtain ⟨hxm, hxq⟩ := candidate_of_mem_nextLevel hx
    refine mem_onward.mpr ⟨hx, fun hxq' => hacyclic x (.single ⟨hxm, hxm, ?_⟩)⟩
    exact (listsPath_iff.mp hxq).2 _ hxq'
  by_cases hlevel : m ∈ c.nextLevel q
  · exact .inl (mem_walk_of_mem_onward hd hempty hq (honward m hlevel))
  · right
    rcases exists_listed_of_not_mem_nextLevel hcand hlevel with ⟨d, hdirect, hmd⟩ | ⟨_, f, hf, hmf⟩
    · -- The route would go on through the direct group.
      exact absurd hmd (hlast d (honward d (mem_nextLevel.mpr (.inl hdirect))))
    · have hfree : ∀ a, ¬ Relation.TransGen (c.FreeLists q) a a := fun a ha =>
        hacyclic a (transGen_memberLists ha)
      obtain ⟨g, hglevel, -, hfg⟩ := exists_nextLevel_of_free hfree hf
      have hmg : ¬ Lists m g := hlast g (honward g hglevel)
      refine ⟨g, mem_walk_of_mem_onward hd hempty hq (honward g hglevel), f,
        ⟨hm, hf.1.1, hmf⟩, ?_, hmg⟩
      rcases Relation.reflTransGen_iff_eq_or_transGen.mp hfg with rfl | hfg
      · exact absurd hmf hmg
      · exact transGen_memberLists hfg

/-- However a collection was built up, if its members have short ids of
their own and listing among them is acyclic, its hierarchy misses no
member but those whose lists have gaps at groups of the hierarchy. -/
theorem hierarchy_misses_only_gaps {c : Collection α} (hb : Built c)
    (hd : (c.members.map Grouped.shortId).Nodup)
    (hacyclic : ∀ m, ¬ Relation.TransGen c.MemberLists m m)
    {t : Tree α} (ht : c.hierarchy = .ok t) :
    ∀ m ∈ c.members, m ∉ t.walk.map Tree.member → ∃ g ∈ t.walk.map Tree.member, c.Gap m g := by
  obtain ⟨hempty, rfl⟩ := hierarchy_eq_ok_iff.mp ht
  have hanchored := hb.anchored
  intro m hm hmissing
  rcases List.mem_cons.mp hm with rfl | hother
  · exact absurd (List.mem_map.mpr ⟨_, mem_walk_self _, rfl⟩) hmissing
  · have hhead : Lists m c.headElement :=
      refersTo_iff_lists.mp (hanchored.head ▸ hanchored.others m hother)
    exact (mem_walk_or_gap hd hacyclic hempty hm hhead).resolve_left hmissing

/-- `b` stands below `a` and `d` below `b`, but `d` does not list `a`;
`a` also lists a group that is no member. -/
def gapped : Collection Group :=
  let r : Text := [.char 'r']
  let a : Text := [.char 'a']
  let b : Text := [.char 'b']
  ⟨r, .plain r [], [.plain a [r, [.char 'x']], .plain b [r, a], .plain [.char 'd'] [r, b]], 16⟩

theorem built_gapped : Built gapped := .of_addAll rfl rfl

theorem acyclic_gapped : ∀ m, ¬ Relation.TransGen gapped.MemberLists m m := by
  apply acyclic_of_rank fun m => gapped.members.idxOf m
  rintro m b ⟨hm, hb, hl⟩
  have key : ∀ m ∈ gapped.members, ∀ b ∈ gapped.members,
      Grouped.shortId b ∈ Grouped.references m →
        gapped.members.idxOf b < gapped.members.idxOf m := by
    decide +kernel
  exact key m hm b hb hl

/-- The hierarchy of a collection without repeated short ids or cycles
can miss a member. -/
theorem hierarchy_misses_member_gapped :
    Built gapped ∧ (gapped.members.map Grouped.shortId).Nodup
      ∧ (∀ m, ¬ Relation.TransGen gapped.MemberLists m m)
      ∧ ∃ t, gapped.hierarchy = .ok t ∧ ∃ m ∈ gapped.members, m ∉ t.walk.map Tree.member := by
  have hempty : gapped.headRoutes 9 = [] := by decide +kernel
  refine ⟨built_gapped, by decide +kernel, acyclic_gapped, grown gapped gapped.headNode 9,
    hierarchy_eq_ok_iff.mpr ⟨hempty, rfl⟩, .plain [.char 'd'] [[.char 'r'], [.char 'b']], ?_, ?_⟩
  · decide +kernel
  · decide +kernel

/-- The missing member has a gap at a group of the hierarchy. -/
theorem hierarchy_misses_only_gaps_gapped :
    Built gapped ∧ (gapped.members.map Grouped.shortId).Nodup
      ∧ (∀ m, ¬ Relation.TransGen gapped.MemberLists m m)
      ∧ ∃ t, gapped.hierarchy = .ok t
        ∧ ∃ m ∈ gapped.members, m ∉ t.walk.map Tree.member
          ∧ ∃ g ∈ t.walk.map Tree.member, gapped.Gap m g := by
  have hempty : gapped.headRoutes 9 = [] := by decide +kernel
  have hd : (gapped.members.map Grouped.shortId).Nodup := by decide +kernel
  have ht : gapped.hierarchy = .ok (grown gapped gapped.headNode 9) :=
    hierarchy_eq_ok_iff.mpr ⟨hempty, rfl⟩
  let d : Group := .plain [.char 'd'] [[.char 'r'], [.char 'b']]
  have hm : d ∈ gapped.members := by decide +kernel
  have hmissing : d ∉ (grown gapped gapped.headNode 9).walk.map Tree.member := by decide +kernel
  exact ⟨built_gapped, hd, acyclic_gapped, _, ht, d, hm, hmissing,
    hierarchy_misses_only_gaps built_gapped hd acyclic_gapped ht d hm hmissing⟩

end Lineage.Collection
