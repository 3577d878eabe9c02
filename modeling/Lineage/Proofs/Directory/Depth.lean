/-
Lineage.Proofs.Directory.Depth — how deep trees get by attaching.

A node is no deeper than the first layer of routes that leads to it, and
its group lists the whole of such a route; so a node is no deeper than its
group lists groups (`Collection.depth_le`).  Attaching refuses a parent
that lists as many groups as the limit allows, but it counts what the
parent lists at that moment.  A group that others were attached under can
itself be attached afterwards, again and again, and so outgrow the limit
(`Outgrown`).  Every attempt keeps it that all other listed groups are
below the limit (`listed_lt_or_outgrows`), so only what stands directly
below an outgrown group can be too deep (`depth_attached`).
-/
import Lineage.Proofs.Directory.Layered
import Lineage.Proofs.Hierarchy.Gaps

namespace Lineage

universe u

namespace Collection

open Layout Lineage.Tree

/-! ## Depths of nodes -/

variable {α : Type u} [Grouped α] {c : Collection α} {t p n x : Tree α}

theorem length_of_mem_routes {first r : List Text} {k : Nat} (hr : r ∈ c.routes first k) :
    r.length = first.length + k := by
  induction k generalizing r with
  | zero =>
    rw [routes, List.mem_singleton] at hr
    rw [hr, Nat.add_zero]
  | succ k ih =>
    obtain ⟨q, hq, m, -, rfl⟩ := mem_routes_succ.mp hr
    rw [List.length_append, ih hq, List.length_singleton, Nat.add_assoc]

/-- A node below another one was placed at the end of a route to that one,
all of which its group lists; no earlier layer leads to the node. -/
theorem exists_route_of_child (ht : c.hierarchy = .ok t) (hp : p ∈ t.walk)
    (hn : n ∈ p.children) :
    ∃ k, ∃ r ∈ c.headRoutes k, routeEnd r = p.shortId ∧ r.Nodup
      ∧ (∀ s ∈ r, s ∈ Grouped.references n.member) ∧ r ++ [n.shortId] ∈ c.headRoutes (k + 1)
      ∧ ∀ j, ∀ q ∈ c.headRoutes (j + 1), routeEnd q = n.shortId → k ≤ j := by
  obtain ⟨-, rfl⟩ := hierarchy_eq_ok_iff.mp ht
  obtain ⟨a, ha, hmember, hend⟩ := exists_arrival_of_child rfl hp hn
  obtain ⟨k, -, hat, hfirst⟩ := find?_arrivals ha
  obtain ⟨hr, hm⟩ := mem_arrivalsAt.mp hat
  obtain ⟨hlevel, -⟩ := mem_onward.mp hm
  have hid : a.shortId = n.shortId := by
    rw [Arrival.shortId, hmember]
    rfl
  obtain ⟨hnodup, hlists⟩ := listsPath_iff.mp (candidate_of_mem_nextLevel hlevel).2
  refine ⟨k, a.route, hr, hend, hnodup, hmember ▸ hlists, ?_, fun j q hq hqn => ?_⟩
  · exact mem_routes_succ.mpr ⟨a.route, hr, a.member, hm, by rw [← hid]; rfl⟩
  · by_contra hjk
    rw [headRoutes, ← map_longer_arrivalsAt] at hq
    obtain ⟨b, hb, rfl⟩ := List.mem_map.mp hq
    rw [routeEnd_longer] at hqn
    exact hfirst j (by omega) b hb (decide_eq_true hqn)

/-- A node is no deeper than a layer that leads to it. -/
theorem depth_le_of_mem_headRoutes (ht : c.hierarchy = .ok t) :
    ∀ k, ∀ r ∈ c.headRoutes k, ∀ x ∈ t.walk, x.shortId = routeEnd r → x.depth ≤ k := by
  intro k
  induction k using Nat.strong_induction_on with
  | _ k ih =>
    intro r hr x hx hid
    rcases exists_parent hx with rfl | ⟨p, hp, hchild⟩
    · exact (depth_hierarchy ht).trans_le (Nat.zero_le k)
    · obtain ⟨j, q, hq, hend, -, -, -, hfirst⟩ := exists_route_of_child ht hp hchild
      cases k with
      | zero =>
        -- The first layer leads to the head alone, which is no child.
        rw [List.mem_singleton.mp hr] at hid
        exact absurd hid (member_of_child ht hp hchild).2.1
      | succ k =>
        have hjk : j ≤ k := hfirst k r hr hid.symm
        have hparent : p.depth ≤ j := ih j (by omega) q hq p hp hend.symm
        have hdepth := (pathsKept_hierarchy ht).depth_child hp hchild
        omega

/-- A node is no deeper than eight, and no deeper than its group lists
groups. -/
theorem depth_le (ht : c.hierarchy = .ok t) (hx : x ∈ t.walk) :
    x.depth ≤ 8 ∧ x.depth ≤ (Grouped.references x.member).length := by
  rcases exists_parent hx with rfl | ⟨p, hp, hchild⟩
  · rw [depth_hierarchy ht]
    exact ⟨Nat.zero_le _, Nat.zero_le _⟩
  · obtain ⟨k, r, hr, -, hnodup, hlists, hnext, -⟩ := exists_route_of_child ht hp hchild
    have hdepth : x.depth ≤ k + 1 :=
      depth_le_of_mem_headRoutes ht (k + 1) _ hnext x hx (routeEnd_concat _ _).symm
    have hlength : r.length ≤ (Grouped.references x.member).length :=
      (List.subperm_of_subset hnodup hlists).length_le
    have hlayer : r.length = 1 + k := length_of_mem_routes hr
    have hk : k + 1 < 9 := by
      by_contra hge
      obtain ⟨hempty, -⟩ := hierarchy_eq_ok_iff.mp ht
      rw [headRoutes, routes_eq_nil_of_le hempty (by omega)] at hnext
      exact List.not_mem_nil hnext
    omega

end Collection

namespace Directory

/-! ## Groups that outgrow the limit -/

/-- The number of groups that a stored group lists. -/
def referenceCount (d : Directory) (x : Text) : Nat :=
  (d.records.get? x).elim 0 fun g => g.references.length

/-- The attempt takes a group that a stored group lists from fewer
references than the limit to as many or more. -/
structure Attempt.Outgrows (a : Attempt) (d : Directory) : Prop where
  succeeds : a.Succeeds d
  listed : ∃ y, d.StoredLists y a.child
  before : (d.referenceCount a.child : Int) < d.policy.maxDepth
  after : d.policy.maxDepth ≤ (d.attach a.child a.parent a.now).1.referenceCount a.child

/-- In the course of some attempts a group outgrew the limit. -/
def Outgrown (policy : GroupPolicy) (founders : List Group) (attempts : List Attempt)
    (x : Text) : Prop :=
  ∃ earlier a, earlier ++ [a] <+: attempts ∧ a.child = x
    ∧ a.Outgrows (attached policy founders earlier)

theorem referenceCount_of_get? {d : Directory} {x : Text} {g : Group}
    (hg : d.records.get? x = some g) : d.referenceCount x = g.references.length := by
  rw [referenceCount, hg]
  rfl

/-- A parent that is accepted lists fewer groups than the limit. -/
theorem references_lt_of_accepted {c p : Group} {limit : Int}
    (h : c.attachFault? p limit = none) : (p.references.length : Int) < limit := by
  unfold Group.attachFault? at h
  split at h
  · cases h
  · split at h
    · cases h
    · rename_i hlimit
      omega

/-- Where all listed groups are below the limit or known, all listed
groups are so after an attempt, but for one that the attempt makes outgrow
the limit. -/
theorem listed_lt_or_outgrows {d : Directory} (hc : Consistent d) (htidy : TidyLists d)
    (a : Attempt) {P : Text → Prop}
    (h : ∀ y x, d.StoredLists y x → (d.referenceCount x : Int) < d.policy.maxDepth ∨ P x) :
    ∀ y x, (d.attach a.child a.parent a.now).1.StoredLists y x →
      ((d.attach a.child a.parent a.now).1.referenceCount x : Int) < d.policy.maxDepth
        ∨ P x ∨ (a.child = x ∧ a.Outgrows d) := by
  rcases attach_cases d a.child a.parent a.now with ⟨fault, heq⟩ | ⟨c, p, hchild, hparent, hok, heq⟩
  · rw [heq]
    exact fun y x hyx => (h y x hyx).imp_right .inl
  · intro y x hyx
    obtain ⟨hne, hnot⟩ := attachFault?_eq_none hok
    rw [hc.shortId_of_get? hchild] at hne hnot
    rw [hc.shortId_of_get? hparent] at hne
    have hlists := hyx
    rw [heq, storedLists_upsert_attachedTo hc htidy hchild hparent] at hlists
    by_cases hx : a.child = x
    · -- Neither the parent nor anything new lists the child.
      subst hx
      have hlisted : d.StoredLists y a.child := by
        rcases hlists with hold | ⟨-, heq | ⟨q, hq, hmem⟩⟩
        · exact hold
        · exact absurd heq.symm hne
        · rw [hparent] at hq
          exact absurd (Option.some.inj hq ▸ hmem) hnot
      rcases h y a.child hlisted with hlt | hknown
      · by_cases hafter : d.policy.maxDepth
            ≤ (d.attach a.child a.parent a.now).1.referenceCount a.child
        · exact .inr (.inr ⟨rfl, ⟨_, by rw [heq]⟩, ⟨y, hlisted⟩, hlt, hafter⟩)
        · exact .inl (by omega)
      · exact .inr (.inl hknown)
    · have hsame : (d.attach a.child a.parent a.now).1.referenceCount x = d.referenceCount x := by
        rw [heq, referenceCount, get?_upsert_attachedTo hc hchild, if_neg hx, referenceCount]
      rw [hsame]
      rcases hlists with hold | ⟨-, rfl | hinherited⟩
      · exact (h y x hold).imp_right .inl
      · rw [referenceCount_of_get? hparent]
        exact .inl (references_lt_of_accepted hok)
      · exact (h _ x hinherited).imp_right .inl

/-- After any attempts every group that a stored group lists is below the
limit, or outgrew it. -/
theorem listed_lt_or_outgrown (policy : GroupPolicy) {founders : List Group}
    (hf : ∀ g ∈ founders, g.shortId.Tidy ∧ g.references = []) (attempts : List Attempt) :
    ∀ y x, (attached policy founders attempts).StoredLists y x →
      ((attached policy founders attempts).referenceCount x : Int) < policy.maxDepth
        ∨ Outgrown policy founders attempts x := by
  induction attempts using List.reverseRecOn with
  | nil =>
    rintro y x ⟨g, hg, hmem⟩
    have hrun : attached policy founders [] = run policy (founders.map .upsert) := by
      simp [attached]
    rw [(founders_list_nothing policy hf y g (hrun ▸ hg)).2] at hmem
    exact absurd hmem List.not_mem_nil
  | append_singleton attempts a ih =>
    have hc : Consistent (attached policy founders attempts) := (consistent_and_current_run _ _).1
    have htidy := (attached_tidy_and_loopFree_iff policy hf attempts).1
    have hpolicy : (attached policy founders attempts).policy = policy := policy_run _ _
    intro y x hyx
    have hstep := listed_lt_or_outgrows hc htidy a (P := Outgrown policy founders attempts)
      (by rw [hpolicy]; exact ih) y x (attached_concat policy founders attempts a ▸ hyx)
    rw [hpolicy, ← attached_concat] at hstep
    rcases hstep with hlt | ⟨earlier, b, hpre, hb⟩ | ⟨hx, hgrows⟩
    · exact .inl hlt
    · exact .inr ⟨earlier, b, hpre.trans (List.prefix_append _ _), hb⟩
    · exact .inr ⟨attempts, a, List.prefix_refl _, hx, hgrows⟩

/-- However groups that list nothing are attached, no tree is deeper than
eight, and below the limit of attaching stand only groups whose parents
outgrew the limit: they were taken to as many references as it allows by
an attempt that came after groups had been attached under them.  So while
no group that is listed is attached, every tree keeps to the limit.  The
root has depth zero.  The short ids of the groups are tidy, as those of
all checked records are (`Group.tidy_shortId_of_check`). -/
theorem depth_attached {policy : GroupPolicy} (hm : 1 ≤ policy.maxDepth) {founders : List Group}
    (hf : ∀ g ∈ founders, g.shortId.Tidy ∧ g.references = []) (attempts : List Attempt)
    {head : Text} {t : Tree Group} (ht : (attached policy founders attempts).tree head = .ok t) :
    (∀ n ∈ t.walk, n.depth ≤ 8 ∧ ((n.depth : Int) ≤ policy.maxDepth
        ∨ ∃ p ∈ t.walk, n ∈ p.children ∧ Outgrown policy founders attempts p.shortId))
      ∧ ((∀ earlier a, earlier ++ [a] <+: attempts →
            a.Succeeds (attached policy founders earlier) →
            ∀ y, ¬ (attached policy founders earlier).StoredLists y a.child) →
          ∀ n ∈ t.walk, (n.depth : Int) ≤ policy.maxDepth) := by
  have hc : Consistent (attached policy founders attempts) := (consistent_and_current_run _ _).1
  obtain ⟨c, hbuild, hcol⟩ := tree_eq_ok_iff.mp ht
  have hstored : ∀ x ∈ t.walk,
      (attached policy founders attempts).records.get? x.shortId = some x.member := fun x hx =>
    ((hc.mem_members_iff hbuild).mp (Collection.mem_members_of_mem_hierarchy hcol hx)).1
  have key : ∀ n ∈ t.walk, (n.depth : Int) ≤ policy.maxDepth
      ∨ ∃ p ∈ t.walk, n ∈ p.children ∧ Outgrown policy founders attempts p.shortId := by
    intro n hn
    rcases Tree.exists_parent hn with rfl | ⟨p, hp, hchild⟩
    · have hroot : n.depth = 0 := Collection.depth_hierarchy hcol
      exact .inl (by omega)
    · obtain ⟨-, -, hmem⟩ := Collection.member_of_child hcol hp hchild
      have hlists : (attached policy founders attempts).StoredLists n.shortId p.shortId :=
        ⟨n.member, hstored n hn, hmem⟩
      rcases listed_lt_or_outgrown policy hf attempts _ _ hlists with hlt | hgrown
      · have hdepth := (Collection.pathsKept_hierarchy hcol).depth_child hp hchild
        have hparent : p.depth ≤ p.member.references.length := (Collection.depth_le hcol hp).2
        rw [referenceCount_of_get? (hstored p hp)] at hlt
        exact .inl (by omega)
      · exact .inr ⟨p, hp, hchild, hgrown⟩
  refine ⟨fun n hn => ⟨(Collection.depth_le hcol hn).1, key n hn⟩, fun hnone n hn => ?_⟩
  rcases key n hn with hle | ⟨p, -, -, earlier, a, hpre, -, hgrows⟩
  · exact hle
  · obtain ⟨y, hy⟩ := hgrows.listed
    exact absurd hy (hnone earlier a hpre hgrows.succeeds y)

/-! ## A tree deeper than the limit -/

/-- A limit under which nothing is attached below a group that lists
one. -/
def shallow : GroupPolicy :=
  { maxDepth := 1 }

/-- `b` is attached under `a`, then `a` under `c`, and then `b` under `c`,
too. -/
def climbing : List Attempt :=
  let a : Text := [.char 'a']
  let b : Text := [.char 'b']
  let c : Text := [.char 'c']
  [⟨b, a, ⟨1000000⟩⟩, ⟨a, c, ⟨2000000⟩⟩, ⟨b, c, ⟨3000000⟩⟩]

theorem exists_node_climbing : ∃ t, (attached shallow strangers climbing).tree [.char 'c'] = .ok t
    ∧ ∃ n ∈ t.walk, n.depth = 2 := by
  have hdepths : ((attached shallow strangers climbing).tree [.char 'c']).toOption.map
      (fun t => t.walk.map Tree.depth) = some [0, 1, 2] := by
    decide +kernel
  obtain ⟨t, ht, hdepths⟩ := map_toOption_eq_some_iff.mp hdepths
  exact ⟨t, ht, List.mem_map.mp (by simp [hdepths])⟩

/-- Attaching can make a tree deeper than the limit. -/
theorem attached_exceeds_limit_climbing :
    1 ≤ shallow.maxDepth ∧ (∀ g ∈ strangers, g.shortId.Tidy ∧ g.references = [])
      ∧ (strangers.map Group.shortId).Nodup
      ∧ ∃ t, (attached shallow strangers climbing).tree [.char 'c'] = .ok t
        ∧ ∃ n ∈ t.walk, shallow.maxDepth < n.depth := by
  obtain ⟨t, ht, n, hn, hdepth⟩ := exists_node_climbing
  refine ⟨by decide, tidy_strangers, by decide +kernel, t, ht, n, hn, ?_⟩
  rw [hdepth]
  decide

/-- The parent of the node that is too deep outgrew the limit. -/
theorem depth_attached_climbing :
    1 ≤ shallow.maxDepth ∧ (∀ g ∈ strangers, g.shortId.Tidy ∧ g.references = [])
      ∧ ∃ t, (attached shallow strangers climbing).tree [.char 'c'] = .ok t
        ∧ ∃ n ∈ t.walk, n.depth = 2
          ∧ ∃ p ∈ t.walk, n ∈ p.children ∧ Outgrown shallow strangers climbing p.shortId := by
  have hm : 1 ≤ shallow.maxDepth := by decide
  obtain ⟨t, ht, n, hn, hdepth⟩ := exists_node_climbing
  refine ⟨hm, tidy_strangers, t, ht, n, hn, hdepth, ?_⟩
  refine ((depth_attached hm tidy_strangers climbing ht).1 n hn).2.resolve_left ?_
  rw [hdepth]
  decide

end Directory

end Lineage
