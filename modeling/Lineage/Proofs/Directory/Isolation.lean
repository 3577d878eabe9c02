/-
Lineage.Proofs.Directory.Isolation — groups outside a hierarchy do not
influence what is shown of it.

Two stores hold the same hierarchy of a head (`SameHierarchy`) if they
hold the same records of the head and of the groups that list it, first
stored in the same order.  All else may differ: the other records and
what they list, the policies, what the caches keep, what was called
before and when.  The members found through the index are in the order of
their ranks, so they are the same lists (`SameHierarchy.membersOf_eq`);
the greatest depth of a policy goes into a collection, but not into its
layout (`hierarchy_congr`); and the cache keeps nothing but what a build
gives.  So a display gives the same answer in both stores, be it views
or a fault (`display_of_sameHierarchy_run`).
-/
import Lineage.Proofs.Directory.Display
import Lineage.Proofs.Directory.History

namespace Lineage

universe u

/-! ## The layout reads the members -/

section Layout

variable {α : Type u} [Grouped α] {c c' : Collection α}

theorem Collection.nextLevel_congr (h : c.members = c'.members) : c.nextLevel = c'.nextLevel := by
  funext path
  simp only [nextLevel, h]

theorem Layout.expand_congr (h : c.members = c'.members) (budget : Nat)
    (placed : List (Placement α)) (layer : List (List Text)) :
    expand c budget placed layer = expand c' budget placed layer := by
  have hroute : expandRoute c = expandRoute c' := by
    funext state route
    rw [expandRoute, expandRoute, Collection.nextLevel_congr h]
  induction budget generalizing placed layer with
  | zero => rfl
  | succ budget ih =>
    unfold expand
    rw [expandLayer, expandLayer, hroute]
    dsimp only
    split
    · rfl
    · exact ih _ _

/-- Collections of the same members have the same hierarchy, whatever
their greatest depths are. -/
theorem Collection.hierarchy_congr (hhead : c.head = c'.head) (h : c.members = c'.members) :
    c.hierarchy = c'.hierarchy := by
  have helement : c.headElement = c'.headElement := (List.cons.inj h).1
  simp only [hierarchy, grow, Layout.expand_congr h, helement, hhead]

theorem View.ofCollection_congr (hhead : c.head = c'.head) (h : c.members = c'.members) :
    View.ofCollection c = View.ofCollection c' := by
  rw [ofCollection, Collection.hierarchy_congr hhead h, ofCollection]

end Layout

namespace Directory

/-! ## The order of the members -/

/-- The place of a short id in the order in which the short ids were first
stored. -/
def rank (d : Directory) (shortId : Text) : Nat :=
  d.records.keys.idxOf shortId

/-- The members of a hierarchy are in the order of their ranks. -/
theorem Consistent.pairwise_rank_membersOf {d : Directory} (h : Consistent d) (head : Text) :
    (d.membersOf head).Pairwise fun g m => d.rank g.shortId < d.rank m.shortId := by
  have hkeys : d.records.keys.Pairwise fun x y => d.rank x < d.rank y := by
    rw [List.pairwise_iff_getElem]
    intro i j hi hj hij
    rw [rank, rank, h.recordsOnce.idxOf_getElem, h.recordsOnce.idxOf_getElem]
    exact hij
  rw [← h.map_shortId_values, List.pairwise_map] at hkeys
  rw [h.membersOf_eq]
  exact hkeys.sublist List.filter_sublist

/-! ## The same hierarchy in two stores -/

/-- A stored record of a head, or of a group that lists it. -/
def Holds (d : Directory) (head : Text) (g : Group) : Prop :=
  d.records.get? g.shortId = some g ∧ head ∈ headsOf g

theorem Consistent.holds_iff {d : Directory} (h : Consistent d) {head : Text} {g : Group} :
    d.Holds head g ↔ g ∈ d.membersOf head :=
  h.mem_membersOf_iff.symm

/-- Two stores hold the same records of a head and of the groups that list
it, and these were first stored in the same order. -/
structure SameHierarchy (d d' : Directory) (head : Text) : Prop where
  holds : ∀ g, d.Holds head g ↔ d'.Holds head g
  order : ∀ g m, d.Holds head g → d.Holds head m →
    d.rank g.shortId < d.rank m.shortId → d'.rank g.shortId < d'.rank m.shortId

namespace SameHierarchy

variable {d d' : Directory} {head : Text}

theorem membersOf_eq (h : SameHierarchy d d' head) (hc : Consistent d) (hc' : Consistent d') :
    d.membersOf head = d'.membersOf head := by
  have hsame : ∀ g, g ∈ d.membersOf head ↔ g ∈ d'.membersOf head := fun g => by
    rw [← hc.holds_iff, ← hc'.holds_iff]
    exact h.holds g
  have hperm : (d.membersOf head).Perm (d'.membersOf head) :=
    (List.perm_ext_iff_of_nodup (hc.nodup_membersOf head).of_map
      (hc'.nodup_membersOf head).of_map).mpr hsame
  have hsorted : (d.membersOf head).Pairwise fun g m => d'.rank g.shortId < d'.rank m.shortId :=
    (hc.pairwise_rank_membersOf head).imp_of_mem fun hg hm =>
      h.order _ _ (hc.holds_iff.mpr hg) (hc.holds_iff.mpr hm)
  refine List.Perm.eq_of_pairwise ?_ hsorted (hc'.pairwise_rank_membersOf head) hperm
  intro g m _ _ hlt hgt
  exact absurd hgt (Nat.lt_asymm hlt)

/-- The head is shown in both stores as the same view, or with the same
fault. -/
theorem displayed_eq (h : SameHierarchy d d' head) (hc : Consistent d) (hc' : Consistent d')
    (acls : List Acl) : d.displayed acls head = d'.displayed acls head := by
  have hmembers := h.membersOf_eq hc hc'
  have hstored : d.records.get? head = d'.records.get? head := by
    rw [← hc.find?_membersOf, ← hc'.find?_membersOf, hmembers]
  unfold displayed
  cases hg : d.records.get? head with
  | none =>
    rw [hc.buildCollection_of_not_stored hg, hc'.buildCollection_of_not_stored (hstored ▸ hg),
      hmembers]
  | some g =>
    have hview : View.ofCollection
        (⟨head, g, (d.membersOf head).filter fun m => m.shortId ≠ head, d.policy.maxDepth⟩
          : Collection Group) = View.ofCollection
        ⟨head, g, (d'.membersOf head).filter fun m => m.shortId ≠ head, d'.policy.maxDepth⟩ :=
      View.ofCollection_congr rfl (by rw [Collection.members, Collection.members, hmembers])
    rw [hc.buildCollection_of_stored hg, hc'.buildCollection_of_stored (hstored ▸ hg)]
    simp only [hview]

end SameHierarchy

/-! ## Displays -/

/-- After any calls a display looks each head up in the records as they
stand. -/
theorem display_run_eq {policy : GroupPolicy} (hp : policy.ExpiryFits) (calls : List Call)
    (acls : List Acl) (now : Clock) (heads : List Text) :
    (Directory.display acls now (run policy calls) heads).2
      = heads.mapM ((run policy calls).displayed acls) := by
  have hfits : (run policy calls).policy.ExpiryFits := by
    rw [policy_run]
    exact hp
  have heach := (consistent_and_current_run policy calls).2.displayEach_eq hfits acls
    (heads.map fun head => (head, now))
  rw [display_snd, heach, List.map_map]
  simp [Function.comp_def]

/-- Two runs, each from its own policy and with its own calls, that end
with the same hierarchies of some heads display the same of these heads,
be it views or a fault, whenever they are asked and whatever else they
hold, keep or have counted. -/
theorem display_of_sameHierarchy_run {policy policy' : GroupPolicy} (hp : policy.ExpiryFits)
    (hp' : policy'.ExpiryFits) (calls calls' : List Call) {heads : List Text}
    (h : ∀ head ∈ heads, SameHierarchy (run policy calls) (run policy' calls') head)
    (acls : List Acl) (now now' : Clock) :
    (Directory.display acls now (run policy calls) heads).2
      = (Directory.display acls now' (run policy' calls') heads).2 := by
  have hc := (consistent_and_current_run policy calls).1
  have hc' := (consistent_and_current_run policy' calls').1
  rw [display_run_eq hp, display_run_eq hp']
  exact mapM_congr_of_mem fun head hhead => (h head hhead).displayed_eq hc hc' acls

/-- `r` with `a` and `b` below it. -/
def quiet : List Call :=
  let r : Text := [.char 'r']
  let a : Text := [.char 'a']
  [.upsert (.plain r []), .upsert (.plain a [r]), .upsert (.plain [.char 'b'] [r, a])]

/-- The same, among other groups: `x` lists `a` but not `r`, `a` was stored
before with another list, and `z` is gone. -/
def busy : List Call :=
  let r : Text := [.char 'r']
  let a : Text := [.char 'a']
  let z : Text := [.char 'z']
  [.upsert (.plain z []), .upsert (.plain r []), .upsert (.plain a [z]), .collection r ⟨0⟩,
    .upsert (.plain [.char 'x'] [a]), .upsert (.plain [.char 'b'] [r, a]), .upsert (.plain a [r]),
    .deactivate z ⟨1000000⟩, .display [a, r] [] ⟨2000000⟩]

/-- A policy with no room for chains or for more than one collection. -/
def narrow : GroupPolicy :=
  { maxDepth := 1, cacheMaxSize := 1, cacheExpirationSeconds := 1 }

theorem sameHierarchy_quiet_busy :
    SameHierarchy (run {} quiet) (run narrow busy) [.char 'r'] := by
  have hc := (consistent_and_current_run {} quiet).1
  have hc' := (consistent_and_current_run narrow busy).1
  have hmembers : (run {} quiet).membersOf [.char 'r'] = (run narrow busy).membersOf [.char 'r'] := by
    decide +kernel
  refine ⟨fun g => by rw [hc.holds_iff, hc'.holds_iff, hmembers], fun g m hg hm => ?_⟩
  have hall : ∀ g ∈ (run {} quiet).membersOf [.char 'r'], ∀ m ∈ (run {} quiet).membersOf [.char 'r'],
      (run {} quiet).rank g.shortId < (run {} quiet).rank m.shortId →
        (run narrow busy).rank g.shortId < (run narrow busy).rank m.shortId := by
    decide +kernel
  exact hall g (hc.holds_iff.mp hg) m (hc.holds_iff.mp hm)

/-- Among the other groups, at another time and under the other policy,
`r` is shown as it is on its own. -/
theorem display_of_sameHierarchy_run_busy :
    ({} : GroupPolicy).ExpiryFits ∧ narrow.ExpiryFits
      ∧ SameHierarchy (run {} quiet) (run narrow busy) [.char 'r']
      ∧ ∃ view, (Directory.display [] ⟨5000000⟩ (run narrow busy) [[.char 'r']]).2 = .ok [view]
        ∧ view.children.map View.shortId = [[.char 'a']] := by
  have hfits : ({} : GroupPolicy).ExpiryFits := ⟨false, 300 * 2 ^ 44, -44, by decide +kernel⟩
  have hfits' : narrow.ExpiryFits := ⟨false, 1 * 2 ^ 52, -52, by decide +kernel⟩
  have hview : ∃ view, (run {} quiet).freshView [] [.char 'r'] = .ok view
      ∧ view.children.map View.shortId = [[.char 'a']] := ⟨_, rfl, by decide +kernel⟩
  obtain ⟨view, hview, hbelow⟩ := hview
  refine ⟨hfits, hfits', sameHierarchy_quiet_busy, view, ?_, hbelow⟩
  rw [← display_of_sameHierarchy_run hfits hfits' quiet busy
    (by simpa using sameHierarchy_quiet_busy) [] ⟨0⟩, display_run_eq hfits, mapM_eq_ok_iff]
  exact .cons (displayed_eq_ok_iff.mpr hview) .nil

end Directory

end Lineage
