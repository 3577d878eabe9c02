/-
Lineage.Proofs.Directory.Deactivation — what deactivating a group changes
on display.

Deactivating replaces one stored record by one with the same short id and
the same references, in the same place.  So every hierarchy keeps its
members and their order (`Consistent.buildCollection_upsert_deactivated`),
and its layout, which reads nothing else of them.  Only the projection
sees the difference: of every displayed head the view is the one before
without the group and all below it (`display_deactivate_run`).
-/
import Lineage.Proofs.Directory.Display
import Lineage.Proofs.Hierarchy.Hiding

namespace Lineage

theorem View.ofTree_eq_ok_iff {α : Type} [Grouped α] {t : Tree α} {view : View} :
    View.ofTree t = .ok view ↔ View.ofTree? t = some view := by
  unfold View.ofTree
  cases View.ofTree? t <;> simp

namespace Directory

variable {d : Directory} {x head : Text} {g : Group} {now : Int}

/-! ## The records -/

section Records

variable (hc : Consistent d) (hg : d.records.get? x = some g)
include hc hg

/-- Deactivating a stored group replaces its record in its place. -/
theorem Consistent.values_upsert_deactivated :
    (d.upsert (g.deactivated now)).records.values = d.records.values.map (Group.hide x now) := by
  obtain ⟨hid, hv⟩ := hc.filed (Keyed.mem_of_get? hg)
  have hid' : (g.deactivated now).shortId = x := hid
  rw [upsert_eq ((g.deactivated_virtual now).trans hv), hid']
  refine Keyed.values_put_eq_map hc.recordsOnce hg (Group.hide_of_eq hid) fun p hp hne => ?_
  exact Group.hide_of_ne ((hc.filed hp).1 ▸ hne)

theorem Consistent.get?_upsert_deactivated (head : Text) :
    (d.upsert (g.deactivated now)).records.get? head
      = (d.records.get? head).map (Group.hide x now) := by
  obtain ⟨hid, hv⟩ := hc.filed (Keyed.mem_of_get? hg)
  have hid' : (g.deactivated now).shortId = x := hid
  rw [get?_records_upsert ((g.deactivated_virtual now).trans hv), hid']
  by_cases hx : x = head
  · rw [if_pos hx, ← hx, hg, Option.map_some, Group.hide_of_eq hid]
  · rw [if_neg hx]
    cases hm : d.records.get? head with
    | none => rfl
    | some m =>
      have hne : m.shortId ≠ x := fun heq => hx (heq.symm.trans (hc.shortId_of_get? hm))
      rw [Option.map_some, Group.hide_of_ne hne]

theorem Consistent.membersOf_upsert_deactivated (head : Text) :
    (d.upsert (g.deactivated now)).membersOf head
      = (d.membersOf head).map (Group.hide x now) := by
  have hkeep : (fun m => decide (head ∈ headsOf m)) ∘ Group.hide x now
      = fun m => decide (head ∈ headsOf m) := by
    funext m
    simp [headsOf]
  rw [(hc.upsert _).membersOf_eq, hc.membersOf_eq, hc.values_upsert_deactivated hg,
    List.filter_map, hkeep]

/-- Deactivating a group replaces it in every collection, and changes
nothing else. -/
theorem Consistent.buildCollection_upsert_deactivated (head : Text) :
    (d.upsert (g.deactivated now)).buildCollection head
      = (d.buildCollection head).map (Collection.map (Group.hide x now)) := by
  have hc' : Consistent (d.upsert (g.deactivated now)) := hc.upsert _
  have hget : (d.upsert (g.deactivated now)).records.get? head
      = (d.records.get? head).map (Group.hide x now) :=
    hc.get?_upsert_deactivated hg head
  have hmembers : (d.upsert (g.deactivated now)).membersOf head
      = (d.membersOf head).map (Group.hide x now) :=
    hc.membersOf_upsert_deactivated hg head
  cases hm : d.records.get? head with
  | none =>
    rw [hm, Option.map_none] at hget
    rw [hc'.buildCollection_of_not_stored hget, hc.buildCollection_of_not_stored hm, hmembers]
    simp [Except.map]
  | some m =>
    rw [hm, Option.map_some] at hget
    have hothers : (fun m : Group => decide (m.shortId ≠ head)) ∘ Group.hide x now
        = fun m => decide (m.shortId ≠ head) := by
      funext m
      simp
    rw [hc'.buildCollection_of_stored hget, hc.buildCollection_of_stored hm, hmembers,
      List.filter_map, hothers, policy_upsert]
    rfl

end Records

/-! ## The view -/

theorem freshView_nil_eq_ok_iff {view : View} :
    d.freshView [] head = .ok view
      ↔ ∃ c t, d.buildCollection head = .ok c ∧ c.hierarchy = .ok t
        ∧ View.ofTree? t = some view := by
  simp only [freshView, Collection.view, bind_eq_ok_iff, View.ofTree_eq_ok_iff, View.enrich_nil,
    pure, Except.pure, Except.ok.injEq]
  constructor
  · rintro ⟨c, hbuild, _, ⟨t, ht, hv⟩, rfl⟩
    exact ⟨c, t, hbuild, ht, hv⟩
  · rintro ⟨c, t, hbuild, ht, hv⟩
    exact ⟨c, hbuild, view, ⟨t, ht, hv⟩, rfl⟩

/-- Without annotations, the view of a head is the one before without the
deactivated group and all below it. -/
theorem Consistent.freshView_upsert_deactivated (hc : Consistent d)
    (hg : d.records.get? x = some g) (hne : x ≠ head) {view : View}
    (hview : d.freshView [] head = .ok view) :
    (d.upsert (g.deactivated now)).freshView [] head = .ok (view.prune x) := by
  obtain ⟨c, t, hbuild, ht, hv⟩ := freshView_nil_eq_ok_iff.mp hview
  have hroot : t.shortId ≠ x := by
    obtain ⟨-, rfl⟩ := Collection.hierarchy_eq_ok_iff.mp ht
    rcases hc.buildCollection_cases head with ⟨c', hbuild', -, hhead⟩ | ⟨_, hbuild', -⟩
    · rw [hbuild] at hbuild'
      obtain rfl := Except.ok.inj hbuild'
      exact fun heq => hne (heq.symm.trans hhead)
    · rw [hbuild] at hbuild'
      cases hbuild'
  refine freshView_nil_eq_ok_iff.mpr
    ⟨c.map (Group.hide x now), t.map (Group.hide x now), ?_, ?_, ?_⟩
  · rw [hc.buildCollection_upsert_deactivated hg, hbuild]
    rfl
  · rw [Collection.hierarchy_map (Group.keepsPlace_hide x now), ht]
    rfl
  · rw [View.ofTree?_hide, if_neg hroot, hv]
    rfl

/-- A view repeats no short id. -/
theorem nodup_shortIds_of_freshView {view : View} (hview : d.freshView [] head = .ok view) :
    view.shortIds.Nodup := by
  obtain ⟨c, t, -, ht, hv⟩ := freshView_nil_eq_ok_iff.mp hview
  exact (Collection.nodup_walk_hierarchy ht).sublist (View.shortIds_ofTree? _ _ hv)

/-- One head is displayed without annotations as the records stand. -/
theorem Current.display_singleton_eq_ok_iff (h : Current d) (hp : d.policy.ExpiryFits)
    (shown : Clock) {view : View} :
    (Directory.display [] shown d [head]).2 = .ok [view] ↔ d.freshView [] head = .ok view := by
  rw [display_snd, h.displayEach_eq hp, mapM_eq_ok_iff, ← displayed_eq_ok_iff]
  simp

/-- After any calls, deactivating a group other than a displayed head
takes the group out of the view of the head, with all that stands below
it, and leaves the view alone where the group does not occur in it.  The
group occurs once at most.  When the head is shown, before and after, does
not matter, and neither does what the cache keeps. -/
theorem display_deactivate_run {policy : GroupPolicy} (hp : policy.ExpiryFits) (calls : List Call)
    {head x : Text} (hne : x ≠ head) {view : View} {shown now : Clock} {g : Group}
    (hshown : (Directory.display [] shown (run policy calls) [head]).2 = .ok [view])
    (hok : ((run policy calls).deactivate x now).2 = .ok g) :
    let after := ((run policy calls).deactivate x now).1
    (∀ later, (Directory.display [] later after [head]).2 = .ok [view.prune x])
      ∧ view.shortIds.Nodup
      ∧ (x ∉ view.shortIds → view.prune x = view) := by
  intro after
  obtain ⟨hconsistent, hcurrent⟩ := consistent_and_current_run policy calls
  have hafter : after = run policy (calls ++ [.deactivate x now]) :=
    (run_concat policy calls (.deactivate x now)).symm
  have hcurrent' : Current after := hafter ▸ (consistent_and_current_run policy _).2
  have hview := (hcurrent.display_singleton_eq_ok_iff (by rwa [policy_run]) shown).mp hshown
  refine ⟨fun later => ?_, nodup_shortIds_of_freshView hview, View.prune_of_not_mem view⟩
  rw [hcurrent'.display_singleton_eq_ok_iff (by rwa [hafter, policy_run])]
  rcases deactivate_cases (run policy calls) x now with ⟨fault, heq⟩ | ⟨stored, hstored, heq⟩
  · rw [heq] at hok
    cases hok
  · have hupsert : after = (run policy calls).upsert (stored.deactivated now.stamp) :=
      congrArg Prod.fst heq
    rw [hupsert]
    exact hconsistent.freshView_upsert_deactivated hstored hne hview

/-- `b` stands below `a`, and `a` and `c` stand below `r`, whose
collection is kept. -/
def keeping : List Call :=
  let r : Text := [.char 'r']
  let a : Text := [.char 'a']
  [.upsert (.plain r []), .upsert (.plain a [r]), .upsert (.plain [.char 'b'] [r, a]),
    .upsert (.plain [.char 'c'] [r]), .collection r ⟨0⟩]

/-- When `a` is deactivated, `c` alone is left below `r`. -/
theorem display_deactivate_run_keeping :
    ({} : GroupPolicy).ExpiryFits ∧ ([.char 'a'] : Text) ≠ [.char 'r']
      ∧ (run {} keeping).cache.map Kept.head = [[.char 'r']]
      ∧ ∃ view g,
        (Directory.display [] ⟨1000000⟩ (run {} keeping) [[.char 'r']]).2 = .ok [view]
          ∧ view.shortIds = [[.char 'r'], [.char 'a'], [.char 'b'], [.char 'c']]
          ∧ ((run {} keeping).deactivate [.char 'a'] ⟨2000000⟩).2 = .ok g
          ∧ ∃ view', (Directory.display [] ⟨3000000⟩
              ((run {} keeping).deactivate [.char 'a'] ⟨2000000⟩).1 [[.char 'r']]).2 = .ok [view']
            ∧ view'.shortIds = [[.char 'r'], [.char 'c']] := by
  have hfits : ({} : GroupPolicy).ExpiryFits := ⟨false, 300 * 2 ^ 44, -44, by decide +kernel⟩
  have hne : ([.char 'a'] : Text) ≠ [.char 'r'] := by decide
  have hcurrent := (consistent_and_current_run {} keeping).2
  obtain ⟨view, hview, hids, hpruned⟩ : ∃ view, (run {} keeping).freshView [] [.char 'r'] = .ok view
      ∧ view.shortIds = [[.char 'r'], [.char 'a'], [.char 'b'], [.char 'c']]
      ∧ (view.prune [.char 'a']).shortIds = [[.char 'r'], [.char 'c']] :=
    ⟨_, rfl, by decide +kernel, by decide +kernel⟩
  have hshown := (hcurrent.display_singleton_eq_ok_iff (by rwa [policy_run]) ⟨1000000⟩).mpr hview
  obtain ⟨g, hok⟩ : ∃ g, ((run {} keeping).deactivate [.char 'a'] ⟨2000000⟩).2 = .ok g := ⟨_, rfl⟩
  refine ⟨hfits, hne, by decide +kernel, view, g, hshown, hids, hok, _, ?_, hpruned⟩
  exact (display_deactivate_run hfits keeping hne hshown hok).1 ⟨3000000⟩

end Directory

end Lineage
