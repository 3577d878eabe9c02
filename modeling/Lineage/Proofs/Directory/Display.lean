/-
Lineage.Proofs.Directory.Display — a display shows what the records say.

Between two heads of a display only the cache and its counts change, and
in a current store these decide nothing.  So the answer is that of a
traversal of the heads in which each is looked up in the same records
(`Current.displayEach_eq`): it succeeds with the views of all heads, or
fails with the fault of the first one that has none (`display_run`).
-/
import Lineage.Proofs.Directory.Building
import Lineage.Proofs.Directory.Runs
import Lineage.Proofs.Outcome

namespace Lineage

/-! ## The view of a collection -/

namespace Collection

variable {α : Type} [Grouped α] {c : Collection α}

/-- The view of the hierarchy of a collection. -/
def view (c : Collection α) : Except HierarchyFault View := do
  let t ← c.hierarchy
  View.ofTree t

/-- A collection has no view if its head is inactive, or if layers are
left at the greatest depth. -/
theorem fault_of_view {reason : HierarchyFault} (h : c.view = .error reason) :
    reason = .inactive (Grouped.shortId c.headElement)
      ∨ reason = .layersLeft c.head safetyDepth safetyDepth := by
  unfold view at h
  rw [hierarchy_eq] at h
  split at h
  · dsimp only [bind, Except.bind, View.ofTree] at h
    split at h
    · cases h
    · exact .inl (Except.error.inj h).symm
  · exact .inr (Except.error.inj h).symm

/-- The fault of a collection without a view has the reason behind it. -/
theorem ofCollection_eq (c : Collection α) : View.ofCollection c = c.view.mapError .noView := by
  unfold View.ofCollection view
  cases c.hierarchy with
  | error fault => rfl
  | ok t =>
    dsimp only [bind, Except.bind]
    cases View.ofTree t <;> rfl

end Collection

namespace Directory

/-! ## The view of a head -/

/-- The view of a hierarchy as the records stand, with annotations. -/
def freshView (d : Directory) (acls : List Acl) (head : Text) : Except HierarchyFault View := do
  let c ← d.buildCollection head
  let view ← c.view
  return view.enrich acls

/-- The view of a hierarchy as the records stand, or the fault with which
a display of it fails. -/
def displayed (d : Directory) (acls : List Acl) (head : Text) : Except DirectoryFault View :=
  match d.buildCollection head with
  | .error fault => .error (.hierarchy (.notProduced head fault))
  | .ok c =>
    match View.ofCollection c with
    | .error fault => .error (.hierarchy (.notProduced head fault))
    | .ok view => .ok (view.enrich acls)

variable {d d' : Directory} {acls : List Acl} {head : Text} {now : Clock}

theorem SameRecords.displayed_eq (h : SameRecords d d') : d'.displayed acls = d.displayed acls := by
  funext head
  unfold displayed
  rw [h.buildCollection_eq]

/-- Whatever the cache keeps and the clock says, one head is shown as the
records stand. -/
theorem Current.displayOne_of_serves (h : Current d) (hp : d.policy.Serves) (acls : List Acl)
    (now : Clock) (head : Text) :
    (d.displayOne acls now head).2 = d.displayed acls head := by
  have hread := h.getCollection_of_serves hp head now
  unfold displayOne displayed
  cases hget : d.getCollection head now with
  | mk d' answer =>
    rw [hget] at hread
    obtain rfl : answer = (d.buildCollection head).mapError .hierarchy := hread
    cases d.buildCollection head with
    | error fault => rfl
    | ok c =>
      dsimp only [Except.mapError]
      cases View.ofCollection c <;> rfl

/-- A head is shown with a view if the records give it that view. -/
theorem displayed_eq_ok_iff {view : View} :
    d.displayed acls head = .ok view ↔ d.freshView acls head = .ok view := by
  unfold displayed freshView
  simp only [Collection.ofCollection_eq]
  cases d.buildCollection head with
  | error fault => simp [bind, Except.bind]
  | ok c =>
    dsimp only [bind, Except.bind]
    cases c.view <;> simp [Except.mapError, pure, Except.pure]

/-- Where the records give no view of a head, its display fails as a
hierarchy that is not available, with the code and the wording of the
reason. -/
theorem Consistent.displayed_of_fault (hc : Consistent d) {reason : HierarchyFault}
    (h : d.freshView acls head = .error reason) :
    ∃ cause, d.displayed acls head = .error (.hierarchy (.notProduced head cause))
      ∧ cause.kind = .unavailable ∧ cause.code = reason.code ∧ cause.message = reason.message
      ∧ (reason = .noMembers head ∨ reason = .headless head ∨ reason = .inactive head
        ∨ reason = .layersLeft head safetyDepth safetyDepth) := by
  unfold freshView at h
  unfold displayed
  rcases hc.buildCollection_cases head with ⟨c, hbuild, hhead, helement⟩ | ⟨fault, hbuild, hfault⟩
  · rw [hbuild] at h ⊢
    dsimp only [bind, Except.bind] at h ⊢
    rw [Collection.ofCollection_eq]
    cases hview : c.view with
    | error fault =>
      rw [hview] at h
      cases h
      have hreason := Collection.fault_of_view hview
      rw [hhead, helement] at hreason
      exact ⟨_, rfl, rfl, rfl, rfl, .inr (.inr hreason)⟩
    | ok view =>
      rw [hview] at h
      cases h
  · rw [hbuild] at h ⊢
    cases h
    rcases hfault with rfl | rfl
    · exact ⟨_, rfl, rfl, rfl, rfl, .inl rfl⟩
    · exact ⟨_, rfl, rfl, rfl, rfl, .inr (.inl rfl)⟩

/-! ## Displays -/

/-- The views of heads that are shown one after the other, each at its
own reading of the clock. -/
def displayEach (acls : List Acl) :
    Directory → List (Text × Clock) → Except DirectoryFault (List View)
  | _, [] => .ok []
  | d, (head, now) :: rest => do
    let view ← (d.displayOne acls now head).2
    let views ← displayEach acls (d.displayOne acls now head).1 rest
    return view :: views

/-- A display reads the clock once for all heads. -/
theorem display_snd (d : Directory) (acls : List Acl) (now : Clock) (heads : List Text) :
    (Directory.display acls now d heads).2
      = displayEach acls d (heads.map fun head => (head, now)) := by
  induction heads generalizing d with
  | nil => rfl
  | cons head rest ih =>
    rw [List.map_cons, displayEach, ← ih]
    rw [Directory.display]
    cases d.displayOne acls now head with
    | mk d' answer =>
      cases answer with
      | error fault => rfl
      | ok view =>
        dsimp only [bind, Except.bind]
        cases Directory.display acls now d' rest with
        | mk d' answer => cases answer <;> rfl

/-- Heads that are shown one after the other are shown as a traversal of
them in the records as they stand does. -/
theorem Current.displayEach_of_serves (h : Current d) (hp : d.policy.Serves) (acls : List Acl)
    (visits : List (Text × Clock)) :
    displayEach acls d visits = (visits.map Prod.fst).mapM (d.displayed acls) := by
  induction visits generalizing d with
  | nil => rfl
  | cons visit rest ih =>
    obtain ⟨head, now⟩ := visit
    have hone := h.displayOne_of_serves hp acls now head
    have hsame : SameRecords d (d.displayOne acls now head).1 := by
      rw [displayOne_fst]
      exact (getCollection_fst d head now).1
    have hcurrent : Current (d.displayOne acls now head).1 := by
      rw [displayOne_fst]
      exact h.getCollection head now
    rw [displayEach, List.map_cons, List.mapM_cons, hone, ih hcurrent (hsame.policy ▸ hp),
      hsame.displayed_eq]

theorem Current.displayEach_eq (h : Current d) (hp : d.policy.ExpiryFits) (acls : List Acl)
    (visits : List (Text × Clock)) :
    displayEach acls d visits = (visits.map Prod.fst).mapM (d.displayed acls) :=
  h.displayEach_of_serves (.inr hp) acls visits

/-- A display shows its heads as the records stand. -/
theorem Current.display_of_serves (h : Current d) (hp : d.policy.Serves) (acls : List Acl)
    (now : Clock) (heads : List Text) :
    (Directory.display acls now d heads).2 = heads.mapM (d.displayed acls) := by
  have hheads : (heads.map fun head => (head, now)).map Prod.fst = heads := by
    rw [List.map_map]
    exact List.map_id heads
  rw [display_snd, h.displayEach_of_serves hp, hheads]

/-- After any calls a display shows the view of every head that the
records then give, in the order of the heads, and if they give none, it
fails for the first such head, with the reason behind it.  When each head
was shown does not matter. -/
theorem display_run {policy : GroupPolicy} (hp : policy.ExpiryFits) (calls : List Call)
    (acls : List Acl) (heads : List Text) (now : Clock) :
    let d := run policy calls
    let answer := (Directory.display acls now d heads).2
    (∀ views, answer = .ok views
        ↔ List.Forall₂ (fun head view => d.freshView acls head = .ok view) heads views)
      ∧ (∀ earlier head later reason, heads = earlier ++ head :: later →
          (∀ other ∈ earlier, ∃ view, d.freshView acls other = .ok view) →
          d.freshView acls head = .error reason →
          ∃ fault cause, answer = .error (.hierarchy fault) ∧ fault.kind = .unavailable
            ∧ fault.code = "groups-not-all-found"
            ∧ fault.message = "hierarchy '" ++ head ++ "' could not be produced"
            ∧ fault.reason? = some cause ∧ cause.kind = .unavailable
            ∧ cause.code = reason.code ∧ cause.message = reason.message
            ∧ (reason = .noMembers head ∨ reason = .headless head ∨ reason = .inactive head
              ∨ reason = .layersLeft head safetyDepth safetyDepth))
      ∧ ∀ visits : List (Text × Clock), visits.map Prod.fst = heads →
          displayEach acls d visits = answer := by
  intro d answer
  obtain ⟨hconsistent, hcurrent⟩ := consistent_and_current_run policy calls
  have hfits : d.policy.ExpiryFits := by
    rw [policy_run]
    exact hp
  have heach := hcurrent.displayEach_eq hfits acls
  have hanswer : answer = heads.mapM (d.displayed acls) := by
    have hsnd := display_snd d acls now heads
    rw [heach, List.map_map] at hsnd
    simpa [Function.comp_def] using hsnd
  refine ⟨fun views => ?_, ?_, fun visits hvisits => ?_⟩
  · rw [hanswer, mapM_eq_ok_iff]
    simp only [displayed_eq_ok_iff]
  · rintro earlier head later reason rfl hearlier hreason
    obtain ⟨cause, hshown, hcause⟩ := hconsistent.displayed_of_fault hreason
    refine ⟨.notProduced head cause, cause, ?_, rfl, rfl, rfl, rfl, hcause⟩
    rw [hanswer]
    refine mapM_eq_error_of_first (fun other hother => ?_) hshown
    exact (hearlier other hother).imp fun _ => displayed_eq_ok_iff.mpr
  · rw [heach, hvisits, hanswer]

/-- `r` with `a` below it is shown to a user with a role in `r`; then `s`
is stored and deactivated. -/
def closing : List Call :=
  let r : Text := [.char 'r']
  let s : Text := [.char 's']
  [.upsert (.plain r []), .upsert (.plain [.char 'a'] [r]), .upsert (.plain s []),
    .display [r] [⟨r, none, [[.char 'x']]⟩] ⟨0⟩, .deactivate s ⟨1000000⟩]

/-- Shown twice, `r` has no role but that of the annotations now given; and
as soon as `s` is to be shown, too, nothing is. -/
theorem display_run_closing :
    ({} : GroupPolicy).ExpiryFits
      ∧ (∃ view, (Directory.display [⟨[.char 'a'], none, [[.char 'y']]⟩] ⟨2000000⟩ (run {} closing)
            [[.char 'r'], [.char 'r']]).2 = .ok [view, view]
          ∧ view.roles = [] ∧ view.children.map View.roles = [[[.char 'y']]])
      ∧ ∃ fault cause, (Directory.display [] ⟨2000000⟩ (run {} closing)
            [[.char 'r'], [.char 's'], [.char 'z']]).2 = .error (.hierarchy fault)
          ∧ fault.code = "groups-not-all-found" ∧ fault.reason? = some cause
          ∧ cause.code = "groups-hierarchy-inactive-group" := by
  have hfits : ({} : GroupPolicy).ExpiryFits := ⟨false, 300 * 2 ^ 44, -44, by decide +kernel⟩
  have hr : ∃ view,
      (run {} closing).freshView [⟨[.char 'a'], none, [[.char 'y']]⟩] [.char 'r'] = .ok view
        ∧ view.roles = [] ∧ view.children.map View.roles = [[[.char 'y']]] :=
    ⟨_, rfl, by decide +kernel, by decide +kernel⟩
  have hr' : ∃ view, (run {} closing).freshView [] [.char 'r'] = .ok view := ⟨_, rfl⟩
  have hs : (run {} closing).freshView [] [.char 's'] = .error (.inactive [.char 's']) := rfl
  refine ⟨hfits, ?_, ?_⟩
  · obtain ⟨view, hview, hroles, hbelow⟩ := hr
    refine ⟨view, ?_, hroles, hbelow⟩
    exact ((display_run hfits closing _ _ ⟨2000000⟩).1 _).mpr (.cons hview (.cons hview .nil))
  · obtain ⟨fault, cause, hanswer, -, hcode, -, hreason, -, hcause, -⟩ :=
      (display_run hfits closing [] _ ⟨2000000⟩).2.1 [[.char 'r']] [.char 's'] [[.char 'z']] _ rfl
        (by simpa using hr') hs
    exact ⟨fault, cause, hanswer, hcode, hreason, hcause⟩

end Directory

end Lineage
