/-
Lineage.Proofs.Directory.Failures — what a request leaves behind when it
fails.

Reading a collection, alone or for a display, stores no record, whether it
fails or not.  Attaching and deactivating write to a copy of the stored
record first, and by the time the copy is stored nothing can fail any
more.  So a request that fails leaves the records, their order and the
index as they were, attaching and deactivating leave the cache and its
counts alone as well, and reading a collection counts a miss at most
(`store_after_fault`).
-/
import Lineage.Proofs.Directory.Changes
import Lineage.Proofs.Directory.Deactivation

namespace Lineage

/-- The fault of an answer, if it is one. -/
def faultOf? {ε α : Type} : Except ε α → Option ε
  | .ok _ => none
  | .error fault => some fault

theorem faultOf?_eq_some_iff {ε α : Type} {x : Except ε α} {fault : ε} :
    faultOf? x = some fault ↔ x = .error fault := by
  cases x <;> simp [faultOf?]

namespace Directory

variable {d : Directory} {fault : DirectoryFault} {now : Clock}

/-! ## Requests -/

theorem sameRecords_displayStore (d : Directory) (acls : List Acl) (visits : List (Text × Clock)) :
    SameRecords d (displayStore acls d visits) :=
  displayStore_preserves (fun _ head now hs => hs.trans (getCollection_fst _ head now).1)
    (.refl d) acls visits

/-- A request that a store answers or fails to answer.  A display reads
the clock for every head. -/
inductive Request where
  | get (shortId : Text)
  | build (head : Text)
  | collection (head : Text) (now : Clock)
  | attach (child parent : Text) (now : Clock)
  | deactivate (shortId : Text) (now : Clock)
  | display (visits : List (Text × Clock)) (acls : List Acl)

/-- The store after a request, and the fault if the request fails. -/
def Request.perform (d : Directory) : Request → Directory × Option DirectoryFault
  | .get shortId => (d, (faultOf? (d.get shortId)).map .hierarchy)
  | .build head => (d, (faultOf? (d.buildCollection head)).map .hierarchy)
  | .collection head now =>
    ((d.getCollection head now).1, faultOf? (d.getCollection head now).2)
  | .attach child parent now =>
    ((d.attach child parent now).1, faultOf? (d.attach child parent now).2)
  | .deactivate shortId now =>
    ((d.deactivate shortId now).1, faultOf? (d.deactivate shortId now).2)
  | .display visits acls => (displayStore acls d visits, faultOf? (displayEach acls d visits))

/-- The request changes a stored group if it succeeds. -/
def Request.Changes : Request → Prop
  | .attach _ _ _ | .deactivate _ _ => True
  | _ => False

/-- The stored record is replaced as the last step of attaching it. -/
theorem attach_of_error {child parent : Text} (h : (d.attach child parent now).2 = .error fault) :
    (d.attach child parent now).1 = d := by
  rcases attach_cases d child parent now with ⟨_, heq⟩ | ⟨c, p, -, -, -, heq⟩
  · rw [heq]
  · rw [heq] at h
    cases h

/-- The stored record is replaced as the last step of deactivating it. -/
theorem deactivate_of_error {shortId : Text} (h : (d.deactivate shortId now).2 = .error fault) :
    (d.deactivate shortId now).1 = d := by
  rcases deactivate_cases d shortId now with ⟨_, heq⟩ | ⟨g, -, heq⟩
  · rw [heq]
  · rw [heq] at h
    cases h

/-- A collection that cannot be read is not kept, and nothing gives way to
it. -/
theorem cache_getCollection_of_error {head : Text}
    (h : (d.getCollection head now).2 = .error fault) :
    (d.getCollection head now).1.cache = d.cache := by
  unfold getCollection at h ⊢
  split
  · rfl
  · rename_i hsize
    rw [if_neg hsize] at h
    split
    · rename_i k hk
      rw [hk] at h
      cases h
    · rename_i hk
      rw [hk] at h
      dsimp only at h ⊢
      split
      · rfl
      · rename_i c hbuild
        rw [hbuild] at h
        dsimp only at h
        split
        · rfl
        · rename_i expiresAt hexpiry
          rw [hexpiry] at h
          cases h

/-- Whatever the reason, a request that fails leaves the records, the
order in which they were first stored and the index as they were.  Failing
to attach or to deactivate leaves the whole store as it was, and failing to
read a collection all that the cache keeps. -/
theorem store_after_fault (d : Directory) {request : Request} {fault : DirectoryFault}
    (h : (request.perform d).2 = some fault) :
    let after := (request.perform d).1
    SameRecords d after
      ∧ (request.Changes → after = d)
      ∧ ∀ head now, request = .collection head now → after.cache = d.cache := by
  intro after
  cases request with
  | get shortId => exact ⟨.refl d, fun _ => rfl, fun _ _ heq => by cases heq⟩
  | build head => exact ⟨.refl d, fun _ => rfl, fun _ _ heq => by cases heq⟩
  | collection head now =>
    refine ⟨(getCollection_fst d head now).1, False.elim, fun _ _ _ => ?_⟩
    exact cache_getCollection_of_error (faultOf?_eq_some_iff.mp h)
  | attach child parent now =>
    have hafter : after = d := attach_of_error (faultOf?_eq_some_iff.mp h)
    exact ⟨hafter ▸ .refl d, fun _ => hafter, fun _ _ heq => by cases heq⟩
  | deactivate shortId now =>
    have hafter : after = d := deactivate_of_error (faultOf?_eq_some_iff.mp h)
    exact ⟨hafter ▸ .refl d, fun _ => hafter, fun _ _ heq => by cases heq⟩
  | display visits acls =>
    exact ⟨sameRecords_displayStore d acls visits, False.elim, fun _ _ heq => by cases heq⟩

/-- While the collection of `r` is kept: a loop, a time stamp before the
start of time, a head that nobody lists, and a display of two heads of
which only the first can be shown. -/
theorem store_after_fault_keeping :
    let d := run {} keeping
    let r : Text := [.char 'r']
    let a : Text := [.char 'a']
    let z : Text := [.char 'z']
    d.cache.map Kept.head = [r]
      ∧ (Request.perform d (.attach r a ⟨1000000⟩)).2 = some (.hierarchy (.loop r a))
      ∧ (Request.perform d (.attach r a ⟨1000000⟩)).1 = d
      ∧ (Request.perform d (.deactivate a ⟨-1000000⟩)).2
        = some (.rejected (Group.stampRejection .deletionMs))
      ∧ (Request.perform d (.deactivate a ⟨-1000000⟩)).1 = d
      ∧ (Request.perform d (.collection z ⟨1000000⟩)).2 = some (.hierarchy (.noMembers z))
      ∧ (Request.perform d (.collection z ⟨1000000⟩)).1.cache = d.cache
      ∧ (Request.perform d (.display [(a, ⟨1000000⟩), (z, ⟨2000000⟩)] [])).2
        = some (.hierarchy (.notProduced z (.noMembers z)))
      ∧ SameRecords d (Request.perform d (.display [(a, ⟨1000000⟩), (z, ⟨2000000⟩)] [])).1 := by
  intro d r a z
  have hloop : (Request.perform d (.attach r a ⟨1000000⟩)).2 = some (.hierarchy (.loop r a)) := by
    decide +kernel
  have hstamp : (Request.perform d (.deactivate a ⟨-1000000⟩)).2
      = some (.rejected (Group.stampRejection .deletionMs)) := by
    decide +kernel
  have hunknown : (Request.perform d (.collection z ⟨1000000⟩)).2
      = some (.hierarchy (.noMembers z)) := by
    decide +kernel
  have hshown : (Request.perform d (.display [(a, ⟨1000000⟩), (z, ⟨2000000⟩)] [])).2
      = some (.hierarchy (.notProduced z (.noMembers z))) := by
    decide +kernel
  exact ⟨by decide +kernel, hloop, (store_after_fault d hloop).2.1 trivial, hstamp,
    (store_after_fault d hstamp).2.1 trivial, hunknown, (store_after_fault d hunknown).2.2 _ _ rfl,
    hshown, (store_after_fault d hshown).1⟩

end Directory

end Lineage
