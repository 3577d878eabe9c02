/-
Lineage.Proofs.Directory.Runs — what holds after any calls of a store.

A run starts with an empty store and performs calls one after the other,
each with its own reading of the clock, which need not be later than the
one before.  Whatever a call does to a store comes down to storing
records, flushing groups and reading collections, so what these three
keep holds after every run (`run_preserves`).  In particular the store
is consistent and its cache current, and so a read answers what a build
gives (`getCollection_run`).
-/
import Lineage.Proofs.Directory.Cache
import Lineage.Proofs.Hierarchy.Level

namespace Lineage.Directory

/-! ## Calls -/

/-- A call of a store.  A display reads the clock once; one that reads it
again for every head does to the store what reading the collections of
its heads one after the other does. -/
inductive Call where
  | upsert (g : Group)
  | attach (child parent : Text) (now : Clock)
  | deactivate (shortId : Text) (now : Clock)
  | flush (g : Group)
  | collection (head : Text) (now : Clock)
  | display (heads : List Text) (acls : List Acl) (now : Clock)

/-- The store after a call. -/
def Call.perform (d : Directory) : Call → Directory
  | .upsert g => d.upsert g
  | .attach child parent now => (d.attach child parent now).1
  | .deactivate shortId now => (d.deactivate shortId now).1
  | .flush g => d.flush g
  | .collection head now => (d.getCollection head now).1
  | .display heads acls now => (Directory.display acls now d heads).1

/-- The store after some calls. -/
def run (policy : GroupPolicy) (calls : List Call) : Directory :=
  calls.foldl Call.perform (empty policy)

theorem run_concat (policy : GroupPolicy) (calls : List Call) (call : Call) :
    run policy (calls ++ [call]) = call.perform (run policy calls) := by
  simp [run]

/-! ## What calls come down to -/

/-- Attaching a group stores at most one record. -/
theorem attach_fst (d : Directory) (child parent : Text) (now : Clock) :
    (d.attach child parent now).1 = d ∨ ∃ g, (d.attach child parent now).1 = d.upsert g := by
  unfold attach
  split
  · exact .inl rfl
  · split
    · exact .inl rfl
    · split
      · exact .inl rfl
      · exact .inl rfl
      · exact .inr ⟨_, rfl⟩

/-- Deactivating a group stores at most one record. -/
theorem deactivate_fst (d : Directory) (shortId : Text) (now : Clock) :
    (d.deactivate shortId now).1 = d ∨ ∃ g, (d.deactivate shortId now).1 = d.upsert g := by
  unfold deactivate
  split
  · exact .inl rfl
  · split
    · exact .inl rfl
    · exact .inr ⟨_, rfl⟩

/-- The view of a head changes a store as reading its collection does. -/
theorem displayOne_fst (d : Directory) (acls : List Acl) (now : Clock) (head : Text) :
    (d.displayOne acls now head).1 = (d.getCollection head now).1 := by
  unfold displayOne
  cases d.getCollection head now with
  | mk d' answer =>
    cases answer with
    | error fault => cases fault <;> rfl
    | ok c =>
      dsimp only
      cases View.ofCollection c <;> rfl

/-- The store after heads were shown one after the other, each at its own
reading of the clock, up to the first one that cannot be shown. -/
def displayStore (acls : List Acl) : Directory → List (Text × Clock) → Directory
  | d, [] => d
  | d, (head, now) :: rest =>
    match (d.displayOne acls now head).2 with
    | .error _ => (d.displayOne acls now head).1
    | .ok _ => displayStore acls (d.displayOne acls now head).1 rest

theorem display_fst (d : Directory) (acls : List Acl) (now : Clock) (heads : List Text) :
    (Directory.display acls now d heads).1
      = displayStore acls d (heads.map fun head => (head, now)) := by
  induction heads generalizing d with
  | nil => rfl
  | cons head rest ih =>
    rw [List.map_cons, displayStore, Directory.display]
    cases d.displayOne acls now head with
    | mk d' answer =>
      cases answer with
      | error fault => rfl
      | ok view =>
        dsimp only
        rw [← ih]
        cases Directory.display acls now d' rest with
        | mk d' answer => cases answer <;> rfl

section Preserved

variable {P : Directory → Prop} {d d' : Directory}

theorem preserves_of_stored (hstore : ∀ d g, P d → P (d.upsert g)) (h : P d)
    (hd : d' = d ∨ ∃ g, d' = d.upsert g) : P d' := by
  rcases hd with rfl | ⟨g, rfl⟩
  · exact h
  · exact hstore d g h

/-- What reading a collection keeps, showing heads keeps. -/
theorem displayStore_preserves (hread : ∀ d head now, P d → P (d.getCollection head now).1)
    (h : P d) (acls : List Acl) (visits : List (Text × Clock)) :
    P (displayStore acls d visits) := by
  induction visits generalizing d with
  | nil => exact h
  | cons visit rest ih =>
    obtain ⟨head, now⟩ := visit
    have hone : P (d.displayOne acls now head).1 := by
      rw [displayOne_fst]
      exact hread d head now h
    rw [displayStore]
    split
    · exact hone
    · exact ih hone

theorem display_preserves (hread : ∀ d head now, P d → P (d.getCollection head now).1)
    (h : P d) (heads : List Text) (acls : List Acl) (now : Clock) :
    P (Directory.display acls now d heads).1 := by
  rw [display_fst]
  exact displayStore_preserves hread h acls _

/-- What storing, flushing and reading keep, every call keeps. -/
theorem perform_preserves (hstore : ∀ d g, P d → P (d.upsert g))
    (hflush : ∀ d g, P d → P (d.flush g))
    (hread : ∀ d head now, P d → P (d.getCollection head now).1) (h : P d) (call : Call) :
    P (call.perform d) := by
  cases call with
  | upsert g => exact hstore d g h
  | attach child parent now =>
    exact preserves_of_stored hstore h (attach_fst d child parent now)
  | deactivate shortId now =>
    exact preserves_of_stored hstore h (deactivate_fst d shortId now)
  | flush g => exact hflush d g h
  | collection head now => exact hread d head now h
  | display heads acls now => exact display_preserves hread h heads acls now

/-- What storing, flushing and reading keep holds after every run if it
holds of the empty store. -/
theorem run_preserves (hstore : ∀ d g, P d → P (d.upsert g))
    (hflush : ∀ d g, P d → P (d.flush g))
    (hread : ∀ d head now, P d → P (d.getCollection head now).1) {policy : GroupPolicy}
    (h : P (empty policy)) (calls : List Call) : P (run policy calls) := by
  unfold run
  generalize empty policy = d at h ⊢
  induction calls generalizing d with
  | nil => exact h
  | cons call rest ih => exact ih _ (perform_preserves hstore hflush hread h call)

end Preserved

/-! ## After every run -/

theorem policy_upsert (d : Directory) (g : Group) : (d.upsert g).policy = d.policy := by
  by_cases hv : g.virtual = true
  · rw [upsert_of_virtual hv]
  · rw [upsert_eq (Bool.eq_false_iff.mpr hv)]

theorem policy_run (policy : GroupPolicy) (calls : List Call) :
    (run policy calls).policy = policy :=
  run_preserves (P := fun d => d.policy = policy)
    (fun d g h => (policy_upsert d g).trans h)
    (fun d g h => (sameRecords_flush d g).policy.trans h)
    (fun d head now h => (getCollection_fst d head now).1.policy.trans h) rfl calls

/-- No call makes the store inconsistent or leaves an old collection in
its cache. -/
theorem consistent_and_current_run (policy : GroupPolicy) (calls : List Call) :
    Consistent (run policy calls) ∧ Current (run policy calls) := by
  refine run_preserves (P := fun d => Consistent d ∧ Current d) ?_ ?_ ?_ ?_ calls
  · rintro d g ⟨hconsistent, hcurrent⟩
    exact ⟨hconsistent.upsert g, hcurrent.upsert hconsistent g⟩
  · rintro d g ⟨hconsistent, hcurrent⟩
    exact ⟨hconsistent.of_sameRecords (sameRecords_flush d g), hcurrent.flush g⟩
  · rintro d head now ⟨hconsistent, hcurrent⟩
    exact ⟨hconsistent.of_sameRecords (getCollection_fst d head now).1,
      hcurrent.getCollection head now⟩
  · exact ⟨consistent_empty policy, fun k hk => by cases hk⟩

/-- After any calls, at any time, a read of a collection answers what a
build from the records gives, be it a collection or a fault, and what the
cache keeps is what a build gives, expired or not. -/
theorem getCollection_run {policy : GroupPolicy} (hp : policy.ExpiryFits) (calls : List Call)
    (head : Text) (now : Clock) :
    ((run policy calls).getCollection head now).2
        = ((run policy calls).buildCollection head).mapError .hierarchy
      ∧ ∀ k ∈ (run policy calls).cache,
          (run policy calls).buildCollection k.head = .ok k.collection := by
  have hcurrent := (consistent_and_current_run policy calls).2
  have hfits : (run policy calls).policy.ExpiryFits := by
    rw [policy_run]
    exact hp
  exact ⟨hcurrent.getCollection_snd hfits head now, hcurrent⟩

/-- `a` is moved from `r` to `s` below `r` while the collection of `r` is
kept, and the collection is read again. -/
def moving : List Call :=
  let r : Text := [.char 'r']
  let s : Text := [.char 's']
  let a : Text := [.char 'a']
  [.upsert (.plain r []), .upsert (.plain s [r]), .upsert (.plain a [r]), .collection r ⟨0⟩,
    .collection s ⟨1000000⟩, .attach a s ⟨2000000⟩, .collection r ⟨3000000⟩]

/-- A read after the move, while the collection of `r` is kept, answers
`a` as it is now. -/
theorem getCollection_run_moving :
    ({} : GroupPolicy).ExpiryFits
      ∧ (run {} moving).cache.map Kept.head = [[.char 'r']]
      ∧ (((run {} moving).getCollection [.char 'r'] ⟨4000000⟩).2.toOption.map fun c =>
          c.members.map fun g => (g.shortId, g.references))
        = some [([.char 'r'], []), ([.char 's'], [[.char 'r']]),
            ([.char 'a'], [[.char 'r'], [.char 's']])] := by
  have hfits : ({} : GroupPolicy).ExpiryFits := ⟨false, 300 * 2 ^ 44, -44, by decide +kernel⟩
  refine ⟨hfits, by decide +kernel, ?_⟩
  rw [(getCollection_run hfits moving [.char 'r'] ⟨4000000⟩).1]
  decide +kernel

end Lineage.Directory
