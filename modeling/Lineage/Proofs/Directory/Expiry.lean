/-
Lineage.Proofs.Directory.Expiry — when a store cannot tell the time of
expiry.

A time span beyond the range of the doubles leaves a kept collection
without a time of expiry.  In a store that keeps nothing yet this stops
the first head whose collection can be built at all
(`display_overflow_iff`); a head that has none fails before that.  Other
than that, reads fail with faults of hierarchies alone
(`fault_of_display`).
-/
import Lineage.Proofs.Directory.Shown

namespace Lineage.Directory

variable {d : Directory} {head : Text} {now : Clock} {acls : List Acl} {fault : DirectoryFault}

/-! ## Faults of reads -/

theorem fault_of_getCollection (h : (d.getCollection head now).2 = .error fault) :
    (∃ f, fault = .hierarchy f) ∨ fault = .expiryOverflow := by
  unfold getCollection at h
  split at h
  · cases hbuild : d.buildCollection head with
    | error f =>
      rw [hbuild] at h
      exact .inl ⟨f, (Except.error.inj h).symm⟩
    | ok c =>
      rw [hbuild] at h
      cases h
  · split at h
    · cases h
    · dsimp only at h
      split at h
      · rename_i f _
        exact .inl ⟨f, (Except.error.inj h).symm⟩
      · split at h
        · exact .inr (Except.error.inj h).symm
        · cases h

theorem fault_of_displayOne (h : (d.displayOne acls now head).2 = .error fault) :
    (∃ f, fault = .hierarchy f) ∨ fault = .expiryOverflow := by
  unfold displayOne at h
  split at h
  · exact .inl ⟨_, (Except.error.inj h).symm⟩
  · rename_i hget
    rw [← Except.error.inj h]
    exact fault_of_getCollection (congrArg Prod.snd hget)
  · split at h
    · exact .inl ⟨_, (Except.error.inj h).symm⟩
    · cases h

theorem fault_of_display {heads : List Text}
    (h : (Directory.display acls now d heads).2 = .error fault) :
    (∃ f, fault = .hierarchy f) ∨ fault = .expiryOverflow := by
  rw [display_snd] at h
  induction heads generalizing d with
  | nil => cases h
  | cons head rest ih =>
    rw [List.map_cons, displayEach] at h
    cases hone : (d.displayOne acls now head).2 with
    | error f =>
      rw [hone] at h
      rw [← Except.error.inj h]
      exact fault_of_displayOne hone
    | ok view =>
      rw [hone] at h
      dsimp only [bind, Except.bind] at h
      split at h
      · rename_i hmore
        exact ih (hmore.trans (congrArg Except.error (Except.error.inj h)))
      · cases h

/-! ## The time of expiry -/

theorem expiry?_eq_none_iff (d : Directory) (now : Clock) :
    d.expiry? now = none ↔ ¬ d.policy.ExpiryFits := by
  unfold expiry? GroupPolicy.ExpiryFits
  split
  · rename_i negative mantissa exponent hfinite
    simp [hfinite]
  · rename_i hinfinite
    simp only [true_iff]
    rintro ⟨negative, mantissa, exponent, hfinite⟩
    exact hinfinite negative mantissa exponent hfinite

/-- Without a time of expiry, a collection that can be built cannot be
answered. -/
theorem getCollection_overflow_iff (head : Text) (now : Clock) (hempty : d.cache = []) :
    (d.getCollection head now).2 = .error .expiryOverflow
      ↔ ¬ d.policy.Serves ∧ ∃ c, d.buildCollection head = .ok c := by
  have hfresh : d.fresh? head now = none := by
    rw [fresh?, kept?, hempty]
    rfl
  have hbuild : ({ d with counts := { d.counts with misses := d.counts.misses + 1 } } :
      Directory).buildCollection head = d.buildCollection head :=
    SameRecords.buildCollection_eq ⟨rfl, rfl, rfl⟩ head
  unfold getCollection GroupPolicy.Serves
  by_cases hsize : d.policy.cacheMaxSize = 0
  · rw [if_pos hsize]
    cases d.buildCollection head <;> simp [Except.mapError, hsize]
  · rw [if_neg hsize, hfresh]
    dsimp only
    rw [hbuild]
    cases d.buildCollection head with
    | error f => simp
    | ok c =>
      have hexpiry := expiry?_eq_none_iff
        { d with counts := { d.counts with misses := d.counts.misses + 1 } } now
      dsimp only
      cases htime : ({ d with counts := { d.counts with misses := d.counts.misses + 1 } } :
          Directory).expiry? now with
      | none => simpa [hsize] using hexpiry.mp htime
      | some expiresAt =>
        have hfits : d.policy.ExpiryFits := by
          by_contra hnot
          rw [hexpiry.mpr hnot] at htime
          cases htime
        simp [hfits]

theorem displayOne_overflow_iff (acls : List Acl) (head : Text) (now : Clock)
    (hempty : d.cache = []) :
    (d.displayOne acls now head).2 = .error .expiryOverflow
      ↔ ¬ d.policy.Serves ∧ ∃ c, d.buildCollection head = .ok c := by
  rw [← getCollection_overflow_iff head now hempty]
  unfold displayOne
  cases d.getCollection head now with
  | mk d' answer =>
    cases answer with
    | error f => cases f <;> simp
    | ok c =>
      dsimp only
      cases View.ofCollection c <;> simp

/-- A display of a store that keeps nothing stops for want of a time of
expiry exactly if the collection of its first head can be built. -/
theorem Current.display_overflow_iff (h : Current d) (acls : List Acl) (now : Clock)
    (hempty : d.cache = []) {heads : List Text} :
    (Directory.display acls now d heads).2 = .error .expiryOverflow
      ↔ ¬ d.policy.Serves ∧ ∃ head ∈ heads.head?, ∃ c, d.buildCollection head = .ok c := by
  by_cases hserves : d.policy.Serves
  · -- A traversal of what the records say knows no such fault.
    rw [h.display_of_serves hserves, iff_false_right (fun hr => hr.1 hserves)]
    intro hfault
    obtain ⟨head, -, hhead⟩ := exists_of_mapM_eq_error hfault
    unfold displayed at hhead
    split at hhead
    · cases hhead
    · split at hhead <;> cases hhead
  · cases heads with
    | nil =>
      constructor
      · nofun
      · rintro ⟨-, head, hhead, -⟩
        cases hhead
    | cons head rest =>
      have hone := displayOne_overflow_iff acls head now hempty
      have hfirst : (∃ x ∈ (head :: rest).head?, ∃ c, d.buildCollection x = .ok c)
          ↔ ∃ c, d.buildCollection head = .ok c := by simp
      rw [hfirst, ← hone, display_snd, List.map_cons, displayEach]
      cases hanswer : (d.displayOne acls now head).2 with
      | error f => exact ⟨fun h => congrArg Except.error (Except.error.inj h),
          fun h => congrArg Except.error (Except.error.inj h)⟩
      | ok view =>
        -- The collection of the first head cannot be answered, so it is not shown.
        obtain ⟨c, -, hbuild, -⟩ := h.exists_of_displayOne hanswer
        have hoverflow := hone.mpr ⟨hserves, c, hbuild⟩
        rw [hanswer] at hoverflow
        cases hoverflow

/-- The collection of a head can be built exactly if the head is stored. -/
theorem Consistent.exists_buildCollection_iff (h : Consistent d) :
    (∃ c, d.buildCollection head = .ok c) ↔ d.has head = true := by
  simp only [h.buildCollection_eq_ok_iff, has_iff]
  constructor
  · rintro ⟨_, g, hg, -⟩
    exact ⟨g, hg⟩
  · rintro ⟨g, hg⟩
    exact ⟨_, g, hg, rfl⟩

end Lineage.Directory
