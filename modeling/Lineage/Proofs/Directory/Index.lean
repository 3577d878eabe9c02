/-
Lineage.Proofs.Directory.Index — the index of references is exact.

A store is `Consistent` if its records stand under their short ids and
its index holds, for every short id, exactly the records that list it.
Storing a record keeps that (`Consistent.upsert`): the old record leaves
the index before the new one enters it.  In a consistent store the
members of a hierarchy are those that a scan of all records finds
(`Consistent.membersOf_eq`).
-/
import Lineage.Directory
import Mathlib.Tactic.Tauto

namespace Lineage.Directory

/-! ## Entering and leaving the index -/

/-- The referrers entered under a short id. -/
def listing (index : Keyed Text (List Text)) (listed : Text) : List Text :=
  (index.get? listed).getD []

section Index

variable {index : Keyed Text (List Text)} {x referrer listed other : Text} {g : Group}

theorem listing_put (index : Keyed Text (List Text)) (listed other : Text)
    (referrers : List Text) :
    listing (index.put listed referrers) other
      = if listed = other then referrers else listing index other := by
  unfold listing
  rw [Keyed.get?_put]
  by_cases h : listed = other
  · simp [h]
  · simp [h]

theorem listing_remove (hk : index.keys.Nodup) (listed other : Text) :
    listing (index.remove listed) other = if listed = other then [] else listing index other := by
  unfold listing
  rw [Keyed.get?_remove hk]
  by_cases h : listed = other
  · simp [h]
  · simp [h]

theorem addReferrer_eq (index : Keyed Text (List Text)) (referrer listed : Text) :
    addReferrer index referrer listed
      = if referrer ∈ listing index listed then index
        else index.put listed (listing index listed ++ [referrer]) := by
  by_cases h : referrer ∈ (index.get? listed).getD []
  · simp [addReferrer, listing, h]
  · simp [addReferrer, listing, h]

theorem mem_listing_addReferrer :
    x ∈ listing (addReferrer index referrer listed) other
      ↔ x ∈ listing index other ∨ (x = referrer ∧ other = listed) := by
  rw [addReferrer_eq]
  split
  · rename_i hknown
    refine ⟨.inl, ?_⟩
    rintro (h | ⟨rfl, rfl⟩)
    · exact h
    · exact hknown
  · rw [listing_put]
    by_cases h : listed = other
    · subst h
      simp
    · simp [h, Ne.symm h]

theorem mem_listing_dropReferrer (hk : index.keys.Nodup) :
    x ∈ listing (dropReferrer index referrer listed) other
      ↔ x ∈ listing index other ∧ ¬ (x = referrer ∧ other = listed) := by
  unfold dropReferrer
  split
  · rename_i hnone
    refine ⟨fun h => ⟨h, ?_⟩, And.left⟩
    rintro ⟨-, rfl⟩
    simp [listing, hnone] at h
  · rename_i known hsome
    have hlisting : listing index listed = known := by simp [listing, hsome]
    -- Both the removed entry and the shortened one list what is left.
    have hleft : ∀ left, known.filter (· ≠ referrer) = left →
        (x ∈ (if listed = other then left else listing index other)
          ↔ x ∈ listing index other ∧ ¬ (x = referrer ∧ other = listed)) := by
      rintro left rfl
      by_cases h : listed = other
      · subst h
        simp [hlisting]
      · simp [h, Ne.symm h]
    split
    · rename_i hnil
      rw [listing_remove hk]
      exact hleft [] hnil
    · rename_i left hcons
      rw [listing_put]
      exact hleft _ rfl

theorem nodup_keys_addReferrer (hk : index.keys.Nodup) :
    (addReferrer index referrer listed).keys.Nodup := by
  rw [addReferrer_eq]
  split
  · exact hk
  · exact Keyed.nodup_keys_put hk _ _

theorem nodup_keys_dropReferrer (hk : index.keys.Nodup) :
    (dropReferrer index referrer listed).keys.Nodup := by
  unfold dropReferrer
  split
  · exact hk
  · split
    · exact hk.sublist (Keyed.keys_remove_sublist _ _)
    · exact Keyed.nodup_keys_put hk _ _

/-- A record that enters is listed under its references, and nothing
else changes. -/
theorem mem_listing_enterReferences :
    x ∈ listing (enterReferences index g) listed
      ↔ x ∈ listing index listed ∨ (x = g.shortId ∧ listed ∈ g.references) := by
  unfold enterReferences
  induction g.references generalizing index with
  | nil => simp
  | cons r rest ih =>
    rw [List.foldl_cons, ih, mem_listing_addReferrer, List.mem_cons]
    tauto

/-- A record that leaves is no longer listed under its references, and
nothing else changes. -/
theorem mem_listing_leaveReferences (hk : index.keys.Nodup) :
    x ∈ listing (leaveReferences index g) listed
      ↔ x ∈ listing index listed ∧ ¬ (x = g.shortId ∧ listed ∈ g.references) := by
  unfold leaveReferences
  induction g.references generalizing index with
  | nil => simp
  | cons r rest ih =>
    rw [List.foldl_cons, ih (nodup_keys_dropReferrer hk), mem_listing_dropReferrer hk,
      List.mem_cons]
    tauto

theorem nodup_keys_enterReferences (hk : index.keys.Nodup) :
    (enterReferences index g).keys.Nodup := by
  unfold enterReferences
  induction g.references generalizing index with
  | nil => exact hk
  | cons r rest ih => exact ih (nodup_keys_addReferrer hk)

theorem nodup_keys_leaveReferences (hk : index.keys.Nodup) :
    (leaveReferences index g).keys.Nodup := by
  unfold leaveReferences
  induction g.references generalizing index with
  | nil => exact hk
  | cons r rest ih => exact ih (nodup_keys_dropReferrer hk)

end Index
/-! ## What storing a record changes -/

/-- The heads whose hierarchies contain a record. -/
def headsOf (g : Group) : List Text :=
  g.shortId :: g.references

/-- The heads whose hierarchies may change when a record is stored: those
of the record, and those of the record it replaces. -/
def touched (d : Directory) (g : Group) : List Text :=
  match d.records.get? g.shortId with
  | none => headsOf g
  | some previous => headsOf previous ++ headsOf g

/-- The index without the record that is to be replaced. -/
def unlisted (d : Directory) (g : Group) : Keyed Text (List Text) :=
  match d.records.get? g.shortId with
  | none => d.referrers
  | some previous => leaveReferences d.referrers previous

section Upsert

variable {d : Directory} {g : Group}

theorem flushHead_eq (d : Directory) (head : Text) :
    d.flushHead head
      = { d with
          cache := d.cache.filter fun k => k.head ≠ head
          counts := (d.flushHead head).counts } := by
  unfold flushHead kept?
  split
  · rename_i hnone
    have hall : d.cache.filter (fun k => k.head ≠ head) = d.cache :=
      List.filter_eq_self.mpr fun k hk => by simpa using List.find?_eq_none.mp hnone k hk
    rw [hall]
  · rfl

theorem flush_eq (d : Directory) (g : Group) :
    d.flush g
      = { d with
          cache := d.cache.filter fun k => k.head ∉ headsOf g
          counts := (d.flush g).counts } := by
  unfold flush headsOf
  generalize g.shortId :: g.references = heads
  induction heads generalizing d with
  | nil =>
    have hall : d.cache.filter (fun k => k.head ∉ ([] : List Text)) = d.cache :=
      List.filter_eq_self.mpr (by simp)
    rw [hall, List.foldl_nil]
  | cons head rest ih =>
    rw [List.foldl_cons, ih, flushHead_eq]
    simp [List.filter_filter, Bool.and_comm]

theorem upsert_of_virtual (h : g.virtual = true) : d.upsert g = d := by
  simp [upsert, h]

theorem upsert_eq (h : g.virtual = false) :
    d.upsert g
      = { d with
          records := d.records.put g.shortId g
          referrers := enterReferences (d.unlisted g) g
          cache := d.cache.filter fun k => k.head ∉ d.touched g
          counts := (d.upsert g).counts } := by
  unfold upsert touched unlisted
  rw [if_neg (by simp [h])]
  cases d.records.get? g.shortId with
  | none =>
    dsimp only
    rw [flush_eq]
  | some previous =>
    dsimp only
    rw [flush_eq, flush_eq]
    simp [List.filter_filter, Bool.and_comm]

theorem get?_records_upsert (h : g.virtual = false) (x : Text) :
    (d.upsert g).records.get? x = if g.shortId = x then some g else d.records.get? x := by
  rw [upsert_eq h]
  dsimp only
  rw [Keyed.get?_put]
  simp

end Upsert

/-! ## Stores with the same records -/

/-- The two stores differ in their caches alone. -/
structure SameRecords (d d' : Directory) : Prop where
  policy : d'.policy = d.policy
  records : d'.records = d.records
  referrers : d'.referrers = d.referrers

namespace SameRecords

variable {d d' d'' : Directory}

theorem refl (d : Directory) : SameRecords d d :=
  ⟨rfl, rfl, rfl⟩

theorem trans (h : SameRecords d d') (h' : SameRecords d' d'') : SameRecords d d'' :=
  ⟨h'.policy.trans h.policy, h'.records.trans h.records, h'.referrers.trans h.referrers⟩

theorem buildCollection_eq (h : SameRecords d d') (head : Text) :
    d'.buildCollection head = d.buildCollection head := by
  unfold buildCollection membersOf
  rw [h.policy, h.records, h.referrers]

end SameRecords

theorem sameRecords_flush (d : Directory) (g : Group) : SameRecords d (d.flush g) := by
  rw [flush_eq]
  exact ⟨rfl, rfl, rfl⟩

/-! ## Consistent stores -/

/-- Records stand under their short ids, none of them is virtual, and the
index lists a record under a short id exactly if the record does. -/
structure Consistent (d : Directory) : Prop where
  filed : ∀ {key g}, (key, g) ∈ d.records → g.shortId = key ∧ g.virtual = false
  recordsOnce : d.records.keys.Nodup
  indexOnce : d.referrers.keys.Nodup
  indexed : ∀ {x listed}, x ∈ listing d.referrers listed
    ↔ ∃ g, d.records.get? x = some g ∧ listed ∈ g.references

theorem consistent_empty (policy : GroupPolicy) : Consistent (empty policy) where
  filed h := by cases h
  recordsOnce := List.nodup_nil
  indexOnce := List.nodup_nil
  indexed := by simp [empty, listing, Keyed.get?]

namespace Consistent

variable {d d' : Directory} {g : Group} {x listed : Text}

/-- The cache does not matter. -/
theorem of_sameRecords (h : Consistent d) (hs : SameRecords d d') : Consistent d' where
  filed hg := h.filed (hs.records ▸ hg)
  recordsOnce := hs.records ▸ h.recordsOnce
  indexOnce := hs.referrers ▸ h.indexOnce
  indexed := by
    rw [hs.referrers, hs.records]
    exact h.indexed

theorem shortId_of_get? (h : Consistent d) (hg : d.records.get? x = some g) : g.shortId = x :=
  (h.filed (Keyed.mem_of_get? hg)).1

theorem nodup_keys_unlisted (h : Consistent d) : (d.unlisted g).keys.Nodup := by
  unfold unlisted
  split
  · exact h.indexOnce
  · exact nodup_keys_leaveReferences h.indexOnce

/-- Without the record that is to be replaced the index lists what it
listed before, except the short id of that record. -/
theorem mem_listing_unlisted (h : Consistent d) :
    x ∈ listing (d.unlisted g) listed ↔ x ∈ listing d.referrers listed ∧ x ≠ g.shortId := by
  unfold unlisted
  split
  · rename_i hnone
    refine ⟨fun hx => ⟨hx, ?_⟩, And.left⟩
    rintro rfl
    obtain ⟨g', hg', -⟩ := h.indexed.mp hx
    rw [hnone] at hg'
    cases hg'
  · rename_i previous hsome
    have hid : previous.shortId = g.shortId := h.shortId_of_get? hsome
    rw [mem_listing_leaveReferences h.indexOnce, hid]
    refine and_congr_right fun hx => not_congr ⟨And.left, ?_⟩
    rintro rfl
    obtain ⟨g', hg', hlisted⟩ := h.indexed.mp hx
    rw [hsome] at hg'
    obtain rfl := Option.some.inj hg'
    exact ⟨rfl, hlisted⟩

/-- Storing a record keeps a store consistent. -/
theorem upsert (h : Consistent d) (g : Group) : Consistent (d.upsert g) := by
  by_cases hv : g.virtual = true
  · rw [upsert_of_virtual hv]
    exact h
  · have hv : g.virtual = false := Bool.eq_false_iff.mpr hv
    rw [upsert_eq hv]
    refine ⟨?_, Keyed.nodup_keys_put h.recordsOnce _ _,
      nodup_keys_enterReferences h.nodup_keys_unlisted, ?_⟩
    · intro key stored hstored
      rcases Keyed.mem_put hstored with hold | hnew
      · exact h.filed hold
      · obtain ⟨rfl, rfl⟩ := Prod.mk.inj hnew
        exact ⟨rfl, hv⟩
    · intro x listed
      rw [mem_listing_enterReferences, h.mem_listing_unlisted, h.indexed, Keyed.get?_put]
      by_cases hx : x = g.shortId
      · simp [hx]
      · simp [hx, Ne.symm hx]

/-- In a consistent store the members of a hierarchy are all records that
belong to it, in the order of their first entry. -/
theorem membersOf_eq (h : Consistent d) (head : Text) :
    d.membersOf head = d.records.values.filter fun g => head ∈ headsOf g := by
  have hkeep : ∀ r ∈ d.records,
      (r.1 == head || (listing d.referrers head).contains r.1) = decide (head ∈ headsOf r.2) := by
    rintro ⟨key, g⟩ hr
    have hlists : key ∈ listing d.referrers head ↔ head ∈ g.references := by
      rw [h.indexed, Keyed.get?_of_mem h.recordsOnce hr]
      simp
    have hid : key = head ↔ head = g.shortId := by rw [(h.filed hr).1, eq_comm]
    rw [Bool.eq_iff_iff]
    simp [headsOf, hid, hlists]
  have hrecords : d.membersOf head
      = Keyed.values (d.records.filter fun r => decide (head ∈ headsOf r.2)) :=
    congrArg Keyed.values (List.filter_congr hkeep)
  rw [hrecords]
  unfold Keyed.values
  rw [List.filter_map]
  rfl

end Consistent

end Lineage.Directory
