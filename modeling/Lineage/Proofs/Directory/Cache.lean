/-
Lineage.Proofs.Directory.Cache — kept collections are those that a build
gives now.

Storing a record can change the hierarchies that contain the record, or
that contained the one it replaces, and no others
(`Consistent.buildCollection_upsert`).  These are the ones whose
collections are dropped, so a store stays `Current`: time decides only
whether a collection is kept, never whether it is right.
-/
import Lineage.Proofs.Directory.Index

namespace Lineage

/-- The time for which collections are kept is within the range of the
doubles, so that a time of expiry exists. -/
def GroupPolicy.ExpiryFits (p : GroupPolicy) : Prop :=
  ∃ negative mantissa exponent,
    Double.ofInt p.cacheExpirationSeconds = .finite negative mantissa exponent

/-- A store under the policy can answer collections: it keeps none, or it
can tell when those that it keeps expire. -/
def GroupPolicy.Serves (p : GroupPolicy) : Prop :=
  p.cacheMaxSize = 0 ∨ p.ExpiryFits

namespace Directory

/-- Every kept collection, expired or not, is the one that a build gives
now. -/
def Current (d : Directory) : Prop :=
  ∀ k ∈ d.cache, d.buildCollection k.head = .ok k.collection

variable {d d' : Directory} {g : Group} {head : Text} {now : Clock}

/-! ## Storing a record -/

theorem not_mem_touched_iff :
    head ∉ d.touched g ↔ head ∉ headsOf g
      ∧ ∀ previous, d.records.get? g.shortId = some previous → head ∉ headsOf previous := by
  unfold touched
  split
  · rename_i hnone
    simp [hnone]
  · rename_i previous hsome
    simp [hsome, and_comm]

/-- Storing a record leaves alone the hierarchies that neither it nor the
record it replaces belongs to. -/
theorem Consistent.buildCollection_upsert (h : Consistent d) (hhead : head ∉ d.touched g) :
    (d.upsert g).buildCollection head = d.buildCollection head := by
  by_cases hv : g.virtual = true
  · rw [upsert_of_virtual hv]
  · have heq := upsert_eq (d := d) (Bool.eq_false_iff.mpr hv)
    obtain ⟨hnew, hold⟩ := not_mem_touched_iff.mp hhead
    have hmembers : (d.upsert g).membersOf head = d.membersOf head := by
      rw [(h.upsert g).membersOf_eq, h.membersOf_eq, heq]
      exact Keyed.filter_values_put (by simpa using hnew) fun previous hp => by
        simpa using hold previous hp
    unfold buildCollection
    rw [hmembers, heq]

theorem Current.of_subset (h : Current d) (hs : SameRecords d d') (hsub : d'.cache ⊆ d.cache) :
    Current d' := by
  intro k hk
  rw [hs.buildCollection_eq]
  exact h k (hsub hk)

theorem Current.flush (h : Current d) (g : Group) : Current (d.flush g) := by
  refine h.of_subset (sameRecords_flush d g) ?_
  rw [flush_eq]
  exact List.filter_sublist.subset

/-- What is still kept after a record was stored is what a build gives
then. -/
theorem Current.upsert (h : Current d) (hc : Consistent d) (g : Group) : Current (d.upsert g) := by
  by_cases hv : g.virtual = true
  · rw [upsert_of_virtual hv]
    exact h
  · intro k hk
    rw [upsert_eq (Bool.eq_false_iff.mpr hv), List.mem_filter] at hk
    have huntouched : k.head ∉ d.touched g := of_decide_eq_true hk.2
    rw [hc.buildCollection_upsert huntouched]
    exact h k hk.1

/-! ## Reading a collection -/

theorem mem_cache_of_fresh? {k : Kept} (hk : d.fresh? head now = some k) :
    k ∈ d.cache ∧ k.head = head := by
  obtain ⟨hkept, -⟩ := Option.filter_eq_some_iff.mp hk
  exact ⟨List.mem_of_find?_eq_some hkept, by simpa using List.find?_some hkept⟩

/-- Reading a collection changes the cache alone, and keeps no collection
that was not kept before but the one that a build gives. -/
theorem getCollection_fst (d : Directory) (head : Text) (now : Clock) :
    SameRecords d (d.getCollection head now).1
      ∧ ∀ k ∈ (d.getCollection head now).1.cache,
          k ∈ d.cache ∨ (k.head = head ∧ d.buildCollection head = .ok k.collection) := by
  unfold getCollection
  split
  · exact ⟨.refl d, fun k hk => .inl hk⟩
  · split
    · rename_i served hserved
      refine ⟨⟨rfl, rfl, rfl⟩, fun k hk => .inl ?_⟩
      rcases List.mem_append.mp hk with hk | hk
      · exact (List.mem_filter.mp hk).1
      · rw [List.mem_singleton.mp hk]
        exact (mem_cache_of_fresh? hserved).1
    · dsimp only
      split
      · exact ⟨⟨rfl, rfl, rfl⟩, fun k hk => .inl hk⟩
      · rename_i c hbuild
        split
        · exact ⟨⟨rfl, rfl, rfl⟩, fun k hk => .inl hk⟩
        · refine ⟨⟨rfl, rfl, rfl⟩, fun k hk => ?_⟩
          rcases List.mem_append.mp (List.mem_of_mem_drop hk) with hk | hk
          · exact .inl (List.mem_filter.mp hk).1
          · obtain rfl := List.mem_singleton.mp hk
            exact .inr ⟨rfl, hbuild⟩

theorem Current.getCollection (h : Current d) (head : Text) (now : Clock) :
    Current (d.getCollection head now).1 := by
  obtain ⟨hs, hcache⟩ := getCollection_fst d head now
  intro k hk
  rw [hs.buildCollection_eq]
  rcases hcache k hk with hk | ⟨rfl, hbuild⟩
  · exact h k hk
  · exact hbuild

/-- Whether it builds a collection or serves a kept one, a current store
answers what a build gives, if it can answer. -/
theorem Current.getCollection_of_serves (h : Current d) (hp : d.policy.Serves) (head : Text)
    (now : Clock) :
    (d.getCollection head now).2 = (d.buildCollection head).mapError .hierarchy := by
  unfold Directory.getCollection
  split
  · rfl
  · rename_i hsize
    obtain ⟨negative, mantissa, exponent, hfits⟩ := hp.resolve_left hsize
    split
    · rename_i k hk
      obtain ⟨hmem, rfl⟩ := mem_cache_of_fresh? hk
      rw [h k hmem]
      rfl
    · have hbuild : ({ d with counts := { d.counts with misses := d.counts.misses + 1 } } :
          Directory).buildCollection head = d.buildCollection head :=
        SameRecords.buildCollection_eq ⟨rfl, rfl, rfl⟩ head
      dsimp only
      rw [hbuild]
      cases d.buildCollection head with
      | error fault => rfl
      | ok c =>
        simp only [expiry?, hfits]
        rfl

/-- Where times of expiry fit, a current store answers what a build
gives. -/
theorem Current.getCollection_snd (h : Current d) (hp : d.policy.ExpiryFits) (head : Text)
    (now : Clock) :
    (d.getCollection head now).2 = (d.buildCollection head).mapError .hierarchy :=
  h.getCollection_of_serves (.inr hp) head now

end Directory

end Lineage
