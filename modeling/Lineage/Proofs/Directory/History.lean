/-
Lineage.Proofs.Directory.History — a store is what was stored in it.

`history` lists the records that the calls of a run store, in turn: those
handed in that are not virtual, and those that attaching and deactivating
answer.  After the run every short id has its latest record of that list,
and the short ids stand in the order of their first one (`Recorded`).
The members of a hierarchy, found through the index, and the collection
built from them are what a scan of these latest records gives
(`members_and_collection_run`).
-/
import Lineage.Proofs.Directory.Building
import Lineage.Proofs.Directory.Changes
import Lineage.Proofs.Directory.Runs
import Mathlib.Data.List.Basic

namespace Lineage

/-- The values are what the keys find, in the order of the keys. -/
theorem Keyed.values_eq_filterMap {κ α : Type} [BEq κ] [LawfulBEq κ] {table : Keyed κ α}
    (hk : table.keys.Nodup) : table.values = table.keys.filterMap table.get? := by
  unfold Keyed.keys Keyed.values
  rw [List.filterMap_map, ← List.filterMap_eq_map]
  exact List.filterMap_congr fun p hp => (Keyed.get?_of_mem hk hp).symm

namespace Directory

/-! ## The latest records of a list -/

/-- The last record of a list with a short id. -/
def latest? (stored : List Group) (shortId : Text) : Option Group :=
  stored.reverse.find? fun g => g.shortId = shortId

/-- The last record of every short id, in the order in which the short ids
first occur. -/
def latestAll (stored : List Group) : List Group :=
  (distinct (stored.map Group.shortId)).filterMap (latest? stored)

theorem latest?_concat (stored : List Group) (g : Group) (shortId : Text) :
    latest? (stored ++ [g]) shortId
      = if g.shortId = shortId then some g else latest? stored shortId := by
  unfold latest?
  rw [List.reverse_append, List.reverse_singleton, List.singleton_append, List.find?_cons]
  by_cases h : g.shortId = shortId
  · simp [h]
  · simp [h]

/-! ## What calls store -/

/-- The record that a call stores, if it stores one. -/
def Call.stored? (d : Directory) : Call → Option Group
  | .upsert g => if g.virtual then none else some g
  | .attach child parent now => (d.attach child parent now).2.toOption
  | .deactivate shortId now => (d.deactivate shortId now).2.toOption
  | .flush _ => none
  | .collection _ _ => none
  | .display _ _ _ => none

/-- The records that calls store, in turn. -/
def history (d : Directory) : List Call → List Group
  | [] => []
  | call :: rest => (call.stored? d).toList ++ history (call.perform d) rest

/-- A store holds the latest of the records that were stored in it. -/
structure Recorded (d : Directory) (stored : List Group) : Prop where
  ids : d.records.keys = distinct (stored.map Group.shortId)
  latest : ∀ shortId, d.records.get? shortId = latest? stored shortId

namespace Recorded

variable {d d' : Directory} {stored : List Group}

theorem of_sameRecords (h : Recorded d stored) (hs : SameRecords d d') : Recorded d' stored where
  ids := hs.records ▸ h.ids
  latest := hs.records ▸ h.latest

theorem upsert (h : Recorded d stored) {g : Group} (hv : g.virtual = false) :
    Recorded (d.upsert g) (stored ++ [g]) := by
  refine ⟨?_, fun shortId => by rw [get?_records_upsert hv, h.latest, latest?_concat]⟩
  rw [upsert_eq hv]
  · rw [Keyed.keys_put, h.ids, List.map_append, List.map_singleton, distinct_concat]
    by_cases hg : g.shortId ∈ stored.map Group.shortId
    · rw [if_pos hg, if_pos (by simpa [mem_distinct] using hg)]
    · rw [if_neg hg, if_neg (by simpa [mem_distinct] using hg)]

/-- A call records what it stores. -/
theorem perform (h : Recorded d stored) (hc : Consistent d) (call : Call) :
    Recorded (call.perform d) (stored ++ (call.stored? d).toList) := by
  have hstays : ∀ {x g}, d.records.get? x = some g → g.virtual = false := fun hg =>
    (hc.filed (Keyed.mem_of_get? hg)).2
  cases call with
  | upsert g =>
    by_cases hv : g.virtual = true
    · simpa [Call.perform, Call.stored?, hv, upsert_of_virtual hv] using h
    · simpa [Call.perform, Call.stored?, hv] using h.upsert (Bool.eq_false_iff.mpr hv)
  | attach child parent now =>
    rcases attach_cases d child parent now with ⟨fault, heq⟩ | ⟨c, p, hchild, -, -, heq⟩
    · simpa [Call.perform, Call.stored?, heq, Except.toOption] using h
    · have hv : (c.attachedTo p now.stamp).virtual = false :=
        (c.attachedTo_virtual p now.stamp).trans (hstays hchild)
      simpa [Call.perform, Call.stored?, heq, Except.toOption] using h.upsert hv
  | deactivate shortId now =>
    rcases deactivate_cases d shortId now with ⟨fault, heq⟩ | ⟨g, hg, heq⟩
    · simpa [Call.perform, Call.stored?, heq, Except.toOption] using h
    · have hv : (g.deactivated now.stamp).virtual = false :=
        (g.deactivated_virtual now.stamp).trans (hstays hg)
      simpa [Call.perform, Call.stored?, heq, Except.toOption] using h.upsert hv
  | flush g =>
    simpa [Call.perform, Call.stored?] using h.of_sameRecords (sameRecords_flush d g)
  | collection head now =>
    simpa [Call.perform, Call.stored?] using h.of_sameRecords (getCollection_fst d head now).1
  | display heads acls now =>
    have hsame : SameRecords d (Directory.display acls now d heads).1 :=
      display_preserves (fun _ head now hs => hs.trans (getCollection_fst _ head now).1)
        (.refl d) heads acls now
    simpa [Call.perform, Call.stored?] using h.of_sameRecords hsame

end Recorded

/-- After every run the store holds the latest of the records that were
stored in it. -/
theorem recorded_run (policy : GroupPolicy) (calls : List Call) :
    Recorded (run policy calls) (history (empty policy) calls) := by
  have key : ∀ (calls : List Call) (d : Directory) (stored : List Group), Consistent d →
      Recorded d stored → Recorded (calls.foldl Call.perform d) (stored ++ history d calls) := by
    intro calls
    induction calls with
    | nil =>
      intro d stored _ h
      simpa [history] using h
    | cons call rest ih =>
      intro d stored hc h
      have hstep := h.perform hc call
      have hc' : Consistent (call.perform d) :=
        perform_preserves (fun _ g hc => hc.upsert g)
          (fun d g hc => hc.of_sameRecords (sameRecords_flush d g))
          (fun d head now hc => hc.of_sameRecords (getCollection_fst d head now).1) hc call
      simpa [history] using ih _ _ hc' hstep
  exact key calls (empty policy) [] (consistent_empty policy) ⟨rfl, fun _ => rfl⟩

/-! ## Members and collections -/

theorem Recorded.values_eq {d : Directory} {stored : List Group} (h : Recorded d stored)
    (hc : Consistent d) : d.records.values = latestAll stored := by
  have hget : d.records.get? = latest? stored := funext h.latest
  rw [Keyed.values_eq_filterMap hc.recordsOnce, h.ids, hget, latestAll]

theorem Consistent.map_shortId_values {d : Directory} (h : Consistent d) :
    d.records.values.map Group.shortId = d.records.keys := by
  unfold Keyed.values Keyed.keys
  rw [List.map_map]
  exact List.map_congr_left fun p hp => (h.filed hp).1

/-- The members of a hierarchy repeat no short id. -/
theorem Consistent.nodup_membersOf {d : Directory} (h : Consistent d) (head : Text) :
    ((d.membersOf head).map Group.shortId).Nodup := by
  rw [h.membersOf_eq]
  refine List.Nodup.sublist (List.filter_sublist.map Group.shortId) ?_
  rw [h.map_shortId_values]
  exact h.recordsOnce

/-- After any calls the members of a hierarchy are the latest records of
its head and of all groups that list it, each once, in the order of their
first storing.  Without members a build fails as not found, and without
the head as headless; otherwise it gives the collection of all members,
the head first. -/
theorem members_and_collection_run (policy : GroupPolicy) (calls : List Call) (head : Text) :
    let d := run policy calls
    let stored := history (empty policy) calls
    let members := (latestAll stored).filter fun g => g.shortId = head ∨ g.refersTo head = true
    d.membersOf head = members
      ∧ (members.map Group.shortId).Nodup
      ∧ (members = [] → ∃ fault, d.buildCollection head = .error fault
          ∧ fault.kind = .unavailable ∧ fault.code = "group-list-not-found")
      ∧ (members ≠ [] → latest? stored head = none → ∃ fault, d.buildCollection head = .error fault
          ∧ fault.kind = .unavailable ∧ fault.code = "group-list-head-less")
      ∧ ∀ g, latest? stored head = some g → ∃ c, d.buildCollection head = .ok c
          ∧ c.head = head ∧ c.maxDepth = policy.maxDepth
          ∧ c.members = g :: members.filter fun m => m.shortId ≠ head := by
  intro d stored members
  have hc : Consistent d := (consistent_and_current_run policy calls).1
  have hrecorded : Recorded d stored := recorded_run policy calls
  have hmembers : d.membersOf head = members := by
    rw [hc.membersOf_eq, hrecorded.values_eq hc]
    refine List.filter_congr fun g _ => ?_
    simp [headsOf, Group.refersTo, eq_comm]
  have hfails : ∀ {fault}, latest? stored head = none →
      fault = (if d.membersOf head = [] then .noMembers head else .headless head) →
      d.buildCollection head = .error fault := by
    rintro fault hnone rfl
    exact hc.buildCollection_of_not_stored ((hrecorded.latest head).trans hnone)
  refine ⟨hmembers, hmembers ▸ hc.nodup_membersOf head, fun hnil => ?_, fun hne hnone => ?_,
    fun g hg => ?_⟩
  · have hnone : latest? stored head = none := by
      cases hg : latest? stored head with
      | none => rfl
      | some g =>
        have hmem := hc.mem_membersOf_of_get? ((hrecorded.latest head).trans hg)
        rw [hmembers, hnil] at hmem
        exact absurd hmem List.not_mem_nil
    exact ⟨.noMembers head, hfails hnone (by rw [hmembers, if_pos hnil]), rfl, rfl⟩
  · exact ⟨.headless head, hfails hnone (by rw [hmembers, if_neg hne]), rfl, rfl⟩
  · have hpolicy : d.policy = policy := policy_run policy calls
    refine ⟨_, hc.buildCollection_of_stored ((hrecorded.latest head).trans hg), rfl, ?_, ?_⟩
    · exact congrArg GroupPolicy.maxDepth hpolicy
    · rw [Collection.members, hmembers]

/-- `b` is stored before the `r` and the `a` that it lists, a virtual
record of `r` is handed in, `b` is stored anew without `a`, attached under
`a` and deactivated. -/
def rewritten : List Call :=
  let r : Text := [.char 'r']
  let a : Text := [.char 'a']
  let b : Text := [.char 'b']
  [.upsert (.plain b [r, a]), .upsert (.plain a [r]), .upsert (.plain r []),
    .upsert { Group.plain r [a] with virtual := true }, .upsert (.plain b []),
    .attach b a ⟨1000000⟩, .deactivate b ⟨2000000⟩]

/-- The hierarchy of `r` has its head first, then `b`, which was stored
first, as it was left by the last call. -/
theorem members_and_collection_run_rewritten :
    (latest? (history (empty {}) rewritten) [.char 'r']).isSome
      ∧ ((run {} rewritten).membersOf [.char 'r']).map Group.shortId
        = [[.char 'b'], [.char 'a'], [.char 'r']]
      ∧ ∃ c, (run {} rewritten).buildCollection [.char 'r'] = .ok c
        ∧ c.members.map (fun g => (g.shortId, g.active)) =
          [([.char 'r'], true), ([.char 'b'], false), ([.char 'a'], true)] := by
  have hhead : latest? (history (empty {}) rewritten) [.char 'r']
      = some (.plain [.char 'r'] []) := by
    decide +kernel
  obtain ⟨hmembers, -, -, -, hbuild⟩ := members_and_collection_run {} rewritten [.char 'r']
  obtain ⟨c, hc, -, -, hall⟩ := hbuild _ hhead
  refine ⟨by rw [hhead]; rfl, ?_, c, hc, ?_⟩
  · rw [hmembers]
    decide +kernel
  · rw [hall]
    decide +kernel

end Directory

end Lineage
