/-
Lineage.Proofs.Directory.Orderly — hierarchies that are built from their
heads down.

A run is orderly if new groups list nothing when they are stored and a
group is attached only while no stored group lists it.  Such a group may
still be attached under several parents, one after the other, and merge
their chains.  Every call of an orderly run keeps the store `Founded`
(`Founded.perform`): layered, and without references to groups that are
not stored.  So no group of a hierarchy is lost between two layers, and
the tree of a head holds exactly the groups that list it
(`hierarchies_of_orderly_run`).
-/
import Lineage.Proofs.Directory.Deactivation
import Lineage.Proofs.Directory.Layered

namespace Lineage.Directory

variable {d d' : Directory} {x y : Text} {g : Group} {call : Call} {calls : List Call}

/-! ## Orderly runs -/

/-- A record that is handed in is tidy, new and lists nothing, and a group
that is attached is listed by no stored group. -/
def Call.Orderly (d : Directory) : Call → Prop
  | .upsert g => g.Tidy ∧ g.references = [] ∧ d.has g.shortId = false
  | .attach child _ _ => d.Unlisted child
  | .deactivate _ _ | .flush _ | .collection _ _ | .display _ _ _ => True

instance (d : Directory) : DecidablePred (Call.Orderly d)
  | .upsert g => inferInstanceAs (Decidable (g.Tidy ∧ g.references = [] ∧ d.has g.shortId = false))
  | .attach child _ _ => inferInstanceAs (Decidable (d.Unlisted child))
  | .deactivate _ _ | .flush _ | .collection _ _ | .display _ _ _ => inferInstanceAs (Decidable True)

/-- Calls of which each is orderly when its turn comes. -/
def Orderly (d : Directory) : List Call → Prop
  | [] => True
  | call :: rest => call.Orderly d ∧ Orderly (call.perform d) rest

instance decidableOrderly (d : Directory) : (calls : List Call) → Decidable (Orderly d calls)
  | [] => inferInstanceAs (Decidable True)
  | call :: rest =>
    have := decidableOrderly (call.perform d) rest
    inferInstanceAs (Decidable (call.Orderly d ∧ Orderly (call.perform d) rest))

/-- The records that an orderly run hands in are tidy. -/
theorem Orderly.tidy (h : Orderly d calls) : ∀ g, Call.upsert g ∈ calls → g.Tidy := by
  induction calls generalizing d with
  | nil => exact fun g hg => absurd hg List.not_mem_nil
  | cons call rest ih =>
    intro g hg
    rcases List.mem_cons.mp hg with rfl | hg
    · exact h.1.1
    · exact ih h.2 g hg

/-! ## Founded stores -/

/-- The store is layered, its short ids are tidy, and all that is listed
is stored. -/
structure Founded (d : Directory) : Prop where
  layered : Layered d
  tidy : ∀ {x}, d.has x = true → x.Tidy
  stored : ∀ {x y}, d.StoredLists x y → d.has y = true

theorem founded_empty (policy : GroupPolicy) : Founded (empty policy) := by
  have hnone : ∀ x y, ¬ (empty policy).StoredLists x y := by
    rintro x y ⟨g, hg, -⟩
    cases hg
  refine ⟨⟨fun x hx => ?_, fun hab => absurd hab (hnone _ _)⟩, fun hx => ?_,
    fun hxy => absurd hxy (hnone _ _)⟩
  · obtain ⟨y, hxy, -⟩ := Relation.TransGen.head'_iff.mp hx
    exact hnone x y hxy
  · obtain ⟨g, hg⟩ := has_iff.mp hx
    cases hg

namespace Founded

theorem irrefl (h : Founded d) (x : Text) : ¬ d.StoredLists x x :=
  fun hx => h.layered.loopFree x (.single hx)

theorem trans (h : Founded d) {z : Text} (hxy : d.StoredLists x y) (hyz : d.StoredLists y z) :
    d.StoredLists x z :=
  h.layered.closed hxy hyz (h.stored hyz)

theorem tidyLists (h : Founded d) : TidyLists d where
  ids {_ g} hg := ⟨h.tidy (has_iff.mpr ⟨g, hg⟩), fun _ hs => h.tidy (h.stored ⟨g, hg, hs⟩)⟩
  irrefl := h.irrefl

/-- Where every group lists what it listed and no group is lost, a founded
store stays founded. -/
theorem of_sameLists (h : Founded d) (hlists : ∀ x y, d'.StoredLists x y ↔ d.StoredLists x y)
    (hkept : ∀ x, d.has x = true → d'.has x = true) (htidy : ∀ x, d'.has x = true → x.Tidy) :
    Founded d' := by
  have heq : d'.StoredLists = d.StoredLists := by
    funext x y
    exact propext (hlists x y)
  refine ⟨⟨?_, fun hab hbe _ => ?_⟩, htidy _, fun hxy => ?_⟩
  · rw [LoopFree, heq]
    exact h.layered.loopFree
  · rw [heq] at hab hbe ⊢
    exact h.trans hab hbe
  · exact hkept _ (h.stored ((hlists _ _).mp hxy))

theorem of_sameRecords (h : Founded d) (hs : SameRecords d d') : Founded d' := by
  have hhas : ∀ x, d'.has x = d.has x := fun x => by rw [has, has, hs.records]
  refine h.of_sameLists (fun x y => ?_) (fun x hx => hhas x ▸ hx) fun x hx => h.tidy (hhas x ▸ hx)
  rw [StoredLists, StoredLists, hs.records]

/-- A new group that lists nothing changes no list. -/
theorem upsert_new (h : Founded d) (hv : g.virtual = false) (ht : g.Tidy) (hrefs : g.references = [])
    (hnew : d.has g.shortId = false) : Founded (d.upsert g) := by
  have hnone : d.records.get? g.shortId = none := has_eq_false_iff.mp hnew
  refine h.of_sameLists (fun x y => ?_) (fun x hx => (has_upsert_iff hv).mpr (.inr hx)) fun x hx => ?_
  · rw [StoredLists, StoredLists, get?_records_upsert hv]
    by_cases hx : g.shortId = x
    · simp [← hx, hnone, hrefs]
    · simp [hx]
  · rcases (has_upsert_iff hv).mp hx with rfl | hx
    · exact ht.shortId
    · exact h.tidy hx

/-- Deactivating a group changes no list. -/
theorem upsert_deactivated (h : Founded d) (hc : Consistent d) (hg : d.records.get? x = some g)
    (now : Int) : Founded (d.upsert (g.deactivated now)) := by
  have hget : ∀ s, (d.upsert (g.deactivated now)).records.get? s
      = (d.records.get? s).map (Group.hide x now) :=
    hc.get?_upsert_deactivated hg
  have hhas : ∀ s, (d.upsert (g.deactivated now)).has s = true ↔ d.has s = true := fun s => by
    rw [has_iff, has_iff, hget]
    simp
  refine h.of_sameLists (fun s t => ?_) (fun s hs => (hhas s).mpr hs)
    fun s hs => h.tidy ((hhas s).mp hs)
  rw [StoredLists, StoredLists, hget]
  simp

/-- Attaching a group that no stored group lists keeps a store founded. -/
theorem upsert_attachedTo (h : Founded d) (hc : Consistent d) {child parent : Text} {c p : Group}
    {limit now : Int} (hu : d.Unlisted child) (hchild : d.records.get? child = some c)
    (hparent : d.records.get? parent = some p) (hok : c.attachFault? p limit = none) :
    Founded (d.upsert (c.attachedTo p now)) := by
  have hhas : ∀ s, (d.upsert (c.attachedTo p now)).has s = true ↔ d.has s = true := fun s =>
    hc.has_upsert_attachedTo_iff hchild
  refine ⟨h.layered.upsert_attachedTo hc h.tidyLists hchild hparent hok hu,
    fun hs => h.tidy ((hhas _).mp hs), fun {a b} hab => (hhas b).mpr ?_⟩
  rcases (storedLists_upsert_attachedTo hc h.tidyLists hchild hparent).mp hab with
    hab | ⟨-, rfl | hpb⟩
  · exact h.stored hab
  · exact has_iff.mpr ⟨p, hparent⟩
  · exact h.stored hpb

/-- An orderly call keeps a store founded. -/
theorem perform (h : Founded d) (hc : Consistent d) (hcall : call.Orderly d) :
    Founded (call.perform d) := by
  rcases hc.perform_cases call with hsame | ⟨g, horigin, hv, heq⟩
  · exact h.of_sameRecords hsame
  · rw [heq]
    cases horigin with
    | handed g =>
      obtain ⟨ht, hrefs, hnew⟩ := hcall
      exact h.upsert_new hv ht hrefs hnew
    | attached now hchild hparent hok => exact h.upsert_attachedTo hc hcall hchild hparent hok
    | deactivated now hstored => exact h.upsert_deactivated hc hstored _

/-- Orderly calls keep a store founded. -/
theorem perform_all (h : Founded d) (hc : Consistent d) (hcalls : Orderly d calls) :
    Founded (calls.foldl Call.perform d) := by
  induction calls generalizing d with
  | nil => exact h
  | cons call rest ih => exact ih (h.perform hc hcalls.1) (hc.perform call) hcalls.2

end Founded

theorem founded_run (policy : GroupPolicy) (h : Orderly (empty policy) calls) :
    Founded (run policy calls) :=
  (founded_empty policy).perform_all (consistent_empty policy) h

/-! ## The hierarchies of an orderly run -/

/-- In an orderly run all that is listed is stored, references are
transitively closed, and no group lists itself.  So every stored group
heads a collection whose tree, unless it is too deep, holds the group and
exactly the groups that list it, each once and as it is stored.  The
records that are handed in are tidy, as all checked ones are
(`Group.tidy_of_check`). -/
theorem hierarchies_of_orderly_run (policy : GroupPolicy) {calls : List Call}
    (h : Orderly (empty policy) calls) :
    let d := run policy calls
    (∀ x y, d.StoredLists x y → d.has y = true)
      ∧ (∀ x y z, d.StoredLists x y → d.StoredLists y z → d.StoredLists x z)
      ∧ (∀ x, ¬ d.StoredLists x x)
      ∧ ∀ head, d.has head = true → (∃ c, d.buildCollection head = .ok c)
        ∧ ∀ t, d.tree head = .ok t → (t.walk.map Tree.shortId).Nodup
          ∧ (∀ s, s ∈ t.walk.map Tree.shortId ↔ s = head ∨ d.StoredLists s head)
          ∧ ∀ n ∈ t.walk, d.records.get? n.shortId = some n.member := by
  intro d
  have hc : Consistent d := (consistent_and_current_run policy calls).1
  have hd : Founded d := founded_run policy h
  refine ⟨fun _ _ => hd.stored, fun _ _ _ => hd.trans, hd.irrefl, fun head hhead => ?_⟩
  obtain ⟨g, hg⟩ := has_iff.mp hhead
  refine ⟨⟨_, hc.buildCollection_of_stored hg⟩, fun t ht => ⟨nodup_walk_tree ht, fun s =>
    hd.layered.shortId_mem_tree_iff hc ht hhead, fun n hn => ?_⟩⟩
  exact ((hd.layered.mem_tree_iff hc ht).mp (List.mem_map_of_mem hn)).1

/-- `a` and `d` are attached under `r`, `b` under both of them, `g` under
`b`, and `g` in vain under itself; then `d` is deactivated. -/
def braided : List Call :=
  let r : Text := [.char 'r']
  let a : Text := [.char 'a']
  let d : Text := [.char 'd']
  let b : Text := [.char 'b']
  let g : Text := [.char 'g']
  [.upsert (.plain g []), .upsert (.plain b []), .upsert (.plain r []), .upsert (.plain a []),
    .upsert (.plain d []), .attach a r ⟨0⟩, .attach d r ⟨1000000⟩, .attach b a ⟨2000000⟩,
    .attach b d ⟨3000000⟩, .attach g b ⟨4000000⟩, .attach g g ⟨5000000⟩, .deactivate d ⟨6000000⟩]

/-- The tree of `d` holds `d`, `b` and `g`. -/
theorem hierarchies_of_orderly_run_braided :
    Orderly (empty {}) braided
      ∧ (∀ s, (run {} braided).StoredLists [.char 'g'] s → (run {} braided).has s = true)
      ∧ ∃ t, (run {} braided).tree [.char 'd'] = .ok t
        ∧ t.walk.map Tree.shortId = [[.char 'd'], [.char 'b'], [.char 'g']]
        ∧ (∀ s, s ∈ t.walk.map Tree.shortId
          ↔ s = [.char 'd'] ∨ (run {} braided).StoredLists s [.char 'd']) := by
  have h : Orderly (empty {}) braided := by decide +kernel
  obtain ⟨hstored, -, -, htrees⟩ := hierarchies_of_orderly_run {} h
  obtain ⟨-, htree⟩ := htrees [.char 'd'] (by decide +kernel)
  have hids : ((run {} braided).tree [.char 'd']).toOption.map (fun t => t.walk.map Tree.shortId)
      = some [[.char 'd'], [.char 'b'], [.char 'g']] := by
    decide +kernel
  obtain ⟨t, ht, hids⟩ := map_toOption_eq_some_iff.mp hids
  obtain ⟨-, hlists, -⟩ := htree t ht
  exact ⟨h, hstored _, t, ht, hids, hlists⟩

end Lineage.Directory
