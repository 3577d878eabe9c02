/-
Lineage.Proofs.Directory.Shown — the texts of what is shown.

A view that a display answers is the annotated view of a collection of
stored records, whether it was kept or built (`exists_of_display`), and
the stored records are among those that were put into the store
(`mem_of_upsertAll`).  So what holds of the texts of all records and
annotations holds of the texts of the views (`allTexts_of_display`).
-/
import Lineage.Proofs.Directory.Display
import Lineage.Proofs.Directory.Layered
import Lineage.Proofs.Hierarchy.Covering
import Lineage.Proofs.Hierarchy.Payload

namespace Lineage

/-! ## The texts of views -/

namespace View

variable {good : Text → Prop}

/-- The texts of a view are those of the groups of its tree. -/
theorem allTexts_of_ofTree? {α : Type} [Grouped α] {t : Tree α} {v : View} (h : ofTree? t = some v)
    (hgood : ∀ n ∈ t.walk, good (Grouped.group n.member).shortId
      ∧ good (Grouped.group n.member).name ∧ good (Grouped.group n.member).description) :
    v.AllTexts good := by
  induction t using Tree.children_induction generalizing v with
  | node t ih =>
    obtain ⟨-, rfl⟩ := ofTree?_eq_some_iff.mp h
    obtain ⟨hs, hn, hd⟩ := hgood t (Tree.mem_walk_self t)
    refine .node hs hn hd (fun _ hr => absurd hr List.not_mem_nil) fun w hw => ?_
    obtain ⟨child, hchild, hview⟩ := mem_ofTrees hw
    exact ih child hchild hview fun n hn => hgood n (Tree.mem_walk_of_child hchild hn)

mutual

/-- Annotations add their own texts to a view. -/
theorem allTexts_enrich {acls : List Acl}
    (hacls : ∀ a ∈ acls, (∀ t ∈ a.localName, good t) ∧ ∀ r ∈ a.roles, good r) :
    ∀ {v : View}, v.AllTexts good → (v.enrich acls).AllTexts good
  | .node s n d children roles, h => by
    cases h with
    | node hs hn hd hroles hchildren =>
      have hall := allTexts_enrichAll hacls hchildren
      rw [enrich]
      split
      · exact .node hs hn hd hroles hall
      · rename_i a ha
        obtain ⟨hlocal, hr⟩ := hacls a (List.mem_of_find?_eq_some ha)
        refine .node hs ?_ hd hr hall
        split
        · rename_i name hname
          split_ifs
          · exact hn
          · exact hlocal name hname
        · exact hn

theorem allTexts_enrichAll {acls : List Acl}
    (hacls : ∀ a ∈ acls, (∀ t ∈ a.localName, good t) ∧ ∀ r ∈ a.roles, good r) :
    ∀ {vs : List View}, (∀ v ∈ vs, v.AllTexts good) → ∀ v ∈ enrichAll acls vs, v.AllTexts good
  | [], _ => fun _ hv => absurd hv List.not_mem_nil
  | _ :: _, h => by
    obtain ⟨hv, hrest⟩ := List.forall_mem_cons.mp h
    rw [enrichAll]
    exact List.forall_mem_cons.mpr ⟨allTexts_enrich hacls hv, allTexts_enrichAll hacls hrest⟩

end

end View

namespace Directory

variable {d : Directory} {acls : List Acl} {now : Clock}

/-! ## Stored records -/

/-- Storing records brings no others into the store. -/
theorem mem_of_upsertAll {gs : List Group} {x : Text} {g : Group}
    (h : (d.upsertAll gs).records.get? x = some g) : d.records.get? x = some g ∨ g ∈ gs := by
  induction gs generalizing d with
  | nil => exact .inl h
  | cons first rest ih =>
    rcases ih (d := d.upsert first) h with h | h
    · by_cases hv : first.virtual = true
      · rw [upsert_of_virtual hv] at h
        exact .inl h
      · rw [get?_records_upsert (Bool.eq_false_iff.mpr hv)] at h
        split_ifs at h
        · exact .inr (Option.some.inj h ▸ List.mem_cons_self)
        · exact .inl h
    · exact .inr (List.mem_cons_of_mem _ h)

/-- A store into which records were put one after the other is
consistent, and keeps no collection. -/
theorem consistent_and_current_upsertAll (policy : GroupPolicy) (gs : List Group) :
    Consistent ((empty policy).upsertAll gs) ∧ Current ((empty policy).upsertAll gs) := by
  have hrun := consistent_and_current_run policy (gs.map .upsert)
  rw [run, List.foldl_map] at hrun
  exact hrun

theorem policy_upsertAll (gs : List Group) : (d.upsertAll gs).policy = d.policy := by
  induction gs generalizing d with
  | nil => rfl
  | cons g rest ih => exact (ih (d := d.upsert g)).trans (policy_upsert d g)

/-- Storing records keeps no collection. -/
theorem cache_upsertAll (hempty : d.cache = []) (gs : List Group) :
    (d.upsertAll gs).cache = [] := by
  induction gs generalizing d with
  | nil => exact hempty
  | cons g rest ih =>
    refine ih (d := d.upsert g) ?_
    by_cases hv : g.virtual = true
    · rw [upsert_of_virtual hv]
      exact hempty
    · rw [upsert_eq (Bool.eq_false_iff.mpr hv)]
      dsimp only
      rw [hempty]
      rfl

/-! ## Displays -/

/-- A collection that is answered is the one that a build gives. -/
theorem Current.buildCollection_of_getCollection (h : Current d) {head : Text}
    {c : Collection Group} (hc : (d.getCollection head now).2 = .ok c) :
    d.buildCollection head = .ok c := by
  unfold Directory.getCollection at hc
  split at hc
  · exact mapError_eq_ok_iff.mp hc
  · split at hc
    · rename_i k hk
      obtain ⟨hmem, rfl⟩ := mem_cache_of_fresh? hk
      obtain rfl : k.collection = c := Except.ok.inj hc
      exact h k hmem
    · have hbuild : ({ d with counts := { d.counts with misses := d.counts.misses + 1 } } :
          Directory).buildCollection head = d.buildCollection head :=
        SameRecords.buildCollection_eq ⟨rfl, rfl, rfl⟩ head
      dsimp only at hc
      rw [hbuild] at hc
      split at hc
      · cases hc
      · rename_i hbuild
        split at hc
        · cases hc
        · obtain rfl := Except.ok.inj hc
          exact hbuild

/-- A view that is shown is the annotated view of a collection that a
build gives. -/
theorem Current.exists_of_displayOne (h : Current d) {head : Text} {v : View}
    (hv : (d.displayOne acls now head).2 = .ok v) :
    ∃ c w, d.buildCollection head = .ok c ∧ View.ofCollection c = .ok w ∧ v = w.enrich acls := by
  unfold displayOne at hv
  split at hv
  · cases hv
  · cases hv
  · rename_i c hc
    split at hv
    · cases hv
    · rename_i w hw
      obtain rfl := Except.ok.inj hv
      exact ⟨c, w, h.buildCollection_of_getCollection (congrArg Prod.snd hc), hw, rfl⟩

/-- Each of the views of a display is the annotated view of a collection
that a build gives. -/
theorem Current.exists_of_display (h : Current d) {heads : List Text} {views : List View}
    (hviews : (Directory.display acls now d heads).2 = .ok views) :
    ∀ v ∈ views, ∃ head c w, d.buildCollection head = .ok c ∧ View.ofCollection c = .ok w
      ∧ v = w.enrich acls := by
  rw [display_snd] at hviews
  induction heads generalizing d views with
  | nil =>
    obtain rfl := Except.ok.inj hviews
    exact fun v hv => absurd hv List.not_mem_nil
  | cons head rest ih =>
    obtain ⟨view, hone, hrest⟩ := bind_eq_ok_iff.mp hviews
    obtain ⟨more, hmore, heq⟩ := bind_eq_ok_iff.mp hrest
    obtain rfl := Except.ok.inj heq
    refine List.forall_mem_cons.mpr ⟨⟨head, h.exists_of_displayOne hone⟩, fun v hv => ?_⟩
    rw [displayOne_fst] at hmore
    obtain ⟨head, c, w, hbuild, hw⟩ := ih (h.getCollection head now) hmore v hv
    rw [(getCollection_fst d _ now).1.buildCollection_eq] at hbuild
    exact ⟨head, c, w, hbuild, hw⟩

/-- What holds of the texts of all stored records and of the annotations
holds of the texts of the views. -/
theorem allTexts_of_display {good : Text → Prop} (hc : Consistent d) (h : Current d)
    {heads : List Text} {views : List View}
    (hgroups : ∀ x g, d.records.get? x = some g →
      good g.shortId ∧ good g.name ∧ good g.description)
    (hacls : ∀ a ∈ acls, (∀ t ∈ a.localName, good t) ∧ ∀ r ∈ a.roles, good r)
    (hviews : (Directory.display acls now d heads).2 = .ok views) :
    ∀ v ∈ views, v.AllTexts good := by
  intro v hv
  obtain ⟨head, c, w, hbuild, hw, rfl⟩ := h.exists_of_display hviews v hv
  obtain ⟨t, ht, hview⟩ := View.ofCollection_eq_ok_iff.mp hw
  refine View.allTexts_enrich hacls (View.allTexts_of_ofTree? hview fun n hn => ?_)
  have hmember := Collection.mem_members_of_mem_hierarchy ht hn
  exact hgroups _ _ ((hc.mem_members_iff hbuild).mp hmember).1

end Directory

end Lineage
