/-
Lineage.Proofs.Hierarchy.Payload — views as documents.

The document value of a view says under five names what the view holds,
and a check looks each of them up, so that any value like it, in whatever
order its fields stand, is read as the view (`View.check_of_alike`).  A
view whose texts are whole is legible, with room for two brackets per
group on a way down (`View.legible_toValues`); so a list of views can be
written to a file and read back, however deep and wide they are
(`View.readBack_writeViews`).  The views of collections are at most nine
groups deep (`View.height_of_ofCollection`).
-/
import Lineage.Proofs.Directory.Depth
import Lineage.Proofs.Files.Documents
import Lineage.Proofs.Group.Ids
import Lineage.Proofs.Hierarchy.Visibility

namespace Lineage

/-! ## Reading lists and fields of like values -/

namespace Value

theorem Alike.scalar_iff {v : Value} {s : Scalar} : v.Alike (.scalar s) ↔ v = .scalar s := by
  constructor
  · intro h
    cases h
    rfl
  · rintro rfl
    exact .scalar s

/-- What is like an array is an array of like items. -/
theorem Alike.exists_items {v : Value} {others : List Value} (h : v.Alike (.array others)) :
    ∃ items, v = .array items ∧ List.Forall₂ Alike items others := by
  cases h with
  | @array items _ hlength h =>
    refine ⟨items, rfl, List.forall₂_iff_get.mpr ⟨hlength, fun i hi hj => ?_⟩⟩
    exact h i _ _ (List.getElem?_eq_getElem hi) (List.getElem?_eq_getElem hj)

/-- What is like an object holds a like value under every name. -/
theorem Alike.exists_fields {v : Value} {others : Fields} (h : v.Alike (.object others)) :
    ∃ fields, v = .object fields ∧ ∀ name w, others.get? name = some w →
      ∃ u, Keyed.get? fields name = some u ∧ u.Alike w := by
  cases h with
  | @object fields _ hnames h =>
    refine ⟨fields, rfl, fun name w hw => ?_⟩
    have hsome := hnames name
    rw [hw, Option.isSome_some] at hsome
    obtain ⟨u, hu⟩ := Option.isSome_iff_exists.mp hsome
    exact ⟨u, hu, h name u w hu hw⟩

end Value

namespace Schema

variable {α β : Type}

theorem Checked.items_eq_ok_iff {check : α → Checked β} {index : Nat} {xs : List α} {ys : List β} :
    Checked.items check index xs = .ok ys ↔ List.Forall₂ (fun x y => check x = .ok y) xs ys := by
  induction xs generalizing index ys with
  | nil => simp [Checked.items, eq_comm]
  | cons x rest ih =>
    rw [List.forall₂_cons_left_iff]
    simp only [← @ih (index + 1)]
    rw [Checked.items]
    cases hx : check x <;> cases hrest : Checked.items check (index + 1) rest <;>
      simp [Checked.below, Checked.apply, eq_comm]

theorem checkTexts_of_alike {v : Value} {ts : List Text} (h : v.Alike (Group.texts ts)) :
    checkTexts v = .ok ts := by
  obtain ⟨items, rfl, hitems⟩ := h.exists_items
  rw [checkTexts, Checked.items_eq_ok_iff]
  rw [List.forall₂_map_right_iff] at hitems
  refine hitems.imp fun v t hv => ?_
  rw [Value.Alike.scalar_iff.mp hv]
  rfl

end Schema

namespace View

open Schema

/-! ## Checking what was written -/

mutual

/-- The greatest number of groups on a way down from the root. -/
def height : View → Nat
  | .node _ _ _ children _ => heightAll children + 1

/-- The greatest height of the views of a list. -/
def heightAll : List View → Nat
  | [] => 0
  | v :: rest => max (height v) (heightAll rest)

end

theorem heightAll_le_iff {vs : List View} {k : Nat} :
    heightAll vs ≤ k ↔ ∀ v ∈ vs, v.height ≤ k := by
  induction vs with
  | nil => simp [heightAll]
  | cons v rest ih => rw [heightAll, Nat.max_le, List.forall_mem_cons, ih]

theorem toValues_eq_map (vs : List View) : toValues vs = vs.map toValue := by
  induction vs with
  | nil => rfl
  | cons v rest ih => rw [toValues, ih, List.map_cons]

theorem checkWithin_object {fuel : Nat} {fields : Fields} {s n d : Text} {children : List View}
    {roles : List Text} {items : List Value} {texts : Value}
    (hs : fields.get? (.text "shortId") = some (.text s))
    (hn : fields.get? (.text "name") = some (.text n))
    (hd : fields.get? (.text "description") = some (.text d))
    (hc : fields.get? (.text "children") = some (.array items))
    (hr : fields.get? (.text "roles") = some texts)
    (hitems : List.Forall₂ (fun v c => checkWithin fuel v = .ok c) items children)
    (htexts : checkTexts texts = .ok roles) :
    checkWithin (fuel + 1) (.object fields) = .ok (.node s n d children roles) := by
  have hitems : Checked.items (checkWithin fuel) 0 items = .ok children :=
    Checked.items_eq_ok_iff.mpr hitems
  simp only [checkWithin, required, Schema.optional, optionalChecked, FieldName.find, hs, hn, hd,
    hc, hr, hitems, htexts]
  rfl

mutual

/-- A value like that of a view is read as the view. -/
theorem checkWithin_of_alike : ∀ (v : View) {w : Value} {fuel : Nat}, w.Alike v.toValue →
    v.height ≤ fuel → checkWithin fuel w = .ok v
  | .node s n d children roles, w, fuel, h, hfuel => by
    rw [toValue] at h
    obtain ⟨fields, rfl, hfields⟩ := h.exists_fields
    obtain ⟨_, hs, hshortId⟩ := hfields (.text "shortId") (.text s) rfl
    obtain ⟨_, hn, hname⟩ := hfields (.text "name") (.text n) rfl
    obtain ⟨_, hd, hdescription⟩ := hfields (.text "description") (.text d) rfl
    obtain ⟨_, hc, hchildren⟩ := hfields (.text "children") (.array (toValues children)) rfl
    obtain ⟨_, hr, hroles⟩ := hfields (.text "roles") (Group.texts roles) rfl
    obtain rfl := Value.Alike.scalar_iff.mp hshortId
    obtain rfl := Value.Alike.scalar_iff.mp hname
    obtain rfl := Value.Alike.scalar_iff.mp hdescription
    obtain ⟨items, rfl, hitems⟩ := hchildren.exists_items
    rw [height] at hfuel
    obtain ⟨fuel, rfl⟩ : ∃ k, fuel = k + 1 := ⟨fuel - 1, by omega⟩
    exact checkWithin_object hs hn hd hc hr (checkWithin_of_alikes children hitems (by omega))
      (checkTexts_of_alike hroles)

theorem checkWithin_of_alikes : ∀ (vs : List View) {ws : List Value} {fuel : Nat},
    List.Forall₂ Value.Alike ws (toValues vs) → heightAll vs ≤ fuel →
      List.Forall₂ (fun w v => checkWithin fuel w = .ok v) ws vs
  | [], ws, fuel, h, _ => by
    cases h
    exact .nil
  | v :: rest, ws, fuel, h, hfuel => by
    rw [heightAll, Nat.max_le] at hfuel
    obtain ⟨w, more, hw, hmore, rfl⟩ := List.forall₂_cons_right_iff.mp h
    exact .cons (checkWithin_of_alike v hw hfuel.1) (checkWithin_of_alikes rest hmore hfuel.2)

end

theorem nesting_le_of_get? {fields : Fields} {name : Scalar} {v : Value}
    (h : fields.get? name = some v) : nesting v ≤ nestingFields fields := by
  induction fields with
  | nil => cases h
  | cons f rest ih =>
    rw [nestingFields]
    rw [Keyed.get?] at h
    split at h
    · obtain rfl := Option.some.inj h
      exact Nat.le_max_left _ _
    · exact (ih h).trans (Nat.le_max_right _ _)

mutual

/-- A value like that of a view is nested at least as deep as the view is
high. -/
theorem height_le_nesting : ∀ (v : View) {w : Value}, w.Alike v.toValue → v.height ≤ nesting w
  | .node s n d children roles, w, h => by
    rw [toValue] at h
    obtain ⟨fields, rfl, hfields⟩ := h.exists_fields
    obtain ⟨_, hc, hchildren⟩ := hfields (.text "children") (.array (toValues children)) rfl
    obtain ⟨items, rfl, hitems⟩ := hchildren.exists_items
    have hnested := nesting_le_of_get? hc
    have hall := heightAll_le_nestingAll children hitems
    rw [nesting] at hnested
    rw [height, nesting]
    omega

theorem heightAll_le_nestingAll : ∀ (vs : List View) {ws : List Value},
    List.Forall₂ Value.Alike ws (toValues vs) → heightAll vs ≤ nestingAll ws
  | [], _, _ => Nat.zero_le _
  | v :: rest, ws, h => by
    obtain ⟨w, more, hw, hmore, rfl⟩ := List.forall₂_cons_right_iff.mp h
    have hfirst := height_le_nesting v hw
    have hrest := heightAll_le_nestingAll rest hmore
    rw [heightAll, nestingAll]
    omega

end

/-- A value like that of a view is checked as the view. -/
theorem check_of_alike {v : View} {w : Value} (h : w.Alike v.toValue) : check w = .ok v := by
  rw [check, checkWithin_of_alike v h (height_le_nesting v h)]
  rfl

/-- Values like those of views are checked as the views. -/
theorem mapM_check_of_alike {vs : List View} {w : Value} (h : w.Alike (.array (toValues vs))) :
    ∃ payloads, w = .array payloads ∧ payloads.mapM check = .ok vs := by
  obtain ⟨payloads, rfl, hitems⟩ := h.exists_items
  rw [toValues_eq_map, List.forall₂_map_right_iff] at hitems
  exact ⟨payloads, rfl, mapM_eq_ok_iff.mpr (hitems.imp fun _ _ => check_of_alike)⟩

/-! ## Views are legible -/

/-- All texts of the view are good. -/
inductive AllTexts (good : Text → Prop) : View → Prop
  | node {s n d : Text} {children : List View} {roles : List Text} (hs : good s) (hn : good n)
      (hd : good d) (hroles : ∀ r ∈ roles, good r) (hchildren : ∀ c ∈ children, c.AllTexts good) :
      AllTexts good (.node s n d children roles)

/-- No text of the view holds a surrogate. -/
def Whole (v : View) : Prop :=
  v.AllTexts fun t => t.isBroken = false

variable {good : Text → Prop}

theorem allTexts_iff {s n d : Text} {children : List View} {roles : List Text} :
    AllTexts good (.node s n d children roles)
      ↔ good s ∧ good n ∧ good d ∧ (∀ r ∈ roles, good r) ∧ ∀ c ∈ children, c.AllTexts good := by
  constructor
  · rintro ⟨hs, hn, hd, hroles, hchildren⟩
    exact ⟨hs, hn, hd, hroles, hchildren⟩
  · rintro ⟨hs, hn, hd, hroles, hchildren⟩
    exact .node hs hn hd hroles hchildren

mutual

instance decidableAllTexts [DecidablePred good] : (v : View) → Decidable (v.AllTexts good)
  | .node _ _ _ children _ =>
    letI := decidableForallAllTexts children
    decidable_of_iff _ allTexts_iff.symm

instance decidableForallAllTexts [DecidablePred good] :
    (vs : List View) → Decidable (∀ v ∈ vs, v.AllTexts good)
  | [] => isTrue fun _ hv => absurd hv List.not_mem_nil
  | v :: rest =>
    letI := decidableAllTexts v
    letI := decidableForallAllTexts rest
    decidable_of_iff _ List.forall_mem_cons.symm

end

instance (v : View) : Decidable v.Whole :=
  inferInstanceAs (Decidable (v.AllTexts fun t => t.isBroken = false))

theorem AllTexts.imp {fine : Text → Prop} {v : View} (h : v.AllTexts good)
    (hgood : ∀ t, good t → fine t) : v.AllTexts fine := by
  induction h with
  | node hs hn hd hroles _ ih =>
    exact .node (hgood _ hs) (hgood _ hn) (hgood _ hd) (fun r hr => hgood r (hroles r hr)) ih

/-- A group takes the room of two brackets: its own and that of its
children. -/
theorem AllTexts.legible (hchars : ∀ cs, good (.ofChars cs)) {v : View} (h : v.AllTexts good) :
    Json.Legible good (2 * v.height) v.toValue := by
  induction h with
  | @node s n d children roles hs hn hd hroles _ ih =>
    have hitems : Json.Legible good (2 * heightAll children + 1)
        (.array (toValues children)) := by
      refine .array fun w hw => ?_
      rw [toValues_eq_map] at hw
      obtain ⟨c, hc, rfl⟩ := List.mem_map.mp hw
      exact (ih c hc).mono (fun _ ht => ht)
        (Nat.mul_le_mul_left 2 (heightAll_le_iff.mp (Nat.le_refl _) c hc))
    have htexts : Json.Legible good (2 * heightAll children + 1) (Group.texts roles) := by
      refine .array fun w hw => ?_
      obtain ⟨r, hr, rfl⟩ := List.mem_map.mp hw
      exact .text _ (hroles r hr)
    have hroom : 2 * height (.node s n d children roles) = (2 * heightAll children + 1) + 1 := by
      rw [height]
      omega
    have hname (name : String) : ∃ t, Scalar.text name = .text t ∧ good t :=
      ⟨_, rfl, hchars name.toList⟩
    rw [hroom, toValue]
    refine .object ?_ ?_ ?_
    · simp only [List.forall_mem_cons]
      exact ⟨hname _, hname _, hname _, hname _, hname _, fun _ hf => absurd hf List.not_mem_nil⟩
    · change List.Pairwise _ ([.text "shortId", .text "name", .text "description",
        .text "children", .text "roles"] : List Scalar)
      decide
    · simp only [List.forall_mem_cons]
      exact ⟨.text _ hs, .text _ hn, .text _ hd, hitems, htexts,
        fun _ hf => absurd hf List.not_mem_nil⟩

/-- The list of some views. -/
theorem legible_toValues (hchars : ∀ cs, good (.ofChars cs)) {vs : List View}
    (h : ∀ v ∈ vs, v.AllTexts good) :
    Json.Legible good (2 * heightAll vs + 1) (.array (toValues vs)) := by
  refine .array fun w hw => ?_
  rw [toValues_eq_map] at hw
  obtain ⟨v, hv, rfl⟩ := List.mem_map.mp hw
  exact ((h v hv).legible hchars).mono (fun _ ht => ht)
    (Nat.mul_le_mul_left 2 (heightAll_le_iff.mp (Nat.le_refl _) v hv))

/-! ## The views of collections -/

section Height

universe u

variable {α : Type u} [Grouped α]

theorem mem_ofTrees {ts : List (Tree α)} {v : View} (h : v ∈ ofTrees ts) :
    ∃ t ∈ ts, ofTree? t = some v := by
  induction ts with
  | nil => cases h
  | cons t rest ih =>
    rw [ofTrees] at h
    cases ht : ofTree? t with
    | none =>
      rw [ht] at h
      obtain ⟨u, hu, huv⟩ := ih h
      exact ⟨u, List.mem_cons_of_mem _ hu, huv⟩
    | some w =>
      rw [ht] at h
      rcases List.mem_cons.mp h with rfl | h
      · exact ⟨t, List.mem_cons_self, ht⟩
      · obtain ⟨u, hu, huv⟩ := ih h
        exact ⟨u, List.mem_cons_of_mem _ hu, huv⟩

/-- A view is no higher than its tree is deep. -/
theorem height_of_ofTree? {t : Tree α} {v : View} (h : ofTree? t = some v) (hk : t.PathsKept)
    {limit : Nat} (hlimit : ∀ n ∈ t.walk, n.depth ≤ limit) : t.depth + v.height ≤ limit + 1 := by
  induction t using Tree.children_induction generalizing v with
  | node t ih =>
    obtain ⟨-, rfl⟩ := ofTree?_eq_some_iff.mp h
    have hroot := hlimit t (Tree.mem_walk_self t)
    have hchildren : heightAll (ofTrees t.children) ≤ limit - t.depth := by
      refine heightAll_le_iff.mpr fun w hw => ?_
      obtain ⟨child, hchild, hview⟩ := mem_ofTrees hw
      have hbelow := ih child hchild hview (hk.child hchild) fun n hn =>
        hlimit n (Tree.mem_walk_of_child hchild hn)
      have hdepth := hk.depth_child (Tree.mem_walk_self t) hchild
      omega
    rw [height]
    omega

/-- The views of collections are at most nine groups high. -/
theorem height_of_ofCollection {c : Collection α} {v : View} (h : ofCollection c = .ok v) :
    v.height ≤ 9 := by
  obtain ⟨t, ht, hv⟩ := ofCollection_eq_ok_iff.mp h
  have hheight := height_of_ofTree? hv (Collection.pathsKept_hierarchy ht) fun n hn =>
    (Collection.depth_le ht hn).1
  omega

end Height

mutual

theorem height_enrich (acls : List Acl) : ∀ v : View, (enrich acls v).height = v.height
  | .node s n d children roles => by
    rw [enrich]
    split <;> rw [height, height, heightAll_enrichAll acls children]

theorem heightAll_enrichAll (acls : List Acl) : ∀ vs : List View,
    heightAll (enrichAll acls vs) = heightAll vs
  | [] => rfl
  | v :: rest => by
    rw [enrichAll, heightAll, heightAll, height_enrich acls v, heightAll_enrichAll acls rest]

end

/-! ## Writing views and reading them back -/

/-- Views that were written are read from the file as they were, the
order of the fields apart. -/
theorem readText_of_writeViews {views : List View} {f g : Files} {p : Path}
    (h : ∀ v ∈ views, v.AllTexts Json.Unpaired) (hwrite : f.writeViews p views = (g, none)) :
    ∃ cs, g.readText p = .ok cs ∧ ∀ room, 2 * heightAll views + 1 ≤ room →
      ∃ w, Json.readWithin room (.ofChars cs) = .ok w ∧ w.Alike (.array (toValues views)) := by
  have hlegible := legible_toValues Json.unpaired_ofChars h
  obtain ⟨cs, hcs, hjson⟩ :=
    Files.readText_of_writeDocument hlegible Files.spaced_documentStyle hwrite
  exact ⟨cs, hcs, fun room hroom => ⟨_, hjson room hroom, hlegible.alike_arranged⟩⟩

/-- The room that there is suffices for views of collections. -/
theorem room_of_ofCollection {views : List View}
    (h : ∀ v ∈ views, ∃ (c : Collection Group) (w : View) (acls : List Acl),
      ofCollection c = .ok w ∧ v = enrich acls w) :
    2 * heightAll views + 1 ≤ Json.maxNesting := by
  have hheight : heightAll views ≤ 9 := heightAll_le_iff.mpr fun v hv => by
    obtain ⟨c, w, acls, hw, rfl⟩ := h v hv
    rw [height_enrich]
    exact height_of_ofCollection hw
  rw [Json.maxNesting]
  omega

/-- Views without surrogates can be written wherever a file can be. -/
theorem fault_writeViews {views : List View} (h : ∀ v ∈ views, v.Whole) (f : Files) (p : Path) :
    (f.writeViews p views).2 = (f.writeText p []).2 :=
  Files.fault_writeDocument
    (legible_toValues (fun cs => Text.isBroken_eq_false_iff.mpr ⟨cs, rfl⟩) h)
    Files.spaced_documentStyle f p

/-- Views whose texts are whole can be written wherever a file can be.
What is then read from the file, with room for two brackets per group on
a way down, are the views that were written.  The room that there is
suffices for all views of collections. -/
theorem readBack_writeViews {views : List View} (hwhole : ∀ v ∈ views, v.Whole) (f : Files)
    (p : Path) :
    (f.writeViews p views).2 = (f.writeText p []).2
      ∧ (∀ g, f.writeViews p views = (g, none) →
        ∃ cs, g.readText p = .ok cs ∧ ∀ room, 2 * heightAll views + 1 ≤ room →
          ∃ payloads, Json.readWithin room (.ofChars cs) = .ok (.array payloads)
            ∧ payloads.mapM check = .ok views)
      ∧ ((∀ v ∈ views, ∃ (c : Collection Group) (w : View) (acls : List Acl),
          ofCollection c = .ok w ∧ v = enrich acls w) →
        2 * heightAll views + 1 ≤ Json.maxNesting) := by
  have hunpaired : ∀ v ∈ views, v.AllTexts Json.Unpaired := fun v hv =>
    (hwhole v hv).imp fun _ => Json.unpaired_of_isBroken
  refine ⟨fault_writeViews hwhole f p, fun g hg => ?_, room_of_ofCollection⟩
  obtain ⟨cs, hcs, hjson⟩ := readText_of_writeViews hunpaired hg
  refine ⟨cs, hcs, fun room hroom => ?_⟩
  obtain ⟨w, hw, halike⟩ := hjson room hroom
  obtain ⟨payloads, rfl, hcheck⟩ := mapM_check_of_alike halike
  exact ⟨payloads, hw, hcheck⟩

/-- Quotes, line ends, control characters and characters beyond the first
plane survive, and so do roles and children. -/
theorem readBack_writeViews_marks :
    let view : View := .node "r" "\"R\\ \u00e9 🌲\"" "one\r\ntwo\x01"
      [.node "a" "" "" [] ["admin", "🌲"], .node "b" "</b>" "" [.node "c" "C" "" [] []] []] []
    ∃ g cs payloads, ({} : Files).writeViews (Path.ofText "out/views.json") [view] = (g, none)
      ∧ g.readText (Path.ofText "out/views.json") = .ok cs
      ∧ Json.read (.ofChars cs) = .ok (.array payloads) ∧ payloads.mapM check = .ok [view] := by
  intro view
  have hwhole : ∀ v ∈ [view], v.Whole := by decide
  obtain ⟨hfault, hread, -⟩ := readBack_writeViews hwhole {} (Path.ofText "out/views.json")
  have hwritable : (({} : Files).writeText (Path.ofText "out/views.json") []).2 = none := by
    decide +kernel
  have hwrite := Prod.eta (({} : Files).writeViews (Path.ofText "out/views.json") [view])
  rw [hfault, hwritable] at hwrite
  obtain ⟨cs, hcs, hjson⟩ := hread _ hwrite.symm
  obtain ⟨payloads, hpayloads, hcheck⟩ := hjson Json.maxNesting (by decide)
  exact ⟨_, cs, payloads, hwrite.symm, hcs, hpayloads, hcheck⟩

end View

end Lineage
