/-
Lineage.Proofs.Value.Viewing — what is seen of values that share parts.

What is seen of a value down to a depth is a document value, in which
nothing tells how often a part was shared.  It stays the same when the
heap goes on behind it (`Heap.view_of_kept`), when the heap is moved
behind another one (`Heap.view_beside`), and it is the value itself, cut
at the depth, where one was put into the heap (`Heap.view_plant`).  So
laying one object over another, which shares with both what only one of
them holds, is merging what is seen of them (`Mapping.view_lay`).
-/
import Lineage.Proofs.Value.Merging
import Lineage.Value.Laying

namespace Lineage

namespace Heap

variable {h h' : Heap}

/-! ## Heaps that go on -/

theorem getElem?_of_kept (hkept : h <+: h') {n : Nat} (hn : n < h.length) : h'[n]? = h[n]? := by
  obtain ⟨more, rfl⟩ := hkept
  exact List.getElem?_append_left hn

theorem links?_of_kept (hkept : h <+: h') (hr : r.Within h.length) : h'.links? r = h.links? r := by
  cases r with
  | scalar s => rfl
  | place n =>
    unfold links? body?
    dsimp only
    rw [getElem?_of_kept hkept hr]

/-- What stands at a place of a sound heap. -/
theorem Sound.exists_body (hs : h.Sound) {n : Nat} (hn : n < h.length) :
    ∃ b, h[n]? = some b ∧ b.Within h.length :=
  ⟨h[n], List.getElem?_eq_getElem hn, hs _ (List.getElem_mem hn)⟩

/-- What is seen of a value depends on the places it can refer to alone. -/
theorem view_of_kept (hs : h.Sound) (hkept : h <+: h') (depth : Nat) {r : Ref}
    (hr : r.Within h.length) : h'.view depth r = h.view depth r := by
  induction depth generalizing r with
  | zero =>
    cases r with
    | scalar s => rfl
    | place n => rw [view, view, getElem?_of_kept hkept hr]
  | succ depth ih =>
    cases r with
    | scalar s => rfl
    | place n =>
      obtain ⟨b, hb, hwithin⟩ := hs.exists_body hr
      rw [view, view, getElem?_of_kept hkept hr, hb]
      cases b with
      | items kind parts =>
        exact congrArg Value.array (List.map_congr_left fun q hq => ih (hwithin q hq))
      | fields links =>
        exact congrArg Value.object
          (List.map_congr_left fun l hl => congrArg (l.1, ·) (ih (hwithin.refs l hl)))

theorem viewLinks_of_kept (hs : h.Sound) (hkept : h <+: h') (depth : Nat) {links : Links}
    (hlinks : Links.Within h.length links) : h'.viewLinks depth links = h.viewLinks depth links :=
  List.map_congr_left fun l hl => congrArg (l.1, ·) (view_of_kept hs hkept depth (hlinks.refs l hl))

/-! ## Heaps side by side -/

theorem prefix_beside (h g : Heap) : h <+: h.beside g :=
  List.prefix_append h _

theorem getElem?_beside (h g : Heap) (n : Nat) :
    (h.beside g)[n + h.length]? = g[n]?.map (Body.shift h.length) := by
  rw [beside, List.getElem?_append_right (Nat.le_add_left _ _), Nat.add_sub_cancel,
    List.getElem?_map]

/-- What is seen of a value is the same where its heap stands behind
another one. -/
theorem view_beside (h g : Heap) (depth : Nat) (r : Ref) :
    (h.beside g).view depth (r.shift h.length) = g.view depth r := by
  induction depth generalizing r with
  | zero =>
    cases r with
    | scalar s => rfl
    | place n =>
      rw [Ref.shift, view, view, getElem?_beside]
      rcases g[n]? with _ | _ | _ <;> rfl
  | succ depth ih =>
    cases r with
    | scalar s => rfl
    | place n =>
      rw [Ref.shift, view, view, getElem?_beside]
      rcases g[n]? with _ | ⟨kind, parts⟩ | links
      · rfl
      · exact congrArg Value.array (by simp [ih])
      · exact congrArg Value.object (by simp [Links.shift, ih])

theorem viewLinks_beside (h g : Heap) (depth : Nat) (links : Links) :
    (h.beside g).viewLinks depth (Links.shift h.length links) = g.viewLinks depth links := by
  simp [viewLinks, Links.shift, view_beside]

/-- A value that is seen as a scalar is one. -/
theorem eq_scalar_of_view (hs : h.Sound) {depth : Nat} {r : Ref} (hr : r.Within h.length)
    {c : Scalar} (hview : h.view depth r = .scalar c) : r = .scalar c := by
  cases r with
  | scalar d =>
    rw [view] at hview
    rw [Value.scalar.inj hview]
  | place n =>
    obtain ⟨b, hb, -⟩ := hs.exists_body hr
    cases depth <;> cases b <;> simp [view, hb] at hview

/-! ## Fields -/

theorem get?_viewLinks (h : Heap) (depth : Nat) (links : Links) (name : Scalar) :
    Keyed.get? (h.viewLinks depth links) name = (Keyed.get? links name).map (h.view depth) :=
  Keyed.get?_map links (h.view depth) name

theorem viewLinks_put (h : Heap) (depth : Nat) (links : Links) (name : Scalar) (r : Ref) :
    h.viewLinks depth (Keyed.put links name r)
      = Keyed.put (h.viewLinks depth links) name (h.view depth r) :=
  Keyed.map_put links (h.view depth) name r

/-- An object is seen as one, and nothing else is. -/
theorem view_of_links? {r : Ref} {links : Links} (hlinks : h.links? r = some links) :
    h.view 0 r = .object []
      ∧ ∀ depth, h.view (depth + 1) r = .object (h.viewLinks depth links) := by
  unfold links? body? at hlinks
  split at hlinks
  · rename_i hbody
    cases hlinks
    cases r with
    | scalar s => cases hbody
    | place n =>
      dsimp only at hbody
      constructor
      · rw [view, hbody]
      · intro depth
        rw [view, hbody]
        rfl
  · cases hlinks

theorem fields?_view (h : Heap) (depth : Nat) (r : Ref) :
    (h.view depth r).fields? = none ↔ h.links? r = none := by
  unfold links? body?
  cases r with
  | scalar s =>
    rw [view]
    exact iff_of_true rfl rfl
  | place n =>
    cases depth <;> rw [view] <;> rcases hb : h[n]? with _ | _ | _ <;> simp [Value.fields?, hb]

/-! ## Laying -/

/-- Laying a value over another, as far as they are seen, where the upper
one is no object or the lower one is none. -/
theorem overlay_view {q r : Ref} (hapart : h.links? q = none ∨ h.links? r = none) (depth : Nat) :
    (h.view depth q).overlay (h.view depth r) = h.view depth r := by
  rcases hapart with hq | hr
  · have hlower := (fields?_view h depth q).mpr hq
    cases hview : h.view depth q with
    | object fields => simp [hview, Value.fields?] at hlower
    | scalar s => cases h.view depth r <;> simp
    | array items => cases h.view depth r <;> simp
  · have hupper := (fields?_view h depth r).mpr hr
    cases hview : h.view depth r with
    | object fields => simp [hview, Value.fields?] at hupper
    | scalar s => simp
    | array items => simp

/-- What is seen of a new object, where the fields of two others were laid
over one another for it. -/
theorem view_laid {h₁ : Heap} {q r : Ref} {below above laid : Links} (hlaid : Laid h (h₁, laid))
    (hbelow : h.links? q = some below) (habove : h.links? r = some above)
    (hmerged : ∀ depth,
      h₁.viewLinks depth laid = merge (h.viewLinks depth below) (h.viewLinks depth above))
    (depth : Nat) :
    (h₁ ++ [Body.fields laid]).view depth (.place h₁.length)
      = (h.view depth q).overlay (h.view depth r) := by
  have hlinks : (h₁ ++ [Body.fields laid]).links? (.place h₁.length) = some laid := by
    simp [links?, body?]
  cases depth with
  | zero =>
    rw [(view_of_links? hlinks).1, (view_of_links? hbelow).1, (view_of_links? habove).1]
    simp [merge_nil]
  | succ depth =>
    rw [(view_of_links? hlinks).2, (view_of_links? hbelow).2, (view_of_links? habove).2,
      viewLinks_of_kept hlaid.sound (List.prefix_append _ _) depth hlaid.within, hmerged]
    simp

variable {lower upper : Links} {out : Heap × Links}

/-- What is seen of a field is laid over what is seen of the lower object
before the fields behind it are. -/
theorem merge_viewLinks_cons (h : Heap) (depth : Nat) (lower : Links) (name : Scalar) (r : Ref)
    (rest : List (Scalar × Ref)) :
    merge (h.viewLinks depth lower) (h.viewLinks depth ((name, r) :: rest))
      = merge (Keyed.put (h.viewLinks depth lower) name
          ((((Keyed.get? lower name).map (h.view depth)).getD .null).overlay (h.view depth r)))
        (h.viewLinks depth rest) := by
  rw [← get?_viewLinks]
  exact Value.mergeFields_cons _ _ _ _

/-- Laying fields over fields is merging what is seen of them, if it is so
for the objects within. -/
theorem viewLinks_layLinks {both : Heap → Links → Links → Option (Heap × Links)}
    (hboth : ∀ {h : Heap} {below above : Links} {out : Heap × Links}, h.Sound →
      Links.Within h.length below → Links.Within h.length above → both h below above = some out →
      Laid h out ∧ ∀ depth, out.1.viewLinks depth out.2
        = merge (h.viewLinks depth below) (h.viewLinks depth above))
    (hs : h.Sound) (hlower : Links.Within h.length lower) {fields : List (Scalar × Ref)}
    (hfields : ∀ l ∈ fields, l.2.Within h.length) (hout : layLinks both h lower fields = some out)
    (depth : Nat) :
    out.1.viewLinks depth out.2 = merge (h.viewLinks depth lower) (h.viewLinks depth fields) := by
  induction fields generalizing h lower with
  | nil =>
    cases hout
    exact (merge_nil _).symm
  | cons l rest ih =>
    obtain ⟨name, r⟩ := l
    have hr : r.Within h.length := hfields _ List.mem_cons_self
    have hrest : ∀ l ∈ rest, l.2.Within h.length := fun l hl =>
      hfields l (List.mem_cons_of_mem _ hl)
    rw [merge_viewLinks_cons]
    rw [layLinks] at hout
    split at hout
    · rename_i below above hbelow habove
      obtain ⟨q, hq, hbelow⟩ := Option.bind_eq_some_iff.mp hbelow
      split at hout
      · cases hout
      · rename_i h₁ laid hlaid
        obtain ⟨hnew, hmerged⟩ := hboth hs (hs.links? hbelow) (hs.links? habove) hlaid
        have hkept : h <+: h₁ ++ [Body.fields laid] := hnew.kept.trans (List.prefix_append _ _)
        have hle := hkept.length_le
        have hsound := hnew.sound.concat (b := .fields laid) hnew.within
        rw [ih hsound ((hlower.mono hle).put name (by simp [Ref.Within]))
          (fun l hl => (hrest l hl).mono hle) hout, viewLinks_put,
          view_laid hnew hbelow habove hmerged, hq, viewLinks_of_kept hs hkept depth hlower]
        exact congrArg (merge _) (List.map_congr_left fun l hl =>
          congrArg (l.1, ·) (view_of_kept hs hkept depth (hrest l hl)))
    · rename_i hapart
      rw [ih hs (hlower.put name hr) hrest hout, viewLinks_put]
      congr 2
      cases hq : Keyed.get? lower name with
      | none => simp
      | some q =>
        refine (overlay_view ?_ depth).symm
        rw [hq] at hapart
        cases hbelow : h.links? q with
        | none => exact .inl rfl
        | some below =>
          cases habove : h.links? r with
          | none => exact .inr rfl
          | some above => exact (hapart below above hbelow habove).elim

/-- Laying fields over fields is merging what is seen of them. -/
theorem viewLinks_lay {room : Nat} (hs : h.Sound) (hlower : Links.Within h.length lower)
    (hupper : Links.Within h.length upper) (hout : lay room h lower upper = some out)
    (depth : Nat) :
    out.1.viewLinks depth out.2 = merge (h.viewLinks depth lower) (h.viewLinks depth upper) := by
  induction room generalizing h lower upper out depth with
  | zero => cases hout
  | succ room ih =>
    refine viewLinks_layLinks (fun hs hb ha hout => ?_) hs hlower hupper.refs hout depth
    exact ⟨laid_lay hs hb ha hout, fun depth => ih hs hb ha hout depth⟩

end Heap

/-! ## Values put into a heap -/

namespace Value

/-- A value down to a depth at which arrays and objects are without their
parts. -/
def cut : Nat → Value → Value
  | _, .scalar s => .scalar s
  | 0, .array _ => .array []
  | 0, .object _ => .object []
  | depth + 1, .array items => .array (items.map (cut depth))
  | depth + 1, .object fields => .object (fields.map fun f => (f.1, cut depth f.2))

theorem get?_cut (v : Value) (depth : Nat) (name : Scalar) :
    (v.cut (depth + 1)).get? name = (v.get? name).map (cut depth) := by
  cases v with
  | scalar s => rfl
  | array items => rfl
  | object fields => exact Keyed.get?_map fields (cut depth) name

/-- At a path that does not go beyond the depth stands what stood there,
cut. -/
theorem at?_cut {depth : Nat} {path : List Scalar} (v : Value) (hdepth : path.length ≤ depth) :
    (v.cut depth).at? path = (v.at? path).map (cut (depth - path.length)) := by
  induction path generalizing depth v with
  | nil => rfl
  | cons name path ih =>
    obtain ⟨depth, rfl⟩ : ∃ d, depth = d + 1 := ⟨depth - 1, by simp at hdepth; omega⟩
    rw [at?, at?, get?_cut]
    cases v.get? name with
    | none => rfl
    | some w =>
      have hrest := ih w (Nat.le_of_succ_le_succ hdepth)
      simpa using hrest

theorem Clear.cut {depth : Nat} {path : List Scalar} {v : Value} (h : v.Clear path)
    (hdepth : path.length ≤ depth) : (v.cut depth).Clear path := by
  induction path generalizing depth v with
  | nil => trivial
  | cons name path ih =>
    obtain ⟨depth, rfl⟩ : ∃ d, depth = d + 1 := ⟨depth - 1, by simp at hdepth; omega⟩
    obtain ⟨fields, rfl, hfields⟩ := h
    refine ⟨_, rfl, fun w hw => ?_⟩
    rw [Keyed.get?_map] at hw
    obtain ⟨u, hu, rfl⟩ := Option.map_eq_some_iff.mp hw
    exact ih (hfields u hu) (Nat.le_of_succ_le_succ hdepth)

end Value

/-- Fields with their values down to a depth. -/
def cutFields (depth : Nat) (fields : Fields) : Fields :=
  fields.map fun f => (f.1, f.2.cut depth)

namespace Heap

mutual

/-- What is seen of a value that was put into a heap is the value, cut at
the depth. -/
theorem view_plant {h : Heap} (hs : h.Sound) (depth : Nat) :
    (v : Value) → v.Proper → (h.plant v).1.view depth (h.plant v).2 = v.cut depth
  | .scalar s, _ => by rw [plant, view, Value.cut]
  | .array items, hv => by
    have hitems : ∀ v ∈ items, v.Proper := by
      cases hv
      assumption
    obtain ⟨hsound, hparts⟩ := hs.plantItems items
    have hbody : (h.plant (.array items)).1[(h.plantItems items).1.length]?
        = some (.items .list (h.plantItems items).2) := by
      simp [plant]
    change (h.plant (.array items)).1.view depth (.place _) = _
    cases depth with
    | zero => rw [view, hbody, Value.cut]
    | succ depth =>
      rw [view, hbody, Value.cut]
      refine congrArg Value.array (Eq.trans ?_ (view_plantItems hs depth items hitems))
      exact List.map_congr_left fun r hr =>
        view_of_kept hsound (List.prefix_append _ _) depth (hparts r hr)
  | .object fields, hv => by
    obtain ⟨hsound, hlinks⟩ := hs.plantFields fields
    have hkeys := keys_plantFields h fields
    have hpairs : Keyed.ofPairs (h.plantFields fields).2 = (h.plantFields fields).2 :=
      Keyed.ofPairs_of_unrepeated (hv.unrepeated.of_keys_eq hkeys)
    have hbody : (h.plant (.object fields)).1[(h.plantFields fields).1.length]?
        = some (.fields (h.plantFields fields).2) := by
      simp [plant, hpairs]
    change (h.plant (.object fields)).1.view depth (.place _) = _
    cases depth with
    | zero => rw [view, hbody, Value.cut]
    | succ depth =>
      rw [view, hbody, Value.cut]
      refine congrArg Value.object
        (Eq.trans ?_ (viewLinks_plantFields hs depth fields fun f hf => hv.of_mem hf))
      exact List.map_congr_left fun l hl =>
        congrArg (l.1, ·) (view_of_kept hsound (List.prefix_append _ _) depth (hlinks l hl))

theorem view_plantItems {h : Heap} (hs : h.Sound) (depth : Nat) :
    (items : List Value) → (∀ v ∈ items, v.Proper) →
      (h.plantItems items).2.map ((h.plantItems items).1.view depth)
        = items.map (Value.cut depth)
  | [], _ => rfl
  | item :: rest, hitems => by
    obtain ⟨hitem, hrest⟩ := List.forall_mem_cons.mp hitems
    obtain ⟨hsound, hr⟩ := hs.plant item
    have hhere := view_of_kept hsound (prefix_plantItems _ rest) depth hr
    rw [view_plant hs depth item hitem] at hhere
    exact congr (congrArg List.cons hhere) (view_plantItems hsound depth rest hrest)

theorem viewLinks_plantFields {h : Heap} (hs : h.Sound) (depth : Nat) :
    (fields : List (Scalar × Value)) → (∀ f ∈ fields, f.2.Proper) →
      (h.plantFields fields).1.viewLinks depth (h.plantFields fields).2 = cutFields depth fields
  | [], _ => rfl
  | (name, value) :: rest, hfields => by
    obtain ⟨hvalue, hrest⟩ := List.forall_mem_cons.mp hfields
    obtain ⟨hsound, hr⟩ := hs.plant value
    have hhere := view_of_kept hsound (prefix_plantFields _ rest) depth hr
    rw [view_plant hs depth value hvalue] at hhere
    have hmore := viewLinks_plantFields hsound depth rest hrest
    exact congr (congrArg (fun v => List.cons (name, v)) hhere) hmore

theorem keys_plantFields (h : Heap) :
    (fields : List (Scalar × Value)) → Keyed.keys (h.plantFields fields).2 = Keyed.keys fields
  | [] => rfl
  | (name, value) :: rest => congrArg (name :: ·) (keys_plantFields (h.plant value).1 rest)

end

/-- What is seen of a value of a sound heap is proper. -/
theorem proper_view {h : Heap} (hs : h.Sound) (depth : Nat) {r : Ref} (hr : r.Within h.length) :
    (h.view depth r).Proper := by
  induction depth generalizing r with
  | zero =>
    cases r with
    | scalar s => exact .scalar s
    | place n =>
      obtain ⟨b, hb, -⟩ := hs.exists_body hr
      rw [view, hb]
      cases b with
      | items kind parts => exact .array fun _ hv => absurd hv List.not_mem_nil
      | fields links => exact .empty
  | succ depth ih =>
    cases r with
    | scalar s => exact .scalar s
    | place n =>
      obtain ⟨b, hb, hwithin⟩ := hs.exists_body hr
      rw [view, hb]
      cases b with
      | items kind parts =>
        refine .array fun v hv => ?_
        obtain ⟨q, hq, rfl⟩ := List.mem_map.mp hv
        exact ih (hwithin q hq)
      | fields links =>
        refine .object (hwithin.unrepeated.of_keys_eq (by simp [Keyed.keys])) fun f hf => ?_
        obtain ⟨l, hl, rfl⟩ := List.mem_map.mp hf
        exact ih (hwithin.refs l hl)

end Heap

/-! ## Objects -/

theorem Graph.exists_mapping {g : Graph} {links : Links}
    (h : g.heap.links? g.root = some links) :
    ∃ m, g.mapping? = some m ∧ m.heap = g.heap ∧ m.links = links := by
  unfold mapping?
  split
  · rename_i links' hlinks
    exact ⟨_, rfl, rfl, Option.some.inj (hlinks.symm.trans h)⟩
  · rename_i hnone
    rw [h] at hnone
    cases hnone

theorem Graph.of_mapping? {g : Graph} {m : Mapping} (h : g.mapping? = some m) :
    m.heap = g.heap ∧ g.heap.links? g.root = some m.links := by
  unfold mapping? at h
  split at h
  · rename_i hlinks
    cases h
    exact ⟨rfl, hlinks⟩
  · cases h

namespace Mapping

theorem exists_graph {m : Mapping} {name : Scalar} {r : Ref}
    (h : Keyed.get? m.links name = some r) :
    ∃ g, m.get? name = some g ∧ g.heap = m.heap ∧ g.root = r := by
  unfold get?
  split
  · rename_i r' hget
    exact ⟨_, rfl, rfl, Option.some.inj (hget.symm.trans h)⟩
  · rename_i hnone
    rw [h] at hnone
    cases hnone

theorem get?_eq_none {m : Mapping} {name : Scalar} (h : Keyed.get? m.links name = none) :
    m.get? name = none := by
  unfold get?
  split
  · rename_i r hget
    rw [h] at hget
    cases hget
  · rfl

/-- What is seen of an object laid over another is what is seen of both,
merged. -/
theorem view_lay {room : Nat} {lower upper m : Mapping} (hm : lower.lay room upper = some m)
    (depth : Nat) : m.view depth = merge (lower.view depth) (upper.view depth) := by
  unfold Mapping.lay at hm
  split at hm
  · cases hm
  · rename_i heap links hlay
    cases hm
    have hmerged := Heap.viewLinks_lay (lower.sound.beside upper.sound)
      (lower.within.mono (by simp)) (by simpa using upper.within.shift lower.heap.length) hlay depth
    rw [Heap.viewLinks_of_kept lower.sound (Heap.prefix_beside _ _) depth lower.within,
      Heap.viewLinks_beside] at hmerged
    exact hmerged

/-- The names of what is seen are those of the fields. -/
theorem unrepeated_view (m : Mapping) (depth : Nat) : (m.view depth).Unrepeated :=
  m.within.unrepeated.of_keys_eq (by simp [Mapping.view, Heap.viewLinks, Keyed.keys])

/-- What is seen of a field is what is seen of its value. -/
theorem get?_view (m : Mapping) (depth : Nat) (name : Scalar) :
    Keyed.get? (m.view depth) name = (Keyed.get? m.links name).map (m.heap.view depth) :=
  Heap.get?_viewLinks m.heap depth m.links name

/-- What is seen of an object is proper. -/
theorem proper_view (m : Mapping) (depth : Nat) : (Value.object (m.view depth)).Proper := by
  refine .object (m.unrepeated_view depth) fun f hf => ?_
  obtain ⟨l, hl, rfl⟩ := List.mem_map.mp hf
  exact Heap.proper_view m.sound depth (m.within.refs l hl)

/-- What is seen of fields that share nothing is the fields, cut at the
depth. -/
theorem view_ofFields {fields : Fields} (hproper : (Value.object fields).Proper) (depth : Nat) :
    (ofFields fields).view depth = cutFields depth fields := by
  have hpairs : Keyed.ofPairs (Heap.plantFields [] fields).2 = (Heap.plantFields [] fields).2 :=
    Keyed.ofPairs_of_unrepeated
      (hproper.unrepeated.of_keys_eq (Heap.keys_plantFields [] fields))
  change Heap.viewLinks _ depth (Keyed.ofPairs _) = _
  rw [hpairs]
  exact Heap.viewLinks_plantFields Heap.sound_nil depth fields fun f hf => hproper.of_mem hf

end Mapping

end Lineage
