/-
Lineage.Value.Laying — laying one object over another where values share
parts.

Where two objects hold an object under one name these are laid over one
another as well, and a new object takes their place; anything else is
taken over as it stands, from the upper of the two if both hold it.  So
the result shares with them what only one of them holds.  The objects are
laid over one another one call within another, and there is room for so
many calls only.
-/
import Lineage.Value.Graph

namespace Lineage

namespace Heap

/-- Lays fields over fields, one after the other; `both` lays over one
another what are objects under one name. -/
def layLinks (both : Heap → Links → Links → Option (Heap × Links)) (h : Heap) (lower : Links) :
    List (Scalar × Ref) → Option (Heap × Links)
  | [] => some (h, lower)
  | (name, upper) :: rest =>
    match (Keyed.get? lower name).bind h.links?, h.links? upper with
    | some below, some above =>
      match both h below above with
      | none => none
      | some (h, laid) =>
        layLinks both (h ++ [.fields laid]) (Keyed.put lower name (.place h.length)) rest
    | _, _ => layLinks both h (Keyed.put lower name upper) rest

/-- Lays the fields of an object over those of another, if there is room
for the calls. -/
def lay : Nat → Heap → Links → Links → Option (Heap × Links)
  | 0, _, _, _ => none
  | room + 1, h, lower, upper => layLinks (lay room) h lower upper

/-- What comes of laying fields over fields: the heap goes on behind what
was there. -/
structure Laid (h : Heap) (out : Heap × Links) : Prop where
  kept : h <+: out.1
  sound : out.1.Sound
  within : Links.Within out.1.length out.2

variable {h : Heap} {lower upper : Links} {out : Heap × Links}

theorem laid_layLinks {both : Heap → Links → Links → Option (Heap × Links)}
    (hboth : ∀ {h : Heap} {below above : Links} {out : Heap × Links}, h.Sound →
      Links.Within h.length below → Links.Within h.length above → both h below above = some out →
      Laid h out)
    (hs : h.Sound) (hlower : Links.Within h.length lower) {fields : List (Scalar × Ref)}
    (hfields : ∀ l ∈ fields, l.2.Within h.length)
    (hout : layLinks both h lower fields = some out) : Laid h out := by
  induction fields generalizing h lower with
  | nil =>
    cases hout
    exact ⟨List.prefix_refl h, hs, hlower⟩
  | cons l rest ih =>
    obtain ⟨name, r⟩ := l
    have hr : r.Within h.length := hfields _ List.mem_cons_self
    have hrest : ∀ l ∈ rest, l.2.Within h.length := fun l hl =>
      hfields l (List.mem_cons_of_mem _ hl)
    rw [layLinks] at hout
    split at hout
    · rename_i below above hbelow habove
      obtain ⟨b, -, hb⟩ := Option.bind_eq_some_iff.mp hbelow
      split at hout
      · cases hout
      · rename_i h₁ laid hlaid
        have hnew := hboth hs (hs.links? hb) (hs.links? habove) hlaid
        have hle : h.length ≤ (h₁ ++ [Body.fields laid]).length :=
          (hnew.kept.trans (List.prefix_append _ _)).length_le
        have hall := ih (hnew.sound.concat (b := .fields laid) hnew.within)
          ((hlower.mono hle).put name (by simp [Ref.Within])) (fun l hl => (hrest l hl).mono hle)
          hout
        exact ⟨(hnew.kept.trans (List.prefix_append _ _)).trans hall.kept, hall.sound, hall.within⟩
    · exact ih hs (hlower.put name hr) hrest hout

/-- Laying fields over fields keeps a heap sound and every place as it
is. -/
theorem laid_lay {room : Nat} (hs : h.Sound) (hlower : Links.Within h.length lower)
    (hupper : Links.Within h.length upper) (hout : lay room h lower upper = some out) :
    Laid h out := by
  induction room generalizing h lower upper out with
  | zero => cases hout
  | succ room ih => exact laid_layLinks (fun hs hb ha => ih hs hb ha) hs hlower hupper.refs hout

end Heap

/-! ## Objects of different heaps -/

/-- A reference into a heap that stands behind so many places. -/
def Ref.shift (gap : Nat) : Ref → Ref
  | .scalar s => .scalar s
  | .place n => .place (n + gap)

/-- Fields of a heap that stands behind so many places. -/
def Links.shift (gap : Nat) (links : Links) : Links :=
  links.map fun l => (l.1, l.2.shift gap)

/-- An array or an object of a heap that stands behind so many places. -/
def Body.shift (gap : Nat) : Body → Body
  | .items kind parts => .items kind (parts.map (Ref.shift gap))
  | .fields links => .fields (Links.shift gap links)

theorem Ref.Within.shift {r : Ref} {bound : Nat} (h : r.Within bound) (n : Nat) :
    (r.shift n).Within (n + bound) := by
  cases r with
  | scalar s => trivial
  | place k =>
    have hk : k < bound := h
    change k + n < n + bound
    omega

theorem Links.Within.shift {links : Links} {bound : Nat} (h : Links.Within bound links) (n : Nat) :
    Links.Within (n + bound) (Links.shift n links) := by
  refine ⟨h.unrepeated.of_keys_eq (by simp [Links.shift, Keyed.keys]), fun l hl => ?_⟩
  obtain ⟨k, hk, rfl⟩ := List.mem_map.mp hl
  exact (h.refs k hk).shift n

theorem Body.Within.shift {b : Body} {bound : Nat} (h : b.Within bound) (n : Nat) :
    (b.shift n).Within (n + bound) := by
  cases b with
  | items kind parts =>
    intro r hr
    obtain ⟨q, hq, rfl⟩ := List.mem_map.mp hr
    exact (h q hq).shift n
  | fields links => exact Links.Within.shift h n

/-- A heap with another one behind it. -/
def Heap.beside (h g : Heap) : Heap :=
  h ++ g.map (Body.shift h.length)

@[simp] theorem Heap.length_beside (h g : Heap) : (h.beside g).length = h.length + g.length := by
  simp [Heap.beside]

theorem Heap.Sound.beside {h g : Heap} (hs : h.Sound) (gs : g.Sound) : (h.beside g).Sound := by
  refine hs.append fun b hb => ?_
  obtain ⟨c, hc, rfl⟩ := List.mem_map.mp hb
  simpa using (gs c hc).shift h.length

/-- Lays an object over another, if there is room for the calls. -/
def Mapping.lay (room : Nat) (lower upper : Mapping) : Option Mapping :=
  match h : (lower.heap.beside upper.heap).lay room lower.links
      (Links.shift lower.heap.length upper.links) with
  | none => none
  | some (heap, links) =>
    have laid := Heap.laid_lay (lower.sound.beside upper.sound)
      (lower.within.mono (by simp)) (by simpa using upper.within.shift lower.heap.length) h
    some ⟨heap, links, laid.sound, laid.within⟩

end Lineage
