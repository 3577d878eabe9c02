/-
Lineage.Value.Graph — document values that share parts.

One value may stand in several places of a document, so that what is
entered into it is found in all of them, and a value may even hold
itself.  So arrays and objects stand in a heap, and hold references: a
scalar, or the place of another of them.  A new array or object goes
behind those that are there, which keep their places (`<+:`).

A heap in which every place that is referred to is there, and no object
repeats a name, is `Heap.Sound`; the values that are handed on carry the
proof of it (`Graph`, `Mapping`).  What is seen of them down to some
depth is a document value again (`Heap.view`).
-/
import Lineage.Value.Basic

namespace Lineage

/-- The kinds of sequences. -/
inductive Sequence where
  | list
  | tuple
  | set
  deriving DecidableEq, Repr

/-- The word that messages use for a kind of sequences. -/
def Sequence.kindWord : Sequence → String
  | .list => "list"
  | .tuple => "tuple"
  | .set => "set"

/-- A scalar, or the place of an array or an object. -/
inductive Ref where
  | scalar (s : Scalar)
  | place (n : Nat)
  deriving DecidableEq, Repr, Inhabited

/-- The fields of an object of a heap, in order. -/
abbrev Links := Keyed Scalar Ref

/-- An array or an object of a heap. -/
inductive Body where
  | items (kind : Sequence) (parts : List Ref)
  | fields (links : Links)
  deriving Repr

/-- The arrays and objects of values, by place. -/
abbrev Heap := List Body

/-! ## Sound heaps -/

/-- A place below a bound, if it is one. -/
def Ref.Within (bound : Nat) : Ref → Prop
  | .scalar _ => True
  | .place n => n < bound

instance (bound : Nat) : DecidablePred (Ref.Within bound)
  | .scalar _ => isTrue trivial
  | .place n => inferInstanceAs (Decidable (n < bound))

/-- Fields of different names that refer to places below a bound. -/
structure Links.Within (bound : Nat) (links : Links) : Prop where
  unrepeated : links.Unrepeated
  refs : ∀ l ∈ links, l.2.Within bound

instance (bound : Nat) (links : Links) : Decidable (Links.Within bound links) :=
  decidable_of_iff (links.Unrepeated ∧ ∀ l ∈ links, l.2.Within bound)
    ⟨fun h => ⟨h.1, h.2⟩, fun h => ⟨h.1, h.2⟩⟩

/-- What an array or an object refers to is below a bound. -/
def Body.Within (bound : Nat) : Body → Prop
  | .items _ parts => ∀ r ∈ parts, r.Within bound
  | .fields links => Links.Within bound links

instance (bound : Nat) : DecidablePred (Body.Within bound)
  | .items _ parts => inferInstanceAs (Decidable (∀ r ∈ parts, r.Within bound))
  | .fields links => inferInstanceAs (Decidable (Links.Within bound links))

theorem Ref.Within.mono {r : Ref} {bound more : Nat} (h : r.Within bound) (hle : bound ≤ more) :
    r.Within more := by
  cases r with
  | scalar s => trivial
  | place n => exact Nat.lt_of_lt_of_le h hle

namespace Links.Within

variable {links : Links} {bound more : Nat}

theorem mono (h : Links.Within bound links) (hle : bound ≤ more) : Links.Within more links :=
  ⟨h.unrepeated, fun l hl => (h.refs l hl).mono hle⟩

theorem nil (bound : Nat) : Links.Within bound [] :=
  ⟨Keyed.unrepeated_nil, fun _ h => absurd h List.not_mem_nil⟩

theorem of_get? {name : Scalar} {r : Ref} (h : Links.Within bound links)
    (hget : Keyed.get? links name = some r) : r.Within bound := by
  obtain ⟨k, hk, -⟩ := Keyed.exists_mem_of_get? hget
  exact h.refs _ hk

theorem put (h : Links.Within bound links) (name : Scalar) {r : Ref} (hr : r.Within bound) :
    Links.Within bound (Keyed.put links name r) := by
  refine ⟨h.unrepeated.put name r, fun l hl => ?_⟩
  rcases Keyed.mem_or_eq_of_mem_put hl with hl | heq
  · exact h.refs l hl
  · rw [heq]
    exact hr

theorem ofPairs {pairs : List (Scalar × Ref)} (h : ∀ p ∈ pairs, p.2.Within bound) :
    Links.Within bound (Keyed.ofPairs pairs) := by
  refine ⟨Keyed.unrepeated_ofPairs pairs, fun l hl => ?_⟩
  obtain ⟨p, hp, heq⟩ := Keyed.exists_mem_of_mem_ofPairs hl
  rw [heq]
  exact h p hp

theorem filter (h : Links.Within bound links) (keep : Scalar × Ref → Bool) :
    Links.Within bound (links.filter keep) :=
  ⟨h.unrepeated.filter keep, fun l hl => h.refs l (List.mem_filter.mp hl).1⟩

end Links.Within

theorem Body.Within.mono {b : Body} {bound more : Nat} (h : b.Within bound) (hle : bound ≤ more) :
    b.Within more := by
  cases b with
  | items kind parts => exact fun r hr => (h r hr).mono hle
  | fields links => exact Links.Within.mono h hle

namespace Heap

/-- Every place that is referred to is there, and no object repeats a
name. -/
def Sound (h : Heap) : Prop :=
  ∀ b ∈ h, b.Within h.length

instance (h : Heap) : Decidable h.Sound :=
  inferInstanceAs (Decidable (∀ b ∈ h, b.Within h.length))

theorem sound_nil : Sound [] :=
  fun _ h => absurd h List.not_mem_nil

theorem Sound.append {h more : Heap} (hs : h.Sound)
    (hmore : ∀ b ∈ more, b.Within (h ++ more).length) : Sound (h ++ more) := by
  intro b hb
  rcases List.mem_append.mp hb with hb | hb
  · exact (hs b hb).mono (by simp)
  · exact hmore b hb

/-- One more array or object, which refers to places that are there. -/
theorem Sound.concat {h : Heap} (hs : h.Sound) {b : Body} (hb : b.Within h.length) :
    Sound (h ++ [b]) := by
  refine hs.append fun c hc => ?_
  rw [List.mem_singleton.mp hc]
  exact hb.mono (by simp)

/-! ## What stands at a place -/

/-- The array or object that is referred to. -/
def body? (h : Heap) : Ref → Option Body
  | .scalar _ => none
  | .place n => h[n]?

/-- The fields of the object that is referred to. -/
def links? (h : Heap) (r : Ref) : Option Links :=
  match h.body? r with
  | some (.fields links) => some links
  | _ => none

/-- The word that messages use for the kind of what is referred to. -/
def kindWord (h : Heap) : Ref → String
  | .scalar s => s.kindWord
  | r =>
    match h.body? r with
    | some (.items kind _) => kind.kindWord
    | _ => "dict"

/-- What is referred to says nothing: a scalar that does not, or an array
or an object without parts. -/
def saysNothing (h : Heap) : Ref → Bool
  | .scalar s => s.saysNothing
  | r =>
    match h.body? r with
    | some (.items _ parts) => parts.isEmpty
    | some (.fields links) => links.isEmpty
    | none => true

theorem Sound.links? {h : Heap} (hs : h.Sound) {r : Ref} {links : Links}
    (hr : h.links? r = some links) : Links.Within h.length links := by
  unfold Heap.links? at hr
  split at hr
  · rename_i links' hbody
    cases hr
    cases r with
    | scalar s => cases hbody
    | place n => exact hs _ (List.mem_of_getElem? hbody)
  · cases hr

/-- What is referred to, down to a depth at which arrays and objects are
seen without their parts. -/
def view (h : Heap) : Nat → Ref → Value
  | _, .scalar s => .scalar s
  | 0, .place n =>
    match h[n]? with
    | some (.items ..) => .array []
    | some (.fields _) => .object []
    | none => .null
  | depth + 1, .place n =>
    match h[n]? with
    | some (.items _ parts) => .array (parts.map (h.view depth))
    | some (.fields links) => .object (links.map fun l => (l.1, h.view depth l.2))
    | none => .null

/-- Fields with what is seen of their values down to a depth. -/
def viewLinks (h : Heap) (depth : Nat) (links : Links) : Fields :=
  links.map fun l => (l.1, h.view depth l.2)

/-! ## Putting values into a heap -/

mutual

/-- Puts a value into a heap, every array and object of it in a place of
its own: the heap, and the reference to the value. -/
def plant (h : Heap) : Value → Heap × Ref
  | .scalar s => (h, .scalar s)
  | .array items =>
    let (h, parts) := plantItems h items
    (h ++ [.items .list parts], .place h.length)
  | .object fields =>
    let (h, links) := plantFields h fields
    (h ++ [.fields (Keyed.ofPairs links)], .place h.length)

/-- Puts values into a heap. -/
def plantItems (h : Heap) : List Value → Heap × List Ref
  | [] => (h, [])
  | item :: rest =>
    let (h, r) := plant h item
    let (h, parts) := plantItems h rest
    (h, r :: parts)

/-- Puts the values of fields into a heap. -/
def plantFields (h : Heap) : List (Scalar × Value) → Heap × List (Scalar × Ref)
  | [] => (h, [])
  | (name, value) :: rest =>
    let (h, r) := plant h value
    let (h, links) := plantFields h rest
    (h, (name, r) :: links)

end

mutual

/-- A value goes behind those that are there. -/
theorem prefix_plant (h : Heap) : (v : Value) → h <+: (h.plant v).1
  | .scalar _ => List.prefix_refl h
  | .array items => (prefix_plantItems h items).trans (List.prefix_append _ _)
  | .object fields => (prefix_plantFields h fields).trans (List.prefix_append _ _)

theorem prefix_plantItems (h : Heap) : (items : List Value) → h <+: (h.plantItems items).1
  | [] => List.prefix_refl h
  | item :: rest => (prefix_plant h item).trans (prefix_plantItems _ rest)

theorem prefix_plantFields (h : Heap) :
    (fields : List (Scalar × Value)) → h <+: (h.plantFields fields).1
  | [] => List.prefix_refl h
  | (_, value) :: rest => (prefix_plant h value).trans (prefix_plantFields _ rest)

end

mutual

theorem Sound.plant {h : Heap} (hs : h.Sound) :
    (v : Value) → (h.plant v).1.Sound ∧ (h.plant v).2.Within (h.plant v).1.length
  | .scalar _ => ⟨hs, trivial⟩
  | .array items => by
    obtain ⟨hsound, hparts⟩ := hs.plantItems items
    exact ⟨hsound.concat hparts, by simp [Heap.plant, Ref.Within]⟩
  | .object fields => by
    obtain ⟨hsound, hlinks⟩ := hs.plantFields fields
    exact ⟨hsound.concat (Links.Within.ofPairs hlinks), by simp [Heap.plant, Ref.Within]⟩

theorem Sound.plantItems {h : Heap} (hs : h.Sound) : (items : List Value) →
    (h.plantItems items).1.Sound
      ∧ ∀ r ∈ (h.plantItems items).2, r.Within (h.plantItems items).1.length
  | [] => ⟨hs, fun _ hr => absurd hr List.not_mem_nil⟩
  | item :: rest => by
    obtain ⟨hsound, hr⟩ := hs.plant item
    obtain ⟨hall, hparts⟩ := hsound.plantItems rest
    refine ⟨hall, fun r hmem => ?_⟩
    rcases List.mem_cons.mp hmem with rfl | hmem
    · exact hr.mono (prefix_plantItems _ rest).length_le
    · exact hparts r hmem

theorem Sound.plantFields {h : Heap} (hs : h.Sound) : (fields : List (Scalar × Value)) →
    (h.plantFields fields).1.Sound
      ∧ ∀ l ∈ (h.plantFields fields).2, l.2.Within (h.plantFields fields).1.length
  | [] => ⟨hs, fun _ hl => absurd hl List.not_mem_nil⟩
  | (name, value) :: rest => by
    obtain ⟨hsound, hr⟩ := hs.plant value
    obtain ⟨hall, hlinks⟩ := hsound.plantFields rest
    refine ⟨hall, fun l hmem => ?_⟩
    rcases List.mem_cons.mp hmem with rfl | hmem
    · exact hr.mono (prefix_plantFields _ rest).length_le
    · exact hlinks l hmem

end

end Heap

/-! ## Values with their heaps -/

/-- A value in a heap. -/
structure Graph where
  heap : Heap
  root : Ref
  sound : heap.Sound
  within : root.Within heap.length

/-- The fields of an object, with the heap of their values. -/
structure Mapping where
  heap : Heap
  links : Links
  sound : heap.Sound
  within : Links.Within heap.length links

namespace Graph

/-- A value that shares nothing. -/
def ofValue (v : Value) : Graph :=
  ⟨(Heap.plant [] v).1, (Heap.plant [] v).2, (Heap.sound_nil.plant v).1, (Heap.sound_nil.plant v).2⟩

/-- The null value. -/
def null : Graph :=
  .ofValue .null

/-- The fields of a graph that is an object. -/
def mapping? (g : Graph) : Option Mapping :=
  match h : g.heap.links? g.root with
  | some links => some ⟨g.heap, links, g.sound, g.sound.links? h⟩
  | none => none

end Graph

namespace Mapping

/-- The object without fields. -/
def empty : Mapping :=
  ⟨[], [], Heap.sound_nil, .nil _⟩

/-- Fields that share nothing. -/
def ofFields (fields : Fields) : Mapping :=
  ⟨(Heap.plantFields [] fields).1, Keyed.ofPairs (Heap.plantFields [] fields).2,
    (Heap.sound_nil.plantFields fields).1, .ofPairs (Heap.sound_nil.plantFields fields).2⟩

/-- The value of a field. -/
def get? (m : Mapping) (name : Scalar) : Option Graph :=
  match h : Keyed.get? m.links name with
  | some r => some ⟨m.heap, r, m.sound, m.within.of_get? h⟩
  | none => none

/-- The fields that say something. -/
def said (m : Mapping) : Mapping :=
  ⟨m.heap, m.links.filter fun l => l.2 ≠ .scalar .null, m.sound, m.within.filter _⟩

/-- The fields with their values down to a depth. -/
def view (m : Mapping) (depth : Nat) : Fields :=
  m.heap.viewLinks depth m.links

/-- The fields with all that stands in them, once around where a value
holds itself. -/
def toFields (m : Mapping) : Fields :=
  m.view (m.heap.length + 1)

end Mapping

end Lineage
