/-
Lineage.Proofs.Json.Texts — the texts of a document that was read.

A document in a file consists of characters, so every text between
quotes is read from characters alone, and is unpaired: the halves of a
surrogate pair stand for one character wherever they stand next to each
other (`allTexts_of_readWithin`).
-/
import Lineage.Proofs.Json.Quoted
import Lineage.Proofs.Value.Proper

namespace Lineage

/-! ## The texts of a value -/

/-- All texts of the value, the names of fields among them, are good. -/
inductive Value.AllTexts (good : Text → Prop) : Value → Prop
  | scalar {s : Scalar} (h : ∀ t, s = .text t → good t) : AllTexts good (.scalar s)
  | array {items : List Value} (h : ∀ v ∈ items, AllTexts good v) : AllTexts good (.array items)
  | object {fields : Fields} (hnames : ∀ f ∈ fields, ∀ t, f.1 = .text t → good t)
      (h : ∀ f ∈ fields, AllTexts good f.2) : AllTexts good (.object fields)

namespace Value.AllTexts

variable {good : Text → Prop}

theorem text_iff {t : Text} : AllTexts good (.text t) ↔ good t := by
  constructor
  · intro h
    cases h with
    | scalar h => exact h t rfl
  · intro h
    refine .scalar fun u hu => ?_
    obtain rfl := Scalar.text.inj hu
    exact h

theorem array_iff {items : List Value} :
    AllTexts good (.array items) ↔ ∀ v ∈ items, v.AllTexts good := by
  constructor
  · intro h
    cases h with
    | array h => exact h
  · exact .array

theorem name_of_mem {fields : Fields} (h : AllTexts good (.object fields)) {f : Scalar × Value}
    (hf : f ∈ fields) {t : Text} (hname : f.1 = .text t) : good t := by
  cases h with
  | object hnames _ => exact hnames f hf t hname

theorem of_get? {fields : Fields} (h : AllTexts good (.object fields)) {name : Scalar} {v : Value}
    (hget : Keyed.get? fields name = some v) : v.AllTexts good := by
  obtain ⟨k, hk, -⟩ := Keyed.exists_mem_of_get? hget
  cases h with
  | object _ hvalues => exact hvalues _ hk

end Value.AllTexts

namespace Keyed

variable {κ α : Type} [BEq κ]

/-- What a table of pairs holds comes from them. -/
theorem forall_ofPairs {pairs : List (κ × α)} {P : κ → Prop} {Q : α → Prop}
    (h : ∀ p ∈ pairs, P p.1 ∧ Q p.2) : ∀ p ∈ ofPairs pairs, P p.1 ∧ Q p.2 := by
  have hput : ∀ {table : Keyed κ α} {key : κ} {value : α}, P key → Q value →
      (∀ p ∈ table, P p.1 ∧ Q p.2) → ∀ p ∈ table.put key value, P p.1 ∧ Q p.2 := by
    intro table key value hkey hvalue htable
    induction table with
    | nil => exact List.forall_mem_singleton.mpr ⟨hkey, hvalue⟩
    | cons p rest ih =>
      obtain ⟨hp, hrest⟩ := List.forall_mem_cons.mp htable
      rw [put]
      split
      · exact List.forall_mem_cons.mpr ⟨⟨hp.1, hvalue⟩, hrest⟩
      · exact List.forall_mem_cons.mpr ⟨hp, ih hrest⟩
  have hall : ∀ {pairs : List (κ × α)} {table : Keyed κ α}, (∀ p ∈ pairs, P p.1 ∧ Q p.2) →
      (∀ p ∈ table, P p.1 ∧ Q p.2) → ∀ p ∈ table.putAll pairs, P p.1 ∧ Q p.2 := by
    intro pairs
    induction pairs with
    | nil => exact fun _ htable => htable
    | cons p rest ih =>
      intro table hpairs htable
      obtain ⟨hp, hrest⟩ := List.forall_mem_cons.mp hpairs
      exact ih hrest (hput hp.1 hp.2 htable)
  exact hall h fun _ hp => absurd hp List.not_mem_nil

end Keyed

/-! ## Reading -/

theorem Text.isBroken_of_subset {t u : Text} (h : u ⊆ t) (ht : t.isBroken = false) :
    u.isBroken = false := by
  rw [isBroken, List.any_eq_false] at ht ⊢
  exact fun p hp => ht p (h hp)

theorem Text.isBroken_of_suffix {t u : Text} (h : u <:+ t) (ht : t.isBroken = false) :
    u.isBroken = false :=
  isBroken_of_subset h.subset ht

namespace Json

/-- The texts of a document that consists of characters are unpaired. -/
theorem allTexts_of_readWithin {room : Nat} {cs : List Char} {v : Value}
    (h : readWithin room (.ofChars cs) = .ok v) : v.AllTexts Unpaired := by
  have laws : ReadingLaws (·.isBroken = false) Unpaired (Value.AllTexts Unpaired) :=
    { suffix := Text.isBroken_of_suffix
      text := unpaired_of_readText
      scalar := fun _ hs => .scalar hs
      array := fun _ hitems => .array hitems
      object := fun pairs hpairs => by
        have hall := Keyed.forall_ofPairs
          (P := fun name => ∀ s, name = Scalar.text s → Unpaired s) hpairs
        exact .object (fun f hf => (hall f hf).1) fun f hf => (hall f hf).2 }
  exact laws.of_readWithin (Text.isBroken_eq_false_iff.mpr ⟨cs, rfl⟩) h

end Json

end Lineage
