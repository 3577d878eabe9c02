/-
Lineage.Proofs.Value.InPlace — merging tables in place.

Here the objects of values are tables that stand at places of a memory and
point to one another.  Laying a table over another changes tables where
they stand: it goes on inside of a table that meets a table, and enters a
copy of a table elsewhere.  The copy is not deep.  What it points to is
shared with the table that was copied, so laying a third table over the
result may change the second.  Arrays are entered as they are: no run goes
inside of them.

That this makes no difference is a matter of places.  `Reads s c v P` says
that a cell stands for a value by way of the tables at the places `P`, none
of them twice.  What stands apart from the places of a run is not changed
by it (`Becomes`), and one run leaves the next one tables that stand apart
(`exists_lays`, `exists_laysAll`).  So tables that stand apart to begin
with come to what the objects they stand for are merged to, and to nothing
else (`Ready.merges`).
-/
import Lineage.Proofs.Value.Merging
import Mathlib.Data.Finset.Basic
import Mathlib.Data.Finset.Lattice.Lemmas

namespace Lineage

/-- What stands under a name of a table: a value that is no object, or the
place of a table. -/
inductive Cell where
  | plain (v : Value)
  | table (place : Nat)

/-- A table of names. -/
abbrev Table := Keyed Scalar Cell

/-- Tables by their places. -/
abbrev Memory := List Table

namespace Memory

/-- What stands under a name of the table at a place. -/
def find? (s : Memory) (place : Nat) (name : Scalar) : Option Cell :=
  s[place]?.bind fun cells => Keyed.get? cells name

/-- Enters a cell into the table at a place. -/
def enter (s : Memory) (place : Nat) (name : Scalar) (c : Cell) : Memory :=
  s.modify place fun cells => Keyed.put cells name c

/-! ## Runs -/

mutual

/-- Laying a cell over what stands under a name of the table at place `t`
turns one memory into another: a table goes into a table, elsewhere a copy
of it is entered, at a new place; any other value is entered as it is.
A table that is laid has to stay as it is meanwhile. -/
inductive Lays : Memory → Nat → Scalar → Cell → Memory → Prop
  | into {s s' : Memory} {t below place : Nat} {name : Scalar} {cells : Table}
    (hbelow : s.find? t name = some (.table below)) (hplace : s[place]? = some cells)
    (hinside : LaysAll s below cells s') (hkept : s'[place]? = some cells) :
    Lays s t name (.table place) s'
  | copied {s : Memory} {t place : Nat} {name : Scalar} {cells : Table}
    (hbelow : ∀ below, s.find? t name ≠ some (.table below)) (hplace : s[place]? = some cells) :
    Lays s t name (.table place) (enter (s ++ [cells]) t name (.table s.length))
  | plain {s : Memory} {t : Nat} {name : Scalar} {v : Value} :
    Lays s t name (.plain v) (s.enter t name (.plain v))

/-- Laying the cells of a table over the table at place `t`, one after the
other. -/
inductive LaysAll : Memory → Nat → Table → Memory → Prop
  | nil {s : Memory} {t : Nat} : LaysAll s t [] s
  | cons {s s₁ s₂ : Memory} {t : Nat} {name : Scalar} {c : Cell} {rest : Table}
    (hfirst : Lays s t name c s₁) (hrest : LaysAll s₁ t rest s₂) :
    LaysAll s t ((name, c) :: rest) s₂

end

/-- Laying the tables at some places over the table at place `t`, one after
the other. -/
inductive LaysEach : Memory → Nat → List Nat → Memory → Prop
  | nil {s : Memory} {t : Nat} : LaysEach s t [] s
  | cons {s s₁ s₂ : Memory} {t place : Nat} {cells : Table} {rest : List Nat}
    (hplace : s[place]? = some cells) (hfirst : LaysAll s t cells s₁)
    (hkept : s₁[place]? = some cells) (hrest : LaysEach s₁ t rest s₂) :
    LaysEach s t (place :: rest) s₂

mutual

theorem Lays.unique {s s₁ s₂ : Memory} {t : Nat} {name : Scalar} {c : Cell} :
    Lays s t name c s₁ → Lays s t name c s₂ → s₁ = s₂
  | .into hbelow hplace hinside _, h => by
    cases h with
    | into hother hplace' hinside' _ =>
      obtain rfl := Cell.table.inj (Option.some.inj (hbelow.symm.trans hother))
      obtain rfl := Option.some.inj (hplace.symm.trans hplace')
      exact LaysAll.unique hinside hinside'
    | copied hno _ => exact absurd hbelow (hno _)
  | .copied hno hplace, h => by
    cases h with
    | into hbelow _ _ _ => exact absurd hbelow (hno _)
    | copied _ hplace' =>
      obtain rfl := Option.some.inj (hplace.symm.trans hplace')
      rfl
  | .plain, h => by
    cases h
    rfl

theorem LaysAll.unique {s s₁ s₂ : Memory} {t : Nat} {cells : Table} :
    LaysAll s t cells s₁ → LaysAll s t cells s₂ → s₁ = s₂
  | .nil, h => by
    cases h
    rfl
  | .cons hfirst hrest, h => by
    cases h with
    | cons hfirst' hrest' =>
      obtain rfl := Lays.unique hfirst hfirst'
      exact LaysAll.unique hrest hrest'

end

/-- A run comes to one memory only. -/
theorem LaysEach.unique {s s₁ s₂ : Memory} {t : Nat} {places : List Nat}
    (h₁ : LaysEach s t places s₁) (h₂ : LaysEach s t places s₂) : s₁ = s₂ := by
  induction h₁ with
  | nil =>
    cases h₂
    rfl
  | cons hplace hfirst _ _ ih =>
    cases h₂ with
    | cons hplace' hfirst' _ hrest' =>
      obtain rfl := Option.some.inj (hplace.symm.trans hplace')
      obtain rfl := hfirst.unique hfirst'
      exact ih hrest'

/-! ## Reading -/

mutual

/-- A cell stands for a value by way of the tables at some places, each of
them used once. -/
inductive Reads (s : Memory) : Cell → Value → Finset Nat → Prop
  | plain {v : Value} (hv : v.fields? = none) : Reads s (.plain v) v ∅
  | table {place : Nat} {cells : Table} {fields : Fields} {P : Finset Nat}
    (hplace : s[place]? = some cells) (hcells : ReadsAll s cells fields P) (hnew : place ∉ P) :
    Reads s (.table place) (.object fields) (insert place P)

/-- The cells of a table stand for fields. -/
inductive ReadsAll (s : Memory) : Table → Fields → Finset Nat → Prop
  | nil : ReadsAll s [] [] ∅
  | cons {name : Scalar} {c : Cell} {v : Value} {cells : Table} {fields : Fields}
    {P Q : Finset Nat} (hfirst : Reads s c v P) (hrest : ReadsAll s cells fields Q)
    (hapart : Disjoint P Q) : ReadsAll s ((name, c) :: cells) ((name, v) :: fields) (P ∪ Q)

end

/-- The tables at some places stand for objects, each apart from the
others. -/
inductive ReadsEach (s : Memory) : List Nat → List Fields → Finset Nat → Prop
  | nil : ReadsEach s [] [] ∅
  | cons {place : Nat} {fields : Fields} {places : List Nat} {layers : List Fields}
    {P Q : Finset Nat} (hfirst : Reads s (.table place) (.object fields) P)
    (hrest : ReadsEach s places layers Q) (hapart : Disjoint P Q) :
    ReadsEach s (place :: places) (fields :: layers) (P ∪ Q)

variable {s s' : Memory}

mutual

/-- Reading depends on the tables on the way alone. -/
theorem Reads.frame {c : Cell} {v : Value} {P : Finset Nat} :
    Reads s c v P → (∀ p ∈ P, s'[p]? = s[p]?) → Reads s' c v P
  | .plain hv, _ => .plain hv
  | .table hplace hcells hnew, hsame =>
    .table ((hsame _ (Finset.mem_insert_self _ _)).trans hplace)
      (hcells.frame fun p hp => hsame p (Finset.mem_insert_of_mem hp)) hnew

theorem ReadsAll.frame {cells : Table} {fields : Fields} {P : Finset Nat} :
    ReadsAll s cells fields P → (∀ p ∈ P, s'[p]? = s[p]?) → ReadsAll s' cells fields P
  | .nil, _ => .nil
  | .cons hfirst hrest hapart, hsame =>
    .cons (hfirst.frame fun p hp => hsame p (Finset.mem_union_left _ hp))
      (hrest.frame fun p hp => hsame p (Finset.mem_union_right _ hp)) hapart

end

theorem ReadsEach.frame {places : List Nat} {layers : List Fields} {P : Finset Nat}
    (h : ReadsEach s places layers P) (hsame : ∀ p ∈ P, s'[p]? = s[p]?) :
    ReadsEach s' places layers P := by
  induction h with
  | nil => exact .nil
  | cons hfirst _ hapart ih =>
    exact .cons (hfirst.frame fun p hp => hsame p (Finset.mem_union_left _ hp))
      (ih fun p hp => hsame p (Finset.mem_union_right _ hp)) hapart

mutual

theorem Reads.lt_length {c : Cell} {v : Value} {P : Finset Nat} :
    Reads s c v P → ∀ p ∈ P, p < s.length
  | .plain _, p, hp => by simp at hp
  | .table hplace hcells _, p, hp => by
    rcases Finset.mem_insert.mp hp with rfl | hp
    · exact (List.getElem?_eq_some_iff.mp hplace).1
    · exact hcells.lt_length p hp

theorem ReadsAll.lt_length {cells : Table} {fields : Fields} {P : Finset Nat} :
    ReadsAll s cells fields P → ∀ p ∈ P, p < s.length
  | .nil, p, hp => by simp at hp
  | .cons hfirst hrest _, p, hp => by
    rcases Finset.mem_union.mp hp with hp | hp
    · exact hfirst.lt_length p hp
    · exact hrest.lt_length p hp

end

theorem ReadsEach.lt_length {places : List Nat} {layers : List Fields} {P : Finset Nat}
    (h : ReadsEach s places layers P) : ∀ p ∈ P, p < s.length := by
  induction h with
  | nil => simp
  | cons hfirst _ _ ih =>
    intro p hp
    rcases Finset.mem_union.mp hp with hp | hp
    · exact hfirst.lt_length p hp
    · exact ih p hp

/-! ## What stands under one name -/

/-- What stands under a name is read by way of places of its own, apart
from those of the rest.  With anything else that stands apart from the
rest, the table reads as the fields with the new value. -/
theorem ReadsAll.focus {cells : Table} {fields : Fields} {P : Finset Nat}
    (h : ReadsAll s cells fields P) (name : Scalar) :
    ∃ F R, P = F ∪ R ∧ Disjoint F R
      ∧ Option.Rel (fun c v => Reads s c v F) (Keyed.get? cells name) (Keyed.get? fields name)
      ∧ ∀ {s' c v G}, (∀ p ∈ R, s'[p]? = s[p]?) → Reads s' c v G → Disjoint G R →
        ReadsAll s' (Keyed.put cells name c) (Keyed.put fields name v) (G ∪ R) := by
  induction fields generalizing cells P with
  | nil =>
    cases h
    exact ⟨∅, ∅, rfl, Finset.disjoint_empty_left _, .none, fun _ hc hG => .cons hc .nil hG⟩
  | cons f fields ih =>
    cases h with
    | @cons other c₀ v₀ cells _ P₀ Q hfirst hrest hapart =>
      by_cases hname : (other == name) = true
      · simp only [Keyed.get?, Keyed.put, hname, if_true]
        exact ⟨P₀, Q, rfl, hapart, .some hfirst, fun hsame hc hG => .cons hc (hrest.frame hsame) hG⟩
      · obtain ⟨F, R, rfl, hFR, hrel, hput⟩ := ih hrest
        rw [Finset.disjoint_union_right] at hapart
        simp only [Keyed.get?, Keyed.put, hname]
        refine ⟨F, P₀ ∪ R, Finset.union_left_comm _ _ _,
          Finset.disjoint_union_right.mpr ⟨hapart.1.symm, hFR⟩, hrel, fun hsame hc hG => ?_⟩
        rw [Finset.disjoint_union_right] at hG
        rw [Finset.union_left_comm]
        have hfirst' := hfirst.frame fun p hp => hsame p (Finset.mem_union_left _ hp)
        have hrest' := hput (fun p hp => hsame p (Finset.mem_union_right _ hp)) hc hG.2
        exact .cons hfirst' hrest' (Finset.disjoint_union_right.mpr ⟨hG.1.symm, hapart.2⟩)

/-! ## Laying cells over a table -/

/-- A memory turns into another in which the table at place `t` stands for
some fields.  Only tables at the places `P` have changed, and besides them
only new tables are used. -/
structure Becomes (s : Memory) (t : Nat) (P : Finset Nat) (fields : Fields) (s' : Memory) :
    Prop where
  reads : ∃ P', Reads s' (.table t) (.object fields) P' ∧ ∀ p ∈ P', p ∈ P ∨ s.length ≤ p
  same : ∀ p < s.length, p ∉ P → s'[p]? = s[p]?
  length_le : s.length ≤ s'.length

variable {t : Nat} {name : Scalar} {c : Cell} {v : Value} {cells : Table} {lower : Fields}
  {P Q : Finset Nat}

theorem Reads.place_mem (h : Reads s (.table t) v P) : t ∈ P := by
  cases h
  exact Finset.mem_insert_self _ _

/-- Tables that stand apart from a run stand apart from what it leaves. -/
theorem Becomes.apart (h : Becomes s t P lower s') (hlt : ∀ p ∈ Q, p < s.length)
    (hapart : Disjoint P Q) :
    (∀ p ∈ Q, s'[p]? = s[p]?)
      ∧ ∃ P', Reads s' (.table t) (.object lower) P' ∧ Disjoint P' Q
        ∧ ∀ p ∈ P', p ∈ P ∨ s.length ≤ p := by
  rw [Finset.disjoint_right] at hapart
  obtain ⟨P', hreads, hP'⟩ := h.reads
  refine ⟨fun p hp => h.same p (hlt p hp) (hapart hp), P', hreads, ?_, hP'⟩
  refine Finset.disjoint_right.mpr fun p hp hP => ?_
  rcases hP' p hP with hold | hnew
  · exact hapart hp hold
  · exact absurd (hlt p hp) (by omega)

theorem Becomes.kept {place : Nat} (h : Becomes s t P lower s') (hplace : s[place]? = some cells)
    (hout : place ∉ P) : s'[place]? = some cells :=
  (h.same place (List.getElem?_eq_some_iff.mp hplace).1 hout).trans hplace

theorem Becomes.refl (ht : Reads s (.table t) (.object lower) P) (hPQ : P ⊆ Q) :
    Becomes s t Q lower s :=
  ⟨⟨P, ht, fun _ hp => .inl (hPQ hp)⟩, fun _ _ _ => rfl, le_rfl⟩

theorem Becomes.trans {s₁ s₂ : Memory} {P₁ P₂ : Finset Nat} {fields : Fields}
    (h₁ : Becomes s t P₁ lower s₁) (h₂ : Becomes s₁ t P₂ fields s₂) (hP₁ : P₁ ⊆ P)
    (hP₂ : ∀ p ∈ P₂, p ∈ P ∨ s.length ≤ p) : Becomes s t P fields s₂ := by
  have hlength := h₁.length_le
  obtain ⟨P', hreads, hP'⟩ := h₂.reads
  refine ⟨⟨P', hreads, fun p hp => ?_⟩, fun p hlt hp => ?_, hlength.trans h₂.length_le⟩
  · rcases hP' p hp with h | h
    · exact hP₂ p h
    · exact .inr (hlength.trans h)
  · have hp₂ : p ∉ P₂ := fun h => by
      rcases hP₂ p h with h | h
      · exact hp h
      · omega
    rw [h₂.same p (by omega) hp₂, h₁.same p hlt fun h => hp (hP₁ h)]

/-- A table is changed under one name, by the use of places that stand
apart from it and of what stands under the name already. -/
theorem Reads.focus (ht : Reads s (.table t) (.object lower) P) (hapart : Disjoint P Q)
    (name : Scalar) :
    ∃ here F, s[t]? = some here ∧ F ⊆ P ∧ t ∉ F
      ∧ Option.Rel (fun c v => Reads s c v F) (Keyed.get? here name) (Keyed.get? lower name)
      ∧ ∀ {s' c v G}, s'[t]? = some (Keyed.put here name c) →
        (∀ p < s.length, p ≠ t → p ∉ F → p ∉ Q → s'[p]? = s[p]?) → s.length ≤ s'.length →
        Reads s' c v G → (∀ p ∈ G, p ∈ F ∨ p ∈ Q ∨ s.length ≤ p) →
        Becomes s t (P ∪ Q) (Keyed.put lower name v) s' := by
  have hlength := ht.lt_length
  cases ht with
  | @table _ here _ P hplace hcells hnew =>
    obtain ⟨F, R, rfl, hFR, hrel, hput⟩ := hcells.focus name
    simp only [Finset.mem_union, not_or] at hnew
    refine ⟨here, F, hplace, fun p hp => by simp [hp], hnew.1, hrel, ?_⟩
    intro s' c v G hthere hsame hgrown hc hG
    -- The table and what the rest of it is read by stand apart from all that is used.
    have hrest : ∀ p ∈ insert t R, p < s.length ∧ p ∉ F ∧ p ∉ Q := by
      intro p hp
      have hmem : p ∈ insert t (F ∪ R) := Finset.insert_subset_insert _ Finset.subset_union_right hp
      refine ⟨hlength p hmem, fun hF => ?_, Finset.disjoint_left.mp hapart hmem⟩
      rcases Finset.mem_insert.mp hp with rfl | hp
      · exact hnew.1 hF
      · exact Finset.disjoint_left.mp hFR hF hp
    have hGR : Disjoint G (insert t R) := by
      refine Finset.disjoint_left.mpr fun p hp hpR => ?_
      obtain ⟨hlt, hF, hQ⟩ := hrest p hpR
      rcases hG p hp with h | h | h
      · exact hF h
      · exact hQ h
      · omega
    rw [Finset.disjoint_insert_right] at hGR
    have hsameR : ∀ p ∈ R, s'[p]? = s[p]? := by
      intro p hp
      obtain ⟨hlt, hF, hQ⟩ := hrest p (Finset.mem_insert_of_mem hp)
      exact hsame p hlt (fun heq => hnew.2 (heq ▸ hp)) hF hQ
    have hall := hput hsameR hc hGR.2
    refine ⟨⟨_, .table hthere hall (by simp [hGR.1, hnew.2]), ?_⟩, ?_, hgrown⟩
    · intro p hp
      have := hG p
      simp only [Finset.mem_insert, Finset.mem_union] at hp ⊢
      tauto
    · intro p hlt hp
      simp only [Finset.mem_insert, Finset.mem_union, not_or] at hp
      exact hsame p hlt hp.1.1 hp.1.2.1 hp.2

theorem find?_eq {here : Table} (hplace : s[t]? = some here) :
    s.find? t name = Keyed.get? here name := by
  rw [find?, hplace, Option.bind_some]

theorem getElem?_enter (place : Nat) :
    (s.enter t name c)[place]?
      = if t = place then s[place]?.map fun cells => Keyed.put cells name c else s[place]? := by
  rw [enter, List.getElem?_modify]
  split <;> simp

@[simp] theorem length_enter : (s.enter t name c).length = s.length :=
  List.length_modify _ _ _

/-- Entering a value that is no object. -/
theorem Reads.lays_plain (hv : v.fields? = none) (ht : Reads s (.table t) (.object lower) P)
    (name : Scalar) :
    Becomes s t P (Keyed.put lower name v) (s.enter t name (.plain v)) := by
  obtain ⟨here, F, hplace, -, -, -, hbecomes⟩ := ht.focus (Finset.disjoint_empty_right P) name
  rw [Finset.union_empty] at hbecomes
  refine hbecomes ?_ ?_ ?_ (.plain hv) (by simp)
  · rw [getElem?_enter, if_pos rfl, hplace, Option.map_some]
  · intro p _ hp _ _
    rw [getElem?_enter, if_neg (Ne.symm hp)]
  · rw [length_enter]

/-- Where no table stands there is no object. -/
theorem fields?_eq_none_of_rel {found : Option Cell} {old : Option Value}
    (hrel : Option.Rel (fun c v => Reads s c v P) found old)
    (hno : ∀ place, found ≠ some (.table place)) : (old.getD .null).fields? = none := by
  cases hrel with
  | none => rfl
  | some h =>
    cases h with
    | plain hv => exact hv
    | table _ _ _ => exact absurd rfl (hno _)

/-- A copy of a table stands for the same object, by way of the same
tables below it. -/
theorem Reads.copy {place new : Nat} {fields : Fields}
    (hv : Reads s (.table place) (.object fields) Q) (hplace : s[place]? = some cells)
    (hnew : s'[new]? = some cells) (hout : new ∉ Q) (hsame : ∀ p ∈ Q, s'[p]? = s[p]?) :
    ∃ G, Reads s' (.table new) (.object fields) G ∧ ∀ p ∈ G, p = new ∨ p ∈ Q := by
  cases hv with
  | @table _ cells' _ Q hplace' hcells _ =>
    obtain rfl := Option.some.inj (hplace'.symm.trans hplace)
    have hcells' := hcells.frame fun p hp => hsame p (Finset.mem_insert_of_mem hp)
    refine ⟨insert new Q, .table hnew hcells' fun h => hout (Finset.mem_insert_of_mem h), ?_⟩
    exact fun p hp => (Finset.mem_insert.mp hp).imp_right Finset.mem_insert_of_mem

/-- Entering a copy of a table under a name where no table stands. -/
theorem Reads.lays_copied {place : Nat} {fields : Fields}
    (hbelow : ∀ below, s.find? t name ≠ some (.table below))
    (hv : Reads s (.table place) (.object fields) Q) (hplace : s[place]? = some cells)
    (ht : Reads s (.table t) (.object lower) P) (hapart : Disjoint P Q) :
    Becomes s t (P ∪ Q)
      (Keyed.put lower name (((Keyed.get? lower name).getD .null).overlay (.object fields)))
      (enter (s ++ [cells]) t name (.table s.length)) := by
  obtain ⟨here, F, hhere, -, -, hrel, hbecomes⟩ := ht.focus hapart name
  have hlt : t < s.length := ht.lt_length t ht.place_mem
  have hout : t ∉ Q := Finset.disjoint_left.mp hapart ht.place_mem
  have hnone := fields?_eq_none_of_rel hrel (by simpa only [find?_eq hhere] using hbelow)
  have hsame : ∀ p < s.length, p ≠ t →
      (enter (s ++ [cells]) t name (.table s.length))[p]? = s[p]? := by
    intro p hp hpt
    rw [getElem?_enter, if_neg (Ne.symm hpt), List.getElem?_append_left hp]
  have hthere : (enter (s ++ [cells]) t name (.table s.length))[t]?
      = some (Keyed.put here name (.table s.length)) := by
    rw [getElem?_enter, if_pos rfl, List.getElem?_append_left hlt, hhere, Option.map_some]
  have hnew : (enter (s ++ [cells]) t name (.table s.length))[s.length]? = some cells := by
    rw [getElem?_enter, if_neg hlt.ne]
    simp
  obtain ⟨G, hG, hplaces⟩ := hv.copy hplace hnew
    (fun h => absurd (hv.lt_length _ h) (lt_irrefl _))
    fun p hp => hsame p (hv.lt_length p hp) fun heq => hout (heq ▸ hp)
  rw [Value.overlay_object_of_fields?_eq_none hnone]
  refine hbecomes hthere (fun p hp hpt _ _ => hsame p hp hpt) (by simp) hG fun p hp => ?_
  rcases hplaces p hp with rfl | hp
  · exact .inr (.inr le_rfl)
  · exact .inr (.inl hp)

/-- Going on inside of the table that stands under a name. -/
theorem Reads.lays_into {below place : Nat} {fields : Fields}
    (hbelow : s.find? t name = some (.table below)) (ht : Reads s (.table t) (.object lower) P)
    (hapart : Disjoint P (insert place Q)) :
    ∃ inner F, Reads s (.table below) (.object inner) F ∧ F ⊆ P ∧ Disjoint F Q
      ∧ ∀ {s'}, Becomes s below (F ∪ Q) (merge inner fields) s' →
        Becomes s t (P ∪ insert place Q)
          (Keyed.put lower name (((Keyed.get? lower name).getD .null).overlay (.object fields)))
          s' := by
  obtain ⟨here, F, hhere, hF, htF, hrel, hbecomes⟩ := ht.focus hapart name
  rw [find?_eq hhere] at hbelow
  rw [hbelow] at hrel
  have htQ : t ∉ insert place Q := Finset.disjoint_left.mp hapart ht.place_mem
  have hFQ : Disjoint F Q :=
    Finset.disjoint_of_subset_left hF
      (Finset.disjoint_of_subset_right (Finset.subset_insert _ _) hapart)
  obtain ⟨inner, hold, hinner⟩ : ∃ inner, Keyed.get? lower name = some (.object inner)
      ∧ Reads s (.table below) (.object inner) F := by
    generalize Keyed.get? lower name = old at hrel
    cases hrel with
    | some h =>
      cases h with
      | table hplace hcells hnew => exact ⟨_, rfl, .table hplace hcells hnew⟩
  refine ⟨inner, F, hinner, hF, hFQ, fun {s'} h => ?_⟩
  obtain ⟨G, hG, hplaces⟩ := h.reads
  simp only [Finset.mem_insert, not_or] at htQ
  -- The table itself has not changed: under the name it still points to the same place.
  have hthere : s'[t]? = some (Keyed.put here name (.table below)) := by
    rw [Keyed.put_of_get?_eq_some hbelow, ← hhere]
    exact h.same t (ht.lt_length t ht.place_mem) (by simp [htF, htQ.2])
  rw [hold, Option.getD_some, Value.object_overlay_object]
  refine hbecomes hthere (fun p hp _ hpF hpQ => ?_) h.length_le hG fun p hp => ?_
  · simp only [Finset.mem_insert, not_or] at hpQ
    exact h.same p hp (by simp [hpF, hpQ.2])
  · have := hplaces p hp
    simp only [Finset.mem_union, Finset.mem_insert] at this ⊢
    tauto

mutual

theorem exists_lays : (v : Value) → ∀ {s : Memory} {t : Nat} {c : Cell} {lower : Fields}
    {P Q : Finset Nat} (name : Scalar), Reads s c v Q → Reads s (.table t) (.object lower) P →
    Disjoint P Q → ∃ s', Lays s t name c s' ∧ Becomes s t (P ∪ Q)
      (Keyed.put lower name (((Keyed.get? lower name).getD .null).overlay v)) s'
  | .scalar a, s, t, _, _, _, _, name, .plain hv, ht, _ => by
    rw [Value.overlay_scalar, Finset.union_empty]
    exact ⟨_, .plain, ht.lays_plain hv name⟩
  | .array items, s, t, _, _, _, _, name, .plain hv, ht, _ => by
    rw [Value.overlay_array, Finset.union_empty]
    exact ⟨_, .plain, ht.lays_plain hv name⟩
  | .object fields, s, t, c, lower, P, _, name, hv, ht, hapart => by
    cases hv with
    | plain hv => cases hv
    | @table place cells _ Q hplace hcells hnew =>
      by_cases hbelow : ∃ below, s.find? t name = some (.table below)
      · obtain ⟨below, hbelow⟩ := hbelow
        obtain ⟨inner, F, hinner, hF, hFQ, hbecomes⟩ := ht.lays_into hbelow hapart
        obtain ⟨s', hrun, hs'⟩ := exists_laysAll fields hcells hinner hFQ
        have hout : place ∉ F := fun h =>
          Finset.disjoint_left.mp hapart (hF h) (Finset.mem_insert_self _ _)
        exact ⟨s', .into hbelow hplace hrun (hs'.kept hplace (by simp [hout, hnew])), hbecomes hs'⟩
      · have hbelow : ∀ below, s.find? t name ≠ some (.table below) := fun below heq =>
          hbelow ⟨below, heq⟩
        exact ⟨_, .copied hbelow hplace,
          Reads.lays_copied hbelow (.table hplace hcells hnew) hplace ht hapart⟩

theorem exists_laysAll : (upper : Fields) → ∀ {s : Memory} {t : Nat} {cells : Table}
    {lower : Fields} {P Q : Finset Nat}, ReadsAll s cells upper Q →
    Reads s (.table t) (.object lower) P → Disjoint P Q →
    ∃ s', LaysAll s t cells s' ∧ Becomes s t (P ∪ Q) (mergeFields lower upper) s'
  | [], s, _, _, _, _, _, .nil, ht, _ => by
    rw [mergeFields]
    exact ⟨s, .nil, .refl ht Finset.subset_union_left⟩
  | (name, v) :: rest, s, t, _, lower, P, _, h, ht, hapart => by
    cases h with
    | @cons _ c _ cells _ Q₁ Q₂ hfirst hrest hapart₁₂ =>
      rw [Finset.disjoint_union_right] at hapart
      rw [Value.mergeFields_cons]
      obtain ⟨s₁, hrun₁, h₁⟩ := exists_lays v name hfirst ht hapart.1
      obtain ⟨hsame, P₁, hreads₁, hapart', hP₁⟩ := h₁.apart hrest.lt_length
        (Finset.disjoint_union_left.mpr ⟨hapart.2, hapart₁₂⟩)
      obtain ⟨s₂, hrun₂, h₂⟩ := exists_laysAll rest (hrest.frame hsame) hreads₁ hapart'
      refine ⟨s₂, .cons hrun₁ hrun₂, h₁.trans h₂ ?_ fun p hp => ?_⟩
      · exact Finset.union_subset_union_right Finset.subset_union_left
      · have := hP₁ p
        simp only [Finset.mem_union] at hp this ⊢
        tauto

end

/-- Tables that stand apart come to what the objects are merged to. -/
theorem ReadsEach.exists_laysEach {places : List Nat} {layers : List Fields}
    (hlayers : ReadsEach s places layers Q) (ht : Reads s (.table t) (.object lower) P)
    (hapart : Disjoint P Q) :
    ∃ s' P', LaysEach s t places s'
      ∧ Reads s' (.table t) (.object (layers.foldl merge lower)) P' := by
  induction layers generalizing s places lower P Q with
  | nil =>
    cases hlayers
    exact ⟨s, P, .nil, ht⟩
  | cons fields layers ih =>
    cases hlayers with
    | @cons place _ places _ P₁ Q hfirst hrest hapart₁ =>
      cases hfirst with
      | @table _ cells _ P₁ hplace hcells hnew =>
        rw [Finset.disjoint_union_right] at hapart
        rw [Finset.disjoint_insert_left] at hapart₁
        obtain ⟨s₁, hrun₁, h₁⟩ := exists_laysAll fields hcells ht
          (Finset.disjoint_of_subset_right (Finset.subset_insert _ _) hapart.1)
        obtain ⟨hsame, P', hreads, hapart', -⟩ := h₁.apart hrest.lt_length
          (Finset.disjoint_union_left.mpr ⟨hapart.2, hapart₁.2⟩)
        obtain ⟨s', P'', hrun, hreads'⟩ := ih (hrest.frame hsame) hreads hapart'
        have hout : place ∉ P := fun h =>
          Finset.disjoint_left.mp hapart.1 h (Finset.mem_insert_self _ _)
        have hkept := h₁.kept hplace (by simp [hout, hnew])
        exact ⟨s', P'', .cons hplace hrun₁ hkept hrun, hreads'⟩

/-! ## Tables that stand apart -/

/-- An empty table stands at place `t`, and apart from it and from each
other the tables of some objects. -/
def Ready (s : Memory) (t : Nat) (places : List Nat) (layers : List Fields) : Prop :=
  s[t]? = some [] ∧ ∃ Q, t ∉ Q ∧ ReadsEach s places layers Q

/-- From a memory that is ready a run comes to the objects merged one after
the other, and every run does. -/
theorem Ready.merges {places : List Nat} {layers : List Fields} (h : Ready s t places layers) :
    (∃ s', LaysEach s t places s') ∧ ∀ s', LaysEach s t places s' →
      ∃ P, Reads s' (.table t) (.object (layers.foldl merge [])) P := by
  obtain ⟨hempty, Q, hnew, hlayers⟩ := h
  have ht : Reads s (.table t) (.object []) {t} := .table hempty .nil (Finset.notMem_empty t)
  obtain ⟨s₁, P, hrun, hreads⟩ :=
    hlayers.exists_laysEach ht (Finset.disjoint_singleton_left.mpr hnew)
  refine ⟨⟨s₁, hrun⟩, fun s' hrun' => ⟨P, ?_⟩⟩
  rwa [hrun'.unique hrun]

/-- New tables stand apart from what was there. -/
theorem Reads.beside {n : Nat} (h : Reads s c v P) (hP : ∀ p ∈ P, n ≤ p) (hn : n ≤ s.length)
    (hQ : ∀ p ∈ Q, s.length ≤ p) (suffix : Memory) :
    Reads (s ++ suffix) c v P ∧ Disjoint P Q ∧ ∀ p ∈ P ∪ Q, n ≤ p := by
  have hlt := h.lt_length
  refine ⟨h.frame fun p hp => List.getElem?_append_left (hlt p hp),
    Finset.disjoint_left.mpr fun p hp hq => ?_, fun p hp => ?_⟩
  · exact absurd (hlt p hp) (by simpa using hQ p hq)
  · rcases Finset.mem_union.mp hp with hp | hp
    · exact hP p hp
    · exact hn.trans (hQ p hp)

mutual

theorem exists_reads : (v : Value) → (s : Memory) →
    ∃ suffix c P, Reads (s ++ suffix) c v P ∧ ∀ p ∈ P, s.length ≤ p
  | .scalar a, s => ⟨[], .plain (.scalar a), ∅, .plain rfl, by simp⟩
  | .array items, s => ⟨[], .plain (.array items), ∅, .plain rfl, by simp⟩
  | .object fields, s => by
    obtain ⟨suffix, cells, P, hcells, hP⟩ := exists_readsAll fields s
    have hlt := hcells.lt_length
    refine ⟨suffix ++ [cells], .table (s ++ suffix).length, insert (s ++ suffix).length P, ?_, ?_⟩
    · rw [← List.append_assoc]
      refine .table (by simp) (hcells.frame fun p hp => List.getElem?_append_left (hlt p hp)) ?_
      exact fun h => absurd (hlt _ h) (lt_irrefl _)
    · intro p hp
      rcases Finset.mem_insert.mp hp with rfl | hp
      · simp
      · exact hP p hp

theorem exists_readsAll : (fields : Fields) → (s : Memory) →
    ∃ suffix cells P, ReadsAll (s ++ suffix) cells fields P ∧ ∀ p ∈ P, s.length ≤ p
  | [], s => ⟨[], [], ∅, .nil, by simp⟩
  | (name, v) :: rest, s => by
    obtain ⟨suffix, c, P, hfirst, hP⟩ := exists_reads v s
    obtain ⟨suffix', cells, Q, hrest, hQ⟩ := exists_readsAll rest (s ++ suffix)
    obtain ⟨hfirst', hapart, hplaces⟩ := hfirst.beside hP (by simp) hQ suffix'
    refine ⟨suffix ++ suffix', (name, c) :: cells, P ∪ Q, ?_, hplaces⟩
    rw [← List.append_assoc]
    exact .cons hfirst' hrest hapart

end

theorem exists_readsEach (layers : List Fields) (s : Memory) :
    ∃ suffix places P, ReadsEach (s ++ suffix) places layers P ∧ ∀ p ∈ P, s.length ≤ p := by
  induction layers generalizing s with
  | nil => exact ⟨[], [], ∅, .nil, by simp⟩
  | cons fields layers ih =>
    obtain ⟨suffix, c, P, hfirst, hP⟩ := exists_reads (.object fields) s
    obtain ⟨suffix', places, Q, hrest, hQ⟩ := ih (s ++ suffix)
    obtain ⟨hfirst', hapart, hplaces⟩ := hfirst.beside hP (by simp) hQ suffix'
    cases c with
    | plain w =>
      cases hfirst with
      | plain h => cases h
    | table place =>
      refine ⟨suffix ++ suffix', place :: places, P ∪ Q, ?_, hplaces⟩
      rw [← List.append_assoc]
      exact .cons hfirst' hrest hapart

/-- For any objects there is a memory that is ready. -/
theorem exists_ready (layers : List Fields) : ∃ s t places, Ready s t places layers := by
  obtain ⟨suffix, places, P, hlayers, hP⟩ := exists_readsEach layers [[]]
  have hnew : 0 ∉ P := fun h => absurd (hP 0 h) (by simp)
  exact ⟨[[]] ++ suffix, 0, places, rfl, P, hnew, hlayers⟩

end Memory

end Lineage
