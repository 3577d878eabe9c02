/-
Lineage.Keyed — tables that remember the order in which their keys were
first entered, and lists without repetitions.

* `Keyed.put` keeps the place and the spelling of a key that is already
  there, so the order of a table is the order of first entry
  (`keys_put`).  Two keys are one if the `==` of their type says so,
  which need not be equality (`EquivBEq`).
* `distinct` keeps the first occurrence of every entry of a list.
-/

namespace Lineage

universe u v

/-- A table from keys to values, in the order in which its keys were
first entered. -/
abbrev Keyed (κ : Type u) (α : Type v) := List (κ × α)

namespace Keyed

variable {κ : Type u} {α : Type v}

/-- The keys, in order of first entry. -/
def keys (table : Keyed κ α) : List κ :=
  table.map (·.1)

/-- The values, in order of first entry of their keys. -/
def values (table : Keyed κ α) : List α :=
  table.map (·.2)

@[simp] theorem keys_nil : keys ([] : Keyed κ α) = [] := rfl

@[simp] theorem keys_cons (p : κ × α) (rest : Keyed κ α) : keys (p :: rest) = p.1 :: keys rest :=
  rfl

variable [BEq κ]

/-- The value entered under a key. -/
def get? : Keyed κ α → κ → Option α
  | [], _ => none
  | (k, v) :: rest, key => if k == key then some v else get? rest key

/-- Enters a value: a known key keeps its place, a new key goes last. -/
def put : Keyed κ α → κ → α → Keyed κ α
  | [], key, value => [(key, value)]
  | (k, v) :: rest, key, value =>
    if k == key then (k, value) :: rest else (k, v) :: put rest key value

/-- Removes a key. -/
def remove : Keyed κ α → κ → Keyed κ α
  | [], _ => []
  | (k, v) :: rest, key => if k == key then rest else (k, v) :: remove rest key

/-- Whether a key was entered. -/
def has (table : Keyed κ α) (key : κ) : Bool :=
  (table.get? key).isSome

/-- Enters the pairs of a list one after the other: of a repeated key
the last value counts, in the first place. -/
def putAll (table : Keyed κ α) (pairs : List (κ × α)) : Keyed κ α :=
  pairs.foldl (fun t p => t.put p.1 p.2) table

/-- The table of a list of pairs. -/
def ofPairs (pairs : List (κ × α)) : Keyed κ α :=
  putAll [] pairs

theorem get?_put_self [EquivBEq κ] (table : Keyed κ α) (key : κ) (value : α) :
    (table.put key value).get? key = some value := by
  induction table with
  | nil => simp [put, get?]
  | cons p rest ih =>
    by_cases h : (p.1 == key) = true
    · simp [put, get?, h]
    · simp [put, get?, h, ih]

theorem get?_put_of_ne [EquivBEq κ] (table : Keyed κ α) {key other : κ} (value : α)
    (h : (key == other) = false) : (table.put key value).get? other = table.get? other := by
  induction table with
  | nil => simp [put, get?, h]
  | cons p rest ih =>
    by_cases hp : (p.1 == key) = true
    · have ho : (p.1 == other) = false := by
        rw [← h]
        exact BEq.congr_left hp
      simp [put, get?, hp, ho]
    · by_cases ho : (p.1 == other) = true
      · simp [put, get?, hp, ho]
      · simp [put, get?, hp, ho, ih]

/-- A known key keeps its place and a new one goes last. -/
theorem keys_put (table : Keyed κ α) (key : κ) (value : α) :
    (table.put key value).keys =
      if table.keys.any (· == key) then table.keys else table.keys ++ [key] := by
  induction table with
  | nil => simp [put]
  | cons p rest ih =>
    by_cases h : (p.1 == key) = true
    · simp [put, h]
    · rw [put, if_neg h, keys_cons, ih, keys_cons, List.any_cons]
      by_cases hm : ((keys rest).any (· == key)) = true
      · simp [hm]
      · simp [hm, h]

theorem get?_put [EquivBEq κ] (table : Keyed κ α) (key other : κ) (value : α) :
    (table.put key value).get? other = if key == other then some value else table.get? other := by
  by_cases h : (key == other) = true
  · rw [if_pos h, ← get?_put_self table key value]
    generalize table.put key value = t
    induction t with
    | nil => rfl
    | cons p rest ih =>
      have hp : (p.1 == other) = (p.1 == key) := BEq.congr_right (BEq.symm h)
      simp only [get?, hp, ih]
  · rw [if_neg h]
    exact get?_put_of_ne table value (Bool.eq_false_iff.mpr h)

/-- Entering a value leaves alone what a selection by value keeps, if
the selection keeps neither the new value nor the old one. -/
theorem filter_values_put {table : Keyed κ α} {key : κ} {value : α} {keep : α → Bool}
    (hnew : keep value = false) (hold : ∀ old, table.get? key = some old → keep old = false) :
    (table.put key value).values.filter keep = table.values.filter keep := by
  induction table with
  | nil => simp [put, values, hnew]
  | cons p rest ih =>
    by_cases h : (p.1 == key) = true
    · have hp : keep p.2 = false := hold p.2 (by simp [get?, h])
      simp [put, values, h, hnew, hp]
    · have hrest : (put rest key value).values.filter keep = (values rest).filter keep :=
        ih fun old ho => hold old (by simpa [get?, h] using ho)
      simp only [values] at hrest
      simp [put, values, h, List.filter_cons, hrest]

theorem keys_remove_sublist (table : Keyed κ α) (key : κ) :
    (table.remove key).keys.Sublist table.keys := by
  induction table with
  | nil => exact List.Sublist.slnil
  | cons p rest ih =>
    by_cases hp : (p.1 == key) = true
    · simp [remove, hp]
    · simpa [remove, hp] using ih

/-! ## Tables whose keys repeat nowhere -/

section Lawful

variable [LawfulBEq κ] {table : Keyed κ α} {key : κ} {value : α}

theorem mem_of_get? (h : table.get? key = some value) : (key, value) ∈ table := by
  induction table with
  | nil => cases h
  | cons p rest ih =>
    by_cases hp : (p.1 == key) = true
    · have hv : p.2 = value := by simpa [get?, hp] using h
      rw [← eq_of_beq hp, ← hv]
      exact List.mem_cons_self
    · exact List.mem_cons_of_mem _ (ih (by simpa [get?, hp] using h))

theorem get?_eq_none_iff : table.get? key = none ↔ key ∉ table.keys := by
  induction table with
  | nil => simp [get?]
  | cons p rest ih =>
    by_cases hp : p.1 = key
    · simp [get?, hp]
    · simp [get?, hp, ih, Ne.symm hp]

theorem get?_of_mem (hk : table.keys.Nodup) (h : (key, value) ∈ table) :
    table.get? key = some value := by
  induction table with
  | nil => cases h
  | cons p rest ih =>
    rw [keys_cons, List.nodup_cons] at hk
    rcases List.mem_cons.mp h with rfl | h
    · simp [get?]
    · have hp : p.1 ≠ key := fun heq => hk.1 (heq ▸ List.mem_map_of_mem (f := (·.1)) h)
      simp [get?, hp, ih hk.2 h]

theorem mem_put {p : κ × α} (h : p ∈ table.put key value) : p ∈ table ∨ p = (key, value) := by
  induction table with
  | nil => exact .inr (List.mem_singleton.mp h)
  | cons q rest ih =>
    by_cases hq : (q.1 == key) = true
    · simp only [put, hq, if_true] at h
      rcases List.mem_cons.mp h with rfl | h
      · exact .inr (by rw [eq_of_beq hq])
      · exact .inl (List.mem_cons_of_mem _ h)
    · simp only [put, hq] at h
      rcases List.mem_cons.mp h with rfl | h
      · exact .inl List.mem_cons_self
      · exact (ih h).imp (List.mem_cons_of_mem _) id

theorem nodup_keys_put (hk : table.keys.Nodup) (key : κ) (value : α) :
    (table.put key value).keys.Nodup := by
  rw [keys_put]
  split
  · exact hk
  · rename_i h
    have hnew : key ∉ table.keys := by simpa using h
    exact List.nodup_append.mpr ⟨hk, by simp, fun a ha b hb heq =>
      hnew (List.mem_singleton.mp hb ▸ heq ▸ ha)⟩

/-- A new value for a known key is a replacement among the values. -/
theorem values_put_eq_map {old : α} {f : α → α} (hk : table.keys.Nodup)
    (h : table.get? key = some old) (hnew : f old = value)
    (hkeep : ∀ p ∈ table, p.1 ≠ key → f p.2 = p.2) :
    (table.put key value).values = table.values.map f := by
  induction table with
  | nil => cases h
  | cons p rest ih =>
    rw [keys_cons, List.nodup_cons] at hk
    have hrest : ∀ q ∈ rest, q.1 ≠ key → f q.2 = q.2 := fun q hq =>
      hkeep q (List.mem_cons_of_mem _ hq)
    by_cases hp : p.1 = key
    · have hold : p.2 = old := by simpa [get?, hp] using h
      have hsame : (values rest).map f = values rest := by
        unfold values
        rw [List.map_map]
        refine List.map_congr_left fun q hq => hrest q hq fun heq => hk.1 ?_
        rw [hp, ← heq]
        exact List.mem_map_of_mem hq
      rw [put, if_pos (beq_iff_eq.mpr hp)]
      change value :: values rest = f p.2 :: (values rest).map f
      rw [hold, hnew, hsame]
    · have hih := ih hk.2 (by simpa [get?, hp] using h) hrest
      rw [put, if_neg (by simpa using hp)]
      change p.2 :: (put rest key value).values = f p.2 :: (values rest).map f
      rw [hih, hkeep p List.mem_cons_self hp]

theorem get?_remove (hk : table.keys.Nodup) (key other : κ) :
    (table.remove key).get? other = if key == other then none else table.get? other := by
  induction table with
  | nil => simp [remove, get?]
  | cons p rest ih =>
    rw [keys_cons, List.nodup_cons] at hk
    by_cases hp : (p.1 == key) = true
    · obtain rfl := eq_of_beq hp
      by_cases ho : p.1 = other
      · subst ho
        simpa [remove] using get?_eq_none_iff.mpr hk.1
      · simp [remove, get?, ho]
    · by_cases ho : p.1 = other
      · subst ho
        have hkey : key ≠ p.1 := fun heq => hp (by simp [heq])
        simp [remove, get?, hp, hkey]
      · simp [remove, get?, hp, ho, ih hk.2]

end Lawful

/-! ## Tables without repeated keys -/

section Unrepeated

/-- No two keys of the table are one. -/
def Unrepeated (table : Keyed κ α) : Prop :=
  table.keys.Pairwise fun key other => (key == other) = false

instance (table : Keyed κ α) : Decidable table.Unrepeated :=
  inferInstanceAs (Decidable (List.Pairwise _ _))

theorem unrepeated_nil : Unrepeated ([] : Keyed κ α) :=
  List.Pairwise.nil

theorem unrepeated_cons {p : κ × α} {rest : Keyed κ α} :
    Unrepeated (p :: rest) ↔ (∀ q ∈ rest, (p.1 == q.1) = false) ∧ Unrepeated rest := by
  rw [Unrepeated, keys_cons, List.pairwise_cons]
  simp [keys, Unrepeated]

/-- Tables with the same keys in the same order repeat the same keys. -/
theorem Unrepeated.of_keys_eq {β : Type v} {table : Keyed κ α} {other : Keyed κ β}
    (h : table.Unrepeated) (heq : other.keys = table.keys) : other.Unrepeated := by
  rw [Unrepeated, heq]
  exact h

theorem Unrepeated.filter {table : Keyed κ α} (h : table.Unrepeated) (keep : κ × α → Bool) :
    Unrepeated (table.filter keep) :=
  List.Pairwise.sublist (List.filter_sublist.map _) h

theorem Unrepeated.put {table : Keyed κ α} (h : table.Unrepeated) (key : κ) (value : α) :
    (table.put key value).Unrepeated := by
  rw [Unrepeated, keys_put]
  split
  · exact h
  · rename_i hnew
    refine List.pairwise_append.mpr ⟨h, List.pairwise_singleton _ _, fun k hk l hl => ?_⟩
    obtain rfl := List.mem_singleton.mp hl
    have hnone : table.keys.any (· == l) = false := Bool.eq_false_iff.mpr hnew
    rw [List.any_eq_false] at hnone
    exact Bool.eq_false_iff.mpr (hnone k hk)

theorem Unrepeated.putAll {table : Keyed κ α} (h : table.Unrepeated) (pairs : List (κ × α)) :
    (table.putAll pairs).Unrepeated := by
  induction pairs generalizing table with
  | nil => exact h
  | cons p rest ih => exact ih (h.put p.1 p.2)

theorem unrepeated_ofPairs (pairs : List (κ × α)) : Unrepeated (ofPairs pairs) :=
  unrepeated_nil.putAll pairs

/-- A value that is found stands under the key that was looked for, in
one of its spellings. -/
theorem exists_mem_of_get? {table : Keyed κ α} {key : κ} {value : α}
    (h : table.get? key = some value) : ∃ k, (k, value) ∈ table ∧ (k == key) = true := by
  induction table with
  | nil => cases h
  | cons p rest ih =>
    by_cases hp : (p.1 == key) = true
    · rw [get?, if_pos hp] at h
      obtain rfl := Option.some.inj h
      exact ⟨p.1, List.mem_cons_self, hp⟩
    · rw [get?, if_neg hp] at h
      obtain ⟨k, hk, hkey⟩ := ih h
      exact ⟨k, List.mem_cons_of_mem _ hk, hkey⟩

theorem get?_eq_none {table : Keyed κ α} {key : κ} (h : ∀ p ∈ table, (p.1 == key) = false) :
    table.get? key = none := by
  cases hget : table.get? key with
  | none => rfl
  | some value =>
    obtain ⟨k, hk, hkey⟩ := exists_mem_of_get? hget
    rw [h _ hk] at hkey
    cases hkey

/-- What a table holds once a value has been entered was there before or
is the new value. -/
theorem mem_or_eq_of_mem_put {table : Keyed κ α} {key : κ} {value : α} {p : κ × α}
    (h : p ∈ table.put key value) : p ∈ table ∨ p.2 = value := by
  induction table with
  | nil => exact .inr (by rw [List.mem_singleton.mp h])
  | cons q rest ih =>
    rw [put] at h
    split at h
    · rcases List.mem_cons.mp h with rfl | h
      · exact .inr rfl
      · exact .inl (List.mem_cons_of_mem _ h)
    · rcases List.mem_cons.mp h with rfl | h
      · exact .inl List.mem_cons_self
      · exact (ih h).imp_left (List.mem_cons_of_mem _)

theorem mem_or_exists_of_mem_putAll {table : Keyed κ α} {pairs : List (κ × α)} {p : κ × α}
    (h : p ∈ table.putAll pairs) : p ∈ table ∨ ∃ q ∈ pairs, p.2 = q.2 := by
  induction pairs generalizing table with
  | nil => exact .inl h
  | cons q rest ih =>
    rcases ih h with h | ⟨r, hr, heq⟩
    · rcases mem_or_eq_of_mem_put h with h | heq
      · exact .inl h
      · exact .inr ⟨q, List.mem_cons_self, heq⟩
    · exact .inr ⟨r, List.mem_cons_of_mem _ hr, heq⟩

/-- Every value of a table of pairs is that of one of the pairs. -/
theorem exists_mem_of_mem_ofPairs {pairs : List (κ × α)} {p : κ × α} (h : p ∈ ofPairs pairs) :
    ∃ q ∈ pairs, p.2 = q.2 :=
  (mem_or_exists_of_mem_putAll h).resolve_left List.not_mem_nil

/-- A new key goes last. -/
theorem put_of_new {table : Keyed κ α} {key : κ} (h : ∀ p ∈ table, (p.1 == key) = false)
    (value : α) : table.put key value = table ++ [(key, value)] := by
  induction table with
  | nil => rfl
  | cons p rest ih =>
    rw [put, h p List.mem_cons_self, ih fun q hq => h q (List.mem_cons_of_mem _ hq)]
    rfl

/-- Pairs of which no two have one key are a table as they stand. -/
theorem ofPairs_of_unrepeated {pairs : Keyed κ α} (h : pairs.Unrepeated) :
    ofPairs pairs = pairs := by
  -- Every pair goes behind those that have been entered.
  have hbehind : ∀ entered rest : Keyed κ α, Unrepeated (entered ++ rest) →
      putAll entered rest = entered ++ rest := by
    intro entered rest
    induction rest generalizing entered with
    | nil => exact fun _ => (List.append_nil entered).symm
    | cons p rest ih =>
      intro h
      have hnew : ∀ q ∈ entered, (q.1 == p.1) = false := by
        rw [Unrepeated, keys, List.map_append, List.pairwise_append] at h
        exact fun q hq => h.2.2 q.1 (List.mem_map_of_mem hq) p.1 List.mem_cons_self
      have hcons : putAll entered (p :: rest) = putAll (entered.put p.1 p.2) rest := rfl
      have hsplit : entered ++ p :: rest = (entered ++ [p]) ++ rest := by simp
      rw [hsplit] at h ⊢
      rw [hcons, put_of_new hnew]
      exact ih _ h
  exact hbehind [] pairs h

/-- Other values under the same keys are found where the values were. -/
theorem get?_map {β : Type v} (table : Keyed κ α) (g : α → β) (key : κ) :
    Keyed.get? (table.map fun p => (p.1, g p.2)) key = (table.get? key).map g := by
  induction table with
  | nil => rfl
  | cons p rest ih =>
    rw [List.map_cons, get?, get?, ih]
    split <;> rfl

/-- Entering a value and then taking other values under the same keys. -/
theorem map_put {β : Type v} (table : Keyed κ α) (g : α → β) (key : κ) (value : α) :
    (table.put key value).map (fun p => (p.1, g p.2))
      = Keyed.put (table.map fun p => (p.1, g p.2)) key (g value) := by
  induction table with
  | nil => rfl
  | cons p rest ih =>
    rw [List.map_cons, put, put]
    split
    · rfl
    · rw [List.map_cons, ih]

variable [EquivBEq κ]

/-- Where no key is repeated every pair is found. -/
theorem Unrepeated.get?_of_mem {table : Keyed κ α} (h : table.Unrepeated) {p : κ × α}
    (hp : p ∈ table) : table.get? p.1 = some p.2 := by
  induction table with
  | nil => cases hp
  | cons q rest ih =>
    obtain ⟨hq, hrest⟩ := unrepeated_cons.mp h
    rcases List.mem_cons.mp hp with rfl | hp
    · rw [get?, if_pos BEq.rfl]
    · rw [get?, hq p hp]
      exact ih hrest hp

/-- The order of the pairs does not matter. -/
theorem Unrepeated.perm {table other : Keyed κ α} (h : table.Unrepeated) (hp : table.Perm other) :
    other.Unrepeated := by
  refine List.Pairwise.perm h (hp.map Prod.fst) fun {key other} hne => ?_
  rw [Bool.eq_false_iff] at hne ⊢
  exact fun heq => hne (BEq.symm heq)

/-- Keys that are one have the same value. -/
theorem get?_congr (table : Keyed κ α) {key other : κ} (h : (key == other) = true) :
    table.get? key = table.get? other := by
  induction table with
  | nil => rfl
  | cons p rest ih =>
    have hp : (p.1 == key) = (p.1 == other) := BEq.congr_right h
    simp only [get?, hp, ih]

/-- A value is found wherever its pair stands. -/
theorem Unrepeated.get?_perm {table other : Keyed κ α} (h : table.Unrepeated)
    (hp : table.Perm other) (key : κ) : other.get? key = table.get? key := by
  have hfound : ∀ {t u : Keyed κ α} {value : α}, u.Unrepeated → t.Perm u →
      t.get? key = some value → u.get? key = some value := by
    intro t u value hu hperm ht
    obtain ⟨k, hk, hkey⟩ := exists_mem_of_get? ht
    rw [← get?_congr u hkey]
    exact hu.get?_of_mem (hperm.subset hk)
  cases htable : table.get? key with
  | some value => exact hfound (h.perm hp) hp htable
  | none =>
    cases hother : other.get? key with
    | none => rfl
    | some value => rw [← htable, hfound h hp.symm hother]

/-- A selection by value keeps what it selects, if no key is
repeated. -/
theorem get?_filter {table : Keyed κ α} (h : table.Unrepeated) (keep : α → Bool) (key : κ) :
    Keyed.get? (table.filter fun p => keep p.2) key = (table.get? key).filter keep := by
  induction table with
  | nil => rfl
  | cons p rest ih =>
    obtain ⟨hp, hrest⟩ := unrepeated_cons.mp h
    by_cases hkey : (p.1 == key) = true
    · -- Behind a key that is dropped the same key does not come again.
      have hnone : ∀ q ∈ rest.filter fun p => keep p.2, (q.1 == key) = false := by
        intro q hq
        rw [← BEq.congr_right hkey]
        exact Bool.eq_false_iff.mpr fun heq =>
          Bool.eq_false_iff.mp (hp q (List.mem_filter.mp hq).1) (BEq.symm heq)
      cases hkeep : keep p.2 with
      | true => simp [get?, hkey, hkeep, Option.filter]
      | false =>
        rw [List.filter_cons_of_neg (by simp [hkeep]), get?_eq_none hnone]
        simp [get?, hkey, hkeep, Option.filter]
    · cases hkeep : keep p.2 with
      | true => simp [get?, hkey, hkeep, ih hrest]
      | false => simp [get?, hkey, hkeep, ih hrest]

end Unrepeated

end Keyed

/-- The entries of a list without repetitions, each at its first place. -/
def distinct {α : Type u} [DecidableEq α] : List α → List α
  | [] => []
  | x :: rest => x :: (distinct rest).filter (fun y => y ≠ x)

theorem mem_distinct {α : Type u} [DecidableEq α] {xs : List α} {a : α} :
    a ∈ distinct xs ↔ a ∈ xs := by
  induction xs with
  | nil => simp [distinct]
  | cons x rest ih =>
    by_cases h : a = x
    · simp [distinct, h]
    · simp [distinct, h, ih]

/-- A last entry is kept if it is new. -/
theorem distinct_concat {α : Type u} [DecidableEq α] (xs : List α) (a : α) :
    distinct (xs ++ [a]) = if a ∈ xs then distinct xs else distinct xs ++ [a] := by
  induction xs with
  | nil => simp [distinct]
  | cons x rest ih =>
    rw [List.cons_append, distinct, ih, distinct]
    by_cases hrest : a ∈ rest
    · simp [hrest]
    · by_cases hax : a = x
      · simp [hax, apply_ite, List.filter_append]
      · simp [hrest, hax]

theorem nodup_distinct {α : Type u} [DecidableEq α] (xs : List α) : (distinct xs).Nodup := by
  induction xs with
  | nil => simp [distinct]
  | cons x rest ih =>
    simp only [distinct, List.nodup_cons]
    exact ⟨by simp, ih.filter _⟩

/-- A list without repetitions stays as it is. -/
theorem distinct_of_nodup {α : Type u} [DecidableEq α] {xs : List α} (h : xs.Nodup) :
    distinct xs = xs := by
  induction xs with
  | nil => rfl
  | cons x rest ih =>
    rw [List.nodup_cons] at h
    rw [distinct, ih h.2, List.filter_eq_self.mpr]
    intro y hy
    have hne : y ≠ x := fun heq => h.1 (heq ▸ hy)
    simpa using hne

/-- Behind other entries those are kept that are new. -/
theorem distinct_append {α : Type u} [DecidableEq α] (xs ys : List α) :
    distinct (xs ++ ys) = distinct xs ++ (distinct ys).filter fun y => y ∉ xs := by
  induction xs with
  | nil =>
    have hall : (distinct ys).filter (fun y => y ∉ []) = distinct ys :=
      List.filter_eq_self.mpr fun _ _ => by simp
    rw [hall]
    rfl
  | cons x rest ih => simp [distinct, ih, List.filter_append, List.filter_filter]

end Lineage
