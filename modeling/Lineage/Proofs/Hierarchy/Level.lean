/-
Lineage.Proofs.Hierarchy.Level — what the layering rule admits.

`mem_nextLevel` opens the rule once: a member below a path is either a
direct one, which lists the path and nothing else, or a free one, which
lists the path and no direct one, and in that case it lists no free one
either.  Later modules cite it and do not unfold the rule again.
-/
import Lineage.Hierarchy.Collection
import Mathlib.Data.List.Perm.Basic

namespace Lineage

universe u

variable {α : Type u} [Grouped α]

/-- An active record that says no more than what it is attached under. -/
def Group.plain (shortId : Text) (references : List Text) : Group :=
  { id := none, shortId := shortId, version := 1, name := [], description := [], language := "en",
    active := true, virtual := false, creationMs := 0, creationBy := none, modificationMs := 0,
    deletionMs := 0, references := references }

/-- `m` lists the short id of `b` among its references. -/
def Lists (m b : α) : Prop :=
  Grouped.shortId b ∈ Grouped.references m

instance (m b : α) : Decidable (Lists m b) :=
  inferInstanceAs (Decidable (Grouped.shortId b ∈ Grouped.references m))

theorem refersTo_iff_lists {m b : α} :
    (Grouped.group m).refersTo (Grouped.shortId b) = true ↔ Lists m b := by
  simp [Group.refersTo, Lists, Grouped.references]

namespace Collection

/-- A path that a member lists repeats no entry. -/
theorem listsPath_iff {path : List Text} {m : α} :
    listsPath path m = true ↔ path.Nodup ∧ ∀ s ∈ path, s ∈ Grouped.references m := by
  let listed := (distinct (Grouped.references m)).filter fun r => path.contains r
  have hmem : ∀ s, s ∈ listed ↔ s ∈ Grouped.references m ∧ s ∈ path := by
    simp [listed, mem_distinct]
  have hd : listed.Nodup := (nodup_distinct _).filter _
  have hdef : listsPath path m = true ↔ listed.length = path.length := by
    simp [listsPath, listed]
  rw [hdef]
  constructor
  · intro hlen
    have hsub : listed ⊆ path := fun s hs => ((hmem s).mp hs).2
    have hperm : listed.Perm path := (List.subperm_of_subset hd hsub).perm_of_length_le (Nat.le_of_eq hlen.symm)
    exact ⟨hperm.nodup_iff.mp hd, fun s hs => ((hmem s).mp (hperm.mem_iff.mpr hs)).1⟩
  · rintro ⟨hp, hall⟩
    refine ((List.perm_ext_iff_of_nodup hd hp).mpr fun s => ?_).length_eq
    rw [hmem]
    exact ⟨And.right, fun hs => ⟨hall s hs, hs⟩⟩

/-- Of the members that list a path, the direct ones list nothing
else. -/
theorem isDirect_iff {path : List Text} {m : α} (h : listsPath path m = true) :
    isDirect path m = true ↔ ∀ s ∈ Grouped.references m, s ∈ path := by
  obtain ⟨hp, hall⟩ := listsPath_iff.mp h
  have hsub : path ⊆ distinct (Grouped.references m) := fun s hs => mem_distinct.mpr (hall s hs)
  have hdef : isDirect path m = true ↔ (distinct (Grouped.references m)).length = path.length := by
    simp [isDirect]
  rw [hdef]
  constructor
  · intro hlen s hs
    have hperm : path.Perm (distinct (Grouped.references m)) :=
      (List.subperm_of_subset hp hsub).perm_of_length_le (Nat.le_of_eq hlen)
    exact hperm.mem_iff.mpr (mem_distinct.mpr hs)
  · intro honly
    refine ((List.perm_ext_iff_of_nodup (nodup_distinct _) hp).mpr fun s => ?_).length_eq
    exact ⟨fun hs => honly s (mem_distinct.mp hs), fun hs => hsub hs⟩

theorem avoids_iff {ms : List α} {m : α} :
    avoids (ms.map Grouped.shortId) m = true ↔ ∀ b ∈ ms, ¬ Lists m b := by
  simp only [avoids, List.all_eq_true, Bool.not_eq_true', List.contains_eq_mem,
    decide_eq_false_iff_not, List.mem_map, not_exists, not_and]
  constructor
  · intro h b hb hl
    exact h _ hl b hb rfl
  · rintro h s hs b hb rfl
    exact h b hb hs

/-! ## The three stages of the rule -/

/-- A member that lists a path. -/
def Candidate (c : Collection α) (path : List Text) (m : α) : Prop :=
  m ∈ c.members ∧ listsPath path m = true

/-- A candidate that lists the path and nothing else. -/
def Direct (c : Collection α) (path : List Text) (m : α) : Prop :=
  c.Candidate path m ∧ isDirect path m = true

/-- A candidate that lists something else too, but no direct one. -/
def Free (c : Collection α) (path : List Text) (m : α) : Prop :=
  c.Candidate path m ∧ isDirect path m = false ∧ ∀ d, c.Direct path d → ¬ Lists m d

/-- A group stands directly below a path if it is a direct one, or a free
one that lists no free one. -/
theorem mem_nextLevel {c : Collection α} {path : List Text} {m : α} :
    m ∈ c.nextLevel path ↔
      c.Direct path m ∨ (c.Free path m ∧ ∀ f, c.Free path f → ¬ Lists m f) := by
  let direct := (c.members.filter (listsPath path)).filter (isDirect path)
  let deferred := (c.members.filter (listsPath path)).filter fun m => !isDirect path m
  let free := deferred.filter (avoids (direct.map Grouped.shortId))
  have hdirect : ∀ d, d ∈ direct ↔ c.Direct path d := by
    intro d
    simp only [direct, List.mem_filter, Direct, Candidate]
  have hfree : ∀ f, f ∈ free ↔ c.Free path f := by
    intro f
    simp only [free, deferred, List.mem_filter, avoids_iff, hdirect, Free, Candidate,
      Bool.not_eq_true', and_assoc]
  have hdef : c.nextLevel path = direct ++ free.filter (avoids (free.map Grouped.shortId)) := rfl
  rw [hdef, List.mem_append, hdirect, List.mem_filter, avoids_iff, hfree]
  simp only [hfree]

theorem candidate_of_mem_nextLevel {c : Collection α} {path : List Text} {m : α}
    (h : m ∈ c.nextLevel path) : c.Candidate path m := by
  rcases mem_nextLevel.mp h with hd | ⟨hf, _⟩
  · exact hd.1
  · exact hf.1

theorem mem_members_of_mem_nextLevel {c : Collection α} {path : List Text} {m : α}
    (h : m ∈ c.nextLevel path) : m ∈ c.members :=
  (candidate_of_mem_nextLevel h).1

theorem mem_references_of_mem_nextLevel {c : Collection α} {path : List Text} {m : α}
    (h : m ∈ c.nextLevel path) : ∀ s ∈ path, s ∈ Grouped.references m :=
  (listsPath_iff.mp (candidate_of_mem_nextLevel h).2).2

/-- A group that lists itself never stands below a path without it: it
would be a free one that lists a free one. -/
theorem not_lists_self_of_mem_nextLevel {c : Collection α} {path : List Text} {m : α}
    (h : m ∈ c.nextLevel path) (hm : Grouped.shortId m ∉ path) : ¬ Lists m m := by
  rcases mem_nextLevel.mp h with ⟨hc, hd⟩ | ⟨hf, hnone⟩
  · exact fun hl => hm ((isDirect_iff hc.2).mp hd _ hl)
  · exact hnone m hf

end Collection

end Lineage
