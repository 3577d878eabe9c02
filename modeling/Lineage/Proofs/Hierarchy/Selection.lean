/-
Lineage.Proofs.Hierarchy.Selection — what stands directly below a path,
said without the stages of the layering rule.

The rule filters three times and counts what it filters by.  Below a path
without repetitions the counts say which members list the whole path
(`ListsAll`) and which list nothing else (`ListsOnly`), and neither depends
on the order of the path (`nextLevel_perm`).  `nextLevel_of_nodup` puts
together what comes of the filters: who is admitted and in which order,
that no admitted member lists another one off the path, and that what is
put off is put off for good reason: references lead from it, by way of
members that list the whole path too, to an admitted one.
-/
import Lineage.Proofs.Hierarchy.Gaps

namespace Lineage.Collection

universe u

variable {α : Type u} [Grouped α] {c : Collection α} {path path' : List Text} {m g g' : α}

/-- A member lists every entry of a path. -/
def ListsAll (path : List Text) (m : α) : Prop :=
  ∀ s ∈ path, s ∈ Grouped.references m

/-- A member lists nothing but entries of a path. -/
def ListsOnly (path : List Text) (m : α) : Prop :=
  ∀ s ∈ Grouped.references m, s ∈ path

instance (path : List Text) (m : α) : Decidable (ListsAll path m) :=
  inferInstanceAs (Decidable (∀ s ∈ path, s ∈ Grouped.references m))

instance (path : List Text) (m : α) : Decidable (ListsOnly path m) :=
  inferInstanceAs (Decidable (∀ s ∈ Grouped.references m, s ∈ path))

/-- A member lists another one, and both list the whole path. -/
structure ListsAmong (c : Collection α) (path : List Text) (a b : α) : Prop where
  listed : c.MemberLists a b
  left : ListsAll path a
  right : ListsAll path b

/-! ## The three stages -/

theorem listsPath_eq (hp : path.Nodup) (m : α) : listsPath path m = decide (ListsAll path m) := by
  rw [Bool.eq_iff_iff, listsPath_iff, decide_eq_true_iff]
  exact and_iff_right hp

theorem isDirect_eq (hp : path.Nodup) (h : ListsAll path m) :
    isDirect path m = decide (ListsOnly path m) := by
  have hlists : listsPath path m = true := listsPath_iff.mpr ⟨hp, h⟩
  rw [Bool.eq_iff_iff, isDirect_iff hlists, decide_eq_true_iff]
  rfl

theorem candidate_iff (hp : path.Nodup) : c.Candidate path m ↔ m ∈ c.members ∧ ListsAll path m := by
  rw [Candidate, listsPath_eq hp, decide_eq_true_iff]

/-- The direct members are those that list the path and nothing else. -/
theorem filter_direct (hp : path.Nodup) (ms : List α) :
    (ms.filter (listsPath path)).filter (isDirect path)
      = ms.filter fun m => ListsAll path m ∧ ListsOnly path m := by
  rw [List.filter_filter]
  refine List.filter_congr fun m _ => ?_
  by_cases h : ListsAll path m
  · simp [listsPath_eq hp, isDirect_eq hp h, h]
  · simp [listsPath_eq hp, h]

/-- The deferred ones list something else too. -/
theorem filter_deferred (hp : path.Nodup) (ms : List α) :
    (ms.filter (listsPath path)).filter (fun m => !isDirect path m)
      = ms.filter fun m => ListsAll path m ∧ ¬ ListsOnly path m := by
  rw [List.filter_filter]
  refine List.filter_congr fun m _ => ?_
  by_cases h : ListsAll path m
  · simp [listsPath_eq hp, isDirect_eq hp h, h]
  · simp [listsPath_eq hp, h]

/-- First come all members that list the path and nothing else, then some
of the others that list it, in the order of the members. -/
theorem exists_nextLevel_eq_append (hp : path.Nodup) :
    ∃ rest, c.nextLevel path
        = (c.members.filter fun m => ListsAll path m ∧ ListsOnly path m) ++ rest
      ∧ rest.Sublist (c.members.filter fun m => ListsAll path m ∧ ¬ ListsOnly path m) := by
  rw [← filter_direct hp, ← filter_deferred hp]
  exact ⟨_, rfl, List.filter_sublist.trans List.filter_sublist⟩

/-- The order of a path does not matter. -/
theorem nextLevel_perm (c : Collection α) (h : path.Perm path') :
    c.nextLevel path' = c.nextLevel path := by
  have hlists : listsPath (α := α) path' = listsPath path := by
    funext m
    have hcontains : (fun r => path'.contains r) = fun r => path.contains r := by
      funext r
      rw [Bool.eq_iff_iff, List.contains_iff_mem, List.contains_iff_mem, h.mem_iff]
    rw [listsPath, listsPath, hcontains, h.length_eq]
  have hdirect : isDirect (α := α) path' = isDirect path := by
    funext m
    rw [isDirect, isDirect, h.length_eq]
  rw [nextLevel, nextLevel, hlists, hdirect]

/-- No member that stands directly below a path lists another one that
does, nor itself, but for what is on the path. -/
theorem not_lists_of_mem_nextLevel (hg : g ∈ c.nextLevel path) (hg' : g' ∈ c.nextLevel path)
    (hoff : Grouped.shortId g' ∉ path) : ¬ Lists g g' := by
  rcases mem_nextLevel.mp hg with ⟨hc, hdirect⟩ | ⟨⟨-, -, hnodirect⟩, hnofree⟩
  · exact fun hl => hoff ((isDirect_iff hc.2).mp hdirect _ hl)
  · rcases mem_nextLevel.mp hg' with hdirect' | ⟨hfree', -⟩
    · exact hnodirect g' hdirect'
    · exact hnofree g' hfree'

/-! ## What is put off -/

theorem ListsAmong.of_freeLists {a b : α} (hp : path.Nodup) (h : c.FreeLists path a b) :
    c.ListsAmong path a b := by
  obtain ⟨⟨ha, -, -⟩, ⟨hb, -, -⟩, hl⟩ := h
  obtain ⟨ham, hall⟩ := (candidate_iff hp).mp ha
  obtain ⟨hbm, hall'⟩ := (candidate_iff hp).mp hb
  exact ⟨⟨ham, hbm, hl⟩, hall, hall'⟩

/-- Where listing among the members that list the whole path is acyclic,
it leads from every one of them that is put off to one that is
admitted. -/
theorem exists_nextLevel_of_not_mem (hp : path.Nodup)
    (hacyclic : ∀ a, ¬ Relation.TransGen (c.ListsAmong path) a a)
    (hm : m ∈ c.members) (hall : ListsAll path m) (hoff : m ∉ c.nextLevel path) :
    ∃ g ∈ c.nextLevel path, Relation.TransGen (c.ListsAmong path) m g := by
  have hcand : c.Candidate path m := (candidate_iff hp).mpr ⟨hm, hall⟩
  rcases exists_listed_of_not_mem_nextLevel hcand hoff with ⟨d, hd, hl⟩ | ⟨hfree, f, hf, hl⟩
  · obtain ⟨hdm, hdall⟩ := (candidate_iff hp).mp hd.1
    exact ⟨d, mem_nextLevel.mpr (.inl hd), .single ⟨⟨hm, hdm, hl⟩, hall, hdall⟩⟩
  · have hfreeAcyclic : ∀ a, ¬ Relation.TransGen (c.FreeLists path) a a := fun a ha =>
      hacyclic a (Relation.TransGen.mono (fun _ _ h => .of_freeLists hp h) _ _ ha)
    obtain ⟨g, hg, -, hfg⟩ := exists_nextLevel_of_free hfreeAcyclic hf
    have hmf : c.ListsAmong path m f := .of_freeLists hp ⟨hfree, hf, hl⟩
    have hrest : Relation.ReflTransGen (c.ListsAmong path) f g :=
      Relation.ReflTransGen.mono (fun _ _ h => .of_freeLists hp h) _ _ hfg
    exact ⟨g, hg, .head' hmf hrest⟩

/-- Below a path without repetitions stand first all members that list
the path and nothing else and then some of the others that list it, each
part in the order of the members.  None of them lists another one off the
path; the order of the path does not matter; and where listing among the
members that list the whole path is acyclic, it leads from every one that
is put off to one that is admitted. -/
theorem nextLevel_of_nodup (c : Collection α) {path : List Text} (hp : path.Nodup) :
    (∃ rest, c.nextLevel path
          = (c.members.filter fun m => ListsAll path m ∧ ListsOnly path m) ++ rest
        ∧ rest.Sublist (c.members.filter fun m => ListsAll path m ∧ ¬ ListsOnly path m))
      ∧ (∀ g ∈ c.nextLevel path, ∀ g' ∈ c.nextLevel path,
          Grouped.shortId g' ∉ path → ¬ Lists g g')
      ∧ (∀ path', path.Perm path' → c.nextLevel path' = c.nextLevel path)
      ∧ ((∀ m, ¬ Relation.TransGen (c.ListsAmong path) m m) →
          ∀ m ∈ c.members, ListsAll path m → m ∉ c.nextLevel path →
            ∃ g ∈ c.nextLevel path, Relation.TransGen (c.ListsAmong path) m g) :=
  ⟨exists_nextLevel_eq_append hp, fun _ hg _ hg' => not_lists_of_mem_nextLevel hg hg',
    fun _ => nextLevel_perm c, fun hacyclic _ => exists_nextLevel_of_not_mem hp hacyclic⟩

/-- Below `a` stand `b`, which lists nothing else, `x`, which also lists a
group that is no member, `y`, which lists `x`, and `z`, which lists `b`. -/
def staged : Collection Group :=
  let r : Text := [.char 'r']
  let a : Text := [.char 'a']
  let u : Text := [.char 'u']
  ⟨r, .plain r [],
    [.plain [.char 'y'] [r, a, u, [.char 'x']], .plain [.char 'x'] [u, a, r],
      .plain [.char 'z'] [r, [.char 'b'], a], .plain [.char 'b'] [r, a], .plain a [r]], 16⟩

theorem acyclic_staged (path : List Text) :
    ∀ m, ¬ Relation.TransGen (staged.ListsAmong path) m m := by
  intro m h
  have key : ∀ m ∈ staged.members, ∀ b ∈ staged.members,
      Grouped.shortId b ∈ Grouped.references m → b.references.length < m.references.length := by
    decide +kernel
  refine acyclic_of_rank (c := staged) (fun m => m.references.length) ?_ m
    (Relation.TransGen.mono (fun _ _ hl => hl.listed) _ _ h)
  rintro m b ⟨hm, hb, hl⟩
  exact key m hm b hb hl

/-- Of the four that list `r` and `a`, `b` and `x` are admitted, and from
`y` a reference leads to one of them. -/
theorem nextLevel_of_nodup_staged :
    let path : List Text := [[.char 'r'], [.char 'a']]
    let y : Group := .plain [.char 'y'] [[.char 'r'], [.char 'a'], [.char 'u'], [.char 'x']]
    path.Nodup ∧ path.Perm path.reverse
      ∧ (staged.nextLevel path).map Group.shortId = [[.char 'b'], [.char 'x']]
      ∧ staged.nextLevel path.reverse = staged.nextLevel path
      ∧ (∀ m, ¬ Relation.TransGen (staged.ListsAmong path) m m)
      ∧ y ∈ staged.members ∧ ListsAll path y ∧ y ∉ staged.nextLevel path
      ∧ ∃ g ∈ staged.nextLevel path, Relation.TransGen (staged.ListsAmong path) y g := by
  intro path y
  have hp : path.Nodup := by decide
  have hperm : path.Perm path.reverse := (List.reverse_perm path).symm
  have hy : y ∈ staged.members := by decide +kernel
  have hall : ListsAll path y := by decide +kernel
  have hoff : y ∉ staged.nextLevel path := by decide +kernel
  obtain ⟨-, -, hreordered, hlinked⟩ := nextLevel_of_nodup staged hp
  exact ⟨hp, hperm, by decide +kernel, hreordered _ hperm, acyclic_staged path, hy, hall, hoff,
    hlinked (acyclic_staged path) y hy hall hoff⟩

end Lineage.Collection
