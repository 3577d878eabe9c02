/-
Lineage.Proofs.Directory.Ancestry — loops among stored groups.

Attaching refuses a parent that lists the child, and it rewrites the list
of the child alone.  So a parent whose own list is incomplete can stand
below the child without listing it, and then attaching closes a loop.
This is the only way to a loop (`loopFree_attached_iff`): attaching gives
the child exactly the parent and what the parent lists
(`storedLists_upsert_attachedTo`), so every new way from group to group
leads through the child to the parent and on from there
(`transGen_or_of_inherits`), and it comes back to the child only if the
parent led there before.
-/
import Lineage.Proofs.Directory.Changes
import Lineage.Proofs.Directory.Runs
import Lineage.Proofs.Group.Ids
import Mathlib.Logic.Relation

namespace Lineage.Directory

open Relation

/-- The group stored under a short id lists another short id. -/
def StoredLists (d : Directory) (x y : Text) : Prop :=
  ∃ g, d.records.get? x = some g ∧ y ∈ g.references

/-- No stored group is reached again by going on and on from a group to
one that it lists. -/
def LoopFree (d : Directory) : Prop :=
  ∀ x, ¬ TransGen d.StoredLists x x

/-! ## Inheriting what another one leads to -/

section Inherit

variable {α : Type} {r r' : α → α → Prop} {c p x y : α}

/-- If `c` inherits `p` and what follows `p`, and `p` does not lead to
`c`, then every new way leads through `c` and on from `p`. -/
theorem transGen_or_of_inherits (hr : ∀ x y, r' x y → r x y ∨ (x = c ∧ ReflTransGen r p y))
    (hpc : ¬ ReflTransGen r p c) (h : TransGen r' x y) :
    TransGen r x y ∨ (ReflTransGen r x c ∧ ReflTransGen r p y) := by
  induction h with
  | single hxy =>
    rcases hr _ _ hxy with hxy | ⟨rfl, hpy⟩
    · exact .inl (.single hxy)
    · exact .inr ⟨.refl, hpy⟩
  | tail _ hyz ih =>
    rcases hr _ _ hyz with hyz | ⟨rfl, hpz⟩
    · exact ih.imp (fun hxy => hxy.tail hyz) fun ⟨hxc, hpy⟩ => ⟨hxc, hpy.tail hyz⟩
    · rcases ih with hxc | ⟨_, hpc'⟩
      · exact .inr ⟨hxc.to_reflTransGen, hpz⟩
      · exact absurd hpc' hpc

/-- Inheriting closes no loop unless `p` leads to `c`. -/
theorem acyclic_of_inherits (hr : ∀ x y, r' x y → r x y ∨ (x = c ∧ ReflTransGen r p y))
    (hpc : ¬ ReflTransGen r p c) (hacyclic : ∀ x, ¬ TransGen r x x) (x : α) :
    ¬ TransGen r' x x := by
  intro h
  rcases transGen_or_of_inherits hr hpc h with h | ⟨hxc, hpx⟩
  · exact hacyclic x h
  · exact hpc (hpx.trans hxc)

end Inherit

/-! ## One attempt to attach -/

/-- Every stored group has a tidy short id and lists tidy ones, but not
itself. -/
structure TidyLists (d : Directory) : Prop where
  ids : ∀ {x g}, d.records.get? x = some g → x.Tidy ∧ ∀ s ∈ g.references, s.Tidy
  irrefl : ∀ x, ¬ d.StoredLists x x

section Attach

variable {d : Directory} {child parent : Text} {c p : Group} {now : Int} {limit : Int}

/-- A parent that is accepted is another group than the child, and does
not list it. -/
theorem attachFault?_eq_none (h : c.attachFault? p limit = none) :
    p.shortId ≠ c.shortId ∧ c.shortId ∉ p.references := by
  unfold Group.attachFault? at h
  split at h
  · cases h
  · rename_i hloop
    rw [not_or] at hloop
    exact ⟨hloop.1, fun hmem => hloop.2 (List.contains_iff_mem.mpr hmem)⟩

/-- The child lists what it listed, what the parent lists, and the
parent. -/
theorem mem_references_attachedTo (h : TidyLists d) (hchild : d.records.get? child = some c)
    (hparent : d.records.get? parent = some p) (hid : p.shortId = parent) {s : Text} :
    s ∈ (c.attachedTo p now).references
      ↔ s ∈ c.references ∨ s = parent ∨ s ∈ p.references := by
  have htidy : ∀ t ∈ c.references ++ p.references ++ [p.shortId], t.Tidy := by
    intro t ht
    rw [List.append_assoc, List.mem_append, List.mem_append, List.mem_singleton, hid] at ht
    rcases ht with ht | ht | rfl
    · exact (h.ids hchild).2 t ht
    · exact (h.ids hparent).2 t ht
    · exact (h.ids hparent).1
  have hrefs : (c.attachedTo p now).references
      = Schema.uniqueIds (c.references ++ p.references ++ [p.shortId]) := rfl
  rw [hrefs, Schema.mem_uniqueIds_of_tidy htidy, List.append_assoc, List.mem_append,
    List.mem_append, List.mem_singleton, hid, or_comm (a := s = parent)]

theorem get?_upsert_attachedTo (hc : Consistent d) (hchild : d.records.get? child = some c)
    (x : Text) :
    (d.upsert (c.attachedTo p now)).records.get? x
      = if child = x then some (c.attachedTo p now) else d.records.get? x := by
  have hv : c.virtual = false := (hc.filed (Keyed.mem_of_get? hchild)).2
  rw [get?_records_upsert (by rw [Group.attachedTo_virtual, hv]), Group.attachedTo_shortId,
    hc.shortId_of_get? hchild]

/-- After attaching, the child lists the parent and what the parent lists,
and nothing else is new. -/
theorem storedLists_upsert_attachedTo (hc : Consistent d) (h : TidyLists d)
    (hchild : d.records.get? child = some c) (hparent : d.records.get? parent = some p)
    {x y : Text} :
    (d.upsert (c.attachedTo p now)).StoredLists x y
      ↔ d.StoredLists x y ∨ (x = child ∧ (y = parent ∨ d.StoredLists parent y)) := by
  have hid : p.shortId = parent := hc.shortId_of_get? hparent
  have hparentLists : d.StoredLists parent y ↔ y ∈ p.references := by
    simp [StoredLists, hparent]
  rw [hparentLists, StoredLists]
  simp only [get?_upsert_attachedTo hc hchild]
  by_cases hx : child = x
  · subst hx
    have hold : d.StoredLists child y ↔ y ∈ c.references := by simp [StoredLists, hchild]
    simp [hold, mem_references_attachedTo h hchild hparent hid]
  · simp [hx, Ne.symm hx, StoredLists]

theorem TidyLists.upsert_attachedTo (hc : Consistent d) (h : TidyLists d)
    (hchild : d.records.get? child = some c) (hparent : d.records.get? parent = some p)
    (haccepted : c.attachFault? p limit = none) : TidyLists (d.upsert (c.attachedTo p now)) := by
  have hid : p.shortId = parent := hc.shortId_of_get? hparent
  obtain ⟨hne, hnot⟩ := attachFault?_eq_none haccepted
  rw [hc.shortId_of_get? hchild] at hne hnot
  refine ⟨fun {x g} hg => ?_, fun x hx => ?_⟩
  · rw [get?_upsert_attachedTo hc hchild] at hg
    by_cases hx : child = x
    · rw [if_pos hx] at hg
      obtain rfl := Option.some.inj hg
      refine ⟨hx ▸ (h.ids hchild).1, fun s hs => ?_⟩
      rcases (mem_references_attachedTo h hchild hparent hid).mp hs with hs | rfl | hs
      · exact (h.ids hchild).2 s hs
      · exact (h.ids hparent).1
      · exact (h.ids hparent).2 s hs
    · rw [if_neg hx] at hg
      exact h.ids hg
  · rcases (storedLists_upsert_attachedTo hc h hchild hparent).mp hx with hx | ⟨rfl, heq | hp⟩
    · exact h.irrefl x hx
    · exact hne (hid.trans heq.symm)
    · obtain ⟨g, hg, hmem⟩ := hp
      rw [hparent] at hg
      obtain rfl := Option.some.inj hg
      exact hnot hmem

/-- Attaching leaves a store free of loops exactly if it was free of them
and the parent did not lead to the child. -/
theorem loopFree_upsert_attachedTo_iff (hc : Consistent d) (h : TidyLists d)
    (hchild : d.records.get? child = some c) (hparent : d.records.get? parent = some p)
    (haccepted : c.attachFault? p limit = none) :
    LoopFree (d.upsert (c.attachedTo p now))
      ↔ LoopFree d ∧ ¬ TransGen d.StoredLists parent child := by
  have hlists := @storedLists_upsert_attachedTo d child parent c p now hc h hchild hparent
  have hgrow : ∀ x y, TransGen d.StoredLists x y →
      TransGen (d.upsert (c.attachedTo p now)).StoredLists x y :=
    TransGen.mono fun _ _ hxy => hlists.mpr (.inl hxy)
  constructor
  · intro hfree
    refine ⟨fun x hx => hfree x (hgrow x x hx), fun hpc => hfree child ?_⟩
    exact (hgrow _ _ hpc).head (hlists.mpr (.inr ⟨rfl, .inl rfl⟩))
  · rintro ⟨hfree, hpc⟩
    have hne : parent ≠ child := by
      have hne := (attachFault?_eq_none haccepted).1
      rwa [hc.shortId_of_get? hchild, hc.shortId_of_get? hparent] at hne
    refine acyclic_of_inherits (c := child) (p := parent) (fun x y hxy => ?_) (fun hpc' => ?_) hfree
    · rcases hlists.mp hxy with hxy | ⟨hx, rfl | hpy⟩
      · exact .inl hxy
      · exact .inr ⟨hx, .refl⟩
      · exact .inr ⟨hx, .single hpy⟩
    · rcases reflTransGen_iff_eq_or_transGen.mp hpc' with heq | hpc'
      · exact hne heq.symm
      · exact hpc hpc'

end Attach

/-! ## Runs of attempts -/

/-- An attempt to attach a group under another one. -/
structure Attempt where
  child : Text
  parent : Text
  now : Clock

/-- The attempt succeeds in a store. -/
def Attempt.Succeeds (a : Attempt) (d : Directory) : Prop :=
  ∃ g, (d.attach a.child a.parent a.now).2 = .ok g

/-- The store after groups were stored and then attempts were made. -/
def attached (policy : GroupPolicy) (founders : List Group) (attempts : List Attempt) : Directory :=
  run policy (founders.map .upsert ++ attempts.map fun a => .attach a.child a.parent a.now)

theorem attached_concat (policy : GroupPolicy) (founders : List Group) (attempts : List Attempt)
    (a : Attempt) :
    attached policy founders (attempts ++ [a])
      = ((attached policy founders attempts).attach a.child a.parent a.now).1 := by
  simp [attached, run, Call.perform]

/-- An attempt that succeeds has a parent that does not list the child. -/
theorem Attempt.Succeeds.not_storedLists {a : Attempt} {d : Directory} (hc : Consistent d)
    (h : a.Succeeds d) : ¬ d.StoredLists a.parent a.child := by
  obtain ⟨g, hg⟩ := h
  rcases attach_cases d a.child a.parent a.now with ⟨fault, heq⟩ | ⟨c, p, hchild, hparent, hok, -⟩
  · rw [heq] at hg
    cases hg
  · rintro ⟨p', hp', hmem⟩
    rw [hparent] at hp'
    obtain rfl := Option.some.inj hp'
    exact (attachFault?_eq_none hok).2 (hc.shortId_of_get? hchild ▸ hmem)

/-- One attempt keeps lists tidy, and closes a loop exactly if it succeeds
and the parent led to the child. -/
theorem attempt_step {d : Directory} (hc : Consistent d) (h : TidyLists d) (a : Attempt) :
    TidyLists (d.attach a.child a.parent a.now).1
      ∧ (LoopFree (d.attach a.child a.parent a.now).1
        ↔ LoopFree d ∧ (a.Succeeds d → ¬ TransGen d.StoredLists a.parent a.child)) := by
  unfold Attempt.Succeeds
  rcases attach_cases d a.child a.parent a.now with ⟨fault, heq⟩ | ⟨c, p, hchild, hparent, hok, heq⟩
  · rw [heq]
    exact ⟨h, by simp⟩
  · rw [heq]
    refine ⟨h.upsert_attachedTo hc hchild hparent hok, ?_⟩
    rw [loopFree_upsert_attachedTo_iff hc h hchild hparent hok]
    simp

/-- Groups that list nothing, stored one after the other. -/
theorem founders_list_nothing (policy : GroupPolicy) {founders : List Group}
    (hf : ∀ g ∈ founders, g.shortId.Tidy ∧ g.references = []) :
    ∀ x g, (run policy (founders.map .upsert)).records.get? x = some g →
      x.Tidy ∧ g.references = [] := by
  induction founders using List.reverseRecOn with
  | nil =>
    intro x g hg
    cases hg
  | append_singleton founders f ih =>
    have hrun : run policy ((founders ++ [f]).map .upsert)
        = (run policy (founders.map .upsert)).upsert f := by
      simp [run, Call.perform]
    have hrest := ih fun g hg => hf g (List.mem_append_left _ hg)
    obtain ⟨htidy, hnone⟩ := hf f (by simp)
    intro x g hg
    rw [hrun] at hg
    by_cases hv : f.virtual = true
    · rw [upsert_of_virtual hv] at hg
      exact hrest x g hg
    · rw [get?_records_upsert (Bool.eq_false_iff.mpr hv)] at hg
      by_cases hx : f.shortId = x
      · rw [if_pos hx] at hg
        obtain rfl := Option.some.inj hg
        exact ⟨hx ▸ htidy, hnone⟩
      · rw [if_neg hx] at hg
        exact hrest x g hg

/-- Before any attempt nothing is listed. -/
theorem attached_nil (policy : GroupPolicy) {founders : List Group}
    (hf : ∀ g ∈ founders, g.shortId.Tidy ∧ g.references = []) :
    TidyLists (attached policy founders []) ∧ LoopFree (attached policy founders []) := by
  have hrun : attached policy founders [] = run policy (founders.map .upsert) := by simp [attached]
  have hfounders := founders_list_nothing policy hf
  have hnone : ∀ x y, ¬ (attached policy founders []).StoredLists x y := by
    rintro x y ⟨g, hg, hmem⟩
    rw [(hfounders x g (hrun ▸ hg)).2] at hmem
    exact List.not_mem_nil hmem
  refine ⟨⟨fun {x g} hg => ?_, fun x => hnone x x⟩, fun x hx => ?_⟩
  · obtain ⟨htidy, hrefs⟩ := hfounders x g (hrun ▸ hg)
    exact ⟨htidy, by simp [hrefs]⟩
  · obtain ⟨y, hxy, -⟩ := TransGen.head'_iff.mp hx
    exact hnone x y hxy

/-- Attempts keep lists tidy, and leave a store free of loops exactly if
no parent of an attempt that succeeds led to the child. -/
theorem attached_tidy_and_loopFree_iff (policy : GroupPolicy) {founders : List Group}
    (hf : ∀ g ∈ founders, g.shortId.Tidy ∧ g.references = []) (attempts : List Attempt) :
    TidyLists (attached policy founders attempts)
      ∧ (LoopFree (attached policy founders attempts) ↔
        ∀ earlier a, earlier ++ [a] <+: attempts → a.Succeeds (attached policy founders earlier) →
          ¬ TransGen (attached policy founders earlier).StoredLists a.parent a.child) := by
  induction attempts using List.reverseRecOn with
  | nil =>
    obtain ⟨htidy, hfree⟩ := attached_nil policy hf
    exact ⟨htidy, by simp [hfree]⟩
  | append_singleton attempts a ih =>
    obtain ⟨htidy, hiff⟩ := ih
    have hc : Consistent (attached policy founders attempts) := (consistent_and_current_run _ _).1
    obtain ⟨htidy', hstep⟩ := attempt_step hc htidy a
    rw [attached_concat]
    refine ⟨htidy', hstep.trans ?_⟩
    rw [hiff]
    constructor
    · rintro ⟨hall, hlast⟩ earlier b hpre
      rcases List.prefix_concat_iff.mp hpre with heq | hpre
      · obtain ⟨rfl, hb⟩ := List.append_inj' heq rfl
        obtain rfl := List.singleton_inj.mp hb
        exact hlast
      · exact hall earlier b hpre
    · intro hall
      exact ⟨fun earlier b hpre => hall earlier b (hpre.trans (List.prefix_append _ _)),
        hall attempts a (List.prefix_refl _)⟩

/-- However groups that list nothing are attached, no stored group comes
to list itself.  A loop comes about exactly if a group is attached under a
parent from which references lead to it, which the parent then does not
list; so there is none while every parent lists all that references lead
to from it.  The short ids of the groups are tidy, as those of all checked
records are (`Group.tidy_shortId_of_check`). -/
theorem loopFree_attached_iff (policy : GroupPolicy) {founders : List Group}
    (hf : ∀ g ∈ founders, g.shortId.Tidy ∧ g.references = []) (attempts : List Attempt) :
    let after := attached policy founders
    (∀ x, ¬ (after attempts).StoredLists x x)
      ∧ (LoopFree (after attempts) ↔
        ∀ earlier a, earlier ++ [a] <+: attempts → a.Succeeds (after earlier) →
          ¬ TransGen (after earlier).StoredLists a.parent a.child)
      ∧ ((∀ earlier a, earlier ++ [a] <+: attempts → a.Succeeds (after earlier) →
          ∀ y, TransGen (after earlier).StoredLists a.parent y →
            (after earlier).StoredLists a.parent y) →
        LoopFree (after attempts)) := by
  intro after
  obtain ⟨htidy, hiff⟩ := attached_tidy_and_loopFree_iff policy hf attempts
  refine ⟨htidy.irrefl, hiff, fun hcomplete => hiff.mpr fun earlier a hpre hok hleads => ?_⟩
  have hc : Consistent (after earlier) := (consistent_and_current_run _ _).1
  exact hok.not_storedLists hc (hcomplete earlier a hpre hok a.child hleads)

/-! ## A loop -/

/-- `b` is attached under `a`, then `a` under `c`, which `b` does not come
to list, and then `c` under `b`. -/
def circling : List Attempt :=
  let a : Text := [.char 'a']
  let b : Text := [.char 'b']
  let c : Text := [.char 'c']
  [⟨b, a, ⟨1000000⟩⟩, ⟨a, c, ⟨2000000⟩⟩, ⟨c, b, ⟨3000000⟩⟩]

/-- Three groups that list nothing. -/
def strangers : List Group :=
  [.plain [.char 'a'] [], .plain [.char 'b'] [], .plain [.char 'c'] []]

theorem tidy_strangers : ∀ g ∈ strangers, g.shortId.Tidy ∧ g.references = [] := by
  have hstripped : ∀ g ∈ strangers, g.shortId ≠ [] ∧ g.shortId.strip = g.shortId := by
    decide +kernel
  have hnone : ∀ g ∈ strangers, g.references = [] := by decide +kernel
  exact fun g hg => ⟨⟨(hstripped g hg).1, (hstripped g hg).2⟩, hnone g hg⟩

/-- In the end `a` lists `c`, and `c` lists `a`. -/
theorem storedLists_circling :
    (attached {} strangers circling).StoredLists [.char 'a'] [.char 'c']
      ∧ (attached {} strangers circling).StoredLists [.char 'c'] [.char 'a'] := by
  have hlisted : ((attached {} strangers circling).records.get? [.char 'a']).map Group.references
        = some [[.char 'c']]
      ∧ ((attached {} strangers circling).records.get? [.char 'c']).map Group.references
        = some [[.char 'a'], [.char 'b']] := by
    decide +kernel
  obtain ⟨ha, hc⟩ := hlisted
  obtain ⟨a, hstored, hrefs⟩ := Option.map_eq_some_iff.mp ha
  obtain ⟨c, hstored', hrefs'⟩ := Option.map_eq_some_iff.mp hc
  exact ⟨⟨a, hstored, by simp [hrefs]⟩, c, hstored', by simp [hrefs']⟩

/-- Attaching can close a loop. -/
theorem attached_closes_loop_circling :
    (∀ g ∈ strangers, g.shortId.Tidy ∧ g.references = [])
      ∧ (strangers.map Group.shortId).Nodup
      ∧ ¬ LoopFree (attached {} strangers circling) := by
  refine ⟨tidy_strangers, by decide +kernel, fun hfree => ?_⟩
  obtain ⟨hac, hca⟩ := storedLists_circling
  exact hfree _ (.head hac (.single hca))

/-- The loop was closed by attaching a group under a parent that led to
it. -/
theorem loopFree_attached_iff_circling :
    (∀ g ∈ strangers, g.shortId.Tidy ∧ g.references = [])
      ∧ (∀ x, ¬ (attached {} strangers circling).StoredLists x x)
      ∧ ∃ earlier a, earlier ++ [a] <+: circling ∧ a.Succeeds (attached {} strangers earlier)
        ∧ TransGen (attached {} strangers earlier).StoredLists a.parent a.child := by
  obtain ⟨hirrefl, hiff, -⟩ := loopFree_attached_iff {} tidy_strangers circling
  refine ⟨tidy_strangers, hirrefl, ?_⟩
  by_contra hnone
  obtain ⟨hac, hca⟩ := storedLists_circling
  refine hiff.mpr (fun earlier a hpre hok hleads => hnone ?_) _ (.head hac (.single hca))
  exact ⟨earlier, a, hpre, hok, hleads⟩

end Lineage.Directory
