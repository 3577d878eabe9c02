/-
Lineage.Proofs.Workspace.Attaching — attaching one record of a workspace
under another.

The references that the child inherits are stripped and freed of
repetitions once when they are put together and once more when they are
set, under the check of their field.  Where both records have passed
their checks (`Group.Validated`) neither round has anything to remove but
repetitions (`inheritedReferences_eq`), and the second has nothing to
remove at all (`Validated.attachedTo`).  Whether an attempt is refused
depends on the parent and the short id of the child, so an earlier
attempt on the same child does not matter for it (`attachFault?_afterAttempt`).
-/
import Lineage.Proofs.Directory.Changes
import Lineage.Proofs.Group.Normal
import Lineage.Proofs.Outcome
import Lineage.Workspace.Run

namespace Lineage

open Schema

/-! ## Time stamps -/

namespace Double

/-- The double has no minus sign. -/
def Unsigned : Double → Prop
  | .finite negative _ _ => negative = false
  | .infinite negative => negative = false
  | .nan => True

theorem unsigned_ofRatio (num den : Nat) : (ofRatio false num den).Unsigned := by
  unfold ofRatio
  split
  · rfl
  · dsimp only
    split <;> split <;> exact rfl

theorem Unsigned.mul {x y : Double} (hx : x.Unsigned) (hy : y.Unsigned) : (x.mul y).Unsigned := by
  cases x with
  | nan => trivial
  | infinite s =>
    cases y with
    | nan => trivial
    | infinite t => simp_all [Double.mul, Unsigned]
    | finite t n f =>
      simp only [Double.mul]
      split
      · trivial
      · simp_all [Unsigned]
  | finite s m e =>
    cases y with
    | nan => trivial
    | infinite t =>
      simp only [Double.mul]
      split
      · trivial
      · simp_all [Unsigned]
    | finite t n f =>
      obtain rfl : s = false := hx
      obtain rfl : t = false := hy
      exact unsigned_ofRatio _ _

theorem Unsigned.truncate?_getD_nonneg {x : Double} (h : x.Unsigned) : 0 ≤ x.truncate?.getD 0 := by
  cases x with
  | nan => exact Int.le_refl 0
  | infinite s => exact Int.le_refl 0
  | finite s m e =>
    obtain rfl : s = false := h
    simp only [truncate?, toDyadic?, Option.map_some, Option.getD_some]
    exact Int.tdiv_nonneg (Int.natCast_nonneg _) (Int.natCast_nonneg _)

end Double

/-- From the start of time on, no time stamp is below zero. -/
theorem Clock.stamp_nonneg {c : Clock} (h : 0 ≤ c.micros) : 0 ≤ c.stamp := by
  have hsign : decide (c.micros < 0) = false := decide_eq_false (by omega)
  have hseconds : c.seconds.Unsigned := by
    rw [seconds, hsign]
    exact Double.unsigned_ofRatio _ _
  exact (hseconds.mul (Double.unsigned_ofRatio 1000 1)).truncate?_getD_nonneg

namespace Group

variable {c g p : Group} {now : Int}

/-! ## Validated records -/

/-- The record was read from a document value, and what has been set since
has passed the checks of its field. -/
inductive Validated : Group → Prop
  | read {now : Int} {v : Value} {g : Group} (h : check now v = .ok g) : Validated g
  | set {g changed : Group} {name : Text} {v : Value} (hg : Validated g)
    (h : g.set name v = .ok changed) : Validated changed

/-- Setting a name that is no field leaves the record alone. -/
theorem set_cases {changed : Group} {name : Text} {v : Value} (h : g.set name v = .ok changed) :
    changed = g ∨ ∃ field, g.setField field v = .ok changed := by
  unfold set at h
  split at h
  · cases h
  · split at h
    · rename_i field _
      exact .inr ⟨field, Checked.toExcept_eq_ok_iff.mp (mapError_eq_ok_iff.mp h)⟩
    · split at h
      · exact .inl (Except.ok.inj h).symm
      · cases h

theorem set_of_field (g : Group) (field : Field) (v : Value) :
    g.set field.spelling.snake v = ((g.setField field v).toExcept .group).mapError .rejected := by
  have hsettable : unsettable? field.spelling.snake v = none := by cases field <;> rfl
  have hfield : Field.all.find? (fun f => f.spelling.snake == field.spelling.snake)
      = some field := by
    cases field <;> decide
  rw [set, hsettable, hfield]

theorem Validated.tidy (h : g.Validated) : g.Tidy := by
  induction h with
  | read h => exact tidy_of_check h
  | set _ h ih =>
    rcases set_cases h with rfl | ⟨field, hfield⟩
    · exact ih
    · exact ih.of_setField hfield

theorem Validated.nodup_references (h : g.Validated) : g.references.Nodup := by
  refine Normal.once ?_
  induction h with
  | read h => exact normal_of_check h
  | set _ h ih =>
    rcases set_cases h with rfl | ⟨field, hfield⟩
    · exact ih
    · exact normal_of_setField ih hfield

/-! ## Inherited references -/

/-- The child keeps its references and gets those of its parent, and the
parent, as far as they are new. -/
theorem inheritedReferences_eq (hc : c.Validated) (hp : p.Validated) :
    c.inheritedReferences p = c.references
      ++ (distinct (p.references ++ [p.shortId])).filter fun s => s ∉ c.references := by
  have htidy : ∀ s ∈ c.references ++ p.references ++ [p.shortId], s.Tidy := by
    intro s hs
    simp only [List.mem_append, List.mem_singleton] at hs
    rcases hs with (hs | hs) | rfl
    · exact hc.tidy.references s hs
    · exact hp.tidy.references s hs
    · exact hp.tidy.shortId
  rw [inheritedReferences, uniqueIds_eq_distinct htidy, List.append_assoc, distinct_append,
    distinct_of_nodup hc.nodup_references]
  exact congrArg _ (List.filter_congr fun _ _ => decide_eq_decide.mpr Iff.rfl)

/-- A child that lists its parent and what the parent lists inherits
nothing. -/
theorem inheritedReferences_of_listed (hc : c.Validated) (hp : p.Validated)
    (h : ∀ s ∈ p.references ++ [p.shortId], s ∈ c.references) :
    c.inheritedReferences p = c.references := by
  rw [inheritedReferences_eq hc hp, List.filter_eq_nil_iff.mpr, List.append_nil]
  intro s hs
  simpa using h s (mem_distinct.mp hs)

/-- Setting the inherited references under their check, and the time stamp
after them, gives the attached record. -/
theorem Validated.attachedTo (hc : c.Validated) (p : Group) (hnow : 0 ≤ now) :
    (c.attachedTo p now).Validated := by
  have hrefs : c.set Field.references.spelling.snake (texts (c.inheritedReferences p))
      = .ok { c with references := c.inheritedReferences p } := by
    have hcheck : checkGroupReferences (texts (c.inheritedReferences p))
        = .ok (c.inheritedReferences p) :=
      checkGroupReferences_texts (fun _ => tidy_of_mem_uniqueIds) (nodup_uniqueIds _)
    rw [set_of_field, setField, hcheck]
    rfl
  have hstamp : ({ c with references := c.inheritedReferences p } : Group).set
      Field.modificationMs.spelling.snake (.int now) = .ok (c.attachedTo p now) := by
    rw [set_of_field, setField_modificationMs, if_neg (by omega)]
    rfl
  exact .set (.set hc hrefs) hstamp

/-! ## One attempt -/

variable {limit : Int}

theorem attachFault?_of_loop (h : p.shortId = c.shortId ∨ c.shortId ∈ p.references) :
    c.attachFault? p limit = some (.loop c.shortId p.shortId) := by
  simp [attachFault?, refersTo, h]

theorem attachFault?_of_deep (h : ¬ (p.shortId = c.shortId ∨ c.shortId ∈ p.references))
    (hdeep : limit ≤ p.references.length) :
    c.attachFault? p limit = some (.parentTooDeep c.shortId p.shortId limit) := by
  simp [attachFault?, refersTo, h, hdeep]

theorem attachFault?_of_room (h : ¬ (p.shortId = c.shortId ∨ c.shortId ∈ p.references))
    (hroom : p.references.length < limit) : c.attachFault? p limit = none := by
  simp [attachFault?, refersTo, h, Int.not_le.mpr hroom]

/-- The record as an attempt to attach it leaves it. -/
def afterAttempt (c p : Group) (limit now : Int) : Group :=
  if c.attachFault? p limit = none then c.attachedTo p now else c

@[simp] theorem shortId_afterAttempt (c p : Group) (limit now : Int) :
    (c.afterAttempt p limit now).shortId = c.shortId := by
  unfold afterAttempt
  split <;> rfl

/-- What has been attached before does not matter for an attempt. -/
theorem attachFault?_afterAttempt (c p q : Group) (limit now : Int) :
    (c.afterAttempt p limit now).attachFault? q limit = c.attachFault? q limit := by
  rw [attachFault?, attachFault?, shortId_afterAttempt]

theorem Validated.afterAttempt (hc : c.Validated) (p : Group) (limit : Int) (hnow : 0 ≤ now) :
    (c.afterAttempt p limit now).Validated := by
  unfold Group.afterAttempt
  split
  · exact hc.attachedTo p hnow
  · exact hc

/-- An attempt to attach the child under the parent hands on the id. -/
def Inherits (c p : Group) (limit : Int) (s : Text) : Prop :=
  c.attachFault? p limit = none ∧ (s ∈ p.references ∨ s = p.shortId)

/-- No record inherits from itself. -/
theorem not_inherits_self {s : Text} (h : p.shortId = c.shortId) :
    ¬ c.Inherits p limit s := by
  rintro ⟨hnone, -⟩
  rw [attachFault?_of_loop (.inl h)] at hnone
  cases hnone

theorem mem_references_afterAttempt (hc : c.Validated) (hp : p.Validated) {s : Text} :
    s ∈ (c.afterAttempt p limit now).references ↔ s ∈ c.references ∨ c.Inherits p limit s := by
  unfold afterAttempt Inherits
  split
  · rename_i hnone
    have hrefs : (c.attachedTo p now).references = c.inheritedReferences p := rfl
    by_cases hs : s ∈ c.references <;>
      simp [hrefs, inheritedReferences_eq hc hp, mem_distinct, hnone, hs]
  · rename_i hfault
    simp [hfault]

/-- A child that its parent does not list does not come to list itself. -/
theorem shortId_mem_attachedTo_iff (hc : c.Validated) (hp : p.Validated) (now : Int)
    (hfree : ¬ (p.shortId = c.shortId ∨ c.shortId ∈ p.references)) :
    c.shortId ∈ (c.attachedTo p now).references ↔ c.shortId ∈ c.references := by
  have hrefs : (c.attachedTo p now).references = c.inheritedReferences p := rfl
  have hnew : c.shortId ∉ p.references ++ [p.shortId] := by
    simp only [List.mem_append, List.mem_singleton]
    exact fun h => hfree (h.symm.imp_left Eq.symm)
  simp [hrefs, inheritedReferences_eq hc hp, mem_distinct, hnew]

end Group

namespace Workspace

variable {w : Workspace} {child parent : Text} {k l : Nat} {c p : Group} {now : Clock}

/-- The name stands for a record that has passed its checks. -/
structure Keeps (w : Workspace) (name : Text) (key : Nat) (g : Group) : Prop where
  named : w.names.get? name = some (.record key)
  kept : w.records[key]? = some g
  validated : g.Validated

/-- An attempt, at a reading of the clock, to attach one record under
another. -/
def attach (w : Workspace) (child parent : Text) (limit : Int) (now : Clock) :
    Except WorkFault Reply × Workspace :=
  { w with clock := now }.step ⟨.addUnder child parent limit, none⟩

/-- Steps of work in sequence. -/
theorem run_bind {α β : Type} (x : Work α) (f : α → Work β) (w : Workspace) :
    (x >>= f).run w = match x.run w with
      | (.ok a, w) => (f a).run w
      | (.error fault, w) => (.error fault, w) := by
  change ExceptT.bindCont f (x.run w).1 (x.run w).2 = _
  rcases x.run w with ⟨fault | a, w'⟩ <;> rfl

theorem Keeps.run_record (h : w.Keeps child k c) : (Work.record child).run w = (.ok ⟨k, c⟩, w) := by
  have hget : (get : Work Workspace).run w = (.ok w, w) := rfl
  have hitem : (Work.item child).run w = (.ok (.record k), w) := by
    rw [Work.item, run_bind, hget]
    dsimp only
    rw [h.named]
    rfl
  have hhold : w.hold k = ⟨k, c⟩ := by rw [hold, h.kept, Option.getD_some]
  rw [Work.record, run_bind, hitem, ← hhold]
  rfl

theorem Keeps.at {name : Text} {g : Group} (h : w.Keeps name k g) (now : Clock) :
    ({ w with clock := now } : Workspace).Keeps name k g :=
  ⟨h.named, h.kept, h.validated⟩

theorem attach_eq (hc : w.Keeps child k c) (hp : w.Keeps parent l p) (limit : Int)
    (hnow : 0 ≤ now.micros) :
    w.attach child parent limit now = match c.attachFault? p limit with
      | some fault => (.error (.failed (.hierarchy fault)), { w with clock := now })
      | none => (.ok (.record (c.attachedTo p now.stamp)),
        { w with
          clock := now
          records := w.records.setIfInBounds k (c.attachedTo p now.stamp) }) := by
  have hstamp := Clock.stamp_nonneg hnow
  have hstep : w.attach child parent limit now
      = (Work.addUnder child parent limit).run { w with clock := now } := rfl
  have hclock : Work.stamp.run { w with clock := now }
      = (.ok now.stamp, { w with clock := now }) := rfl
  rw [hstep, Work.addUnder, run_bind, (hc.at now).run_record]
  dsimp only
  rw [run_bind, (hp.at now).run_record]
  dsimp only
  rw [run_bind, hclock]
  dsimp only
  cases hfault : c.attachFault? p limit with
  | some fault =>
    rw [Group.attachUnder_of_fault hfault now.stamp]
    rfl
  | none =>
    rw [Group.attachUnder_of_no_fault hfault now.stamp, if_neg (by omega)]
    rfl

theorem names_attach (hc : w.Keeps child k c) (hp : w.Keeps parent l p) (limit : Int)
    (hnow : 0 ≤ now.micros) : (w.attach child parent limit now).2.names = w.names := by
  rw [attach_eq hc hp limit hnow]
  cases c.attachFault? p limit <;> rfl

/-- An attempt changes the record of the child and no other. -/
theorem getElem?_records_attach (hc : w.Keeps child k c) (hp : w.Keeps parent l p) (limit : Int)
    (hnow : 0 ≤ now.micros) (m : Nat) :
    (w.attach child parent limit now).2.records[m]?
      = if m = k then some (c.afterAttempt p limit now.stamp) else w.records[m]? := by
  have hin : k < w.records.size := (Array.getElem?_eq_some_iff.mp hc.kept).1
  rw [attach_eq hc hp limit hnow, Group.afterAttempt]
  by_cases hm : m = k
  · subst hm
    cases hfault : c.attachFault? p limit with
    | some fault => simpa using hc.kept
    | none => simp [hin]
  · cases hfault : c.attachFault? p limit with
    | some fault => simp [hm]
    | none => simp [hm, Array.getElem?_setIfInBounds_ne (Ne.symm hm)]

theorem Keeps.attach (hc : w.Keeps child k c) (hp : w.Keeps parent l p) (limit : Int)
    (hnow : 0 ≤ now.micros) {name : Text} {m : Nat} {g : Group} (h : w.Keeps name m g) :
    (w.attach child parent limit now).2.Keeps name m
      (if m = k then c.afterAttempt p limit now.stamp else g) where
  named := by rw [names_attach hc hp limit hnow, h.named]
  kept := by
    rw [getElem?_records_attach hc hp limit hnow, h.kept]
    split <;> rfl
  validated := by
    split
    · exact hc.validated.afterAttempt p limit (Clock.stamp_nonneg hnow)
    · exact h.validated

/-- A record that is accepted under another one is another record. -/
theorem ne_of_accepted (hc : w.Keeps child k c) (hp : w.Keeps parent l p) {limit : Int}
    (haccepted : c.attachFault? p limit = none) : l ≠ k := by
  rintro rfl
  obtain rfl : p = c := Option.some.inj (hp.kept.symm.trans hc.kept)
  rw [Group.attachFault?_of_loop (.inl rfl)] at haccepted
  cases haccepted

/-- An attempt that is accepted attaches the child and leaves the parent,
and every other record, as it is. -/
theorem attach_accepted (hc : w.Keeps child k c) (hp : w.Keeps parent l p) {limit : Int}
    (haccepted : c.attachFault? p limit = none) (hnow : 0 ≤ now.micros) :
    let done := w.attach child parent limit now
    done.1 = .ok (.record (c.attachedTo p now.stamp))
      ∧ done.2.Keeps child k (c.attachedTo p now.stamp)
      ∧ done.2.Keeps parent l p
      ∧ ∀ m, m ≠ k → done.2.records[m]? = w.records[m]? := by
  have hafter : c.afterAttempt p limit now.stamp = c.attachedTo p now.stamp := if_pos haccepted
  have hchild := hc.attach hp limit hnow hc
  have hparent := hc.attach hp limit hnow hp
  rw [if_pos rfl, hafter] at hchild
  rw [if_neg (ne_of_accepted hc hp haccepted)] at hparent
  refine ⟨?_, hchild, hparent, fun m hm => ?_⟩
  · simp only [attach_eq hc hp limit hnow, haccepted]
  · exact (getElem?_records_attach hc hp limit hnow m).trans (if_neg hm)

/-- Attaching the child once more under the same parent changes its time
stamp alone. -/
theorem attach_again (hc : w.Keeps child k c) (hp : w.Keeps parent l p) {limit : Int}
    (haccepted : c.attachFault? p limit = none) (hnow : 0 ≤ now.micros) {later : Clock}
    (hlater : 0 ≤ later.micros) :
    let attached := c.attachedTo p now.stamp
    let again := (w.attach child parent limit now).2.attach child parent limit later
    again.1 = .ok (.record { attached with modificationMs := later.stamp })
      ∧ again.2.Keeps child k { attached with modificationMs := later.stamp } := by
  intro attached again
  obtain ⟨-, hc', hp', -⟩ := attach_accepted hc hp haccepted hnow
  have hlisted : ∀ s ∈ p.references ++ [p.shortId], s ∈ attached.references := by
    intro s hs
    have hs : s ∈ p.references ∨ s = p.shortId := by simpa using hs
    have hinherits : c.Inherits p limit s := ⟨haccepted, hs⟩
    rw [show attached = c.afterAttempt p limit now.stamp from (if_pos haccepted).symm,
      Group.mem_references_afterAttempt hc.validated hp.validated]
    exact .inr hinherits
  have hsame : attached.attachedTo p later.stamp
      = { attached with modificationMs := later.stamp } := by
    rw [Group.attachedTo, Group.inheritedReferences_of_listed hc'.validated hp'.validated hlisted]
  obtain ⟨hanswer, hkeeps, -, -⟩ := attach_accepted hc' hp' haccepted hlater
  rw [hsame] at hanswer hkeeps
  exact ⟨hanswer, hkeeps⟩

/-- Which ids the child lists after two attempts does not show which of
them came first. -/
theorem exists_keeps_attach_attach (hc : w.Keeps child k c) (hp : w.Keeps parent l p) (limit : Int)
    {other : Text} {m : Nat} {q : Group} (hq : w.Keeps other m q) {first second : Clock}
    (hfirst : 0 ≤ first.micros) (hsecond : 0 ≤ second.micros) :
    ∃ g, ((w.attach child parent limit first).2.attach child other limit second).2.Keeps child k g
      ∧ ∀ s, s ∈ g.references
        ↔ s ∈ c.references ∨ c.Inherits p limit s ∨ c.Inherits q limit s := by
  have hc' := hc.attach hp limit hfirst hc
  have hq' := hc.attach hp limit hfirst hq
  rw [if_pos rfl] at hc'
  refine ⟨_, hc'.attach hq' limit hsecond hc', fun s => ?_⟩
  rw [if_pos rfl, Group.mem_references_afterAttempt hc'.validated hq'.validated,
    Group.mem_references_afterAttempt hc.validated hp.validated, or_assoc]
  refine or_congr_right (or_congr_right ?_)
  rw [Group.Inherits, Group.Inherits, Group.attachFault?_afterAttempt]
  split
  · -- The other parent is the child itself, which cannot be attached under what it has become.
    rename_i hm
    obtain rfl : q = c := Option.some.inj (hq.kept.symm.trans (hm ▸ hc.kept))
    exact iff_of_false (Group.not_inherits_self (Group.shortId_afterAttempt ..))
      (Group.not_inherits_self rfl)
  · exact Iff.rfl

/-- The order of two attempts does not matter for what the child lists. -/
theorem lists_attach_comm (hc : w.Keeps child k c) (hp : w.Keeps parent l p) (limit : Int)
    {other : Text} {m : Nat} {q : Group} (hq : w.Keeps other m q) {t₁ t₂ t₃ t₄ : Clock}
    (h₁ : 0 ≤ t₁.micros) (h₂ : 0 ≤ t₂.micros) (h₃ : 0 ≤ t₃.micros) (h₄ : 0 ≤ t₄.micros)
    (s : Text) :
    let one := ((w.attach child parent limit t₁).2.attach child other limit t₂).2
    let two := ((w.attach child other limit t₃).2.attach child parent limit t₄).2
    s ∈ (one.hold k).group.references ↔ s ∈ (two.hold k).group.references := by
  obtain ⟨g, hg, hlists⟩ := exists_keeps_attach_attach hc hp limit hq h₁ h₂
  obtain ⟨g', hg', hlists'⟩ := exists_keeps_attach_attach hc hq limit hp h₃ h₄
  simp only [hold, hg.kept, hg'.kept, Option.getD_some]
  rw [hlists, hlists', or_comm (a := c.Inherits p limit s)]

/-- An attempt to attach a record under another one fails as a loop
exactly if the parent is the child or lists it, and otherwise as too deep
exactly if the parent lists as many groups as the limit allows; nothing
is written then.  Otherwise the child lists, behind what it listed, what
is new of the list of the parent, in its order, and of the parent itself;
no other record changes, the child does not come to list itself, and a
second attempt adds nothing.  Which of two parents is tried first does not
matter for what the child lists in the end. -/
theorem attach_under (hc : w.Keeps child k c) (hp : w.Keeps parent l p) (limit : Int)
    (hnow : 0 ≤ now.micros) :
    let loops := p.shortId = c.shortId ∨ c.shortId ∈ p.references
    let deep := limit ≤ p.references.length
    let answer := (w.attach child parent limit now).1
    let after := (w.attach child parent limit now).2
    let attached : Group := { c with
      references := c.references
        ++ (distinct (p.references ++ [p.shortId])).filter fun s => s ∉ c.references
      modificationMs := now.stamp }
    let lists (final : Workspace) (s : Text) : Prop := s ∈ (final.hold k).group.references
    (answer = .error (.failed (.hierarchy (.loop c.shortId p.shortId))) ↔ loops)
      ∧ (answer = .error (.failed (.hierarchy (.parentTooDeep c.shortId p.shortId limit)))
        ↔ ¬ loops ∧ deep)
      ∧ (loops ∨ deep → after = { w with clock := now })
      ∧ (¬ loops → ¬ deep →
        answer = .ok (.record attached)
        ∧ after.Keeps child k attached
        ∧ after.Keeps parent l p
        ∧ (∀ m, m ≠ k → after.records[m]? = w.records[m]?)
        ∧ attached.references.Nodup
        ∧ (c.shortId ∈ attached.references ↔ c.shortId ∈ c.references)
        ∧ ∀ later : Clock, 0 ≤ later.micros →
          let again := after.attach child parent limit later
          again.1 = .ok (.record { attached with modificationMs := later.stamp })
            ∧ again.2.Keeps child k { attached with modificationMs := later.stamp })
      ∧ ∀ other m q, w.Keeps other m q → ∀ t₁ t₂ t₃ t₄ : Clock,
        0 ≤ t₁.micros → 0 ≤ t₂.micros → 0 ≤ t₃.micros → 0 ≤ t₄.micros → ∀ s,
          lists ((w.attach child parent limit t₁).2.attach child other limit t₂).2 s
            ↔ lists ((w.attach child other limit t₃).2.attach child parent limit t₄).2 s := by
  intro loops deep answer after attached lists
  have hattached : c.attachedTo p now.stamp = attached := by
    rw [Group.attachedTo, Group.inheritedReferences_eq hc.validated hp.validated]
  have hattach := attach_eq hc hp limit hnow
  have horder : ∀ other m q, w.Keeps other m q → ∀ t₁ t₂ t₃ t₄ : Clock,
      0 ≤ t₁.micros → 0 ≤ t₂.micros → 0 ≤ t₃.micros → 0 ≤ t₄.micros → ∀ s,
        lists ((w.attach child parent limit t₁).2.attach child other limit t₂).2 s
          ↔ lists ((w.attach child other limit t₃).2.attach child parent limit t₄).2 s :=
    fun _ _ _ hq _ _ _ _ h₁ h₂ h₃ h₄ s => lists_attach_comm hc hp limit hq h₁ h₂ h₃ h₄ s
  by_cases hloop : loops
  · rw [Group.attachFault?_of_loop hloop] at hattach
    refine ⟨?_, ?_, fun _ => ?_, fun hfree => absurd hloop hfree, horder⟩
    · simp [answer, hattach, hloop]
    · simp [answer, hattach, hloop]
    · simp [after, hattach]
  · by_cases hdeep : deep
    · rw [Group.attachFault?_of_deep hloop hdeep] at hattach
      refine ⟨?_, ?_, fun _ => ?_, fun _ hroom => absurd hdeep hroom, horder⟩
      · simp [answer, hattach, hloop]
      · simp [answer, hattach, hloop, hdeep]
      · simp [after, hattach]
    · have haccepted := Group.attachFault?_of_room hloop (Int.not_le.mp hdeep)
      obtain ⟨hanswer, hchild, hparent, hothers⟩ := attach_accepted hc hp haccepted hnow
      have hself := Group.shortId_mem_attachedTo_iff hc.validated hp.validated now.stamp hloop
      have hagain (later : Clock) (hlater : 0 ≤ later.micros) :=
        attach_again hc hp haccepted hnow hlater
      rw [hattached] at hanswer hchild hself hagain
      refine ⟨?_, ?_, fun h => absurd h (not_or.mpr ⟨hloop, hdeep⟩), fun _ _ =>
        ⟨hanswer, hchild, hparent, hothers, hchild.validated.nodup_references, hself, hagain⟩,
        horder⟩
      · simp [answer, hanswer, hloop]
      · simp [answer, hanswer, hdeep]

/-- A record with a short id and references, and nothing else of its
own. -/
def bareRecord (shortId : Text) (references : List Text) : Group :=
  ⟨none, shortId, 1, [], [], "en", true, false, 1000, none, 0, 0, references⟩

/-- Three records: `c` and `p` list `x`, `p` and `q` list `r`, and `q`
lists `p`. -/
def overlapping : Workspace where
  files := {}
  clock := ⟨0⟩
  records := #[bareRecord "c" ["x"], bareRecord "p" ["x", "r"], bareRecord "q" ["r", "p", "y"]]
  names := [("c", .record 0), ("p", .record 1), ("q", .record 2)]

theorem keeps_overlapping : overlapping.Keeps "c" 0 (bareRecord "c" ["x"])
    ∧ overlapping.Keeps "p" 1 (bareRecord "p" ["x", "r"])
    ∧ overlapping.Keeps "q" 2 (bareRecord "q" ["r", "p", "y"]) := by
  have hvalid (s : Text) (ids : List Text) (h : Group.check 1000 (.object [("shortId", .text s),
      ("referringGroups", Group.texts ids)]) = .ok (bareRecord s ids)) :
      (bareRecord s ids).Validated := .read h
  exact ⟨⟨rfl, rfl, hvalid _ _ (by decide +kernel)⟩, ⟨rfl, rfl, hvalid _ _ (by decide +kernel)⟩,
    ⟨rfl, rfl, hvalid _ _ (by decide +kernel)⟩⟩

/-- Under `p`, `c` gets `r` and `p`, and nothing more the second time;
under itself or beyond the limit it gets nothing; and with `q` tried
before or after `p` it lists the same groups. -/
theorem attach_under_overlapping :
    let now : Clock := ⟨1000000⟩
    let w := overlapping
    let attached : Group := { bareRecord "c" ["x", "r", "p"] with modificationMs := 1000 }
    let lists (final : Workspace) (s : Text) : Prop := s ∈ (final.hold 0).group.references
    (w.attach "c" "p" 3 now).1 = .ok (.record attached)
      ∧ ((w.attach "c" "p" 3 now).2.attach "c" "p" 3 now).1 = .ok (.record attached)
      ∧ (w.attach "c" "c" 3 now).1 = .error (.failed (.hierarchy (.loop "c" "c")))
      ∧ (w.attach "c" "c" 3 now).2 = { w with clock := now }
      ∧ (w.attach "c" "p" 2 now).1 = .error (.failed (.hierarchy (.parentTooDeep "c" "p" 2)))
      ∧ ∀ s, lists ((w.attach "c" "p" 4 now).2.attach "c" "q" 4 now).2 s
        ↔ lists ((w.attach "c" "q" 4 now).2.attach "c" "p" 4 now).2 s := by
  intro now w attached lists
  obtain ⟨hc, hp, hq⟩ := keeps_overlapping
  have hnow : 0 ≤ now.micros := by decide
  have hfree : ¬ ((bareRecord "p" ["x", "r"]).shortId = (bareRecord "c" ["x"]).shortId
      ∨ (bareRecord "c" ["x"]).shortId ∈ (bareRecord "p" ["x", "r"]).references) := by decide
  obtain ⟨-, -, -, hroom, -⟩ := attach_under hc hp 3 hnow
  obtain ⟨hanswer, -, -, -, -, -, hagain⟩ := hroom hfree (by decide)
  obtain ⟨hloop, -, hkept, -⟩ := attach_under hc hc 3 hnow
  obtain ⟨-, hdeep, -, -, -⟩ := attach_under hc hp 2 hnow
  obtain ⟨-, -, -, -, horder⟩ := attach_under hc hp 4 hnow
  refine ⟨?_, ?_, hloop.mpr (.inl rfl), hkept (.inl (.inl rfl)), hdeep.mpr ⟨hfree, by decide⟩,
    horder _ _ _ hq now now now now hnow hnow hnow hnow⟩
  · rw [hanswer]
    refine congrArg (fun g => Except.ok (Reply.record g)) ?_
    decide +kernel
  · rw [(hagain now hnow).1]
    refine congrArg (fun g => Except.ok (Reply.record g)) ?_
    decide +kernel

end Workspace

end Lineage
