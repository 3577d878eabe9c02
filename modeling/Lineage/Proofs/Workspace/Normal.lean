/-
Lineage.Proofs.Workspace.Normal — the lists of ids of a workspace keep their
normal form.

Depths are counted by the references of a record, so that a reference that
stands twice or carries a blank would count as a level of its own.  None
comes about while records and annotations are made under their checks,
copied, changed under the checks of their fields, and attached to one
another: what is checked comes in normal form, what is inherited is brought
into it, and the rest is copied (`maintains_act`).  This holds of steps
that fail as well, and of an attempt to attach that writes the references
and then has its time stamp refused.
-/
import Lineage.Proofs.Workspace.Attaching

namespace Lineage

/-- The roles of an annotation are in normal form. -/
def Item.Normal : Item → Prop
  | .acl a => Schema.Normal a.roles
  | _ => True

/-- The references of a record and the roles of an annotation that a step
answers are in normal form. -/
def Reply.Normal : Reply → Prop
  | .record g => Schema.Normal g.references
  | .acl a => Schema.Normal a.roles
  | _ => True

/-- All references of records and roles of annotations are in normal
form. -/
structure Workspace.Normal (w : Workspace) : Prop where
  records : ∀ g ∈ w.records, Schema.Normal g.references
  items : ∀ name item, w.names.get? name = some item → item.Normal

/-- The record as an attempt to attach it has written it. -/
def Group.AttachOutcome.written? : AttachOutcome → Option Group
  | .attached g => some g
  | .refused _ => none
  | .stampRefused g _ => some g

namespace Work

/-! ## Steps that maintain an invariant -/

section Maintains

variable {α β : Type} {P : Workspace → Prop} {Q : α → Prop} {R : β → Prop} {x : Work α}

/-- Whatever comes of the work, the workspace still has the property, and
the result, if there is one, has its own. -/
def Maintains (P : Workspace → Prop) (x : Work α) (Q : α → Prop) : Prop :=
  ∀ w, P w → P (x.run w).2 ∧ ∀ a, (x.run w).1 = .ok a → Q a

theorem maintains_pure {a : α} (h : Q a) : Maintains P (pure a) Q := by
  refine fun w hw => ⟨hw, fun b hb => ?_⟩
  cases hb
  exact h

theorem maintains_throw (fault : WorkFault) : Maintains P (throw fault : Work α) Q :=
  fun _ hw => ⟨hw, fun _ h => by cases h⟩

theorem maintains_get : Maintains P get P := by
  refine fun w hw => ⟨hw, fun b hb => ?_⟩
  cases hb
  exact hw

theorem maintains_modify {f : Workspace → Workspace} (h : ∀ w, P w → P (f w)) :
    Maintains P (modify f : Work Unit) fun _ => True :=
  fun w hw => ⟨h w hw, fun _ _ => trivial⟩

theorem Maintains.bind {f : α → Work β} (hx : Maintains P x Q)
    (hf : ∀ a, Q a → Maintains P (f a) R) : Maintains P (x >>= f) R := by
  intro w hw
  obtain ⟨hafter, hresult⟩ := hx w hw
  rw [Workspace.run_bind]
  rcases hrun : x.run w with ⟨fault | a, w'⟩
  · rw [hrun] at hafter
    exact ⟨hafter, fun _ h => by cases h⟩
  · rw [hrun] at hafter hresult
    exact hf a (hresult a rfl) w' hafter

theorem maintains_ofExcept {ε : Type} {failure : ε → Failure} {x : Except ε α}
    (h : ∀ a, x = .ok a → Q a) : Maintains P (ofExcept failure x) Q := by
  cases x with
  | ok a => exact maintains_pure (h a rfl)
  | error e => exact maintains_throw _

end Maintains

/-! ## Names and records -/

section Normal

open Workspace (Normal)

variable {name : Option Text} {g : Group}

theorem maintains_item (name : Text) : Maintains Normal (item name) Item.Normal := by
  refine maintains_get.bind fun w hw => ?_
  split
  · rename_i found hfound
    exact maintains_pure (hw.items name found hfound)
  · exact maintains_throw _

/-- A name that stands for no record kept stands for one without
references. -/
theorem normal_hold {w : Workspace} (h : w.Normal) (key : Nat) :
    Schema.Normal (w.hold key).group.references := by
  rw [Workspace.hold]
  cases hkept : w.records[key]? with
  | none => exact Schema.normal_nil
  | some g => exact h.records g (Array.mem_of_getElem? hkept)

theorem maintains_record (name : Text) :
    Maintains Normal (record name) fun held => Schema.Normal held.group.references := by
  refine (maintains_item name).bind fun found _ => ?_
  split
  · exact maintains_get.bind fun w hw => maintains_pure (normal_hold hw _)
  · exact maintains_throw _

theorem maintains_bindAs {item : Item} (h : item.Normal) :
    Maintains Normal (bindAs name item) fun _ => True := by
  cases name with
  | none => exact maintains_pure trivial
  | some name =>
    refine maintains_modify fun w hw => ⟨hw.records, fun other found hfound => ?_⟩
    rw [Keyed.get?_put] at hfound
    split at hfound
    · obtain rfl := Option.some.inj hfound
      exact h
    · exact hw.items other found hfound

theorem maintains_answerRecord (h : Schema.Normal g.references) :
    Maintains Normal (answerRecord name g) Reply.Normal := by
  have hkeep : Maintains Normal (keep g) fun _ => True := by
    refine maintains_get.bind fun _ _ => (maintains_modify fun w hw => ⟨?_, hw.items⟩).bind
      fun _ _ => maintains_pure trivial
    intro kept hkept
    rcases Array.mem_push.mp hkept with hkept | rfl
    · exact hw.records kept hkept
    · exact h
  exact hkeep.bind fun held _ =>
    (maintains_bindAs (show Item.Normal (.record held.key) from trivial)).bind fun _ _ =>
      maintains_pure h

theorem maintains_change {key : Nat} (h : Schema.Normal g.references) :
    Maintains Normal (change key g) fun _ => True := by
  refine maintains_modify fun w hw => ⟨fun kept hkept => ?_, hw.items⟩
  rcases Array.mem_or_eq_of_mem_setIfInBounds hkept with hkept | rfl
  · exact hw.records kept hkept
  · exact h

theorem maintains_stamp : Maintains Normal stamp fun _ => True :=
  maintains_get.bind fun _ _ => maintains_pure trivial

/-! ## Attaching -/

/-- The references that an attempt to attach writes are in normal form. -/
theorem normal_of_written? {child parent : Group} {limit now : Int}
    (h : (child.attachUnder parent limit now).written? = some g) : Schema.Normal g.references := by
  have hids : Schema.Normal (child.inheritedReferences parent) := Schema.normal_uniqueIds _
  unfold Group.attachUnder at h
  split at h
  · cases h
  · dsimp only at h
    split at h
    · rename_i attached hset
      obtain rfl := Option.some.inj h
      exact Group.normal_of_setField hids (Schema.Checked.toExcept_eq_ok_iff.mp hset)
    · obtain rfl := Option.some.inj h
      exact hids

theorem maintains_addUnder (child parent : Text) (limit : Int) :
    Maintains Normal (addUnder child parent limit) Reply.Normal := by
  refine (maintains_record child).bind fun c _ => (maintains_record parent).bind fun p _ =>
    maintains_stamp.bind fun now _ => ?_
  cases hattach : c.group.attachUnder p.group limit now with
  | refused fault => exact maintains_throw _
  | attached g =>
    have hg : Schema.Normal g.references := normal_of_written? (congrArg _ hattach)
    exact (maintains_change hg).bind fun _ _ => maintains_pure hg
  | stampRefused g rejection =>
    have hg : Schema.Normal g.references := normal_of_written? (congrArg _ hattach)
    exact (maintains_change hg).bind fun _ _ => maintains_throw _

end Normal

end Work

/-! ## Steps and runs -/

/-- The action makes a record or an annotation under its checks, or copies,
changes, attaches or looks at records; or it lets time pass. -/
def Action.isChecked : Action → Bool
  | .tick _ | .makeRecord _ | .makeAcl _ | .setField _ _ _ | .clone _ | .addUnder _ _ _
  | .peek _ | .refersTo _ _ => true
  | _ => false

namespace Work

open Workspace (Normal)

theorem maintains_act {action : Action} (h : action.isChecked = true) (name : Option Text) :
    Maintains Normal (act name action) Reply.Normal := by
  cases action with
  | tick micros =>
    exact (maintains_modify fun w hw => ⟨hw.records, hw.items⟩).bind fun _ _ =>
      maintains_stamp.bind fun _ _ => maintains_pure trivial
  | makeRecord data =>
    exact maintains_stamp.bind fun _ _ =>
      (maintains_ofExcept fun _ hg => Group.normal_of_check hg).bind fun _ hg =>
        maintains_answerRecord hg
  | makeAcl data =>
    exact (maintains_ofExcept fun _ ha => Acl.normal_of_check ha).bind fun a ha =>
      (maintains_bindAs (show Item.Normal (.acl a) from ha)).bind fun _ _ => maintains_pure ha
  | setField record field value =>
    refine (maintains_record record).bind fun held hheld =>
      (maintains_ofExcept fun g hg => ?_).bind fun g hg =>
        (maintains_change hg).bind fun _ _ => maintains_pure hg
    rcases Group.set_cases hg with rfl | ⟨field, hfield⟩
    · exact hheld
    · exact Group.normal_of_setField hheld hfield
  | clone record =>
    exact (maintains_record record).bind fun _ hheld => maintains_answerRecord hheld
  | addUnder record parent limit => exact maintains_addUnder record parent limit
  | peek record => exact (maintains_record record).bind fun _ hheld => maintains_pure hheld
  | refersTo record shortId =>
    exact (maintains_record record).bind fun _ _ => maintains_pure trivial
  | _ => cases h

end Work

namespace Workspace

/-- The workspace after some steps. -/
def after (w : Workspace) (steps : List Step) : Workspace :=
  steps.foldl (fun w s => (w.step s).2) w

theorem normal_run {w : Workspace} (h : w.Normal) {steps : List Step}
    (hsteps : ∀ s ∈ steps, s.action.isChecked = true) :
    (w.after steps).Normal ∧ ∀ reply, .ok reply ∈ w.run steps → reply.Normal := by
  induction steps generalizing w with
  | nil => exact ⟨h, fun _ hreply => absurd hreply List.not_mem_nil⟩
  | cons s steps ih =>
    obtain ⟨hs, hsteps⟩ := List.forall_mem_cons.mp hsteps
    obtain ⟨hafter, hanswer⟩ := Work.maintains_act hs s.name w h
    obtain ⟨hend, hanswers⟩ := ih hafter hsteps
    refine ⟨hend, fun reply hreply => ?_⟩
    rcases List.mem_cons.mp hreply with hreply | hreply
    · exact hanswer reply hreply.symm
    · exact hanswers reply hreply

/-- A workspace without records and names. -/
def blank (files : Files) (clock : Clock) : Workspace :=
  { files := files, clock := clock }

theorem normal_blank (files : Files) (clock : Clock) : (blank files clock).Normal :=
  ⟨fun _ h => absurd h (Array.not_mem_empty _), fun _ _ h => by cases h⟩

open Schema (checkMentions idsOf)

/-- Of texts and nulls the ids that are not empty are kept, stripped and each
once, in the order of first occurrence; doing so again, or to a part of them
ahead, changes nothing.  All records and annotations that steps under
checks can bring about have lists of this form. -/
theorem idsOf_normal_form :
    (∀ xs : List (Option Text),
        checkMentions (xs.map Group.textOrNull) = .ok (idsOf xs)
          ∧ (∀ s, s ∈ idsOf xs ↔ s ≠ [] ∧ ∃ t, some t ∈ xs ∧ t.strip = s)
          ∧ (idsOf xs).Pairwise (fun s t =>
            (xs.map (Option.map Text.strip)).idxOf (some s)
              < (xs.map (Option.map Text.strip)).idxOf (some t))
          ∧ idsOf ((idsOf xs).map some) = idsOf xs
          ∧ ∀ ys, idsOf (xs ++ ys) = idsOf ((idsOf xs).map some ++ ys))
      ∧ ∀ files clock steps, (∀ s ∈ steps, s.action.isChecked = true) →
          let w := blank files clock
          (∀ g ∈ (w.after steps).records, Schema.Normal g.references)
            ∧ (∀ name a, (w.after steps).names.get? name = some (.acl a) → Schema.Normal a.roles)
            ∧ ∀ reply, .ok reply ∈ w.run steps → reply.Normal := by
  refine ⟨fun xs => ⟨Schema.checkMentions_textOrNull xs, fun _ => Schema.mem_idsOf xs,
    Schema.idsOf_order xs, ?_, fun ys => (Schema.idsOf_append xs ys).symm⟩,
    fun files clock steps hsteps => ?_⟩
  · rw [Schema.idsOf_texts]
    exact (Schema.normal_uniqueIds _).uniqueIds_eq
  · obtain ⟨hend, hanswers⟩ := normal_run (normal_blank files clock) hsteps
    exact ⟨hend.records, fun name a => hend.items name (.acl a), hanswers⟩

/-- A record with blanks, gaps and repetitions among its references, one to
attach it under, and an annotation. -/
def untidySteps : List Step :=
  [⟨.makeRecord (.object [("shortId", .text " c "),
      ("referringGroups", .array [.text " x ", .null, .text "x", .text " ", .text "y"])]),
      some "c"⟩,
    ⟨.makeRecord (.object [("shortId", .text "p"),
      ("referringGroups", .array [.text "r", .text "y\t"])]), some "p"⟩,
    ⟨.addUnder "c" "p" 5, none⟩,
    ⟨.makeAcl (.object [("group", .text "c"), ("roles", .text "b ab")]), some "a"⟩,
    ⟨.clone "c", some "d"⟩]

/-- The record has each reference once, and so has its copy. -/
theorem idsOf_normal_form_untidy :
    (∀ s ∈ untidySteps, s.action.isChecked = true)
      ∧ (((blank {} ⟨1000000⟩).after untidySteps).records.map Group.references)
        = (#[["x", "y", "r", "p"], ["r", "y"], ["x", "y", "r", "p"]] : Array (List Text))
      ∧ (∀ g ∈ ((blank {} ⟨1000000⟩).after untidySteps).records, Schema.Normal g.references)
      ∧ ∀ name a, ((blank {} ⟨1000000⟩).after untidySteps).names.get? name = some (.acl a) →
        Schema.Normal a.roles := by
  have hsteps : ∀ s ∈ untidySteps, s.action.isChecked = true := by decide
  obtain ⟨hrecords, hroles, -⟩ := idsOf_normal_form.2 {} ⟨1000000⟩ untidySteps hsteps
  exact ⟨hsteps, by decide +kernel, hrecords, hroles⟩

end Workspace

end Lineage
