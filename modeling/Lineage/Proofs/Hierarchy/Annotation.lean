/-
Lineage.Proofs.Hierarchy.Annotation — what annotations make of a view.

Annotating a view changes what its nodes show, one by one, and leaves
them where they stand: the outline of the annotated view is the outline
of the view with every face annotated (`outline_enrich`).  What becomes
of a face is decided by the first annotation of its group alone
(`Face.annotated_annotate`).  So a list of annotations that has been used
has nothing more to add, and annotations of different groups may change
places.
-/
import Lineage.Proofs.Hierarchy.Projection

namespace Lineage

universe u

namespace Tree

variable {α β : Type u}

theorem mapAll_eq_map (f : α → β) (ts : List (Tree α)) : mapAll f ts = ts.map (map f) := by
  induction ts with
  | nil => rfl
  | cons t rest ih => simp [mapAll, ih]

@[simp] theorem member_map (f : α → β) (t : Tree α) : (t.map f).member = f t.member := by
  cases t
  rfl

@[simp] theorem children_map (f : α → β) (t : Tree α) :
    (t.map f).children = t.children.map (map f) := by
  obtain ⟨m, path, cs⟩ := t
  exact mapAll_eq_map f cs

/-- Replacing what the nodes hold leaves them where they are. -/
theorem at?_map (f : α → β) (t : Tree α) (address : List Nat) :
    (t.map f).at? address = (t.at? address).map (map f) := by
  induction address generalizing t with
  | nil => simp
  | cons i rest ih =>
    rw [at?_cons, at?_cons, children_map, List.getElem?_map]
    cases t.children[i]? with
    | none => rfl
    | some child => exact ih child

theorem addresses_map (f : α → β) (t : Tree α) : (t.map f).addresses = t.addresses := by
  induction t using children_induction with
  | node t ih =>
    rw [addresses_eq, addresses_eq, children_map, List.zipIdx_map, List.flatMap_map]
    refine congrArg _ (List.flatMap_congr fun p hp => ?_)
    have hchild := List.mem_of_getElem? (List.mem_zipIdx_iff_getElem?.mp hp)
    exact congrArg _ (ih p.1 hchild)

end Tree

namespace View

/-! ## One face -/

namespace Face

/-- What annotations make of what is shown of a group. -/
structure Annotated (acls : List Acl) (old new : Face) : Prop where
  shortId : new.shortId = old.shortId
  description : new.description = old.description
  /-- The first annotation of the group decides on its roles, and on its
  name unless it has none to give. -/
  byFirst : ∀ before a after, acls = before ++ a :: after → a.group = old.shortId →
    (∀ b ∈ before, b.group ≠ old.shortId) →
      new.roles = a.roles
      ∧ (∀ name, a.localName = some name → name ≠ [] → new.name = name)
      ∧ ((∀ name, a.localName = some name → name = []) → new.name = old.name)
  /-- A group without annotations is shown as before. -/
  byNone : (∀ a ∈ acls, a.group ≠ old.shortId) → new = old

/-- The face with the roles of an annotation, and with its name if it
gives one. -/
def annotatedBy (shown : Face) (a : Acl) : Face :=
  { shown with
    roles := a.roles
    name := match a.localName with
      | some name => if name.isEmpty then shown.name else name
      | none => shown.name }

/-- The face as the first annotation of its group makes it. -/
def annotate (acls : List Acl) (shown : Face) : Face :=
  match acls.find? (fun a => a.group = shown.shortId) with
  | none => shown
  | some a => shown.annotatedBy a

variable {acls : List Acl} {shown : Face} {a : Acl}

theorem annotate_of_none (h : acls.find? (fun a => a.group = shown.shortId) = none) :
    shown.annotate acls = shown := by
  simp only [annotate, h]

theorem annotate_of_some (h : acls.find? (fun a => a.group = shown.shortId) = some a) :
    shown.annotate acls = shown.annotatedBy a := by
  simp only [annotate, h]

theorem annotatedBy_annotatedBy (shown : Face) (a : Acl) :
    (shown.annotatedBy a).annotatedBy a = shown.annotatedBy a := by
  simp only [annotatedBy]
  cases a.localName with
  | none => rfl
  | some name => cases h : name.isEmpty <;> simp only [h] <;> rfl

theorem annotated_annotate (acls : List Acl) (shown : Face) :
    Annotated acls shown (shown.annotate acls) where
  shortId := by
    unfold annotate
    split <;> rfl
  description := by
    unfold annotate
    split <;> rfl
  byFirst before a after hacls hgroup hbefore := by
    have hfirst : acls.find? (fun a => a.group = shown.shortId) = some a :=
      List.find?_eq_some_iff_append.mpr
        ⟨by simpa using hgroup, before, after, hacls, by simpa using hbefore⟩
    rw [annotate_of_some hfirst]
    refine ⟨rfl, fun name hname hne => ?_, fun hempty => ?_⟩
    · simp [annotatedBy, hname, hne]
    · cases hname : a.localName with
      | none => simp [annotatedBy, hname]
      | some name => simp [annotatedBy, hname, hempty name hname]
  byNone hnone := annotate_of_none (by simpa using hnone)

/-- A face that has been annotated stays as it is. -/
theorem annotate_annotate (acls : List Acl) (shown : Face) :
    (shown.annotate acls).annotate acls = shown.annotate acls := by
  cases h : acls.find? (fun a => a.group = shown.shortId) with
  | none => rw [annotate_of_none h, annotate_of_none h]
  | some a =>
    have hagain : (shown.annotatedBy a).annotate acls = (shown.annotatedBy a).annotatedBy a :=
      annotate_of_some h
    rw [annotate_of_some h, hagain, annotatedBy_annotatedBy]

/-- Neighbours that annotate different groups may change places. -/
theorem annotate_swap {a b : Acl} (h : a.group ≠ b.group) (before after : List Acl) :
    annotate (before ++ b :: a :: after) = annotate (before ++ a :: b :: after) := by
  funext shown
  have hfind : (before ++ b :: a :: after).find? (fun a => a.group = shown.shortId)
      = (before ++ a :: b :: after).find? (fun a => a.group = shown.shortId) := by
    rw [List.find?_append, List.find?_append]
    by_cases ha : a.group = shown.shortId
    · have hb : b.group ≠ shown.shortId := fun hb => h (ha.trans hb.symm)
      simp [ha, hb]
    · simp [List.find?_cons, ha]
  rw [annotate, annotate, hfind]

end Face

/-! ## All nodes of a view -/

/-- The view of a group that shows a face and has these views below it. -/
def ofFace (shown : Face) (children : List View) : View :=
  .node shown.shortId shown.name shown.description children shown.roles

theorem enrich_ofFace (acls : List Acl) (shown : Face) (children : List View) :
    enrich acls (ofFace shown children)
      = ofFace (shown.annotate acls) (enrichAll acls children) := by
  rw [ofFace, enrich]
  cases h : acls.find? (fun a => a.group = shown.shortId) with
  | none => rw [Face.annotate_of_none h, ofFace]
  | some a =>
    rw [Face.annotate_of_some h]
    rfl

mutual

/-- The annotated view shows the annotated faces in the old places. -/
theorem outline_enrich (acls : List Acl) : ∀ v : View,
    (enrich acls v).outline = v.outline.map (Face.annotate acls)
  | .node s n d children roles => by
    have hview : View.node s n d children roles = ofFace ⟨s, n, d, roles⟩ children := rfl
    have houtline (shown : Face) (vs : List View) :
        (ofFace shown vs).outline = .node shown [] (outlines vs) := rfl
    rw [hview, enrich_ofFace, houtline, houtline, Tree.map, outlines_enrichAll acls children]

theorem outlines_enrichAll (acls : List Acl) : ∀ vs : List View,
    outlines (enrichAll acls vs) = Tree.mapAll (Face.annotate acls) (outlines vs)
  | [] => rfl
  | v :: rest => by
    rw [enrichAll, outlines, outlines, Tree.mapAll, outline_enrich acls v,
      outlines_enrichAll acls rest]

end

mutual

/-- Annotations that have been used have nothing more to add. -/
theorem enrich_enrich (acls : List Acl) : ∀ v : View, enrich acls (enrich acls v) = enrich acls v
  | .node s n d children roles => by
    have hview : View.node s n d children roles = ofFace ⟨s, n, d, roles⟩ children := rfl
    rw [hview, enrich_ofFace, enrich_ofFace, Face.annotate_annotate,
      enrichAll_enrichAll acls children]

theorem enrichAll_enrichAll (acls : List Acl) : ∀ vs : List View,
    enrichAll acls (enrichAll acls vs) = enrichAll acls vs
  | [] => rfl
  | v :: rest => by
    rw [enrichAll, enrichAll, enrich_enrich acls v, enrichAll_enrichAll acls rest]

end

mutual

/-- What a view becomes depends on what every face becomes. -/
theorem enrich_congr {acls others : List Acl} (h : Face.annotate acls = Face.annotate others) :
    ∀ v : View, enrich acls v = enrich others v
  | .node s n d children roles => by
    have hview : View.node s n d children roles = ofFace ⟨s, n, d, roles⟩ children := rfl
    rw [hview, enrich_ofFace, enrich_ofFace, h, enrichAll_congr h children]

theorem enrichAll_congr {acls others : List Acl} (h : Face.annotate acls = Face.annotate others) :
    ∀ vs : List View, enrichAll acls vs = enrichAll others vs
  | [] => rfl
  | v :: rest => by rw [enrichAll, enrichAll, enrich_congr h v, enrichAll_congr h rest]

end

/-- Annotating a view moves none of its nodes, adds none and takes none
away, and each node shows afterwards what its first annotation makes of
it.  Doing it once more changes nothing, and neither does it matter which
of two neighbouring annotations of different groups comes first. -/
theorem enrich_annotates (acls : List Acl) (v : View) :
    (enrich acls v).outline.addresses = v.outline.addresses
      ∧ (∀ address old, v.outline.at? address = some old →
        ∃ new, (enrich acls v).outline.at? address = some new
          ∧ new.children.length = old.children.length
          ∧ Face.Annotated acls old.member new.member)
      ∧ enrich acls (enrich acls v) = enrich acls v
      ∧ ∀ before a b after, acls = before ++ a :: b :: after → a.group ≠ b.group →
        enrich (before ++ b :: a :: after) v = enrich acls v := by
  rw [outline_enrich]
  refine ⟨Tree.addresses_map _ _, fun address old hold => ?_, enrich_enrich acls v, ?_⟩
  · have hnew := Tree.at?_map (Face.annotate acls) v.outline address
    rw [hold, Option.map_some] at hnew
    refine ⟨_, hnew, by simp, ?_⟩
    rw [Tree.member_map]
    exact Face.annotated_annotate acls old.member
  · rintro before a b after rfl hne
    exact enrich_congr (Face.annotate_swap hne before after) v

/-- The group `a` stands in two places and has three annotations, the
first of them without a name to give; the one of the root comes between
them, and `b` has none. -/
theorem enrich_annotates_twofold :
    let acls : List Acl :=
      [⟨"a", some [], ["read"]⟩, ⟨"r", some "Home", []⟩, ⟨"a", some "A2", ["admin"]⟩,
        ⟨"a", none, []⟩]
    let v : View := .node "r" "R" "" [.node "a" "A" "x" [.node "b" "B" "" [] ["old"]] ["old"],
      .node "a" "" "" [] []] []
    (enrich acls v).outline.addresses = [[], [0], [0, 0], [1]]
      ∧ (∃ new, (enrich acls v).outline.at? [0] = some new
        ∧ new.member.roles = ["read"] ∧ new.member.name = "A")
      ∧ (∃ new, (enrich acls v).outline.at? [0, 0] = some new
        ∧ new.member = ⟨"b", "B", "", ["old"]⟩)
      ∧ enrich [⟨"r", some "Home", []⟩, ⟨"a", some [], ["read"]⟩, ⟨"a", some "A2", ["admin"]⟩,
        ⟨"a", none, []⟩] v = enrich acls v := by
  intro acls v
  obtain ⟨haddresses, hat, -, hswap⟩ := enrich_annotates acls v
  obtain ⟨first, hfirst, -, hannotated⟩ := hat [0] _ rfl
  obtain ⟨bare, hbare, -, hkept⟩ := hat [0, 0] _ rfl
  obtain ⟨hroles, -, hname⟩ := hannotated.byFirst [] _ _ rfl rfl (by simp)
  refine ⟨haddresses.trans rfl, ⟨first, hfirst, hroles, hname fun _ h => ?_⟩,
    ⟨bare, hbare, hkept.byNone (by decide)⟩, hswap [] _ _ _ rfl (by decide)⟩
  exact (Option.some.inj h).symm

end View

end Lineage
