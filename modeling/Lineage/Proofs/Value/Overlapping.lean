/-
Lineage.Proofs.Value.Overlapping — when there is no room to lay one
object over another.

Every object that is laid over another one takes a call within that of
the objects around them.  So there is no room exactly if both hold
objects under the same names, as many within one another as there are
calls (`Mapping.lay_eq_none_iff`).  Laying the first fields makes the
heap longer and puts new objects into the lower one, but neither changes
what is found under the names that are left.
-/
import Lineage.Proofs.Value.Viewing

namespace Lineage

/-! ## Objects under the same names -/

section Overlap

variable {α β : Type} {below? : α → Scalar → Option α} {above? : β → Scalar → Option β}

/-- Two objects hold objects under the same names, so many within one
another; `below?` and `above?` find the objects within. -/
inductive Overlap (below? : α → Scalar → Option α) (above? : β → Scalar → Option β) :
    Nat → α → β → Prop
  | here (lower : α) (upper : β) : Overlap below? above? 0 lower upper
  | within {n : Nat} {lower below : α} {upper above : β} {name : Scalar}
      (hlower : below? lower name = some below) (hupper : above? upper name = some above)
      (hinner : Overlap below? above? n below above) : Overlap below? above? (n + 1) lower upper

variable {n : Nat} {lower : α} {upper : β}

theorem overlap_succ_iff :
    Overlap below? above? (n + 1) lower upper ↔ ∃ name below above,
      below? lower name = some below ∧ above? upper name = some above
        ∧ Overlap below? above? n below above := by
  constructor
  · intro h
    cases h with
    | within hlower hupper hinner => exact ⟨_, _, _, hlower, hupper, hinner⟩
  · rintro ⟨_, _, _, hlower, hupper, hinner⟩
    exact .within hlower hupper hinner

theorem overlap_symm :
    Overlap below? above? n lower upper ↔ Overlap above? below? n upper lower := by
  induction n generalizing lower upper with
  | zero => exact iff_of_true (.here _ _) (.here _ _)
  | succ n ih =>
    simp only [overlap_succ_iff, ih]
    constructor <;> exact fun ⟨name, below, above, hlower, hupper, hinner⟩ =>
      ⟨name, above, below, hupper, hlower, hinner⟩

end Overlap

namespace Heap

/-- The fields of the object under a name. -/
def inner? (h : Heap) (links : Links) (name : Scalar) : Option Links :=
  (Keyed.get? links name).bind h.links?

variable {h h' g : Heap} {lower upper links : Links} {n : Nat}

/-! ## Other heaps -/

theorem inner?_of_kept (hkept : h <+: h') (hlinks : Links.Within h.length links)
    (name : Scalar) : h'.inner? links name = h.inner? links name := by
  unfold inner?
  cases hget : Keyed.get? links name with
  | none => rfl
  | some r => exact links?_of_kept hkept (hlinks.of_get? hget)

theorem Sound.inner? (hs : h.Sound) {name : Scalar} {inner : Links}
    (hinner : h.inner? links name = some inner) : Links.Within h.length inner := by
  obtain ⟨r, -, hr⟩ := Option.bind_eq_some_iff.mp hinner
  exact hs.links? hr

/-- Objects overlap as they did where the heap of the lower one goes
on. -/
theorem overlap_of_kept (hs : h.Sound) (hkept : h <+: h') (hlower : Links.Within h.length lower) :
    Overlap h'.inner? g.inner? n lower upper ↔ Overlap h.inner? g.inner? n lower upper := by
  induction n generalizing lower upper with
  | zero => exact iff_of_true (.here _ _) (.here _ _)
  | succ n ih =>
    simp only [overlap_succ_iff, inner?_of_kept hkept hlower]
    refine exists_congr fun name => exists_congr fun below => exists_congr fun above => ?_
    exact and_congr_right fun hbelow => and_congr_right fun _ => ih (hs.inner? hbelow)

/-- Two objects of one heap overlap as they did where it goes on. -/
theorem overlap_grown (hs : h.Sound) (hkept : h <+: h') (hlower : Links.Within h.length lower)
    (hupper : Links.Within h.length upper) :
    Overlap h'.inner? h'.inner? n lower upper ↔ Overlap h.inner? h.inner? n lower upper := by
  rw [overlap_of_kept hs hkept hlower, overlap_symm, overlap_of_kept hs hkept hupper,
    overlap_symm]

/-! ## Other places -/

theorem inner?_shift (h g : Heap) (links : Links) (name : Scalar) :
    (h.beside g).inner? (Links.shift h.length links) name
      = (g.inner? links name).map (Links.shift h.length) := by
  unfold inner?
  rw [Links.shift, Keyed.get?_map links (Ref.shift h.length) name]
  rcases Keyed.get? links name with _ | _ | n
  · rfl
  · rfl
  · simp only [Option.map_some, Option.bind_some, Ref.shift, links?, body?, getElem?_beside]
    rcases g[n]? with _ | _ | _ <;> rfl

/-- Objects overlap as they did where the heap of the upper one stands
behind that of the lower one. -/
theorem overlap_shift :
    Overlap h.inner? (h.beside g).inner? n lower (Links.shift h.length upper)
      ↔ Overlap h.inner? g.inner? n lower upper := by
  induction n generalizing lower upper with
  | zero => exact iff_of_true (.here _ _) (.here _ _)
  | succ n ih =>
    simp only [overlap_succ_iff, inner?_shift, Option.map_eq_some_iff]
    constructor
    · rintro ⟨name, below, _, hlower, ⟨above, hupper, rfl⟩, hinner⟩
      exact ⟨name, below, above, hlower, hupper, ih.mp hinner⟩
    · rintro ⟨name, below, above, hlower, hupper, hinner⟩
      exact ⟨name, below, _, hlower, ⟨above, hupper, rfl⟩, ih.mpr hinner⟩

/-! ## Fields one after the other -/

theorem inner?_cons (h : Heap) (name other : Scalar) (r : Ref) (rest : Links) :
    h.inner? ((name, r) :: rest) other
      = if (name == other) = true then h.links? r else h.inner? rest other := by
  unfold inner?
  rw [Keyed.get?]
  split <;> rfl

theorem inner?_put_of_ne {name other : Scalar} (hne : (name == other) = false) (r : Ref) :
    h.inner? (Keyed.put links name r) other = h.inner? links other := by
  unfold inner?
  rw [Keyed.get?_put_of_ne _ _ hne]

theorem inner?_congr {name other : Scalar} (heq : (name == other) = true) :
    h.inner? links name = h.inner? links other := by
  unfold inner?
  rw [Keyed.get?_congr links heq]

/-- Objects under a name of a new field are not found under its name. -/
theorem ne_of_inner? {name other : Scalar} {inner : Links}
    (hnew : ∀ l ∈ links, (name == l.1) = false) (hinner : h.inner? links other = some inner) :
    (name == other) = false := by
  obtain ⟨r, hr, -⟩ := Option.bind_eq_some_iff.mp hinner
  obtain ⟨k, hk, heq⟩ := Keyed.exists_mem_of_get? hr
  rw [← hnew _ hk, BEq.congr_right heq]

/-- Objects overlap under the name of the first field of the upper one or
under that of a later one. -/
theorem overlap_cons_iff {name : Scalar} {r : Ref} {rest : Links}
    (hnew : ∀ l ∈ rest, (name == l.1) = false) :
    Overlap h.inner? g.inner? (n + 1) lower ((name, r) :: rest)
      ↔ (∃ below above, h.inner? lower name = some below ∧ g.links? r = some above
          ∧ Overlap h.inner? g.inner? n below above)
        ∨ Overlap h.inner? g.inner? (n + 1) lower rest := by
  simp only [overlap_succ_iff]
  constructor
  · rintro ⟨other, below, above, hbelow, habove, hinner⟩
    rw [inner?_cons] at habove
    split at habove
    · rename_i heq
      exact .inl ⟨below, above, (inner?_congr heq).trans hbelow, habove, hinner⟩
    · exact .inr ⟨other, below, above, hbelow, habove, hinner⟩
  · rintro (⟨below, above, hbelow, habove, hinner⟩ | ⟨other, below, above, hbelow, habove, hinner⟩)
    · exact ⟨name, below, above, hbelow, by rw [inner?_cons, if_pos BEq.rfl]; exact habove, hinner⟩
    · refine ⟨other, below, above, hbelow, ?_, hinner⟩
      rw [inner?_cons, if_neg (by rw [ne_of_inner? hnew habove]; exact Bool.false_ne_true)]
      exact habove

/-- A field that is put under another name does not count. -/
theorem overlap_put_iff {name : Scalar} (hnew : ∀ l ∈ upper, (name == l.1) = false) (r : Ref) :
    Overlap h.inner? g.inner? n (Keyed.put lower name r) upper
      ↔ Overlap h.inner? g.inner? n lower upper := by
  cases n with
  | zero => exact iff_of_true (.here _ _) (.here _ _)
  | succ n =>
    simp only [overlap_succ_iff]
    refine exists_congr fun other => exists_congr fun below => exists_congr fun above => ?_
    constructor
    · rintro ⟨hbelow, habove, hinner⟩
      rw [inner?_put_of_ne (ne_of_inner? hnew habove)] at hbelow
      exact ⟨hbelow, habove, hinner⟩
    · rintro ⟨hbelow, habove, hinner⟩
      rw [inner?_put_of_ne (ne_of_inner? hnew habove)]
      exact ⟨hbelow, habove, hinner⟩

/-! ## Laying -/

/-- There is no room to lay fields over fields if there is none for the
objects under one of the names. -/
theorem layLinks_eq_none_iff {both : Heap → Links → Links → Option (Heap × Links)}
    (hlaid : ∀ {h : Heap} {below above : Links} {out : Heap × Links}, h.Sound →
      Links.Within h.length below → Links.Within h.length above → both h below above = some out →
      Laid h out)
    (hnone : ∀ {h : Heap} {below above : Links}, h.Sound → Links.Within h.length below →
      Links.Within h.length above →
        (both h below above = none ↔ Overlap h.inner? h.inner? n below above))
    (hs : h.Sound) (hlower : Links.Within h.length lower) {fields : Links}
    (hfields : Links.Within h.length fields) :
    layLinks both h lower fields = none ↔ Overlap h.inner? h.inner? (n + 1) lower fields := by
  induction fields generalizing h lower with
  | nil =>
    refine iff_of_false (by simp [layLinks]) fun hall => ?_
    obtain ⟨_, _, _, -, hupper, -⟩ := overlap_succ_iff.mp hall
    cases hupper
  | cons l rest ih =>
    obtain ⟨name, r⟩ := l
    obtain ⟨hnew, hnames⟩ := Keyed.unrepeated_cons.mp hfields.unrepeated
    have hr : r.Within h.length := hfields.refs _ List.mem_cons_self
    have hrest : Links.Within h.length rest :=
      ⟨hnames, fun l hl => hfields.refs l (List.mem_cons_of_mem _ hl)⟩
    -- For the later fields it makes no difference what was put under the name.
    have hlater {h₁ : Heap} {q : Ref} (hsound : h₁.Sound) (hkept : h <+: h₁)
        (hq : q.Within h₁.length) :
        layLinks both h₁ (Keyed.put lower name q) rest = none
          ↔ Overlap h.inner? h.inner? (n + 1) lower rest := by
      have hle := hkept.length_le
      rw [ih hsound ((hlower.mono hle).put name hq) (hrest.mono hle), overlap_put_iff hnew,
        overlap_grown hs hkept hlower hrest]
    rw [overlap_cons_iff hnew, layLinks]
    split
    · rename_i below above hbelow habove
      have hbelow : h.inner? lower name = some below := hbelow
      have hwithin := hs.inner? hbelow
      have hhere : (∃ below above, h.inner? lower name = some below ∧ h.links? r = some above
          ∧ Overlap h.inner? h.inner? n below above) ↔ Overlap h.inner? h.inner? n below above := by
        simp [hbelow, habove]
      rw [hhere, ← hnone hs hwithin (hs.links? habove)]
      cases hout : both h below above with
      | none => simp
      | some out =>
        have hnew := hlaid hs hwithin (hs.links? habove) hout
        rw [or_iff_right (by simp)]
        exact hlater (hnew.sound.concat (b := .fields out.2) hnew.within)
          (hnew.kept.trans (List.prefix_append _ _)) (by simp [Ref.Within])
    · rename_i hapart
      rw [or_iff_right]
      · exact hlater hs (List.prefix_refl h) hr
      · rintro ⟨below, above, hbelow, habove, -⟩
        exact hapart below above hbelow habove

/-- There is no room to lay objects over one another exactly if they
overlap. -/
theorem lay_eq_none_iff (room : Nat) (hs : h.Sound) (hlower : Links.Within h.length lower)
    (hupper : Links.Within h.length upper) :
    lay room h lower upper = none ↔ Overlap h.inner? h.inner? room lower upper := by
  induction room generalizing h lower upper with
  | zero => exact iff_of_true rfl (.here _ _)
  | succ room ih =>
    exact layLinks_eq_none_iff (fun hs hb ha hout => laid_lay hs hb ha hout)
      (fun hs hb ha => ih hs hb ha) hs hlower hupper

end Heap

namespace Mapping

/-- The objects hold objects under the same names, so many within one
another. -/
def Overlaps (n : Nat) (lower upper : Mapping) : Prop :=
  Overlap lower.heap.inner? upper.heap.inner? n lower.links upper.links

/-- There is no room to lay an object over another exactly if they
overlap. -/
theorem lay_eq_none_iff {room : Nat} {lower upper : Mapping} :
    lower.lay room upper = none ↔ Overlaps room lower upper := by
  have hsound := lower.sound.beside upper.sound
  have hnone := Heap.lay_eq_none_iff room hsound (lower.within.mono (by simp))
    (by simpa using upper.within.shift lower.heap.length)
  rw [Heap.overlap_of_kept lower.sound (Heap.prefix_beside _ _) lower.within,
    Heap.overlap_shift] at hnone
  rw [Overlaps, ← hnone, Mapping.lay]
  split
  · rename_i h
    simp [h]
  · rename_i h
    simp [h]

end Mapping

end Lineage
