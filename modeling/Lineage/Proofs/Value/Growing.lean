/-
Lineage.Proofs.Value.Growing — heaps into which values are entered one
after the other.

A value that is entered gets places of its own before, and so do the
objects that are made on the way.  So however a heap has grown by
entries, nothing new leads to what was there at first, and no two fields
lead to the same new array or object (`Heap.Grown`, kept by every entry:
`Grown.enter`).  Hence two paths that were unmixed at first stay so
(`Grown.unmixed`), and what a run of entries (`Heap.Grafted`) leaves at a
path is decided by the sharing that was there before all of them: the
last entry for the path counts, or what stood there before, if a scalar
stands there in the end or nothing (`Grafted.follow?_eq`).
-/
import Lineage.Proofs.Value.Following
import Mathlib.Data.List.Induction
import Mathlib.Data.List.Pairwise

namespace Lineage.Heap

open Value (names)

variable {h₀ h h' h'' : Heap} {p q r : Ref} {name other : Text} {m n root : Nat}

/-- A heap that has grown out of another one: what leads to a place that
was there did so before, and no two fields lead to one new place. -/
structure Grown (h₀ h : Heap) : Prop where
  le : h₀.length ≤ h.length
  old : ∀ {p name m}, m < h₀.length → h.next? p name = some (.place m) →
    h₀.next? p name = some (.place m)
  unique : ∀ {p q name other m}, h₀.length ≤ m → h.next? p name = some (.place m) →
    h.next? q other = some (.place m) → p = q ∧ name = other

/-- If an array or an object is referred to, it stands behind so many
places, and no field leads to it. -/
def Free (h : Heap) (bound : Nat) (r : Ref) : Prop :=
  ∀ m, r = .place m → bound ≤ m ∧ ∀ p name, h.next? p name ≠ some (.place m)

theorem Grown.refl (hs : h.Sound) : Grown h h where
  le := Nat.le_refl _
  old _ hnext := hnext
  unique hm hnext _ := absurd (hs.next? hnext) (Nat.not_lt.mpr hm)

theorem Grown.trans (hg : Grown h₀ h) (hg' : Grown h h') : Grown h₀ h' where
  le := Nat.le_trans hg.le hg'.le
  old hm hnext := hg.old hm (hg'.old (Nat.lt_of_lt_of_le hm hg.le) hnext)
  unique {p q name other m} hm hp hq := by
    by_cases hold : m < h.length
    · exact hg.unique hm (hg'.old hold hp) (hg'.old hold hq)
    · exact hg'.unique (Nat.not_lt.mp hold) hp hq

/-! ## One more array or object -/

/-- What leads somewhere once there is one more object led there before,
or is a field of that object. -/
theorem next?_concat {b : Body} (hnext : (h ++ [b]).next? p name = some q) :
    h.next? p name = some q
      ∨ ∃ links, p = .place h.length ∧ b = .fields links
        ∧ Keyed.get? links (.text name) = some q := by
  obtain ⟨n, links, rfl, hbody, hget⟩ := exists_place_of_next? hnext
  rcases Nat.lt_trichotomy n h.length with hn | rfl | hn
  · rw [List.getElem?_append_left hn] at hbody
    exact .inl ((next?_of_body hbody name).trans hget)
  · rw [List.getElem?_concat_length] at hbody
    exact .inr ⟨links, rfl, Option.some.inj hbody, hget⟩
  · rw [List.getElem?_eq_none (by simpa using Nat.succ_le_of_lt hn)] at hbody
    cases hbody

/-- An object may be put behind a heap if its fields lead to different
places that are free. -/
theorem Grown.concat (hg : Grown h₀ h) {b : Body}
    (hfree : ∀ links, b = .fields links → ∀ name r, Keyed.get? links (.text name) = some r →
      h.Free h₀.length r)
    (hdiffer : ∀ links, b = .fields links → ∀ name other m,
      Keyed.get? links (.text name) = some (.place m) →
        Keyed.get? links (.text other) = some (.place m) → name = other) :
    Grown h₀ (h ++ [b]) where
  le := Nat.le_trans hg.le (by simp)
  old {p name m} hm hnext := by
    rcases next?_concat hnext with hnext | ⟨links, -, hlinks, hget⟩
    · exact hg.old hm hnext
    · exact absurd hm (Nat.not_lt.mpr (hfree links hlinks name _ hget m rfl).1)
  unique {p q name other m} hm hp hq := by
    rcases next?_concat hp with hp | ⟨links, rfl, hlinks, hget⟩
    · rcases next?_concat hq with hq | ⟨links, -, hlinks, hget⟩
      · exact hg.unique hm hp hq
      · exact absurd hp ((hfree links hlinks other _ hget m rfl).2 p name)
    · rcases next?_concat hq with hq | ⟨links', rfl, hlinks', hget'⟩
      · exact absurd hq ((hfree links hlinks name _ hget m rfl).2 q other)
      · obtain rfl := Body.fields.inj (hlinks.symm.trans hlinks')
        exact ⟨rfl, hdiffer links hlinks name other m hget hget'⟩

/-! ## One more field -/

@[simp] theorem length_putAt (h : Heap) (n : Nat) (name : Scalar) (r : Ref) :
    (h.putAt n name r).length = h.length := by
  unfold putAt
  split <;> simp

/-- What leads somewhere once a field has been put led there before, or is
that field. -/
theorem next?_putAt (hnext : (h.putAt n (.text name) r).next? p other = some q) :
    h.next? p other = some q ∨ p = .place n ∧ other = name ∧ q = r := by
  unfold putAt at hnext
  split at hnext
  · rename_i links hbody
    obtain ⟨k, links', rfl, hset, hget⟩ := exists_place_of_next? hnext
    by_cases hk : k = n
    · subst hk
      rw [List.getElem?_set_self (lt_of_body hbody)] at hset
      cases hset
      by_cases hname : other = name
      · subst hname
        rw [Keyed.get?_put_self] at hget
        exact .inr ⟨rfl, rfl, (Option.some.inj hget).symm⟩
      · rw [Keyed.get?_put_of_ne _ _ (by simpa using Ne.symm hname)] at hget
        exact .inl ((next?_of_body hbody other).trans hget)
    · rw [List.getElem?_set_ne (Ne.symm hk)] at hset
      exact .inl ((next?_of_body hset other).trans hget)
  · exact .inl hnext

/-- A field may be put if it leads to a place that is free. -/
theorem Grown.putAt (hg : Grown h₀ h) (hfree : h.Free h₀.length r) :
    Grown h₀ (h.putAt n (.text name) r) where
  le := by simpa using hg.le
  old {p other m} hm hnext := by
    rcases next?_putAt hnext with hnext | ⟨-, -, heq⟩
    · exact hg.old hm hnext
    · exact absurd hm (Nat.not_lt.mpr (hfree m heq.symm).1)
  unique {p q first second m} hm hp hq := by
    rcases next?_putAt hp with hp | ⟨rfl, rfl, heq⟩
    · rcases next?_putAt hq with hq | ⟨-, -, heq⟩
      · exact hg.unique hm hp hq
      · exact absurd hp ((hfree m heq.symm).2 p first)
    · rcases next?_putAt hq with hq | ⟨rfl, rfl, -⟩
      · exact absurd hq ((hfree m heq.symm).2 q second)
      · exact ⟨rfl, rfl⟩

theorem within_putAt {bound : Nat} (hwithin : ∀ b ∈ h, b.Within bound) {name : Scalar}
    (hr : r.Within bound) : ∀ b ∈ h.putAt n name r, b.Within bound := by
  unfold Heap.putAt
  split
  · rename_i links hbody
    intro b hb
    rcases List.mem_or_eq_of_mem_set hb with hb | rfl
    · exact hwithin b hb
    · exact Links.Within.put (hwithin _ (List.mem_of_getElem? hbody)) name hr
  · exact hwithin

/-! ## Values in places of their own -/

/-- Values were put into places of their own: no field leads to any of
them, and no two are the same. -/
structure Planted (h : Heap) (refs : List Ref) (h' : Heap) : Prop where
  grown : Grown h h'
  free : ∀ r ∈ refs, h'.Free h.length r
  differ : refs.Pairwise fun p q => ∀ m, p = .place m → q ≠ .place m

theorem Planted.scalar (hs : h.Sound) (s : Scalar) : Planted h [.scalar s] h where
  grown := .refl hs
  free r hr m heq := by
    rw [List.mem_singleton.mp hr] at heq
    cases heq
  differ := List.pairwise_singleton _ _

theorem Planted.nil (hs : h.Sound) : Planted h [] h where
  grown := .refl hs
  free _ hr := absurd hr List.not_mem_nil
  differ := .nil

theorem Planted.cons {refs : List Ref} (hfirst : Planted h [r] h') (hr : r.Within h'.length)
    (hrest : Planted h' refs h'') : Planted h (r :: refs) h'' where
  grown := hfirst.grown.trans hrest.grown
  free := by
    intro q hq m heq
    rcases List.mem_cons.mp hq with rfl | hq
    · obtain ⟨hle, hnone⟩ := hfirst.free q List.mem_cons_self m heq
      subst heq
      exact ⟨hle, fun p name hnext => hnone p name (hrest.grown.old hr hnext)⟩
    · obtain ⟨hle, hnone⟩ := hrest.free q hq m heq
      exact ⟨Nat.le_trans hfirst.grown.le hle, hnone⟩
  differ := by
    refine List.pairwise_cons.mpr ⟨fun q hq m hfirst hsecond => ?_, hrest.differ⟩
    subst hfirst
    exact absurd hr (Nat.not_lt.mpr (hrest.free q hq m hsecond).1)

/-- An array or an object of such values is one itself. -/
theorem Planted.concat {refs : List Ref} (hp : Planted h refs h') (hs : h'.Sound) {b : Body}
    (hwithin : b.Within h'.length) (hlinks : ∀ links, b = .fields links → links.values = refs) :
    Planted h [.place h'.length] (h' ++ [b]) where
  grown := by
    refine hp.grown.concat (fun links heq name r hget => ?_)
      fun links heq name other m hname hother => ?_
    · obtain ⟨k, hk, -⟩ := Keyed.exists_mem_of_get? hget
      exact hp.free r (hlinks links heq ▸ List.mem_map_of_mem hk)
    · have hdiffer : links.Pairwise fun k l => ∀ m, k.2 = .place m → l.2 ≠ .place m :=
        List.pairwise_map.mp (hlinks links heq ▸ hp.differ)
      obtain ⟨k, hk, hkey⟩ := Keyed.exists_mem_of_get? hname
      obtain ⟨l, hl, hkey'⟩ := Keyed.exists_mem_of_get? hother
      have hsymm : Std.Symm fun k l : Scalar × Ref => ∀ m, k.2 = .place m → l.2 ≠ .place m :=
        ⟨fun k l hkl m hl hk => hkl m hk hl⟩
      by_contra hne
      have hkl : (k, Ref.place m) ≠ (l, Ref.place m) := by
        rintro heq
        obtain rfl := (Prod.mk.inj heq).1
        rw [BEq.comm, Scalar.text_beq_iff] at hkey hkey'
        exact hne (Scalar.text.inj (hkey.symm.trans hkey'))
      exact hdiffer.forall hk hl hkl m rfl rfl
  free := by
    intro r hr m heq
    obtain rfl := Ref.place.inj ((List.mem_singleton.mp hr).symm.trans heq)
    refine ⟨hp.grown.le, fun p name hnext => ?_⟩
    rcases next?_concat hnext with hnext | ⟨links, -, rfl, hget⟩
    · exact Nat.lt_irrefl _ (hs.next? hnext)
    · exact Nat.lt_irrefl _ (Links.Within.of_get? hwithin hget)
  differ := List.pairwise_singleton _ _

mutual

/-- Putting a value into a heap gives it places of its own. -/
theorem planted_plant {h : Heap} (hs : h.Sound) :
    (v : Value) → v.Proper → Planted h [(h.plant v).2] (h.plant v).1
  | .scalar s, _ => .scalar hs s
  | .array items, hv => by
    have hitems : ∀ v ∈ items, v.Proper := by
      cases hv
      assumption
    obtain ⟨hsound, hparts⟩ := hs.plantItems items
    exact (planted_plantItems hs items hitems).concat hsound hparts (by simp)
  | .object fields, hv => by
    obtain ⟨hsound, hlinks⟩ := hs.plantFields fields
    have hpairs : Keyed.ofPairs (h.plantFields fields).2 = (h.plantFields fields).2 :=
      Keyed.ofPairs_of_unrepeated (hv.unrepeated.of_keys_eq (keys_plantFields h fields))
    refine (planted_plantFields hs fields fun f hf => hv.of_mem hf).concat hsound
      (Links.Within.ofPairs hlinks) fun links heq => ?_
    rw [← Body.fields.inj heq, hpairs]

theorem planted_plantItems {h : Heap} (hs : h.Sound) : (items : List Value) →
    (∀ v ∈ items, v.Proper) → Planted h (h.plantItems items).2 (h.plantItems items).1
  | [], _ => .nil hs
  | item :: rest, hitems => by
    obtain ⟨hitem, hrest⟩ := List.forall_mem_cons.mp hitems
    obtain ⟨hsound, hr⟩ := hs.plant item
    exact (planted_plant hs item hitem).cons hr (planted_plantItems hsound rest hrest)

theorem planted_plantFields {h : Heap} (hs : h.Sound) : (fields : List (Scalar × Value)) →
    (∀ f ∈ fields, f.2.Proper) →
      Planted h (Keyed.values (h.plantFields fields).2) (h.plantFields fields).1
  | [], _ => .nil hs
  | (name, value) :: rest, hfields => by
    obtain ⟨hvalue, hrest⟩ := List.forall_mem_cons.mp hfields
    obtain ⟨hsound, hr⟩ := hs.plant value
    exact (planted_plant hs value hvalue).cons hr (planted_plantFields hsound rest hrest)

end

/-! ## Entering -/

/-- A new object without fields may be put under a name. -/
theorem Grown.putNew (hg : Grown h₀ h) (hs : h.Sound) :
    Grown h₀ (h.putAt n (.text name) (.place h.length) ++ [.fields []]) := by
  have hnew : h.Free h₀.length (.place h.length) := by
    intro m heq
    obtain rfl := Ref.place.inj heq
    exact ⟨hg.le, fun p name hnext => Nat.lt_irrefl _ (hs.next? hnext)⟩
  refine (hg.putAt hnew).concat (fun links heq name r hget => ?_)
    fun links heq name other m hget _ => ?_
  · rw [← Body.fields.inj heq] at hget
    cases hget
  · rw [← Body.fields.inj heq] at hget
    cases hget

theorem Sound.putNew (hs : h.Sound) :
    Sound (h.putAt n (.text name) (.place h.length) ++ [.fields []]) := by
  intro b hb
  rw [List.length_append, length_putAt, List.length_singleton]
  rcases List.mem_append.mp hb with hb | hb
  · have hplace : Ref.Within (h.length + 1) (.place h.length) := Nat.lt_succ_self _
    exact within_putAt (fun b hb => (hs b hb).mono (Nat.le_succ _)) hplace b hb
  · rw [List.mem_singleton.mp hb]
    exact Links.Within.nil _

/-- What is free stays so when a new object is put under a name. -/
theorem Free.putNew {bound : Nat} (hfree : h.Free bound r) (hr : r.Within h.length) :
    Free (h.putAt n (.text name) (.place h.length) ++ [.fields []]) bound r := by
  intro m heq
  refine ⟨(hfree m heq).1, fun p other hnext => ?_⟩
  rcases next?_concat hnext with hnext | ⟨links, -, hlinks, hget⟩
  · rcases next?_putAt hnext with hnext | ⟨-, -, hplace⟩
    · exact (hfree m heq).2 p other hnext
    · subst heq
      rw [Ref.place.inj hplace] at hr
      exact Nat.lt_irrefl _ hr
  · rw [← Body.fields.inj hlinks] at hget
    cases hget

theorem Grown.enterFrom {whole path : List Text} {depth : Nat} (hg : Grown h₀ h) (hs : h.Sound)
    (hr : r.Within h.length) (hfree : h.Free h₀.length r)
    (henter : enterFrom whole depth h n path r = .ok h') : Grown h₀ h' ∧ h'.Sound := by
  induction path generalizing depth h n with
  | nil =>
    rw [Heap.enterFrom] at henter
    obtain rfl := Except.ok.inj henter
    exact ⟨hg, hs⟩
  | cons name path ih =>
    cases path with
    | nil =>
      rw [Heap.enterFrom] at henter
      obtain rfl := Except.ok.inj henter
      refine ⟨hg.putAt hfree, ?_⟩
      unfold Sound
      rw [length_putAt]
      exact within_putAt hs hr
    | cons next path =>
      rw [Heap.enterFrom] at henter
      · split at henter
        · exact ih (hg.putNew hs) hs.putNew (hr.mono (by simp)) (hfree.putNew hr) henter
        · split at henter
          · exact ih hg hs hr hfree henter
          · cases henter
        · cases henter
      · exact List.cons_ne_nil _ _

/-- Entering a value in places of its own lets a heap grow. -/
theorem Grown.enter {path : List Text} {v : Value} (hg : Grown h₀ h) (hs : h.Sound)
    (hv : v.Proper) (henter : (h.plant v).1.enter root path (h.plant v).2 = .ok h') :
    Grown h₀ h' ∧ h'.Sound := by
  obtain ⟨hsound, hr⟩ := hs.plant v
  have hplanted := planted_plant hs v hv
  refine Grown.enterFrom (hg.trans hplanted.grown) hsound hr (fun m heq => ?_) henter
  obtain ⟨hle, hnone⟩ := hplanted.free _ List.mem_cons_self m heq
  exact ⟨Nat.le_trans hg.le hle, hnone⟩

/-! ## Paths -/

/-- What is led to of the first places was led to in the same way
before. -/
theorem Grown.follow?_old (hg : Grown h₀ h) {path : List Text} (hm : m < h₀.length)
    (hfollow : h.follow? r path = some (.place m)) : h₀.follow? r path = some (.place m) := by
  induction path using List.reverseRecOn generalizing m with
  | nil => exact hfollow
  | append_singleton path name ih =>
    rw [follow?_concat] at hfollow ⊢
    obtain ⟨p, hp, hnext⟩ := Option.bind_eq_some_iff.mp hfollow
    have hnext := hg.old hm hnext
    obtain ⟨k, links, rfl, hbody, -⟩ := exists_place_of_next? hnext
    rw [ih (lt_of_body hbody) hp, Option.bind_some, hnext]

/-- Paths that were unmixed at first stay so: where they meet at a new
place, they met already on the way to it. -/
theorem Grown.unmixed (hg : Grown h₀ h) (hroot : root < h₀.length) {path other : List Text}
    (hunmixed : h₀.Unmixed (.place root) path other) : h.Unmixed (.place root) path other := by
  intro x
  induction x using List.reverseRecOn with
  | nil =>
    rintro y name hx hy ⟨n, hfollow, hfollow'⟩
    obtain rfl : root = n := Ref.place.inj (Option.some.inj hfollow)
    exact hunmixed [] y name hx hy ⟨root, rfl, hg.follow?_old hroot hfollow'⟩
  | append_singleton x a ih =>
    rintro y name hx hy ⟨n, hfollow, hfollow'⟩
    by_cases hn : n < h₀.length
    · exact hunmixed _ y name hx hy ⟨n, hg.follow?_old hn hfollow, hg.follow?_old hn hfollow'⟩
    · obtain rfl | ⟨y, b, rfl⟩ := y.eq_nil_or_concat
      · exact absurd (Ref.place.inj (Option.some.inj hfollow') ▸ hroot) hn
      · rw [List.concat_eq_append] at hy hfollow' ⊢
        rw [follow?_concat] at hfollow hfollow'
        obtain ⟨p, hp, hnext⟩ := Option.bind_eq_some_iff.mp hfollow
        obtain ⟨q, hq, hnext'⟩ := Option.bind_eq_some_iff.mp hfollow'
        obtain ⟨rfl, rfl⟩ := hg.unique (Nat.not_lt.mp hn) hnext hnext'
        obtain ⟨k, -, rfl, -⟩ := exists_place_of_next? hnext
        rw [ih y a ((List.prefix_append _ _).trans hx) ((List.prefix_append _ _).trans hy)
          ⟨k, hp, hq⟩]

/-! ## Runs of entries -/

/-- Values are entered at paths into the object at a place, one after the
other. -/
inductive Grafted (root : Nat) : Heap → List (List Text × Value) → Heap → Prop
  | nil (h : Heap) : Grafted root h [] h
  | cons {h h' h'' : Heap} {path : List Text} {v : Value} {rest : List (List Text × Value)}
    (henter : (h.plant v).1.enter root path (h.plant v).2 = .ok h')
    (hrest : Grafted root h' rest h'') : Grafted root h ((path, v) :: rest) h''

/-- The object that is entered into stays one. -/
theorem Leaving.exists_body {path : List Text} (l : Leaving h n path) (r : Ref)
    (hbody : ∃ links, h[m]? = some (.fields links)) :
    ∃ links, (l.entered r)[m]? = some (.fields links) := by
  obtain ⟨links, hbody⟩ := hbody
  by_cases hm : m = l.place
  · rw [hm]
    exact ⟨_, l.body_entered r⟩
  · exact ⟨links, (l.getElem?_entered_of_ne r (lt_of_body hbody) hm).trans hbody⟩

/-- A sound heap that has grown out of another one, in which there was the
object that is entered into. -/
structure Bears (h₀ : Heap) (root : Nat) (h : Heap) : Prop where
  grown : Grown h₀ h
  sound : h.Sound
  root_lt : root < h₀.length
  body : ∃ links, h[root]? = some (.fields links)

namespace Bears

theorem refl (hs : h.Sound) (hbody : ∃ links, h[root]? = some (.fields links)) :
    Bears h root h := by
  obtain ⟨links, hlinks⟩ := hbody
  exact ⟨.refl hs, hs, lt_of_body hlinks, links, hlinks⟩

theorem within (hb : Bears h₀ root h) : Ref.Within h.length (.place root) :=
  Nat.lt_of_lt_of_le hb.root_lt hb.grown.le

/-- A value is put into places of its own. -/
theorem plant (hb : Bears h₀ root h) {v : Value} (hv : v.Proper) :
    Bears h₀ root (h.plant v).1 where
  grown := hb.grown.trans (planted_plant hb.sound v hv).grown
  sound := (hb.sound.plant v).1
  root_lt := hb.root_lt
  body := by
    rw [getElem?_of_kept (prefix_plant h v) hb.within]
    exact hb.body

/-- A value is entered. -/
theorem enter (hb : Bears h₀ root h) {path : List Text} {v : Value} (hv : v.Proper)
    (hne : path ≠ []) (henter : (h.plant v).1.enter root path (h.plant v).2 = .ok h') :
    Bears h₀ root h' where
  grown := (hb.grown.enter hb.sound hv henter).1
  sound := (hb.grown.enter hb.sound hv henter).2
  root_lt := hb.root_lt
  body := by
    obtain ⟨l, rfl⟩ := exists_leaving_of_enter (hb.plant hv).body hne henter
    exact l.exists_body _ (hb.plant hv).body

/-- Values are entered one after the other. -/
theorem of_grafted {entries : List (List Text × Value)} (hb : Bears h₀ root h)
    (hrun : Grafted root h entries h') (hproper : ∀ e ∈ entries, e.2.Proper)
    (hne : ∀ e ∈ entries, e.1 ≠ []) : Bears h₀ root h' := by
  induction hrun with
  | nil h => exact hb
  | cons henter hrun ih =>
    obtain ⟨hv, hproper⟩ := List.forall_mem_cons.mp hproper
    obtain ⟨hentered, hne⟩ := List.forall_mem_cons.mp hne
    exact ih (hb.enter hv hentered henter) hproper hne

end Bears

namespace Grafted

variable {entries : List (List Text × Value)} {path : List Text}

/-- Where a scalar stands in the end, or nothing, the last entry for the
path brought it, or it stood there before, if no entry ended on the way
and none was mixed with the path at first. -/
theorem follow?_eq (hrun : Grafted root h entries h') (hb : Bears h₀ root h)
    (hproper : ∀ e ∈ entries, e.2.Proper) (hne : ∀ e ∈ entries, e.1 ≠ [])
    (hentries : ∀ e ∈ entries, e.1 <+: path → e.1 = path)
    (hunmixed : ∀ e ∈ entries, h₀.Unmixed (.place root) e.1 path)
    (hbare : ∀ k, h'.follow? (.place root) path ≠ some (.place k)) :
    match lastAt path entries with
    | some v => ∃ s, v = .scalar s ∧ h'.follow? (.place root) path = some (.scalar s)
    | none => h'.follow? (.place root) path = h.follow? (.place root) path := by
  induction hrun with
  | nil h => rfl
  | @cons h h' h'' entered v rest henter hrun ih =>
    obtain ⟨hv, hproper⟩ := List.forall_mem_cons.mp hproper
    obtain ⟨hentered, hne⟩ := List.forall_mem_cons.mp hne
    obtain ⟨hfirst, hentries⟩ := List.forall_mem_cons.mp hentries
    obtain ⟨hapart, hunmixed⟩ := List.forall_mem_cons.mp hunmixed
    have hplanted := hb.plant hv
    have hpath := hplanted.grown.unmixed hb.root_lt hapart
    have hrest := ih (hb.enter hv hentered henter) hproper hne hentries hunmixed hbare
    obtain ⟨l, rfl⟩ := exists_leaving_of_enter hplanted.body hentered henter
    rw [lastAt]
    cases hlast : lastAt path rest with
    | some w =>
      rw [hlast] at hrest
      exact hrest
    | none =>
      rw [hlast] at hrest
      dsimp only at hrest
      rw [Option.none_or]
      by_cases heq : entered = path
      · subst heq
        rw [if_pos rfl]
        have hend := l.follow?_beyond hpath hplanted.sound hplanted.within
          (List.append_nil _).symm (h.plant v).2
        rw [← hrest] at hend
        cases v with
        | scalar s => exact ⟨s, rfl, hend⟩
        | array items => exact absurd hend (hbare _)
        | object fields => exact absurd hend (hbare _)
      · rw [if_neg heq]
        by_cases hpassed : path <+: entered
        · obtain ⟨k, hk⟩ := l.exists_of_passed hpath hplanted.sound hplanted.within hpassed
            (Ne.symm heq) (h.plant v).2
          exact absurd (hrest.trans hk) (hbare k)
        · have hbeside := l.follow?_of_apart hpath hplanted.sound hplanted.within (mt hfirst heq)
            hpassed (h.plant v).2
          rw [hrest, hbeside, follow?_of_kept hb.sound (prefix_plant h v) hb.within]

/-- The same of what is seen at the path. -/
theorem at?_eq (hrun : Grafted root h entries h') (hb : Bears h₀ root h)
    (hproper : ∀ e ∈ entries, e.2.Proper) (hne : ∀ e ∈ entries, e.1 ≠ [])
    (hentries : ∀ e ∈ entries, e.1 <+: path → e.1 = path)
    (hunmixed : ∀ e ∈ entries, h₀.Unmixed (.place root) e.1 path) {depth : Nat}
    (hdepth : path.length ≤ depth)
    (hbare : Bare ((h'.view depth (.place root)).at? (names path))) :
    (h'.view depth (.place root)).at? (names path)
      = (lastAt path entries).or ((h.view depth (.place root)).at? (names path)) := by
  rw [at?_view h' _ hdepth] at hbare ⊢
  rw [at?_view h _ hdepth]
  have hb' := hb.of_grafted hrun hproper hne
  have hplain (k : Nat) : h'.follow? (.place root) path ≠ some (.place k) := by
    intro hfollow
    obtain ⟨s, hs⟩ := hbare _ (by rw [hfollow, Option.map_some])
    cases eq_scalar_of_view hb'.sound (hb'.sound.follow? hb'.within hfollow) hs
  have hend := hrun.follow?_eq hb hproper hne hentries hunmixed hplain
  cases hlast : lastAt path entries with
  | some v =>
    rw [hlast] at hend
    obtain ⟨s, rfl, hfollow⟩ := hend
    rw [hfollow, Option.map_some, view, Option.some_or]
  | none =>
    rw [hlast] at hend
    dsimp only at hend
    rw [Option.none_or, ← hend]
    cases hfollow : h'.follow? (.place root) path with
    | none => rfl
    | some q =>
      cases q with
      | scalar s => rw [Option.map_some, Option.map_some, view, view]
      | place k => exact absurd hfollow (hplain k)

end Grafted

end Lineage.Heap
