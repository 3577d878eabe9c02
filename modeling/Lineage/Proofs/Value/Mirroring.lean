/-
Lineage.Proofs.Value.Mirroring — entering into a heap that shares nothing.

A value that is put into a heap is found there at every path
(`Heap.mirrors_plant`), and what is made of both by entering the same
value at the same path are mirrors again (`Leaving.mirrors`), as long as
no two paths of the heap lead to the same array or object.  This is so of
a value that was put into a heap by itself, which makes a tree of it
(`eq_of_meet`), and of a copy of its outermost object.  So for values
that share nothing it makes no difference whether entries go into a heap
or into the value itself, not even for where they run into a value that
is no object (`Mirrors.enter_cases`).
-/
import Lineage.Proofs.Value.Growing

namespace Lineage

open Value (names)

namespace Value

@[simp] theorem cut_zero_scalar (s : Scalar) : (scalar s).cut 0 = .scalar s := by
  rw [cut]

@[simp] theorem cut_zero_array (items : List Value) : (array items).cut 0 = .array [] := by
  rw [cut]

@[simp] theorem cut_zero_object (fields : Fields) : (object fields).cut 0 = .object [] := by
  rw [cut]

theorem fields?_cut_zero (v : Value) : (v.cut 0).fields? = none ↔ v.fields? = none := by
  cases v <;> simp [fields?]

theorem at?_append (v : Value) (path more : List Scalar) :
    v.at? (path ++ more) = (v.at? path).bind fun w => w.at? more := by
  induction path generalizing v with
  | nil => rfl
  | cons name path ih =>
    rw [List.cons_append, at?_eq_bind, at?_eq_bind, Option.bind_assoc]
    exact congrArg _ (funext ih)

end Value

namespace Heap

variable {h h' : Heap} {r q : Ref} {n m : Nat} {path : List Text} {links : Links}

/-! ## Mirrors -/

/-- At every path stands the same, arrays and objects without their
parts. -/
def Mirrors (h : Heap) (r : Ref) (v : Value) : Prop :=
  ∀ path : List Text,
    (h.follow? r path).map (h.view 0) = (v.at? (names path)).map (Value.cut 0)

/-- A value is found where it was put. -/
theorem mirrors_plant (hs : h.Sound) {v : Value} (hv : v.Proper) :
    Mirrors (h.plant v).1 (h.plant v).2 v := by
  intro path
  have hlength : (names path).length = path.length := List.length_map _
  have hview := congrArg (Value.at? · (names path)) (view_plant hs path.length v hv)
  rwa [at?_view _ _ (Nat.le_refl _), Value.at?_cut v (Nat.le_of_eq hlength), hlength,
    Nat.sub_self] at hview

namespace Mirrors

variable {v w : Value} {fields : Fields}

theorem of_kept (hm : h.Mirrors r v) (hs : h.Sound) (hkept : h <+: h')
    (hr : r.Within h.length) : h'.Mirrors r v := by
  intro path
  rw [← hm path, follow?_of_kept hs hkept hr]
  exact Option.map_congr fun q hq => view_of_kept hs hkept 0 (hs.follow? hr hq)

/-- Under a name stands the same. -/
theorem next? (hm : h.Mirrors r (.object fields)) (name : Text) :
    (h.next? r name).map (h.view 0) = (Keyed.get? fields (.text name)).map (Value.cut 0) := by
  have hname := hm [name]
  rw [Value.at?_names_singleton] at hname
  rw [← show (Value.object fields).get? (.text name) = Keyed.get? fields (.text name) from rfl,
    ← hname, follow?]
  cases h.next? r name <;> rfl

/-- What a name leads to mirrors the value under it. -/
theorem below (hm : h.Mirrors r (.object fields)) {name : Text} (hnext : h.next? r name = some q)
    (hget : Keyed.get? fields (.text name) = some w) : h.Mirrors q w := by
  intro path
  have hpath := hm (name :: path)
  rwa [follow?, hnext, Option.bind_some, Value.at?_names_cons,
    show (Value.object fields).get? (.text name) = some w from hget, Option.bind_some] at hpath

/-- Only an object mirrors an object. -/
theorem exists_links? (hm : h.Mirrors r (.object fields)) : ∃ links, h.links? r = some links := by
  have hview : h.view 0 r = .object [] := by
    simpa [follow?, Value.at?] using hm []
  cases hlinks : h.links? r with
  | some links => exact ⟨links, rfl⟩
  | none =>
    have hplain := (fields?_view h 0 r).mpr hlinks
    rw [hview] at hplain
    cases hplain

/-- What stands under a name, if anything does. -/
theorem next?_cases (hm : h.Mirrors r (.object fields)) (name : Text) :
    (h.next? r name = none ∧ Keyed.get? fields (.text name) = none)
      ∨ ∃ q w, h.next? r name = some q ∧ Keyed.get? fields (.text name) = some w
        ∧ h.Mirrors q w := by
  have hname := hm.next? name
  cases hget : Keyed.get? fields (.text name) with
  | none =>
    rw [hget] at hname
    exact .inl ⟨Option.map_eq_none_iff.mp hname, rfl⟩
  | some w =>
    rw [hget] at hname
    obtain ⟨q, hq, -⟩ := Option.map_eq_some_iff.mp hname
    exact .inr ⟨q, w, hq, rfl, hm.below hq hget⟩

/-- What mirrors a value that is no object is none. -/
theorem links?_eq_none (hm : h.Mirrors r w) (hplain : w.fields? = none) : h.links? r = none := by
  have hview : h.view 0 r = w.cut 0 := by
    simpa [follow?, Value.at?] using hm []
  rwa [← fields?_view h 0 r, hview, Value.fields?_cut_zero]

theorem enterFrom_eq_error_iff {whole : List Text} {depth : Nat} {c : Crossing}
    (hm : h.Mirrors (.place n) (.object fields)) :
    enterFrom whole depth h n path r = .error c
      ↔ setPathFrom whole depth fields path w = .error c := by
  induction path generalizing depth n fields with
  | nil => simp [enterFrom, setPathFrom]
  | cons name path ih =>
    cases path with
    | nil => simp [enterFrom, setPathFrom]
    | cons next path =>
      have hrest : next :: path ≠ [] := List.cons_ne_nil _ _
      rw [enterFrom, setPathFrom, ← Heap.next?]
      · rcases hm.next?_cases name with ⟨hnext, hget⟩ | ⟨q, v, hnext, hget, hbelow⟩
        · have hnew := enterFrom_new whole (depth + 1)
            (h.putAt n (.text name) (.place h.length)) next path r
          rw [length_putAt] at hnew
          rw [hnext, hget, hnew, map_eq_error_iff, setPathFrom_eq_error_iff]
          simp [Value.not_blocked_empty]
        · rw [hnext, hget]
          cases v with
          | object inner =>
            obtain ⟨links, hlinks⟩ := hbelow.exists_links?
            obtain ⟨m, rfl, -⟩ := exists_place_of_links? hlinks
            dsimp only
            rw [if_pos (by simp [hlinks]), map_eq_error_iff, ih hbelow]
          | scalar s =>
            have hq := hbelow.links?_eq_none rfl
            cases q <;> simp [hq]
          | array items =>
            have hq := hbelow.links?_eq_none rfl
            cases q <;> simp [hq]
      · exact hrest
      · exact hrest

/-- Entries into a heap and into the value that it mirrors run into the
same. -/
theorem enter_eq_error_iff (hm : h.Mirrors (.place n) (.object fields)) {c : Crossing} :
    h.enter n path r = .error c ↔ setPath fields path w = .error c :=
  hm.enterFrom_eq_error_iff

end Mirrors

/-! ## Trees -/

/-- Two paths of a value that was put into a heap by itself lead to
different places. -/
theorem eq_of_meet (hp : Planted [] [r] h) {x y : List Text} (hmeet : h.Meet r x y) : x = y := by
  have hroot {way : List Text} {name : Text} {k : Nat} (hr : r = .place k) :
      h.follow? r (way ++ [name]) ≠ some (.place k) := by
    intro hfollow
    rw [follow?_concat] at hfollow
    obtain ⟨p, -, hnext⟩ := Option.bind_eq_some_iff.mp hfollow
    exact (hp.free r List.mem_cons_self k hr).2 p name hnext
  induction x using List.reverseRecOn generalizing y with
  | nil =>
    obtain ⟨k, hr, hfollow⟩ := hmeet
    obtain rfl | ⟨y, name, rfl⟩ := y.eq_nil_or_concat
    · rfl
    · rw [List.concat_eq_append] at hfollow
      exact absurd hfollow (hroot (Option.some.inj hr))
  | append_singleton x a ih =>
    obtain ⟨k, hfollow, hfollow'⟩ := hmeet
    obtain rfl | ⟨y, b, rfl⟩ := y.eq_nil_or_concat
    · exact absurd hfollow (hroot (Option.some.inj hfollow'))
    · rw [List.concat_eq_append] at hfollow' ⊢
      rw [follow?_concat] at hfollow hfollow'
      obtain ⟨p, hx, hnext⟩ := Option.bind_eq_some_iff.mp hfollow
      obtain ⟨q, hy, hnext'⟩ := Option.bind_eq_some_iff.mp hfollow'
      obtain ⟨rfl, rfl⟩ := hp.grown.unique (Nat.zero_le k) hnext hnext'
      obtain ⟨j, -, rfl, -⟩ := exists_place_of_next? hnext
      rw [ih ⟨j, hx, hy⟩]

/-- Nothing leads from a value in places of its own to what was there
before. -/
theorem Planted.follow?_ne (hp : Planted h [r] h') (hm : m < h.length) (path : List Text) :
    h'.follow? r path ≠ some (.place m) := by
  induction path using List.reverseRecOn generalizing m with
  | nil =>
    intro hr
    exact absurd hm (Nat.not_lt.mpr (hp.free r List.mem_cons_self m (Option.some.inj hr)).1)
  | append_singleton path name ih =>
    rw [follow?_concat]
    intro hfollow
    obtain ⟨q, hq, hnext⟩ := Option.bind_eq_some_iff.mp hfollow
    obtain ⟨k, links, rfl, hbody, -⟩ := exists_place_of_next? (hp.grown.old hm hnext)
    exact ih (lt_of_body hbody) hq

/-! ## Copies of an object -/

/-- One more object leads where the one leads that has the same fields. -/
theorem follow?_copied (hs : h.Sound) (hbody : h[n]? = some (.fields links)) (name : Text)
    (path : List Text) : follow? (h ++ [.fields links]) (.place h.length) (name :: path)
      = h.follow? (.place n) (name :: path) := by
  have hcopy : (h ++ [Body.fields links])[h.length]? = some (.fields links) :=
    List.getElem?_concat_length
  rw [follow?, follow?, next?_of_body hcopy, next?_of_body hbody]
  cases hget : Keyed.get? links (.text name) with
  | none => rfl
  | some q =>
    have hq : q.Within h.length := (hs.links? (links?_place_iff.mpr hbody)).of_get? hget
    exact follow?_of_kept hs (List.prefix_append _ _) hq path

theorem Mirrors.copied {v : Value} (hm : h.Mirrors (.place n) v) (hs : h.Sound)
    (hbody : h[n]? = some (.fields links)) :
    Mirrors (h ++ [.fields links]) (.place h.length) v := by
  have hcopy : (h ++ [Body.fields links])[h.length]? = some (.fields links) :=
    List.getElem?_concat_length
  intro path
  cases path with
  | nil =>
    rw [← hm [], follow?, follow?, Option.map_some, Option.map_some,
      (view_of_links? (links?_place_iff.mpr hcopy)).1,
      (view_of_links? (links?_place_iff.mpr hbody)).1]
  | cons name path =>
    have hroot : Ref.Within h.length (.place n) := lt_of_body hbody
    rw [← hm, follow?_copied hs hbody]
    exact Option.map_congr fun q hq =>
      view_of_kept hs (List.prefix_append _ _) 0 (hs.follow? hroot hq)

/-- No two paths of a copy are mixed. -/
theorem unmixed_copied (hp : Planted [] [.place n] h) (hs : h.Sound)
    (hbody : h[n]? = some (.fields links)) (p q : List Text) :
    Unmixed (h ++ [.fields links]) (.place h.length) p q := by
  have hroot : Ref.Within h.length (.place n) := lt_of_body hbody
  have houter {name : Text} {path : List Text} :
      follow? (h ++ [.fields links]) (.place h.length) (name :: path) ≠ some (.place h.length) := by
    rw [follow?_copied hs hbody]
    exact fun hfollow => Nat.lt_irrefl _ (hs.follow? hroot hfollow)
  rintro x y - - - ⟨k, hx, hy⟩
  cases x with
  | nil =>
    obtain rfl := Ref.place.inj (Option.some.inj hx)
    cases y with
    | nil => rfl
    | cons name y => exact absurd hy houter
  | cons name x =>
    cases y with
    | nil =>
      obtain rfl := Ref.place.inj (Option.some.inj hy)
      exact absurd hx houter
    | cons other y =>
      rw [follow?_copied hs hbody] at hx hy
      exact eq_of_meet hp ⟨k, hx, hy⟩

/-! ## Entering -/

namespace Leaving

variable (l : Leaving h n path)

theorem view_zero_entered (r : Ref) {q : Ref} (hq : q.Within h.length) :
    (l.entered r).view 0 q = h.view 0 q := by
  cases q with
  | scalar s => rfl
  | place k =>
    by_cases hk : k = l.place
    · rw [hk, view, view, l.body, l.body_entered r]
    · rw [view, view, l.getElem?_entered_of_ne r hq hk]

variable {v w : Value}

/-- What is entered into a heap where no paths are mixed, and into the
value that it mirrors, stands at the same paths. -/
theorem mirrors (hm : h.Mirrors (.place n) v) (hw : h.Mirrors r w) (hs : h.Sound)
    (hn : n < h.length) (hr : r.Within h.length)
    (hunmixed : ∀ other, h.Unmixed (.place n) path other)
    (hapart : ∀ y, h.follow? r y ≠ some (.place l.place)) :
    (l.entered r).Mirrors (.place n) (v.enter path w) := by
  have hkept {q : Ref} {other : List Text} (hq : q.Within h.length) :
      (h.follow? q other).map ((l.entered r).view 0) = (h.follow? q other).map (h.view 0) :=
    Option.map_congr fun p hp => l.view_zero_entered r (hs.follow? hq hp)
  intro other
  by_cases hbeyond : path <+: other
  · obtain ⟨more, rfl⟩ := hbeyond
    have hnames : names (path ++ more) = names path ++ names more := List.map_append
    rw [l.follow?_beyond (hunmixed _) hs hn rfl, l.follow?_of_avoids hs hr fun y _ => hapart y,
      hkept hr, hw more, hnames, Value.at?_append, Value.at?_enter_self, Option.bind_some]
  by_cases hpassed : other <+: path
  · have hne : other ≠ path := fun heq => hbeyond (heq ▸ List.prefix_refl _)
    obtain ⟨fields, hvalue⟩ := Value.at?_enter_of_passed v w hpassed hne
    obtain ⟨rest, hpath⟩ := hpassed
    cases rest with
    | nil => exact absurd ((List.append_nil _).symm.trans hpath) hne
    | cons name rest =>
      -- The path goes on from here, so here stands an object.
      have hend : (l.entered r).follow? (.place n) (other ++ name :: rest) = some r := by
        rw [hpath]
        exact l.follow?_beyond (hunmixed path) hs hn (List.append_nil path).symm r
      rw [follow?_append] at hend
      obtain ⟨q, hq, hrest⟩ := Option.bind_eq_some_iff.mp hend
      obtain ⟨p, hnext, -⟩ := Option.bind_eq_some_iff.mp hrest
      obtain ⟨k, links, rfl, hbody, -⟩ := exists_place_of_next? hnext
      rw [hq, hvalue, Option.map_some, Option.map_some, Value.cut_zero_object,
        (view_of_links? (links?_place_iff.mpr hbody)).1]
  · have hroot : Ref.Within h.length (.place n) := hn
    rw [l.follow?_of_apart (hunmixed _) hs hn hbeyond hpassed, hkept hroot, hm other,
      Value.at?_enter_of_apart v w (mt Value.names_prefix_iff.mp hbeyond)
        (mt Value.names_prefix_iff.mp hpassed)]

end Leaving

/-- A value is entered into a heap that has grown out of one without mixed
paths, and into the value that the heap mirrors: both run into the same,
or they come to mirrors again. -/
theorem Mirrors.enter_cases {h₀ : Heap} {root : Nat} {v : Value} {fields : Fields}
    (hm : h.Mirrors (.place root) (.object fields)) (hb : Bears h₀ root h)
    (hunmixed : ∀ p q, h₀.Unmixed (.place root) p q) (hv : v.Proper) (hne : path ≠ []) :
    (∃ c, (h.plant v).1.enter root path (h.plant v).2 = .error c
        ∧ setPath fields path v = .error c)
      ∨ ∃ h' fields', (h.plant v).1.enter root path (h.plant v).2 = .ok h'
        ∧ setPath fields path v = .ok fields' ∧ Bears h₀ root h'
        ∧ h'.Mirrors (.place root) (.object fields') := by
  have hplanted := planted_plant hb.sound v hv
  have hgrown := hb.plant hv
  have hgoes := hm.of_kept hb.sound (prefix_plant h v) hb.within
  cases henter : (h.plant v).1.enter root path (h.plant v).2 with
  | error c => exact .inl ⟨c, rfl, (hgoes.enter_eq_error_iff).mp henter⟩
  | ok h' =>
    cases hset : setPath fields path v with
    | error c => cases henter.symm.trans ((hgoes.enter_eq_error_iff).mpr hset)
    | ok fields' =>
      refine .inr ⟨h', fields', rfl, rfl, hb.enter hv hne henter, ?_⟩
      obtain ⟨l, rfl⟩ := exists_leaving_of_enter hgrown.body hne henter
      have hplace : l.place < h.length := by
        have hway := l.way_leads
        rw [follow?_of_kept hb.sound (prefix_plant h v) hb.within] at hway
        exact hb.sound.follow? hb.within hway
      rw [((setPath_eq_ok_iff hne).mp hset).2]
      exact l.mirrors hgoes (mirrors_plant hb.sound hv) hgrown.sound hgrown.within
        (hb.sound.plant v).2 (fun other => hgrown.grown.unmixed hb.root_lt (hunmixed path other))
        (hplanted.follow?_ne hplace)

end Heap

end Lineage
