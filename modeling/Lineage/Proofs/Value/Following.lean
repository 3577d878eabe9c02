/-
Lineage.Proofs.Value.Following — paths through values that share parts.

A path is followed from field to field (`Heap.follow?`), and at its end
stands what is seen there (`Heap.at?_view`).  Entering a value at a path
changes one field of one object, the one at which the path leaves what is
there, and puts a chain of new objects behind the heap, one for each name
that is left (`Heap.Leaving`, `exists_leaving_of_enter`).  So it makes no
difference to another path that does not go through this field
(`Leaving.follow?_of_avoids`).

The obstacle is that the field may be found at two paths, since its object
may.  Where no field on the way of the entry is met at another place of
the other path (`Heap.Unmixed`), all is as without sharing: beyond the
entry stands what was entered, on the way to it stand objects, and beside
it nothing changes (`Leaving.follow?_beyond`, `Leaving.exists_of_passed`,
`Leaving.follow?_of_apart`).
-/
import Lineage.Proofs.Value.Crossing
import Lineage.Proofs.Value.Viewing
import Lineage.Value.Places

namespace Lineage.Heap

open Value (names)

variable {h h' : Heap} {r q : Ref} {name : Text} {path : List Text} {n m : Nat} {links : Links}

/-! ## Objects -/

theorem links?_place_iff : h.links? (.place n) = some links ↔ h[n]? = some (.fields links) := by
  unfold links? body?
  dsimp only
  rcases h[n]? with _ | ⟨kind, parts⟩ | fields <;> simp

/-- Only objects have fields. -/
theorem exists_place_of_links? (hlinks : h.links? r = some links) :
    ∃ n, r = .place n ∧ h[n]? = some (.fields links) := by
  cases r with
  | scalar s => cases hlinks
  | place n => exact ⟨n, rfl, links?_place_iff.mp hlinks⟩

theorem lt_of_body (hbody : h[n]? = some (.fields links)) : n < h.length :=
  (List.getElem?_eq_some_iff.mp hbody).1

/-! ## Following a path -/

/-- What a name leads to from an object. -/
def next? (h : Heap) (r : Ref) (name : Text) : Option Ref :=
  (h.links? r).bind fun links => Keyed.get? links (.text name)

/-- What the names of a path lead to. -/
def follow? (h : Heap) : Ref → List Text → Option Ref
  | r, [] => some r
  | r, name :: path => (h.next? r name).bind fun q => h.follow? q path

theorem next?_of_body (hbody : h[n]? = some (.fields links)) (name : Text) :
    h.next? (.place n) name = Keyed.get? links (.text name) := by
  rw [next?, links?_place_iff.mpr hbody, Option.bind_some]

theorem follow?_append (h : Heap) (r : Ref) (path more : List Text) :
    h.follow? r (path ++ more) = (h.follow? r path).bind fun q => h.follow? q more := by
  induction path generalizing r with
  | nil => rfl
  | cons name path ih =>
    rw [List.cons_append, follow?, follow?, Option.bind_assoc]
    exact congrArg _ (funext ih)

theorem follow?_concat (h : Heap) (r : Ref) (path : List Text) (name : Text) :
    h.follow? r (path ++ [name]) = (h.follow? r path).bind fun q => h.next? q name := by
  rw [follow?_append]
  refine congrArg _ (funext fun q => ?_)
  rw [follow?]
  cases h.next? q name <;> rfl

/-- A name is left by way of an object. -/
theorem exists_place_of_next? (hnext : h.next? r name = some q) :
    ∃ n links, r = .place n ∧ h[n]? = some (.fields links)
      ∧ Keyed.get? links (.text name) = some q := by
  obtain ⟨links, hlinks, hget⟩ := Option.bind_eq_some_iff.mp hnext
  obtain ⟨n, rfl, hbody⟩ := exists_place_of_links? hlinks
  exact ⟨n, links, rfl, hbody, hget⟩

/-- On the way of a path that leads somewhere stand objects. -/
theorem exists_place_of_follow? {way rest : List Text}
    (hfollow : h.follow? r (way ++ name :: rest) = some q) :
    ∃ n, h.follow? r way = some (.place n) := by
  rw [follow?_append] at hfollow
  obtain ⟨p, hp, hrest⟩ := Option.bind_eq_some_iff.mp hfollow
  obtain ⟨p', hnext, -⟩ := Option.bind_eq_some_iff.mp hrest
  obtain ⟨n, -, rfl, -⟩ := exists_place_of_next? hnext
  exact ⟨n, hp⟩

theorem Sound.next? (hs : h.Sound) (hnext : h.next? r name = some q) : q.Within h.length := by
  obtain ⟨links, hlinks, hget⟩ := Option.bind_eq_some_iff.mp hnext
  exact (hs.links? hlinks).of_get? hget

theorem Sound.follow? (hs : h.Sound) (hr : r.Within h.length)
    (hfollow : h.follow? r path = some q) : q.Within h.length := by
  induction path generalizing r with
  | nil =>
    cases hfollow
    exact hr
  | cons name path ih =>
    obtain ⟨p, hp, hrest⟩ := Option.bind_eq_some_iff.mp hfollow
    exact ih (hs.next? hp) hrest

/-- What is there leads where it led when the heap goes on behind it. -/
theorem next?_of_kept (hkept : h <+: h') (hr : r.Within h.length) (name : Text) :
    h'.next? r name = h.next? r name := by
  rw [next?, next?, links?_of_kept hkept hr]

theorem follow?_of_kept (hs : h.Sound) (hkept : h <+: h') (hr : r.Within h.length)
    (path : List Text) : h'.follow? r path = h.follow? r path := by
  induction path generalizing r with
  | nil => rfl
  | cons name path ih =>
    rw [follow?, follow?, next?_of_kept hkept hr]
    cases hnext : h.next? r name with
    | none => rfl
    | some q => exact ih (hs.next? hnext)

/-! ## What is seen at the end -/

theorem get?_view (h : Heap) (depth : Nat) (r : Ref) (name : Text) :
    (h.view (depth + 1) r).get? (.text name) = (h.next? r name).map (h.view depth) := by
  unfold next?
  cases hlinks : h.links? r with
  | some links =>
    rw [(view_of_links? hlinks).2]
    exact get?_viewLinks h depth links (.text name)
  | none =>
    have hplain := (fields?_view h (depth + 1) r).mpr hlinks
    cases hview : h.view (depth + 1) r with
    | object fields => simp [hview, Value.fields?] at hplain
    | scalar s => rfl
    | array items => rfl

/-- At a path stands what is seen of what the path leads to. -/
theorem at?_view (h : Heap) {depth : Nat} (r : Ref) (hdepth : path.length ≤ depth) :
    (h.view depth r).at? (names path)
      = (h.follow? r path).map (h.view (depth - path.length)) := by
  induction path generalizing depth r with
  | nil => rfl
  | cons name path ih =>
    obtain ⟨depth, rfl⟩ : ∃ d, depth = d + 1 := ⟨depth - 1, by simp at hdepth; omega⟩
    rw [Value.at?_names_cons, get?_view, follow?]
    cases h.next? r name with
    | none => rfl
    | some q =>
      have hrest := ih q (Nat.le_of_succ_le_succ hdepth)
      simpa using hrest

/-! ## Chains of new objects -/

/-- Where the objects from a place on lead to: the first of them, or what
they lead to if there are none. -/
def chainStart (n : Nat) (rest : List Text) (r : Ref) : Ref :=
  match rest with
  | [] => r
  | _ :: _ => .place n

/-- Objects from a place on, each of which has the next name of a path and
leads to the next of them, and the last one to what stands at the end. -/
def chain (n : Nat) (rest : List Text) (r : Ref) : Heap :=
  match rest with
  | [] => []
  | name :: rest => .fields [(.text name, chainStart (n + 1) rest r)] :: chain (n + 1) rest r

/-- Entering at a path into a new object makes a chain of it. -/
theorem enterFrom_new (whole : List Text) (depth : Nat) (g : Heap) (name : Text)
    (rest : List Text) (r : Ref) :
    enterFrom whole depth (g ++ [.fields []]) g.length (name :: rest) r
      = .ok (g ++ chain g.length (name :: rest) r) := by
  induction rest generalizing depth g name with
  | nil =>
    rw [enterFrom]
    simp [putAt, Keyed.put, chain, chainStart]
  | cons next rest ih =>
    have hnone : ((links? (g ++ [.fields []]) (.place g.length)).bind fun links =>
        Keyed.get? links (.text name)) = none := by
      simp [links?, body?, Keyed.get?]
    have hput : putAt (g ++ [.fields []]) g.length (.text name) (.place (g.length + 1))
        = g ++ [.fields [(.text name, .place (g.length + 1))]] := by
      simp [putAt, Keyed.put]
    rw [enterFrom, hnone]
    · dsimp only
      rw [List.length_append, List.length_singleton, hput]
      have hrest := ih (depth + 1) (g ++ [.fields [(.text name, .place (g.length + 1))]]) next
      rw [List.length_append, List.length_singleton] at hrest
      rw [hrest, List.append_assoc]
      rfl
    · exact List.cons_ne_nil _ _

section Chain

variable {g : Heap} {rest : List Text}

theorem next?_chain (hchain : g.drop n = chain n (name :: rest) r) (other : Text) :
    g.next? (.place n) other = if name = other then some (chainStart (n + 1) rest r) else none := by
  have hbody : g[n]? = some (.fields [(.text name, chainStart (n + 1) rest r)]) := by
    rw [← Nat.add_zero n, ← List.getElem?_drop, hchain]
    rfl
  rw [next?_of_body hbody, Keyed.get?, Scalar.text_beq_text]
  by_cases heq : name = other <;> simp [heq, Keyed.get?]

theorem drop_succ_chain (hchain : g.drop n = chain n (name :: rest) r) :
    g.drop (n + 1) = chain (n + 1) rest r := by
  rw [← List.drop_drop, hchain]
  rfl

/-- A chain leads along its names to what stands at its end. -/
theorem follow?_chain_append (hchain : g.drop n = chain n rest r) (more : List Text) :
    g.follow? (chainStart n rest r) (rest ++ more) = g.follow? r more := by
  induction rest generalizing n with
  | nil => rfl
  | cons name rest ih =>
    rw [chainStart, List.cons_append, follow?, next?_chain hchain, if_pos rfl, Option.bind_some]
    exact ih (drop_succ_chain hchain)

/-- On the way along a chain stand its objects. -/
theorem exists_place_of_chain (hchain : g.drop n = chain n rest r) (hpath : path <+: rest)
    (hne : path ≠ rest) : ∃ k, g.follow? (chainStart n rest r) path = some (.place k) := by
  induction path generalizing n rest with
  | nil =>
    cases rest with
    | nil => exact absurd rfl hne
    | cons name rest => exact ⟨n, rfl⟩
  | cons name path ih =>
    obtain ⟨more, rfl⟩ := hpath
    rw [List.cons_append] at hchain hne ⊢
    rw [chainStart, follow?, next?_chain hchain, if_pos rfl, Option.bind_some]
    exact ih (drop_succ_chain hchain) (List.prefix_append _ _) fun heq => hne (congrArg _ heq)

/-- A chain leads nowhere along other names. -/
theorem follow?_chain_of_apart (hchain : g.drop n = chain n rest r) (hpath : ¬ path <+: rest)
    (hrest : ¬ rest <+: path) : g.follow? (chainStart n rest r) path = none := by
  induction rest generalizing n path with
  | nil => exact absurd List.nil_prefix hrest
  | cons name rest ih =>
    cases path with
    | nil => exact absurd List.nil_prefix hpath
    | cons other path =>
      rw [chainStart, follow?, next?_chain hchain]
      by_cases heq : name = other
      · subst heq
        rw [if_pos rfl, Option.bind_some]
        exact ih (drop_succ_chain hchain)
          (fun hpre => hpath (List.cons_prefix_cons.mpr ⟨rfl, hpre⟩))
          fun hpre => hrest (List.cons_prefix_cons.mpr ⟨rfl, hpre⟩)
      · rw [if_neg heq, Option.bind_none]

end Chain

/-! ## Two paths -/

/-- Two paths lead to the same array or object. -/
def Meet (h : Heap) (r : Ref) (x y : List Text) : Prop :=
  ∃ n, h.follow? r x = some (.place n) ∧ h.follow? r y = some (.place n)

instance (h : Heap) (r : Ref) (x y : List Text) : Decidable (h.Meet r x y) :=
  match hx : h.follow? r x with
  | some (.place n) =>
    decidable_of_iff (h.follow? r y = some (.place n)) <| by
      rw [Meet, hx]
      simp
  | some (.scalar s) => isFalse fun ⟨n, hn, _⟩ => by
      rw [hx] at hn
      cases hn
  | none => isFalse fun ⟨n, hn, _⟩ => by
      rw [hx] at hn
      cases hn

/-- No field on the way of a path is met on the way of the other one,
except at the same place of both. -/
def Unmixed (h : Heap) (r : Ref) (p q : List Text) : Prop :=
  ∀ x y name, x ++ [name] <+: p → y ++ [name] <+: q → h.Meet r x y → x = y

/-- Whether paths are unmixed is a question of finitely many places. -/
theorem unmixed_iff {p q : List Text} :
    h.Unmixed r p q ↔ ∀ i : Fin p.length, ∀ j : Fin q.length, p[i] = q[j] →
      h.Meet r (p.take i) (q.take j) → p.take i = q.take j := by
  constructor
  · intro hunmixed i j hname
    refine hunmixed _ _ p[i] ?_ ?_
    · rw [Fin.getElem_fin, List.take_append_getElem]
      exact List.take_prefix _ _
    · rw [hname, Fin.getElem_fin, List.take_append_getElem]
      exact List.take_prefix _ _
  · rintro hall x y name ⟨more, rfl⟩ ⟨more', rfl⟩
    have hmeet := hall ⟨x.length, by simp⟩ ⟨y.length, by simp⟩
    simp only [Fin.getElem_fin, List.append_assoc, List.singleton_append, List.take_left',
      List.getElem_append_right (Nat.le_refl _), Nat.sub_self, List.getElem_cons_zero] at hmeet
    exact hmeet trivial

instance (h : Heap) (r : Ref) (p q : List Text) : Decidable (h.Unmixed r p q) :=
  decidable_of_iff _ unmixed_iff.symm

/-! ## Entries -/

/-- Where a path from an object leaves what is there: the object at the
end of `way` has no field for the next name, or it is the last name. -/
structure Leaving (h : Heap) (n : Nat) (path : List Text) where
  way : List Text
  name : Text
  rest : List Text
  place : Nat
  links : Links
  path_eq : path = way ++ name :: rest
  way_leads : h.follow? (.place n) way = some (.place place)
  body : h[place]? = some (.fields links)
  leaves : rest = [] ∨ Keyed.get? links (.text name) = none

namespace Leaving

/-- What a value at the end of the path makes of the heap. -/
def entered (l : Leaving h n path) (r : Ref) : Heap :=
  (h ++ chain h.length l.rest r).set l.place
    (.fields (Keyed.put l.links (.text l.name) (chainStart h.length l.rest r)))

/-- The path from an object further up. -/
def cons {first : Text} (l : Leaving h m path)
    (hnext : h.next? (.place n) first = some (.place m)) : Leaving h n (first :: path) where
  way := first :: l.way
  name := l.name
  rest := l.rest
  place := l.place
  links := l.links
  path_eq := congrArg (first :: ·) l.path_eq
  way_leads := by rw [follow?, hnext, Option.bind_some, l.way_leads]
  body := l.body
  leaves := l.leaves

end Leaving

theorem exists_leaving_of_enterFrom {whole : List Text} {depth : Nat}
    (hbody : ∃ links, h[n]? = some (.fields links)) (hne : path ≠ [])
    (henter : enterFrom whole depth h n path r = .ok h') :
    ∃ l : Leaving h n path, h' = l.entered r := by
  induction path generalizing depth n with
  | nil => exact absurd rfl hne
  | cons name path ih =>
    obtain ⟨links, hbody⟩ := hbody
    cases path with
    | nil =>
      rw [enterFrom] at henter
      refine ⟨⟨[], name, [], n, links, rfl, rfl, hbody, .inl rfl⟩, ?_⟩
      obtain rfl := Except.ok.inj henter
      simp [Leaving.entered, putAt, hbody, chain, chainStart]
    | cons next path =>
      rw [enterFrom, links?_place_iff.mpr hbody, Option.bind_some] at henter
      · cases hget : Keyed.get? links (.text name) with
        | none =>
          rw [hget] at henter
          have hput : h.putAt n (.text name) (.place h.length)
              = h.set n (.fields (Keyed.put links (.text name) (.place h.length))) := by
            simp [putAt, hbody]
          have hnew := enterFrom_new whole (depth + 1)
            (h.set n (.fields (Keyed.put links (.text name) (.place h.length)))) next path r
          rw [List.length_set] at hnew
          rw [hput] at henter
          dsimp only at henter
          rw [hnew] at henter
          refine ⟨⟨[], name, next :: path, n, links, rfl, rfl, hbody, .inr hget⟩, ?_⟩
          obtain rfl := Except.ok.inj henter
          rw [Leaving.entered, List.set_append_left _ _ (lt_of_body hbody)]
          rfl
        | some q =>
          rw [hget] at henter
          cases q with
          | scalar s => cases henter
          | place m =>
            dsimp only at henter
            split at henter
            · rename_i hobject
              obtain ⟨inner, hinner⟩ := Option.isSome_iff_exists.mp hobject
              obtain ⟨l, rfl⟩ :=
                ih ⟨inner, links?_place_iff.mp hinner⟩ (List.cons_ne_nil _ _) henter
              exact ⟨l.cons ((next?_of_body hbody name).trans hget), rfl⟩
            · cases henter
      · exact List.cons_ne_nil _ _

/-- Entering at a path makes what the place where it leaves the heap tells. -/
theorem exists_leaving_of_enter (hbody : ∃ links, h[n]? = some (.fields links)) (hne : path ≠ [])
    (henter : h.enter n path r = .ok h') : ∃ l : Leaving h n path, h' = l.entered r :=
  exists_leaving_of_enterFrom hbody hne henter

namespace Leaving

variable (l : Leaving h n path)

theorem place_lt : l.place < h.length :=
  lt_of_body l.body

theorem drop_entered (r : Ref) : (l.entered r).drop h.length = chain h.length l.rest r := by
  rw [entered, List.drop_set_of_lt l.place_lt, List.drop_append_of_le_length (Nat.le_refl _),
    List.drop_length, List.nil_append]

/-- The object of the entry has the new field. -/
theorem body_entered (r : Ref) : (l.entered r)[l.place]?
    = some (.fields (Keyed.put l.links (.text l.name) (chainStart h.length l.rest r))) := by
  rw [entered, List.getElem?_set_self]
  exact Nat.lt_of_lt_of_le l.place_lt (by simp)

/-- Every other place of the heap is as it was. -/
theorem getElem?_entered_of_ne (r : Ref) {k : Nat} (hk : k < h.length) (hne : k ≠ l.place) :
    (l.entered r)[k]? = h[k]? := by
  rw [entered, List.getElem?_set_ne (Ne.symm hne), List.getElem?_append_left hk]

/-- The field of the entry leads to what was entered. -/
theorem next?_entered (r : Ref) :
    (l.entered r).next? (.place l.place) l.name = some (chainStart h.length l.rest r) := by
  rw [next?_of_body (l.body_entered r), Keyed.get?_put_self]

/-- All other fields lead where they led. -/
theorem next?_entered_of_ne (r : Ref) {k : Nat} {other : Text} (hk : k < h.length)
    (hne : k = l.place → other ≠ l.name) :
    (l.entered r).next? (.place k) other = h.next? (.place k) other := by
  by_cases heq : k = l.place
  · subst heq
    rw [next?_of_body (l.body_entered r), next?_of_body l.body, Keyed.get?_put_of_ne]
    rw [Scalar.text_beq_text]
    exact decide_eq_false (Ne.symm (hne rfl))
  · unfold next? links? body?
    dsimp only
    rw [l.getElem?_entered_of_ne r hk heq]

/-- A path that does not go through the field of the entry leads where it
led. -/
theorem follow?_of_avoids (hs : h.Sound) {q r : Ref} {other : List Text} (hq : q.Within h.length)
    (havoids : ∀ y, y ++ [l.name] <+: other → h.follow? q y ≠ some (.place l.place)) :
    (l.entered r).follow? q other = h.follow? q other := by
  induction other generalizing q with
  | nil => rfl
  | cons name other ih =>
    have hnext : (l.entered r).next? q name = h.next? q name := by
      cases q with
      | scalar s => rfl
      | place k =>
        refine l.next?_entered_of_ne r hq fun heq hname => ?_
        subst heq hname
        exact havoids [] (List.cons_prefix_cons.mpr ⟨rfl, List.nil_prefix⟩) rfl
    rw [follow?, follow?, hnext]
    cases hstep : h.next? q name with
    | none => rfl
    | some p =>
      refine ih (hs.next? hstep) fun y hy hfollow => ?_
      refine havoids (name :: y) (List.cons_prefix_cons.mpr ⟨rfl, hy⟩) ?_
      rw [follow?, hstep, Option.bind_some, hfollow]

section Unmixed

variable {other : List Text} (hunmixed : h.Unmixed (.place n) path other)
include hunmixed

/-- A path meets the field of the entry after `way` alone. -/
theorem eq_way_of_unmixed {y : List Text} (hy : y ++ [l.name] <+: other)
    (hfollow : h.follow? (.place n) y = some (.place l.place)) : l.way = y := by
  have hway : l.way ++ [l.name] ++ l.rest = l.way ++ l.name :: l.rest := by simp
  exact hunmixed l.way y l.name ⟨l.rest, hway.trans l.path_eq.symm⟩ hy
    ⟨l.place, l.way_leads, hfollow⟩

variable (hs : h.Sound) (hn : n < h.length)
include hs hn

/-- What is no further than the end of `way` leads where it led. -/
theorem follow?_of_prefix_way {y : List Text} (hother : y <+: other) (hy : y <+: l.way) (r : Ref) :
    (l.entered r).follow? (.place n) y = h.follow? (.place n) y := by
  refine l.follow?_of_avoids hs hn fun z hz hfollow => ?_
  have heq := l.eq_way_of_unmixed hunmixed (hz.trans hother) hfollow
  have hle := hz.length_le
  have hle' := hy.length_le
  rw [heq] at hle'
  simp at hle
  omega

/-- Behind the end of `way` the entry goes on along the chain. -/
theorem follow?_of_past_way {more : List Text} (hother : l.way ++ l.name :: more <+: other)
    (r : Ref) : (l.entered r).follow? (.place n) (l.way ++ l.name :: more)
      = (l.entered r).follow? (chainStart h.length l.rest r) more := by
  have hway := l.follow?_of_prefix_way hunmixed hs hn
    ((List.prefix_append _ _).trans hother) (List.prefix_refl _) r
  rw [follow?_append, hway, l.way_leads, Option.bind_some, follow?, l.next?_entered,
    Option.bind_some]

/-- Beyond the entry stands what was entered. -/
theorem follow?_beyond {more : List Text} (heq : other = path ++ more) (r : Ref) :
    (l.entered r).follow? (.place n) other = (l.entered r).follow? r more := by
  have hother : other = l.way ++ l.name :: (l.rest ++ more) :=
    heq.trans ((congrArg (· ++ more) l.path_eq).trans (List.append_assoc _ _ _))
  subst hother
  rw [l.follow?_of_past_way hunmixed hs hn (List.prefix_refl _)]
  exact follow?_chain_append (l.drop_entered r) more

/-- On the way to the entry stand objects. -/
theorem exists_of_passed (hpassed : other <+: path) (hne : other ≠ path) (r : Ref) :
    ∃ k, (l.entered r).follow? (.place n) other = some (.place k) := by
  rw [l.path_eq] at hpassed hne
  rcases List.prefix_or_prefix_of_prefix hpassed (List.prefix_append l.way _) with hway | hway
  · rw [l.follow?_of_prefix_way hunmixed hs hn (List.prefix_refl _) hway]
    obtain ⟨more, hmore⟩ := hway
    cases more with
    | nil =>
      rw [List.append_nil] at hmore
      exact ⟨l.place, by rw [hmore, l.way_leads]⟩
    | cons name more => exact exists_place_of_follow? (hmore ▸ l.way_leads)
  · obtain ⟨more, rfl⟩ := hway
    cases more with
    | nil =>
      rw [List.append_nil] at hunmixed ⊢
      rw [l.follow?_of_prefix_way hunmixed hs hn (List.prefix_refl _) (List.prefix_refl _),
        l.way_leads]
      exact ⟨l.place, rfl⟩
    | cons name more =>
      obtain ⟨rfl, hrest⟩ :=
        List.cons_prefix_cons.mp ((List.prefix_append_right_inj _).mp hpassed)
      rw [l.follow?_of_past_way hunmixed hs hn (List.prefix_refl _)]
      exact exists_place_of_chain (l.drop_entered r) hrest fun heq => hne (by rw [heq])

/-- A path beside the entry leads where it led. -/
theorem follow?_of_apart (hpath : ¬ path <+: other) (hother : ¬ other <+: path) (r : Ref) :
    (l.entered r).follow? (.place n) other = h.follow? (.place n) other := by
  rw [l.path_eq] at hpath hother
  by_cases hway : l.way ++ [l.name] <+: other
  · -- Both go through the field, but part beyond it, so there was nothing beyond it.
    obtain ⟨more, rfl⟩ := hway
    rw [List.append_assoc, List.singleton_append] at hunmixed hpath hother ⊢
    rw [List.prefix_append_right_inj, List.cons_prefix_cons] at hpath hother
    have hrest : l.rest ≠ [] := fun hnil => hpath ⟨rfl, hnil ▸ List.nil_prefix⟩
    rw [l.follow?_of_past_way hunmixed hs hn (List.prefix_refl _),
      follow?_chain_of_apart (l.drop_entered r) (fun hpre => hother ⟨rfl, hpre⟩)
        fun hpre => hpath ⟨rfl, hpre⟩,
      follow?_append, l.way_leads, Option.bind_some, follow?, next?_of_body l.body,
      l.leaves.resolve_left hrest, Option.bind_none]
  · refine l.follow?_of_avoids hs hn fun y hy hfollow => hway ?_
    rwa [l.eq_way_of_unmixed hunmixed hy hfollow]

end Unmixed

end Leaving

end Lineage.Heap
