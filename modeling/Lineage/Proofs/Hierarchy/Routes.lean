/-
Lineage.Proofs.Hierarchy.Routes — layers of routes, without a tree.

`Collection.routes` says what the routes of a layer are, by recursion on
the layer alone; nothing has been placed there.  The layout walks these
layers: `expand_routes` says that what it has placed in the end is what
placing the arrivals of all layers in turn gives, and that it is complete
if the last layer is empty.  Placing keeps the first arrival at every
short id (`foldl_place`), and what is placed is grounded
(`grounded_placements`).
-/
import Lineage.Proofs.Hierarchy.Level
import Lineage.Proofs.Hierarchy.Sprout

namespace Lineage

universe u

variable {α : Type u} [Grouped α]

/-- The last entry of a route. -/
def routeEnd (route : List Text) : Text :=
  route.getLastD []

@[simp] theorem routeEnd_concat (route : List Text) (s : Text) : routeEnd (route ++ [s]) = s := by
  simp [routeEnd]

theorem routeEnd_mem {route : List Text} (h : route ≠ []) : routeEnd route ∈ route := by
  rw [routeEnd, List.getLastD_eq_getLast?, List.getLast?_eq_getLast_of_ne_nil h]
  exact List.getLast_mem h

namespace Collection

/-- The groups that a route goes on to: those directly below its end
whose short ids it does not hold. -/
def onward (c : Collection α) (route : List Text) : List α :=
  (c.nextLevel route).filter fun m => !route.contains (Grouped.shortId m)

/-- The routes of a layer.  Layer zero is the first route alone; the
routes of the next layer go on from those of this one, in order. -/
def routes (c : Collection α) (first : List Text) : Nat → List (List Text)
  | 0 => [first]
  | k + 1 =>
    (routes c first k).flatMap fun r => (c.onward r).map fun m => r ++ [Grouped.shortId m]

theorem mem_onward {c : Collection α} {route : List Text} {m : α} :
    m ∈ c.onward route ↔ m ∈ c.nextLevel route ∧ Grouped.shortId m ∉ route := by
  simp [onward]

theorem mem_routes_succ {c : Collection α} {first r : List Text} {k : Nat} :
    r ∈ c.routes first (k + 1) ↔
      ∃ q ∈ c.routes first k, ∃ m ∈ c.onward q, r = q ++ [Grouped.shortId m] := by
  simp only [routes, List.mem_flatMap, List.mem_map, eq_comm]

theorem mem_of_mem_routes {c : Collection α} {first r : List Text} {k : Nat} {s : Text}
    (hr : r ∈ c.routes first k) (hs : s ∈ first) : s ∈ r := by
  induction k generalizing r with
  | zero =>
    rw [routes, List.mem_singleton] at hr
    exact hr ▸ hs
  | succ k ih =>
    obtain ⟨q, hq, m, _, rfl⟩ := mem_routes_succ.mp hr
    exact List.mem_append_left _ (ih hq)

theorem routes_eq_nil_of_le {c : Collection α} {first : List Text} {k j : Nat}
    (h : c.routes first k = []) (hkj : k ≤ j) : c.routes first j = [] := by
  induction hkj with
  | refl => exact h
  | step _ ih => rw [routes, ih, List.flatMap_nil]

end Collection

namespace Layout

open Collection

/-! ## Arrivals -/

/-- An arrival at a group, at the end of a route. -/
structure Arrival (α : Type u) where
  route : List Text
  member : α

namespace Arrival

/-- The short id that is arrived at. -/
def shortId (a : Arrival α) : Text :=
  Grouped.shortId a.member

/-- The route that goes on to the group. -/
def longer (a : Arrival α) : List Text :=
  a.route ++ [a.shortId]

/-- The group placed below the end of the route. -/
def placement (a : Arrival α) : Placement α :=
  ⟨a.member, routeEnd a.route⟩

end Arrival

/-- The arrivals at the end of one route. -/
def arrivalsFrom (c : Collection α) (route : List Text) : List (Arrival α) :=
  (c.onward route).map (Arrival.mk route)

/-- The arrivals at the ends of the routes of a layer. -/
def arrivalsAt (c : Collection α) (first : List Text) (k : Nat) : List (Arrival α) :=
  (c.routes first k).flatMap (arrivalsFrom c)

/-- The arrivals of the first layers, in order of discovery. -/
def arrivals (c : Collection α) (first : List Text) (n : Nat) : List (Arrival α) :=
  (List.range n).flatMap (arrivalsAt c first)

theorem mem_arrivalsAt {c : Collection α} {first : List Text} {k : Nat} {a : Arrival α} :
    a ∈ arrivalsAt c first k ↔ a.route ∈ c.routes first k ∧ a.member ∈ c.onward a.route := by
  simp only [arrivalsAt, arrivalsFrom, List.mem_flatMap, List.mem_map]
  constructor
  · rintro ⟨r, hr, m, hm, rfl⟩
    exact ⟨hr, hm⟩
  · rintro ⟨hr, hm⟩
    exact ⟨a.route, hr, a.member, hm, rfl⟩

theorem map_longer_arrivalsAt (c : Collection α) (first : List Text) (k : Nat) :
    (arrivalsAt c first k).map Arrival.longer = c.routes first (k + 1) := by
  simp [arrivalsAt, arrivalsFrom, routes, List.map_flatMap, Arrival.longer, Arrival.shortId,
    Function.comp_def]

theorem arrivals_succ (c : Collection α) (first : List Text) (n : Nat) :
    arrivals c first (n + 1) = arrivals c first n ++ arrivalsAt c first n := by
  simp [arrivals, List.range_succ]

theorem mem_arrivals {c : Collection α} {first : List Text} {n : Nat} {a : Arrival α} :
    a ∈ arrivals c first n ↔ ∃ k < n, a ∈ arrivalsAt c first k := by
  simp [arrivals]

/-! ## Placing -/

/-- Places a group that has been arrived at, unless its short id is
taken. -/
def place (placed : List (Placement α)) (a : Arrival α) : List (Placement α) :=
  if (ids placed).contains a.shortId then placed else placed ++ [a.placement]

theorem place_of_mem {placed : List (Placement α)} {a : Arrival α} (h : a.shortId ∈ ids placed) :
    place placed a = placed :=
  if_pos (List.contains_iff_mem.mpr h)

theorem place_of_not_mem {placed : List (Placement α)} {a : Arrival α}
    (h : a.shortId ∉ ids placed) : place placed a = placed ++ [a.placement] :=
  if_neg fun hc => h (List.contains_iff_mem.mp hc)

theorem foldl_follow (route : List Text) (ms : List α) (state : State α) :
    ms.foldl (follow route) state =
      let as := (ms.filter fun m => !route.contains (Grouped.shortId m)).map (Arrival.mk route)
      ⟨as.foldl place state.placed, state.routes ++ as.map Arrival.longer⟩ := by
  induction ms generalizing state with
  | nil => simp
  | cons m rest ih =>
    rw [List.foldl_cons, ih]
    by_cases hm : Grouped.shortId m ∈ route
    · simp [follow, hm]
    · have htaken : (state.placed.any fun p => Grouped.shortId p.member = Grouped.shortId m) = true
          ↔ Grouped.shortId m ∈ ids state.placed := by
        simp [ids]
      simp [follow, hm, place, htaken, Arrival.shortId, Arrival.longer, Arrival.placement,
        routeEnd]

theorem expandRoute_eq (c : Collection α) (state : State α) (route : List Text) :
    expandRoute c state route =
      ⟨(arrivalsFrom c route).foldl place state.placed,
        state.routes ++ (arrivalsFrom c route).map Arrival.longer⟩ :=
  foldl_follow route (c.nextLevel route) state

theorem foldl_expandRoute (c : Collection α) (layer : List (List Text)) (state : State α) :
    layer.foldl (expandRoute c) state =
      ⟨(layer.flatMap (arrivalsFrom c)).foldl place state.placed,
        state.routes ++ (layer.flatMap (arrivalsFrom c)).map Arrival.longer⟩ := by
  induction layer generalizing state with
  | nil => simp
  | cons r rest ih =>
    rw [List.foldl_cons, ih, expandRoute_eq]
    simp [List.append_assoc]

/-- Expanding a layer of routes places its arrivals and leads to the next
layer. -/
theorem expandLayer_routes (c : Collection α) (first : List Text) (k : Nat)
    (placed : List (Placement α)) :
    expandLayer c placed (c.routes first k) =
      ⟨(arrivalsAt c first k).foldl place placed, c.routes first (k + 1)⟩ := by
  rw [expandLayer, foldl_expandRoute, ← map_longer_arrivalsAt, List.nil_append]
  rfl

theorem arrivalsAt_eq_nil {c : Collection α} {first : List Text} {k : Nat}
    (h : c.routes first k = []) : arrivalsAt c first k = [] := by
  rw [arrivalsAt, h, List.flatMap_nil]

/-- The layout from a layer on, with a budget of at least one layer. -/
theorem expand_routes_from (c : Collection α) (first : List Text) (n k : Nat)
    (placed : List (Placement α)) :
    expand c (n + 1) placed (c.routes first k) =
      (((List.range' k (n + 1)).flatMap (arrivalsAt c first)).foldl place placed,
        (c.routes first (k + n + 1)).isEmpty) := by
  induction n generalizing k placed with
  | zero =>
    rw [expand, expandLayer_routes]
    cases c.routes first (k + 1) <;> simp [expand]
  | succ n ih =>
    rw [expand, expandLayer_routes, List.range'_succ, List.flatMap_cons, List.foldl_append]
    dsimp only
    split
    · -- The next layer is empty, and so are all after it.
      rename_i hempty
      rw [List.isEmpty_iff] at hempty
      have hnone : ∀ j, k + 1 ≤ j → c.routes first j = [] := fun j hj =>
        routes_eq_nil_of_le hempty hj
      have hrest : (List.range' (k + 1) (n + 1)).flatMap (arrivalsAt c first) = [] := by
        rw [List.flatMap_eq_nil_iff]
        intro j hj
        exact arrivalsAt_eq_nil (hnone j (List.mem_range'_1.mp hj).1)
      rw [hrest, hnone _ (by omega)]
      rfl
    · rw [ih]
      have hidx : k + 1 + n + 1 = k + (n + 1) + 1 := by omega
      rw [hidx]

/-- What is placed along the first layers of routes. -/
def placements (c : Collection α) (first : List Text) (n : Nat) : List (Placement α) :=
  (arrivals c first n).foldl place []

/-- The layout places what the layers of routes arrive at, and is
complete if the last layer is empty. -/
theorem expand_routes (c : Collection α) (first : List Text) {n : Nat} (hn : 0 < n) :
    expand c n [] [first] = (placements c first n, (c.routes first n).isEmpty) := by
  obtain ⟨n, rfl⟩ : ∃ j, n = j + 1 := ⟨n - 1, by omega⟩
  have := expand_routes_from c first n 0 []
  rw [← List.range_eq_range', Nat.zero_add] at this
  exact this

theorem placements_succ (c : Collection α) (first : List Text) (n : Nat) :
    placements c first (n + 1) = (arrivalsAt c first n).foldl place (placements c first n) := by
  rw [placements, arrivals_succ, List.foldl_append]
  rfl

/-! ## First arrivals -/

/-- The first arrival at every short id. -/
def firsts : List (Arrival α) → List (Arrival α)
  | [] => []
  | a :: rest => a :: (firsts rest).filter fun b => b.shortId ≠ a.shortId

theorem map_shortId_firsts (as : List (Arrival α)) :
    (firsts as).map Arrival.shortId = distinct (as.map Arrival.shortId) := by
  induction as with
  | nil => rfl
  | cons a rest ih =>
    rw [firsts, List.map_cons, List.map_cons, distinct, ← ih, List.filter_map]
    rfl

theorem mem_firsts {as : List (Arrival α)} {a : Arrival α} :
    a ∈ firsts as ↔ as.find? (fun b => b.shortId = a.shortId) = some a := by
  induction as with
  | nil => simp [firsts]
  | cons x rest ih =>
    by_cases h : x.shortId = a.shortId
    · simp only [firsts, List.mem_cons, List.mem_filter, h, List.find?_cons, decide_true,
        Option.some.injEq, ne_eq, not_true_eq_false, decide_false, Bool.false_eq_true, and_false,
        or_false, eq_comm]
    · have hne : a ≠ x := fun hax => h (by rw [hax])
      have hne' : a.shortId ≠ x.shortId := fun hax => h hax.symm
      simp [firsts, h, hne, hne', ih]

/-- Placing arrivals in turn adds the first arrival at every short id
that is not taken. -/
theorem foldl_place (as : List (Arrival α)) (placed : List (Placement α)) :
    as.foldl place placed =
      placed ++ ((firsts as).filter fun a => a.shortId ∉ ids placed).map Arrival.placement := by
  induction as generalizing placed with
  | nil => simp [firsts]
  | cons a rest ih =>
    rw [List.foldl_cons, ih, firsts]
    by_cases h : a.shortId ∈ ids placed
    · rw [place_of_mem h, List.filter_cons_of_neg (by simpa using h), List.filter_filter]
      congr 2
      apply List.filter_congr
      intro b _
      by_cases hb : b.shortId ∈ ids placed
      · simp [hb]
      · have hne : b.shortId ≠ a.shortId := fun heq => hb (heq ▸ h)
        simp [hb, hne]
    · have hid : ids [a.placement] = [a.shortId] := rfl
      rw [place_of_not_mem h, List.filter_cons_of_pos (by simpa using h), List.filter_filter,
        List.map_cons, List.append_assoc, List.singleton_append, ids_append, hid]
      congr 3
      apply List.filter_congr
      intro b _
      simp

theorem placements_eq (c : Collection α) (first : List Text) (n : Nat) :
    placements c first n = (firsts (arrivals c first n)).map Arrival.placement := by
  rw [placements, foldl_place, List.nil_append, List.filter_eq_self.mpr]
  simp

theorem ids_placements (c : Collection α) (first : List Text) (n : Nat) :
    ids (placements c first n) = distinct ((arrivals c first n).map Arrival.shortId) := by
  rw [placements_eq, ← map_shortId_firsts, ids, List.map_map]
  rfl

theorem mem_ids_placements {c : Collection α} {first : List Text} {n : Nat} {s : Text} :
    s ∈ ids (placements c first n) ↔ ∃ a ∈ arrivals c first n, a.shortId = s := by
  rw [ids_placements, mem_distinct, List.mem_map]

/-- A placement comes from the first arrival at its short id. -/
theorem exists_first_arrival {c : Collection α} {first : List Text} {n : Nat} {p : Placement α}
    (hp : p ∈ placements c first n) :
    ∃ a, (arrivals c first n).find? (fun b => b.shortId = a.shortId) = some a
      ∧ p = a.placement := by
  rw [placements_eq, List.mem_map] at hp
  obtain ⟨a, ha, rfl⟩ := hp
  exact ⟨a, mem_firsts.mp ha, rfl⟩

/-- The first arrival at a short id belongs to the first layer that
arrives there. -/
theorem find?_arrivals {c : Collection α} {first : List Text} {n : Nat} {q : Arrival α → Bool}
    {a : Arrival α} (h : (arrivals c first n).find? q = some a) :
    ∃ k < n, a ∈ arrivalsAt c first k ∧ ∀ j < k, ∀ b ∈ arrivalsAt c first j, ¬ q b = true := by
  induction n with
  | zero => simp [arrivals] at h
  | succ n ih =>
    rw [arrivals_succ, List.find?_append, Option.or_eq_some_iff] at h
    rcases h with h | ⟨hnone, h⟩
    · obtain ⟨k, hk, hrest⟩ := ih h
      exact ⟨k, by omega, hrest⟩
    · refine ⟨n, by omega, List.mem_of_find?_eq_some h, ?_⟩
      intro j hj b hb
      exact List.find?_eq_none.mp hnone b (mem_arrivals.mpr ⟨j, hj, hb⟩)

/-! ## Placements are grounded -/

theorem ids_place (placed : List (Placement α)) (a : Arrival α) :
    ∀ s, s ∈ ids (place placed a) ↔ s ∈ ids placed ∨ s = a.shortId := by
  intro s
  have hid : ids [a.placement] = [a.shortId] := rfl
  by_cases h : a.shortId ∈ ids placed
  · rw [place_of_mem h]
    exact ⟨.inl, fun hs => hs.elim id fun heq => heq ▸ h⟩
  · rw [place_of_not_mem h, ids_append, hid, List.mem_append, List.mem_singleton]

theorem grounded_place {root : Text} {placed : List (Placement α)} {a : Arrival α}
    (h : Grounded [root] placed) (hend : routeEnd a.route ∈ root :: ids placed)
    (hroot : a.shortId ≠ root) : Grounded [root] (place placed a) := by
  by_cases hnew : a.shortId ∈ ids placed
  · rw [place_of_mem hnew]
    exact h
  · rw [place_of_not_mem hnew, grounded_concat]
    refine ⟨h, hend, ?_⟩
    rw [List.singleton_append, List.mem_cons]
    rintro (heq | hmem)
    · exact hroot heq
    · exact hnew hmem

theorem grounded_foldl_place {root : Text} {as : List (Arrival α)} {placed : List (Placement α)}
    (h : Grounded [root] placed)
    (has : ∀ a ∈ as, routeEnd a.route ∈ root :: ids placed ∧ a.shortId ≠ root) :
    Grounded [root] (as.foldl place placed) := by
  induction as generalizing placed with
  | nil => exact h
  | cons a rest ih =>
    obtain ⟨hend, hroot⟩ := has a List.mem_cons_self
    refine ih (grounded_place h hend hroot) ?_
    intro b hb
    obtain ⟨hend, hroot⟩ := has b (List.mem_cons_of_mem _ hb)
    refine ⟨?_, hroot⟩
    rcases List.mem_cons.mp hend with heq | hmem
    · exact heq ▸ List.mem_cons_self
    · exact List.mem_cons_of_mem _ ((ids_place placed a _).mpr (.inl hmem))

/-- Every route of a layer ends at the root or at what the layers before
have placed. -/
theorem routeEnd_mem_ids {c : Collection α} {first : List Text} {k n : Nat} (hk : k ≤ n)
    {r : List Text} (hr : r ∈ c.routes first k) :
    routeEnd r ∈ routeEnd first :: ids (placements c first n) := by
  cases k with
  | zero =>
    rw [routes, List.mem_singleton] at hr
    exact hr ▸ List.mem_cons_self
  | succ k =>
    obtain ⟨q, hq, m, hm, rfl⟩ := mem_routes_succ.mp hr
    rw [routeEnd_concat]
    refine List.mem_cons_of_mem _ (mem_ids_placements.mpr ⟨⟨q, m⟩, ?_, rfl⟩)
    exact mem_arrivals.mpr ⟨k, hk, mem_arrivalsAt.mpr ⟨hq, hm⟩⟩

theorem grounded_placements (c : Collection α) {first : List Text} (hf : first ≠ []) (n : Nat) :
    Grounded [routeEnd first] (placements c first n) := by
  induction n with
  | zero => exact trivial
  | succ n ih =>
    rw [placements_succ]
    refine grounded_foldl_place ih fun a ha => ?_
    obtain ⟨hr, hm⟩ := mem_arrivalsAt.mp ha
    refine ⟨routeEnd_mem_ids (Nat.le_refl n) hr, fun heq => ?_⟩
    have hin : routeEnd first ∈ a.route := mem_of_mem_routes hr (routeEnd_mem hf)
    exact (mem_onward.mp hm).2 (by rw [← heq] at hin; exact hin)

end Layout

end Lineage
