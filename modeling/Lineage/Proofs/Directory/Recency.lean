/-
Lineage.Proofs.Directory.Recency — which collections the cache keeps, and
in which order.

A run is looked at together with the log of its reads: every read of a
collection, asked for directly or made for a display, with its head and
whether it was answered.  The cache is a part of the order in which the
heads of the log were last served (`lastServed`), so it repeats no head
and its first entry is the one served longest ago.  Four things happen to
it: an entry is served and goes last, an expired one is replaced and goes
last, a new one goes last and the first gives way if the cache was full,
and entries are flushed.  `getCollection_cases` says so once for a read,
`KeptLess` for all else, and a run keeps what both keep (`Accounted`).
-/
import Lineage.Proofs.Directory.Failures

namespace Lineage.Directory

variable {d d' : Directory} {g : Group} {head : Text} {now : Clock}

/-! ## Runs and their reads -/

/-- What is done with a store: a record is stored, a group is flushed, or
something is requested. -/
inductive Deed where
  | store (g : Group)
  | flush (g : Group)
  | ask (request : Request)

/-- The store after a deed. -/
def Deed.perform (d : Directory) : Deed → Directory
  | .store g => d.upsert g
  | .flush g => d.flush g
  | .ask request => (request.perform d).1

/-- The store after some deeds. -/
def afterDeeds (d : Directory) (deeds : List Deed) : Directory :=
  deeds.foldl Deed.perform d

/-- A read of a collection: whose it is, and whether it was answered. -/
structure Read where
  head : Text
  answered : Bool
  deriving DecidableEq, Repr

/-- A read of a collection of a store. -/
def readOf (d : Directory) (head : Text) (now : Clock) : Read :=
  ⟨head, (d.getCollection head now).2.isOk⟩

/-- The reads that a display makes, up to the first head that cannot be
shown. -/
def displayReads (acls : List Acl) : Directory → List (Text × Clock) → List Read
  | _, [] => []
  | d, (head, now) :: rest =>
    readOf d head now ::
      match (d.displayOne acls now head).2 with
      | .error _ => []
      | .ok _ => displayReads acls (d.displayOne acls now head).1 rest

/-- The reads that a request makes. -/
def Request.reads (d : Directory) : Request → List Read
  | .collection head now => [readOf d head now]
  | .display visits acls => displayReads acls d visits
  | .get _ | .build _ | .attach _ _ _ | .deactivate _ _ => []

/-- The reads that a deed makes. -/
def Deed.reads (d : Directory) : Deed → List Read
  | .store _ | .flush _ => []
  | .ask request => request.reads d

/-- The reads that some deeds make, in order. -/
def readLog (d : Directory) : List Deed → List Read
  | [] => []
  | deed :: rest => deed.reads d ++ readLog (deed.perform d) rest

/-- The heads of the reads that were answered. -/
def answeredHeads (log : List Read) : List Text :=
  (log.filter Read.answered).map Read.head

/-- The heads of the reads that were answered, each once, in the order of
the last such read. -/
def lastServed (log : List Read) : List Text :=
  (distinct (answeredHeads log).reverse).reverse

theorem nodup_lastServed (log : List Read) : (lastServed log).Nodup :=
  List.nodup_reverse.mpr (nodup_distinct _)

/-- An answered read puts its head last, another one changes nothing. -/
theorem lastServed_concat (log : List Read) (r : Read) :
    lastServed (log ++ [r])
      = if r.answered then (lastServed log).filter (· ≠ r.head) ++ [r.head]
        else lastServed log := by
  cases h : r.answered with
  | false => simp [lastServed, answeredHeads, h]
  | true => simp [lastServed, answeredHeads, h, distinct, List.filter_reverse]

/-! ## A read -/

/-- The entries with other heads. -/
def others (d : Directory) (head : Text) : List Kept :=
  d.cache.filter fun k => k.head ≠ head

/-- A read counts one hit and serves the entry of its head, or counts one
miss and fails, or counts one miss and serves what it builds. -/
theorem getCollection_cases (hsize : d.policy.cacheMaxSize ≠ 0) (head : Text) (now : Clock) :
    (∃ k, d.fresh? head now = some k
        ∧ d.getCollection head now
          = ({ d with counts := { d.counts with hits := d.counts.hits + 1 } }.serve k,
              .ok k.collection))
      ∨ (d.fresh? head now = none ∧ ∃ fault,
        d.getCollection head now
          = ({ d with counts := { d.counts with misses := d.counts.misses + 1 } }, .error fault))
      ∨ (d.fresh? head now = none ∧ ∃ c expiresAt,
        d.buildCollection head = .ok c ∧ d.expiry? now = some expiresAt
          ∧ d.getCollection head now
            = (({ d with counts := { d.counts with misses := d.counts.misses + 1 } }.serve
                  ⟨head, c, expiresAt⟩).evict, .ok c)) := by
  have hbuild : ({ d with counts := { d.counts with misses := d.counts.misses + 1 } } :
      Directory).buildCollection head = d.buildCollection head :=
    SameRecords.buildCollection_eq ⟨rfl, rfl, rfl⟩ head
  unfold getCollection
  rw [if_neg hsize]
  cases hfresh : d.fresh? head now with
  | some k => exact .inl ⟨k, rfl, rfl⟩
  | none =>
    right
    dsimp only
    rw [hbuild]
    cases d.buildCollection head with
    | error fault => exact .inl ⟨rfl, _, rfl⟩
    | ok c =>
      have hexpiry : ({ d with counts := { d.counts with misses := d.counts.misses + 1 } } :
          Directory).expiry? now = d.expiry? now := rfl
      dsimp only
      rw [hexpiry]
      cases d.expiry? now with
      | none => exact .inl ⟨rfl, _, rfl⟩
      | some expiresAt => exact .inr ⟨rfl, c, expiresAt, rfl, rfl, rfl⟩

/-- Without room for entries a read builds and counts nothing. -/
theorem getCollection_of_no_room (hsize : d.policy.cacheMaxSize = 0) (head : Text) (now : Clock) :
    (d.getCollection head now).1 = d := by
  simp [getCollection, hsize]

/-- A read counts as a hit or as a miss. -/
theorem counts_getCollection (hsize : d.policy.cacheMaxSize ≠ 0) (head : Text) (now : Clock) :
    (d.getCollection head now).1.counts.hits + (d.getCollection head now).1.counts.misses
      = d.counts.hits + d.counts.misses + 1 := by
  rcases getCollection_cases hsize head now with
    ⟨k, -, heq⟩ | ⟨-, fault, heq⟩ | ⟨-, c, expiresAt, -, -, heq⟩
  · rw [heq]
    simp only [serve]
    omega
  · rw [heq]
    simp only
    omega
  · rw [heq]
    simp only [serve, evict]
    omega

/-! ## The account of a run -/

/-- The cache keeps no more than it has room for, in the order in which
heads were last served, and every read was counted once. -/
structure Accounted (d : Directory) (log : List Read) : Prop where
  fits : d.cache.length ≤ d.policy.cacheMaxSize.toNat
  recent : (d.cache.map Kept.head).Sublist (lastServed log)
  counted : d.counts.hits + d.counts.misses = log.length

/-- Entries were dropped at most, and no read was counted. -/
structure KeptLess (d d' : Directory) : Prop where
  policy : d'.policy = d.policy
  cache : d'.cache.Sublist d.cache
  hits : d'.counts.hits = d.counts.hits
  misses : d'.counts.misses = d.counts.misses

namespace KeptLess

theorem refl (d : Directory) : KeptLess d d :=
  ⟨rfl, .refl _, rfl, rfl⟩

theorem trans {d'' : Directory} (h : KeptLess d d') (h' : KeptLess d' d'') : KeptLess d d'' :=
  ⟨h'.policy.trans h.policy, h'.cache.trans h.cache, h'.hits.trans h.hits,
    h'.misses.trans h.misses⟩

end KeptLess

theorem keptLess_flush (d : Directory) (g : Group) : KeptLess d (d.flush g) := by
  unfold flush
  generalize g.shortId :: g.references = heads
  induction heads generalizing d with
  | nil => exact .refl d
  | cons head rest ih =>
    have hone : KeptLess d (d.flushHead head) := by
      unfold flushHead
      split
      · exact .refl d
      · exact ⟨rfl, List.filter_sublist, rfl, rfl⟩
    exact hone.trans (ih _)

/-- The cache does not depend on the records. -/
theorem keptLess_records (d : Directory) (records : Keyed Text Group)
    (referrers : Keyed Text (List Text)) :
    KeptLess d { d with records := records, referrers := referrers } :=
  ⟨rfl, .refl _, rfl, rfl⟩

theorem keptLess_upsert (d : Directory) (g : Group) : KeptLess d (d.upsert g) := by
  unfold upsert
  split
  · exact .refl d
  · dsimp only
    -- The record that is replaced, if there is one, is flushed before the new one.
    split
    · exact (keptLess_records d _ _).trans (keptLess_flush _ g)
    · rename_i previous _
      have hprevious := (keptLess_records d d.records (leaveReferences d.referrers previous)).trans
        (keptLess_flush _ previous)
      exact hprevious.trans ((keptLess_records _ _ _).trans (keptLess_flush _ g))

/-! ## An entry goes last -/

/-- What is left of the cache when an entry of a head goes last: where the
head is new and there is no room, the entry served longest ago is not. -/
def leftBy (d : Directory) (head : Text) : List Kept :=
  if (d.kept? head).isSome ∨ d.cache.length < d.policy.cacheMaxSize.toNat then d.others head
  else d.cache.tail

theorem isSome_kept?_iff : (d.kept? head).isSome ↔ head ∈ d.cache.map Kept.head := by
  rw [kept?, List.find?_isSome, List.mem_map]
  simp

theorem leftBy_eq (d : Directory) (head : Text) :
    d.leftBy head
      = if head ∈ d.cache.map Kept.head ∨ d.cache.length < d.policy.cacheMaxSize.toNat
        then d.others head else d.cache.tail :=
  if_congr (or_congr_left isSome_kept?_iff) rfl rfl

theorem leftBy_of_mem (h : head ∈ d.cache.map Kept.head) : d.leftBy head = d.others head := by
  rw [leftBy_eq, if_pos (.inl h)]

theorem map_head_others (d : Directory) (head : Text) :
    (d.others head).map Kept.head = (d.cache.map Kept.head).filter (· ≠ head) := by
  rw [others, List.filter_map]
  rfl

theorem others_of_not_mem (h : head ∉ d.cache.map Kept.head) : d.others head = d.cache := by
  refine List.filter_eq_self.mpr fun k hk => ?_
  have hne : k.head ≠ head := fun heq => h (heq ▸ List.mem_map_of_mem hk)
  simpa using hne

namespace Accounted

variable {log : List Read}

theorem of_keptLess (h : Accounted d log) (hless : KeptLess d d') : Accounted d' log where
  fits := by
    rw [hless.policy]
    exact Nat.le_trans hless.cache.length_le h.fits
  recent := (hless.cache.map _).trans h.recent
  counted := by
    rw [hless.hits, hless.misses]
    exact h.counted

theorem nodup (h : Accounted d log) : (d.cache.map Kept.head).Nodup :=
  h.recent.nodup (nodup_lastServed log)

/-- No two entries have the same head. -/
theorem length_others (h : Accounted d log) (hmem : head ∈ d.cache.map Kept.head) :
    (d.others head).length + 1 = d.cache.length := by
  have hheads : (d.others head).map Kept.head = (d.cache.map Kept.head).erase head := by
    rw [map_head_others, h.nodup.erase_eq_filter]
    congr
    funext x
    rw [bne, Bool.eq_iff_iff]
    simp
  have hlength := congrArg List.length hheads
  rw [List.length_map, List.length_erase_of_mem hmem, List.length_map] at hlength
  have hpos : 0 < (d.cache.map Kept.head).length := List.length_pos_of_mem hmem
  rw [List.length_map] at hpos
  omega

/-- A new entry takes the place of an old one of its head or, for want of
room, of the one served longest ago. -/
theorem cache_evict_serve (h : Accounted d log) (hroom : 1 ≤ d.policy.cacheMaxSize)
    (counts : CacheCounts) (k : Kept) :
    (({ d with counts := counts }.serve k).evict).cache = d.leftBy k.head ++ [k] := by
  have hcache : (({ d with counts := counts } : Directory).serve k).evict.cache
      = (d.others k.head ++ [k]).drop
        ((d.others k.head ++ [k]).length - d.policy.cacheMaxSize.toNat) := rfl
  have hfits := h.fits
  rw [hcache, List.length_append, List.length_singleton, leftBy_eq]
  by_cases hmem : k.head ∈ d.cache.map Kept.head
  · have hlength := h.length_others hmem
    rw [if_pos (.inl hmem), Nat.sub_eq_zero_of_le (by omega), List.drop_zero]
  · rw [others_of_not_mem hmem]
    by_cases hfull : d.cache.length < d.policy.cacheMaxSize.toNat
    · rw [if_pos (.inr hfull), Nat.sub_eq_zero_of_le (by omega), List.drop_zero]
    · rw [if_neg (by simp [hmem, hfull])]
      have hone : d.cache.length + 1 - d.policy.cacheMaxSize.toNat = 1 := by omega
      rw [hone, List.drop_one, List.tail_append_of_ne_nil]
      rintro hnil
      rw [hnil] at hfull
      simp only [List.length_nil] at hfull
      omega

/-- What is left stands in the order in which heads were last served. -/
theorem leftBy_sublist (d : Directory) (head : Text) : (d.leftBy head).Sublist (d.others head) := by
  rw [leftBy_eq]
  split
  · exact .refl _
  · rename_i hfull
    rw [others_of_not_mem fun hmem => hfull (.inl hmem)]
    exact List.tail_sublist _

/-- The entry of an answered read goes behind entries with other heads. -/
theorem recent_served (h : Accounted d log) {left : List Kept} {k : Kept}
    (hleft : left.Sublist (d.others k.head)) :
    ((left ++ [k]).map Kept.head).Sublist (lastServed (log ++ [⟨k.head, true⟩])) := by
  rw [lastServed_concat, if_pos rfl, List.map_append]
  have hheads : (left.map Kept.head).Sublist ((lastServed log).filter (· ≠ k.head)) := by
    refine (hleft.map Kept.head).trans ?_
    rw [map_head_others]
    exact h.recent.filter _
  exact hheads.append (.refl _)

/-- An answered read makes the entry of its head the last one. -/
theorem cache_of_ok (h : Accounted d log) (hroom : 1 ≤ d.policy.cacheMaxSize)
    {c : Collection Group} (hok : (d.getCollection head now).2 = .ok c) :
    ∃ k, k.head = head ∧ k.collection = c
      ∧ (d.getCollection head now).1.cache = d.leftBy head ++ [k] := by
  have hsize : d.policy.cacheMaxSize ≠ 0 := by omega
  rcases getCollection_cases hsize head now with
    ⟨k, hk, heq⟩ | ⟨-, fault, heq⟩ | ⟨-, c', expiresAt, -, -, heq⟩
  · rw [heq] at hok ⊢
    obtain ⟨hmem, rfl⟩ := mem_cache_of_fresh? hk
    refine ⟨k, rfl, Except.ok.inj hok, ?_⟩
    rw [leftBy_of_mem (List.mem_map_of_mem hmem)]
    rfl
  · rw [heq] at hok
    cases hok
  · rw [heq] at hok ⊢
    obtain rfl := Except.ok.inj hok
    exact ⟨_, rfl, rfl, h.cache_evict_serve hroom _ _⟩

/-- The entry of a head that has expired is not served: the read counts a
miss, and where it is answered a new entry takes the place of the old
one. -/
theorem rebuilt_of_expired (h : Accounted d log) (hroom : 1 ≤ d.policy.cacheMaxSize) {k : Kept}
    (hk : k ∈ d.cache) (hexpired : now.seconds.less k.expiresAt = false) :
    (d.getCollection k.head now).1.counts = { d.counts with misses := d.counts.misses + 1 }
      ∧ ∀ c, (d.getCollection k.head now).2 = .ok c →
        d.buildCollection k.head = .ok c ∧ ∃ expiresAt, d.expiry? now = some expiresAt
          ∧ (d.getCollection k.head now).1.cache
            = d.others k.head ++ [⟨k.head, c, expiresAt⟩] := by
  have hkept : d.kept? k.head = some k := by
    obtain ⟨k', hk'⟩ : ∃ k', d.kept? k.head = some k' :=
      Option.isSome_iff_exists.mp (isSome_kept?_iff.mpr (List.mem_map_of_mem hk))
    have hhead : k'.head = k.head := by simpa using List.find?_some hk'
    rw [hk', List.inj_on_of_nodup_map h.nodup (List.mem_of_find?_eq_some hk') hk hhead]
  have hstale : d.fresh? k.head now = none := by simp [fresh?, hkept, hexpired]
  have hsize : d.policy.cacheMaxSize ≠ 0 := by omega
  rcases getCollection_cases hsize k.head now with
    ⟨served, hserved, -⟩ | ⟨-, fault, heq⟩ | ⟨-, c, expiresAt, hbuild, hexpiry, heq⟩
  · rw [hstale] at hserved
    cases hserved
  · rw [heq]
    exact ⟨rfl, fun c hok => by cases hok⟩
  · rw [heq]
    refine ⟨rfl, fun c' hok => ?_⟩
    obtain rfl := Except.ok.inj hok
    refine ⟨hbuild, expiresAt, hexpiry, ?_⟩
    have hcached : k.head ∈ d.cache.map Kept.head := List.mem_map_of_mem hk
    rw [h.cache_evict_serve hroom]
    exact congrArg (· ++ _) (leftBy_of_mem hcached)

theorem length_leftBy_lt (h : Accounted d log) (hroom : 1 ≤ d.policy.cacheMaxSize) (head : Text) :
    (d.leftBy head).length < d.policy.cacheMaxSize.toNat := by
  have hfits := h.fits
  rw [leftBy_eq]
  by_cases hmem : head ∈ d.cache.map Kept.head
  · have hlength := h.length_others hmem
    rw [if_pos (.inl hmem)]
    omega
  · split
    · rename_i hless
      rw [others_of_not_mem hmem]
      exact hless.resolve_left hmem
    · rw [List.length_tail]
      omega

/-- A read adds itself to the account. -/
theorem read (h : Accounted d log) (hroom : 1 ≤ d.policy.cacheMaxSize) (head : Text) (now : Clock) :
    Accounted (d.getCollection head now).1 (log ++ [d.readOf head now]) := by
  have hpolicy := (getCollection_fst d head now).1.policy
  have hcounted : (d.getCollection head now).1.counts.hits
      + (d.getCollection head now).1.counts.misses = (log ++ [d.readOf head now]).length := by
    rw [counts_getCollection (by omega), h.counted, List.length_append, List.length_singleton]
  cases hanswer : (d.getCollection head now).2 with
  | error fault =>
    have hread : d.readOf head now = ⟨head, false⟩ := by rw [readOf, hanswer]; rfl
    have hcache := cache_getCollection_of_error hanswer
    refine ⟨?_, ?_, hcounted⟩
    · rw [hcache, hpolicy]
      exact h.fits
    · rw [hcache, hread, lastServed_concat]
      exact h.recent
  | ok c =>
    have hread : d.readOf head now = ⟨head, true⟩ := by rw [readOf, hanswer]; rfl
    obtain ⟨k, rfl, -, hcache⟩ := h.cache_of_ok hroom hanswer
    refine ⟨?_, ?_, hcounted⟩
    · rw [hcache, hpolicy, List.length_append, List.length_singleton]
      exact h.length_leftBy_lt hroom k.head
    · rw [hcache, hread]
      exact h.recent_served (leftBy_sublist d k.head)

end Accounted

/-! ## Runs -/

section Preserved

variable {P : Directory → List Read → Prop} {log : List Read}
  (hstore : ∀ d g log, P d log → P (d.upsert g) log)
  (hflush : ∀ d g log, P d log → P (d.flush g) log)
  (hread : ∀ d head now log, P d log → P (d.getCollection head now).1 (log ++ [d.readOf head now]))

include hread in
/-- What a read keeps, a display keeps. -/
theorem displayReads_preserves (h : P d log) (acls : List Acl) (visits : List (Text × Clock)) :
    P (displayStore acls d visits) (log ++ displayReads acls d visits) := by
  induction visits generalizing d log with
  | nil =>
    rw [displayReads, List.append_nil]
    exact h
  | cons visit rest ih =>
    obtain ⟨head, now⟩ := visit
    have hone : P (d.displayOne acls now head).1 (log ++ [d.readOf head now]) := by
      rw [displayOne_fst]
      exact hread d head now log h
    rw [displayStore, displayReads]
    cases (d.displayOne acls now head).2 with
    | error fault => exact hone
    | ok view =>
      have hrest := ih hone
      rw [List.append_assoc, List.singleton_append] at hrest
      exact hrest

include hstore hflush hread

/-- What storing, flushing and reading keep, every deed keeps. -/
theorem deed_preserves (h : P d log) (deed : Deed) :
    P (deed.perform d) (log ++ deed.reads d) := by
  have hquiet : ∀ d', d' = d ∨ (∃ g, d' = d.upsert g) → P d' (log ++ []) := by
    rw [List.append_nil]
    rintro d' (rfl | ⟨g, rfl⟩)
    · exact h
    · exact hstore d g log h
  cases deed with
  | store g => exact hquiet _ (.inr ⟨g, rfl⟩)
  | flush g =>
    rw [Deed.reads, List.append_nil]
    exact hflush d g log h
  | ask request =>
    cases request with
    | get shortId => exact hquiet _ (.inl rfl)
    | build head => exact hquiet _ (.inl rfl)
    | collection head now => exact hread d head now log h
    | attach child parent now => exact hquiet _ (attach_fst d child parent now)
    | deactivate shortId now => exact hquiet _ (deactivate_fst d shortId now)
    | display visits acls => exact displayReads_preserves hread h acls visits

/-- What storing, flushing and reading keep holds after every run if it
holds of the empty store and of no read. -/
theorem deeds_preserve (d : Directory) (log : List Read) (h : P d log) (deeds : List Deed) :
    P (afterDeeds d deeds) (log ++ readLog d deeds) := by
  induction deeds generalizing d log with
  | nil =>
    rw [readLog, List.append_nil]
    exact h
  | cons deed rest ih =>
    rw [readLog, ← List.append_assoc]
    exact ih _ _ (deed_preserves hstore hflush hread h deed)

end Preserved

/-- After every run of a store that keeps collections, the account of its
reads is right. -/
theorem accounted_afterDeeds {policy : GroupPolicy} (hroom : 1 ≤ policy.cacheMaxSize)
    (deeds : List Deed) :
    (afterDeeds (empty policy) deeds).policy = policy
      ∧ Accounted (afterDeeds (empty policy) deeds) (readLog (empty policy) deeds) := by
  refine deeds_preserve (P := fun d log => d.policy = policy ∧ Accounted d log) ?_ ?_ ?_
    (empty policy) [] ⟨rfl, Nat.zero_le _, .refl _, rfl⟩ deeds
  · rintro d g log ⟨hpolicy, h⟩
    exact ⟨(keptLess_upsert d g).policy.trans hpolicy, h.of_keptLess (keptLess_upsert d g)⟩
  · rintro d g log ⟨hpolicy, h⟩
    exact ⟨(keptLess_flush d g).policy.trans hpolicy, h.of_keptLess (keptLess_flush d g)⟩
  · rintro d head now log ⟨hpolicy, h⟩
    exact ⟨(getCollection_fst d head now).1.policy.trans hpolicy,
      h.read (by rw [hpolicy]; exact hroom) head now⟩

/-! ## Without room -/

/-- Nothing is kept and nothing was counted. -/
structure Idle (d : Directory) : Prop where
  cache : d.cache = []
  counts : d.counts = {}

theorem flush_of_idle (h : Idle d) (g : Group) : d.flush g = d := by
  unfold flush
  generalize g.shortId :: g.references = heads
  induction heads with
  | nil => rfl
  | cons head rest ih =>
    have hone : d.flushHead head = d := by simp [flushHead, kept?, h.cache]
    rw [List.foldl_cons, hone]
    exact ih

theorem idle_upsert (h : Idle d) (g : Group) : Idle (d.upsert g) := by
  have hstored : ∀ records referrers, Idle { d with records := records, referrers := referrers } :=
    fun _ _ => ⟨h.cache, h.counts⟩
  unfold upsert
  split
  · exact h
  · cases d.records.get? g.shortId with
    | none =>
      dsimp only
      rw [flush_of_idle (hstored _ _)]
      exact hstored _ _
    | some previous =>
      dsimp only
      rw [flush_of_idle (hstored d.records (leaveReferences d.referrers previous)),
        flush_of_idle (hstored _ _)]
      exact hstored _ _

theorem idle_afterDeeds {policy : GroupPolicy} (hsize : policy.cacheMaxSize = 0)
    (deeds : List Deed) : Idle (afterDeeds (empty policy) deeds) := by
  have hrun := deeds_preserve (P := fun d _ => d.policy = policy ∧ Idle d) ?_ ?_ ?_
    (empty policy) [] ⟨rfl, rfl, rfl⟩ deeds
  · exact hrun.2
  · rintro d g log ⟨hpolicy, h⟩
    exact ⟨(keptLess_upsert d g).policy.trans hpolicy, idle_upsert h g⟩
  · rintro d g log ⟨hpolicy, h⟩
    rw [flush_of_idle h]
    exact ⟨hpolicy, h⟩
  · rintro d head now log ⟨hpolicy, h⟩
    rw [getCollection_of_no_room (by rw [hpolicy]; exact hsize)]
    exact ⟨hpolicy, h⟩

/-! ## The cache after every run -/

/-- After every run of a store that keeps collections, no two entries of
the cache have the same head, there are no more of them than there is room
for, they stand in the order in which their heads were last served, and
every read was counted once.  Then an answered read makes the entry of its
head the last one and leaves the others in order, all of them unless the
head is new and there is no room, when the one served longest ago gives
way.  An expired entry is not served: the read counts as a miss, and if it
is answered, then with a collection built now, in a new entry.  A store
that keeps no collections has an empty cache and has counted nothing. -/
theorem cache_after_deeds (policy : GroupPolicy) (deeds : List Deed) :
    let d := afterDeeds (empty policy) deeds
    let log := readLog (empty policy) deeds
    (1 ≤ policy.cacheMaxSize →
      (d.cache.map Kept.head).Nodup
        ∧ (d.cache.length : Int) ≤ policy.cacheMaxSize
        ∧ (d.cache.map Kept.head).Sublist (lastServed log)
        ∧ d.counts.hits + d.counts.misses = log.length
        ∧ (∀ head now c, (d.getCollection head now).2 = .ok c →
          ∃ k, k.head = head ∧ k.collection = c
            ∧ (d.getCollection head now).1.cache
              = (if head ∈ d.cache.map Kept.head ∨ (d.cache.length : Int) < policy.cacheMaxSize
                  then d.others head else d.cache.tail) ++ [k])
        ∧ (∀ k ∈ d.cache, ∀ now, now.seconds.less k.expiresAt = false →
          (d.getCollection k.head now).1.counts
              = { d.counts with misses := d.counts.misses + 1 }
            ∧ ∀ c, (d.getCollection k.head now).2 = .ok c →
              d.buildCollection k.head = .ok c ∧ ∃ expiresAt, d.expiry? now = some expiresAt
                ∧ (d.getCollection k.head now).1.cache
                  = d.others k.head ++ [⟨k.head, c, expiresAt⟩]))
      ∧ (policy.cacheMaxSize = 0 → d.cache = [] ∧ d.counts = {}) := by
  intro d log
  refine ⟨fun hroom => ?_, fun hsize => ?_⟩
  · obtain ⟨hpolicy, h⟩ : d.policy = policy ∧ Accounted d log := accounted_afterDeeds hroom deeds
    have hroom' : 1 ≤ d.policy.cacheMaxSize := by
      rw [hpolicy]
      exact hroom
    have hfits : (d.cache.length : Int) ≤ policy.cacheMaxSize := by
      have hfits := h.fits
      rw [hpolicy] at hfits
      omega
    refine ⟨h.nodup, hfits, h.recent, h.counted, fun head now c hok => ?_,
      fun k hk now hexpired => h.rebuilt_of_expired hroom' hk hexpired⟩
    obtain ⟨k, hhead, hcollection, hcache⟩ := h.cache_of_ok hroom' hok
    have hless : d.cache.length < d.policy.cacheMaxSize.toNat
        ↔ (d.cache.length : Int) < policy.cacheMaxSize := by
      rw [hpolicy]
      omega
    refine ⟨k, hhead, hcollection, ?_⟩
    rw [hcache]
    simp only [leftBy_eq, hless]
  · have h : Idle d := idle_afterDeeds hsize deeds
    exact ⟨h.cache, h.counts⟩

/-- Two collections are kept for ten seconds each; `r`, `s` and `t` are
read, `r` once more from the cache, and a display of `r` and `z` fails at
`z`, which is not stored. -/
def crowded : List Deed :=
  let r : Text := [.char 'r']
  let s : Text := [.char 's']
  let t : Text := [.char 't']
  [.store (.plain r []), .store (.plain s []), .store (.plain t []),
    .ask (.collection r ⟨0⟩), .ask (.collection s ⟨1000000⟩), .ask (.collection r ⟨2000000⟩),
    .ask (.collection t ⟨3000000⟩), .ask (.display [(r, ⟨4000000⟩), ([.char 'z'], ⟨5000000⟩)] [])]

/-- The six reads left `t` and `r`, in this order.  Read when there is no
room, `s` takes the place of `t`; read when it has expired, `t` is built
again and goes last. -/
theorem cache_after_deeds_crowded :
    let policy : GroupPolicy := { cacheMaxSize := 2, cacheExpirationSeconds := 10 }
    let d := afterDeeds (empty policy) crowded
    d.cache.map Kept.head = [[.char 't'], [.char 'r']]
      ∧ d.counts = { hits := 2, misses := 4 }
      ∧ lastServed (readLog (empty policy) crowded) = [[.char 's'], [.char 't'], [.char 'r']]
      ∧ d.counts.hits + d.counts.misses = 6
      ∧ ((d.getCollection [.char 's'] ⟨6000000⟩).1.cache.map Kept.head = [[.char 'r'], [.char 's']])
      ∧ ((d.getCollection [.char 't'] ⟨20000000⟩).1.counts = { hits := 2, misses := 5 })
      ∧ ((d.getCollection [.char 't'] ⟨20000000⟩).1.cache.map Kept.head
        = [[.char 'r'], [.char 't']]) := by
  intro policy d
  obtain ⟨hkeeps, -⟩ := cache_after_deeds policy crowded
  obtain ⟨-, -, -, hcounted, hserved, hexpired⟩ := hkeeps (by decide)
  have hcache : d.cache.map Kept.head = [[.char 't'], [.char 'r']] := by decide +kernel
  have hcounts : d.counts = { hits := 2, misses := 4 } := by decide +kernel
  obtain ⟨c, hc⟩ : ∃ c, (d.getCollection [.char 's'] ⟨6000000⟩).2 = .ok c :=
    exists_ok_of_isOk (by decide +kernel)
  obtain ⟨k, hk, -, hleft⟩ := hserved _ _ c hc
  obtain ⟨old, hold, hhead, hstale⟩ : ∃ old ∈ d.cache, old.head = [.char 't']
      ∧ (⟨20000000⟩ : Clock).seconds.less old.expiresAt = false := by
    decide +kernel
  obtain ⟨hmissed, hrebuilt⟩ := hexpired old hold _ hstale
  rw [hhead] at hmissed hrebuilt
  obtain ⟨c', hc'⟩ : ∃ c, (d.getCollection [.char 't'] ⟨20000000⟩).2 = .ok c :=
    exists_ok_of_isOk (by decide +kernel)
  obtain ⟨-, expiresAt, -, hlast⟩ := hrebuilt c' hc'
  refine ⟨hcache, hcounts, by decide +kernel, ?_, ?_, ?_, ?_⟩
  · rw [hcounted]
    decide +kernel
  · rw [hleft, List.map_append, List.map_singleton, hk]
    decide +kernel
  · rw [hmissed, hcounts]
  · have hothers : (d.others [.char 't']).map Kept.head = [[.char 'r']] := by decide +kernel
    rw [hlast, List.map_append, hothers]
    rfl

end Lineage.Directory
