/-
Lineage.Directory — a store of group records that answers collections
through a bounded cache.

Records are kept in the order in which their short ids were first
stored; `referrers` indexes, for every listed short id, the stored
groups that list it.  A kept collection is served until it expires or a
group that may belong to it changes; the least recently served one gives
way when the cache is full.  Every operation is a function from the
store to the store and an answer, so what an operation leaves alone is
visible in its definition.
-/
import Lineage.Config.Policy
import Lineage.Clock
import Lineage.Group.Attach
import Lineage.Hierarchy.View

namespace Lineage

/-- A kept collection, under the short id of its head. -/
structure Kept where
  head : Text
  collection : Collection Group
  expiresAt : Double

/-- How often the cache answered, had to build, and was flushed. -/
structure CacheCounts where
  hits : Nat := 0
  misses : Nat := 0
  flushes : Nat := 0
  deriving DecidableEq, Repr

/-- A store of records with its cache, the least recently served
collection first. -/
structure Directory where
  policy : GroupPolicy
  records : Keyed Text Group := []
  referrers : Keyed Text (List Text) := []
  cache : List Kept := []
  counts : CacheCounts := {}

/-- Why an operation of the store fails. -/
inductive DirectoryFault where
  | hierarchy (fault : HierarchyFault)
  | rejected (rejection : Schema.Rejection)
  /-- The time of expiry is no double. -/
  | expiryOverflow
  deriving DecidableEq, Repr

namespace Directory

/-- A store without records. -/
def empty (policy : GroupPolicy) : Directory :=
  { policy := policy }

/-- The number of stored records. -/
def size (d : Directory) : Nat :=
  d.records.length

/-- A record is stored under the short id. -/
def has (d : Directory) (shortId : Text) : Bool :=
  d.records.has shortId

/-! ## The index of references -/

/-- Enters a referrer of a short id. -/
def addReferrer (index : Keyed Text (List Text)) (referrer listed : Text) :
    Keyed Text (List Text) :=
  let known := (index.get? listed).getD []
  if known.contains referrer then index else index.put listed (known ++ [referrer])

/-- Removes a referrer of a short id, and an entry without referrers. -/
def dropReferrer (index : Keyed Text (List Text)) (referrer listed : Text) :
    Keyed Text (List Text) :=
  match index.get? listed with
  | none => index
  | some known =>
    match known.filter (· ≠ referrer) with
    | [] => index.remove listed
    | left => index.put listed left

/-- Enters a record under everything it lists. -/
def enterReferences (index : Keyed Text (List Text)) (g : Group) : Keyed Text (List Text) :=
  g.references.foldl (fun index listed => addReferrer index g.shortId listed) index

/-- Removes a record from everything it lists. -/
def leaveReferences (index : Keyed Text (List Text)) (g : Group) : Keyed Text (List Text) :=
  g.references.foldl (fun index listed => dropReferrer index g.shortId listed) index

/-! ## The cache -/

/-- The kept collection of a head. -/
def kept? (d : Directory) (head : Text) : Option Kept :=
  d.cache.find? fun k => k.head = head

/-- Drops the collection of a head, if one is kept. -/
def flushHead (d : Directory) (head : Text) : Directory :=
  match d.kept? head with
  | none => d
  | some _ =>
    { d with
      cache := d.cache.filter fun k => k.head ≠ head
      counts := { d.counts with flushes := d.counts.flushes + 1 } }

/-- Drops every collection that may contain a group: its own and those
of the groups it lists. -/
def flush (d : Directory) (g : Group) : Directory :=
  (g.shortId :: g.references).foldl flushHead d

/-- Makes a kept collection the most recently served one. -/
def serve (d : Directory) (k : Kept) : Directory :=
  { d with cache := d.cache.filter (fun other => other.head ≠ k.head) ++ [k] }

/-- Drops the least recently served collections beyond the size of the
cache. -/
def evict (d : Directory) : Directory :=
  { d with cache := d.cache.drop (d.cache.length - d.policy.cacheMaxSize.toNat) }

/-! ## Records -/

/-- Stores a record in place of the one with its short id; a virtual
record is not stored. -/
def upsert (d : Directory) (g : Group) : Directory :=
  if g.virtual then d
  else
    let d := match d.records.get? g.shortId with
      | none => d
      | some previous =>
        { d with referrers := leaveReferences d.referrers previous }.flush previous
    { d with
      records := d.records.put g.shortId g
      referrers := enterReferences d.referrers g }.flush g

/-- Stores records one after the other. -/
def upsertAll (d : Directory) (gs : List Group) : Directory :=
  gs.foldl upsert d

/-- The record of a short id. -/
def get (d : Directory) (shortId : Text) : Except HierarchyFault Group :=
  match d.records.get? shortId with
  | some g => .ok g
  | none => .error (.unknownGroup shortId)

/-- The record of a short id and all that list it, in the order in which
their short ids were first stored. -/
def membersOf (d : Directory) (shortId : Text) : List Group :=
  let listing := (d.referrers.get? shortId).getD []
  Keyed.values (d.records.filter fun r => r.1 == shortId || listing.contains r.1)

/-! ## Collections -/

/-- A collection of the members of a hierarchy, without the cache. -/
def buildCollection (d : Directory) (shortId : Text) :
    Except HierarchyFault (Collection Group) :=
  match d.membersOf shortId with
  | [] => .error (.noMembers shortId)
  | members =>
    match members.find? (fun g => g.shortId = shortId) with
    | none => .error (.headless shortId)
    | some head =>
      let others := members.filter fun g => g.shortId ≠ shortId
      .ok ((⟨shortId, head, [], d.policy.maxDepth⟩ : Collection Group).addAll others).1

/-- The kept collection of a head at a time, unless it has expired. -/
def fresh? (d : Directory) (head : Text) (now : Clock) : Option Kept :=
  (d.kept? head).filter fun k => now.seconds.less k.expiresAt

/-- The time at which a collection built now expires. -/
def expiry? (d : Directory) (now : Clock) : Option Double :=
  match Double.ofInt d.policy.cacheExpirationSeconds with
  | .finite negative m e => some (now.seconds.add (.finite negative m e))
  | _ => none

/-- A collection of the members of a hierarchy, from the cache where it
keeps one that has not expired. -/
def getCollection (d : Directory) (head : Text) (now : Clock) :
    Directory × Except DirectoryFault (Collection Group) :=
  if d.policy.cacheMaxSize = 0 then
    (d, (d.buildCollection head).mapError .hierarchy)
  else
    match d.fresh? head now with
    | some k =>
      ({ d with counts := { d.counts with hits := d.counts.hits + 1 } }.serve k, .ok k.collection)
    | none =>
      let d := { d with counts := { d.counts with misses := d.counts.misses + 1 } }
      match d.buildCollection head with
      | .error fault => (d, .error (.hierarchy fault))
      | .ok c =>
        match d.expiry? now with
        | none => (d, .error .expiryOverflow)
        | some expiresAt => ((d.serve ⟨head, c, expiresAt⟩).evict, .ok c)

/-! ## Changes -/

/-- Attaches a stored group under another one and stores the result. -/
def attach (d : Directory) (child parent : Text) (now : Clock) :
    Directory × Except DirectoryFault Group :=
  match d.get child with
  | .error fault => (d, .error (.hierarchy fault))
  | .ok c =>
    match d.get parent with
    | .error fault => (d, .error (.hierarchy fault))
    | .ok p =>
      match c.attachUnder p d.policy.maxDepth now.stamp with
      | .refused fault => (d, .error (.hierarchy fault))
      | .stampRefused _ rejection => (d, .error (.rejected rejection))
      | .attached c => (d.upsert c, .ok c)

/-- Marks a stored group as deleted and stores the result. -/
def deactivate (d : Directory) (shortId : Text) (now : Clock) :
    Directory × Except DirectoryFault Group :=
  match d.get shortId with
  | .error fault => (d, .error (.hierarchy fault))
  | .ok g =>
    match (({ g with active := false }).setField .deletionMs (.int now.stamp)).toExcept .group with
    | .error rejection => (d, .error (.rejected rejection))
    | .ok g => (d.upsert g, .ok g)

/-! ## Display -/

/-- The view of one head, with annotations. -/
def displayOne (d : Directory) (acls : List Acl) (now : Clock) (head : Text) :
    Directory × Except DirectoryFault View :=
  match d.getCollection head now with
  | (d, .error (.hierarchy fault)) => (d, .error (.hierarchy (.notProduced head fault)))
  | (d, .error fault) => (d, .error fault)
  | (d, .ok c) =>
    match View.ofCollection c with
    | .error fault => (d, .error (.hierarchy (.notProduced head fault)))
    | .ok view => (d, .ok (view.enrich acls))

/-- The views of all heads, or the fault of the first head that has
none. -/
def display (acls : List Acl) (now : Clock) :
    Directory → List Text → Directory × Except DirectoryFault (List View)
  | d, [] => (d, .ok [])
  | d, head :: rest =>
    match d.displayOne acls now head with
    | (d, .error fault) => (d, .error fault)
    | (d, .ok view) =>
      match display acls now d rest with
      | (d, .error fault) => (d, .error fault)
      | (d, .ok views) => (d, .ok (view :: views))

end Directory

end Lineage
