/-
Lineage.Yaml.Node — the nodes of a YAML document and their values.

A document is read as a whole before any of its scalars is taken for a
value.  First every alias gives way to the node that it names
(`resolved`), and the mappings take over the fields of others that they
name (`settled`).  The values are then formed level by level, so that of
several faults the one at the outermost level counts, and of those the
first.

A node that is named in several places is one value, and may stand within
itself.  So sequences and mappings carry the place where they start in
the document, by which they are known wherever they stand.
-/
import Lineage.Yaml.Scalar

namespace Lineage.Yaml

/-- A node: a scalar without quotes, one in quotes, a sequence, or a
mapping with its keys and values in order, each with its place. -/
inductive Node where
  | plain (cs : List Char)
  | quoted (t : Text)
  | sequence (place : Nat) (items : List Node)
  | mapping (place : Nat) (fields : List (Node × Node))
  /-- A node with a name. -/
  | anchored (name : List Char) (node : Node)
  /-- The node of a name. -/
  | alias (name : List Char)
  /-- The sequence or mapping of a place, within itself. -/
  | again (place : Nat)
  /-- A mapping that takes over fields of something else than
  mappings. -/
  | unmergeable
  deriving Repr

namespace Node

/-- A node that is left out. -/
def absent : Node := .plain []

/-! ## Names -/

/-- The nodes that have a name so far, the last first. -/
abbrev Known := List (List Char × Node)

/-- What stands for a node within itself. -/
def within : Node → Node
  | .sequence place _ => .again place
  | .mapping place _ => .again place
  | node => node

mutual

/-- The node with every alias replaced by what it names; a name is given
once, and before it is used. -/
def resolved (known : Known) : Node → Except Fault (Node × Known)
  | .sequence place items =>
    (resolvedItems known items).map fun (items, known) => (.sequence place items, known)
  | .mapping place fields =>
    (resolvedFields known fields).map fun (fields, known) => (.mapping place fields, known)
  | .anchored name node =>
    if (known.lookup name).isSome then .error .grammar
    else
      (resolved ((name, node.within) :: known) node).map fun (node, known) =>
        (node, (name, node) :: known)
  | .alias name =>
    match known.lookup name with
    | some node => .ok (node, known)
    | none => .error .grammar
  | node => .ok (node, known)

/-- The items of a sequence with every alias replaced. -/
def resolvedItems (known : Known) : List Node → Except Fault (List Node × Known)
  | [] => .ok ([], known)
  | item :: rest =>
    match resolved known item with
    | .error f => .error f
    | .ok (item, known) =>
      (resolvedItems known rest).map fun (rest, known) => (item :: rest, known)

/-- The fields of a mapping with every alias replaced. -/
def resolvedFields (known : Known) :
    List (Node × Node) → Except Fault (List (Node × Node) × Known)
  | [] => .ok ([], known)
  | (key, value) :: rest =>
    match resolved known key with
    | .error f => .error f
    | .ok (key, known) =>
      match resolved known value with
      | .error f => .error f
      | .ok (value, known) =>
        (resolvedFields known rest).map fun (rest, known) => ((key, value) :: rest, known)

end

/-! ## Mappings that take over fields -/

/-- The key marks that fields are taken over. -/
def isMerge : Node → Bool
  | .plain cs => cs = mergeMark
  | _ => false

/-- The fields of the mappings of a list, those of the first last. -/
def fieldsOfAll? : List Node → Option (List (Node × Node))
  | [] => some []
  | .mapping _ fields :: rest => (fieldsOfAll? rest).map (· ++ fields)
  | _ :: _ => none

/-- The fields that are taken over from a node. -/
def takenOver? : Node → Option (List (Node × Node))
  | .mapping _ fields => some fields
  | .sequence _ items => fieldsOfAll? items
  | _ => none

/-- The fields of a mapping: first those taken over, then its own. -/
def gather? : List (Node × Node) → Option (List (Node × Node) × List (Node × Node))
  | [] => some ([], [])
  | (key, value) :: rest =>
    match gather? rest with
    | none => none
    | some (taken, own) =>
      if key.isMerge then (takenOver? value).map fun fields => (fields ++ taken, own)
      else some (taken, (key, value) :: own)

/-- A mapping of fields with the fields that it takes over. -/
def mappingOf (place : Nat) (fields : List (Node × Node)) : Node :=
  match gather? fields with
  | some (taken, own) => .mapping place (taken ++ own)
  | none => .unmergeable

mutual

/-- The node with all mappings in it holding what they take over. -/
def settled : Node → Node
  | .sequence place items => .sequence place (settledItems items)
  | .mapping place fields => mappingOf place (settledFields fields)
  | node => node

/-- The settled items of a sequence. -/
def settledItems : List Node → List Node
  | [] => []
  | item :: rest => settled item :: settledItems rest

/-- The fields of a mapping with settled values. -/
def settledFields : List (Node × Node) → List (Node × Node)
  | [] => []
  | (key, value) :: rest => (key, settled value) :: settledFields rest

end

/-! ## Faults -/

/-- The value of a key, which is to be a scalar. -/
def keyValue : Node → Except Fault Scalar
  | .plain cs => if cs = valueMark then .ok (.text (.ofChars cs)) else scalarValue cs
  | .quoted t => .ok (.text t)
  | _ => .error .grammar

/-- The fault of a result. -/
def faultOf {α : Type} : Except Fault α → List Fault
  | .ok _ => []
  | .error fault => [fault]

mutual

/-- The faults within a node with their levels, in the order of the
document; the node itself stands at the level. -/
def faults (level : Nat) : Node → List (Nat × Fault)
  | .plain cs => (faultOf (scalarValue cs)).map fun fault => (level, fault)
  | .sequence _ items => itemFaults (level + 1) items
  | .mapping _ fields => fieldFaults (level + 1) fields
  | .unmergeable => [(level + 1, .grammar)]
  | _ => []

/-- The faults within the items of a sequence. -/
def itemFaults (level : Nat) : List Node → List (Nat × Fault)
  | [] => []
  | item :: rest => faults level item ++ itemFaults level rest

/-- The faults within the fields of a mapping. -/
def fieldFaults (level : Nat) : List (Node × Node) → List (Nat × Fault)
  | [] => []
  | (key, value) :: rest =>
    ((faultOf key.keyValue).map fun fault => (level, fault))
      ++ faults level value ++ fieldFaults level rest

end

/-- Of two faults with their levels the one that counts. -/
def outer (a b : Nat × Fault) : Nat × Fault :=
  if b.1 < a.1 then b else a

/-- The fault of a node that counts. -/
def fault? (node : Node) : Option Fault :=
  match node.faults 0 with
  | [] => none
  | first :: more => some (more.foldl outer first).2

/-! ## Values -/

/-- The name that a key spells. -/
def name (key : Node) : Scalar :=
  match key.keyValue with
  | .ok s => s
  | .error _ => .null

/-- What refers to the value of a node without faults. -/
def ref : Node → Ref
  | .plain cs =>
    match scalarValue cs with
    | .ok s => .scalar s
    | .error _ => .scalar .null
  | .quoted t => .scalar (.text t)
  | .sequence place _ => .place place
  | .mapping place _ => .place place
  | .again place => .place place
  | _ => .scalar .null

mutual

/-- The sequences and mappings of a node with their places; of a repeated
key the last value counts. -/
def bodies : Node → List (Nat × Body)
  | .sequence place items => (place, .items .list (items.map ref)) :: bodiesOfItems items
  | .mapping place fields =>
    (place, .fields (Keyed.ofPairs (fields.map fun (key, value) => (key.name, value.ref))))
      :: bodiesOfFields fields
  | _ => []

/-- The sequences and mappings of the items of a sequence. -/
def bodiesOfItems : List Node → List (Nat × Body)
  | [] => []
  | item :: rest => bodies item ++ bodiesOfItems rest

/-- The sequences and mappings of the fields of a mapping. -/
def bodiesOfFields : List (Node × Node) → List (Nat × Body)
  | [] => []
  | (_, value) :: rest => bodies value ++ bodiesOfFields rest

end

/-- The value of a node, of which all places are below a bound, or the
fault that counts. -/
def toGraph (bound : Nat) (node : Node) : Except Fault Graph :=
  match resolved [] node with
  | .error fault => .error fault
  | .ok (node, _) =>
    let node := node.settled
    match node.fault? with
    | some fault => .error fault
    | none =>
      let bodies := node.bodies
      let heap : Heap := (List.range bound).map fun place =>
        (bodies.lookup place).getD (.items .list [])
      if h : heap.Sound ∧ node.ref.Within heap.length then .ok ⟨heap, node.ref, h.1, h.2⟩
      else .error .grammar

end Node

end Lineage.Yaml
