import RangeKeys.Tree.Bisection
import RangeKeys.Tree.SeedNode

/-!
# Shares of a tree

A share is a list of seed nodes that exist in the tree and cover an interval of leaves one
after the other, without gap or overlap. Shared nodes may arrive in any order; they are put
in the order of their leaves and refused if they leave a leaf out or cover one twice.
-/

namespace RangeKeys

namespace SeedNode

/-- The leaves below the node. -/
def leaves (shape : Shape) (node : SeedNode) : LeafRange :=
  node.position.leaves shape

/-- Why the tree has no such node, if it has none. -/
def fault? (shape : Shape) (node : SeedNode) : Option TreeError :=
  let p := node.position
  if shape.depth < p.depth then
    some (.nodeTooDeep p.depth shape.depth)
  else if shape.descendants p.depth ≤ p.number then
    some (.nodeOutOfTree p.depth p.number)
  else
    none

theorem fault?_eq_none_iff {shape : Shape} {node : SeedNode} :
    node.fault? shape = none ↔ node.position.Exists shape := by
  simp only [fault?, Position.Exists]
  split
  · simp; omega
  · split <;> simp <;> omega

/-- The nodes in the order of their first leaves. -/
def sortByLeaf (shape : Shape) (nodes : List SeedNode) : List SeedNode :=
  nodes.mergeSort fun a b => (a.leaves shape).first ≤ (b.leaves shape).first

/-- The nodes cover the leaves from `start` up to, but without, `stop`, one after the other. -/
def Tiles (shape : Shape) : (start : Nat) → List SeedNode → (stop : Nat) → Prop
  | start, [], stop => start = stop
  | start, node :: nodes, stop =>
    (node.leaves shape).first = start ∧ Tiles shape ((node.leaves shape).last + 1) nodes stop

/-- The last leaf that is covered if the nodes go on from the leaf `last`, each starting at the leaf
after the node before it. -/
def lastLeaf (shape : Shape) : (last : Nat) → List SeedNode → Except TreeError Nat
  | last, [] => .ok last
  | last, node :: nodes =>
    let leaves := node.leaves shape
    if leaves.first = last + 1 then
      lastLeaf shape leaves.last nodes
    else
      .error (.nonContiguousNodes (last + 1) leaves.first)

theorem lastLeaf_eq_ok {shape : Shape} {last final : Nat} {nodes : List SeedNode}
    (h : lastLeaf shape last nodes = .ok final) :
    last ≤ final ∧ Tiles shape (last + 1) nodes (final + 1) := by
  induction nodes generalizing last with
  | nil =>
    injection h with h
    exact ⟨Nat.le_of_eq h, congrArg (· + 1) h⟩
  | cons node nodes ih =>
    simp only [lastLeaf] at h
    split at h
    · rename_i hfirst
      have hle := (node.leaves shape).first_le_last
      obtain ⟨hlast, htiles⟩ := ih h
      exact ⟨by omega, hfirst, htiles⟩
    · cases h

end SeedNode

/-- Nodes of a tree that cover an interval of its leaves. -/
structure Share (shape : Shape) where
  nodes : List SeedNode
  interval : LeafRange
  exist : ∀ node ∈ nodes, node.position.Exists shape
  tiles : SeedNode.Tiles shape interval.first nodes (interval.last + 1)

namespace Share

variable {shape : Shape}

/-- The root with its key, which covers every leaf. -/
def whole (shape : Shape) (seed : Key) : Share shape where
  nodes := [⟨seed, 0, 0⟩]
  interval := Position.root.leaves shape
  exist := by
    intro node h
    rw [List.mem_singleton.1 h]
    exact ⟨Nat.zero_le _, shape.descendants_pos _⟩
  tiles := ⟨rfl, rfl⟩

/-- The share that consists of the nodes, given in any order: the checks that `receiver` makes. -/
def ofNodes (shape : Shape) (nodes : List SeedNode) : Except TreeError (Share shape) :=
  match faultless : nodes.findSome? (·.fault? shape) with
  | some e => .error e
  | none =>
    match sorted : SeedNode.sortByLeaf shape nodes with
    | [] => .error .emptyNodeSet
    | head :: tail =>
      match joined : SeedNode.lastLeaf shape (head.leaves shape).last tail with
      | .error e => .error e
      | .ok last =>
        have goesOn := SeedNode.lastLeaf_eq_ok joined
        .ok {
          nodes := head :: tail
          interval := ⟨(head.leaves shape).first, last,
            Nat.le_trans (head.leaves shape).first_le_last goesOn.1⟩
          exist := by
            intro node h
            rw [← sorted] at h
            exact SeedNode.fault?_eq_none_iff.1
              (List.findSome?_eq_none_iff.1 faultless node (List.mem_mergeSort.1 h))
          tiles := ⟨rfl, goesOn.2⟩
        }

/-- The first node that does not end before the leaf, found by halving (`covering_node`). -/
def covering? (share : Share shape) (leaf : Nat) : Option SeedNode :=
  share.nodes[partitionPoint (fun node => (node.leaves shape).last < leaf) share.nodes]?

end Share

end RangeKeys
