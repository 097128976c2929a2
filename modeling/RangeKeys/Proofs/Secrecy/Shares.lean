import Mathlib.Data.List.Forall2
import RangeKeys.Masking
import RangeKeys.Proofs.Secrecy.Alike
import RangeKeys.Proofs.Share.Acceptance

/-!
# Shares are judged by places

Keys of one length are taken or refused alike, and what is derived from them costs the same calls.
The nodes of a share are checked, put in order and joined by their places alone, and the node above
a leaf is searched for by the leaves below the nodes. So the seeds decide nothing.
-/

namespace RangeKeys

open Metered (Alike)

/-! ## Keys -/

namespace Key

theorem endsAlike_ofBytes {bytes bytes' : List UInt8} (h : bytes.length = bytes'.length) :
    EndsAlike Unseen (ofBytes bytes) (ofBytes bytes') := by
  rw [ofBytes, ofBytes, Part.check, Part.check]
  by_cases sized : bytes.length = Part.key.size
  · have sized' : bytes'.length = Part.key.size := h ▸ sized
    rw [Bytes.sized?, dif_pos sized, Bytes.sized?, dif_pos sized']
    exact .ok trivial
  · have sized' : bytes'.length ≠ Part.key.size := h ▸ sized
    rw [Bytes.sized?, dif_neg sized, Bytes.sized?, dif_neg sized', h]
    exact .error _

theorem length_toList_bytes (key key' : Key) :
    key.bytes.toList.length = key'.bytes.toList.length := by
  simp

end Key

namespace Cipher

variable (cipher : Cipher) {seed seed' : Key}

theorem alike_child (seed seed' : Key) (index : UInt32) :
    Alike Unseen (cipher.child seed index) (cipher.child seed' index) :=
  ⟨trivial, rfl⟩

theorem alike_descend (seed seed' : Key) (path : List UInt32) :
    Alike Unseen (cipher.descend seed path) (cipher.descend seed' path) :=
  ⟨trivial, by rw [calls_descend, calls_descend]⟩

theorem alike_word (seed seed' : Key) (block : Block) :
    Alike Unseen (cipher.word seed block) (cipher.word seed' block) :=
  ⟨trivial, by simp [word]⟩

theorem alike_childOfBytes {bytes bytes' : List UInt8} (h : bytes.length = bytes'.length)
    (index : UInt32) :
    Attempt.Alike Unseen (cipher.childOfBytes bytes index) (cipher.childOfBytes bytes' index) := by
  refine (Attempt.Alike.liftExcept (Key.endsAlike_ofBytes h)).bind fun seed seed' _ => ?_
  rw [limitedChild, limitedChild]
  by_cases beyond : maxChildIndex < index.toNat
  · rw [if_pos beyond, if_pos beyond]
    exact .throw _
  · rw [if_neg beyond, if_neg beyond]
    exact .liftMetered (cipher.alike_child seed seed' index)

theorem alike_childRun (seed seed' : Key) (first last : Nat) :
    Alike (List.Forall₂ Unseen) (cipher.childRun seed first last)
      (cipher.childRun seed' first last) :=
  .mapM_same fun branch => cipher.alike_child seed seed' (UInt32.ofNat branch)

theorem alike_nextLevel (fanout last : Nat) {level level' : List Key}
    (h : List.Forall₂ Unseen level level') (first : Nat) :
    Alike (List.Forall₂ Unseen) (cipher.nextLevel fanout last first level)
      (cipher.nextLevel fanout last first level') := by
  induction h generalizing first with
  | nil => exact .pure .nil
  | @cons seed seed' level level' _ rest ih =>
    cases rest with
    | nil => exact cipher.alike_childRun seed seed' first last
    | cons _ _ =>
      exact (cipher.alike_childRun seed seed' first (fanout - 1)).bind fun _ _ children =>
        (ih 0).bind fun _ _ others => .pure (List.rel_append children others)

theorem alike_expand (fanout : Nat) (branches : List (Nat × Nat)) {level level' : List Key}
    (h : List.Forall₂ Unseen level level') :
    Alike (List.Forall₂ Unseen) (cipher.expand fanout branches level)
      (cipher.expand fanout branches level') := by
  induction branches generalizing level level' with
  | nil => exact .pure h
  | cons branch branches ih =>
    exact (cipher.alike_nextLevel fanout branch.2 h branch.1).bind fun _ _ next => ih next

theorem alike_seriesWord (seed seed' : Key) (series : Series) :
    Attempt.Alike Unseen (cipher.seriesWord seed series) (cipher.seriesWord seed' series) := by
  rw [seriesWord_eq, seriesWord_eq]
  exact .liftMetered (cipher.alike_word seed seed' series.block)

theorem alike_withWords (operation : UInt64 → UInt64 → UInt64 → UInt64)
    (boundary boundary' : Key × Key) (series : Series) (value value' : UInt64) :
    Attempt.Alike Unseen (cipher.withWords operation boundary series value)
      (cipher.withWords operation boundary' series value') :=
  ((cipher.alike_seriesWord ..).adapt _).bind fun _ _ _ =>
    ((cipher.alike_seriesWord ..).adapt _).bind fun _ _ _ => .pure trivial

/-- The values of a batch may differ, their ids may not. -/
theorem alike_withWordsBatch (operation : UInt64 → UInt64 → UInt64 → UInt64)
    (boundary boundary' : Key × Key) {values values' : List (UInt64 × UInt64)}
    (h : List.Forall₂ (fun a b => a.1 = b.1) values values') :
    Attempt.Alike (List.Forall₂ Unseen) (cipher.withWordsBatch operation boundary values)
      (cipher.withWordsBatch operation boundary' values') :=
  .mapM h fun (_, _) (_, _) same => by
    obtain rfl := same
    exact cipher.alike_withWords ..

end Cipher

/-! ## Nodes and shares -/

namespace SeedNode

variable {shape : Shape} {nodes nodes' : List SeedNode}

/-- Nodes at the same place, whatever their seeds. -/
def SamePlace (a b : SeedNode) : Prop :=
  a.position = b.position

theorem forall₂_samePlace_iff :
    List.Forall₂ SamePlace nodes nodes' ↔ nodes.map position = nodes'.map position := by
  rw [← List.forall₂_eq_eq_eq, List.forall₂_map_left_iff, List.forall₂_map_right_iff]
  rfl

theorem SamePlace.symm_list (h : List.Forall₂ SamePlace nodes nodes') :
    List.Forall₂ SamePlace nodes' nodes :=
  forall₂_samePlace_iff.2 (forall₂_samePlace_iff.1 h).symm

theorem SamePlace.leaves_eq {a b : SeedNode} (h : SamePlace a b) (shape : Shape) :
    a.leaves shape = b.leaves shape :=
  congrArg (Position.leaves shape) h

theorem SamePlace.description_eq {a b : SeedNode} (h : SamePlace a b) :
    a.description = b.description := by
  injection h with depth_eq number_eq
  rw [description, description, depth_eq, number_eq]
  rfl

theorem map_description_eq (h : List.Forall₂ SamePlace nodes nodes') :
    nodes.map description = nodes'.map description := by
  induction h with
  | nil => rfl
  | cons same _ ih => rw [List.map_cons, List.map_cons, same.description_eq, ih]

theorem fault?_eq_of_samePlace {a b : SeedNode} (h : SamePlace a b) :
    a.fault? shape = b.fault? shape := by
  rw [fault?, fault?, h]

theorem findSome?_fault?_eq (h : List.Forall₂ SamePlace nodes nodes') :
    nodes.findSome? (·.fault? shape) = nodes'.findSome? (·.fault? shape) := by
  induction h with
  | nil => rfl
  | cons same _ ih => rw [List.findSome?_cons, List.findSome?_cons, fault?_eq_of_samePlace same, ih]

/-- Nodes are put in order by their places alone. -/
theorem samePlace_sortByLeaf (shape : Shape) (h : List.Forall₂ SamePlace nodes nodes') :
    List.Forall₂ SamePlace (sortByLeaf shape nodes) (sortByLeaf shape nodes') := by
  have sorted (nodes : List SeedNode) : (sortByLeaf shape nodes).map position =
      (nodes.map position).mergeSort fun a b =>
        (a.leaves shape).first ≤ (b.leaves shape).first :=
    List.map_mergeSort fun _ _ _ _ => rfl
  rw [forall₂_samePlace_iff] at h ⊢
  rw [sorted, sorted, h]

theorem lastLeaf_eq_of_samePlace (h : List.Forall₂ SamePlace nodes nodes') (last : Nat) :
    lastLeaf shape last nodes = lastLeaf shape last nodes' := by
  induction h generalizing last with
  | nil => rfl
  | cons same _ ih => rw [lastLeaf, lastLeaf, same.leaves_eq, ih]

end SeedNode

namespace Share

open SeedNode

variable {shape : Shape} {nodes nodes' : List SeedNode}

theorem interval_eq {share share' : Share shape}
    (h : List.Forall₂ SamePlace share.nodes share'.nodes) : share.interval = share'.interval := by
  have leaves_eq : share.nodes.map (leaves shape) = share'.nodes.map (leaves shape) := by
    rw [map_leaves, map_leaves, forall₂_samePlace_iff.1 h]
  have partition := share.partition
  rw [leaves_eq] at partition
  exact partition.eq_whole share'.partition

theorem ofNodes_eq_error_of_samePlace {e : TreeError} (h : List.Forall₂ SamePlace nodes nodes')
    (refused : ofNodes shape nodes = .error e) : ofNodes shape nodes' = .error e := by
  rw [ofNodes_eq_error_iff] at refused ⊢
  rw [← findSome?_fault?_eq h]
  rcases refused with faulty | ⟨rfl, rfl⟩ | ⟨faultless, head, tail, sorted, broken⟩
  · exact .inl faulty
  · exact .inr (.inl ⟨List.forall₂_nil_left_iff.1 h, rfl⟩)
  · have same := samePlace_sortByLeaf shape h
    rw [sorted] at same
    obtain ⟨head', tail', head_same, tail_same, sorted'⟩ := List.forall₂_cons_left_iff.1 same
    refine .inr (.inr ⟨faultless, head', tail', sorted', ?_⟩)
    rw [← head_same.leaves_eq, ← lastLeaf_eq_of_samePlace tail_same, broken]

/-- Nodes at the same places make shares of nodes at the same places, or are refused alike. -/
theorem endsAlike_ofNodes (h : List.Forall₂ SamePlace nodes nodes') :
    EndsAlike (fun share share' => List.Forall₂ SamePlace share.nodes share'.nodes)
      (ofNodes shape nodes) (ofNodes shape nodes') := by
  cases made : ofNodes shape nodes with
  | error e =>
    rw [ofNodes_eq_error_of_samePlace h made]
    exact .error e
  | ok share =>
    cases made' : ofNodes shape nodes' with
    | error e =>
      rw [ofNodes_eq_error_of_samePlace (SamePlace.symm_list h) made'] at made
      cases made
    | ok share' =>
      refine .ok ?_
      rw [(ofNodes_eq_ok_iff.1 made).2, (ofNodes_eq_ok_iff.1 made').2]
      exact samePlace_sortByLeaf shape h

/-- The nodes found above a leaf stand at the same place. -/
theorem rel_covering? {share share' : Share shape}
    (h : List.Forall₂ SamePlace share.nodes share'.nodes) (leaf : Nat) :
    Option.Rel SamePlace (share.covering? leaf) (share'.covering? leaf) := by
  have by_place (share : Share shape) : share.covering? leaf =
      share.nodes[partitionPoint (fun p => (p.leaves shape).last < leaf)
        (share.nodes.map position)]? := by
    rw [covering?, partitionPoint_map]
    rfl
  rw [by_place, by_place, forall₂_samePlace_iff.1 h]
  exact optionRel_getElem? h _

end Share

end RangeKeys
