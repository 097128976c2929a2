import RangeKeys.Proofs.KeyTree.LeafKeys
import RangeKeys.Proofs.Masking.Aggregation
import RangeKeys.Proofs.Metered.Failures
import RangeKeys.Proofs.SeedNode.Codec

/-!
# Shares are at fault when they arrive, requests afterwards

Whatever bytes are received as a share, either they are refused with an error that blames the share
or they make a tree that has every key it should have. From then on an error is about what was asked
of the tree; no node and no length of a key is to blame any more.
-/

namespace RangeKeys

theorem Share.isBadShare_of_ofNodes {shape : Shape} {nodes : List SeedNode} {e : TreeError}
    (refused : ofNodes shape nodes = .error e) : e.isBadShare = true := by
  rcases ofNodes_eq_error_iff.1 refused with faulty | ⟨-, rfl⟩ | ⟨-, head, tail, -, broken⟩
  · obtain ⟨node, -, fault⟩ := List.exists_of_findSome?_eq_some faulty
    simp only [SeedNode.fault?] at fault
    split at fault
    · injection fault with fault
      rw [← fault]
      rfl
    · split at fault
      · injection fault with fault
        rw [← fault]
        rfl
      · cases fault
  · rfl
  · obtain ⟨_, _, _, _, -, -, -, rfl⟩ := SeedNode.lastLeaf_eq_error broken
    rfl

/-- The error blames what was asked of a tree: no share and no cipher is at fault. -/
structure TreeError.OfRequest (e : TreeError) : Prop where
  not_bad_share : e.isBadShare = false
  not_cipher : ∀ inner, e ≠ .cipher inner

open TreeError (OfRequest)
open Attempt (FailsOnly)

namespace Cipher

variable (cipher : Cipher)

/-- The seeds of a boundary have the right length, so a word is always found. -/
theorem failsOnly_withWords (operation : UInt64 → UInt64 → UInt64 → UInt64)
    (boundary : Key × Key) (series : Series) (value : UInt64) :
    FailsOnly OfRequest (cipher.withWords operation boundary series value) := by
  intro e failed
  rw [outcome_withWords] at failed
  cases failed

theorem failsOnly_withWordsBatch (operation : UInt64 → UInt64 → UInt64 → UInt64)
    (boundary : Key × Key) (values : List (UInt64 × UInt64)) :
    FailsOnly OfRequest (cipher.withWordsBatch operation boundary values) :=
  .mapM fun (id, value) => cipher.failsOnly_withWords operation boundary (.metadata id) value

end Cipher

namespace KeyTree

variable (tree : KeyTree)

theorem failsOnly_between (first last : UInt64) :
    FailsOnly OfRequest (liftM (LeafRange.between first last) : Attempt TreeError LeafRange) := by
  refine .liftExcept fun e failed => ?_
  rcases Nat.lt_or_ge last.toNat first.toNat with lt | le
  · rw [LeafRange.between_of_lt lt] at failed
    injection failed with failed
    exact failed ▸ ⟨rfl, nofun⟩
  · rw [LeafRange.between_of_le le] at failed
    cases failed

theorem ofRequest_outOfRange (leaf : UInt64) : (tree.outOfRange leaf).OfRequest :=
  ⟨rfl, nofun⟩

theorem failsOnly_checkHeld (leaf : UInt64) :
    FailsOnly OfRequest (liftM (tree.checkHeld leaf) : Attempt TreeError Unit) := by
  refine .liftExcept fun e failed => ?_
  by_cases held : leaf.toNat ∈ tree.interval
  · rw [checkHeld_eq_ok held] at failed
    cases failed
  · rw [checkHeld_eq_error held] at failed
    injection failed with failed
    exact failed ▸ tree.ofRequest_outOfRange leaf

theorem failsOnly_seed (leaf : UInt64) : FailsOnly OfRequest (tree.seed leaf) := by
  refine (tree.failsOnly_checkHeld leaf).bind fun _ => ?_
  split
  · exact .liftMetered _
  · exact .throw (tree.ofRequest_outOfRange leaf)

theorem failsOnly_seedsIn (memory : Memory) (first last : UInt64) :
    FailsOnly OfRequest (tree.seedsIn memory first last) := by
  refine (failsOnly_between first last).bind fun range =>
    (tree.failsOnly_checkHeld first).bind fun _ => (tree.failsOnly_checkHeld last).bind fun _ => ?_
  split
  · exact .liftMetered _
  · exact .throw ⟨rfl, nofun⟩

theorem failsOnly_reveal (first last : UInt64) :
    FailsOnly OfRequest (tree.reveal first last) := by
  unfold reveal
  split
  · exact .throw ⟨rfl, nofun⟩
  · exact (failsOnly_between first last).bind fun range =>
      (tree.failsOnly_checkHeld last).bind fun _ => .liftMetered _

theorem failsOnly_boundarySeeds (first last : UInt64) :
    FailsOnly OfRequest (tree.boundarySeeds first last) := by
  refine (failsOnly_between first last).bind fun range => ?_
  split
  · exact .throw (tree.ofRequest_outOfRange last)
  · exact (tree.failsOnly_seed first).bind fun _ =>
      (tree.failsOnly_seed (last + 1)).bind fun _ => .pure _

theorem failsOnly_encrypt (series : Series) (value time : UInt64) :
    FailsOnly OfRequest (tree.encrypt series value time) :=
  (tree.failsOnly_boundarySeeds time time).bind fun boundary =>
    tree.cipher.failsOnly_withWords mask boundary series value

theorem failsOnly_decrypt (series : Series) (masked first last : UInt64) :
    FailsOnly OfRequest (tree.decrypt series masked first last) :=
  (tree.failsOnly_boundarySeeds first last).bind fun boundary =>
    tree.cipher.failsOnly_withWords unmask boundary series masked

theorem failsOnly_encryptBatch (values : List (UInt64 × UInt64)) (time : UInt64) :
    FailsOnly OfRequest (tree.encryptBatch values time) :=
  (tree.failsOnly_boundarySeeds time time).bind fun boundary =>
    tree.cipher.failsOnly_withWordsBatch mask boundary values

theorem failsOnly_decryptBatch (values : List (UInt64 × UInt64)) (first last : UInt64) :
    FailsOnly OfRequest (tree.decryptBatch values first last) :=
  (tree.failsOnly_boundarySeeds first last).bind fun boundary =>
    tree.cipher.failsOnly_withWordsBatch unmask boundary values

/-! ## Received bytes -/

theorem decodeList_ok_or_bad_share (bytes : List UInt8) :
    (∃ nodes, SeedNode.decodeList bytes = .ok nodes) ∨
      ∃ e, SeedNode.decodeList bytes = .error e ∧ e.isBadShare = true := by
  by_cases whole : SeedNode.encodedSize ∣ bytes.length
  · obtain ⟨count, length_eq⟩ := whole
    obtain ⟨nodes, nodes_eq⟩ := SeedNode.exists_encodeList_eq length_eq
    exact .inl ⟨nodes, SeedNode.decodeList_eq_ok_iff.2 nodes_eq⟩
  · exact .inr ⟨_, SeedNode.decodeList_of_not_dvd whole, rfl⟩

/-- Bytes that are received as a share are refused as a bad share, or they make a receiver's tree
with an interval of leaves of the tree and the key of each of them. Whoever holds a tree, an error
of its operations never blames a share or a cipher. -/
theorem shares_fail_only_on_arrival (cipher : Cipher) (config : TreeConfig)
    (valid : config.Valid) :
    (∀ bytes : List UInt8,
      (∃ e, SeedNode.decodeList bytes >>= receiver cipher config = .error e ∧
        e.isBadShare = true) ∨
      ∃ tree, SeedNode.decodeList bytes >>= receiver cipher config = .ok tree ∧
        tree.isOwner = false ∧ tree.interval.first ≤ tree.interval.last ∧
        tree.interval.last < config.fanout.toNat ^ config.depth.toNat ∧
        ∀ leaf : UInt64, leaf.toNat ∈ tree.interval →
          ∃ key, (tree.seed leaf).outcome = .ok key) ∧
    ∀ tree : KeyTree,
      (∀ leaf, FailsOnly OfRequest (tree.seed leaf)) ∧
      (∀ first last, FailsOnly OfRequest (tree.seeds first last)) ∧
      (∀ memory first last, FailsOnly OfRequest (tree.seedsIn memory first last)) ∧
      (∀ first last, FailsOnly OfRequest (tree.reveal first last)) ∧
      (∀ series value time, FailsOnly OfRequest (tree.encrypt series value time)) ∧
      (∀ series masked first last, FailsOnly OfRequest (tree.decrypt series masked first last)) ∧
      (∀ values time, FailsOnly OfRequest (tree.encryptBatch values time)) ∧
      ∀ values first last, FailsOnly OfRequest (tree.decryptBatch values first last) := by
  constructor
  · intro bytes
    rcases decodeList_ok_or_bad_share bytes with ⟨nodes, decoded⟩ | ⟨e, refused, bad_share⟩
    · rw [decoded, except_ok_bind]
      rcases except_eq_ok_or_error (receiver cipher config nodes) with ⟨tree, made⟩ | ⟨e, refused⟩
      · obtain ⟨valid', share, -, rfl⟩ := receiver_eq_ok_iff.1 made
        refine .inr ⟨_, made, rfl, LeafRange.first_le_last _, last_lt_leafCount _, ?_⟩
        intro leaf held
        obtain ⟨_, _, _, -, -, -, -, derived⟩ := exists_outcome_seed held
        exact ⟨_, derived⟩
      · exact .inl ⟨e, refused,
          Share.isBadShare_of_ofNodes (receiver_eq_error_of_valid valid refused)⟩
    · rw [refused, except_error_bind]
      exact .inl ⟨e, rfl, bad_share⟩
  · intro tree
    exact ⟨tree.failsOnly_seed, tree.failsOnly_seedsIn .addressable, tree.failsOnly_seedsIn,
      tree.failsOnly_reveal, tree.failsOnly_encrypt, tree.failsOnly_decrypt,
      tree.failsOnly_encryptBatch, tree.failsOnly_decryptBatch⟩

theorem node_below_leaves_is_a_bad_share :
    let config : TreeConfig := { depth := 3 }
    let node : SeedNode := ⟨⟨Vector.replicate 16 0⟩, 4, 0⟩
    config.Valid ∧
    ∃ e, SeedNode.decodeList node.encode.toList >>= receiver .aes config = .error e ∧
      e.isBadShare = true := by
  intro config node
  have valid : config.Valid := ⟨by decide, by decide, by decide⟩
  refine ⟨valid, ?_⟩
  rcases (shares_fail_only_on_arrival .aes config valid).1 node.encode.toList with
    refused | ⟨tree, made, -⟩
  · exact refused
  · have decoded : SeedNode.decodeList node.encode.toList = .ok [node] :=
      SeedNode.decodeList_eq_ok_iff.2 (List.append_nil _)
    rw [decoded, except_ok_bind] at made
    obtain ⟨valid, share, accepted, -⟩ := receiver_eq_ok_iff.1 made
    rw [Share.ofNodes_of_faulty (e := .nodeTooDeep 4 3) rfl] at accepted
    cases accepted

end KeyTree

end RangeKeys
