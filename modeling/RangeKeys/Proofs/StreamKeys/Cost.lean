import RangeKeys.Proofs.Masking.Cost
import RangeKeys.Proofs.StreamKeys.OtherCipher
import RangeKeys.Proofs.StreamKeys.Paths

/-!
# What every operation costs

Making a tree asks nothing of the cipher. The master of a stream is split by three ways of two
levels each, and a sharing tree takes one step, before it is known whether a tree of the wanted
depth can be made. Together with the costs of keys, grants and masks this counts the calls of all
operations that derive, and none of them ever seals or opens a block.
-/

namespace RangeKeys

open Attempt (Costs)

/-- A single step is one call if its index is within the limit. -/
theorem Cipher.calls_childOfBytes (cipher : Cipher) (key : Key) (index : UInt32) :
    (cipher.childOfBytes key.bytes.toList index).calls =
      .ofEncryptions (if index.toNat ≤ maxChildIndex then 1 else 0) := by
  rw [childOfBytes_toList]
  by_cases within : index.toNat ≤ maxChildIndex
  · rw [limitedChild_of_le _ _ within, if_pos within]
    exact Attempt.calls_liftMetered _
  · rw [limitedChild_of_lt _ _ (Nat.lt_of_not_le within), if_neg within]
    rfl

namespace StreamKeys

/-- The three keys below the master are two steps away from it each. -/
theorem calls_seed_split (cipher : Cipher) (top : Key) (role : StreamRole) :
    (KeyTree.seed ⟨cipher, valid_split.shape, .root top⟩ role.leaf).calls =
      .ofEncryptions 2 := by
  rw [KeyTree.calls_seed, KeyTree.levelsTo_owner cipher valid_split.shape top role.leaf_lt]
  rfl

/-- Whether the key tree can be made is found out last. -/
theorem calls_owner (cipher : Cipher) (depth : UInt16) (master : List UInt8) :
    (owner cipher depth master).calls = .ofEncryptions (if master.length = 16 then 6 else 0) := by
  by_cases size : master.length = 16
  · obtain ⟨top, root_key⟩ := Key.exists_ofBytes size
    have split := owner_split cipher (Key.ofBytes_eq_ok_iff.1 root_key)
    have derived := outcome_seed_split cipher top
    rw [owner, split, Attempt.ok_bind, Attempt.calls_bind_of_ok (derived .data),
      Attempt.calls_bind_of_ok (derived .mac), Attempt.calls_bind_of_ok (derived .sharing),
      calls_seed_split, calls_seed_split, calls_seed_split, ← map_eq_pure_bind, Attempt.calls_map,
      Attempt.calls_liftExcept, if_pos size]
    rfl
  · rw [if_neg size, owner]
    cases split : KeyTree.owner cipher { depth := 2 } master with
    | error e => rfl
    | ok tree =>
      obtain ⟨-, top, root_key, -⟩ := KeyTree.owner_eq_ok_iff.1 split
      rw [← Key.ofBytes_eq_ok_iff.1 root_key, Vector.length_toList] at size
      exact absurd rfl size

/-- Whether the sharing tree can be made is found out after the step to its root. -/
theorem calls_sharingTree (keys : StreamKeys) (precision : UInt32) (depth : UInt16) :
    (keys.sharingTree precision depth).calls =
      .ofEncryptions (if keys.isOwner ∧ precision.toNat ≤ 255 then 1 else 0) := by
  obtain ⟨tree, macKey, sharingMaster⟩ := keys
  cases sharingMaster with
  | none => rfl
  | some master =>
    rw [sharingTree, Attempt.calls_bind_of_none fun _ => rfl, Attempt.calls_adapt,
      tree.cipher.calls_childOfBytes master precision]
    by_cases within : precision.toNat ≤ maxChildIndex
    · rw [if_pos within, if_pos ⟨rfl, within⟩]
    · rw [if_neg within, if_neg fun both => within both.2]

/-- The key of a leaf costs one call for each level below the node that covers it, a grant as many
as its nodes are deep, and masking or unmasking as many as its two keys and two words for each
value. What is refused costs nothing, only where a boundary is refused for its second key the first
was derived in vain. Making a tree from its root or from nodes costs nothing and does not depend on
the cipher; all keys of a stream cost six calls and a sharing tree one, even if there is no tree of
the wanted depth. None of these calls seals or opens a block. -/
theorem calls_of_every_derivation (cipher : Cipher) :
    (∀ tree : KeyTree,
      (∀ leaf, Costs (tree.seed leaf) (fun _ => tree.levelsTo leaf.toNat) 0) ∧
      (∀ first last, Costs (tree.reveal first last)
        (fun granted => (granted.map fun node => node.depth.toNat).sum) 0) ∧
      (∀ series value time, Costs (tree.encrypt series value time)
        (fun _ => tree.levelsTo time.toNat + tree.levelsTo (time.toNat + 1) + 2)
        (tree.lostCalls time time)) ∧
      (∀ series masked first last, Costs (tree.decrypt series masked first last)
        (fun _ => tree.levelsTo first.toNat + tree.levelsTo (last.toNat + 1) + 2)
        (tree.lostCalls first last)) ∧
      (∀ values time, Costs (tree.encryptBatch values time)
        (fun _ => tree.levelsTo time.toNat + tree.levelsTo (time.toNat + 1) + 2 * values.length)
        (tree.lostCalls time time)) ∧
      ∀ values first last, Costs (tree.decryptBatch values first last)
        (fun _ => tree.levelsTo first.toNat + tree.levelsTo (last.toNat + 1) + 2 * values.length)
        (tree.lostCalls first last)) ∧
    (∀ config root,
      (liftM (KeyTree.owner cipher config root) : Attempt TreeError KeyTree).calls = .none ∧
      ∀ other, KeyTree.owner other config root =
        (KeyTree.owner cipher config root).map (·.withCipher other)) ∧
    (∀ config nodes,
      (liftM (KeyTree.receiver cipher config nodes) : Attempt TreeError KeyTree).calls = .none ∧
      ∀ other, KeyTree.receiver other config nodes =
        (KeyTree.receiver cipher config nodes).map (·.withCipher other)) ∧
    (∀ depth nodes macKey,
      (liftM (receiver cipher depth nodes macKey) : Attempt TreeError StreamKeys).calls = .none ∧
      ∀ other, receiver other depth nodes macKey =
        (receiver cipher depth nodes macKey).map (·.withCipher other)) ∧
    (∀ depth master, (owner cipher depth master).calls =
      .ofEncryptions (if master.length = 16 then 6 else 0)) ∧
    ∀ (keys : StreamKeys) precision depth, (keys.sharingTree precision depth).calls =
      .ofEncryptions (if keys.isOwner ∧ precision.toNat ≤ 255 then 1 else 0) := by
  refine ⟨fun tree => ⟨tree.costs_seed, tree.costs_reveal, tree.costs_encrypt, tree.costs_decrypt,
    tree.costs_encryptBatch, tree.costs_decryptBatch⟩, fun config root => ⟨rfl, fun other => ?_⟩,
    fun config nodes => ⟨rfl, fun other => ?_⟩, fun depth nodes macKey => ⟨rfl, fun other => ?_⟩,
    calls_owner cipher, calls_sharingTree⟩
  · exact KeyTree.owner_withCipher cipher other config root
  · exact KeyTree.receiver_withCipher cipher other config nodes
  · exact receiver_withCipher cipher other depth nodes macKey

/-- Of eight leaves each has the root three levels above it. A stream of too great a depth is
refused after all its keys were derived. -/
theorem calls_in_eight_leaves :
    let tree : KeyTree :=
      ⟨.aes, ⟨3, 2, by decide, by decide, by decide⟩, .root ⟨.replicate 16 7⟩⟩
    (tree.seed 5).calls = .ofEncryptions 3 ∧
      (tree.encryptBatch [(9, 20), (9, 1), (0, 5)] 2).calls = .ofEncryptions 12 ∧
      (tree.decrypt .leaf 20 3 7).calls = .ofEncryptions 3 ∧
      (tree.decrypt .leaf 20 8 9).calls = .none ∧
      (owner .aes 64 (List.replicate 16 7)).calls = .ofEncryptions 6 := by
  intro tree
  obtain ⟨trees, -, -, -, streams, -⟩ := calls_of_every_derivation .aes
  obtain ⟨seeds, -, -, decrypts, batches, -⟩ := trees tree
  have held : (5 : UInt64).toNat ∈ tree.interval := by decide
  obtain ⟨key, derived⟩ := KeyTree.exists_key_of_mem held
  obtain ⟨masked, masks⟩ := Attempt.verdict_eq_ok_iff.1
    ((tree.verdict_encryptBatch [(9, 20), (9, 1), (0, 5)] 2).trans (by decide))
  have refused {first last : UInt64} {e : TreeError}
      (faulty : tree.boundaryVerdict first last = .error e) :
      (tree.decrypt .leaf 20 first last).outcome = .error e :=
    Attempt.verdict_eq_error_iff.1 ((tree.verdict_decrypt .leaf 20 first last).trans faulty)
  refine ⟨(seeds 5).ok key derived, (batches _ 2).ok masked masks, ?_, ?_, streams 64 _⟩
  · exact (decrypts .leaf 20 3 7).error _ (refused rfl)
  · exact (decrypts .leaf 20 8 9).error _ (refused rfl)

end StreamKeys

end RangeKeys
