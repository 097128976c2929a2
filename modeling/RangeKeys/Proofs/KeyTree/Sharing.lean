import RangeKeys.Proofs.KeyTree.Reveal
import RangeKeys.Proofs.SeedNode.Codec

/-!
# Sharing ranges of leaves

What an owner grants for a range can be sent and taken up in any order, and gives a receiver
exactly the keys of that range. Grants for several ranges can be taken up together exactly if
the ranges follow one another without gap or overlap.
-/

namespace RangeKeys.KeyTree

variable {cipher : Cipher} {config : TreeConfig} {tree : KeyTree} {range : LeafRange}
  {nodes : List SeedNode}

/-- Genuine nodes whose leaves partition a range make a receiver of the range. -/
theorem exists_receiver_of_genuine {root : Key} (valid : config.Valid)
    (genuine : ∀ node ∈ nodes, node.Genuine cipher valid.shape root)
    (partition : LeafRange.Partition (nodes.map (SeedNode.leaves valid.shape)) range) :
    ∃ share : Share valid.shape,
      receiver cipher config nodes = .ok ⟨cipher, valid.shape, .granted share⟩ ∧
        share.interval = range ∧ FromRoot ⟨cipher, valid.shape, .granted share⟩ root := by
  obtain ⟨share, given⟩ := Share.exists_ofNodes_iff.2
    ⟨fun node mem => (genuine node mem).inTree, range, partition⟩
  have made : receiver cipher config nodes = .ok ⟨cipher, valid.shape, .granted share⟩ :=
    receiver_eq_ok_iff.2 ⟨valid, share, given, rfl⟩
  exact ⟨share, made, (partition_of_receiver made).eq_whole partition,
    fromRoot_receiver made genuine⟩

/-- The nodes granted for a range, in any order, make a receiver of the range. -/
theorem exists_receiver_of_grant {root : Key} (valid : config.Valid)
    (fits : range.last < valid.shape.leafCount)
    (p : nodes.Perm (coverNodes cipher valid.shape root range).value) :
    ∃ share : Share valid.shape,
      receiver cipher config nodes = .ok ⟨cipher, valid.shape, .granted share⟩ ∧
        share.interval = range ∧ FromRoot ⟨cipher, valid.shape, .granted share⟩ root := by
  apply exists_receiver_of_genuine valid
  · intro node mem
    exact genuine_of_mem_coverNodes fits (p.mem_iff.1 mem)
  · exact (partition_coverNodes fits).perm (p.map _).symm

/-- Whatever the order in which the nodes granted for a range are sent and taken up, they make a
receiver of just that range, which derives the same keys as the owner there and none elsewhere. -/
theorem receiver_of_grant_agrees_with_owner (cipher : Cipher) (valid : config.Valid)
    {root : List UInt8} (root_size : root.length = 16) {first last : UInt64}
    (le : first.toNat ≤ last.toNat)
    (fits : last.toNat < config.fanout.toNat ^ config.depth.toNat) :
    ∃ tree granted, owner cipher config root = .ok tree ∧
      (tree.reveal first last).outcome = .ok granted ∧
      ∀ shared : List SeedNode, shared.Perm granted → ∃ received other,
        SeedNode.decodeList (SeedNode.encodeList shared) = .ok received ∧
        receiver cipher config received = .ok other ∧
        other.interval.first = first.toNat ∧ other.interval.last = last.toNat ∧
        other.isOwner = false ∧
        (∀ leaf : UInt64, first.toNat ≤ leaf.toNat ∧ leaf.toNat ≤ last.toNat →
          ∃ key, (other.seed leaf).outcome = .ok key ∧ (tree.seed leaf).outcome = .ok key) ∧
        (∀ leaf : UInt64, ¬ (first.toNat ≤ leaf.toNat ∧ leaf.toNat ≤ last.toNat) →
          (other.seed leaf).outcome =
            .error (.keyOutOfRange leaf.toNat first.toNat last.toNat)) ∧
        ∀ a b : UInt64, first.toNat ≤ a.toNat → a.toNat ≤ b.toNat → b.toNat ≤ last.toNat →
          (other.seeds a b).outcome = (tree.seeds a b).outcome ∧
          (b.toNat - a.toNat + 1 ≤ maxKeyCount →
            ∃ keys, (other.seeds a b).outcome = .ok keys) := by
  obtain ⟨top, root_key⟩ := Key.exists_ofBytes root_size
  let range : LeafRange := ⟨first.toNat, last.toNat, le⟩
  have range_fits : range.last < valid.shape.leafCount := fits
  have made : owner cipher config root = .ok ⟨cipher, valid.shape, .root top⟩ :=
    owner_eq_ok_iff.2 ⟨valid, top, root_key, rfl⟩
  refine ⟨_, _, made, outcome_reveal (LeafRange.between_eq_ok_iff.2 ⟨rfl, rfl⟩) range_fits,
    fun shared p => ?_⟩
  have genuine : ∀ node ∈ shared, node.Genuine cipher valid.shape top := fun node mem =>
    genuine_of_mem_coverNodes range_fits (p.mem_iff.1 mem)
  have partition := (partition_coverNodes range_fits).perm (p.map _).symm
  obtain ⟨share, accepted, interval_eq, fromRoot⟩ := exists_receiver_of_genuine valid genuine
    partition
  have mem_iff (leaf : Nat) :
      leaf ∈ share.interval ↔ first.toNat ≤ leaf ∧ leaf ≤ last.toNat := by
    rw [interval_eq]
    exact LeafRange.mem_def
  refine ⟨shared, _, SeedNode.decodeList_encodeList shared, accepted,
    congrArg LeafRange.first interval_eq, congrArg LeafRange.last interval_eq, rfl,
    fun leaf inside => ?_, fun leaf outside => ?_, fun a b first_le a_le_b le_last => ?_⟩
  · exact fromRoot.seed_agrees ((mem_iff _).2 inside)
  · have refused : (seed ⟨cipher, valid.shape, .granted share⟩ leaf).outcome = _ :=
      outcome_seed_of_not_mem fun held => outside ((mem_iff _).1 held)
    rw [refused, outOfRange, interval, KeyTree.share, interval_eq]
  · let part : LeafRange := ⟨a.toNat, b.toNat, a_le_b⟩
    have between : LeafRange.between a b = .ok part := LeafRange.between_eq_ok_iff.2 ⟨rfl, rfl⟩
    have within : part.Within share.interval := by
      rw [interval_eq]
      exact ⟨first_le, le_last⟩
    refine ⟨fromRoot.seeds_agree between within, fun allocatable => ?_⟩
    have few : ¬ maxKeyCount < part.count := Nat.not_lt.2 allocatable
    rw [fromRoot.outcome_seeds between within, if_neg few]
    exact ⟨_, rfl⟩

/-- Of eight leaves, those from the third to the sixth are shared. -/
theorem receiver_of_middle_of_eight_leaves :
    ∃ tree granted, owner .aes ⟨3, 2⟩ (List.replicate 16 7) = .ok tree ∧
      (tree.reveal 2 5).outcome = .ok granted ∧
      ∃ other, receiver .aes ⟨3, 2⟩ granted.reverse = .ok other ∧
        (other.seed 3).outcome = (tree.seed 3).outcome ∧
        (other.seed 6).outcome = .error (.keyOutOfRange 6 2 5) := by
  have valid : TreeConfig.Valid ⟨3, 2⟩ := ⟨by decide, by decide, by decide⟩
  obtain ⟨tree, granted, made, revealed, shared⟩ :=
    receiver_of_grant_agrees_with_owner .aes valid
      (show (List.replicate 16 (7 : UInt8)).length = 16 by decide)
      (show (2 : UInt64).toNat ≤ (5 : UInt64).toNat by decide) (by decide)
  obtain ⟨received, other, decoded, accepted, -, -, -, inside, outside, -⟩ :=
    shared granted.reverse granted.reverse_perm
  rw [SeedNode.decodeList_encodeList] at decoded
  obtain rfl := Except.ok.inj decoded
  obtain ⟨key, other_key, tree_key⟩ := inside 3 (by decide)
  exact ⟨tree, granted, made, revealed, other, accepted, other_key.trans tree_key.symm,
    outside 6 (by decide)⟩

/-! ## Several ranges -/

section Grants

variable {shape : Shape} {root : Key} {ranges : List LeafRange} {whole : LeafRange}

/-- The nodes granted for each of the ranges. -/
def grants (cipher : Cipher) (shape : Shape) (root : Key) (ranges : List LeafRange) :
    List (List SeedNode) :=
  ranges.map fun range => (coverNodes cipher shape root range).value

theorem genuine_of_mem_grants {node : SeedNode}
    (fits : ∀ range ∈ ranges, range.last < shape.leafCount)
    (mem : node ∈ (grants cipher shape root ranges).flatten) :
    node.Genuine cipher shape root := by
  obtain ⟨grant, grant_mem, node_mem⟩ := List.mem_flatten.1 mem
  obtain ⟨range, range_mem, rfl⟩ := List.mem_map.1 grant_mem
  exact genuine_of_mem_coverNodes (fits range range_mem) node_mem

theorem flatten_grants_ne_nil (nonempty : ranges ≠ [])
    (fits : ∀ range ∈ ranges, range.last < shape.leafCount) :
    (grants cipher shape root ranges).flatten ≠ [] := by
  intro empty
  obtain ⟨range, mem⟩ := List.exists_mem_of_ne_nil ranges nonempty
  exact coverNodes_ne_nil cipher root (fits range mem)
    (List.flatten_eq_nil_iff.1 empty _ (List.mem_map_of_mem mem))

/-- The nodes granted for ranges partition what the ranges themselves partition. -/
theorem partition_grants_iff (fits : ∀ range ∈ ranges, range.last < shape.leafCount) :
    LeafRange.Partition
        ((grants cipher shape root ranges).flatten.map (SeedNode.leaves shape)) whole ↔
      LeafRange.Partition ranges whole := by
  rw [List.map_flatten, grants, List.map_map]
  apply LeafRange.partition_flatten_iff
  rw [List.forall₂_map_left_iff, List.forall₂_same]
  exact fun range mem => partition_coverNodes (fits range mem)

theorem outcome_reveal_grants (fits : ∀ range ∈ ranges, range.last < shape.leafCount) :
    (ranges.map fun range =>
      (reveal ⟨cipher, shape, .root root⟩ (.ofNat range.first) (.ofNat range.last)).outcome) =
        (grants cipher shape root ranges).map .ok := by
  rw [grants, List.map_map]
  refine List.map_congr_left fun range mem => ?_
  have last_lt := Nat.lt_trans (fits range mem) shape.leafCount_lt
  exact outcome_reveal (LeafRange.between_ofNat last_lt) (fits range mem)

end Grants

/-- What is granted for several ranges, mixed in any order, makes a receiver exactly if the ranges
partition an interval, and then one that has the owner's keys there. Otherwise it is refused for
a gap or an overlap. -/
theorem receiver_of_grants_iff_partition {root : List UInt8} {ranges : List LeafRange}
    (made : owner cipher config root = .ok tree) (nonempty : ranges ≠ [])
    (fits : ∀ range ∈ ranges, range.last < config.fanout.toNat ^ config.depth.toNat) :
    ∃ grants : List (List SeedNode),
      (ranges.map fun range =>
        (tree.reveal (.ofNat range.first) (.ofNat range.last)).outcome) = grants.map .ok ∧
      ∀ shared : List SeedNode, shared.Perm grants.flatten →
        ((∃ other, receiver cipher config shared = .ok other) ↔
          ∃ whole, LeafRange.Partition ranges whole) ∧
        (∀ other, receiver cipher config shared = .ok other →
          IsLeast {leaf | ∃ range ∈ ranges, range.first = leaf} other.interval.first ∧
          IsGreatest {leaf | ∃ range ∈ ranges, range.last = leaf} other.interval.last ∧
          ∀ leaf : UInt64, leaf.toNat ∈ other.interval →
            ∃ key, (other.seed leaf).outcome = .ok key ∧ (tree.seed leaf).outcome = .ok key) ∧
        ∀ e, receiver cipher config shared = .error e →
          ∃ expected actual, e = .nonContiguousNodes expected actual := by
  obtain ⟨valid, top, root_key, rfl⟩ := owner_eq_ok_iff.1 made
  have range_fits : ∀ range ∈ ranges, range.last < valid.shape.leafCount := fits
  refine ⟨grants cipher valid.shape top ranges, outcome_reveal_grants range_fits,
    fun shared p => ?_⟩
  have genuine : ∀ node ∈ shared, node.Genuine cipher valid.shape top := fun node mem =>
    genuine_of_mem_grants range_fits (p.mem_iff.1 mem)
  have partition_iff (whole : LeafRange) :
      LeafRange.Partition (shared.map (SeedNode.leaves valid.shape)) whole ↔
        LeafRange.Partition ranges whole := by
    rw [← partition_grants_iff range_fits]
    exact ⟨fun h => h.perm (p.map _), fun h => h.perm (p.map _).symm⟩
  refine ⟨⟨?_, ?_⟩, fun other accepted => ?_, fun e refused => ?_⟩
  · intro ⟨other, accepted⟩
    obtain ⟨_, share, -, rfl⟩ := receiver_eq_ok_iff.1 accepted
    exact ⟨_, (partition_iff _).1 (partition_of_receiver accepted)⟩
  · intro ⟨whole, partition⟩
    obtain ⟨share, accepted, -⟩ := exists_receiver_of_genuine valid genuine
      ((partition_iff whole).2 partition)
    exact ⟨_, accepted⟩
  · obtain ⟨_, share, -, rfl⟩ := receiver_eq_ok_iff.1 accepted
    have partition := (partition_iff _).1 (partition_of_receiver accepted)
    have fromRoot := fromRoot_receiver accepted genuine
    exact ⟨partition.isLeast_first, partition.isGreatest_last, fun leaf mem =>
      fromRoot.seed_agrees mem⟩
  · have shared_ne_nil : shared ≠ [] := by
      intro h
      subst h
      exact flatten_grants_ne_nil nonempty range_fits p.symm.eq_nil
    obtain ⟨expected, actual, rfl, -⟩ := Share.ofNodes_eq_error shared_ne_nil
      (fun node mem => (genuine node mem).inTree) (receiver_eq_error_of_valid valid refused)
    exact ⟨expected, actual, rfl⟩

/-- The two halves of eight leaves are joined, whichever comes first. -/
theorem receiver_of_halves_of_eight_leaves :
    ∃ (tree : KeyTree) (grants : List (List SeedNode)),
      owner .aes ⟨3, 2⟩ (List.replicate 16 7) = .ok tree ∧
      [(tree.reveal 4 7).outcome, (tree.reveal 0 3).outcome] = grants.map .ok ∧
      ∃ other, receiver .aes ⟨3, 2⟩ grants.flatten = .ok other := by
  have made : owner .aes ⟨3, 2⟩ (List.replicate 16 7) =
      .ok ⟨.aes, ⟨3, 2, by decide, by decide, by decide⟩, .root ⟨.replicate 16 7⟩⟩ := rfl
  let halves : List LeafRange := [⟨4, 7, by decide⟩, ⟨0, 3, by decide⟩]
  have partition : LeafRange.Partition halves ⟨0, 7, by decide⟩ := by
    refine ⟨by decide, fun leaf => ?_⟩
    simp only [halves, List.mem_cons, List.not_mem_nil, or_false, exists_eq_or_imp,
      exists_eq_left, LeafRange.mem_def]
    omega
  obtain ⟨grants, revealed, shared⟩ := receiver_of_grants_iff_partition made
    (show halves ≠ [] by decide) (by decide)
  exact ⟨_, grants, made, revealed, (shared _ (.refl _)).1.2 ⟨_, partition⟩⟩

end RangeKeys.KeyTree
