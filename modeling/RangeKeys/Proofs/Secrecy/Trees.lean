import RangeKeys.Proofs.Secrecy.Shares
import RangeKeys.StreamKeys

/-!
# Trees hide their keys

Two trees are alike if they differ in nothing but the seeds of their nodes, and then every operation
goes alike on them, whatever the masked values. The keys of streams are alike if their trees are and
both or neither have the master of the sharing trees.
-/

namespace RangeKeys

/-! ## Trees -/

/-- Both are roots, or both are shares of nodes at the same places. -/
inductive Holdings.Alike {shape : Shape} : Holdings shape → Holdings shape → Prop
  | root (seed seed' : Key) : Alike (.root seed) (.root seed')
  | granted {share share' : Share shape}
    (nodes : List.Forall₂ SeedNode.SamePlace share.nodes share'.nodes) :
    Alike (.granted share) (.granted share')

/-- The trees differ in nothing but the seeds of their nodes. -/
inductive KeyTree.Alike : KeyTree → KeyTree → Prop
  | mk (cipher : Cipher) {shape : Shape} {holdings holdings' : Holdings shape}
    (h : holdings.Alike holdings') : Alike ⟨cipher, shape, holdings⟩ ⟨cipher, shape, holdings'⟩

namespace KeyTree

variable {tree tree' : KeyTree}

/-! ### What is seen of a tree -/

theorem Alike.nodes (h : tree.Alike tree') :
    List.Forall₂ SeedNode.SamePlace tree.nodes tree'.nodes := by
  obtain ⟨cipher, held⟩ := h
  cases held with
  | root seed seed' => exact .cons rfl .nil
  | granted nodes => exact nodes

theorem Alike.interval_eq (h : tree.Alike tree') : tree.interval = tree'.interval := by
  have nodes := h.nodes
  obtain ⟨cipher, held⟩ := h
  exact Share.interval_eq nodes

theorem Alike.isOwner_eq (h : tree.Alike tree') : tree.isOwner = tree'.isOwner := by
  obtain ⟨cipher, held⟩ := h
  cases held <;> rfl

theorem Alike.outOfRange_eq (h : tree.Alike tree') (leaf : UInt64) :
    tree.outOfRange leaf = tree'.outOfRange leaf := by
  rw [outOfRange, outOfRange, h.interval_eq]

theorem Alike.checkHeld_eq (h : tree.Alike tree') (leaf : UInt64) :
    tree.checkHeld leaf = tree'.checkHeld leaf := by
  rw [checkHeld, checkHeld, h.interval_eq, h.outOfRange_eq]

theorem Alike.description_eq (h : tree.Alike tree') : tree.description = tree'.description := by
  have nodes_eq := SeedNode.map_description_eq h.nodes
  have interval_eq := h.interval_eq
  have isOwner_eq := h.isOwner_eq
  obtain ⟨cipher, held⟩ := h
  rw [description, description, nodes_eq, interval_eq, isOwner_eq]

/-! ### Making a tree -/

theorem endsAlike_owner (cipher : Cipher) (config : TreeConfig) {root root' : List UInt8}
    (h : root.length = root'.length) :
    EndsAlike Alike (owner cipher config root) (owner cipher config root') := by
  refine EndsAlike.bind_same fun shape => ?_
  exact ((Key.endsAlike_ofBytes h).mapError TreeError.cipher).bind fun seed seed' _ =>
    .ok (.mk cipher (.root seed seed'))

theorem endsAlike_receiver (cipher : Cipher) (config : TreeConfig) {nodes nodes' : List SeedNode}
    (h : List.Forall₂ SeedNode.SamePlace nodes nodes') :
    EndsAlike Alike (receiver cipher config nodes) (receiver cipher config nodes') := by
  refine EndsAlike.bind_same fun shape => ?_
  exact (Share.endsAlike_ofNodes h).bind fun share share' nodes =>
    .ok (.mk cipher (.granted nodes))

/-! ### Deriving keys -/

theorem Alike.seed (h : tree.Alike tree') (leaf : UInt64) :
    Attempt.Alike Unseen (tree.seed leaf) (tree'.seed leaf) := by
  have nodes := h.nodes
  have outOfRange_eq := h.outOfRange_eq leaf
  rw [KeyTree.seed, KeyTree.seed, h.checkHeld_eq]
  refine Attempt.Alike.bind_same fun _ => ?_
  rw [outOfRange_eq]
  obtain @⟨cipher, shape, holdings, holdings', held⟩ := h
  have found := Share.rel_covering? nodes leaf.toNat
  generalize (KeyTree.mk cipher shape holdings).share.covering? leaf.toNat = node? at found ⊢
  generalize (KeyTree.mk cipher shape holdings').share.covering? leaf.toNat = node?' at found ⊢
  cases found with
  | none => exact .throw _
  | @some node node' same =>
    -- From nodes at one place the same path leads to the leaf, so it costs the same calls.
    dsimp only
    rw [show node.position = node'.position from same]
    exact .liftMetered (cipher.alike_descend node.seed node'.seed _)

theorem alike_expandNode (h : tree.Alike tree') (range : LeafRange) {node node' : SeedNode}
    (same : node.SamePlace node') :
    Metered.Alike (List.Forall₂ Unseen) (tree.expandNode range node)
      (tree'.expandNode range node') := by
  obtain ⟨cipher, held⟩ := h
  rw [expandNode, expandNode, same.leaves_eq, same]
  exact cipher.alike_expand _ _ (.cons trivial .nil)

theorem Alike.expand (h : tree.Alike tree') (range : LeafRange) :
    Metered.Alike (List.Forall₂ Unseen) (tree.expand range) (tree'.expand range) := by
  have meeting : List.Forall₂ SeedNode.SamePlace
      (tree.nodes.filter fun node => (node.leaves tree.shape).Meets range)
      (tree'.nodes.filter fun node => (node.leaves tree'.shape).Meets range) := by
    have nodes := h.nodes
    obtain ⟨cipher, held⟩ := h
    refine List.rel_filter (fun node node' same => ?_) nodes
    show decide ((node.leaves _).Meets range) = true ↔ decide ((node'.leaves _).Meets range) = true
    rw [same.leaves_eq]
  exact (Metered.Alike.mapM meeting fun node node' => alike_expandNode h range).bind
    fun keys keys' related => .pure (List.rel_flatten related)

theorem Alike.seedsIn (h : tree.Alike tree') (memory : Memory) (first last : UInt64) :
    Attempt.Alike (List.Forall₂ Unseen) (tree.seedsIn memory first last)
      (tree'.seedsIn memory first last) := by
  rw [KeyTree.seedsIn, KeyTree.seedsIn, h.checkHeld_eq, h.checkHeld_eq]
  refine Attempt.Alike.bind_same fun range => ?_
  refine Attempt.Alike.bind_same fun _ => Attempt.Alike.bind_same fun _ => ?_
  by_cases room : memory.hasRoom range.count
  · rw [if_pos room, if_pos room]
    exact .liftMetered (h.expand range)
  · rw [if_neg room, if_neg room]
    exact .throw _

/-! ### Granting -/

theorem alike_nodeAt (cipher : Cipher) (shape : Shape) (root root' : Key) (p : Position) :
    Metered.Alike SeedNode.SamePlace (nodeAt cipher shape root p) (nodeAt cipher shape root' p) :=
  (cipher.alike_descend root root' _).bind fun _ _ _ => .pure rfl

theorem Alike.reveal (h : tree.Alike tree') (first last : UInt64) :
    Attempt.Alike (List.Forall₂ SeedNode.SamePlace) (tree.reveal first last)
      (tree'.reveal first last) := by
  have checkHeld_eq := h.checkHeld_eq last
  obtain ⟨cipher, held⟩ := h
  cases held with
  | granted _ => exact .throw _
  | root root root' =>
    refine Attempt.Alike.bind_same fun range => ?_
    show Attempt.Alike _ (liftM (checkHeld _ last) >>= _) (liftM (checkHeld _ last) >>= _)
    rw [checkHeld_eq]
    exact Attempt.Alike.bind_same fun _ => .liftMetered <| .mapM_same fun p =>
      alike_nodeAt cipher _ root root' p

/-! ### Masking -/

theorem Alike.boundarySeeds (h : tree.Alike tree') (first last : UInt64) :
    Attempt.Alike Unseen (tree.boundarySeeds first last) (tree'.boundarySeeds first last) := by
  rw [KeyTree.boundarySeeds, KeyTree.boundarySeeds, h.outOfRange_eq]
  refine Attempt.Alike.bind_same fun range => ?_
  by_cases final : range.last + 1 = UInt64.size
  · rw [if_pos final, if_pos final]
    exact .throw _
  · rw [if_neg final, if_neg final]
    exact (h.seed first).bind fun _ _ _ => (h.seed (last + 1)).bind fun _ _ _ => .pure trivial

theorem Alike.encrypt (h : tree.Alike tree') (series : Series) (value value' time : UInt64) :
    Attempt.Alike Unseen (tree.encrypt series value time) (tree'.encrypt series value' time) := by
  have boundary := h.boundarySeeds time time
  obtain ⟨cipher, held⟩ := h
  exact boundary.bind fun _ _ _ => cipher.alike_withWords ..

theorem Alike.decrypt (h : tree.Alike tree') (series : Series)
    (masked masked' first last : UInt64) :
    Attempt.Alike Unseen (tree.decrypt series masked first last)
      (tree'.decrypt series masked' first last) := by
  have boundary := h.boundarySeeds first last
  obtain ⟨cipher, held⟩ := h
  exact boundary.bind fun _ _ _ => cipher.alike_withWords ..

section Batch

variable {values values' : List (UInt64 × UInt64)}

theorem Alike.encryptBatch (h : tree.Alike tree')
    (same : List.Forall₂ (fun a b => a.1 = b.1) values values') (time : UInt64) :
    Attempt.Alike (List.Forall₂ Unseen) (tree.encryptBatch values time)
      (tree'.encryptBatch values' time) := by
  have boundary := h.boundarySeeds time time
  obtain ⟨cipher, held⟩ := h
  exact boundary.bind fun _ _ _ => cipher.alike_withWordsBatch _ _ _ same

theorem Alike.decryptBatch (h : tree.Alike tree')
    (same : List.Forall₂ (fun a b => a.1 = b.1) values values') (first last : UInt64) :
    Attempt.Alike (List.Forall₂ Unseen) (tree.decryptBatch values first last)
      (tree'.decryptBatch values' first last) := by
  have boundary := h.boundarySeeds first last
  obtain ⟨cipher, held⟩ := h
  exact boundary.bind fun _ _ _ => cipher.alike_withWordsBatch _ _ _ same

end Batch

end KeyTree

/-! ## Streams -/

namespace StreamKeys

/-- The keys differ in nothing but their bytes. -/
inductive Alike : StreamKeys → StreamKeys → Prop
  | owner {tree tree' : KeyTree} (trees : tree.Alike tree') (mac mac' master master' : Key) :
    Alike ⟨tree, mac, some master⟩ ⟨tree', mac', some master'⟩
  | receiver {tree tree' : KeyTree} (trees : tree.Alike tree') (mac mac' : Key) :
    Alike ⟨tree, mac, none⟩ ⟨tree', mac', none⟩

variable {keys keys' : StreamKeys}

theorem Alike.tree (h : keys.Alike keys') : keys.tree.Alike keys'.tree := by
  cases h with
  | owner trees => exact trees
  | receiver trees => exact trees

theorem Alike.isOwner_eq (h : keys.Alike keys') : keys.isOwner = keys'.isOwner := by
  cases h <;> rfl

theorem Alike.description_eq (h : keys.Alike keys') : keys.description = keys'.description := by
  rw [description, description, h.tree.description_eq]
  cases h <;> rfl

theorem alike_owner (cipher : Cipher) (depth : UInt16) {master master' : List UInt8}
    (h : master.length = master'.length) :
    Attempt.Alike Alike (owner cipher depth master) (owner cipher depth master') := by
  refine (Attempt.Alike.liftExcept (KeyTree.endsAlike_owner cipher _ h)).bind
    fun split split' alike => ?_
  refine (alike.seed _).bind fun root root' _ => (alike.seed _).bind fun _ _ _ =>
    (alike.seed _).bind fun _ _ _ => ?_
  refine (Attempt.Alike.liftExcept (KeyTree.endsAlike_owner cipher _
    (root.length_toList_bytes root'))).bind fun tree tree' trees => ?_
  exact .pure (.owner trees ..)

theorem endsAlike_receiver (cipher : Cipher) (depth : UInt16) {nodes nodes' : List SeedNode}
    {macKey macKey' : List UInt8} (same : List.Forall₂ SeedNode.SamePlace nodes nodes')
    (h : macKey.length = macKey'.length) :
    EndsAlike Alike (receiver cipher depth nodes macKey)
      (receiver cipher depth nodes' macKey') := by
  refine ((Key.endsAlike_ofBytes h).mapError TreeError.cipher).bind fun _ _ _ => ?_
  exact (KeyTree.endsAlike_receiver cipher _ same).bind fun tree tree' trees =>
    .ok (.receiver trees ..)

theorem Alike.sharingTree (h : keys.Alike keys') (precision : UInt32) (depth : UInt16) :
    Attempt.Alike KeyTree.Alike (keys.sharingTree precision depth)
      (keys'.sharingTree precision depth) := by
  cases h with
  | receiver trees => exact .throw _
  | owner trees mac mac' master master' =>
    obtain ⟨cipher, held⟩ := trees
    have roots := cipher.alike_childOfBytes (master.length_toList_bytes master') precision
    refine (roots.adapt TreeError.cipher).bind fun root root' _ => .liftExcept ?_
    exact KeyTree.endsAlike_owner cipher _ (root.length_toList_bytes root')

end StreamKeys

end RangeKeys
