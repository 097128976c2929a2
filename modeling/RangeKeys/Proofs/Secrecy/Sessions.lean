import RangeKeys.Proofs.Secrecy.Encodings
import RangeKeys.Proofs.Secrecy.Trees
import RangeKeys.Session

/-!
# Sessions hide their keys

Two clients go through the same session with other secrets and other messages. What the steps leave
behind stays alike, each operation goes alike on operands that are alike, and alike items look the
same. So nothing that is seen of a session depends on a secret or on a message.
-/

namespace RangeKeys.Session

open SeedNode (SamePlace SameOutsideSeeds encodedSize)

/-! ## Items -/

/-- The clients bring secrets of the same lengths, and received strings that differ in seeds alone.
Their messages may be any. -/
structure Inputs.Alike (inputs inputs' : Inputs) : Prop where
  secret : ∀ number, (inputs.secret number).length = (inputs'.secret number).length
  received : ∀ number, SameOutsideSeeds (inputs.received number) (inputs'.received number)

/-- The items differ in nothing but seeds, keys and words. -/
inductive Item.Alike : Item → Item → Prop
  | tree {tree tree' : KeyTree} (h : tree.Alike tree') : Alike (.tree tree) (.tree tree')
  | stream {keys keys' : StreamKeys} (h : keys.Alike keys') : Alike (.stream keys) (.stream keys')
  | nodes {nodes nodes' : List SeedNode} (h : List.Forall₂ SamePlace nodes nodes') :
    Alike (.nodes nodes) (.nodes nodes')
  | keys {keys keys' : List Key} (h : List.Forall₂ Unseen keys keys') :
    Alike (.keys keys) (.keys keys')
  | words {words words' : List UInt64} (h : List.Forall₂ Unseen words words') :
    Alike (.words words) (.words words')
  | encoding {bytes bytes' : List UInt8} (h : SameOutsideSeeds bytes bytes')
    (whole : encodedSize ∣ bytes.length) : Alike (.encoding bytes) (.encoding bytes')

theorem ofTree_eq {tree tree' : KeyTree} (h : tree.Alike tree') :
    View.ofTree tree = View.ofTree tree' := by
  have interval_eq := h.interval_eq
  have isOwner_eq := h.isOwner_eq
  have positions_eq := SeedNode.forall₂_samePlace_iff.1 h.nodes
  have description_eq := h.description_eq
  obtain ⟨cipher, held⟩ := h
  rw [View.ofTree, View.ofTree, interval_eq, isOwner_eq, positions_eq, description_eq]

/-- Items that are alike look the same. -/
theorem view_eq {item item' : Item} (h : item.Alike item') : view item = view item' := by
  cases h with
  | tree h => exact ofTree_eq h
  | stream h => rw [view, view, h.isOwner_eq, ofTree_eq h.tree, h.description_eq]
  | nodes h =>
    rw [view, view, SeedNode.forall₂_samePlace_iff.1 h, SeedNode.map_description_eq h]
  | @keys keys keys' h =>
    have texts (keys : List Key) : keys.map Key.description =
        List.replicate keys.length (Key.description ⟨Vector.replicate 16 0⟩) :=
      List.map_const' ..
    rw [view, view, texts, texts, h.length_eq]
  | words h => rw [view, view, h.length_eq]
  | encoding h => rw [view, view, h.length_eq]

/-! ## Operands -/

/-- Each step left items behind that are alike, or none. -/
abbrev Kept.Alike (kept kept' : Kept) : Prop :=
  List.Forall₂ (Option.Rel Item.Alike) kept kept'

section Operands

variable {inputs inputs' : Inputs} {kept kept' : Kept}

theorem Kept.Alike.get? {α : Type} {R : α → α → Prop} {part : Item → Option α}
    (h : kept.Alike kept') (step : Nat)
    (parts : ∀ item item', item.Alike item' → Option.Rel R (part item) (part item')) :
    Option.Rel R (kept.get? part step) (kept'.get? part step) :=
  optionRel_bind (optionRel_getElem? h step) fun _ _ items =>
    optionRel_bind items parts

theorem Kept.Alike.tree? (h : kept.Alike kept') (step : Nat) :
    Option.Rel KeyTree.Alike (kept.get? Item.tree? step) (kept'.get? Item.tree? step) := by
  refine h.get? step fun _ _ items => ?_
  cases items with
  | tree h => exact .some h
  | stream h => exact .some h.tree
  | _ => exact .none

theorem Kept.Alike.stream? (h : kept.Alike kept') (step : Nat) :
    Option.Rel StreamKeys.Alike (kept.get? Item.stream? step) (kept'.get? Item.stream? step) := by
  refine h.get? step fun _ _ items => ?_
  cases items with
  | stream h => exact .some h
  | _ => exact .none

theorem Kept.Alike.nodes? (h : kept.Alike kept') (step : Nat) :
    Option.Rel (List.Forall₂ SamePlace) (kept.get? Item.nodes? step)
      (kept'.get? Item.nodes? step) := by
  refine h.get? step fun _ _ items => ?_
  cases items with
  | nodes h => exact .some h
  | tree h => exact .some h.nodes
  | stream h => exact .some h.tree.nodes
  | _ => exact .none

theorem Kept.Alike.keys? (h : kept.Alike kept') (step : Nat) :
    Option.Rel (List.Forall₂ Unseen) (kept.get? Item.keys? step) (kept'.get? Item.keys? step) := by
  refine h.get? step fun _ _ items => ?_
  cases items with
  | keys h => exact .some h
  | _ => exact .none

theorem Kept.Alike.words? (h : kept.Alike kept') (step : Nat) :
    Option.Rel (List.Forall₂ Unseen) (kept.get? Item.words? step)
      (kept'.get? Item.words? step) := by
  refine h.get? step fun _ _ items => ?_
  cases items with
  | words h => exact .some h
  | _ => exact .none

theorem Kept.Alike.encoding? (h : kept.Alike kept') (step : Nat) :
    Option.Rel (fun bytes bytes' => SameOutsideSeeds bytes bytes' ∧ encodedSize ∣ bytes.length)
      (kept.get? Item.encoding? step) (kept'.get? Item.encoding? step) := by
  refine h.get? step fun _ _ items => ?_
  cases items with
  | encoding h whole => exact .some ⟨h, whole⟩
  | _ => exact .none

theorem SecretTerm.length_eq (h : inputs.Alike inputs') (alike : kept.Alike kept')
    (term : SecretTerm) :
    Option.Rel (fun bytes bytes' => bytes.length = bytes'.length) (term.bytes? inputs kept)
      (term.bytes? inputs' kept') := by
  cases term with
  | input number => exact .some (h.secret number)
  | key step place =>
    exact optionRel_bind (alike.keys? step) fun _ _ keys =>
      optionRel_bind (optionRel_getElem? keys place) fun key key' _ =>
        .some (key.length_toList_bytes key')
  | seed step place =>
    exact optionRel_bind (alike.nodes? step) fun _ _ nodes =>
      optionRel_bind (optionRel_getElem? nodes place) fun node node' _ =>
        .some (node.seed.length_toList_bytes node'.seed)
  | mac step =>
    exact optionRel_bind (alike.stream? step) fun keys keys' _ =>
      .some (keys.macKey.length_toList_bytes keys'.macKey)

theorem NodesTerm.alike (alike : kept.Alike kept') (term : NodesTerm) :
    Option.Rel (List.Forall₂ SamePlace) (term.nodes? kept) (term.nodes? kept') := by
  cases term with
  | all step => exact alike.nodes? step
  | one step place =>
    exact optionRel_bind (alike.nodes? step) fun _ _ nodes =>
      optionRel_bind (optionRel_getElem? nodes place) fun _ _ same => .some (.cons same .nil)

theorem nodesOf?_alike (alike : kept.Alike kept') (terms : List NodesTerm) :
    Option.Rel (List.Forall₂ SamePlace) (nodesOf? kept terms) (nodesOf? kept' terms) :=
  optionRel_bind (optionRel_mapM_same (NodesTerm.alike alike)) fun _ _ related =>
    .some (List.rel_flatten related)

theorem WordTerm.unseen (alike : kept.Alike kept') (term : WordTerm) :
    Option.Rel Unseen (term.word? inputs kept) (term.word? inputs' kept') := by
  induction term with
  | message number => exact .some trivial
  | word step place =>
    exact optionRel_bind (alike.words? step) fun _ _ words => optionRel_getElem? words place
  | sum left right ihl ihr =>
    exact optionRel_bind ihl fun _ _ _ => optionRel_bind ihr fun _ _ _ => .some trivial

theorem batchOf?_alike (alike : kept.Alike kept') (values : List (UInt64 × WordTerm)) :
    Option.Rel (List.Forall₂ fun a b => a.1 = b.1) (batchOf? inputs kept values)
      (batchOf? inputs' kept' values) :=
  optionRel_mapM_same fun (_, term) => optionRel_bind (term.unseen alike) fun _ _ _ => .some rfl

theorem EncodingTerm.same (h : inputs.Alike inputs') (alike : kept.Alike kept')
    (term : EncodingTerm) :
    Option.Rel SameOutsideSeeds (term.bytes? inputs kept) (term.bytes? inputs' kept') := by
  refine optionRel_bind (optionRel_mapM_same alike.encoding?) fun _ _ encodings => .some ?_
  refine SameOutsideSeeds.flatten_append encodings ?_
  cases term.received with
  | none => exact .refl []
  | some number => exact h.received number

/-! ## Steps and runs -/

/-- Operations go alike on operands that are alike. -/
theorem attempt?_alike (h : inputs.Alike inputs') (alike : kept.Alike kept')
    (operation : Operation) :
    Option.Rel (Attempt.Alike Item.Alike) (attempt? inputs kept operation)
      (attempt? inputs' kept' operation) := by
  cases operation with
  | owner cipher config root =>
    refine optionRel_bind (root.length_eq h alike) fun _ _ same => .some ?_
    exact (Attempt.Alike.liftExcept (KeyTree.endsAlike_owner cipher config same)).map
      fun _ _ => .tree
  | receiver cipher config nodes =>
    refine optionRel_bind (nodesOf?_alike alike nodes) fun _ _ same => .some ?_
    exact (Attempt.Alike.liftExcept (KeyTree.endsAlike_receiver cipher config same)).map
      fun _ _ => .tree
  | streamOwner cipher depth master =>
    refine optionRel_bind (master.length_eq h alike) fun _ _ same => .some ?_
    exact (StreamKeys.alike_owner cipher depth same).map fun _ _ => .stream
  | streamReceiver cipher depth nodes mac =>
    refine optionRel_bind (nodesOf?_alike alike nodes) fun _ _ same =>
      optionRel_bind (mac.length_eq h alike) fun _ _ sized => .some ?_
    exact (Attempt.Alike.liftExcept (StreamKeys.endsAlike_receiver cipher depth same sized)).map
      fun _ _ => .stream
  | sharingTree stream precision depth =>
    refine optionRel_bind (alike.stream? stream) fun _ _ streams => .some ?_
    exact (streams.sharingTree precision depth).map fun _ _ => .tree
  | node seed depth number =>
    refine optionRel_bind (seed.length_eq h alike) fun _ _ same => .some ?_
    have keys := (Key.endsAlike_ofBytes same).mapError TreeError.cipher
    exact (Attempt.Alike.liftExcept keys).map fun _ _ _ => .nodes (.cons rfl .nil)
  | encode step place =>
    refine optionRel_bind (alike.nodes? step) fun _ _ nodes =>
      optionRel_bind (optionRel_getElem? nodes place) fun node _ same => .some ?_
    exact .pure (.encoding same.encode ⟨1, by rw [Vector.length_toList, Nat.mul_one]⟩)
  | encodeList nodes =>
    refine optionRel_bind (nodesOf?_alike alike nodes) fun nodes _ same => .some ?_
    exact .pure (.encoding (SeedNode.sameOutsideSeeds_encodeList same)
      ⟨nodes.length, SeedNode.length_encodeList nodes⟩)
  | decode encoding =>
    refine optionRel_bind (encoding.same h alike) fun _ _ same => .some ?_
    exact (Attempt.Alike.liftExcept (SeedNode.endsAlike_decode same)).map
      fun _ _ place => .nodes (.cons place .nil)
  | decodeList encoding =>
    refine optionRel_bind (encoding.same h alike) fun _ _ same => .some ?_
    exact (Attempt.Alike.liftExcept (SeedNode.endsAlike_decodeList same)).map fun _ _ => .nodes
  | seed tree leaf =>
    refine optionRel_bind (alike.tree? tree) fun _ _ trees => .some ?_
    exact (trees.seed leaf).map fun _ _ _ => .keys (.cons trivial .nil)
  | seeds tree memory first last =>
    refine optionRel_bind (alike.tree? tree) fun _ _ trees => .some ?_
    exact (trees.seedsIn memory first last).map fun _ _ => .keys
  | reveal tree first last =>
    refine optionRel_bind (alike.tree? tree) fun _ _ trees => .some ?_
    exact (trees.reveal first last).map fun _ _ => .nodes
  | encrypt tree series value time =>
    refine optionRel_bind (value.unseen alike) fun value value' _ =>
      optionRel_bind (alike.tree? tree) fun _ _ trees => .some ?_
    exact (trees.encrypt series value value' time).map fun _ _ _ => .words (.cons trivial .nil)
  | decrypt tree series masked first last =>
    refine optionRel_bind (masked.unseen alike) fun masked masked' _ =>
      optionRel_bind (alike.tree? tree) fun _ _ trees => .some ?_
    exact (trees.decrypt series masked masked' first last).map
      fun _ _ _ => .words (.cons trivial .nil)
  | encryptBatch tree values time =>
    refine optionRel_bind (batchOf?_alike alike values) fun _ _ same =>
      optionRel_bind (alike.tree? tree) fun _ _ trees => .some ?_
    exact (trees.encryptBatch same time).map fun _ _ => .words
  | decryptBatch tree values first last =>
    refine optionRel_bind (batchOf?_alike alike values) fun _ _ same =>
      optionRel_bind (alike.tree? tree) fun _ _ trees => .some ?_
    exact (trees.decryptBatch same first last).map fun _ _ => .words

theorem leftBehind_alike {attempt attempt' : Option (Attempt TreeError Item)}
    (h : Option.Rel (Attempt.Alike Item.Alike) attempt attempt') :
    Option.Rel Item.Alike (leftBehind attempt) (leftBehind attempt') :=
  optionRel_bind h fun _ _ related => related.outcome.toOption

/-- From items that are alike, all steps go alike. -/
theorem run_alike (h : inputs.Alike inputs') (alike : kept.Alike kept')
    (operations : List Operation) :
    List.Forall₂ (Option.Rel (Attempt.Alike Item.Alike)) (run inputs kept operations)
      (run inputs' kept' operations) := by
  induction operations generalizing kept kept' with
  | nil => exact .nil
  | cons operation operations ih =>
    have step := attempt?_alike h alike operation
    -- A step that fails leaves nothing in both runs, so later steps find the same places filled.
    exact .cons step (ih (List.rel_append alike (.cons (leftBehind_alike step) .nil)))

theorem observe_eq {attempt attempt' : Option (Attempt TreeError Item)}
    (h : Option.Rel (Attempt.Alike Item.Alike) attempt attempt') :
    observe attempt = observe attempt' := by
  cases h with
  | none => rfl
  | @some x y related =>
    have views_eq := related.outcome.map_eq fun _ _ => view_eq
    exact congrArg some (Prod.ext views_eq related.calls)

end Operands

/-- Nothing that is seen of a session depends on the contents of secrets and messages: neither
which operations fail and for which reasons, nor the intervals, owners, places, texts and lengths
of what they end in, nor how often the cipher is called. -/
theorem key_bytes_stay_hidden {inputs inputs' : Inputs} (h : inputs.Alike inputs')
    (operations : List Operation) :
    (run inputs [] operations).map observe = (run inputs' [] operations).map observe := by
  have steps := run_alike h .nil operations
  rw [← List.forall₂_eq_eq_eq, List.forall₂_map_left_iff, List.forall₂_map_right_iff]
  exact steps.imp fun _ _ => observe_eq

/-- An owner grants half of eight leaves and masks a value, which the receiver unmasks; another
receiver has the right half from elsewhere, and derives no key of the left one. All of it looks the
same with another root, another seed and another value. -/
theorem owners_with_two_roots_look_the_same :
    let right (byte : UInt8) : List UInt8 := (SeedNode.mk ⟨.replicate 16 byte⟩ 1 1).encode.toList
    let inputs : Inputs := ⟨fun _ => List.replicate 16 1, fun _ => right 2, fun _ => 20⟩
    let inputs' : Inputs := ⟨fun _ => List.replicate 16 3, fun _ => right 4, fun _ => 33⟩
    let operations : List Operation :=
      [.owner .aes ⟨3, 2⟩ (.input 0), .seed 0 8, .reveal 0 0 3, .encodeList [.all 2],
        .decodeList ⟨[3], none⟩, .receiver .aes ⟨3, 2⟩ [.all 4],
        .encrypt 0 .leaf (.message 0) 1, .decrypt 5 .leaf (.word 6 0) 1 1,
        .decode ⟨[], some 0⟩, .receiver .aes ⟨3, 2⟩ [.all 8], .seed 9 2]
    inputs.secret 0 ≠ inputs'.secret 0 ∧
      (run inputs [] operations).map observe = (run inputs' [] operations).map observe ∧
      ((run inputs [] operations).map observe)[1]? =
        some (some (.error (.keyOutOfRange 8 0 7), .none)) := by
  intro right inputs inputs' operations
  have same_place : SamePlace ⟨⟨.replicate 16 2⟩, 1, 1⟩ ⟨⟨.replicate 16 4⟩, 1, 1⟩ := rfl
  have alike : inputs.Alike inputs' := ⟨fun _ => rfl, fun _ => same_place.encode⟩
  exact ⟨by decide, key_bytes_stay_hidden alike operations, rfl⟩

end RangeKeys.Session
