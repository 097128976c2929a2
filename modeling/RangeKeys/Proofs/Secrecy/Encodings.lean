import RangeKeys.Proofs.Secrecy.Shares
import RangeKeys.Proofs.SeedNode.Codec

/-!
# Encodings show places only

The seed stands at the end of an encoding. So encodings of nodes at the same places differ in nothing
but the bytes of seeds, and strings that differ in nothing else are read as nodes at the same places
or are refused alike.
-/

namespace RangeKeys.SeedNode

/-- How many bytes of an encoding come before the seed. -/
def numbersSize : Nat := 10

/-- The strings differ in nothing but the bytes of seeds, if encodings follow one another in them. -/
structure SameOutsideSeeds (bytes bytes' : List UInt8) : Prop where
  length_eq : bytes.length = bytes'.length
  numbers_eq : ∀ place, place % encodedSize < numbersSize → bytes[place]? = bytes'[place]?

variable {bytes bytes' rest rest' : List UInt8} {node node' : SeedNode}
  {nodes nodes' : List SeedNode}

namespace SameOutsideSeeds

theorem refl (bytes : List UInt8) : SameOutsideSeeds bytes bytes :=
  ⟨rfl, fun _ _ => rfl⟩

theorem take_eq (h : SameOutsideSeeds bytes bytes') :
    bytes.take numbersSize = bytes'.take numbersSize := by
  apply List.ext_getElem?
  intro place
  rw [List.getElem?_take, List.getElem?_take]
  by_cases early : place < numbersSize
  · have small : place < encodedSize := Nat.lt_trans early (by decide)
    rw [if_pos early, if_pos early]
    exact h.numbers_eq place (by rwa [Nat.mod_eq_of_lt small])
  · rw [if_neg early, if_neg early]

theorem drop (h : SameOutsideSeeds bytes bytes') :
    SameOutsideSeeds (bytes.drop encodedSize) (bytes'.drop encodedSize) where
  length_eq := by rw [List.length_drop, List.length_drop, h.length_eq]
  numbers_eq := by
    intro place shown
    rw [List.getElem?_drop, List.getElem?_drop]
    exact h.numbers_eq _ (by rwa [Nat.add_mod_left])

/-- Behind whole encodings the bytes of seeds stand where they would without them. -/
theorem append (h : SameOutsideSeeds bytes bytes') (whole : encodedSize ∣ bytes.length)
    (others : SameOutsideSeeds rest rest') : SameOutsideSeeds (bytes ++ rest) (bytes' ++ rest') where
  length_eq := by rw [List.length_append, List.length_append, h.length_eq, others.length_eq]
  numbers_eq := by
    intro place shown
    by_cases early : place < bytes.length
    · rw [List.getElem?_append_left early, List.getElem?_append_left (h.length_eq ▸ early)]
      exact h.numbers_eq place shown
    · have late : bytes.length ≤ place := Nat.le_of_not_lt early
      rw [List.getElem?_append_right late, List.getElem?_append_right (h.length_eq ▸ late),
        ← h.length_eq]
      obtain ⟨count, length_eq⟩ := whole
      rw [length_eq] at late ⊢
      exact others.numbers_eq _ (by rwa [Nat.sub_mul_mod late])

theorem flatten_append {strings strings' : List (List UInt8)}
    (h : List.Forall₂ (fun a b => SameOutsideSeeds a b ∧ encodedSize ∣ a.length) strings strings')
    (others : SameOutsideSeeds rest rest') :
    SameOutsideSeeds (strings.flatten ++ rest) (strings'.flatten ++ rest') := by
  induction h with
  | nil => exact others
  | cons same _ ih =>
    rw [List.flatten_cons, List.flatten_cons, List.append_assoc, List.append_assoc]
    exact same.1.append same.2 ih

end SameOutsideSeeds

/-! ## One node -/

/-- The bytes before the seed tell the place and nothing else. -/
theorem samePlace_iff :
    node.SamePlace node' ↔
      node.encode.toList.take numbersSize = node'.encode.toList.take numbersSize := by
  have numbers (node : SeedNode) : node.encode.toList.take numbersSize =
      (BigEndian.encode 2 node.depth.toNat).toList ++
        (BigEndian.encode 8 node.number.toNat).toList := by
    rw [toList_encode]
    exact List.take_left' (by simp [numbersSize])
  rw [numbers, numbers]
  constructor
  · intro same
    injection same with depth_eq number_eq
    rw [depth_eq, number_eq]
  · intro same
    obtain ⟨depth_eq, number_eq⟩ := List.append_inj same (by simp)
    have depth_eq := BigEndian.eq_of_toList_encode_eq node.depth.toNat_lt node'.depth.toNat_lt depth_eq
    have number_eq :=
      BigEndian.eq_of_toList_encode_eq node.number.toNat_lt node'.number.toNat_lt number_eq
    rw [SamePlace, position, position, depth_eq, number_eq]

theorem SamePlace.encode (same : node.SamePlace node') :
    SameOutsideSeeds node.encode.toList node'.encode.toList where
  length_eq := by rw [Vector.length_toList, Vector.length_toList]
  numbers_eq := by
    intro place shown
    by_cases within : place < encodedSize
    · rw [Nat.mod_eq_of_lt within] at shown
      rw [← List.getElem?_take_of_lt shown, samePlace_iff.1 same, List.getElem?_take_of_lt shown]
    · have outside (node : SeedNode) : node.encode.toList[place]? = none :=
        List.getElem?_eq_none (by rw [Vector.length_toList]; exact Nat.le_of_not_lt within)
      rw [outside, outside]

theorem endsAlike_decode (h : SameOutsideSeeds bytes bytes') :
    EndsAlike SamePlace (decode bytes) (decode bytes') := by
  by_cases enough : encodedSize ≤ bytes.length
  · have enough' : encodedSize ≤ bytes'.length := h.length_eq ▸ enough
    obtain ⟨node, node_eq⟩ := exists_toList_encode_eq (List.length_take_of_le enough)
    obtain ⟨node', node_eq'⟩ := exists_toList_encode_eq (List.length_take_of_le enough')
    rw [decode_eq_ok_iff.2 ⟨enough, node_eq⟩, decode_eq_ok_iff.2 ⟨enough', node_eq'⟩]
    have small : min numbersSize encodedSize = numbersSize := by decide
    refine .ok (samePlace_iff.2 ?_)
    rw [node_eq, node_eq', List.take_take, List.take_take, small, h.take_eq]
  · have few := Nat.lt_of_not_le enough
    have few' : bytes'.length < encodedSize := h.length_eq ▸ few
    rw [decode_of_lt few, decode_of_lt few', h.length_eq]
    exact .error _

/-! ## A list of nodes -/

theorem sameOutsideSeeds_encodeList (h : List.Forall₂ SamePlace nodes nodes') :
    SameOutsideSeeds (encodeList nodes) (encodeList nodes') := by
  induction h with
  | nil => exact .refl _
  | cons same _ ih =>
    rw [encodeList_cons, encodeList_cons]
    exact same.encode.append ⟨1, by rw [Vector.length_toList, Nat.mul_one]⟩ ih

theorem endsAlike_decodeCount (h : SameOutsideSeeds bytes bytes') (count : Nat) :
    EndsAlike (List.Forall₂ SamePlace) (decodeCount count bytes) (decodeCount count bytes') := by
  induction count generalizing bytes bytes' with
  | zero => exact .ok .nil
  | succ count ih =>
    exact (endsAlike_decode h).bind fun node node' same =>
      (ih h.drop).bind fun nodes nodes' others => .ok (.cons same others)

theorem endsAlike_decodeList (h : SameOutsideSeeds bytes bytes') :
    EndsAlike (List.Forall₂ SamePlace) (decodeList bytes) (decodeList bytes') := by
  rw [decodeList, decodeList, h.length_eq]
  by_cases whole : bytes'.length % encodedSize = 0
  · rw [if_pos whole, if_pos whole]
    exact endsAlike_decodeCount h _
  · rw [if_neg whole, if_neg whole]
    exact .error _

end RangeKeys.SeedNode
