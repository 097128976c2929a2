import RangeKeys.Derivation
import RangeKeys.Proofs.SeedNode.Codec

/-!
# Blocks that are encrypted to derive something

The block of a child index has twelve zeros in front, that of a metadata id eight ones on the side
of its purpose, and that of a leaf has only ones. So blocks of different inputs differ, save for
the one block of ones, which the greatest id has for either purpose.
-/

namespace RangeKeys

theorem BigEndian.eq_of_encode_eq {size a b : Nat} (ha : a < 256 ^ size) (hb : b < 256 ^ size)
    (h : encode size a = encode size b) : a = b :=
  eq_of_toList_encode_eq ha hb (congrArg Vector.toList h)

theorem indexBlock_inj {i j : UInt32} : indexBlock i = indexBlock j ↔ i = j := by
  have fits (index : UInt32) : index.toNat < 256 ^ 16 :=
    Nat.lt_trans index.toNat_lt (by decide)
  constructor
  · intro same
    exact UInt32.toNat_inj.1 (BigEndian.eq_of_encode_eq (fits i) (fits j) same)
  · exact congrArg indexBlock

/-- An index takes four bytes, the others are zero. -/
theorem getElem_indexBlock (index : UInt32) {place : Nat} (front : place < 12) :
    (indexBlock index)[place] = 0 := by
  have small : index.toNat < 2 ^ (8 * (16 - 1 - place)) :=
    Nat.lt_of_lt_of_le index.toNat_lt (Nat.pow_le_pow_right (by decide) (by omega))
  simp only [indexBlock, BigEndian.encode, Vector.getElem_ofFn, Nat.shiftRight_eq_div_pow,
    Nat.div_eq_of_lt small]
  rfl

/-- The id whose eight bytes are all ones. -/
def greatestId : UInt64 := 0xffffffffffffffff

theorem encode_greatestId : BigEndian.encode 8 greatestId.toNat = Vector.replicate 8 0xff := by
  decide

theorem encode_id_inj {a b : UInt64} :
    BigEndian.encode 8 a.toNat = BigEndian.encode 8 b.toNat ↔ a = b := by
  constructor
  · intro same
    exact UInt64.toNat_inj.1 (BigEndian.eq_of_encode_eq a.toNat_lt b.toNat_lt same)
  · exact congrArg fun id : UInt64 => BigEndian.encode 8 id.toNat

theorem encode_id_eq_ones_iff {id : UInt64} :
    BigEndian.encode 8 id.toNat = Vector.replicate 8 0xff ↔ id = greatestId := by
  rw [← encode_greatestId, encode_id_inj]

theorem metadataBlock_inj {purpose : Purpose} {a b : UInt64} :
    metadataBlock purpose a = metadataBlock purpose b ↔ a = b := by
  cases purpose with
  | encryption => rw [metadataBlock, metadataBlock, Vector.append_right_inj, encode_id_inj]
  | mac => rw [metadataBlock, metadataBlock, Vector.append_left_inj, encode_id_inj]

theorem leafBlock_eq (purpose : Purpose) : leafBlock = metadataBlock purpose greatestId := by
  cases purpose <;> decide

theorem encryption_eq_mac_iff {a b : UInt64} :
    metadataBlock .encryption a = metadataBlock .mac b ↔ a = greatestId ∧ b = greatestId := by
  constructor
  · intro same
    obtain ⟨front, back⟩ := Vector.append_inj same
    exact ⟨encode_id_eq_ones_iff.1 back, encode_id_eq_ones_iff.1 front.symm⟩
  · rintro ⟨rfl, rfl⟩
    exact (leafBlock_eq .encryption).symm.trans (leafBlock_eq .mac)

/-- The greatest id is the only one that the two purposes do not tell apart. -/
theorem metadataBlock_eq_iff {p q : Purpose} {a b : UInt64} :
    metadataBlock p a = metadataBlock q b ↔
      p = q ∧ a = b ∨ a = greatestId ∧ b = greatestId := by
  by_cases purpose : p = q
  · subst purpose
    rw [metadataBlock_inj]
    exact ⟨fun same => .inl ⟨rfl, same⟩, fun
      | .inl ⟨_, same⟩ => same
      | .inr ⟨ha, hb⟩ => ha.trans hb.symm⟩
  · cases p with
    | encryption =>
      cases q with
      | encryption => exact absurd rfl purpose
      | mac => simp [encryption_eq_mac_iff]
    | mac =>
      cases q with
      | encryption => simp [eq_comm (a := metadataBlock _ a), encryption_eq_mac_iff, and_comm]
      | mac => exact absurd rfl purpose

/-- Where the block of an index has zeros, a metadata block has at least one byte of ones. -/
theorem indexBlock_ne_metadataBlock (index : UInt32) (purpose : Purpose) (id : UInt64) :
    indexBlock index ≠ metadataBlock purpose id := by
  intro same
  cases purpose with
  | encryption =>
    have zero : (metadataBlock .encryption id)[0] = 0 := by
      rw [← same, getElem_indexBlock index (by decide)]
    rw [metadataBlock, Vector.getElem_append_left (by decide), Vector.getElem_replicate] at zero
    exact absurd zero (by decide)
  | mac =>
    have zero : (metadataBlock .mac id)[8] = 0 := by
      rw [← same, getElem_indexBlock index (by decide)]
    rw [metadataBlock, Vector.getElem_append_right _ (by decide), Vector.getElem_replicate] at zero
    exact absurd zero (by decide)

theorem indexBlock_ne_leafBlock (index : UInt32) : indexBlock index ≠ leafBlock := by
  rw [leafBlock_eq .mac]
  exact indexBlock_ne_metadataBlock index .mac greatestId

/-- What is encrypted to derive a key or a word. -/
inductive DerivationInput where
  /-- A child index. -/
  | child (index : UInt32)
  /-- A metadata id, for a purpose. -/
  | metadata (purpose : Purpose) (id : UInt64)
  /-- The constant for the word of a leaf. -/
  | leaf
deriving DecidableEq

namespace DerivationInput

/-- The input as a block. -/
def block : DerivationInput → Block
  | child index => indexBlock index
  | metadata purpose id => metadataBlock purpose id
  | leaf => leafBlock

/-- The input is one of the three whose blocks have only ones. -/
def AllOnes : DerivationInput → Prop
  | child _ => False
  | metadata _ id => id = greatestId
  | leaf => True

theorem block_eq_iff {x y : DerivationInput} :
    x.block = y.block ↔ x = y ∨ x.AllOnes ∧ y.AllOnes := by
  cases x with
  | child i =>
    cases y with
    | child j => simp [block, AllOnes, indexBlock_inj]
    | metadata q b => simp [block, AllOnes, indexBlock_ne_metadataBlock]
    | leaf => simp [block, AllOnes, indexBlock_ne_leafBlock]
  | metadata p a =>
    cases y with
    | child j => simp [block, AllOnes, (indexBlock_ne_metadataBlock j p a).symm]
    | metadata q b => simp [block, AllOnes, metadataBlock_eq_iff]
    | leaf => simp [block, AllOnes, leafBlock_eq p, metadataBlock_inj]
  | leaf =>
    cases y with
    | child j => simp [block, AllOnes, (indexBlock_ne_leafBlock j).symm]
    | metadata q b => simp [block, AllOnes, leafBlock_eq q, metadataBlock_inj, eq_comm]
    | leaf => simp

end DerivationInput

end RangeKeys
