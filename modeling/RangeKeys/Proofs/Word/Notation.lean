import RangeKeys.Proofs.Position.Notation
import RangeKeys.Proofs.Word.Exactness

/-!
# The digits of a word name a place

The digits that are taken from a word by repeated division spell it, so they split where the word
is divided and tell the words that fit from each other. In a tree the digits of a node are the
beginning of those of a leaf exactly if the leaf lies between the first and the last one below the
node.
-/

namespace RangeKeys

open Checked

/-- If a word can count the numbers that so many digits spell, it has more bits than there are
digits. -/
theorem count_lt_of_pow_le {base count : Nat} (two_le : 2 ≤ base)
    (fits : base ^ count ≤ 2 ^ 64 - 1) : count < 64 := by
  have two_pow_le : 2 ^ count ≤ base ^ count := Nat.pow_le_pow_left two_le count
  have lt : 2 ^ count < 2 ^ 64 := by omega
  exact (Nat.pow_lt_pow_iff_right Nat.one_lt_two).1 lt

/-- The sum of such counts does not wrap. -/
theorem toNat_add_of_pow_le {base : Nat} {a b : UInt16} (two_le : 2 ≤ base)
    (fits : base ^ (a.toNat + b.toNat) ≤ 2 ^ 64 - 1) : (a + b).toNat = a.toNat + b.toNat := by
  have few := count_lt_of_pow_le two_le fits
  rw [UInt16.toNat_add]
  omega

namespace TreeConfig

variable {config : TreeConfig} {value : UInt64} {count : UInt16} {branches : List UInt32}

section Digits

variable (pos : 0 < config.fanout.toNat)

include pos

theorem baseDigits_eq_ok_iff :
    config.baseDigits value count = .ok branches ↔
      branches = (digits config.fanout.toNat count.toNat value.toNat).map UInt32.ofNat := by
  rw [baseDigits_eq_digits pos, Except.ok.injEq, eq_comm]

theorem length_baseDigits (given : config.baseDigits value count = .ok branches) :
    branches.length = count.toNat := by
  obtain rfl := (baseDigits_eq_ok_iff pos).1 given
  rw [List.length_map, length_digits]

theorem lt_of_mem_baseDigits (given : config.baseDigits value count = .ok branches) :
    ∀ branch ∈ branches, branch.toNat < config.fanout.toNat := by
  obtain rfl := (baseDigits_eq_ok_iff pos).1 given
  intro branch mem
  obtain ⟨digit, digit_mem, rfl⟩ := List.mem_map.1 mem
  exact Nat.lt_of_le_of_lt (Nat.mod_le ..) (lt_of_mem_digits pos digit_mem)

theorem spelled_baseDigits (le_max : config.fanout.toNat ≤ maxFanout)
    (given : config.baseDigits value count = .ok branches) :
    spelled config.fanout.toNat branches = value.toNat % config.fanout.toNat ^ count.toNat := by
  obtain rfl := (baseDigits_eq_ok_iff pos).1 given
  exact spelled_digits pos le_max ..

end Digits

/-- The higher digits are those of the quotient. -/
theorem baseDigits_add (two_le : 2 ≤ config.fanout.toNat) (value : UInt64) {a b : UInt16}
    (fits : config.fanout.toNat ^ (a.toNat + b.toNat) ≤ 2 ^ 64 - 1) :
    ∃ high low,
      config.baseDigits (value / UInt64.ofNat (config.fanout.toNat ^ b.toNat)) a = .ok high ∧
      config.baseDigits value b = .ok low ∧
      config.baseDigits value (a + b) = .ok (high ++ low) := by
  have pos : 0 < config.fanout.toNat := Nat.zero_lt_of_lt two_le
  have divisor_le : config.fanout.toNat ^ b.toNat ≤ config.fanout.toNat ^ (a.toNat + b.toNat) :=
    Nat.pow_le_pow_right pos (Nat.le_add_left ..)
  have divisor_eq : (UInt64.ofNat (config.fanout.toNat ^ b.toNat)).toNat =
      config.fanout.toNat ^ b.toNat := toNat_of_lt (by simp only [UInt64.size]; omega)
  refine ⟨_, _, baseDigits_eq_digits pos .., baseDigits_eq_digits pos .., ?_⟩
  rw [baseDigits_eq_digits pos, toNat_add_of_pow_le two_le fits, digits_add, List.map_append,
    UInt64.toNat_div, divisor_eq]
  rfl

/-- Words that the digits can spell are told apart by them. -/
theorem eq_of_baseDigits_eq (pos : 0 < config.fanout.toNat)
    (le_max : config.fanout.toNat ≤ maxFanout) {v w : UInt64}
    (hv : v.toNat < config.fanout.toNat ^ count.toNat)
    (hw : w.toNat < config.fanout.toNat ^ count.toNat)
    (same : config.baseDigits v count = config.baseDigits w count) : v = w := by
  have given := baseDigits_eq_digits pos v count
  have value_v := spelled_baseDigits pos le_max given
  have value_w := spelled_baseDigits pos le_max (same ▸ given)
  rw [value_v, Nat.mod_eq_of_lt hv, Nat.mod_eq_of_lt hw] at value_w
  exact UInt64.toNat_inj.1 value_w

/-- The digits of a leaf begin with those of a node exactly if the leaf lies below the node. -/
theorem baseDigits_prefix_iff {shape : Shape} {node : SeedNode} {leaf : UInt64}
    (inTree : node.position.Exists shape) (leaf_lt : leaf.toNat < shape.leafCount) :
    ∃ path way first last,
      shape.config.baseDigits node.number node.depth = .ok path ∧
      shape.config.baseDigits leaf shape.config.depth = .ok way ∧
      shape.config.firstLeaf node = .ok first ∧ shape.config.lastLeaf node = .ok last ∧
      (path <+: way ↔ first ≤ leaf ∧ leaf ≤ last) := by
  have last_lt : (node.leaves shape).last < UInt64.size :=
    Nat.lt_trans inTree.last_lt shape.leafCount_lt
  have first_lt := Nat.lt_of_le_of_lt (node.leaves shape).first_le_last last_lt
  refine ⟨_, _, _, _, baseDigits_eq .., baseDigits_eq .., firstLeaf_eq inTree,
    lastLeaf_eq inTree, ?_⟩
  rw [UInt64.le_iff_toNat_le, UInt64.le_iff_toNat_le, toNat_of_lt first_lt, toNat_of_lt last_lt,
    shape.toNat_depth_config]
  exact Position.path_prefix_pathTo_iff inTree leaf_lt

/-- At a base from 2 to 256 as many digits are taken from a word as are asked for, all less than the
base, and they spell the word but for a multiple of the numbers that so many digits can spell. They
are the digits of the quotient followed by those of the rest, and words that the digits can spell
have different ones. In a tree the way to a leaf begins with the digits of a node exactly if the
leaf lies between the first and the last leaf below the node. -/
theorem digits_spell_places (config : TreeConfig) (two_le : 2 ≤ config.fanout.toNat)
    (le_max : config.fanout.toNat ≤ 256) :
    let fanout := config.fanout.toNat
    (∀ (value : UInt64) (a b : UInt16), fanout ^ (a.toNat + b.toNat) ≤ 2 ^ 64 - 1 →
      ∃ branches high low,
        config.baseDigits value (a + b) = .ok branches ∧
        config.baseDigits (value / UInt64.ofNat (fanout ^ b.toNat)) a = .ok high ∧
        config.baseDigits value b = .ok low ∧
        branches.length = a.toNat + b.toNat ∧
        (∀ branch ∈ branches, branch.toNat < fanout) ∧
        spelled fanout branches = value.toNat % fanout ^ (a.toNat + b.toNat) ∧
        branches = high ++ low) ∧
    (∀ (count : UInt16) (v w : UInt64),
      v.toNat < fanout ^ count.toNat → w.toNat < fanout ^ count.toNat →
      config.baseDigits v count = config.baseDigits w count → v = w) ∧
    (fanout ^ config.depth.toNat ≤ 2 ^ 64 - 1 → ∀ (node : SeedNode) (leaf : UInt64),
      node.depth.toNat ≤ config.depth.toNat → node.number.toNat < fanout ^ node.depth.toNat →
      leaf.toNat < fanout ^ config.depth.toNat →
      ∃ path way first last,
        config.baseDigits node.number node.depth = .ok path ∧
        config.baseDigits leaf config.depth = .ok way ∧
        config.firstLeaf node = .ok first ∧ config.lastLeaf node = .ok last ∧
        (path <+: way ↔ first ≤ leaf ∧ leaf ≤ last)) := by
  intro fanout
  have pos : 0 < config.fanout.toNat := Nat.zero_lt_of_lt two_le
  refine ⟨fun value a b fits => ?_, fun count v w hv hw same => ?_,
    fun fits node leaf depth_le number_lt leaf_lt => ?_⟩
  · obtain ⟨high, low, high_given, low_given, given⟩ := baseDigits_add two_le value fits
    have count_eq := toNat_add_of_pow_le two_le fits
    refine ⟨_, high, low, given, high_given, low_given, ?_, lt_of_mem_baseDigits pos given, ?_, rfl⟩
    · rw [length_baseDigits pos given, count_eq]
    · rw [spelled_baseDigits pos le_max given, count_eq]
  · exact eq_of_baseDigits_eq pos le_max hv hw same
  · have valid : config.Valid := ⟨two_le, le_max, fits⟩
    have inTree : node.position.Exists valid.shape := ⟨depth_le, number_lt⟩
    have place := baseDigits_prefix_iff inTree leaf_lt
    rw [valid.config_shape] at place
    exact place

/-- The digits of 2024 spell it, and begin with those of the node above the leaves from 2000 to
2099. -/
theorem digits_of_2024_begin_with_those_of_20 :
    baseDigits ⟨4, 10⟩ 2024 4 = .ok [2, 0, 2, 4] ∧ spelled 10 [2, 0, 2, 4] = 2024 ∧
      ∃ first last, firstLeaf ⟨4, 10⟩ ⟨⟨.replicate 16 7⟩, 2, 20⟩ = .ok first ∧
        lastLeaf ⟨4, 10⟩ ⟨⟨.replicate 16 7⟩, 2, 20⟩ = .ok last ∧ first ≤ 2024 ∧ 2024 ≤ last := by
  obtain ⟨values, -, places⟩ := digits_spell_places ⟨4, 10⟩ (by decide) (by decide)
  have digits_eq : baseDigits ⟨4, 10⟩ 2024 4 = .ok [2, 0, 2, 4] := rfl
  obtain ⟨branches, -, -, given, -, -, -, -, value, -⟩ := values 2024 2 2 (by decide)
  obtain rfl : [2, 0, 2, 4] = branches := Except.ok.inj (digits_eq.symm.trans given)
  obtain ⟨path, way, first, last, path_given, way_given, first_eq, last_eq, begins⟩ :=
    places (by decide) ⟨⟨.replicate 16 7⟩, 2, 20⟩ 2024 (by decide) (by decide) (by decide)
  obtain rfl : [2, 0, 2, 4] = way := Except.ok.inj (digits_eq.symm.trans way_given)
  have path_eq : baseDigits ⟨4, 10⟩ 20 2 = .ok [2, 0] := rfl
  obtain rfl : [2, 0] = path := Except.ok.inj (path_eq.symm.trans path_given)
  exact ⟨digits_eq, value, first, last, first_eq, last_eq, begins.1 (by simp)⟩

end TreeConfig

end RangeKeys
