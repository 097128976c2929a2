import RangeKeys.Proofs.KeyTree.Construction
import RangeKeys.Word.Config

/-!
# Leaf numbers fit in words

A configuration with a number of leaves is valid. In the tree that it asks for there is a word
for the number of leaves, so there is one for each count of leaves below a node of the tree, for
each count of nodes of a level and for the first and the last leaf below a node. None of these is
cut off.
-/

namespace RangeKeys

open Checked

/-! ## The configuration of a shape -/

namespace Shape

variable (shape : Shape)

theorem toNat_depth_config : shape.config.depth.toNat = shape.depth :=
  UInt16.toNat_ofNat_of_lt (Nat.lt_trans shape.depth_lt (by decide))

theorem toNat_fanout_config : shape.config.fanout.toNat = shape.fanout :=
  UInt32.toNat_ofNat_of_lt (Nat.lt_of_le_of_lt shape.fanout_le_max (by decide))

theorem toNat_base_config : shape.config.base.toNat = shape.fanout := by
  rw [TreeConfig.base, UInt32.toNat_toUInt64, toNat_fanout_config]

theorem base_config_ne_zero : shape.config.base ≠ 0 := by
  intro zero
  have pos := shape.fanout_pos
  rw [← toNat_base_config, zero] at pos
  exact absurd pos (by decide)

theorem descendants_lt_size {levels : Nat} (le : levels ≤ shape.depth) :
    shape.descendants levels < UInt64.size :=
  Nat.lt_of_le_of_lt (shape.descendants_le_leafCount le) shape.leafCount_lt

end Shape

namespace TreeConfig

variable {config : TreeConfig} {shape : Shape}

theorem Valid.config_shape (valid : config.Valid) : valid.shape.config = config := by
  obtain ⟨depth, fanout⟩ := config
  have depth_eq : UInt16.ofNat depth.toNat = depth := UInt16.ofNat_toNat
  have fanout_eq : UInt32.ofNat fanout.toNat = fanout := UInt32.ofNat_toNat
  rw [Shape.config, Valid.shape, depth_eq, fanout_eq]

/-! ## The number of leaves -/

/-- A configuration has a number of leaves if a tree can have its shape, and is refused alike if
not. -/
theorem leafCount_eq (config : TreeConfig) :
    config.leafCount = config.shape.map fun shape => UInt64.ofNat shape.leafCount := by
  have bounds : (2 ≤ config.fanout ∧ config.fanout ≤ 256) ↔
      2 ≤ config.fanout.toNat ∧ config.fanout.toNat ≤ maxFanout := Iff.rfl
  have base : config.base.toNat = config.fanout.toNat := UInt32.toNat_toUInt64 _
  simp only [leafCount, shape, bounds, pow?, base]
  by_cases range : 2 ≤ config.fanout.toNat ∧ config.fanout.toNat ≤ maxFanout
  · rw [if_pos range, dif_pos range]
    by_cases fit : config.fanout.toNat.pow config.depth.toNat < UInt64.size
    · rw [if_pos fit, dif_pos fit]
      rfl
    · rw [if_neg fit, dif_neg fit]
      rfl
  · rw [if_neg range, dif_neg range]
    rfl

theorem leafCount_eq_ok_iff {count : UInt64} :
    config.leafCount = .ok count ↔
      config.Valid ∧ count.toNat = config.fanout.toNat ^ config.depth.toNat := by
  constructor
  · intro counted
    rw [leafCount_eq] at counted
    cases shaped : config.shape with
    | error e =>
      rw [shaped] at counted
      cases counted
    | ok shape =>
      obtain ⟨valid, rfl⟩ := shape_eq_ok_iff.1 shaped
      rw [shaped] at counted
      injection counted with counted
      rw [← counted]
      exact ⟨valid, toNat_of_lt valid.shape.leafCount_lt⟩
  · rintro ⟨valid, exact_count⟩
    rw [leafCount_eq, valid.shape_eq]
    refine congrArg Except.ok (UInt64.toNat_inj.1 ?_)
    rw [toNat_of_lt valid.shape.leafCount_lt, exact_count]
    rfl

/-- A configuration without a number of leaves is refused as a configuration. -/
theorem exists_leafCount_eq_error (invalid : ¬ config.Valid) :
    ∃ reason, config.leafCount = .error (.invalidConfig reason) := by
  simp only [leafCount]
  split
  · rename_i range
    cases power : pow? config.base config.depth.toNat with
    | none => exact ⟨_, rfl⟩
    | some count =>
      have counted : config.leafCount = .ok count := by
        rw [leafCount, if_pos range, power]
      exact absurd (leafCount_eq_ok_iff.1 counted).1 invalid
  · exact ⟨_, rfl⟩

/-! ## Nodes of a tree -/

theorem pow_base_config {levels : Nat} (le : levels ≤ shape.depth) :
    pow shape.config.base levels = .ok (UInt64.ofNat (shape.descendants levels)) := by
  rw [pow_eq_ok_iff, shape.toNat_base_config]
  exact toNat_of_lt (shape.descendants_lt_size le)

theorem sub_depth_config {depth : UInt16} (le : depth.toNat ≤ shape.depth) :
    ∃ levels : UInt16, sub shape.config.depth depth = .ok levels ∧
      levels.toNat = shape.depth - depth.toNat := by
  have le' : depth ≤ shape.config.depth := by
    rw [UInt16.le_iff_toNat_le, shape.toNat_depth_config]
    exact le
  refine ⟨_, sub_eq_ok le', ?_⟩
  rw [UInt16.toNat_sub_of_le _ _ le', shape.toNat_depth_config]

theorem width_eq {depth : UInt16} (le : depth.toNat ≤ shape.depth) :
    shape.config.width depth = .ok (UInt64.ofNat (shape.descendants depth.toNat)) :=
  pow_base_config le

theorem span_eq {depth : UInt16} (le : depth.toNat ≤ shape.depth) :
    shape.config.span depth =
      .ok (UInt64.ofNat (shape.descendants (shape.depth - depth.toNat))) := by
  obtain ⟨levels, subtracted, exact_levels⟩ := sub_depth_config le
  rw [span, subtracted, except_ok_bind, exact_levels]
  exact pow_base_config (Nat.sub_le ..)

theorem firstLeafAt_eq {depth : UInt16} {number : UInt64}
    (inTree : Position.Exists shape ⟨depth.toNat, number.toNat⟩) :
    shape.config.firstLeafAt depth number =
      .ok (UInt64.ofNat (Position.leaves shape ⟨depth.toNat, number.toNat⟩).first) := by
  have bound : number.toNat * shape.descendants (shape.depth - depth.toNat) < UInt64.size :=
    Nat.lt_of_le_of_lt (Position.leaves shape ⟨depth.toNat, number.toNat⟩).first_le_last
      (Nat.lt_trans inTree.last_lt shape.leafCount_lt)
  rw [firstLeafAt, span_eq inTree.1, except_ok_bind, mul_eq_ok_iff,
    toNat_of_lt (shape.descendants_lt_size (Nat.sub_le ..))]
  exact toNat_of_lt bound

variable {node : SeedNode}

theorem firstLeaf_eq (inTree : node.position.Exists shape) :
    shape.config.firstLeaf node = .ok (UInt64.ofNat (node.leaves shape).first) :=
  firstLeafAt_eq inTree

theorem lastLeaf_eq (inTree : node.position.Exists shape) :
    shape.config.lastLeaf node = .ok (UInt64.ofNat (node.leaves shape).last) := by
  have first_le := (node.leaves shape).first_le_last
  have last_lt := Nat.lt_trans inTree.last_lt shape.leafCount_lt
  have wide := shape.descendants_lt_size (Nat.sub_le shape.depth node.depth.toNat)
  have one_le : (1 : UInt64) ≤
      UInt64.ofNat (shape.descendants (shape.depth - node.depth.toNat)) := by
    rw [UInt64.le_iff_toNat_le, toNat_of_lt wide]
    exact shape.descendants_pos _
  rw [lastLeaf, firstLeaf_eq inTree, except_ok_bind, span_eq inTree.1, except_ok_bind,
    sub_eq_ok one_le, except_ok_bind, add_eq_ok_iff, UInt64.toNat_sub_of_le _ _ one_le,
    toNat_of_lt wide, toNat_of_lt (Nat.lt_of_le_of_lt first_le last_lt)]
  exact toNat_of_lt last_lt

/-- Also the leaf after the last one below a node has a word. -/
theorem toNat_succ_lastLeaf (inTree : node.position.Exists shape) :
    (UInt64.ofNat (node.leaves shape).last + 1).toNat = (node.leaves shape).last + 1 := by
  have last_lt : (node.leaves shape).last < shape.leafCount := inTree.last_lt
  have fits := shape.leafCount_lt
  rw [UInt64.toNat_add, toNat_of_lt (Nat.lt_trans last_lt fits)]
  exact Nat.mod_eq_of_lt (Nat.lt_of_le_of_lt last_lt fits)

/-! ## Digits -/

theorem lowDigits_eq {base : UInt64} (ne : base ≠ 0) (count : Nat) (rest : UInt64)
    (known : List UInt32) :
    lowDigits base count rest known =
      .ok ((digits base.toNat count rest.toNat).map UInt32.ofNat ++ known) := by
  induction count generalizing rest known with
  | zero => rfl
  | succ n ih =>
    have lowest : digits base.toNat (n + 1) rest.toNat =
        digits base.toNat n (rest / base).toNat ++ [(rest % base).toNat] := by
      rw [digits_add, UInt64.toNat_div, UInt64.toNat_mod]
      simp [digits]
    rw [lowDigits, mod_eq_ok ne, except_ok_bind, div_eq_ok ne, except_ok_bind, ih, lowest,
      List.map_append, List.append_assoc]
    rfl

/-- The digits in words are those of the number, whatever the depth of the tree. -/
theorem baseDigits_eq_digits (pos : 0 < config.fanout.toNat) (value : UInt64) (count : UInt16) :
    config.baseDigits value count =
      .ok ((digits config.fanout.toNat count.toNat value.toNat).map UInt32.ofNat) := by
  have base_eq : config.base.toNat = config.fanout.toNat := UInt32.toNat_toUInt64 _
  have ne : config.base ≠ 0 := by
    intro zero
    rw [← base_eq, zero] at pos
    exact Nat.lt_irrefl 0 pos
  rw [baseDigits, lowDigits_eq ne, List.append_nil, base_eq]

theorem baseDigits_eq (shape : Shape) (value : UInt64) (count : UInt16) :
    shape.config.baseDigits value count =
      .ok ((digits shape.fanout count.toNat value.toNat).map UInt32.ofNat) := by
  have pos : 0 < shape.config.fanout.toNat := by
    rw [shape.toNat_fanout_config]
    exact shape.fanout_pos
  rw [baseDigits_eq_digits pos, shape.toNat_fanout_config]

end TreeConfig

end RangeKeys
