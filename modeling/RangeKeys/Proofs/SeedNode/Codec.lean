import Mathlib.Algebra.Group.Nat.Defs
import RangeKeys.Tree.SeedNode

/-!
# Encodings and lists of nodes correspond

A big-endian field holds a number modulo the number of values of the field, and the fields of a
node are large enough for what they hold, so an encoded node is read back as it was. Every string
of as many bytes as a node takes is the encoding of one. So lists of nodes and strings of whole
encodings correspond one to one.
-/

namespace RangeKeys

namespace BigEndian

theorem foldl_decode (bytes : List UInt8) (start : Nat) :
    bytes.foldl (fun value byte => value * 256 + byte.toNat) start =
      start * 256 ^ bytes.length + decode bytes := by
  induction bytes generalizing start with
  | nil => simp [decode]
  | cons byte bytes ih =>
    simp only [decode, List.foldl_cons, List.length_cons]
    rw [ih, ih (0 * 256 + byte.toNat), Nat.zero_mul, Nat.zero_add, Nat.pow_succ',
      ← Nat.mul_assoc, Nat.add_mul, Nat.add_assoc]

theorem decode_cons (byte : UInt8) (bytes : List UInt8) :
    decode (byte :: bytes) = byte.toNat * 256 ^ bytes.length + decode bytes := by
  rw [decode, List.foldl_cons, foldl_decode, Nat.zero_mul, Nat.zero_add]

/-- Of a number that does not fit the field, the high part is lost. -/
theorem decode_encode (size value : Nat) :
    decode (encode size value).toList = value % 256 ^ size := by
  induction size with
  | zero =>
    rw [Nat.pow_zero, Nat.mod_one, encode, Vector.toList_ofFn]
    rfl
  | succ size ih =>
    have shift : value >>> (8 * size) = value / 256 ^ size := by
      rw [Nat.shiftRight_eq_div_pow, Nat.pow_mul]
    rw [toList_encode_succ, decode_cons, ih, shift, Vector.length_toList, Nat.mod_pow_succ]
    simp [Nat.mul_comm, Nat.add_comm]

/-- Numbers that fit the field are told apart by it. -/
theorem eq_of_toList_encode_eq {size a b : Nat} (ha : a < 256 ^ size) (hb : b < 256 ^ size)
    (h : (encode size a).toList = (encode size b).toList) : a = b := by
  have same := congrArg decode h
  rwa [decode_encode, decode_encode, Nat.mod_eq_of_lt ha, Nat.mod_eq_of_lt hb] at same

theorem decode_lt (bytes : List UInt8) : decode bytes < 256 ^ bytes.length := by
  induction bytes with
  | nil => exact Nat.one_pos
  | cons byte bytes ih =>
    have byte_lt : byte.toNat < 256 := byte.toNat_lt
    have high : (byte.toNat + 1) * 256 ^ bytes.length ≤ 256 * 256 ^ bytes.length :=
      Nat.mul_le_mul_right _ byte_lt
    rw [decode_cons, List.length_cons, Nat.pow_succ']
    rw [Nat.succ_mul] at high
    omega

/-- Fields of one size that hold the same number are the same. -/
theorem eq_of_decode_eq {a b : List UInt8} (length_eq : a.length = b.length)
    (h : decode a = decode b) : a = b := by
  induction a generalizing b with
  | nil => exact (List.eq_nil_of_length_eq_zero length_eq.symm).symm
  | cons byte bytes ih =>
    cases b with
    | nil => cases length_eq
    | cons other others =>
      have rest_length : bytes.length = others.length := Nat.succ.inj length_eq
      have low := decode_lt bytes
      have other_low := decode_lt others
      have pos : 0 < 256 ^ others.length := Nat.pow_pos (by decide)
      rw [decode_cons, decode_cons, rest_length] at h
      rw [rest_length] at low
      have top : byte.toNat = other.toNat := by
        have quotients := congrArg (· / 256 ^ others.length) h
        simpa [Nat.mul_comm, Nat.mul_add_div pos, Nat.div_eq_of_lt low,
          Nat.div_eq_of_lt other_low] using quotients
      rw [UInt8.toNat_inj.1 top, ih rest_length (by rw [top] at h; omega)]

theorem encode_decode {size : Nat} (bytes : Vector UInt8 size) :
    encode size (decode bytes.toList) = bytes := by
  have lt := decode_lt bytes.toList
  rw [Vector.length_toList] at lt
  apply Vector.toList_inj.1
  apply eq_of_decode_eq
  · rw [Vector.length_toList, Vector.length_toList]
  · rw [decode_encode, Nat.mod_eq_of_lt lt]

end BigEndian

namespace SeedNode

/-! ## One node -/

theorem toList_encode (node : SeedNode) :
    node.encode.toList = (BigEndian.encode 2 node.depth.toNat).toList ++
      (BigEndian.encode 8 node.number.toNat).toList ++ node.seed.bytes.toList := by
  show (BigEndian.encode 2 node.depth.toNat ++ BigEndian.encode 8 node.number.toNat ++
    node.seed.bytes).toList = _
  rw [Vector.toList_append, Vector.toList_append]

theorem ofEncoding_encode (node : SeedNode) : ofEncoding node.encode = .ok node := by
  obtain ⟨seed, depth, number⟩ := node
  have depth_field : Bytes.window (encode ⟨seed, depth, number⟩) 0 2 (by decide) =
      BigEndian.encode 2 depth.toNat :=
    (Bytes.window_append_of_le _ _ (by decide) _).trans (Bytes.window_append_left ..)
  have number_field : Bytes.window (encode ⟨seed, depth, number⟩) 2 8 (by decide) =
      BigEndian.encode 8 number.toNat :=
    (Bytes.window_append_of_le _ _ (by decide) _).trans (Bytes.window_append_right ..)
  have seed_field : (encode ⟨seed, depth, number⟩).toList.drop 10 = seed.bytes.toList := by
    rw [toList_encode]
    exact List.drop_left' (by simp)
  have depth_lt : depth.toNat < 256 ^ 2 := depth.toNat_lt
  have number_lt : number.toNat < 256 ^ 8 := number.toNat_lt
  simp only [ofEncoding, depth_field, number_field, seed_field, Key.ofBytes_toList,
    BigEndian.decode_encode, Nat.mod_eq_of_lt depth_lt, Nat.mod_eq_of_lt number_lt,
    UInt16.ofNat_toNat, UInt64.ofNat_toNat]
  rfl

/-- Every string of 26 bytes is the encoding of a node. -/
theorem exists_encode_eq (bytes : Vector UInt8 encodedSize) :
    ∃ node : SeedNode, node.encode = bytes := by
  let numbers : Vector UInt8 (2 + 8) := Bytes.window bytes 0 10 (by decide)
  let depth := Bytes.window numbers 0 2 (by decide)
  let number := Bytes.window numbers 2 8 (by decide)
  have depth_lt : BigEndian.decode depth.toList < UInt16.size := by
    have lt := BigEndian.decode_lt depth.toList
    rwa [Vector.length_toList] at lt
  have number_lt : BigEndian.decode number.toList < UInt64.size := by
    have lt := BigEndian.decode_lt number.toList
    rwa [Vector.length_toList] at lt
  refine ⟨⟨⟨Bytes.window bytes 10 16 (by decide)⟩, .ofNat (BigEndian.decode depth.toList),
    .ofNat (BigEndian.decode number.toList)⟩, ?_⟩
  rw [encode, UInt16.toNat_ofNat_of_lt' depth_lt, UInt64.toNat_ofNat_of_lt' number_lt,
    BigEndian.encode_decode, BigEndian.encode_decode, Bytes.append_windows numbers]
  exact Bytes.append_windows (m := 10) (n := 16) bytes (by decide) (by decide)

theorem exists_toList_encode_eq {bytes : List UInt8} (h : bytes.length = encodedSize) :
    ∃ node : SeedNode, node.encode.toList = bytes := by
  obtain ⟨node, node_eq⟩ := exists_encode_eq ⟨bytes.toArray, by simpa using h⟩
  exact ⟨node, by rw [node_eq]; rfl⟩

/-- What follows the first node is not read. -/
theorem decode_encode_append (node : SeedNode) (rest : List UInt8) :
    decode (node.encode.toList ++ rest) = .ok node := by
  rw [decode, List.take_left' Vector.length_toList, Bytes.sized?_toList]
  exact ofEncoding_encode node

theorem decode_of_lt {bytes : List UInt8} (few : bytes.length < encodedSize) :
    decode bytes = .error (.invalidNodeEncoding encodedSize bytes.length) := by
  have short : (bytes.take encodedSize).length ≠ encodedSize := by
    rw [List.length_take]
    omega
  rw [decode, Bytes.sized?_eq_none_iff.2 short]

/-- A node is read exactly if its encoding comes first. -/
theorem decode_eq_ok_iff {bytes : List UInt8} {node : SeedNode} :
    decode bytes = .ok node ↔
      encodedSize ≤ bytes.length ∧ node.encode.toList = bytes.take encodedSize := by
  constructor
  · intro h
    by_cases enough : encodedSize ≤ bytes.length
    · obtain ⟨first, first_eq⟩ := exists_toList_encode_eq (List.length_take_of_le enough)
      have found := decode_encode_append first (bytes.drop encodedSize)
      rw [first_eq, List.take_append_drop, h] at found
      injection found with node_eq
      rw [node_eq]
      exact ⟨enough, first_eq⟩
    · rw [decode_of_lt (Nat.lt_of_not_le enough)] at h
      cases h
  · intro ⟨_, first_eq⟩
    have found := decode_encode_append node (bytes.drop encodedSize)
    rwa [first_eq, List.take_append_drop] at found

/-! ## A list of nodes -/

theorem encodeList_cons (node : SeedNode) (nodes : List SeedNode) :
    encodeList (node :: nodes) = node.encode.toList ++ encodeList nodes := rfl

theorem length_encodeList (nodes : List SeedNode) :
    (encodeList nodes).length = encodedSize * nodes.length := by
  induction nodes with
  | nil => rfl
  | cons node nodes ih =>
    rw [encodeList_cons, List.length_append, ih, Vector.length_toList, List.length_cons,
      Nat.mul_succ, Nat.add_comm]

theorem decodeCount_encodeList (nodes : List SeedNode) :
    decodeCount nodes.length (encodeList nodes) = .ok nodes := by
  induction nodes with
  | nil => rfl
  | cons node nodes ih =>
    rw [List.length_cons, encodeList_cons, decodeCount, decode_encode_append,
      List.drop_left' Vector.length_toList, ih]
    rfl

theorem decodeList_encodeList (nodes : List SeedNode) :
    decodeList (encodeList nodes) = .ok nodes := by
  have size_pos : 0 < encodedSize := by decide
  rw [decodeList, length_encodeList, if_pos (Nat.mul_mod_right ..),
    Nat.mul_div_cancel_left _ size_pos, decodeCount_encodeList]

theorem encodeList_append (xs ys : List SeedNode) :
    encodeList (xs ++ ys) = encodeList xs ++ encodeList ys :=
  List.flatMap_append ..

/-- Whole encodings are those of a list of nodes. -/
theorem exists_encodeList_eq {count : Nat} {bytes : List UInt8}
    (h : bytes.length = encodedSize * count) : ∃ nodes, encodeList nodes = bytes := by
  induction count generalizing bytes with
  | zero => exact ⟨[], (List.eq_nil_of_length_eq_zero h).symm⟩
  | succ count ih =>
    rw [Nat.mul_succ] at h
    have enough : encodedSize ≤ bytes.length := by omega
    have rest_length : (bytes.drop encodedSize).length = encodedSize * count := by
      rw [List.length_drop]
      omega
    obtain ⟨node, node_eq⟩ := exists_toList_encode_eq (List.length_take_of_le enough)
    obtain ⟨nodes, nodes_eq⟩ := ih rest_length
    refine ⟨node :: nodes, ?_⟩
    rw [encodeList_cons, node_eq, nodes_eq, List.take_append_drop]

theorem decodeList_of_not_dvd {bytes : List UInt8} (h : ¬ encodedSize ∣ bytes.length) :
    decodeList bytes = .error (.trailingNodeBytes (bytes.length % encodedSize)) :=
  if_neg fun whole => h (Nat.dvd_of_mod_eq_zero whole)

/-- Reading a list of nodes undoes exactly the encoding of it. -/
theorem decodeList_eq_ok_iff {bytes : List UInt8} {nodes : List SeedNode} :
    decodeList bytes = .ok nodes ↔ encodeList nodes = bytes := by
  constructor
  · intro h
    by_cases whole : encodedSize ∣ bytes.length
    · obtain ⟨count, length_eq⟩ := whole
      obtain ⟨others, others_eq⟩ := exists_encodeList_eq length_eq
      have found := decodeList_encodeList others
      rw [others_eq, h] at found
      injection found with nodes_eq
      rw [nodes_eq, others_eq]
    · rw [decodeList_of_not_dvd whole] at h
      cases h
  · intro h
    rw [← h]
    exact decodeList_encodeList nodes

/-- Lists of nodes and strings of whole encodings correspond one to one, and joining the one is
joining the other. A string that leaves bytes over is refused with their number and for no other
reason, and a single node is read just where 26 bytes are there for it. -/
theorem decodeList_inverts_encodeList :
    (∀ nodes, decodeList (encodeList nodes) = .ok nodes) ∧
    (∀ bytes, (∃ nodes, decodeList bytes = .ok nodes) ↔ 26 ∣ bytes.length) ∧
    (∀ bytes nodes, decodeList bytes = .ok nodes → encodeList nodes = bytes) ∧
    (∀ bytes, ¬ 26 ∣ bytes.length →
      decodeList bytes = .error (.trailingNodeBytes (bytes.length % 26))) ∧
    (∀ xs ys, encodeList (xs ++ ys) = encodeList xs ++ encodeList ys) ∧
    (∀ a b xs ys, decodeList a = .ok xs → decodeList b = .ok ys →
      decodeList (a ++ b) = .ok (xs ++ ys)) ∧
    (∀ bytes node, decode bytes = .ok node ↔
      26 ≤ bytes.length ∧ node.encode.toList = bytes.take 26) ∧
    ∀ bytes, (¬ ∃ node, decode bytes = .ok node) →
      bytes.length < 26 ∧ decode bytes = .error (.invalidNodeEncoding 26 bytes.length) := by
  refine ⟨decodeList_encodeList, fun bytes => ⟨?_, ?_⟩, fun bytes nodes => decodeList_eq_ok_iff.1,
    fun bytes => decodeList_of_not_dvd, encodeList_append, ?_,
    fun bytes node => decode_eq_ok_iff, ?_⟩
  · intro ⟨nodes, h⟩
    exact ⟨nodes.length, by rw [← decodeList_eq_ok_iff.1 h]; exact length_encodeList nodes⟩
  · intro ⟨count, length_eq⟩
    obtain ⟨nodes, nodes_eq⟩ := exists_encodeList_eq length_eq
    exact ⟨nodes, decodeList_eq_ok_iff.2 nodes_eq⟩
  · intro a b xs ys ha hb
    rw [decodeList_eq_ok_iff] at ha hb ⊢
    rw [encodeList_append, ha, hb]
  · intro bytes refused
    by_cases enough : 26 ≤ bytes.length
    · obtain ⟨node, node_eq⟩ := exists_toList_encode_eq (List.length_take_of_le enough)
      exact absurd ⟨node, decode_eq_ok_iff.2 ⟨enough, node_eq⟩⟩ refused
    · have few := Nat.lt_of_not_le enough
      exact ⟨few, decode_of_lt few⟩

end SeedNode

end RangeKeys
