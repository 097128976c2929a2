import RangeKeys.Aes.Substitution
import RangeKeys.Bytes

/-!
# AES with a key of 128 bits

A state holds four columns of four bytes, one column after the other: byte `i` stands in
row `i % 4` of column `i / 4`. Each of the three steps of a round and the addition of a
round key can be undone, so for a fixed key encryption permutes the blocks.
-/

namespace RangeKeys.Aes

/-- Substitutes every byte. -/
def subBytes (state : Block) : Block :=
  state.map subByte

/-- Row `r` moves left by `r` columns. -/
def shiftRows (state : Block) : Block :=
  Vector.ofFn fun i => state[5 * i.val % 16]

/-- Multiplies every column by the circulant matrix with first row `2 3 1 1`. -/
def mixColumns (state : Block) : Block :=
  Vector.ofFn fun i =>
    let column (row : Nat) : UInt8 := state[i.val / 4 * 4 + (i.val + row) % 4]
    double (column 0) ^^^ (double (column 1) ^^^ column 1) ^^^ column 2 ^^^ column 3

/-- The round key after `key`. Its first word adds the rotated and substituted last word and the
round constant to the first word of `key`, and each further word adds the word before it. -/
def nextRoundKey (constant : UInt8) (key : Block) : Block :=
  Vector.ofFn fun i =>
    let row := i.val % 4
    let substituted := subByte (key[12 + (row + 1) % 4])
    let mixed := substituted ^^^ (if row = 0 then constant else 0)
    let word (n : Fin 4) : UInt8 :=
      if 4 * n.val ≤ i.val then key[row + 4 * n.val] else 0
    mixed ^^^ word 0 ^^^ word 1 ^^^ word 2 ^^^ word 3

/-- As many rounds with all three steps as `full` counts and a last one without mixing, each ended
by the round key that follows `key` in the schedule. The round constants are the powers of `x`. -/
def rounds : (full : Nat) → (constant : UInt8) → (key state : Block) → Block
  | 0, constant, key, state =>
    Bytes.xor (shiftRows (subBytes state)) (nextRoundKey constant key)
  | n + 1, constant, key, state =>
    let key := nextRoundKey constant key
    rounds n (double constant) key (Bytes.xor (mixColumns (shiftRows (subBytes state))) key)

/-- The encryption of one block: ten rounds after the key is added. -/
def encrypt (key block : Block) : Block :=
  rounds 9 1 key (Bytes.xor block key)

end RangeKeys.Aes
