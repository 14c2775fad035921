import Div0.Uint256

/-!
The word operations of the virtual machine besides sum, difference and product:
comparisons, bitwise operations, shifts, sign extension, exponentiation, and the
conversions between words, addresses and hashes. An array of four limbs is a word; a
loop over its limbs gives each limb of the result.
-/

namespace Div0.Uint256Ops

open Uint256

def limb (a : Word) : ℕ → UInt64
  | 0 => a.limb0
  | 1 => a.limb1
  | 2 => a.limb2
  | _ => a.limb3

def ofLimbs (f : ℕ → UInt64) : Word := ⟨f 0, f 1, f 2, f 3⟩

def allOnes : UInt64 := 0xffffffffffffffff

def uint256Gt (a b : Word) : Bool := uint256Lt b a

def uint256IsNegative (a : Word) : Bool := a.limb3 >>> 63 != 0

def uint256Slt (a b : Word) : Bool :=
  let aNeg := uint256IsNegative a
  let bNeg := uint256IsNegative b
  if aNeg ≠ bNeg then aNeg else uint256Lt a b

def uint256Sgt (a b : Word) : Bool := uint256Slt b a

def uint256And (a b : Word) : Word := ofLimbs fun i => limb a i &&& limb b i

def uint256Or (a b : Word) : Word := ofLimbs fun i => limb a i ||| limb b i

def uint256Xor (a b : Word) : Word := ofLimbs fun i => limb a i ^^^ limb b i

def uint256Not (a : Word) : Word := ofLimbs fun i => ~~~limb a i

/-- `uint256_byte`: byte 0 is the most significant one. -/
def uint256Byte (index value : Word) : Word :=
  if !uint256FitsU64 index || index.limb0 ≥ 32 then uint256Zero
  else
    let leByteIdx := 31 - index.limb0.toNat
    uint256FromU64 ((limb value (leByteIdx / 8) >>> UInt64.ofNat (leByteIdx % 8 * 8)) &&& 0xff)

def uint256Negate (a : Word) : Word := uint256Add (uint256Not a) (uint256FromU64 1)

def uint256Shl (shift value : Word) : Word :=
  if !uint256FitsU64 shift || shift.limb0 ≥ 256 then uint256Zero
  else if shift.limb0 = 0 then value
  else
    let limbShift := shift.limb0.toNat / 64
    let bitShift := shift.limb0 % 64
    if bitShift = 0 then
      ofLimbs fun i => if i < limbShift then 0 else limb value (i - limbShift)
    else
      ofLimbs fun i =>
        if i < limbShift then 0
        else if i = limbShift then limb value 0 <<< bitShift
        else (limb value (i - limbShift) <<< bitShift) |||
          (limb value (i - limbShift - 1) >>> (64 - bitShift))

def uint256Shr (shift value : Word) : Word :=
  if !uint256FitsU64 shift || shift.limb0 ≥ 256 then uint256Zero
  else if shift.limb0 = 0 then value
  else
    let limbShift := shift.limb0.toNat / 64
    let bitShift := shift.limb0 % 64
    if bitShift = 0 then
      ofLimbs fun i => if i + limbShift < 4 then limb value (i + limbShift) else 0
    else
      ofLimbs fun i =>
        if i + limbShift + 1 < 4 then
          (limb value (i + limbShift) >>> bitShift) |||
            (limb value (i + limbShift + 1) <<< (64 - bitShift))
        else if i + limbShift < 4 then limb value (i + limbShift) >>> bitShift
        else 0

def highMask (bit : UInt64) : UInt64 := ~~~((1 <<< bit) - 1)

def uint256Sar (shift value : Word) : Word :=
  let isNegative := uint256IsNegative value
  if !uint256FitsU64 shift || shift.limb0 ≥ 256 then
    if isNegative then ofLimbs fun _ => allOnes else uint256Zero
  else if shift.limb0 = 0 then value
  else
    let result := uint256Shr shift value
    if isNegative then
      let firstClearBit := 255 - shift.limb0.toNat + 1
      let firstLimb := firstClearBit / 64
      let bitInLimb := firstClearBit % 64
      ofLimbs fun i =>
        if i < firstLimb then limb result i
        else if i = firstLimb ∧ 0 < bitInLimb then
          limb result i ||| highMask (UInt64.ofNat bitInLimb)
        else allOnes
    else result

def uint256Signextend (bytePos x : Word) : Word :=
  if bytePos.limb1 ≠ 0 ∨ bytePos.limb2 ≠ 0 ∨ bytePos.limb3 ≠ 0 ∨ bytePos.limb0 ≥ 31 then x
  else
    let bitIndex := 8 * bytePos.limb0.toNat + 7
    let limbIndex := bitIndex / 64
    let bitInLimb := bitIndex % 64
    let signBit := ((limb x limbIndex >>> UInt64.ofNat bitInLimb) &&& 1) != 0
    -- the shift by 64 that the last bit of a limb would need is avoided
    let above := if bitInLimb = 63 then 0 else highMask (UInt64.ofNat (bitInLimb + 1))
    ofLimbs fun i =>
      if i < limbIndex then limb x i
      else if i = limbIndex then
        if signBit then limb x i ||| above else limb x i &&& ~~~above
      else if signBit then allOnes else 0

def halve (e : Word) : Word :=
  ⟨(e.limb0 >>> 1) ||| (e.limb1 <<< 63), (e.limb1 >>> 1) ||| (e.limb2 <<< 63),
    (e.limb2 >>> 1) ||| (e.limb3 <<< 63), e.limb3 >>> 1⟩

/-- The loop of `uint256_exp`; an exponent of 256 bits is used up after 256 rounds. -/
def expLoop : ℕ → Word → Word → Word → Word
  | 0, result, _, _ => result
  | rounds + 1, result, multiplier, e =>
    if uint256IsZero e then result
    else expLoop rounds (if e.limb0 &&& 1 ≠ 0 then uint256Mul result multiplier else result)
      (uint256Mul multiplier multiplier) (halve e)

def uint256Exp (base exponent : Word) : Word :=
  if uint256IsZero exponent then uint256FromU64 1
  else if uint256IsZero base then uint256Zero
  else if uint256Eq base (uint256FromU64 1) then uint256FromU64 1
  else if base.limb0 &&& 1 = 0 ∧ (exponent.limb0 > 255 ∨ exponent.limb1 ≠ 0 ∨
      exponent.limb2 ≠ 0 ∨ exponent.limb3 ≠ 0) then uint256Zero
  else expLoop 256 (uint256FromU64 1) base exponent

def limbByteLength (value : UInt64) : ℕ → ℕ
  | 0 => 0
  | n + 1 =>
    if (value >>> UInt64.ofNat (n * 8)) &&& 0xff = 0 then limbByteLength value n else n + 1

def uint256ByteLength (value : Word) : ℕ :=
  if value.limb3 ≠ 0 then 24 + limbByteLength value.limb3 8
  else if value.limb2 ≠ 0 then 16 + limbByteLength value.limb2 8
  else if value.limb1 ≠ 0 then 8 + limbByteLength value.limb1 8
  else if value.limb0 ≠ 0 then limbByteLength value.limb0 8
  else 0

theorem limbBytes_size (value : Word) :
    (limbBytes 4 value.limb2 ++ limbBytes 8 value.limb1 ++ limbBytes 8 value.limb0).length = 20 := by
  simp only [List.length_append, limbBytes_length]

/-- `address_from_uint256`: the low 160 bits. -/
def addressFromUint256 (value : Word) : Address :=
  ⟨limbBytes 4 value.limb2 ++ limbBytes 8 value.limb1 ++ limbBytes 8 value.limb0,
    limbBytes_size value⟩

def addressToUint256 (addr : Address) : Word :=
  ⟨limbOfBytes (addr.bytes.drop 12), limbOfBytes ((addr.bytes.drop 4).take 8),
    limbOfBytes (addr.bytes.take 4), 0⟩

def hashFromUint256 (value : Word) : Hash := ⟨uint256ToBytesBe value, toBytesBe_length value⟩

def hashToUint256 (h : Hash) : Word := uint256FromBytesBe h.bytes

def ofBool (b : Bool) : Word := if b then uint256FromU64 1 else uint256Zero

end Div0.Uint256Ops
