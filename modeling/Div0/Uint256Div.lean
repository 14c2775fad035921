import Div0.Uint256Ops

/-!
Division of words. A divisor of one limb is normalised and divides the limbs of the
dividend one after the other with the help of its reciprocal; a longer divisor goes
through Knuth's algorithm D, which also reduces the 512-bit products of `mulmod`. Arrays of
limbs are lists, the least significant limb first, and 128-bit numbers are natural
numbers, reduced where the arithmetic of the source could wrap around.
-/

namespace Div0.Uint256Div

open Uint256 Uint256Ops

abbrev Limbs := List UInt64

def limbs (a : Word) : Limbs := [a.limb0, a.limb1, a.limb2, a.limb3]

def fromLimbs (l : Limbs) : Word := ofLimbs fun i => l.getD i 0

def reciprocalTable : List UInt64 :=
  [2045, 2037, 2029, 2021, 2013, 2005, 1998, 1990, 1983, 1975, 1968, 1960, 1953, 1946, 1938, 1931,
    1924, 1917, 1910, 1903, 1896, 1889, 1883, 1876, 1869, 1863, 1856, 1849, 1843, 1836, 1830, 1824,
    1817, 1811, 1805, 1799, 1792, 1786, 1780, 1774, 1768, 1762, 1756, 1750, 1745, 1739, 1733, 1727,
    1722, 1716, 1710, 1705, 1699, 1694, 1688, 1683, 1677, 1672, 1667, 1661, 1656, 1651, 1646, 1641,
    1636, 1630, 1625, 1620, 1615, 1610, 1605, 1600, 1596, 1591, 1586, 1581, 1576, 1572, 1567, 1562,
    1558, 1553, 1548, 1544, 1539, 1535, 1530, 1526, 1521, 1517, 1513, 1508, 1504, 1500, 1495, 1491,
    1487, 1483, 1478, 1474, 1470, 1466, 1462, 1458, 1454, 1450, 1446, 1442, 1438, 1434, 1430, 1426,
    1422, 1418, 1414, 1411, 1407, 1403, 1399, 1396, 1392, 1388, 1384, 1381, 1377, 1374, 1370, 1366,
    1363, 1359, 1356, 1352, 1349, 1345, 1342, 1338, 1335, 1332, 1328, 1325, 1322, 1318, 1315, 1312,
    1308, 1305, 1302, 1299, 1295, 1292, 1289, 1286, 1283, 1280, 1276, 1273, 1270, 1267, 1264, 1261,
    1258, 1255, 1252, 1249, 1246, 1243, 1240, 1237, 1234, 1231, 1228, 1226, 1223, 1220, 1217, 1214,
    1211, 1209, 1206, 1203, 1200, 1197, 1195, 1192, 1189, 1187, 1184, 1181, 1179, 1176, 1173, 1171,
    1168, 1165, 1163, 1160, 1158, 1155, 1153, 1150, 1148, 1145, 1143, 1140, 1138, 1135, 1133, 1130,
    1128, 1125, 1123, 1121, 1118, 1116, 1113, 1111, 1109, 1106, 1104, 1102, 1099, 1097, 1095, 1092,
    1090, 1088, 1086, 1083, 1081, 1079, 1077, 1074, 1072, 1070, 1068, 1066, 1064, 1061, 1059, 1057,
    1055, 1053, 1051, 1049, 1047, 1044, 1042, 1040, 1038, 1036, 1034, 1032, 1030, 1028, 1026, 1024]

def reciprocal2by1 (d : UInt64) : UInt64 :=
  let d9 := d >>> 55
  let v0 := reciprocalTable.getD (d9 - 256).toNat 0
  let d40 := (d >>> 24) + 1
  -- the square and the shifted product are cut to 32 bits
  let square := (v0 * v0) &&& 0xffffffff
  let v1 := (v0 <<< 11) - (((square * d40) >>> 40) &&& 0xffffffff) - 1
  let v2 := (v1 <<< 13) + ((v1 * (0x1000000000000000 - v1 * d40)) >>> 47)
  let d0 := d &&& 1
  let d63 := (d >>> 1) + d0
  let e := ((v2 >>> 1) &&& (0 - d0)) - v2 * d63
  let v3 := (UInt64.ofNat (high64 (wideMul v2 e)) >>> 1) + (v2 <<< 31)
  let pPlusD := (wideMul v3 d + d.toNat) % 2 ^ 128
  v3 - UInt64.ofNat (high64 pPlusD) - d

/-- `udivrem_2by1`: quotient and remainder. -/
def udivrem2by1 (uLo uHi d v : UInt64) : UInt64 × UInt64 :=
  let q := (wideMul v uHi + uLo.toNat + uHi.toNat * 2 ^ 64) % 2 ^ 128
  let qLo := UInt64.ofNat q
  let qHi := UInt64.ofNat (high64 q) + 1
  let r := uLo - qHi * d
  let lowered := if r > qLo then (qHi - 1, r + d) else (qHi, r)
  if lowered.2 ≥ d then (lowered.1 + 1, lowered.2 - d) else lowered

def clz (x : UInt64) : ℕ := 63 - Nat.log2 x.toNat

/-- The loop that shifts limbs to the left and hands the bits that fall out to the next
limb; the last carry is returned. -/
def shiftLoop (shift : ℕ) : UInt64 → Limbs → Limbs × UInt64
  | carry, [] => ([], carry)
  | carry, x :: rest =>
    let (shifted, out) := shiftLoop shift (x >>> UInt64.ofNat (64 - shift)) rest
    (((x <<< UInt64.ofNat shift) ||| carry) :: shifted, out)

def shiftLimbs (shift : ℕ) (x : Limbs) : Limbs × UInt64 :=
  if shift = 0 then (x, 0) else shiftLoop shift 0 x

/-- `udivrem_2by1` from the highest limb down: the quotient limbs and the remainder. -/
def divLimbs (d v : UInt64) : Limbs → UInt64 → Limbs × UInt64
  | [], rem => ([], rem)
  | u :: rest, rem =>
    -- the limbs above are divided first
    let above := divLimbs d v rest rem
    let digit := udivrem2by1 u above.2 d v
    (digit.1 :: above.1, digit.2)

def divmodSingleLimb (dividend : Word) (divisor : UInt64) : Word × Word :=
  let shift := clz divisor
  let dNorm := divisor <<< UInt64.ofNat shift
  let (u, top) := shiftLimbs shift (limbs dividend)
  let (q, rem) := divLimbs dNorm (reciprocal2by1 dNorm) u top
  (fromLimbs q, uint256FromU64 (rem >>> UInt64.ofNat shift))

/-- The loop that corrects the estimate of a quotient digit. With the top bit of the
divisor set the remainder leaves 64 bits after two rounds. -/
def refineQHat (vTop vNext uNext : ℕ) : ℕ → ℕ → ℕ → ℕ
  | 0, qHat, _ => qHat
  | rounds + 1, qHat, rHat =>
    if qHat ≥ 2 ^ 64 ∨ qHat * vNext > rHat * 2 ^ 64 + uNext then
      if rHat + vTop ≥ 2 ^ 64 then qHat - 1
      else refineQHat vTop vNext uNext rounds (qHat - 1) (rHat + vTop)
    else qHat

/-- Multiply and subtract: the digits, the carry of the product and the borrow. -/
def mulSub (qHat : ℕ) : ℕ → ℕ → Limbs → Limbs → Limbs × ℕ × ℕ
  | carry, borrow, u :: us, v :: vs =>
    let prod := (qHat * v.toNat + carry) % 2 ^ 128
    let sub := low64 prod + borrow
    let diff := u.toNat + 2 ^ 64 - sub
    let (digits, carry, borrow) := mulSub qHat (high64 prod) (1 - high64 diff) us vs
    (UInt64.ofNat diff :: digits, carry, borrow)
  | carry, borrow, us, _ => (us, carry, borrow)

/-- Add back the divisor: the digits and the carry. -/
def addBack : UInt64 → Limbs → Limbs → Limbs × UInt64
  | carry, u :: us, v :: vs =>
    let sum := u.toNat + v.toNat + carry.toNat
    let (digits, out) := addBack (UInt64.ofNat (high64 sum)) us vs
    (UInt64.ofNat sum :: digits, out)
  | carry, us, _ => (us, carry)

/-- One round of algorithm D on the window of the dividend that is one limb longer than
the divisor: the quotient digit and the window afterwards. -/
def knuthStep (v window : Limbs) : UInt64 × Limbs :=
  let n := v.length
  let vTop := (v.getD (n - 1) 0).toNat
  let tmp := (window.getD n 0).toNat * 2 ^ 64 + (window.getD (n - 1) 0).toNat
  let vNext := if 2 ≤ n then (v.getD (n - 2) 0).toNat else 0
  let uNext := if 2 ≤ n then (window.getD (n - 2) 0).toNat else 0
  let qHat := refineQHat vTop vNext uNext 3 (tmp / vTop) (tmp % vTop)
  let (digits, carry, borrow) := mulSub qHat 0 0 (window.take n) v
  let diffFinal := (window.getD n 0).toNat + 2 ^ 64 - (carry + borrow)
  let top := UInt64.ofNat diffFinal
  if 1 - high64 diffFinal ≠ 0 then
    let (digits, addCarry) := addBack 0 digits v
    (UInt64.ofNat qHat - 1, digits ++ [top + addCarry])
  else (UInt64.ofNat qHat, digits ++ [top])

/-- The main loop of algorithm D, from the highest quotient digit down: the quotient and
what is left of the dividend. -/
def knuthLoop (v : Limbs) : ℕ → Limbs → Limbs × Limbs
  | 0, u => ([], u)
  | j + 1, u =>
    let step := knuthStep v ((u.drop j).take (v.length + 1))
    let rest := knuthLoop v j (u.take j ++ step.2 ++ u.drop (j + v.length + 1))
    (rest.1 ++ [step.1], rest.2)

def unshiftLimbs (shift : ℕ) : Limbs → Limbs
  | [] => []
  | [x] => [x >>> UInt64.ofNat shift]
  | x :: y :: rest =>
    ((x >>> UInt64.ofNat shift) ||| (y <<< UInt64.ofNat (64 - shift))) ::
      unshiftLimbs shift (y :: rest)

/-- Algorithm D: the quotient and the remainder of an array of limbs by a divisor without
leading zero limbs. -/
def knuthDivide (dividend divisor : Limbs) : Limbs × Limbs :=
  let n := divisor.length
  let shift := clz (divisor.getD (n - 1) 0)
  let v := (shiftLimbs shift divisor).1
  let (u, top) := shiftLimbs shift dividend
  let (q, rest) := knuthLoop v (dividend.length - n + 1) (u ++ [top])
  (q, if shift = 0 then rest.take n else unshiftLimbs shift (rest.take n))

def topLimbIndex (a : Word) : ℕ :=
  if a.limb3 ≠ 0 then 3 else if a.limb2 ≠ 0 then 2 else if a.limb1 ≠ 0 then 1 else 0

def uint256Divmod (dividend divisor : Word) : Word × Word :=
  if uint256IsZero divisor then (uint256Zero, uint256Zero)
  else if uint256Lt dividend divisor then (uint256Zero, dividend)
  else if uint256FitsU64 dividend ∧ uint256FitsU64 divisor then
    (uint256FromU64 (dividend.limb0 / divisor.limb0),
      uint256FromU64 (dividend.limb0 % divisor.limb0))
  else if topLimbIndex divisor = 0 then divmodSingleLimb dividend divisor.limb0
  else
    let (q, r) := knuthDivide (limbs dividend) ((limbs divisor).take (topLimbIndex divisor + 1))
    (fromLimbs q, fromLimbs r)

def uint256Div (a b : Word) : Word := (uint256Divmod a b).1

def uint256Mod (a b : Word) : Word := (uint256Divmod a b).2

def minNegativeValue : Word := ⟨0, 0, 0, 0x8000000000000000⟩

def minusOne : Word := ofLimbs fun _ => allOnes

def absolute (a : Word) : Word := if uint256IsNegative a then uint256Negate a else a

def uint256Sdiv (a b : Word) : Word :=
  if uint256IsZero b then uint256Zero
  else if uint256Eq a minNegativeValue && uint256Eq b minusOne then minNegativeValue
  else
    let absA := absolute a
    let absB := absolute b
    let quotient :=
      if uint256FitsU64 absA ∧ uint256FitsU64 absB then uint256FromU64 (absA.limb0 / absB.limb0)
      else uint256Div absA absB
    if uint256IsNegative a ≠ uint256IsNegative b then uint256Negate quotient else quotient

def uint256Smod (a b : Word) : Word :=
  if uint256IsZero b then uint256Zero
  else
    let absA := absolute a
    let absB := absolute b
    let remainder :=
      if uint256FitsU64 absA ∧ uint256FitsU64 absB then uint256FromU64 (absA.limb0 % absB.limb0)
      else uint256Mod absA absB
    if uint256IsNegative a then uint256Negate remainder else remainder

def uint256Addmod (a b n : Word) : Word :=
  if uint256IsZero n then uint256Zero
  else
    let (r0, carry) := addc a.limb0 b.limb0 0
    let (r1, carry) := addc a.limb1 b.limb1 carry
    let (r2, carry) := addc a.limb2 b.limb2 carry
    let (r3, carry) := addc a.limb3 b.limb3 carry
    let sum : Word := ⟨r0, r1, r2, r3⟩
    if carry = 0 then uint256Mod sum n
    else
      let pow256ModN := uint256Mod (uint256Add (uint256Sub minusOne n) (uint256FromU64 1)) n
      let partialSum := uint256Add pow256ModN (uint256Mod sum n)
      if uint256Lt partialSum pow256ModN then uint256Mod partialSum n
      else if !uint256Lt partialSum n then uint256Sub partialSum n
      else partialSum

/-- The inner loop of `uint256_mul_full`: one limb times a word, added to what the result
holds from that position on; the carry becomes the next limb. -/
def mulRow (a : UInt64) : ℕ → Limbs → Limbs → Limbs
  | carry, r :: rs, b :: bs =>
    let prod := wideMul a b + r.toNat + carry
    UInt64.ofNat prod :: mulRow a (high64 prod) rs bs
  | carry, _, _ => [UInt64.ofNat carry]

/-- The outer loop of `uint256_mul_full`. The limbs that a row has passed are final; the
row below starts from the others. -/
def mulRows (b : Limbs) : Limbs → Limbs → Limbs
  | [], acc => acc
  | a :: as, acc =>
    match mulRow a 0 acc b with
    | [] => []
    | r :: rest => r :: mulRows b as rest

/-- `uint256_mul_full`: the eight limbs of the product. -/
def uint256MulFull (a b : Word) : Limbs := mulRows (limbs b) (limbs a) [0, 0, 0, 0]

def uint512Mod256 (a : Limbs) (b : Word) : Word :=
  if uint256IsZero b then uint256Zero
  else if a.all (· == 0) then uint256Zero
  else if (a.drop 4).all (· == 0) then uint256Mod (fromLimbs a) b
  else fromLimbs (knuthDivide a ((limbs b).take (topLimbIndex b + 1))).2

def uint256Mulmod (a b n : Word) : Word :=
  if uint256IsZero n then uint256Zero
  else if uint256IsZero a || uint256IsZero b then uint256Zero
  else
    let product := uint256MulFull a b
    if (product.drop 4).all (· == 0) then uint256Mod (fromLimbs product) n
    else uint512Mod256 product n

end Div0.Uint256Div
