import Div0.TxSigning
import Div0.Uint256Ops

/-!
Recovering the sender of a transaction. One decoder reads the recovery id out of `v` for
all formats: zero and one, 27 and 28, and the values of EIP-155. It does not know which
format the transaction has, so a legacy transaction passes with the values of a typed one
and the other way around.
-/

namespace Div0.TxRecovery

open BigEndian Buffer Uint256 Uint256Ops Transaction TxCodec TxSigning

/-- What the secp256k1 library makes of a hash, a recovery id and a signature: the public
key of 64 bytes, if it recovers one. -/
abbrev Library := Bytes → ℕ → Bytes → Option Bytes

def secp256k1RecoverPubkey (lib : Library) (messageHash : Bytes) (recoveryId : ℕ)
    (signature : Bytes) : Option Bytes :=
  if 3 < recoveryId then none else lib messageHash recoveryId signature

def decodeRecoveryId (v chainId : UInt64) : Option ℕ :=
  if v = 0 ∨ v = 1 then some v.toNat
  else if v = 27 ∨ v = 28 then some (v - 27).toNat
  else if 0 < chainId then
    let expectedBase := chainId * 2 + 35
    if v ≠ expectedBase ∧ v ≠ expectedBase + 1 then none else some (v - expectedBase).toNat
  else if 35 ≤ v then some ((v - 35) % 2).toNat
  else none

def pubkeyAddress (keccak256 : Bytes → Hash) (pubkey : Bytes) : Address where
  bytes := (keccak256 pubkey).bytes.drop 12
  size_eq := by rw [List.length_drop, (keccak256 pubkey).size_eq]

def secp256k1Ecrecover (keccak256 : Bytes → Hash) (lib : Library) (messageHash : Word)
    (v : UInt64) (r s : Word) (chainId : UInt64) : Option Address :=
  match decodeRecoveryId v chainId with
  | none => none
  | some recoveryId =>
    (secp256k1RecoverPubkey lib (uint256ToBytesBe messageHash) recoveryId
      (uint256ToBytesBe r ++ uint256ToBytesBe s)).map (pubkeyAddress keccak256)

/-- The value that carries the recovery id: `v`, or `y_parity` as 64 bits. -/
def signatureV : Tx → UInt64
  | .legacy tx => tx.v
  | .eip2930 tx => tx.yParity.toUInt64
  | .eip1559 tx => tx.yParity.toUInt64
  | .eip4844 tx => tx.yParity.toUInt64
  | .eip7702 tx => tx.yParity.toUInt64

def transactionR : Tx → Word
  | .legacy tx => tx.r
  | .eip2930 tx => tx.r
  | .eip1559 tx => tx.r
  | .eip4844 tx => tx.r
  | .eip7702 tx => tx.r

def transactionS : Tx → Word
  | .legacy tx => tx.s
  | .eip2930 tx => tx.s
  | .eip1559 tx => tx.s
  | .eip4844 tx => tx.s
  | .eip7702 tx => tx.s

/-- `transaction_recover_sender`; a legacy transaction without a chain id has zero. -/
def transactionRecoverSender (alloc : Alloc) (keccak256 : Bytes → Hash) (lib : Library) (tx : Tx) :
    Option Address :=
  secp256k1Ecrecover keccak256 lib (hashToUint256 (transactionSigningHash alloc keccak256 tx))
    (signatureV tx) (transactionR tx) (transactionS tx) ((transactionChainId tx).getD 0)

def legacyTxRecoveryId (tx : LegacyTx) : ℕ :=
  if tx.v = 27 ∨ tx.v = 28 then (tx.v - 27).toNat else ((tx.v - 35) % 2).toNat

def transactionRecoveryId : Tx → ℕ
  | .legacy tx => legacyTxRecoveryId tx
  | .eip2930 tx => tx.yParity.toNat
  | .eip1559 tx => tx.yParity.toNat
  | .eip4844 tx => tx.yParity.toNat
  | .eip7702 tx => tx.yParity.toNat

def handedId (tx : Tx) : Option ℕ :=
  decodeRecoveryId (signatureV tx) ((transactionChainId tx).getD 0)

/-- The recovery values the formats allow. -/
def CanonicalValue : Tx → Prop
  | .legacy tx => tx.v = 27 ∨ tx.v = 28 ∨ ∃ chainId, legacyTxChainId tx = some chainId ∧
      (tx.v.toNat = 2 * chainId.toNat + 35 ∨ tx.v.toNat = 2 * chainId.toNat + 36)
  | .eip2930 tx => tx.yParity = 0 ∨ tx.yParity = 1
  | .eip1559 tx => tx.yParity = 0 ∨ tx.yParity = 1
  | .eip4844 tx => tx.yParity = 0 ∨ tx.yParity = 1
  | .eip7702 tx => tx.yParity = 0 ∨ tx.yParity = 1

def PlainParity (yParity : UInt8) (chainId : UInt64) : Prop :=
  yParity = 0 ∨ yParity = 1 ∨ yParity ≠ 27 ∧ yParity ≠ 28 ∧
    if chainId = 0 then yParity < 35
    else yParity.toUInt64 ≠ chainId * 2 + 35 ∧ yParity.toUInt64 ≠ chainId * 2 + 35 + 1

/-- The recovery value is not one of another format. -/
def PlainValue : Tx → Prop
  | .legacy tx => tx.v ≠ 0 ∧ tx.v ≠ 1
  | .eip2930 tx => PlainParity tx.yParity tx.chainId
  | .eip1559 tx => PlainParity tx.yParity tx.chainId
  | .eip4844 tx => PlainParity tx.yParity tx.chainId
  | .eip7702 tx => PlainParity tx.yParity tx.chainId

section Decoding

variable {v chainId : UInt64} {id : ℕ}

/-- The decoded id is zero or one. -/
theorem decodeRecoveryId_le (h : decodeRecoveryId v chainId = some id) : id ≤ 1 := by
  unfold decodeRecoveryId at h
  split at h
  · next hv =>
    cases h
    rcases hv with rfl | rfl <;> decide
  · split at h
    · next hv =>
      cases h
      rcases hv with rfl | rfl <;> decide
    · split at h
      · dsimp only at h
        split at h
        · cases h
        · next hbase =>
          cases h
          rw [not_and_or, not_not, not_not] at hbase
          rcases hbase with heq | heq
          · rw [heq, UInt64.sub_self]
            decide
          · rw [heq, UInt64.add_comm, UInt64.add_sub_cancel]
            decide
      · split at h
        · cases h
          rw [UInt64.toNat_mod]
          exact Nat.lt_succ_iff.mp (Nat.mod_lt _ (by decide))
        · cases h

/-- Apart from zero and one, what is not decoded. -/
theorem decodeRecoveryId_eq_none (hv : v ≠ 0 ∧ v ≠ 1) :
    decodeRecoveryId v chainId = none ↔ v ≠ 27 ∧ v ≠ 28 ∧
      if chainId = 0 then v < 35 else v ≠ chainId * 2 + 35 ∧ v ≠ chainId * 2 + 35 + 1 := by
  rw [decodeRecoveryId, if_neg (not_or.mpr hv)]
  by_cases hold : v = 27 ∨ v = 28
  · rw [if_pos hold]
    refine iff_of_false (by rintro ⟨⟩) fun h => ?_
    rcases hold with heq | heq
    · exact h.1 heq
    · exact h.2.1 heq
  · obtain ⟨h27, h28⟩ := not_or.mp hold
    rw [if_neg hold]
    by_cases hzero : chainId = 0
    · rw [hzero, if_neg (by decide), if_pos rfl, ite_eq_right_iff]
      simp only [reduceCtorEq, imp_false, UInt64.not_le]
      exact ⟨fun h => ⟨h27, h28, h⟩, fun h => h.2.2⟩
    · rw [if_pos (UInt64.pos_iff_ne_zero.mpr hzero), if_neg hzero]
      simp only [ite_eq_left_iff, reduceCtorEq, imp_false, not_not]
      exact ⟨fun h => ⟨h27, h28, h⟩, fun h => h.2.2⟩

theorem toUInt64_eq_iff (y : UInt8) {n : ℕ} (hn : n < 256) :
    y.toUInt64 = UInt64.ofNat n ↔ y = UInt8.ofNat n := by
  rw [← UInt64.toNat_inj, ← UInt8.toNat_inj, UInt8.toNat_toUInt64, UInt64.toNat_ofNat',
    UInt8.toNat_ofNat', Nat.mod_eq_of_lt hn, Nat.mod_eq_of_lt (by omega)]

/-- The value of a typed transaction is decoded as its parity exactly in these cases. -/
theorem plainParity_iff (yParity : UInt8) (chainId : UInt64) :
    PlainParity yParity chainId ↔ ∀ id, decodeRecoveryId yParity.toUInt64 chainId = some id →
      (yParity = 0 ∨ yParity = 1) ∧ id = yParity.toNat := by
  by_cases hplain : yParity = 0 ∨ yParity = 1
  · refine iff_of_true (hplain.imp_right Or.inl) fun id hid => ⟨hplain, ?_⟩
    rcases hplain with rfl | rfl
    · exact (Option.some.inj hid).symm
    · exact (Option.some.inj hid).symm
  · obtain ⟨hzero, hone⟩ := not_or.mp hplain
    have hv : yParity.toUInt64 ≠ 0 ∧ yParity.toUInt64 ≠ 1 :=
      ⟨mt (toUInt64_eq_iff yParity (show 0 < 256 by decide)).mp hzero,
        mt (toUInt64_eq_iff yParity (show 1 < 256 by decide)).mp hone⟩
    have hnone : PlainParity yParity chainId ↔
        decodeRecoveryId yParity.toUInt64 chainId = none := by
      rw [decodeRecoveryId_eq_none hv, PlainParity, or_iff_right hzero, or_iff_right hone]
      have h27 := toUInt64_eq_iff yParity (show 27 < 256 by decide)
      have h28 := toUInt64_eq_iff yParity (show 28 < 256 by decide)
      have hlt : yParity < 35 ↔ yParity.toUInt64 < 35 := by
        rw [UInt8.lt_iff_toNat_lt, UInt64.lt_iff_toNat_lt, UInt8.toNat_toUInt64]
        rfl
      rw [hlt]
      exact and_congr (not_congr h27.symm) (and_congr (not_congr h28.symm) Iff.rfl)
    rw [hnone, Option.eq_none_iff_forall_ne_some]
    exact forall_congr' fun id => ⟨fun h hid => absurd hid h, fun h hid => hplain (h hid).1⟩

theorem legacyTxChainId_toNat (tx : LegacyTx) (hlow : ¬(tx.v = 27 ∨ tx.v = 28))
    (hv : 35 ≤ tx.v) : ∃ chainId, legacyTxChainId tx = some chainId ∧
      chainId.toNat = (tx.v.toNat - 35) / 2 ∧
      (chainId * 2 + 35).toNat = 2 * ((tx.v.toNat - 35) / 2) + 35 ∧
      (tx.v - 35).toNat = tx.v.toNat - 35 := by
  have hnat : 35 ≤ tx.v.toNat := UInt64.le_iff_toNat_le.mp hv
  have hlt := tx.v.toNat_lt
  have hsub : (tx.v - 35).toNat = tx.v.toNat - 35 := UInt64.toNat_sub_of_le _ _ hv
  refine ⟨_, by rw [legacyTxChainId, if_neg hlow, if_pos hv], ?_, ?_, hsub⟩
  · rw [UInt64.toNat_div, hsub]
    rfl
  · rw [UInt64.toNat_add, UInt64.toNat_mul, UInt64.toNat_div, hsub]
    simp only [UInt64.reduceToNat]
    omega

/-- The value of a legacy transaction is decoded as `legacy_tx_recovery_id` has it. -/
theorem plainLegacy_iff (tx : LegacyTx) :
    (tx.v ≠ 0 ∧ tx.v ≠ 1) ↔
      ∀ id, decodeRecoveryId tx.v ((legacyTxChainId tx).getD 0) = some id →
        CanonicalValue (.legacy tx) ∧ id = legacyTxRecoveryId tx := by
  constructor
  · intro hv id hid
    rw [decodeRecoveryId, if_neg (not_or.mpr hv)] at hid
    rw [legacyTxRecoveryId]
    by_cases hold : tx.v = 27 ∨ tx.v = 28
    · rw [if_pos hold] at hid ⊢
      exact ⟨by rw [CanonicalValue, ← or_assoc]; exact Or.inl hold, (Option.some.inj hid).symm⟩
    · rw [if_neg hold] at hid ⊢
      by_cases hhigh : 35 ≤ tx.v
      · obtain ⟨chainId, hchain, hnat, hbase, hsub⟩ := legacyTxChainId_toNat tx hold hhigh
        have hle : 35 ≤ tx.v.toNat := UInt64.le_iff_toNat_le.mp hhigh
        refine ⟨Or.inr (Or.inr ⟨chainId, hchain, by omega⟩), ?_⟩
        have hmod : ((tx.v - 35) % 2).toNat = (tx.v.toNat - 35) % 2 := by
          rw [UInt64.toNat_mod, hsub]
          rfl
        rw [hchain, Option.getD_some] at hid
        rw [hmod]
        by_cases hpos : 0 < chainId
        · rw [if_pos hpos] at hid
          simp only [Option.ite_none_left_eq_some, Option.some.injEq] at hid
          rw [← hid.2, UInt64.toNat_sub_of_le _ _ (UInt64.le_iff_toNat_le.mpr (by omega)), hbase]
          omega
        · rw [if_neg hpos, if_pos hhigh, hmod] at hid
          exact (Option.some.inj hid).symm
      · have hchain : legacyTxChainId tx = none := by
          rw [legacyTxChainId, if_neg hold, if_neg hhigh]
        rw [hchain, Option.getD_none, if_neg (by decide), if_neg hhigh] at hid
        exact absurd hid (by rintro ⟨⟩)
  · intro h
    -- With zero or one there is no chain id, and the value itself is handed on.
    have hnone : ∀ v, tx.v = v → v = 0 ∨ v = 1 → False := by
      intro v hv hplain
      have hchain : legacyTxChainId tx = none := by
        rw [legacyTxChainId, hv]
        rcases hplain with rfl | rfl <;> rfl
      have hcanonical := (h v.toNat (by rw [decodeRecoveryId, hv, if_pos hplain])).1
      rw [CanonicalValue, hchain, hv] at hcanonical
      rcases hcanonical with h27 | h28 | ⟨chainId, hsome, -⟩
      · rcases hplain with rfl | rfl <;> exact absurd h27 (by decide)
      · rcases hplain with rfl | rfl <;> exact absurd h28 (by decide)
      · exact absurd hsome (by rintro ⟨⟩)
    exact ⟨fun hv => hnone 0 hv (Or.inl rfl), fun hv => hnone 1 hv (Or.inr rfl)⟩

/-- A recovery value is read as its format has it unless it is one of another format. -/
theorem plainValue_iff (tx : Tx) :
    PlainValue tx ↔ ∀ id, handedId tx = some id →
      CanonicalValue tx ∧ id = transactionRecoveryId tx := by
  cases tx with
  | legacy tx => exact plainLegacy_iff tx
  | eip2930 tx => exact plainParity_iff tx.yParity tx.chainId
  | eip1559 tx => exact plainParity_iff tx.yParity tx.chainId
  | eip4844 tx => exact plainParity_iff tx.yParity tx.chainId
  | eip7702 tx => exact plainParity_iff tx.yParity tx.chainId

end Decoding

section Recovery

variable {alloc : Alloc} {keccak256 : Bytes → Hash}

/-- The library is asked with the handed id, and only if there is one. -/
theorem transactionRecoverSender_eq (lib : Library) (tx : Tx) :
    transactionRecoverSender alloc keccak256 lib tx = (handedId tx).bind fun id =>
      (lib (uint256ToBytesBe (hashToUint256 (transactionSigningHash alloc keccak256 tx))) id
        (uint256ToBytesBe (transactionR tx) ++ uint256ToBytesBe (transactionS tx))).map
          (pubkeyAddress keccak256) := by
  rw [transactionRecoverSender, secp256k1Ecrecover, handedId]
  cases hid : decodeRecoveryId (signatureV tx) ((transactionChainId tx).getD 0) with
  | none => rfl
  | some id =>
    have hle := decodeRecoveryId_le hid
    simp only [Option.bind_some, secp256k1RecoverPubkey, if_neg (show ¬3 < id by omega)]

/-- Some library recovers a sender exactly if an id is handed to it. -/
theorem recovers_iff (tx : Tx) (goal : Prop) :
    (∀ lib sender, transactionRecoverSender alloc keccak256 lib tx = some sender → goal) ↔
      ∀ id, handedId tx = some id → goal := by
  constructor
  · intro h id hid
    refine h (fun _ _ _ => some []) (pubkeyAddress keccak256 []) ?_
    rw [transactionRecoverSender_eq, hid, Option.bind_some, Option.map_some]
  · intro h lib sender hsender
    rw [transactionRecoverSender_eq] at hsender
    obtain ⟨id, hid, -⟩ := Option.bind_eq_some_iff.mp hsender
    exact h id hid

/-- A canonical legacy value is its recovery id over a base that the chain id fixes. -/
theorem legacyValue_eq {tx : LegacyTx} (h : CanonicalValue (.legacy tx)) :
    tx.v.toNat = legacyTxRecoveryId tx +
      (legacyTxChainId tx).elim 27 fun chainId => 2 * chainId.toNat + 35 := by
  by_cases hold : tx.v = 27 ∨ tx.v = 28
  · rw [legacyTxChainId, legacyTxRecoveryId, if_pos hold, if_pos hold]
    rcases hold with hv | hv <;> rw [hv] <;> rfl
  · rw [CanonicalValue, ← or_assoc, or_iff_right hold] at h
    obtain ⟨chainId, hchain, hv⟩ := h
    have hhigh : 35 ≤ tx.v := UInt64.le_iff_toNat_le.mpr (show 35 ≤ tx.v.toNat by omega)
    have hmod : ((tx.v - 35) % 2).toNat = (tx.v.toNat - 35) % 2 := by
      rw [UInt64.toNat_mod, UInt64.toNat_sub_of_le _ _ hhigh]
      rfl
    rw [legacyTxRecoveryId, if_neg hold, hchain, hmod]
    show tx.v.toNat = (tx.v.toNat - 35) % 2 + (2 * chainId.toNat + 35)
    omega

/-- Equal payloads and recovery ids leave one recovery value. -/
theorem signatureV_eq_of_recoveryId {tx other : Tx} (hsame : SignedAlike tx other)
    (htx : CanonicalValue tx) (hother : CanonicalValue other)
    (hid : transactionRecoveryId tx = transactionRecoveryId other) :
    signatureV tx = signatureV other := by
  cases tx <;> cases other <;> try exact hsame.elim
  case legacy.legacy a b =>
    have hchain : legacyTxChainId a = legacyTxChainId b := hsame.2.2.2.2.2.2
    have hids : legacyTxRecoveryId a = legacyTxRecoveryId b := hid
    apply UInt64.toNat_inj.mp
    show a.v.toNat = b.v.toNat
    rw [legacyValue_eq htx, legacyValue_eq hother, hchain, hids]
  all_goals exact congrArg UInt8.toUInt64 (UInt8.toNat_inj.mp hid)

/-- Whatever the library does, a transaction passes only with a recovery value of its own
format, and with the recovery id that `transaction_recovery_id` defines, exactly if it does
not carry a value of another format. Among such transactions of one payload the recovery
id fixes the value. -/
theorem recovery_canonical_iff (alloc : Alloc) (keccak256 : Bytes → Hash) (tx : Tx) :
    ((∀ lib sender, transactionRecoverSender alloc keccak256 lib tx = some sender →
        CanonicalValue tx ∧ handedId tx = some (transactionRecoveryId tx)) ↔ PlainValue tx) ∧
      ∀ other lib sender otherLib otherSender, PlainValue tx → PlainValue other →
        SignedAlike tx other →
        transactionRecoverSender alloc keccak256 lib tx = some sender →
        transactionRecoverSender alloc keccak256 otherLib other = some otherSender →
        handedId tx = handedId other → signatureV tx = signatureV other := by
  constructor
  · rw [recovers_iff, plainValue_iff]
    refine forall_congr' fun id => ⟨fun h hid => ?_, fun h hid => ?_⟩
    · exact ⟨(h hid).1, Option.some.inj (hid.symm.trans (h hid).2)⟩
    · exact ⟨(h hid).1, hid.trans (congrArg some (h hid).2)⟩
  · intro other lib sender otherLib otherSender htx hother hsame hsender hotherSender hid
    rw [transactionRecoverSender_eq] at hsender hotherSender
    obtain ⟨id, hhanded, -⟩ := Option.bind_eq_some_iff.mp hsender
    have hotherHanded := hid.symm.trans hhanded
    obtain ⟨hcanonical, heq⟩ := (plainValue_iff tx).mp htx id hhanded
    obtain ⟨hotherCanonical, hotherEq⟩ := (plainValue_iff other).mp hother id hotherHanded
    exact signatureV_eq_of_recoveryId hsame hcanonical hotherCanonical (heq.symm.trans hotherEq)

def legacyWith (v : UInt64) : Tx :=
  .legacy ⟨0, uint256Zero, 21000, none, uint256Zero, [], v, uint256Zero, uint256Zero⟩

def feeMarketWith (yParity : UInt8) : Tx :=
  .eip1559 ⟨1, 0, uint256Zero, uint256Zero, 21000, none, uint256Zero, [], [], yParity, uint256Zero,
    uint256Zero⟩

/-- A library that recovers a key from everything accepts a legacy transaction with zero
as its value and a typed one with 27 as its parity. Each has the payload and the handed id
of a transaction with a value of the format. -/
theorem foreign_values_accepted :
    (SignedAlike (legacyWith 0) (legacyWith 27) ∧
      handedId (legacyWith 0) = some 0 ∧ handedId (legacyWith 27) = some 0 ∧
      transactionRecoveryId (legacyWith 0) = 1 ∧ ¬CanonicalValue (legacyWith 0) ∧
      (transactionRecoverSender arenaAlloc (fun _ => hashZero) (fun _ _ _ => some [])
        (legacyWith 0)).isSome = true) ∧
    (SignedAlike (feeMarketWith 27) (feeMarketWith 0) ∧
      handedId (feeMarketWith 27) = some 0 ∧ handedId (feeMarketWith 0) = some 0 ∧
      transactionRecoveryId (feeMarketWith 27) = 27 ∧ ¬CanonicalValue (feeMarketWith 27) ∧
      (transactionRecoverSender arenaAlloc (fun _ => hashZero) (fun _ _ _ => some [])
        (feeMarketWith 27)).isSome = true) := by
  refine ⟨⟨⟨rfl, rfl, rfl, rfl, rfl, rfl, rfl⟩, rfl, rfl, rfl, ?_, ?_⟩,
    ⟨⟨rfl, rfl, rfl, rfl, rfl, rfl, rfl, rfl, rfl⟩, rfl, rfl, rfl, ?_, ?_⟩⟩
  · rintro (h27 | h28 | ⟨chainId, hsome, -⟩)
    · exact absurd h27 (by decide)
    · exact absurd h28 (by decide)
    · exact absurd hsome (by rintro ⟨⟩)
  · rw [transactionRecoverSender_eq]
    rfl
  · rintro (hzero | hone)
    · exact absurd hzero (by decide)
    · exact absurd hone (by decide)
  · rw [transactionRecoverSender_eq]
    rfl

end Recovery

end Div0.TxRecovery
