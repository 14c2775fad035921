import Div0.Memory
import Mathlib.Data.Int.ModEq

/-!
What an expansion of the memory does and what it is said to cost, against the integers. The
end of the region is rounded up in 64 bits, the number of words is squared in 64 bits, and
the capacity is doubled in 64 bits: the first can turn an end near 2^64 into zero, the
second lowers the price of a memory of 2^32 words or more, and the third never reaches an
end above 2^63.
-/

namespace Div0.MemoryPricing

open Buffer Memory

def exactPrice (w : ℕ) : ℕ := 3 * w + w ^ 2 / 512

def wordsFor (n : ℕ) : ℕ := (n + 31) / 32

section Prices

theorem exactPrice_mono {a b : ℕ} (h : a ≤ b) : exactPrice a ≤ exactPrice b := by
  unfold exactPrice
  gcongr

theorem memoryPrice_toNat {words : UInt64} (h : words.toNat < 2 ^ 59) :
    (memoryPrice words).toNat = 3 * words.toNat + words.toNat * words.toNat % 2 ^ 64 / 512 := by
  have hthree : (3 * words).toNat = 3 * words.toNat := by
    rw [UInt64.toNat_mul]
    exact Nat.mod_eq_of_lt (by simp only [UInt64.reduceToNat]; omega)
  have hsquare : (words * words / 512).toNat = words.toNat * words.toNat % 2 ^ 64 / 512 := by
    rw [UInt64.toNat_div, UInt64.toNat_mul]
    rfl
  rw [memoryPrice, UInt64.toNat_add, hthree, hsquare]
  omega

theorem div32_lt (n : UInt64) : (n / 32).toNat < 2 ^ 59 := by
  have hlt := n.toNat_lt
  rw [UInt64.toNat_div]
  simp only [UInt64.reduceToNat]
  omega

/-- The square of a number of words wraps round `w ^ 2 / 2 ^ 64` times, and each time takes
`2 ^ 55` from the price. -/
theorem memoryPrice_add {words : UInt64} (h : words.toNat < 2 ^ 59) :
    (memoryPrice words).toNat + 2 ^ 55 * (words.toNat ^ 2 / 2 ^ 64) =
      exactPrice words.toNat := by
  rw [memoryPrice_toNat h, exactPrice, Nat.pow_two]
  generalize words.toNat * words.toNat = square
  omega

def PriceFits (old new : ℕ) : Prop :=
  exactPrice new - exactPrice old < 2 ^ 64 ∧ new ^ 2 / 2 ^ 64 ≡ old ^ 2 / 2 ^ 64 [MOD 512]

instance (old new : ℕ) : Decidable (PriceFits old new) := inferInstanceAs (Decidable (_ ∧ _))

theorem expansionCost_exact_iff {old new : UInt64} (hold : old.toNat < 2 ^ 59)
    (hnew : new.toNat < 2 ^ 59) (hlt : old.toNat < new.toNat) :
    (evmMemoryExpansionCost old new).toNat + exactPrice old.toNat = exactPrice new.toNat ↔
      PriceFits old.toNat new.toNat := by
  have hle := exactPrice_mono hlt.le
  have hgrows : ¬new ≤ old := by
    rw [UInt64.le_iff_toNat_le, not_le]
    exact hlt
  have hcost : (evmMemoryExpansionCost old new).toNat =
      (2 ^ 64 - (memoryPrice old).toNat + (memoryPrice new).toNat) % 2 ^ 64 := by
    rw [evmMemoryExpansionCost, if_neg hgrows, UInt64.toNat_sub]
  have hpriceOld := memoryPrice_add hold
  have hpriceNew := memoryPrice_add hnew
  have hltOld := (memoryPrice old).toNat_lt
  have hltNew := (memoryPrice new).toNat_lt
  rw [hcost, PriceFits, Nat.ModEq]
  omega

/-- Below 2^32 words no square wraps round. -/
theorem priceFits_of_lt {old new : ℕ} (hlt : old ≤ new) (hnew : new < 2 ^ 32) :
    PriceFits old new := by
  have hsquare {w : ℕ} (hw : w < 2 ^ 32) : w ^ 2 < 2 ^ 64 :=
    calc w ^ 2 < (2 ^ 32) ^ 2 := Nat.pow_lt_pow_left hw (by norm_num)
      _ = 2 ^ 64 := by norm_num
  have hsmall := hsquare hnew
  refine ⟨?_, ?_⟩
  · unfold exactPrice
    omega
  · rw [Nat.div_eq_of_lt hsmall, Nat.div_eq_of_lt (hsquare (lt_of_le_of_lt hlt hnew))]

end Prices

section Expansion

variable {alloc : Alloc} {mem mem' : EvmMemory} {offset size cost : UInt64}

theorem fits_iff (offset size : UInt64) :
    ¬uint64Max - size < offset ↔ offset.toNat + size.toNat < 2 ^ 64 := by
  have hmax : uint64Max.toNat = 2 ^ 64 - 1 := by decide
  have hsize := size.toNat_lt
  have hle : size ≤ uint64Max := UInt64.le_iff_toNat_le.mpr (by rw [hmax]; omega)
  rw [UInt64.not_lt, UInt64.le_iff_toNat_le, UInt64.toNat_sub_of_le _ _ hle, hmax]
  omega

/-- The size that is reached: the end of the region in whole words, or zero where rounding
it up wraps round. -/
theorem newSize_toNat (offset size : UInt64) (h : offset.toNat + size.toNat < 2 ^ 64) :
    (roundUp32 (offset + size)).toNat =
      if offset.toNat + size.toNat ≤ 2 ^ 64 - 32 then
        32 * wordsFor (offset.toNat + size.toNat) else 0 := by
  rw [roundUp32_toNat, UInt64.toNat_add, Nat.mod_eq_of_lt h, wordsFor]
  split <;> omega

/-- What an expansion that is granted reports and does. -/
theorem evmMemoryExpand_inv (hsize : size ≠ 0)
    (h : evmMemoryExpand alloc mem offset size = .expanded cost mem') :
    offset.toNat + size.toNat < 2 ^ 64 ∧
    cost = evmMemoryExpansionCost (evmMemorySize mem / 32) (roundUp32 (offset + size) / 32) ∧
    mem'.data = mem.data ++
      List.replicate ((roundUp32 (offset + size)).toNat - mem.data.length) 0 ∧
    ((roundUp32 (offset + size)).toNat ≤ mem.capacity.toNat ∨
      alloc mem'.capacity.toNat = true) := by
  unfold evmMemoryExpand at h
  rw [if_neg hsize] at h
  split at h
  · cases h
  · next hfits =>
    refine ⟨(fits_iff _ _).mp hfits, ?_⟩
    dsimp only at h
    split at h
    · next hinside =>
      cases h
      rw [UInt64.le_iff_toNat_le, evmMemorySize_toNat] at hinside
      rw [Nat.sub_eq_zero_of_le hinside, List.replicate_zero, List.append_nil]
      exact ⟨rfl, rfl, Or.inl (le_trans hinside mem.fits)⟩
    · split at h
      · next hroom =>
        cases h
        exact ⟨rfl, rfl, Or.inl (UInt64.le_iff_toNat_le.mp hroom)⟩
      · split at h
        · cases h
        · split at h
          · next hgranted =>
            cases h
            exact ⟨rfl, rfl, Or.inr hgranted⟩
          · cases h

/-- An expansion inside the buffer is granted. -/
theorem evmMemoryExpand_of_room (alloc : Alloc) (mem : EvmMemory) (hsize : size ≠ 0)
    (hend : offset.toNat + size.toNat < 2 ^ 64)
    (hroom : (roundUp32 (offset + size)).toNat ≤ mem.capacity.toNat) :
    ∃ cost mem', evmMemoryExpand alloc mem offset size = .expanded cost mem' := by
  unfold evmMemoryExpand
  rw [if_neg hsize, if_neg ((fits_iff _ _).mpr hend)]
  dsimp only
  split
  · exact ⟨_, _, rfl⟩
  · rw [dif_pos (UInt64.le_iff_toNat_le.mpr hroom)]
    exact ⟨_, _, rfl⟩

/-- The memory covers the region, with the bytes it had and zeros behind them, for the price
of the words it has got more. -/
structure Priced (mem mem' : EvmMemory) (offset size cost : UInt64) : Prop where
  covers : offset.toNat + size.toNat ≤ mem'.data.length
  aligned : mem'.data.length % 32 = 0
  grows : mem.data.length ≤ mem'.data.length
  kept : mem'.data.take mem.data.length = mem.data
  zeros : ∀ b ∈ mem'.data.drop mem.data.length, b = 0
  exact : cost.toNat + exactPrice (mem.data.length / 32) = exactPrice (mem'.data.length / 32)

/-- The words of a memory. -/
theorem words_toNat (mem : EvmMemory) : (evmMemorySize mem / 32).toNat = mem.data.length / 32 := by
  rw [UInt64.toNat_div, evmMemorySize_toNat]
  rfl

/-- A memory never has the size 2^64 - 31 or more. -/
theorem length_le_max (mem : EvmMemory) : mem.data.length ≤ 2 ^ 64 - 32 := by
  have hfits := mem.fits
  have haligned := mem.aligned
  have hcapacity := mem.capacity.toNat_lt
  omega

/-- The reported cost is exact if the prices fit, where the memory grows at all. -/
theorem cost_exact_iff (hend : offset.toNat + size.toNat ≤ 2 ^ 64 - 32)
    (hcost : cost =
      evmMemoryExpansionCost (evmMemorySize mem / 32) (roundUp32 (offset + size) / 32))
    (hlength : mem'.data.length =
      max mem.data.length (32 * wordsFor (offset.toNat + size.toNat))) :
    cost.toNat + exactPrice (mem.data.length / 32) = exactPrice (mem'.data.length / 32) ↔
      (mem.data.length < 32 * wordsFor (offset.toNat + size.toNat) →
        PriceFits (mem.data.length / 32) (wordsFor (offset.toNat + size.toNat))) := by
  have haligned := mem.aligned
  have hnew : (roundUp32 (offset + size) / 32).toNat = wordsFor (offset.toNat + size.toNat) := by
    rw [UInt64.toNat_div, newSize_toNat _ _ (by omega), if_pos hend]
    exact Nat.mul_div_cancel_left _ (by norm_num)
  by_cases hgrows : mem.data.length < 32 * wordsFor (offset.toNat + size.toNat)
  · have hlt : (evmMemorySize mem / 32).toNat < (roundUp32 (offset + size) / 32).toNat := by
      rw [words_toNat, hnew]
      omega
    have hiff := expansionCost_exact_iff (div32_lt _) (div32_lt _) hlt
    rw [← hcost, words_toNat, hnew] at hiff
    rw [hlength, max_eq_right hgrows.le, Nat.mul_div_cancel_left _ (by norm_num), hiff]
    exact ⟨fun h _ => h, fun h => h hgrows⟩
  · have hle : roundUp32 (offset + size) / 32 ≤ evmMemorySize mem / 32 := by
      rw [UInt64.le_iff_toNat_le, words_toNat, hnew]
      omega
    rw [evmMemoryExpansionCost, if_pos hle] at hcost
    rw [hlength, max_eq_left (not_lt.mp hgrows), hcost]
    exact ⟨fun _ h => absurd h hgrows, fun _ => Nat.zero_add _⟩

/-- All but the price holds of every expansion whose end does not wrap round. -/
theorem priced_iff
    (hdata : mem'.data = mem.data ++
      List.replicate (32 * wordsFor (offset.toNat + size.toNat) - mem.data.length) 0) :
    Priced mem mem' offset size cost ↔
      cost.toNat + exactPrice (mem.data.length / 32) = exactPrice (mem'.data.length / 32) := by
  refine ⟨fun h => h.exact, fun hexact => ?_⟩
  have hlength : mem'.data.length = mem.data.length +
      (32 * wordsFor (offset.toNat + size.toNat) - mem.data.length) := by
    rw [hdata, List.length_append, List.length_replicate]
  have hwords : offset.toNat + size.toNat ≤ 32 * wordsFor (offset.toNat + size.toNat) := by
    unfold wordsFor
    omega
  refine ⟨by omega, mem'.aligned, by omega, ?_, ?_, hexact⟩
  · rw [hdata, List.take_left' rfl]
  · intro b hb
    rw [hdata, List.drop_left' rfl] at hb
    exact List.eq_of_mem_replicate hb

/-- The end of the region does not wrap round when it is rounded up, and where the buffer
has room for it already, the price of the memory fits 64 bits. -/
def Priceable (mem : EvmMemory) (offset size : UInt64) : Prop :=
  offset.toNat + size.toNat ≤ 2 ^ 64 - 32 ∧
    let new := wordsFor (offset.toNat + size.toNat)
    (mem.data.length < 32 * new → 32 * new ≤ mem.capacity.toNat →
      PriceFits (mem.data.length / 32) new)

/-- An expansion whose end does not wrap round is right but for the price, and exactly
priced if the prices fit. -/
theorem expanded_priced_iff (hsize : size ≠ 0) (hend : offset.toNat + size.toNat ≤ 2 ^ 64 - 32)
    (h : evmMemoryExpand alloc mem offset size = .expanded cost mem') :
    Priced mem mem' offset size cost ↔
      (mem.data.length < 32 * wordsFor (offset.toNat + size.toNat) →
        PriceFits (mem.data.length / 32) (wordsFor (offset.toNat + size.toNat))) := by
  obtain ⟨hlt, hcost, hdata, -⟩ := evmMemoryExpand_inv hsize h
  rw [newSize_toNat _ _ hlt, if_pos hend] at hdata
  have hlength : mem'.data.length =
      max mem.data.length (32 * wordsFor (offset.toNat + size.toNat)) := by
    rw [hdata, List.length_append, List.length_replicate]
    omega
  rw [priced_iff hdata, cost_exact_iff hend hcost hlength]

/-- An expansion that the arena grants does what it should for the exact price, if and only
if the region is one whose end and price do not wrap round. -/
theorem evmMemoryExpand_priced_iff (mem : EvmMemory) (offset size : UInt64) (hsize : 0 < size) :
    (∀ cost mem', evmMemoryExpand arenaAlloc mem offset size = .expanded cost mem' →
      Priced mem mem' offset size cost) ↔
    (offset.toNat + size.toNat < 2 ^ 64 → Priceable mem offset size) := by
  have hne : size ≠ 0 := by
    rintro rfl
    exact absurd hsize (by decide)
  constructor
  · intro h hlt
    have hwraps : offset.toNat + size.toNat ≤ 2 ^ 64 - 32 := by
      by_contra hwrap
      have hzero : (roundUp32 (offset + size)).toNat = 0 := by
        rw [newSize_toNat _ _ hlt, if_neg hwrap]
      obtain ⟨cost, mem', hrun⟩ := evmMemoryExpand_of_room arenaAlloc mem hne hlt (by omega)
      have hcovers := (h cost mem' hrun).covers
      have hmax := length_le_max mem'
      omega
    refine ⟨hwraps, fun hgrows hroom => ?_⟩
    obtain ⟨cost, mem', hrun⟩ := evmMemoryExpand_of_room arenaAlloc mem hne hlt
      (by rwa [newSize_toNat _ _ hlt, if_pos hwraps])
    exact (expanded_priced_iff hne hwraps hrun).mp (h cost mem' hrun) hgrows
  · intro h cost mem' hrun
    obtain ⟨hlt, -, hdata, hroom⟩ := evmMemoryExpand_inv hne hrun
    obtain ⟨hwraps, hfits⟩ := h hlt
    rw [newSize_toNat _ _ hlt, if_pos hwraps] at hroom hdata
    refine (expanded_priced_iff hne hwraps hrun).mpr fun hgrows => ?_
    rcases hroom with hinside | hgranted
    · exact hfits hgrows hinside
    · have hblock : mem'.capacity.toNat ≤ 65536 := by
        by_contra hlarge
        rw [arenaAlloc_refuses (not_le.mp hlarge)] at hgranted
        cases hgranted
      have hfits' := mem'.fits
      rw [hdata, List.length_append, List.length_replicate] at hfits'
      exact priceFits_of_lt (by omega) (by omega)

/-- The first word of a fresh memory. -/
theorem evmMemoryExpand_priced_word :
    (0 : UInt64) < 32 ∧ ∀ cost mem',
      evmMemoryExpand arenaAlloc evmMemoryInit 0 32 = .expanded cost mem' →
        Priced evmMemoryInit mem' 0 32 cost :=
  ⟨by decide, (evmMemoryExpand_priced_iff evmMemoryInit 0 32 (by decide)).mpr
    fun _ => ⟨by decide, fun _ => by decide⟩⟩

/-- The last region MLOAD accepts: its end is rounded up to zero, so that nothing is
expanded and nothing is charged. -/
theorem evmMemoryExpand_wraps :
    evmMemoryExpand arenaAlloc evmMemoryInit 0xffffffffffffffdf 32 = .expanded 0 evmMemoryInit ∧
      ¬Priced evmMemoryInit evmMemoryInit 0xffffffffffffffdf 32 0 :=
  ⟨rfl, fun h => absurd h.covers (by decide)⟩

end Expansion

section Doubling

theorem toNat_double (c : UInt64) : (c * 2).toNat = c.toNat * 2 % 2 ^ 64 := UInt64.toNat_mul c 2

/-- The loop ends in one of the rounds in which the doubled capacity is large enough. -/
theorem doubleUntil_isSome_iff (wanted : UInt64) (rounds : ℕ) (c : UInt64) :
    (doubleUntil wanted rounds c).isSome = true ↔
      ∃ k < rounds, wanted.toNat ≤ c.toNat * 2 ^ k % 2 ^ 64 := by
  induction rounds generalizing c with
  | zero => simp [doubleUntil]
  | succ rounds ih =>
    unfold doubleUntil
    split
    · next h =>
      refine ⟨fun _ => ⟨0, Nat.succ_pos _, ?_⟩, fun _ => rfl⟩
      rw [pow_zero, mul_one, Nat.mod_eq_of_lt c.toNat_lt]
      exact UInt64.le_iff_toNat_le.mp h
    · next h =>
      rw [UInt64.le_iff_toNat_le] at h
      rw [ih, toNat_double]
      constructor
      · rintro ⟨k, hk, hle⟩
        refine ⟨k + 1, Nat.succ_lt_succ hk, ?_⟩
        rwa [Nat.mod_mul_mod, mul_assoc, ← pow_succ'] at hle
      · rintro ⟨k, hk, hle⟩
        cases k with
        | zero =>
          rw [pow_zero, mul_one, Nat.mod_eq_of_lt c.toNat_lt] at hle
          exact absurd hle h
        | succ k =>
          refine ⟨k, Nat.lt_of_succ_lt_succ hk, ?_⟩
          rwa [Nat.mod_mul_mod, mul_assoc, ← pow_succ']

def firstCapacity (mem : EvmMemory) : UInt64 :=
  if mem.capacity = 0 then initialCapacity else mem.capacity

theorem firstCapacity_pos (mem : EvmMemory) : 0 < (firstCapacity mem).toNat := by
  unfold firstCapacity
  split
  · decide
  · next h =>
    rw [Nat.pos_iff_ne_zero]
    intro hzero
    exact h (UInt64.toNat_inj.mp hzero)

/-- After 64 doublings nothing is left, so the tests of `growCapacity` are all that count. -/
theorem growCapacity_isSome_iff (mem : EvmMemory) (wanted : UInt64) :
    (growCapacity wanted mem.capacity).isSome = true ↔
      ∃ k, wanted.toNat ≤ (firstCapacity mem).toNat * 2 ^ k % 2 ^ 64 := by
  rw [growCapacity, ← firstCapacity, doubleUntil_isSome_iff]
  constructor
  · rintro ⟨k, -, hle⟩
    exact ⟨k, hle⟩
  · rintro ⟨k, hle⟩
    by_cases hk : k < 65
    · exact ⟨k, hk, hle⟩
    · have hdvd : 2 ^ 64 ∣ (firstCapacity mem).toNat * 2 ^ k :=
        Dvd.dvd.mul_left (pow_dvd_pow 2 (by omega)) _
      rw [Nat.mod_eq_zero_of_dvd hdvd] at hle
      exact ⟨0, by norm_num, le_trans hle (Nat.zero_le _)⟩

/-- A size up to 2^63 is reached before the capacity wraps round. -/
theorem exists_doubling {c wanted : ℕ} (hpos : 0 < c) (hlt : c < 2 ^ 64)
    (hwanted : wanted ≤ 2 ^ 63) : ∃ k, wanted ≤ c * 2 ^ k % 2 ^ 64 := by
  have hlog : Nat.log 2 c ≤ 63 :=
    Nat.le_of_lt_succ ((Nat.log_lt_iff_lt_pow (by norm_num) hpos.ne').mpr hlt)
  have hlow : 2 ^ Nat.log 2 c ≤ c := Nat.pow_log_le_self 2 hpos.ne'
  have hhigh : c < 2 ^ (Nat.log 2 c + 1) := Nat.lt_pow_succ_log_self (by norm_num) c
  refine ⟨63 - Nat.log 2 c, ?_⟩
  have hsmall : c * 2 ^ (63 - Nat.log 2 c) < 2 ^ 64 :=
    calc c * 2 ^ (63 - Nat.log 2 c) < 2 ^ (Nat.log 2 c + 1) * 2 ^ (63 - Nat.log 2 c) :=
          Nat.mul_lt_mul_of_pos_right hhigh (Nat.two_pow_pos _)
      _ = 2 ^ 64 := by rw [← pow_add]; congr 1; omega
  rw [Nat.mod_eq_of_lt hsmall]
  calc wanted ≤ 2 ^ 63 := hwanted
    _ = 2 ^ Nat.log 2 c * 2 ^ (63 - Nat.log 2 c) := by rw [← pow_add]; congr 1; omega
    _ ≤ c * 2 ^ (63 - Nat.log 2 c) := Nat.mul_le_mul_right _ hlow

variable {alloc : Alloc} {mem : EvmMemory} {offset size : UInt64}

/-- The expansion hangs where the buffer has to grow and the loop never ends. -/
theorem evmMemoryExpand_diverges_iff :
    evmMemoryExpand alloc mem offset size = .diverges ↔
      size ≠ 0 ∧ offset.toNat + size.toNat < 2 ^ 64 ∧
      mem.capacity.toNat < (roundUp32 (offset + size)).toNat ∧
      growCapacity (roundUp32 (offset + size)) mem.capacity = none := by
  by_cases hsize : size = 0
  · simp [evmMemoryExpand, hsize]
  by_cases hend : offset.toNat + size.toNat < 2 ^ 64
  · by_cases hroom : (roundUp32 (offset + size)).toNat ≤ mem.capacity.toNat
    · obtain ⟨cost, mem', hrun⟩ := evmMemoryExpand_of_room alloc mem hsize hend hroom
      rw [hrun]
      exact ⟨by rintro ⟨⟩, fun h => absurd h.2.2.1 (not_lt.mpr hroom)⟩
    · have hgrows : ¬roundUp32 (offset + size) ≤ evmMemorySize mem := by
        rw [UInt64.le_iff_toNat_le, evmMemorySize_toNat]
        exact fun h => hroom (le_trans h mem.fits)
      have hlarge : ¬roundUp32 (offset + size) ≤ mem.capacity := by
        rwa [UInt64.le_iff_toNat_le]
      unfold evmMemoryExpand
      rw [if_neg hsize, if_neg ((fits_iff _ _).mpr hend)]
      dsimp only
      rw [dif_neg hgrows, dif_neg hlarge]
      cases hgrow : growCapacity (roundUp32 (offset + size)) mem.capacity with
      | none => exact ⟨fun _ => ⟨hsize, hend, not_le.mp hroom, rfl⟩, fun _ => rfl⟩
      | some capacity =>
        dsimp only
        split
        · exact ⟨by rintro ⟨⟩, by rintro ⟨-, -, -, ⟨⟩⟩⟩
        · exact ⟨by rintro ⟨⟩, by rintro ⟨-, -, -, ⟨⟩⟩⟩
  · have hwide : uint64Max - size < offset := not_not.mp fun h => hend ((fits_iff _ _).mp h)
    rw [evmMemoryExpand, if_neg hsize, if_pos hwide]
    exact ⟨by rintro ⟨⟩, fun h => absurd h.2.1 hend⟩

/-- The rounded end of the region is not above 2^63, or some doubling of the capacity, cut
to 64 bits, happens to reach it. -/
def Attainable (mem : EvmMemory) (offset size : UInt64) : Prop :=
  2 ^ 63 < offset.toNat + size.toNat → offset.toNat + size.toNat ≤ 2 ^ 64 - 32 → 0 < size →
    ∃ k, 32 * wordsFor (offset.toNat + size.toNat) ≤
      (firstCapacity mem).toNat * 2 ^ k % 2 ^ 64

/-- An expansion comes back if and only if its end can be attained by doubling. -/
theorem evmMemoryExpand_returns_iff :
    evmMemoryExpand alloc mem offset size ≠ .diverges ↔ Attainable mem offset size := by
  have hsize : (0 < size ↔ size ≠ 0) := by
    rw [UInt64.lt_iff_toNat_lt, Ne, ← UInt64.toNat_inj]
    exact Nat.pos_iff_ne_zero
  have hdoubled := growCapacity_isSome_iff mem (roundUp32 (offset + size))
  rw [Ne, evmMemoryExpand_diverges_iff, Attainable, hsize]
  constructor
  · intro h hhigh hend hne
    have hnew := newSize_toNat offset size (by omega)
    rw [if_pos hend] at hnew
    by_contra hnone
    have hgrow : growCapacity (roundUp32 (offset + size)) mem.capacity = none := by
      rw [← Option.not_isSome_iff_eq_none, hdoubled, hnew]
      exact hnone
    refine h ⟨hne, by omega, ?_, hgrow⟩
    by_contra hroom
    rw [hnew, not_lt] at hroom
    have hfirst : firstCapacity mem = mem.capacity := by
      rw [firstCapacity, if_neg]
      intro hzero
      rw [hzero, wordsFor] at hroom
      simp only [UInt64.reduceToNat] at hroom
      omega
    refine hnone ⟨0, ?_⟩
    rwa [hfirst, pow_zero, mul_one, Nat.mod_eq_of_lt mem.capacity.toNat_lt]
  · rintro h ⟨hne, hlt, hgrows, hnone⟩
    have hnew := newSize_toNat offset size hlt
    have hend : offset.toNat + size.toNat ≤ 2 ^ 64 - 32 := by
      by_contra hwrap
      rw [if_neg hwrap] at hnew
      omega
    rw [if_pos hend] at hnew
    have hfound : ∃ k, 32 * wordsFor (offset.toNat + size.toNat) ≤
        (firstCapacity mem).toNat * 2 ^ k % 2 ^ 64 := by
      by_cases hhigh : 2 ^ 63 < offset.toNat + size.toNat
      · exact h hhigh hend hne
      · have hwanted : 32 * wordsFor (offset.toNat + size.toNat) ≤ 2 ^ 63 := by
          unfold wordsFor
          omega
        exact exists_doubling (firstCapacity_pos mem) (firstCapacity mem).toNat_lt hwanted
    rw [← hnew, ← hdoubled, hnone] at hfound
    cases hfound

end Doubling

section Arena

variable {mem : EvmMemory} {offset size : UInt64}

/-- The loop stops at the first doubling that is large enough. -/
theorem doubleUntil_first {wanted : UInt64} (rounds : ℕ) {k : ℕ} {c : UInt64} (hk : k < rounds)
    (hreached : wanted.toNat ≤ c.toNat * 2 ^ k) (hlt : c.toNat * 2 ^ k < 2 ^ 64)
    (hbefore : ∀ j < k, c.toNat * 2 ^ j < wanted.toNat) :
    ∃ r, doubleUntil wanted rounds c = some r ∧ r.val.toNat = c.toNat * 2 ^ k := by
  induction k generalizing rounds c with
  | zero =>
    obtain ⟨rounds, rfl⟩ := Nat.exists_eq_succ_of_ne_zero (by omega : rounds ≠ 0)
    rw [pow_zero, mul_one] at hreached
    have hle : wanted ≤ c := UInt64.le_iff_toNat_le.mpr hreached
    exact ⟨⟨c, hle⟩, dif_pos hle, by rw [pow_zero, mul_one]⟩
  | succ k ih =>
    obtain ⟨rounds, rfl⟩ := Nat.exists_eq_succ_of_ne_zero (by omega : rounds ≠ 0)
    have hfirst := hbefore 0 (Nat.succ_pos k)
    rw [pow_zero, mul_one] at hfirst
    have hsmall : ¬wanted ≤ c := by
      rw [UInt64.le_iff_toNat_le, not_le]
      exact hfirst
    have hshift (j : ℕ) : c.toNat * 2 ^ (j + 1) = c.toNat * 2 * 2 ^ j := by
      rw [pow_succ', mul_assoc]
    have hdouble : (c * 2).toNat = c.toNat * 2 := by
      rw [toNat_double]
      refine Nat.mod_eq_of_lt (lt_of_le_of_lt ?_ hlt)
      rw [hshift]
      exact Nat.le_mul_of_pos_right _ (Nat.two_pow_pos k)
    rw [hshift, ← hdouble] at hreached hlt
    obtain ⟨r, hr, hvalue⟩ := ih rounds (Nat.lt_of_succ_lt_succ hk) hreached hlt fun j hj => by
      rw [hdouble, ← hshift]
      exact hbefore (j + 1) (Nat.succ_lt_succ hj)
    refine ⟨r, ?_, by rw [hvalue, hdouble, hshift]⟩
    rw [doubleUntil, dif_neg hsmall, hr]

/-- The buffer reaches the end of the region, or a doubling of it does that fits a block. -/
def Granted (mem : EvmMemory) (offset size : ℕ) : Prop :=
  32 * wordsFor (offset + size) ≤ mem.capacity.toNat ∨
    ∃ k, 32 * wordsFor (offset + size) ≤ (firstCapacity mem).toNat * 2 ^ k ∧
      (firstCapacity mem).toNat * 2 ^ k ≤ 65536

/-- The capacity that is found for a size up to 2^63 is the first doubling that is large
enough. -/
theorem growCapacity_first (mem : EvmMemory) {wanted : UInt64} (hwanted : wanted.toNat ≤ 2 ^ 63) :
    ∃ k r, growCapacity wanted mem.capacity = some r ∧
      r.val.toNat = (firstCapacity mem).toNat * 2 ^ k ∧
      ∀ j < k, (firstCapacity mem).toNat * 2 ^ j < wanted.toNat := by
  have hpos := firstCapacity_pos mem
  have hexists : ∃ k, wanted.toNat ≤ (firstCapacity mem).toNat * 2 ^ k :=
    ⟨63, le_trans hwanted (Nat.le_mul_of_pos_left _ hpos)⟩
  classical
  have hbefore : ∀ j < Nat.find hexists, (firstCapacity mem).toNat * 2 ^ j < wanted.toNat :=
    fun j hj => not_le.mp (Nat.find_min hexists hj)
  have hle : Nat.find hexists ≤ 63 :=
    Nat.find_min' hexists (le_trans hwanted (Nat.le_mul_of_pos_left _ hpos))
  have hlt : (firstCapacity mem).toNat * 2 ^ Nat.find hexists < 2 ^ 64 := by
    cases hfind : Nat.find hexists with
    | zero =>
      rw [pow_zero, mul_one]
      exact (firstCapacity mem).toNat_lt
    | succ k =>
      have hlast := hbefore k (by omega)
      rw [pow_succ, ← mul_assoc]
      omega
  obtain ⟨r, hr, hvalue⟩ :=
    doubleUntil_first 65 (by omega) (Nat.find_spec hexists) hlt hbefore
  exact ⟨Nat.find hexists, r, hr, hvalue, hbefore⟩

theorem arenaAlloc_iff {n : ℕ} (hpos : 0 < n) : arenaAlloc n = true ↔ n ≤ 65536 := by
  refine ⟨fun h => ?_, fun h => arenaAlloc_grantsUpTo n hpos h⟩
  by_contra hlarge
  rw [arenaAlloc_refuses (not_le.mp hlarge)] at h
  cases h

/-- Up to 2^63 an expansion is granted or refused by the arena. -/
theorem evmMemoryExpand_arena (mem : EvmMemory) (hsize : size ≠ 0) (hend : offset.toNat + size.toNat ≤ 2 ^ 63) :
    (Granted mem offset.toNat size.toNat ∧
      ∃ cost mem', evmMemoryExpand arenaAlloc mem offset size = .expanded cost mem') ∨
    (¬Granted mem offset.toNat size.toNat ∧
      evmMemoryExpand arenaAlloc mem offset size = .refused) := by
  have hnew : (roundUp32 (offset + size)).toNat =
      32 * wordsFor (offset.toNat + size.toNat) := by
    rw [newSize_toNat _ _ (by omega), if_pos (by omega)]
  by_cases hroom : 32 * wordsFor (offset.toNat + size.toNat) ≤ mem.capacity.toNat
  · refine Or.inl ⟨Or.inl hroom, ?_⟩
    exact evmMemoryExpand_of_room arenaAlloc mem hsize (by omega) (by rwa [hnew])
  · have hlarge : ¬roundUp32 (offset + size) ≤ mem.capacity := by
      rwa [UInt64.le_iff_toNat_le, hnew]
    have hgrows : ¬roundUp32 (offset + size) ≤ evmMemorySize mem := by
      rw [UInt64.le_iff_toNat_le, hnew, evmMemorySize_toNat]
      exact fun h => hroom (le_trans h mem.fits)
    have hwanted : (roundUp32 (offset + size)).toNat ≤ 2 ^ 63 := by
      rw [hnew, wordsFor]
      omega
    obtain ⟨k, r, hgrow, hvalue, hbefore⟩ := growCapacity_first mem hwanted
    have hreached : 32 * wordsFor (offset.toNat + size.toNat) ≤
        (firstCapacity mem).toNat * 2 ^ k := by
      rw [← hnew, ← hvalue]
      exact UInt64.le_iff_toNat_le.mp r.property
    have hrun : evmMemoryExpand arenaAlloc mem offset size =
        if arenaAlloc r.val.toNat then
          .expanded (evmMemoryExpansionCost (evmMemorySize mem / 32)
            (roundUp32 (offset + size) / 32))
            (zeroFill mem (roundUp32 (offset + size)) r.val (length_le_of_grows hgrows)
              r.property (roundUp32_aligned _))
        else .refused := by
      rw [evmMemoryExpand, if_neg hsize, if_neg ((fits_iff _ _).mpr (by omega))]
      dsimp only
      rw [dif_neg hgrows, dif_neg hlarge, hgrow]
    have hpos : 0 < r.val.toNat := by
      rw [hvalue]
      exact Nat.mul_pos (firstCapacity_pos mem) (Nat.two_pow_pos k)
    by_cases hblock : (firstCapacity mem).toNat * 2 ^ k ≤ 65536
    · refine Or.inl ⟨Or.inr ⟨k, hreached, hblock⟩, ?_⟩
      rw [hrun, if_pos ((arenaAlloc_iff hpos).mpr (by rwa [hvalue]))]
      exact ⟨_, _, rfl⟩
    · refine Or.inr ⟨?_, ?_⟩
      · rintro (hinside | ⟨j, hj, hsmall⟩)
        · exact hroom hinside
        · -- An earlier doubling is too small, a later one is no smaller than this one.
          rcases Nat.lt_or_ge j k with hlt | hge
          · have := hbefore j hlt
            omega
          · refine hblock (le_trans (Nat.mul_le_mul_left _ ?_) hsmall)
            exact Nat.pow_le_pow_right (by norm_num) hge
      · rw [hrun, if_neg fun hgranted => hblock (hvalue ▸ (arenaAlloc_iff hpos).mp hgranted)]

def exactExpansion (mem : EvmMemory) (offset size : ℕ) : ℕ :=
  if size = 0 then 0
  else exactPrice (max (mem.data.length / 32) (wordsFor (offset + size))) -
    exactPrice (mem.data.length / 32)

/-- What a memory within a block is expanded to, and for what price. -/
theorem expanded_exact {mem' : EvmMemory} {cost : UInt64} (hblock : mem.capacity.toNat ≤ 65536)
    (hsize : size ≠ 0) (hend : offset.toNat + size.toNat ≤ 2 ^ 63)
    (h : evmMemoryExpand arenaAlloc mem offset size = .expanded cost mem') :
    cost.toNat = exactExpansion mem offset.toNat size.toNat ∧
      offset.toNat + size.toNat ≤ mem'.data.length := by
  obtain ⟨hlt, -, hdata, hroom⟩ := evmMemoryExpand_inv hsize h
  rw [newSize_toNat _ _ hlt, if_pos (by omega)] at hdata hroom
  have hlength := congrArg List.length hdata
  rw [List.length_append, List.length_replicate] at hlength
  have hfits := mem'.fits
  have hwords : 32 * wordsFor (offset.toNat + size.toNat) ≤ 65536 := by
    rcases hroom with hinside | hgranted
    · omega
    · have hcapacity : mem'.capacity.toNat ≤ 65536 := by
        by_contra hlarge
        rw [arenaAlloc_refuses (not_le.mp hlarge)] at hgranted
        cases hgranted
      omega
  have hpriced := (expanded_priced_iff hsize (by omega) h).mpr fun hgrows =>
    priceFits_of_lt (by omega) (by omega)
  refine ⟨?_, hpriced.covers⟩
  have hmax : mem'.data.length / 32 =
      max (mem.data.length / 32) (wordsFor (offset.toNat + size.toNat)) := by
    have haligned := mem.aligned
    omega
  have hne : size.toNat ≠ 0 := fun hzero => hsize (UInt64.toNat_inj.mp hzero)
  have hexact := hpriced.exact
  rw [hmax] at hexact
  rw [exactExpansion, if_neg hne]
  omega

/-- Whoever can pay for an access with 64 bits of gas stays below 2^42. -/
theorem end_lt_of_afford {offset size : ℕ} (hblock : mem.capacity.toNat ≤ 65536)
    (hsize : size ≠ 0) (h : exactExpansion mem offset size < 2 ^ 64) : offset + size < 2 ^ 42 := by
  have hfits := mem.fits
  have hold : exactPrice (mem.data.length / 32) ≤ 14336 := by
    calc exactPrice (mem.data.length / 32) ≤ exactPrice 2048 := exactPrice_mono (by omega)
      _ = 14336 := by decide
  have hwords : wordsFor (offset + size) < 2 ^ 37 := by
    by_contra hlarge
    have hprice : exactPrice (2 ^ 37) ≤
        exactPrice (max (mem.data.length / 32) (wordsFor (offset + size))) :=
      exactPrice_mono (le_trans (not_lt.mp hlarge) (le_max_right _ _))
    rw [exactExpansion, if_neg hsize] at h
    have hvalue : exactPrice (2 ^ 37) = 3 * 2 ^ 37 + 2 ^ 65 := by decide
    omega
  unfold wordsFor at hwords
  omega

end Arena

end Div0.MemoryPricing
