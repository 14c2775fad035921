import Div0.FrameViews
import Div0.GasConservation

/-!
The instructions that access memory, run on their operands. Every one of them takes its
operands off the stack, expands the memory, and charges a base, something for the size of
the data, and the expansion. Where the frame has the gas for the exact price, all that can
still go wrong is that the arena refuses a buffer, or that an offset is out of range that
does not matter.
-/

namespace Div0.MemoryInstructions

open BigEndian Effects EvmContext Memory Node Uint256 Uint256Ops WorldState Frame Opcodes FrameOps
open StateOps Interpreter OpEffects CallEffects MemoryPricing GasConservation

variable {host : Host} {s : Active}

section Endings

def Ends {α : Type} (halt : Halt) (m : Op α) (s : Active) : Prop := ∃ s', m s = .error halt s'

variable {α β : Type} {halt : Halt} {m : Op α} {f : α → Op β} {s₁ : Active}

theorem not_ends_of_ok {a : α} (h : m s = .ok a s₁) : ¬Ends halt m s := by
  rintro ⟨s', hrun⟩
  rw [h] at hrun
  cases hrun

theorem ends_of_error {e : Halt} (h : m s = .error e s₁) : Ends halt m s ↔ e = halt := by
  constructor
  · rintro ⟨s', hrun⟩
    rw [h] at hrun
    cases hrun
    rfl
  · rintro rfl
    exact ⟨s₁, h⟩

/-- Behind a program that returns, the rest decides. -/
theorem ends_bind_of_ok {a : α} (h : m s = .ok a s₁) :
    Ends halt (m >>= f) s ↔ Ends halt (f a) s₁ := by
  unfold Ends
  rw [bind_of_ok h]

theorem bind_of_error {e : Halt} (h : m s = .error e s₁) : (m >>= f) s = .error e s₁ := by
  rw [bind_apply, h]

end Endings

variable {value : Word} {n : ℕ}

section Operands

def dropStack (n : ℕ) (stack : EvmStack) : EvmStack where
  items := stack.items.drop n
  capacity := stack.capacity
  fits := le_trans (by rw [List.length_drop]; omega) stack.fits
  bounded := stack.bounded

def dropItems (n : ℕ) (s : Active) : Active :=
  { s with frame := { s.frame with stack := dropStack n s.frame.stack } }

theorem getFrame_eq (s : Active) : getFrame s = .ok s.frame s := rfl

theorem getEvm_eq (s : Active) : getEvm s = .ok s.evm s := rfl

theorem dropItems_dropItems (m n : ℕ) : dropItems m (dropItems n s) = dropItems (n + m) s := by
  unfold dropItems dropStack
  simp only [List.drop_drop]

theorem evmStackPop_eq {stack : EvmStack} {rest : List Word} (h : stack.items = value :: rest) :
    evmStackPop stack = some (value, dropStack 1 stack) := by
  obtain ⟨items, capacity, fits, bounded⟩ := stack
  subst h
  rfl

theorem pop_eq {rest : List Word} (h : s.frame.stack.items = value :: rest) :
    pop s = .ok value (dropItems 1 s) := by
  unfold pop
  rw [bind_of_ok (getFrame_eq s), evmStackPop_eq h]
  rfl

theorem hasItems_eq (h : n ≤ s.frame.stack.items.length) : hasItems n s = .ok () s := by
  have hitems : evmStackHasItems s.frame.stack n = true := decide_eq_true h
  unfold hasItems
  rw [bind_of_ok (getFrame_eq s), hitems]
  rfl

theorem hasItems_error (h : ¬n ≤ s.frame.stack.items.length) :
    hasItems n s = .error (.status .stackUnderflow) s := by
  have hitems : evmStackHasItems s.frame.stack n = false := decide_eq_false h
  unfold hasItems
  rw [bind_of_ok (getFrame_eq s), hitems]
  rfl

/-- The words that several pops in a row take. -/
theorem popAll_eq (h : n ≤ s.frame.stack.items.length) :
    popAll n s = .ok (s.frame.stack.items.take n) (dropItems n s) := by
  induction n generalizing s with
  | zero => rfl
  | succ n ih =>
    cases hitems : s.frame.stack.items with
    | nil =>
      rw [hitems] at h
      exact absurd h (Nat.not_succ_le_zero n)
    | cons value rest =>
      have hrest : (dropItems 1 s).frame.stack.items = rest := congrArg (List.drop 1) hitems
      have hfewer : n ≤ (dropItems 1 s).frame.stack.items.length := by
        rw [hitems] at h
        rw [hrest]
        exact Nat.le_of_succ_le_succ h
      have hpops := ih (s := dropItems 1 s) hfewer
      rw [hrest, dropItems_dropItems, Nat.add_comm 1 n] at hpops
      unfold popAll
      rw [bind_of_ok (pop_eq hitems), bind_of_ok hpops]
      rfl

theorem require_true {error : EvmStatus} {c : Bool} (h : c = true) :
    require c error s = .ok () s := by
  rw [h]
  rfl

theorem require_false {error : EvmStatus} {c : Bool} (h : c = false) :
    require c error s = .error (.status error) s := by
  rw [h]
  rfl

/-- An operand of at most 64 bits. -/
theorem toU64_eq (h : value.toNat < 2 ^ 64) : toU64 value s = .ok (uint256ToU64Unsafe value) s := by
  unfold toU64
  rw [bind_of_ok (require_true ((fitsU64_iff value).mpr h))]
  rfl

theorem toU64_error (h : ¬value.toNat < 2 ^ 64) : toU64 value s = .error (.status .outOfGas) s := by
  have hfits : uint256FitsU64 value = false := by
    rw [← Bool.not_eq_true, fitsU64_iff]
    exact h
  unfold toU64
  rw [bind_of_error (require_false hfits)]

theorem toU64_toNat (value : Word) (h : value.toNat < 2 ^ 64) :
    (uint256ToU64Unsafe value).toNat = value.toNat := by
  unfold uint256ToU64Unsafe Word.toNat at *
  omega

end Operands

variable {α : Type}

section Charges

def withMemory (mem : EvmMemory) (s : Active) : Active :=
  { s with frame := { s.frame with memory := mem } }

def withState (f : World → World) (s : Active) : Active :=
  { s with evm := { s.evm with state := s.evm.state.map f } }

theorem updateState_eq (f : World → World) (s : Active) :
    updateState f s = .ok () (withState f s) := rfl

variable {offset size cost : UInt64}

theorem expandMemory_eq (host : Host) (offset size : UInt64) (s : Active) :
    expandMemory host offset size s =
      match evmMemoryExpand host.alloc s.frame.memory offset size with
      | .expanded cost mem => .ok cost (withMemory mem s)
      | .refused => .error (.status .outOfGas) s
      | .diverges => .error .diverges s := by
  unfold expandMemory
  rw [bind_of_ok (getFrame_eq s)]
  cases evmMemoryExpand host.alloc s.frame.memory offset size <;> rfl

theorem expandMemory_zero : expandMemory host offset 0 s = .ok 0 s := by
  rw [expandMemory_eq, evmMemoryExpand, if_pos rfl]
  rfl

variable {a b : UInt64}

theorem add_toNat (h : a.toNat + b.toNat < 2 ^ 64) : (a + b).toNat = a.toNat + b.toNat := by
  rw [UInt64.toNat_add, Nat.mod_eq_of_lt h]

theorem mul_toNat (h : a.toNat * b.toNat < 2 ^ 64) : (a * b).toNat = a.toNat * b.toNat := by
  rw [UInt64.toNat_mul, Nat.mod_eq_of_lt h]

/-- A test for overflow that passes. -/
theorem require_fits (h : a.toNat + b.toNat < 2 ^ 64) :
    require (decide (a ≤ uint64Max - b)) .outOfGas s = .ok () s :=
  require_true (decide_eq_true (UInt64.not_lt.mp ((fits_iff a b).mpr h)))

theorem wordsOf_toNat (size : UInt64) (h : size.toNat + 31 < 2 ^ 64) :
    ((size + 31) / 32).toNat = wordsFor size.toNat := by
  rw [UInt64.toNat_div, add_toNat h]
  rfl

def Buffered (mem : EvmMemory) (offset size : ℕ) : Prop := size ≠ 0 → Granted mem offset size

/-- The program ends with the region inside the memory if the arena serves it, and is out of
gas at once if not. -/
def Expands (m : Op α) (s : Active) (offset size : ℕ) (a : α) : Prop :=
  (Buffered s.frame.memory offset size ∧ ∃ s', m s = .ok a s' ∧ s'.evm = s.evm ∧
    (size ≠ 0 → offset + size ≤ s'.frame.memory.data.length) ∧ InBlock s'.frame.memory) ∨
  (¬Buffered s.frame.memory offset size ∧ m s = .error (.status .outOfGas) s)

theorem Expands.ends_iff {m : Op α} {offset size : ℕ} {a : α} (h : Expands m s offset size a) :
    Ends (.status .outOfGas) m s ↔ ¬Buffered s.frame.memory offset size := by
  rcases h with ⟨hgranted, s', hrun, -⟩ | ⟨hrefused, hrun⟩
  · exact iff_of_false (not_ends_of_ok hrun) (not_not.mpr hgranted)
  · exact iff_of_true ⟨s, hrun⟩ hrefused

/-- The memory is in a block, and the frame has the gas for `base` and the exact price of the
region. -/
def Affords (s : Active) (base offset size : ℕ) : Prop :=
  InBlock s.frame.memory ∧ base + exactExpansion s.frame.memory offset size ≤ s.frame.gas.toNat

theorem Affords.end_lt {base offset size : ℕ} (h : Affords s base offset size)
    (hsize : size ≠ 0) : offset + size < 2 ^ 42 :=
  end_lt_of_afford h.1 hsize (lt_of_le_of_lt (Nat.le_add_left _ _)
    (lt_of_le_of_lt h.2 s.frame.gas.toNat_lt))

theorem charge_sum (h : a.toNat + b.toNat ≤ s.frame.gas.toNat) :
    charge (a + b) s = .ok () { s with frame := { s.frame with gas := s.frame.gas - (a + b) } } :=
  charge_ok (UInt64.le_iff_toNat_le.mpr
    (by rwa [add_toNat (lt_of_le_of_lt h s.frame.gas.toNat_lt)]))

variable (host) [harena : OnArena host]

/-- An expansion, and what follows it if the frame has the gas for the exact price. -/
theorem expandMemory_then {a : α} {f : UInt64 → Op α} {base : ℕ}
    (hafford : Affords s base offset.toNat size.toNat)
    (hf : ∀ memCost s₁, base + memCost.toNat ≤ s₁.frame.gas.toNat →
      ∃ s', f memCost s₁ = .ok a s' ∧ s'.evm = s₁.evm ∧
        s'.frame.memory = s₁.frame.memory) :
    Expands (expandMemory host offset size >>= f) s offset.toNat size.toNat a := by
  have hrun := expandMemory_eq host offset size s
  have hmem := hafford.1
  by_cases hsize : size = 0
  · subst hsize
    obtain ⟨s', hdone, hevm, hmemory⟩ := hf 0 s (le_trans (by simp) hafford.2)
    refine Or.inl ⟨fun h => absurd rfl h, s', ?_, hevm, fun h => absurd rfl h, hmemory ▸ hmem⟩
    rw [bind_of_ok expandMemory_zero]
    exact hdone
  · have hne : size.toNat ≠ 0 := fun hzero => hsize (UInt64.toNat_inj.mp hzero)
    have hend : offset.toNat + size.toNat ≤ 2 ^ 63 :=
      (hafford.end_lt hne).le.trans (by norm_num)
    rcases evmMemoryExpand_arena s.frame.memory hsize hend with
      ⟨hgranted, cost, mem, hexpand⟩ | ⟨hrefused, hexpand⟩
    · have hexact := expanded_exact hmem hsize hend hexpand
      rw [← harena.alloc_eq] at hexpand
      rw [hexpand] at hrun
      obtain ⟨s', hdone, hevm, hmemory⟩ := hf cost (withMemory mem s)
        (by rw [hexact.1]; exact hafford.2)
      exact Or.inl ⟨fun _ => hgranted, s', (bind_of_ok hrun).trans hdone, hevm,
        fun _ => hmemory ▸ hexact.2, hmemory ▸ hmem.expand hexpand⟩
    · rw [← harena.alloc_eq] at hexpand
      rw [hexpand] at hrun
      exact Or.inr ⟨fun h => hrefused (h hne), bind_of_error hrun⟩

/-- MLOAD, MSTORE and MSTORE8, with the gas for the exact price. -/
theorem accessMemory_expands {offset : Word} (width : UInt64) (hwidth : width.toNat ≠ 0)
    (hafford : Affords s cost.toNat offset.toNat width.toNat) :
    Expands (accessMemory host offset width cost) s offset.toNat width.toNat
      (uint256ToU64Unsafe offset) := by
  have hend := hafford.end_lt hwidth
  have hoffset := toU64_toNat offset (by omega)
  rw [← hoffset] at hafford ⊢
  unfold Expands accessMemory
  rw [bind_of_ok (toU64_eq (by omega)), bind_of_ok (require_fits (by omega))]
  refine expandMemory_then host hafford fun memCost s₁ hgas => ?_
  have hlt := s₁.frame.gas.toNat_lt
  rw [bind_of_ok (require_fits (by omega)), bind_of_ok (charge_sum hgas)]
  exact ⟨_, rfl, rfl, rfl⟩

/-- The price of the words of a region. -/
theorem wordCost_toNat {price : UInt64} (hprice : price.toNat ≤ 6) (hsize : size.toNat < 2 ^ 42) :
    (price * ((size + 31) / 32)).toNat = price.toNat * wordsFor size.toNat := by
  have hwords := wordsOf_toNat size (by omega)
  have hsmall : wordsFor size.toNat ≤ 2 ^ 38 := by
    unfold wordsFor
    omega
  rw [mul_toNat, hwords]
  rw [hwords]
  exact lt_of_le_of_lt (Nat.mul_le_mul hprice hsmall) (by norm_num)

/-- The charge of KECCAK256, with the gas for the exact price. -/
theorem chargeKeccak256_expands (hsize : size.toNat ≠ 0)
    (hafford : Affords s (cost.toNat + 6 * wordsFor size.toNat) offset.toNat size.toNat) :
    Expands (chargeKeccak256 host offset size cost) s offset.toNat size.toNat () := by
  have hend := hafford.end_lt hsize
  have hwords := wordsOf_toNat size (by omega)
  have hmax : (uint64Max / gasKeccak256Word).toNat = (2 ^ 64 - 1) / 6 := by decide
  have hwordCost : (gasKeccak256Word * ((size + 31) / 32)).toNat = 6 * wordsFor size.toNat :=
    wordCost_toNat (by decide) (by omega)
  unfold Expands chargeKeccak256
  rw [bind_of_ok (require_fits (by omega))]
  refine expandMemory_then host hafford fun memCost s₁ hgas => ?_
  have hlt := s₁.frame.gas.toNat_lt
  have hdynamic : (cost + gasKeccak256Word * ((size + 31) / 32)).toNat =
      cost.toNat + 6 * wordsFor size.toNat := by
    rw [add_toNat (by omega), hwordCost]
  have hsizes : require (decide (size ≤ uint64Max - 31)) .outOfGas s₁ = .ok () s₁ :=
     require_fits (b := 31) (by change _ + 31 < _; omega)
  rw [bind_of_ok hsizes,
    bind_of_ok (require_true (decide_eq_true (UInt64.le_iff_toNat_le.mpr (by omega)))),
    bind_of_ok (require_fits (by omega)), bind_of_ok (require_fits (by omega)),
    charge_sum (hdynamic ▸ hgas)]
  exact ⟨_, rfl, rfl, rfl⟩

/-- The charge of the copy opcodes, with the gas for the exact price. -/
theorem chargeCopy_expands {destOffset : Word} (hsize : size.toNat ≠ 0)
    (hafford : Affords s (cost.toNat + 3 * wordsFor size.toNat) destOffset.toNat size.toNat) :
    Expands (chargeCopy host destOffset size cost) s destOffset.toNat size.toNat
      (uint256ToU64Unsafe destOffset) := by
  have hend := hafford.end_lt hsize
  have hoffset := toU64_toNat destOffset (by omega)
  rw [← hoffset] at hafford ⊢
  unfold Expands chargeCopy
  rw [bind_of_ok (toU64_eq (by omega)), bind_of_ok (require_fits (by omega))]
  refine expandMemory_then host hafford fun memCost s₁ hgas => ?_
  have hlt := s₁.frame.gas.toNat_lt
  have hwordCost : (gasCopy * ((size + 31) / 32)).toNat = 3 * wordsFor size.toNat :=
    wordCost_toNat (by decide) (by omega)
  have hdynamic : (cost + gasCopy * ((size + 31) / 32)).toNat =
      cost.toNat + 3 * wordsFor size.toNat := by
    rw [add_toNat (by omega), hwordCost]
  rw [bind_of_ok (charge_sum (hdynamic ▸ hgas))]
  exact ⟨_, rfl, rfl, rfl⟩

theorem topicCost_toNat (topicCount : ℕ) (h : 375 + 375 * topicCount < 2 ^ 64) :
    (UInt64.ofNat topicCount * gasLogTopic).toNat = 375 * topicCount := by
  have hcount : (UInt64.ofNat topicCount).toNat = topicCount :=
    UInt64.toNat_ofNat_of_lt' (by change _ < 2 ^ 64; omega)
  rw [mul_toNat (by rw [hcount]; change _ * 375 < _; omega), hcount]
  exact Nat.mul_comm _ _

/-- What a LOG costs before its data. -/
theorem logCost_toNat (topicCount : ℕ) (h : 375 + 375 * topicCount < 2 ^ 64) :
    (gasLog + UInt64.ofNat topicCount * gasLogTopic).toNat = 375 + 375 * topicCount := by
  rw [add_toNat (by rw [topicCost_toNat _ h]; exact h), topicCost_toNat _ h]
  rfl

/-- The charge of a LOG, with the gas for the exact price. -/
theorem chargeLog_expands {topicCount : ℕ} (hafford : Affords s
      (375 + 375 * topicCount + 8 * size.toNat) offset.toNat size.toNat) :
    Expands (chargeLog host topicCount offset size) s offset.toNat size.toNat () := by
  have hlt := s.frame.gas.toNat_lt
  have hgas := hafford.2
  have htopics := topicCost_toNat topicCount (by omega)
  have hlog : gasLog.toNat = 375 := rfl
  have hdata : (size * gasLogData).toNat = 8 * size.toNat := by
    rw [mul_toNat (by change _ * 8 < _; omega)]
    exact Nat.mul_comm _ _
  have hmax : (uint64Max / gasLogData).toNat = (2 ^ 64 - 1) / 8 := by decide
  have hfixed := logCost_toNat topicCount (by omega)
  have hbase : (gasLog + UInt64.ofNat topicCount * gasLogTopic + size * gasLogData).toNat =
      375 + 375 * topicCount + 8 * size.toNat := by
    rw [add_toNat (by omega), hfixed, hdata]
  unfold Expands chargeLog
  rw [bind_of_ok (require_fits (by omega)),
    bind_of_ok (require_true (decide_eq_true (UInt64.le_iff_toNat_le.mpr (by omega)))),
    bind_of_ok (require_fits (by omega))]
  refine expandMemory_then host hafford fun memCost s₁ hgas => ?_
  have hlt' := s₁.frame.gas.toNat_lt
  rw [bind_of_ok (require_fits (by omega)), charge_sum (hbase ▸ hgas)]
  exact ⟨_, rfl, rfl, rfl⟩

end Charges

section Avoidance

/-- A program that never ends with `halt`. -/
class Avoids (halt : Halt) {α : Type} (m : Op α) : Prop where
  avoids : ∀ s, ¬Ends halt m s

/-- The ends that are not an access outside a buffer. -/
class Reported (halt : Halt) : Prop where
  reported : ∀ access, Halt.undefined access ≠ halt

instance (error : EvmStatus) : Reported (.status error) := ⟨nofun⟩

instance : Reported .diverges := ⟨nofun⟩

variable {α β : Type} {halt : Halt}

instance (a : α) : Avoids halt (pure a : Op α) := ⟨fun _ => not_ends_of_ok rfl⟩

instance (m : Op α) (f : α → Op β) [hm : Avoids halt m] [hf : ∀ a, Avoids halt (f a)] :
    Avoids halt (m >>= f) where
  avoids s := by
    cases hrun : m s with
    | ok a s₁ =>
      rw [ends_bind_of_ok hrun]
      exact (hf a).avoids s₁
    | error e s₁ =>
      rw [ends_of_error (bind_of_error hrun)]
      rintro rfl
      exact hm.avoids s ⟨s₁, hrun⟩

instance [hreported : Reported halt] (access : Access) (o : Option α) :
    Avoids halt (defined access o) where
  avoids s := by
    cases o with
    | none =>
      intro h
      exact hreported.reported access
        ((ends_of_error (m := (defined access none : Op α)) rfl).mp h)
    | some a => exact not_ends_of_ok rfl

instance : Avoids halt getFrame := ⟨fun _ => not_ends_of_ok rfl⟩

instance (stack : EvmStack) : Avoids halt (setStack stack) := ⟨fun _ => not_ends_of_ok rfl⟩

instance (mem : EvmMemory) : Avoids halt (setMemory mem) := ⟨fun _ => not_ends_of_ok rfl⟩

section

variable [Reported halt]

instance (value : Word) : Avoids halt (push value) := by
  unfold push
  infer_instance

instance (offset len : UInt64) : Avoids halt (loadMemory offset len) := by
  unfold loadMemory
  infer_instance

instance (offset : UInt64) (bytes : Bytes) : Avoids halt (storeMemory offset bytes) := by
  unfold storeMemory
  infer_instance

end

/-- In front of a program that never ends with `halt`, the first one decides. -/
theorem ends_bind_avoids {m : Op α} {f : α → Op β} [hf : ∀ a, Avoids halt (f a)] :
    Ends halt (m >>= f) s ↔ Ends halt m s := by
  cases hrun : m s with
  | ok a s₁ =>
    rw [ends_bind_of_ok hrun]
    exact iff_of_false ((hf a).avoids s₁) (not_ends_of_ok hrun)
  | error e s₁ => rw [ends_of_error (bind_of_error hrun), ends_of_error hrun]

end Avoidance

section Handlers

variable {cost : UInt64} {rest : List Word}

theorem ends_pop {halt : Halt} {f : Word → Op α} (h : s.frame.stack.items = value :: rest) :
    Ends halt (pop >>= f) s ↔ Ends halt (f value) (dropItems 1 s) := ends_bind_of_ok (pop_eq h)

theorem items_drop (h : s.frame.stack.items = value :: rest) :
    (dropItems 1 s).frame.stack.items = rest := congrArg (List.drop 1) h

variable [harena : OnArena host]

theorem opMload_ends (cost : UInt64) {offset : Word} (hitems : s.frame.stack.items = offset :: rest)
    (hafford : Affords s cost.toNat offset.toNat 32) :
    Ends (.status .outOfGas) (opMload host cost) s ↔
      ¬Buffered s.frame.memory offset.toNat 32 := by
  unfold opMload
  rw [ends_bind_of_ok (hasItems_eq (by simp [hitems])), ends_pop hitems, ends_bind_avoids]
  exact (accessMemory_expands host (s := dropItems 1 s) 32 (by decide) hafford).ends_iff

/-- MSTORE and MSTORE8. -/
theorem store_ends (cost : UInt64) {offset value : Word} {width : UInt64} {bytes : Word → Bytes}
    (hitems : s.frame.stack.items = offset :: value :: rest) (hwidth : width.toNat ≠ 0)
    (hafford : Affords s cost.toNat offset.toNat width.toNat) :
    Ends (.status .outOfGas) (hasItems 2 >>= fun _ => pop >>= fun offset => pop >>= fun value =>
      accessMemory host offset width cost >>= fun offset => storeMemory offset (bytes value)) s ↔
      ¬Buffered s.frame.memory offset.toNat width.toNat := by
  rw [ends_bind_of_ok (hasItems_eq (by simp [hitems])), ends_pop hitems,
    ends_pop (items_drop hitems), ends_bind_avoids]
  exact (accessMemory_expands host (s := dropItems 1 (dropItems 1 s)) width hwidth
    hafford).ends_iff

/-- An instruction with an empty region pays its base alone. -/
theorem charge_not_ends (h : cost.toNat ≤ s.frame.gas.toNat) :
    ¬Ends (.status .outOfGas) (charge cost) s :=
  not_ends_of_ok (charge_ok (UInt64.le_iff_toNat_le.mpr h))

theorem isZero_false {size : Word} (h : size.toNat ≠ 0) : ¬uint256IsZero size = true := by
  rw [isZero_iff]
  exact h

/-- The copy instructions behind their operands. -/
theorem copy_ends {dest size : Word} {f : UInt64 → UInt64 → Op Unit}
    [∀ size start, Avoids (.status .outOfGas) (f size start)]
    (hafford : Affords s (cost.toNat + 3 * wordsFor size.toNat) dest.toNat size.toNat) :
    Ends (.status .outOfGas) (if uint256IsZero size = true then charge cost
      else toU64 size >>= fun size => chargeCopy host dest size cost >>= f size) s ↔
      ¬Buffered s.frame.memory dest.toNat size.toNat := by
  by_cases hsize : size.toNat = 0
  · rw [if_pos ((isZero_iff size).mpr hsize)]
    exact iff_of_false (charge_not_ends (le_trans (by omega) hafford.2))
      (not_not.mpr fun h => absurd hsize h)
  · have hlt := hafford.end_lt hsize
    have hvalue := toU64_toNat size (by omega)
    rw [if_neg (isZero_false hsize), ends_bind_of_ok (toU64_eq (by omega)), ends_bind_avoids]
    rw [← hvalue] at hafford hsize ⊢
    exact (chargeCopy_expands host hsize hafford).ends_iff

theorem copyOp_ends (cost : UInt64) {source : CallFrame → Bytes} {dest src size : Word}
    (hitems : s.frame.stack.items = dest :: src :: size :: rest)
    (hafford : Affords s (cost.toNat + 3 * wordsFor size.toNat) dest.toNat size.toNat) :
    Ends (.status .outOfGas) (copyOp host source cost) s ↔
      ¬Buffered s.frame.memory dest.toNat size.toNat := by
  unfold copyOp
  rw [ends_bind_of_ok (hasItems_eq (by simp [hitems])), ends_pop hitems,
    ends_pop (items_drop hitems), ends_pop (items_drop (items_drop hitems))]
  exact copy_ends hafford

theorem opExtcodecopy_ends {ws : World} {addr dest src size : Word}
    (hstate : s.evm.state = some ws)
    (hitems : s.frame.stack.items = addr :: dest :: src :: size :: rest)
    (hafford : Affords s
      ((accountAccessCost (wsWarmAddress host ws (addressFromUint256 addr)).1).toNat +
        3 * wordsFor size.toNat) dest.toNat size.toNat) :
    Ends (.status .outOfGas) (opExtcodecopy host) s ↔
      ¬Buffered s.frame.memory dest.toNat size.toNat := by
  have hread : requireState .stateUnavailable s = .ok ws s := by rw [requireState_eq, hstate]
  unfold opExtcodecopy
  rw [ends_bind_of_ok hread, ends_bind_of_ok (hasItems_eq (by simp [hitems])), ends_pop hitems,
    ends_pop (items_drop hitems), ends_pop (items_drop (items_drop hitems)),
    ends_pop (items_drop (items_drop (items_drop hitems))), ends_bind_of_ok (updateState_eq _ _)]
  exact copy_ends hafford

variable {offset size : Word}

theorem opKeccak256_ends (cost : UInt64) (hitems : s.frame.stack.items = offset :: size :: rest)
    (hafford : Affords s (cost.toNat + 6 * wordsFor size.toNat) offset.toNat size.toNat) :
    Ends (.status .outOfGas) (opKeccak256 host cost) s ↔
      ¬Buffered s.frame.memory offset.toNat size.toNat := by
  unfold opKeccak256
  rw [ends_bind_of_ok (hasItems_eq (by simp [hitems])), ends_pop hitems,
    ends_pop (items_drop hitems)]
  by_cases hsize : size.toNat = 0
  · rw [if_pos ((isZero_iff size).mpr hsize), ends_bind_avoids]
    exact iff_of_false (charge_not_ends (le_trans (by omega) hafford.2))
      (not_not.mpr fun h => absurd hsize h)
  · have hlt := hafford.end_lt hsize
    have hfits : (uint256FitsU64 offset && uint256FitsU64 size) = true := by
      rw [Bool.and_eq_true, fitsU64_iff, fitsU64_iff]
      omega
    rw [if_neg (isZero_false hsize), ends_bind_of_ok (require_true hfits), ends_bind_avoids]
    have hvalue := toU64_toNat size (by omega)
    have hstart := toU64_toNat offset (by omega)
    rw [← hvalue] at hafford hsize ⊢
    rw [← hstart] at hafford ⊢
    exact (chargeKeccak256_expands host (s := dropItems 1 (dropItems 1 s)) hsize
      hafford).ends_iff

/-- An instruction that looks at its offset even where the region is empty. -/
theorem range_ends {f : Unit → Op α} {base : ℕ} {P : Prop}
    (hafford : Affords s base offset.toNat size.toNat)
    (hf : offset.toNat < 2 ^ 64 → size.toNat < 2 ^ 64 →
      (Ends (.status .outOfGas) (f ()) s ↔ ¬P)) :
    Ends (.status .outOfGas)
        (require (uint256FitsU64 offset && uint256FitsU64 size) .outOfGas >>= f) s ↔
      ¬((size.toNat = 0 → offset.toNat < 2 ^ 64) ∧ P) := by
  by_cases hfits : (uint256FitsU64 offset && uint256FitsU64 size) = true
  · rw [ends_bind_of_ok (require_true hfits)]
    rw [Bool.and_eq_true, fitsU64_iff, fitsU64_iff] at hfits
    rw [hf hfits.1 hfits.2, and_iff_right fun _ => hfits.1]
  · rw [ends_of_error (bind_of_error (require_false (Bool.not_eq_true _ ▸ hfits)))]
    rw [Bool.and_eq_true, fitsU64_iff, fitsU64_iff] at hfits
    refine iff_of_true rfl fun h => hfits ?_
    by_cases hsize : size.toNat = 0
    · exact ⟨h.1 hsize, by omega⟩
    · have hlt := hafford.end_lt hsize
      omega

theorem returnRange_ends (hitems : s.frame.stack.items = offset :: size :: rest)
    (hafford : Affords s 0 offset.toNat size.toNat) :
    Ends (.status .outOfGas) (returnRange host) s ↔
      ¬((size.toNat = 0 → offset.toNat < 2 ^ 64) ∧
        Buffered s.frame.memory offset.toNat size.toNat) := by
  unfold returnRange
  rw [ends_bind_of_ok (hasItems_eq (by simp [hitems])), ends_pop hitems,
    ends_pop (items_drop hitems)]
  refine range_ends hafford fun hoffset hsize => ?_
  have hvalue := toU64_toNat size hsize
  have hstart := toU64_toNat offset hoffset
  rw [← hvalue, ← hstart] at hafford ⊢
  refine (expandMemory_then host (s := dropItems 1 (dropItems 1 s))
    (a := (uint256ToU64Unsafe offset, uint256ToU64Unsafe size)) hafford
    fun memCost s₁ hgas => ?_).ends_iff
  rw [Nat.zero_add] at hgas
  rw [bind_of_ok (charge_ok (UInt64.le_iff_toNat_le.mpr hgas))]
  exact ⟨_, rfl, rfl, rfl⟩

def LogRoom (evm : Evm) : Prop :=
  evm.logs.length < evm.logsCapacity ∨
    (if evm.logsCapacity = 0 then 16 else evm.logsCapacity * 2) * logSize ≤ 65536

theorem evmLogVecPush_ends (log : EvmLog) :
    Ends (.status .outOfGas) (evmLogVecPush host log) s ↔ ¬LogRoom s.evm := by
  unfold evmLogVecPush LogRoom
  rw [ends_bind_of_ok (show getEvm s = .ok s.evm s from rfl)]
  by_cases hfull : s.evm.logsCapacity ≤ s.evm.logs.length
  · rw [if_pos hfull, or_iff_right (not_lt.mpr hfull)]
    have hpos : 0 < (if s.evm.logsCapacity = 0 then 16 else s.evm.logsCapacity * 2) * logSize := by
      refine Nat.mul_pos ?_ (by decide)
      split <;> omega
    dsimp only
    cases halloc : host.alloc
        ((if s.evm.logsCapacity = 0 then 16 else s.evm.logsCapacity * 2) * logSize) with
    | true =>
      rw [ends_bind_of_ok (require_true rfl)]
      rw [harena.alloc_eq, arenaAlloc_iff hpos] at halloc
      exact iff_of_false (not_ends_of_ok rfl) (not_not.mpr halloc)
    | false =>
      rw [ends_of_error (bind_of_error (require_false rfl))]
      rw [harena.alloc_eq, ← Bool.not_eq_true, arenaAlloc_iff hpos] at halloc
      exact iff_of_true rfl halloc
  · rw [if_neg hfull]
    exact iff_of_false (not_ends_of_ok rfl) (not_not.mpr (Or.inl (not_le.mp hfull)))

/-- The data of a log is in a block, so that its copy is granted. -/
theorem logData_eq (host : Host) [harena : OnArena host] {offset size : UInt64}
    (hcovers : size.toNat ≠ 0 → offset.toNat + size.toNat ≤ s.frame.memory.data.length)
    (hmem : InBlock s.frame.memory) : ∃ data, logData host offset size s = .ok data s := by
  unfold logData
  by_cases hsize : size = 0
  · rw [if_pos hsize]
    exact ⟨[], rfl⟩
  · have hne : size.toNat ≠ 0 := fun hzero => hsize (UInt64.toNat_inj.mp hzero)
    have hinside := hcovers hne
    have hfits := s.frame.memory.fits
    unfold InBlock at hmem
    have halloc : host.alloc size.toNat = true := by
      rw [harena.alloc_eq, arenaAlloc_iff (by omega)]
      omega
    rw [if_neg hsize, bind_of_ok (require_true halloc)]
    unfold loadMemory
    rw [bind_of_ok (getFrame_eq s), evmMemoryLoad, if_pos hinside]
    exact ⟨_, rfl⟩

theorem opLogN_ends {topicCount : ℕ} {topics : List Word}
    (hitems : s.frame.stack.items = offset :: size :: topics)
    (htopics : topicCount ≤ topics.length) (hstatic : s.frame.isStatic = false)
    (hafford : Affords s (375 + 375 * topicCount + 8 * size.toNat) offset.toNat size.toNat) :
    Ends (.status .outOfGas) (opLogN host topicCount) s ↔
      ¬((size.toNat = 0 → offset.toNat < 2 ^ 64) ∧
        Buffered s.frame.memory offset.toNat size.toNat ∧ LogRoom s.evm) := by
  have hstack := items_drop (items_drop hitems)
  unfold opLogN
  rw [ends_bind_of_ok (hasItems_eq (by rw [hitems, List.length_cons, List.length_cons]; omega)),
    ends_bind_of_ok (getFrame_eq s), ends_bind_of_ok (require_true (by rw [hstatic]; rfl)),
    ends_pop hitems, ends_pop (items_drop hitems)]
  refine range_ends hafford fun hoffset hsize => ?_
  rw [ends_bind_of_ok (popAll_eq (by rwa [hstack]))]
  have hvalue := toU64_toNat size hsize
  have hstart := toU64_toNat offset hoffset
  rw [← hvalue, ← hstart] at hafford ⊢
  rcases chargeLog_expands host (s := dropItems topicCount (dropItems 1 (dropItems 1 s)))
    hafford with ⟨hgranted, s', hrun, hevm, hcovers, hblock⟩ | ⟨hrefused, hrun⟩
  · obtain ⟨data, hdata⟩ := logData_eq host hcovers hblock
    rw [ends_bind_of_ok hrun, ends_bind_of_ok hdata, ends_bind_of_ok (getFrame_eq s'),
      evmLogVecPush_ends, hevm]
    exact not_congr (and_iff_right hgranted).symm
  · rw [ends_of_error (bind_of_error hrun)]
    exact iff_of_true rfl fun h => hrefused h.1

end Handlers

section Prices

/-- What an instruction asks for: what it pays besides the memory, and the region. -/
structure Demand where
  base : ℕ
  offset : ℕ
  size : ℕ

def isPricedOp : Opcode → Bool
  | .mload | .mstore | .mstore8 | .calldatacopy | .codecopy | .extcodecopy | .keccak256 | .log _
  | .return_ | .revert => true
  | _ => false

def demandOf (s : Active) (opcode : Opcode) : Option Demand :=
  match opcode, s.frame.stack.items with
  | .mload, offset :: _ => some ⟨3, offset.toNat, 32⟩
  | .mstore, offset :: _ :: _ => some ⟨3, offset.toNat, 32⟩
  | .mstore8, offset :: _ :: _ => some ⟨3, offset.toNat, 1⟩
  | .calldatacopy, dest :: _ :: size :: _ =>
    some ⟨3 + 3 * wordsFor size.toNat, dest.toNat, size.toNat⟩
  | .codecopy, dest :: _ :: size :: _ =>
    some ⟨3 + 3 * wordsFor size.toNat, dest.toNat, size.toNat⟩
  | .extcodecopy, addr :: dest :: _ :: size :: _ =>
    s.evm.state.map fun ws =>
      ⟨(if wsIsAddressWarm ws (addressFromUint256 addr) then 100 else 2600) +
        3 * wordsFor size.toNat, dest.toNat, size.toNat⟩
  | .keccak256, offset :: size :: _ =>
    some ⟨30 + 6 * wordsFor size.toNat, offset.toNat, size.toNat⟩
  | .log topicCount, offset :: size :: topics =>
    if topicCount ≤ topics.length ∧ s.frame.isStatic = false then
      some ⟨375 + 375 * topicCount + 8 * size.toNat, offset.toNat, size.toNat⟩
    else none
  | .return_, offset :: size :: _ => some ⟨0, offset.toNat, size.toNat⟩
  | .revert, offset :: size :: _ => some ⟨0, offset.toNat, size.toNat⟩
  | _, _ => none

def exactCost (s : Active) (a : Demand) : ℕ :=
  a.base + exactExpansion s.frame.memory a.offset a.size

def looksAtOffset : Opcode → Bool
  | .log _ | .return_ | .revert => true
  | _ => false

/-- What an instruction needs besides the gas: a buffer from the arena, an offset of 64 bits,
and for a LOG room in the vector of logs. -/
structure Served (s : Active) (opcode : Opcode) (a : Demand) : Prop where
  buffer : a.size ≠ 0 → Granted s.frame.memory a.offset a.size
  range : looksAtOffset opcode = true → a.size = 0 → a.offset < 2 ^ 64
  logs : isWriteOp opcode = true → LogRoom s.evm

theorem ends_next {halt : Halt} {op : Op Unit} : Ends halt (next op) s ↔ Ends halt op s := by
  unfold next
  cases hrun : op s with
  | ok u s₁ =>
    rw [ends_bind_of_ok hrun]
    exact iff_of_false (not_ends_of_ok rfl) (not_ends_of_ok hrun)
  | error e s₁ => rw [ends_of_error (bind_of_error hrun), ends_of_error hrun]

/-- An instruction without its operands does not get as far as to the gas. -/
theorem not_ends_of_underflow {rest : Unit → Op α} (h : ¬n ≤ s.frame.stack.items.length) :
    ¬Ends (.status .outOfGas) (hasItems n >>= rest) s := by
  rw [ends_of_error (bind_of_error (hasItems_error h))]
  exact nofun

theorem gasTable_priced (fork : Fork) :
    gasTable fork .mload = 3 ∧ gasTable fork .mstore = 3 ∧ gasTable fork .mstore8 = 3 ∧
      gasTable fork .calldatacopy = 3 ∧ gasTable fork .codecopy = 3 ∧
      gasTable fork .keccak256 = 30 := by
  cases fork <;> decide

/-- An instruction that has its operands, or does not get as far as to the gas. -/
theorem not_ends_of_items {rest : Unit → Op α}
    (h : n ≤ s.frame.stack.items.length → ¬Ends (.status .outOfGas) (hasItems n >>= rest) s) :
    ¬Ends (.status .outOfGas) (hasItems n >>= rest) s := by
  by_cases hitems : n ≤ s.frame.stack.items.length
  · exact h hitems
  · exact not_ends_of_underflow hitems

variable {opcode : Opcode}

/-- Without a demand the instruction ends before it looks at the gas. -/
theorem handler_not_ends {cost : Opcode → UInt64} {schedule : GasSchedule}
    (hpriced : isPricedOp opcode = true) (hnone : demandOf s opcode = none) :
    ¬Ends (.status .outOfGas) (handler host cost schedule opcode) s := by
  unfold demandOf at hnone
  cases opcode <;> simp only [isPricedOp, Bool.false_eq_true] at hpriced
  case extcodecopy =>
    rw [handler, ends_next]
    unfold opExtcodecopy
    have hread := requireState_eq .stateUnavailable s
    cases hstate : s.evm.state with
    | none =>
      rw [hstate] at hread
      rw [ends_of_error (bind_of_error hread)]
      rintro ⟨⟩
    | some ws =>
      rw [hstate] at hread
      rw [ends_bind_of_ok hread]
      refine not_ends_of_items fun hitems => ?_
      rcases hstack : s.frame.stack.items with _ | ⟨addr, _ | ⟨dest, _ | ⟨src, _ | ⟨size, rest⟩⟩⟩⟩
      all_goals simp [hstack, hstate] at hitems hnone
  case log topicCount =>
    rw [handler, ends_next]
    refine not_ends_of_items fun hitems => ?_
    rcases hstack : s.frame.stack.items with _ | ⟨offset, _ | ⟨size, topics⟩⟩
    · simp [hstack] at hitems
    · simp [hstack] at hitems
      omega
    · rw [hstack, List.length_cons, List.length_cons] at hitems
      have hstatic : s.frame.isStatic = true := by
        simp only [hstack, ite_eq_right_iff, reduceCtorEq, imp_false, not_and] at hnone
        simpa using hnone (by omega)
      rw [ends_bind_of_ok (hasItems_eq (by rw [hstack, List.length_cons, List.length_cons]; omega)),
        ends_bind_of_ok (getFrame_eq s),
        ends_of_error (bind_of_error (require_false (by rw [hstatic]; rfl)))]
      rintro ⟨⟩
  case return_ | revert =>
    rw [handler, ends_bind_avoids]
    refine not_ends_of_items fun hitems => ?_
    rcases hstack : s.frame.stack.items with _ | ⟨offset, _ | ⟨size, rest⟩⟩
    all_goals simp [hstack] at hitems hnone
  all_goals
    rw [handler, ends_next]
    refine not_ends_of_items fun hitems => ?_
    rcases hstack : s.frame.stack.items with _ | ⟨first, _ | ⟨second, _ | ⟨third, rest⟩⟩⟩
    all_goals simp [hstack] at hitems hnone

theorem served_iff {a : Demand} (hlooks : looksAtOffset opcode = false)
    (hlogs : isWriteOp opcode = false) :
    Served s opcode a ↔ Buffered s.frame.memory a.offset a.size := by
  refine ⟨fun h => h.buffer, fun h => ⟨h, fun hl => ?_, fun hw => ?_⟩⟩
  · rw [hlooks] at hl
    cases hl
  · rw [hlogs] at hw
    cases hw

/-- With the gas for the exact price, an instruction runs out of gas exactly if it is not
served. -/
theorem handler_ends_iff (host : Host) [OnArena host] (fork : Fork) (schedule : GasSchedule)
    {a : Demand} (hmem : InBlock s.frame.memory) (ha : demandOf s opcode = some a)
    (hafford : exactCost s a ≤ s.frame.gas.toNat) :
    Ends (.status .outOfGas) (handler host (gasTable fork) schedule opcode) s ↔
      ¬Served s opcode a := by
  obtain ⟨hmload, hmstore, hmstore8, hcalldatacopy, hcodecopy, hkeccak256⟩ := gasTable_priced fork
  replace hafford : Affords s a.base a.offset a.size := ⟨hmem, hafford⟩
  unfold demandOf at ha
  split at ha
  case h_1 offset rest hitems =>
    cases ha
    rw [handler, ends_next, hmload, opMload_ends 3 hitems hafford, served_iff rfl rfl]
  case h_2 offset value rest hitems =>
    cases ha
    rw [handler, ends_next, hmstore, served_iff rfl rfl]
    exact store_ends 3 hitems (by decide) hafford
  case h_3 offset value rest hitems =>
    cases ha
    rw [handler, ends_next, hmstore8, served_iff rfl rfl]
    exact store_ends 3 hitems (by decide) hafford
  case h_4 dest src size rest hitems =>
    cases ha
    rw [handler, ends_next, hcalldatacopy, opCalldatacopy, copyOp_ends 3 hitems hafford,
      served_iff rfl rfl]
  case h_5 dest src size rest hitems =>
    cases ha
    rw [handler, ends_next, hcodecopy, opCodecopy, copyOp_ends 3 hitems hafford,
      served_iff rfl rfl]
  case h_6 addr dest src size rest hitems =>
    cases hstate : s.evm.state with
    | none =>
      rw [hstate] at ha
      cases ha
    | some ws =>
      rw [hstate] at ha
      cases ha
      have hprice : (accountAccessCost (wsWarmAddress host ws (addressFromUint256 addr)).1).toNat =
          if wsIsAddressWarm ws (addressFromUint256 addr) then 100 else 2600 := by
        rw [wsWarmAddress_fst]
        cases wsIsAddressWarm ws (addressFromUint256 addr) <;> rfl
      dsimp only at hafford
      rw [← hprice] at hafford
      rw [handler, ends_next, opExtcodecopy_ends hstate hitems hafford, served_iff rfl rfl]
  case h_7 offset size rest hitems =>
    cases ha
    rw [handler, ends_next, hkeccak256, opKeccak256_ends 30 hitems hafford, served_iff rfl rfl]
  case h_8 topicCount offset size topics hitems =>
    split at ha
    · next hready =>
      cases ha
      rw [handler, ends_next, opLogN_ends hitems hready.1 hready.2 hafford]
      exact not_congr ⟨fun h => ⟨h.2.1, fun _ => h.1, fun _ => h.2.2⟩,
        fun h => ⟨h.range rfl, h.buffer, h.logs rfl⟩⟩
    · cases ha
  case h_9 offset size rest hitems | h_10 offset size rest hitems =>
    cases ha
    rw [handler, ends_bind_avoids, returnRange_ends hitems hafford]
    exact not_congr ⟨fun h => ⟨h.2, fun _ => h.1, by rintro ⟨⟩⟩, fun h => ⟨h.range rfl, h.buffer⟩⟩
  case h_11 => cases ha

theorem dispatch_ends {halt : Halt} (hnext : nextOpcode s.frame = some opcode) :
    Ends halt (dispatch host) s ↔
      Ends halt (handler host (gasTable s.evm.fork) (gasSchedule s.evm.fork) opcode)
        (fetched s) := by
  unfold Ends
  rw [dispatch_eq, hnext]

/-- A state of the program: the buffer behind the memory of its frame, if there is one, was
handed out by the arena. -/
abbrev ArenaState := { s : Active // InBlock s.frame.memory }

/-- An instruction that accesses memory ends out of gas only if the frame has less gas than
the exact price, if and only if it is served whenever the frame has that gas. -/
theorem outOfGas_iff (host : Host) [OnArena host] (s : ArenaState) (opcode : Opcode)
    (hnext : nextOpcode s.val.frame = some opcode) (hpriced : isPricedOp opcode = true) :
    (∀ s', dispatch host s.val = .error (.status .outOfGas) s' →
      ∃ a, demandOf s.val opcode = some a ∧ s.val.frame.gas.toNat < exactCost s.val a) ↔
    ∀ a, demandOf s.val opcode = some a → exactCost s.val a ≤ s.val.frame.gas.toNat →
      Served s.val opcode a := by
  obtain ⟨s, hmem⟩ := s
  constructor
  · intro h a ha hafford
    by_contra hrefused
    have hout := (handler_ends_iff host s.evm.fork (gasSchedule s.evm.fork)
      (s := fetched s) hmem ha hafford).mpr
        fun hserved => hrefused ⟨hserved.buffer, hserved.range, hserved.logs⟩
    obtain ⟨s', hrun⟩ := (dispatch_ends hnext).mpr hout
    obtain ⟨b, hb, hlt⟩ := h s' hrun
    obtain rfl : b = a := Option.some.inj (hb.symm.trans ha)
    exact absurd hafford (not_le.mpr hlt)
  · intro h s' hrun
    have hout := (dispatch_ends hnext).mp ⟨s', hrun⟩
    cases ha : demandOf s opcode with
    | none => exact absurd hout (handler_not_ends hpriced ha)
    | some a =>
      refine ⟨a, rfl, ?_⟩
      by_contra hafford
      have hserved := h a ha (not_lt.mp hafford)
      exact (handler_ends_iff _ _ _ (s := fetched s) hmem ha (not_lt.mp hafford)).mp hout
        ⟨hserved.buffer, hserved.range, hserved.logs⟩

def afterSteps (n : ℕ) (code : Bytes) : Active :=
  (stepped n (start (evmInit .cancun) (running 100000 code))).active

def nearLoad : ArenaState := ⟨afterSteps 1 [0x5f, 0x51], by unfold InBlock; decide +kernel⟩

def farLoad : ArenaState :=
  ⟨afterSteps 1 [0x62, 1, 0, 0, 0x51], by unfold InBlock; decide +kernel⟩

theorem outOfGas_iff_near :
    (nextOpcode nearLoad.val.frame = some .mload ∧ isPricedOp .mload = true) ∧
    ∀ s', dispatch paddedHost nearLoad.val = .error (.status .outOfGas) s' →
      ∃ a, demandOf nearLoad.val .mload = some a ∧
        nearLoad.val.frame.gas.toNat < exactCost nearLoad.val a := by
  refine ⟨⟨by decide +kernel, rfl⟩,
    (outOfGas_iff paddedHost nearLoad .mload (by decide +kernel) rfl).mpr ?_⟩
  intro a ha _
  obtain rfl : a = ⟨3, 0, 32⟩ := Option.some.inj (ha.symm.trans rfl)
  exact ⟨fun _ => Or.inr ⟨0, by decide +kernel⟩, nofun, nofun⟩

/-- The exact price of the load behind 64 KB is 14350, the frame has more than 99000 gas. -/
theorem farLoad_out_of_gas :
    exactCost farLoad.val ⟨3, 65536, 32⟩ = 14350 ∧ 99000 ≤ farLoad.val.frame.gas.toNat ∧
    ¬∀ s', dispatch paddedHost farLoad.val = .error (.status .outOfGas) s' →
      ∃ a, demandOf farLoad.val .mload = some a ∧
        farLoad.val.frame.gas.toNat < exactCost farLoad.val a := by
  have hprice : exactCost farLoad.val ⟨3, 65536, 32⟩ = 14350 := by decide +kernel
  have hgas : 99000 ≤ farLoad.val.frame.gas.toNat := by decide +kernel
  refine ⟨hprice, hgas, fun h => ?_⟩
  obtain ⟨a, ha, hlt⟩ := h _ rfl
  obtain rfl : a = ⟨3, 65536, 32⟩ := Option.some.inj (ha.symm.trans rfl)
  omega

end Prices

end Div0.MemoryInstructions
