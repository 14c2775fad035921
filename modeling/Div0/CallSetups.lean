import Div0.MemoryInstructions

/-!
The `prepare_` functions run on their operands: what they take off the stack, what they
charge, how they divide the gas, and what they make of the memory. Each part of the set-up
has one equation for every way it can end.
-/

namespace Div0.CallSetups

open Buffer Effects EvmContext Memory Node Uint256 Uint256Ops WorldState Frame Opcodes StateOps
open CallOps Interpreter OpEffects CallEffects GasConservation MemoryPricing MemoryInstructions

variable {host : Host} {s : Active}

section Arguments

def valueArgs (items : List Word) : CallStackArgs where
  requestedGas := items.getD 0 uint256Zero
  addr := items.getD 1 uint256Zero
  value := items.getD 2 uint256Zero
  argsOffset := items.getD 3 uint256Zero
  argsSize := items.getD 4 uint256Zero
  retOffset := items.getD 5 uint256Zero
  retSize := items.getD 6 uint256Zero

def plainArgs (items : List Word) : CallStackArgs where
  requestedGas := items.getD 0 uint256Zero
  addr := items.getD 1 uint256Zero
  value := uint256Zero
  argsOffset := items.getD 2 uint256Zero
  argsSize := items.getD 3 uint256Zero
  retOffset := items.getD 4 uint256Zero
  retSize := items.getD 5 uint256Zero

/-- A program that takes the operands of a call off the stack. -/
class PopsArgs (popArgs : Op CallStackArgs) (count : outParam ℕ)
    (argsOf : outParam (List Word → CallStackArgs)) : Prop where
  pops : ∀ s : Active, count ≤ s.frame.stack.items.length →
    popArgs s = .ok (argsOf s.frame.stack.items) (dropItems count s)

def operand (s : Active) (n : ℕ) : Word := s.frame.stack.items.getD n uint256Zero

/-- The next of several pops in a row. -/
theorem pop_next {n : ℕ} (h : n < s.frame.stack.items.length) :
    pop (dropItems n s) = .ok (operand s n) (dropItems (n + 1) s) := by
  have hitems : (dropItems n s).frame.stack.items =
      operand s n :: s.frame.stack.items.drop (n + 1) := by
    change s.frame.stack.items.drop n = _
    rw [List.drop_eq_getElem_cons h, operand, List.getD, List.getElem?_eq_getElem h,
      Option.getD_some]
  rw [pop_eq hitems, dropItems_dropItems]

theorem pop_first (h : 0 < s.frame.stack.items.length) :
    pop s = .ok (operand s 0) (dropItems 1 s) := pop_next h

theorem popTwo_eq {α : Type} {f : Word → Word → Op α} (h : 2 ≤ s.frame.stack.items.length) :
    (pop >>= fun a => pop >>= f a) s = f (operand s 0) (operand s 1) (dropItems 2 s) := by
  rw [bind_of_ok (pop_first (by omega)), bind_of_ok (pop_next h)]

instance : PopsArgs popCallArgs 7 valueArgs where
  pops s h := by
    unfold popCallArgs
    rw [popTwo_eq (by omega), bind_of_ok (pop_next (by omega)), bind_of_ok (pop_next (by omega)),
      bind_of_ok (pop_next (by omega)), bind_of_ok (pop_next (by omega)),
      bind_of_ok (pop_next (by omega))]
    rfl

instance : PopsArgs popCallArgsNoValue 6 plainArgs where
  pops s h := by
    unfold popCallArgsNoValue
    rw [popTwo_eq (by omega), bind_of_ok (pop_next (by omega)), bind_of_ok (pop_next (by omega)),
      bind_of_ok (pop_next (by omega)), bind_of_ok (pop_next (by omega))]
    rfl

end Arguments

section Gas

def withGas (gas : UInt64) (s : Active) : Active := { s with frame := { s.frame with gas := gas } }

def setAside (left : UInt64) (requested : Word) : UInt64 :=
  callChildGas left (if uint256FitsU64 requested then uint256ToU64Unsafe requested else uint64Max)

theorem setAside_le (left : UInt64) (requested : Word) : setAside left requested ≤ left :=
  callChildGas_le _ _

variable {overhead : UInt64} {requested : Word} {transfersValue : Bool}

theorem divideGas_ok (h : overhead ≤ s.frame.gas) :
    divideGas overhead requested transfersValue s =
      .ok (setAside (s.frame.gas - overhead) requested + stipend transfersValue)
        (withGas (s.frame.gas - overhead - setAside (s.frame.gas - overhead) requested) s) := by
  have hle := setAside_le (s.frame.gas - overhead) requested
  unfold divideGas
  rw [bind_of_ok (charge_ok h)]
  have hcharge : charge (setAside (s.frame.gas - overhead) requested)
      (withGas (s.frame.gas - overhead) s) = .ok () (withGas (s.frame.gas - overhead -
        setAside (s.frame.gas - overhead) requested) s) := charge_ok hle
  change (charge (if s.frame.gas - overhead < setAside (s.frame.gas - overhead) requested +
      stipend transfersValue - stipend transfersValue then s.frame.gas - overhead
    else setAside (s.frame.gas - overhead) requested +
      stipend transfersValue - stipend transfersValue) >>= _)
        (withGas (s.frame.gas - overhead) s) = _
  rw [UInt64.add_sub_cancel, if_neg (UInt64.not_lt.mpr hle), bind_of_ok hcharge]
  rfl

theorem divideGas_error (h : ¬overhead ≤ s.frame.gas) :
    divideGas overhead requested transfersValue s = .error (.status .outOfGas) s := by
  unfold divideGas
  rw [bind_of_error (charge_error h)]

end Gas

section SetUp

/-- The memory after `expand_call_memory`, which stays as it is when the expansion is
refused; `none` where the expansion does not come back. -/
def callMemory (alloc : Alloc) (mem : EvmMemory) (r : CallRegions) : Option EvmMemory :=
  if evmMemorySize mem < maxEnd r then
    match evmMemoryExpand alloc mem 0 (maxEnd r) with
    | .expanded _ mem => some mem
    | .refused => some mem
    | .diverges => none
  else some mem

theorem expandCallMemory_eq (host : Host) (r : CallRegions) (s : Active) :
    expandCallMemory host r s =
      match callMemory host.alloc s.frame.memory r with
      | some mem => .ok () (withMemory mem s)
      | none => .error .diverges s := by
  unfold expandCallMemory callMemory
  rw [bind_of_ok (getFrame_eq s)]
  split
  · cases evmMemoryExpand host.alloc s.frame.memory 0 (maxEnd r) <;> rfl
  · rfl

def movesValue (args : CallStackArgs) : Bool := !uint256IsZero args.value

def makesAccount (host : Host) (chargesNewAccount : Bool) (ws : World) (args : CallStackArgs) :
    Bool :=
  chargesNewAccount && movesValue args && wsAccountIsEmpty host ws (addressFromUint256 args.addr)

def callOverhead (host : Host) (chargesNewAccount : Bool) (ws : World) (args : CallStackArgs)
    (memCost : UInt64) : UInt64 :=
  callGasCost (wsWarmAddress host ws (addressFromUint256 args.addr)).1 (movesValue args)
    (makesAccount host chargesNewAccount ws args) memCost

def warmed (host : Host) (args : CallStackArgs) (s : Active) : Active :=
  withState (fun ws => (wsWarmAddress host ws (addressFromUint256 args.addr)).2) s

def madeSetup (args : CallStackArgs) (regions : CallRegions) (left : UInt64) : CallSetup where
  target := addressFromUint256 args.addr
  value := args.value
  childGas := setAside left args.requestedGas + stipend (movesValue args)
  regions := regions

variable {chargesNewAccount : Bool} {ws : World} {args : CallStackArgs} {regions : CallRegions}

/-- A call with value in a static frame. -/
theorem setUpCall_static (h : (s.frame.isStatic && movesValue args) = true) :
    setUpCall host chargesNewAccount ws args regions s = .error (.status .writeProtection) s := by
  have hdenied : (!(s.frame.isStatic && movesValue args)) = false := by rw [h]; rfl
  unfold setUpCall
  rw [bind_of_ok (getFrame_eq s)]
  exact bind_of_error (require_false hdenied)

/-- The part of the set-up in front of the memory. -/
theorem setUpCall_eq (h : (s.frame.isStatic && movesValue args) = false) :
    setUpCall host chargesNewAccount ws args regions s =
      (calculateCallGas host ws (addressFromUint256 args.addr) args.requestedGas regions
        (movesValue args) (makesAccount host chargesNewAccount ws args) >>= fun childGas => do
          expandCallMemory host regions
          return ⟨addressFromUint256 args.addr, args.value, childGas, regions⟩) s := by
  have hallowed : (!(s.frame.isStatic && movesValue args)) = true := by rw [h]; rfl
  unfold setUpCall
  rw [bind_of_ok (getFrame_eq s)]
  exact bind_of_ok (require_true hallowed)

/-- The gas of a call: there is none if the end of a region does not fit 64 bits. -/
theorem calculateCallGas_eq :
    calculateCallGas host ws (addressFromUint256 args.addr) args.requestedGas regions
        (movesValue args) (makesAccount host chargesNewAccount ws args) s =
      match callMemoryCost s.frame.memory regions with
      | none => .error (.status .outOfGas) (warmed host args s)
      | some memCost => divideGas (callOverhead host chargesNewAccount ws args memCost)
          args.requestedGas (movesValue args) (warmed host args s) := by
  unfold calculateCallGas
  rw [bind_of_ok (show updateState _ s = .ok () (warmed host args s) from rfl),
    bind_of_ok (show getFrame (warmed host args s) = .ok s.frame (warmed host args s) from rfl)]
  cases callMemoryCost s.frame.memory regions <;> rfl

/-- A call whose overhead has no price or cannot be paid. -/
theorem setUpCall_unpaid (h : (s.frame.isStatic && movesValue args) = false)
    (hpoor : ∀ memCost, callMemoryCost s.frame.memory regions = some memCost →
      ¬callOverhead host chargesNewAccount ws args memCost ≤ s.frame.gas) :
    setUpCall host chargesNewAccount ws args regions s =
      .error (.status .outOfGas) (warmed host args s) := by
  rw [setUpCall_eq h]
  refine bind_of_error ?_
  rw [calculateCallGas_eq]
  cases hcost : callMemoryCost s.frame.memory regions with
  | none => rfl
  | some memCost => exact divideGas_error (hpoor memCost hcost)

/-- The state in front of the expansion: the overhead and the gas of the child are paid. -/
def paid (host : Host) (args : CallStackArgs) (left : UInt64) (s : Active) : Active :=
  withGas (left - setAside left args.requestedGas) (warmed host args s)

/-- A call whose overhead is paid, with `left` gas behind it. -/
theorem setUpCall_paid {memCost left : UInt64} (h : (s.frame.isStatic && movesValue args) = false)
    (hcost : callMemoryCost s.frame.memory regions = some memCost)
    (hgas : callOverhead host chargesNewAccount ws args memCost ≤ s.frame.gas)
    (hleft : s.frame.gas - callOverhead host chargesNewAccount ws args memCost = left) :
    setUpCall host chargesNewAccount ws args regions s =
      match callMemory host.alloc s.frame.memory regions with
      | some mem => .ok (madeSetup args regions left) (withMemory mem (paid host args left s))
      | none => .error .diverges (paid host args left s) := by
  have hdivide : calculateCallGas host ws (addressFromUint256 args.addr) args.requestedGas regions
      (movesValue args) (makesAccount host chargesNewAccount ws args) s =
        .ok (madeSetup args regions left).childGas (paid host args left s) := by
    rw [calculateCallGas_eq, hcost, ← hleft]
    exact divideGas_ok (s := warmed host args s) hgas
  have hexpand := expandCallMemory_eq host regions (paid host args left s)
  rw [show (paid host args left s).frame.memory = s.frame.memory from rfl] at hexpand
  rw [setUpCall_eq h, bind_of_ok hdivide]
  cases hmem : callMemory host.alloc s.frame.memory regions with
  | some mem =>
    rw [hmem] at hexpand
    rw [bind_of_ok hexpand]
    rfl
  | none =>
    rw [hmem] at hexpand
    rw [bind_of_error hexpand]

end SetUp

section Prepare

variable {count : ℕ} {popArgs : Op CallStackArgs} {argsOf : List Word → CallStackArgs}
  [hpops : PopsArgs popArgs count argsOf] {chargesNewAccount : Bool} {ws : World}

omit hpops in
theorem prepare_underflow (h : ¬count ≤ s.frame.stack.items.length) :
    prepare host count popArgs chargesNewAccount ws s = .error (.status .stackUnderflow) s := by
  unfold prepare
  rw [bind_of_error (hasItems_error h)]

omit hpops in
/-- At the maximal depth the operands are dropped and nothing else happens. -/
theorem prepare_deep (h : count ≤ s.frame.stack.items.length)
    (hdepth : maxCallDepth ≤ s.frame.depth) :
    prepare host count popArgs chargesNewAccount ws s = .ok none (dropItems count s) := by
  unfold prepare
  rw [bind_of_ok (hasItems_eq h), bind_of_ok (getFrame_eq s),
    if_pos hdepth, bind_of_ok (popAll_eq h)]
  rfl

/-- Below the maximal depth the operands decide. -/
theorem prepare_eq (h : count ≤ s.frame.stack.items.length)
    (hdepth : s.frame.depth < maxCallDepth) :
    prepare host count popArgs chargesNewAccount ws s =
      match validateMemoryArgs (argsOf s.frame.stack.items) with
      | none => .error (.status .outOfGas) (dropItems count s)
      | some regions =>
        (setUpCall host chargesNewAccount ws (argsOf s.frame.stack.items) regions >>=
          fun setup => pure (some setup)) (dropItems count s) := by
  unfold prepare
  rw [bind_of_ok (hasItems_eq h), bind_of_ok (getFrame_eq s),
    if_neg (not_le.mpr hdepth), bind_of_ok (hpops.pops s h)]
  cases validateMemoryArgs (argsOf s.frame.stack.items) <;> rfl

/-- The operands pass all the tests of the set-up that come before the gas. -/
structure Admitted (count : ℕ) (args : CallStackArgs) (s : Active) (regions : CallRegions) :
    Prop where
  items : count ≤ s.frame.stack.items.length
  depth : s.frame.depth < maxCallDepth
  valid : validateMemoryArgs args = some regions
  static : (s.frame.isStatic && movesValue args) = false

/-- The ways `prepare` can end. -/
inductive PrepareCase (host : Host) (count : ℕ) (args : CallStackArgs) (chargesNewAccount : Bool)
    (ws : World) (s : Active) : EStateM.Result Halt Active (Option CallSetup) → Prop
  | rejected {error : EvmStatus} {s' : Active}
      (hreason : ∀ regions memCost, Admitted count args s regions →
        callMemoryCost s.frame.memory regions = some memCost →
        s.frame.gas < callOverhead host chargesNewAccount ws args memCost) :
      PrepareCase host count args chargesNewAccount ws s (.error (.status error) s')
  | deep (hitems : count ≤ s.frame.stack.items.length) (hdepth : maxCallDepth ≤ s.frame.depth) :
      PrepareCase host count args chargesNewAccount ws s (.ok none (dropItems count s))
  | made {regions : CallRegions} {memCost left : UInt64} {mem : EvmMemory}
      (hadmitted : Admitted count args s regions)
      (hcost : callMemoryCost s.frame.memory regions = some memCost)
      (hgas : callOverhead host chargesNewAccount ws args memCost ≤ s.frame.gas)
      (hleft : s.frame.gas - callOverhead host chargesNewAccount ws args memCost = left)
      (hmem : callMemory host.alloc s.frame.memory regions = some mem) :
      PrepareCase host count args chargesNewAccount ws s
        (.ok (some (madeSetup args regions left))
          (withMemory mem (paid host args left (dropItems count s))))
  | diverges {regions : CallRegions} {memCost left : UInt64}
      (hadmitted : Admitted count args s regions)
      (hcost : callMemoryCost s.frame.memory regions = some memCost)
      (hgas : callOverhead host chargesNewAccount ws args memCost ≤ s.frame.gas)
      (hleft : s.frame.gas - callOverhead host chargesNewAccount ws args memCost = left)
      (hmem : callMemory host.alloc s.frame.memory regions = none) :
      PrepareCase host count args chargesNewAccount ws s
        (.error .diverges (paid host args left (dropItems count s)))

theorem prepare_cases :
    PrepareCase host count (argsOf s.frame.stack.items) chargesNewAccount ws s
      (prepare host count popArgs chargesNewAccount ws s) := by
  by_cases hitems : count ≤ s.frame.stack.items.length
  swap
  · rw [prepare_underflow hitems]
    exact .rejected fun _ _ h => absurd h.items hitems
  by_cases hdepth : maxCallDepth ≤ s.frame.depth
  · rw [prepare_deep hitems hdepth]
    exact .deep hitems hdepth
  rw [prepare_eq hitems (not_le.mp hdepth)]
  cases hvalid : validateMemoryArgs (argsOf s.frame.stack.items) with
  | none => exact .rejected fun _ _ h => by cases hvalid.symm.trans h.valid
  | some regions =>
    dsimp only
    have hunique : ∀ other, Admitted count (argsOf s.frame.stack.items) s other →
        other = regions := fun other h => Option.some.inj (h.valid.symm.trans hvalid)
    cases hstatic : s.frame.isStatic && movesValue (argsOf s.frame.stack.items) with
    | true =>
      rw [bind_of_error (setUpCall_static (s := dropItems count s) hstatic)]
      exact .rejected fun _ _ h => by cases hstatic.symm.trans h.static
    | false =>
      by_cases hpaid : ∃ memCost, callMemoryCost s.frame.memory regions = some memCost ∧
          callOverhead host chargesNewAccount ws (argsOf s.frame.stack.items) memCost ≤ s.frame.gas
      · obtain ⟨memCost, hcost, hgas⟩ := hpaid
        have hadmitted : Admitted count (argsOf s.frame.stack.items) s regions :=
          ⟨hitems, not_le.mp hdepth, hvalid, hstatic⟩
        have hsetup := setUpCall_paid (s := dropItems count s) hstatic hcost hgas rfl
        cases hmem : callMemory host.alloc (dropItems count s).frame.memory regions with
        | some mem =>
          rw [hmem] at hsetup
          rw [bind_of_ok hsetup]
          exact .made hadmitted hcost hgas rfl hmem
        | none =>
          rw [hmem] at hsetup
          rw [bind_of_error hsetup]
          exact .diverges hadmitted hcost hgas rfl hmem
      · have hpoor := fun memCost hcost hgas => hpaid ⟨memCost, hcost, hgas⟩
        rw [bind_of_error (setUpCall_unpaid (s := dropItems count s) hstatic hpoor)]
        refine .rejected fun other memCost h hpriced => ?_
        rw [hunique other h] at hpriced
        exact UInt64.not_le.mp (hpoor memCost hpriced)

end Prepare

section Regions

def regionStop (offset size : UInt64) : ℕ := if size = 0 then 0 else offset.toNat + size.toNat

def stopOf (r : CallRegions) : ℕ :=
  max (regionStop r.argsOffset r.argsSize) (regionStop r.retOffset r.retSize)

/-- Both regions of a call lie inside the memory. -/
structure Backed (r : CallRegions) (mem : EvmMemory) : Prop where
  input : 0 < r.argsSize → r.argsOffset.toNat + r.argsSize.toNat ≤ mem.data.length
  output : 0 < r.retSize → r.retOffset.toNat + r.retSize.toNat ≤ mem.data.length

theorem pos_iff_ne_zero (n : UInt64) : 0 < n ↔ n ≠ 0 := by
  rw [UInt64.lt_iff_toNat_lt, Ne, ← UInt64.toNat_inj]
  exact Nat.pos_iff_ne_zero

theorem regionStop_le_iff (offset size : UInt64) (n : ℕ) :
    regionStop offset size ≤ n ↔ (0 < size → offset.toNat + size.toNat ≤ n) := by
  rw [pos_iff_ne_zero, regionStop]
  split
  · next hzero => exact iff_of_true (Nat.zero_le n) fun h => absurd hzero h
  · next hne => exact ⟨fun h _ => h, fun h => h hne⟩

theorem backed_iff (r : CallRegions) (mem : EvmMemory) :
    Backed r mem ↔ stopOf r ≤ mem.data.length := by
  rw [stopOf, Nat.max_le, regionStop_le_iff, regionStop_le_iff]
  exact ⟨fun h => ⟨h.input, h.output⟩, fun h => ⟨h.1, h.2⟩⟩

variable {mem : EvmMemory} {r : CallRegions} {memCost : UInt64}

theorem regionEnd_toNat {offset size : UInt64} (h : regionOverflows offset size = false) :
    (regionEnd offset size).toNat = regionStop offset size := by
  unfold regionEnd regionStop
  by_cases hsize : size = 0
  · rw [if_neg (by rw [hsize]; decide), if_pos hsize]
    rfl
  · have hpos := (pos_iff_ne_zero size).mpr hsize
    rw [regionOverflows, decide_eq_true hpos, Bool.true_and, decide_eq_false_iff_not,
      fits_iff] at h
    rw [if_pos hpos, if_neg hsize, add_toNat h]

/-- Where the cost of the memory is found, the end is a number of 64 bits. -/
theorem maxEnd_toNat (h : callMemoryCost mem r = some memCost) : (maxEnd r).toNat = stopOf r := by
  unfold callMemoryCost at h
  split at h
  · cases h
  · next hfits =>
    rw [Bool.or_eq_true, not_or, Bool.not_eq_true, Bool.not_eq_true] at hfits
    rw [stopOf, ← regionEnd_toNat hfits.1, ← regionEnd_toNat hfits.2]
    change (if regionEnd r.argsOffset r.argsSize ≤ regionEnd r.retOffset r.retSize then
      regionEnd r.retOffset r.retSize else regionEnd r.argsOffset r.argsSize).toNat = _
    split
    · next hle => rw [Nat.max_eq_right (UInt64.le_iff_toNat_le.mp hle)]
    · next hlt =>
      rw [Nat.max_eq_left (UInt64.le_iff_toNat_le.mp (UInt64.le_of_lt (UInt64.not_le.mp hlt)))]

/-- The cost of the memory is exact where the regions end within a block. -/
theorem callMemoryCost_exact (hblock : InBlock mem) (h : callMemoryCost mem r = some memCost)
    (hsmall : stopOf r ≤ 65536) : memCost.toNat = exactExpansion mem 0 (stopOf r) := by
  have hend := maxEnd_toNat h
  unfold callMemoryCost at h
  split at h
  · cases h
  split at h
  · next hzero =>
    cases h
    have hstop : stopOf r = 0 := by
      rw [← hend, hzero]
      rfl
    rw [exactExpansion, if_pos hstop]
    rfl
  · next hne =>
    cases h
    have hstop : stopOf r ≠ 0 := by
      rw [← hend]
      exact fun hzero => hne (UInt64.toNat_inj.mp hzero)
    have hwords := wordsOf_toNat (maxEnd r) (by omega)
    have hcurrent := words_toNat mem
    have hfew := inBlock_words_le hblock
    rw [hend] at hwords
    rw [exactExpansion, if_neg hstop, Nat.zero_add, ← hcurrent, ← hwords]
    have hbound : ((maxEnd r + 31) / 32).toNat < 2 ^ 32 := by
      rw [hwords, wordsFor]
      omega
    by_cases hgrows : (evmMemorySize mem / 32).toNat < ((maxEnd r + 31) / 32).toNat
    · have hexact := (expansionCost_exact_iff (by omega) (by omega) hgrows).mpr
        (priceFits_of_lt hgrows.le hbound)
      rw [Nat.max_eq_right hgrows.le]
      omega
    · have hnone : (maxEnd r + 31) / 32 ≤ evmMemorySize mem / 32 :=
        UInt64.le_iff_toNat_le.mpr (not_lt.mp hgrows)
      rw [evmMemoryExpansionCost, if_pos hnone, Nat.max_eq_left (not_lt.mp hgrows), Nat.sub_self]
      rfl

theorem granted_of_inside {n : ℕ} (h : n ≤ mem.data.length) : Granted mem 0 n := by
  have hfits := mem.fits
  have haligned := mem.aligned
  refine Or.inl ?_
  unfold wordsFor
  omega

/-- What `evm_memory_expand` makes of the region from the start on, for any end. -/
theorem expandTo_covers_iff {stop : UInt64} {mem' : EvmMemory} (hsize : stop ≠ 0)
    (hgrows : mem.data.length < stop.toNat)
    (h : (∃ cost, evmMemoryExpand arenaAlloc mem 0 stop = .expanded cost mem') ∨
      evmMemoryExpand arenaAlloc mem 0 stop = .refused ∧ mem' = mem) :
    stop.toNat ≤ mem'.data.length ↔ Granted mem 0 stop.toNat := by
  have hstop : (0 : UInt64).toNat + stop.toNat = stop.toNat := Nat.zero_add _
  have hlt : (0 : UInt64).toNat + stop.toNat < 2 ^ 64 := by
    rw [hstop]
    exact stop.toNat_lt
  have hnew := newSize_toNat 0 stop hlt
  rw [hstop] at hnew
  by_cases hlow : stop.toNat ≤ 2 ^ 63
  · -- the arena decides
    have hend : (0 : UInt64).toNat + stop.toNat ≤ 2 ^ 63 := by rwa [hstop]
    rcases evmMemoryExpand_arena mem hsize hend with
      ⟨hgranted, cost, grown, hrun⟩ | ⟨hrefused, hrun⟩
    · rcases h with ⟨cost', h⟩ | ⟨h, -⟩
      · refine iff_of_true ?_ hgranted
        obtain ⟨-, -, hdata, -⟩ := evmMemoryExpand_inv hsize h
        have hlength := congrArg List.length hdata
        rw [List.length_append, List.length_replicate, hnew, if_pos (by omega), wordsFor]
          at hlength
        omega
      · rw [hrun] at h
        cases h
    · rcases h with ⟨cost', h⟩ | ⟨-, rfl⟩
      · rw [hrun] at h
        cases h
      · exact iff_of_false (not_le.mpr hgrows) hrefused
  · -- only a buffer that is there already can be so large
    have hcapacity := mem.capacity.toNat_lt
    have hroom : Granted mem 0 stop.toNat ↔ 32 * wordsFor stop.toNat ≤ mem.capacity.toNat := by
      unfold Granted
      rw [Nat.zero_add]
      refine ⟨fun hserved => ?_, Or.inl⟩
      rcases hserved with hinside | ⟨k, hk, hblock⟩
      · exact hinside
      · unfold wordsFor at hk
        omega
    rw [hroom]
    by_cases hend : stop.toNat ≤ 2 ^ 64 - 32
    · rw [if_pos hend] at hnew
      rcases h with ⟨cost', h⟩ | ⟨h, rfl⟩
      · obtain ⟨-, -, hdata, hinside⟩ := evmMemoryExpand_inv hsize h
        have hlength := congrArg List.length hdata
        rw [List.length_append, List.length_replicate, hnew] at hlength
        have hcovers : stop.toNat ≤ mem'.data.length := by
          unfold wordsFor at hlength
          omega
        have hfits := mem'.fits
        refine iff_of_true hcovers ?_
        rcases hinside with hinside | hgranted
        · rwa [← hnew]
        · have hblock := (arenaAlloc_iff (by omega)).mp hgranted
          omega
      · refine iff_of_false (not_le.mpr hgrows) fun hinside => ?_
        obtain ⟨cost, grown, hrun⟩ :=
          evmMemoryExpand_of_room arenaAlloc mem' hsize hlt (by rwa [hnew])
        rw [hrun] at h
        cases h
    · rw [if_neg hend] at hnew
      have hlarge : ¬32 * wordsFor stop.toNat ≤ mem.capacity.toNat := by
        unfold wordsFor
        omega
      refine iff_of_false ?_ hlarge
      rcases h with ⟨cost', h⟩ | ⟨-, rfl⟩
      · obtain ⟨-, -, hdata, -⟩ := evmMemoryExpand_inv hsize h
        rw [hdata, hnew, Nat.zero_sub, List.replicate_zero, List.append_nil]
        exact not_le.mpr hgrows
      · exact not_le.mpr hgrows

/-- After the set-up the regions lie inside the memory if and only if the arena serves
their larger end. -/
theorem callMemory_covers_iff {mem' : EvmMemory} (hcost : callMemoryCost mem r = some memCost)
    (h : callMemory arenaAlloc mem r = some mem') :
    stopOf r ≤ mem'.data.length ↔ Granted mem 0 (stopOf r) := by
  have hend := maxEnd_toNat hcost
  have hsize := evmMemorySize_toNat mem
  unfold callMemory at h
  split at h
  · next hgrows =>
    rw [UInt64.lt_iff_toNat_lt, hsize, hend] at hgrows
    have hne : maxEnd r ≠ 0 := by
      intro hzero
      rw [hzero] at hend
      exact absurd hgrows (by rw [← hend]; exact Nat.not_lt_zero _)
    rw [← hend] at hgrows ⊢
    refine expandTo_covers_iff hne hgrows ?_
    cases hexpand : evmMemoryExpand arenaAlloc mem 0 (maxEnd r) with
    | expanded cost grown =>
      rw [hexpand] at h
      cases h
      exact Or.inl ⟨cost, rfl⟩
    | refused =>
      rw [hexpand] at h
      cases h
      exact Or.inr ⟨rfl, rfl⟩
    | diverges =>
      rw [hexpand] at h
      cases h
  · next hinside =>
    cases h
    rw [UInt64.lt_iff_toNat_lt, hsize, hend, not_lt] at hinside
    exact iff_of_true hinside (granted_of_inside hinside)

end Regions

section Kinds

/-- The four call opcodes. -/
inductive CallKind where
  | call
  | callcode
  | delegatecall
  | staticcall

def CallKind.opcode : CallKind → Opcode
  | .call => .call
  | .callcode => .callcode
  | .delegatecall => .delegatecall
  | .staticcall => .staticcall

def CallKind.count : CallKind → ℕ
  | .call | .callcode => 7
  | .delegatecall | .staticcall => 6

def CallKind.args : CallKind → List Word → CallStackArgs
  | .call | .callcode => valueArgs
  | .delegatecall | .staticcall => plainArgs

def CallKind.chargesNewAccount : CallKind → Bool
  | .call => true
  | _ => false

def CallKind.prepare (host : Host) : CallKind → World → Op (Option CallSetup)
  | .call => prepareCall host
  | .callcode => prepareCallcode host
  | .delegatecall => prepareDelegatecall host
  | .staticcall => prepareStaticcall host

def CallKind.op (kind : CallKind) (host : Host) : Op Bool :=
  match kind with
  | .call => opCall host
  | .callcode => opCallcode host
  | .delegatecall => opDelegatecall host
  | .staticcall => opStaticcall host

def CallKind.transfers : CallKind → Bool
  | .call => true
  | _ => false

theorem CallKind.op_eq (kind : CallKind) (host : Host) :
    ∃ params, kind.op host = callWith host (kind.prepare host) kind.transfers params := by
  cases kind <;> exact ⟨_, rfl⟩

def operandRegions (args : CallStackArgs) : CallRegions where
  argsOffset := uint256ToU64Unsafe args.argsOffset
  argsSize := uint256ToU64Unsafe args.argsSize
  retOffset := uint256ToU64Unsafe args.retOffset
  retSize := uint256ToU64Unsafe args.retSize

theorem validateMemoryArgs_inv {args : CallStackArgs} {regions : CallRegions}
    (h : validateMemoryArgs args = some regions) : regions = operandRegions args := by
  unfold validateMemoryArgs at h
  split at h
  · exact (Option.some.inj h).symm
  · cases h

theorem CallKind.prepare_cases (kind : CallKind) (host : Host) (ws : World) (s : Active) :
    PrepareCase host kind.count (kind.args s.frame.stack.items) kind.chargesNewAccount ws s
      (kind.prepare host ws s) := by
  cases kind <;> exact CallSetups.prepare_cases

/-- What a call takes from the gas of its frame: the access to the account, the value, the
exact price of the memory up to the larger end, and the gas of the child without the
stipend. -/
def PaysExactly (host : Host) (kind : CallKind) (ws : World) (args : CallStackArgs)
    (s : Active) (setup : CallSetup) (s' : Active) : Prop :=
  s.frame.gas.toNat + (stipend (movesValue args)).toNat =
    s'.frame.gas.toNat + (callOverhead host kind.chargesNewAccount ws args 0).toNat +
      exactExpansion s.frame.memory 0 (stopOf setup.regions) + setup.childGas.toNat

theorem callGasCost_toNat {wasCold transfersValue isNewAccount : Bool} {memCost : UInt64}
    (h : memCost.toNat < 2 ^ 62) :
    (callGasCost wasCold transfersValue isNewAccount memCost).toNat =
      (callGasCost wasCold transfersValue isNewAccount 0).toNat + memCost.toNat := by
  cases transfersValue <;> cases wasCold <;> cases isNewAccount <;>
    simp only [callGasCost, accountAccessCost, gasCallValue, gasNewAccount, gasColdAccountAccess,
      gasWarmAccess, UInt64.toNat_add, if_true, Bool.false_eq_true, if_false,
      UInt64.reduceToNat] <;> omega

theorem Granted.stop_le_block {mem : EvmMemory} (hblock : InBlock mem) {n : ℕ}
    (h : Granted mem 0 n) : n ≤ 65536 := by
  unfold InBlock at hblock
  unfold Granted wordsFor at h
  rcases h with h | ⟨k, hk, hserved⟩ <;> omega

variable {args : CallStackArgs} {regions : CallRegions} {left : UInt64}

/-- The gas of a prepared call is divided without a rest. -/
theorem paid_exact (host : Host) (args : CallStackArgs) (regions : CallRegions) (s : Active)
    (h : (stipend (movesValue args)).toNat + left.toNat < 2 ^ 64) :
    (paid host args left s).frame.gas.toNat + (madeSetup args regions left).childGas.toNat =
      left.toNat + (stipend (movesValue args)).toNat := by
  have hle := UInt64.le_iff_toNat_le.mp (setAside_le left args.requestedGas)
  change (left - setAside left args.requestedGas).toNat +
    (setAside left args.requestedGas + stipend (movesValue args)).toNat = _
  rw [UInt64.toNat_sub_of_le _ _ (setAside_le left args.requestedGas), add_toNat (by omega)]
  omega

theorem paysExactly_made {kind : CallKind} {ws : World} {memCost : UInt64}
    (mem : EvmMemory) (hblock : InBlock s.frame.memory)
    (hcost : callMemoryCost s.frame.memory regions = some memCost)
    (hgas : callOverhead host kind.chargesNewAccount ws args memCost ≤ s.frame.gas)
    (hleft : s.frame.gas - callOverhead host kind.chargesNewAccount ws args memCost = left)
    (hsmall : stopOf regions ≤ 65536) :
    PaysExactly host kind ws args s (madeSetup args regions left)
      (withMemory mem (paid host args left (dropItems kind.count s))) := by
  have hexact := callMemoryCost_exact hblock hcost hsmall
  have hlow := callMemoryCost_lt hblock hcost
  have hoverhead : (callOverhead host kind.chargesNewAccount ws args memCost).toNat =
      (callOverhead host kind.chargesNewAccount ws args 0).toNat + memCost.toNat :=
    callGasCost_toNat hlow
  have hstipend : (stipend (movesValue args)).toNat + 100 ≤
      (callOverhead host kind.chargesNewAccount ws args memCost).toNat :=
    stipend_lt_callGasCost hlow
  have hbefore := UInt64.toNat_sub_of_le _ _ hgas
  have henough := UInt64.le_iff_toNat_le.mp hgas
  have hlt := s.frame.gas.toNat_lt
  rw [hleft] at hbefore
  have hdivided := paid_exact host args regions (dropItems kind.count s)
    (by omega : (stipend (movesValue args)).toNat + left.toNat < 2 ^ 64)
  change s.frame.gas.toNat + _ =
    (paid host args left (dropItems kind.count s)).frame.gas.toNat + _ +
    exactExpansion s.frame.memory 0 (stopOf regions) + (madeSetup args regions left).childGas.toNat
  omega

/-- When the set-up of a call succeeds, its regions lie inside the memory and the exact
price for them is paid, if and only if the arena serves the larger end of the two. -/
theorem call_regions_backed_iff (host : Host) [harena : OnArena host] (kind : CallKind)
    (ws : World) (s : ArenaState) (setup : CallSetup) (s' : Active)
    (h : kind.prepare host ws s.val = .ok (some setup) s') :
    (Backed setup.regions s'.frame.memory ∧
      PaysExactly host kind ws (kind.args s.val.frame.stack.items) s.val setup s') ↔
      Granted s.val.frame.memory 0
        (stopOf (operandRegions (kind.args s.val.frame.stack.items))) := by
  obtain ⟨s, hblock⟩ := s
  have hcases := kind.prepare_cases host ws s
  rw [h] at hcases
  cases hcases with
  | @made regions memCost left mem hadmitted hcost hgas hleft hmem =>
    obtain rfl := validateMemoryArgs_inv hadmitted.valid
    rw [harena.alloc_eq] at hmem
    have hcovers := callMemory_covers_iff hcost hmem
    rw [backed_iff]
    change (stopOf (operandRegions (kind.args s.frame.stack.items)) ≤ mem.data.length ∧ _) ↔ _
    rw [hcovers]
    refine ⟨fun hboth => hboth.1, fun hgranted => ⟨hgranted, ?_⟩⟩
    exact paysExactly_made mem hblock hcost hgas hleft (Granted.stop_le_block hblock hgranted)

def nearCall : ArenaState :=
  ⟨afterSteps 6 [0x60, 0x20, 0x5f, 0x5f, 0x5f, 0x5f, 0x5f], by unfold InBlock; decide +kernel⟩

def farCall : ArenaState :=
  ⟨afterSteps 6 [0x5f, 0x5f, 0x60, 0x20, 0x62, 1, 0, 0, 0x5f, 0x5f],
    by unfold InBlock; decide +kernel⟩

theorem call_regions_backed_near : ∃ setup s',
    CallKind.staticcall.prepare paddedHost worldStateCreate nearCall.val =
      .ok (some setup) s' ∧
    Backed setup.regions s'.frame.memory ∧
    PaysExactly paddedHost .staticcall worldStateCreate
      (CallKind.staticcall.args nearCall.val.frame.stack.items) nearCall.val setup s' :=
  ⟨_, _, rfl, (call_regions_backed_iff paddedHost .staticcall worldStateCreate nearCall _ _ rfl).mpr
    (Or.inr ⟨0, by decide +kernel⟩)⟩

theorem farCall_not_backed : ∃ setup s',
    CallKind.staticcall.prepare paddedHost worldStateCreate farCall.val =
      .ok (some setup) s' ∧ ¬Backed setup.regions s'.frame.memory := by
  refine ⟨_, _, rfl, ?_⟩
  rw [backed_iff]
  decide +kernel

end Kinds

end Div0.CallSetups
