import Div0.FrameViews
import Div0.GasConservation

/-!
Where a frame can be in its code. The sweep that marks the jump destinations and the
dispatch loop agree on the instructions: both start at zero and go over the immediate bytes
of a PUSH. So the program counter of a frame always stands at an instruction of the sweep,
and a jump that is taken goes to a JUMPDEST among them.
-/

namespace Div0.JumpTargets

open BigEndian Buffer Effects EvmContext Memory Node Uint256 Frame Opcodes FrameOps Interpreter
open OpEffects CallEffects RunEffects FrameViews GasConservation

def instructionLength (opcode : UInt8) : ℕ :=
  if 0x60 ≤ opcode ∧ opcode ≤ 0x7f then 1 + (opcode.toNat - 0x60 + 1) else 1

def FollowedBy (code : Bytes) (pc pc' : ℕ) : Prop :=
  ∃ opcode, code[pc]? = some opcode ∧ pc' = pc + instructionLength opcode

def Sweeps (code : Bytes) : ℕ → ℕ → Prop := Relation.ReflTransGen (FollowedBy code)

/-- An instruction starts at `pc`, or the code ends there. -/
def InstructionStart (code : Bytes) (pc : ℕ) : Prop := Sweeps code 0 pc

/-- A JUMPDEST that is no push data. -/
structure IsJumpdest (code : Bytes) (d : ℕ) : Prop where
  inside : d < code.length
  opcode : code[d]? = some 0x5b
  start : InstructionStart code d

variable {bitmap : Bytes}

section Bits

def marked (bitmap : Bytes) (d : ℕ) : Prop := bitmap.getD (d / 8) 0 &&& bitMask (d % 8) ≠ 0

theorem bitMask_and : ∀ i < 8, ∀ j < 8, bitMask i &&& bitMask j ≠ 0 ↔ i = j := by decide

theorem or_and_ne_zero (a : UInt8) {i j : ℕ} (hi : i < 8) (hj : j < 8) :
    (a ||| bitMask i) &&& bitMask j ≠ 0 ↔ a &&& bitMask j ≠ 0 ∨ i = j := by
  have hsplit : (a ||| bitMask i) &&& bitMask j = a &&& bitMask j ||| bitMask i &&& bitMask j := by
    apply UInt8.toNat_inj.mp
    simp only [UInt8.toNat_and, UInt8.toNat_or, Nat.and_or_distrib_right]
  rw [hsplit, Ne, UInt8.or_eq_zero_iff, not_and_or]
  exact or_congr_right (bitMask_and i hi j hj)

theorem marked_modify {pc : ℕ} (hpc : pc / 8 < bitmap.length) (d : ℕ) :
    marked (bitmap.modify (pc / 8) (· ||| bitMask (pc % 8))) d ↔ marked bitmap d ∨ d = pc := by
  unfold marked
  rw [List.getD_eq_getElem?_getD, List.getD_eq_getElem?_getD, List.getElem?_modify]
  by_cases hbyte : pc / 8 = d / 8
  · simp only [if_pos hbyte]
    rw [← hbyte, List.getElem?_eq_getElem hpc, Option.map_eq_map, Option.map_some,
      Option.getD_some, Option.getD_some,
      or_and_ne_zero _ (Nat.mod_lt _ (by norm_num)) (Nat.mod_lt _ (by norm_num))]
    exact or_congr_right ⟨by omega, by rintro rfl; rfl⟩
  · have hother : d ≠ pc := by
      rintro rfl
      exact hbyte rfl
    simp [hbyte, hother]

theorem not_marked_zeros (n d : ℕ) : ¬marked (List.replicate n 0) d := by
  have hzero : (List.replicate n (0 : UInt8)).getD (d / 8) 0 = 0 := by
    rw [List.getD_eq_getElem?_getD, List.getElem?_replicate]
    split <;> rfl
  rw [marked, hzero, not_not]
  exact UInt8.zero_and

end Bits

section Sweep

variable {code : Bytes}

variable {pc d : ℕ}

/-- At the end of the code the sweep stops. -/
theorem Sweeps.eq_of_none (hend : code[pc]? = none) (h : Sweeps code pc d) : d = pc := by
  rcases Relation.ReflTransGen.cases_head h with heq | ⟨next, ⟨opcode, hop, -⟩, -⟩
  · exact heq.symm
  · rw [hend] at hop
    cases hop

/-- The sweep from an instruction goes on at the one that follows it. -/
theorem sweeps_iff {opcode : UInt8} (hop : code[pc]? = some opcode) :
    Sweeps code pc d ↔ d = pc ∨ Sweeps code (pc + instructionLength opcode) d := by
  constructor
  · intro h
    rcases Relation.ReflTransGen.cases_head h with heq | ⟨next, ⟨found, hfound, rfl⟩, hrest⟩
    · exact Or.inl heq.symm
    · rw [hop] at hfound
      cases hfound
      exact Or.inr hrest
  · rintro (rfl | h)
    · exact .refl
    · exact .head ⟨opcode, hop, rfl⟩ h

/-- At the end of the code there is nothing left to mark. -/
theorem not_jumpdest_of_none (hend : code[pc]? = none) :
    ¬(code[d]? = some 0x5b ∧ Sweeps code pc d) := by
  rintro ⟨hop, hsweep⟩
  rw [hsweep.eq_of_none hend, hend] at hop
  cases hop

/-- Another instruction than a JUMPDEST is gone over. -/
theorem jumpdest_step {opcode : UInt8} (hop : code[pc]? = some opcode) (hother : opcode ≠ 0x5b) :
    (code[d]? = some 0x5b ∧ Sweeps code pc d) ↔
      (code[d]? = some 0x5b ∧ Sweeps code (pc + instructionLength opcode) d) := by
  refine and_congr_right fun hd => ?_
  rw [sweeps_iff hop]
  refine ⟨?_, Or.inr⟩
  rintro (rfl | h)
  · rw [hop] at hd
    exact absurd (Option.some.inj hd) hother
  · exact h

/-- The scan marks the jump destinations that the sweep reaches, and nothing else. -/
theorem marked_scan {rounds pc : ℕ} (d : ℕ) (hrounds : code.length ≤ pc + rounds)
    (hsize : (code.length + 7) / 8 ≤ bitmap.length) :
    marked (scanJumpdests code rounds pc bitmap) d ↔
      marked bitmap d ∨ (code[d]? = some 0x5b ∧ Sweeps code pc d) := by
  induction rounds generalizing pc bitmap with
  | zero =>
    have hend : code[pc]? = none := List.getElem?_eq_none (by omega)
    exact (or_iff_left (not_jumpdest_of_none hend)).symm
  | succ rounds ih =>
    unfold scanJumpdests
    cases hop : code[pc]? with
    | none => exact (or_iff_left (not_jumpdest_of_none hop)).symm
    | some opcode =>
      have hpc : pc < code.length := (List.getElem?_eq_some_iff.mp hop).1
      dsimp only
      split
      · next hdest =>
        -- A JUMPDEST is marked itself, and the sweep goes on behind it.
        have hlength : instructionLength opcode = 1 := by rw [hdest]; decide
        rw [ih (by omega) (by rwa [List.length_modify]), marked_modify (by omega),
          sweeps_iff hop, hlength, or_assoc]
        refine or_congr_right ⟨?_, ?_⟩
        · rintro (rfl | ⟨hd, hsweep⟩)
          · exact ⟨hop.trans (congrArg some hdest), Or.inl rfl⟩
          · exact ⟨hd, Or.inr hsweep⟩
        · rintro ⟨hd, rfl | hsweep⟩
          · exact Or.inl rfl
          · exact Or.inr ⟨hd, hsweep⟩
      · next hother =>
        rw [jumpdest_step hop hother]
        split
        · next hpush =>
          have hlength : instructionLength opcode = 1 + (opcode.toNat - 0x60 + 1) := if_pos hpush
          rw [ih (by omega) hsize, hlength, Nat.add_assoc]
        · next hplain =>
          have hlength : instructionLength opcode = 1 := if_neg hplain
          rw [ih (by omega) hsize, hlength]

/-- The bitmap that is computed tells the jump destinations of the code. -/
theorem jumpdestIsValid_iff {alloc : Alloc} (h : jumpdestComputeBitmap alloc code = some bitmap)
    (d : UInt64) : jumpdestIsValid bitmap code.length d = true ↔ IsJumpdest code d.toNat := by
  have hbitmap : bitmap =
      scanJumpdests code code.length 0 (List.replicate ((code.length + 7) / 8) 0) := by
    unfold jumpdestComputeBitmap at h
    split at h
    · cases h
    · split at h
      · exact (Option.some.inj h).symm
      · cases h
  have hmarked : marked bitmap d.toNat ↔
      code[d.toNat]? = some 0x5b ∧ InstructionStart code d.toNat := by
    rw [hbitmap, marked_scan _ (by omega) (by rw [List.length_replicate])]
    exact or_iff_right (not_marked_zeros _ _)
  rw [jumpdestIsValid, Bool.and_eq_true, decide_eq_true_eq, bne_iff_ne]
  rw [marked] at hmarked
  rw [hmarked]
  exact ⟨fun ⟨hinside, hop, hstart⟩ => ⟨hinside, hop, hstart⟩,
    fun h => ⟨h.inside, h.opcode, h.start⟩⟩

end Sweep

variable {s s' : Active}

section Frames

def Mapped (frame : CallFrame) : Prop :=
  ∀ bitmap, frame.jumpdestBitmap = some bitmap → ∀ d : UInt64,
    jumpdestIsValid bitmap frame.code.length d = true ↔ IsJumpdest frame.code d.toNat

/-- The frame is in the same place of the same code. -/
structure SamePlace (s s' : Active) : Prop where
  pc : s'.frame.pc = s.frame.pc
  code : s'.frame.code = s.frame.code
  mapped : Mapped s.frame → Mapped s'.frame

instance : FrameView SamePlace where
  refl _ := ⟨rfl, rfl, id⟩
  trans _ _ _ h h' := ⟨h'.pc.trans h.pc, h'.code.trans h.code, fun hm => h'.mapped (h.mapped hm)⟩
  evm _ _ := ⟨rfl, rfl, id⟩
  stack _ _ := ⟨rfl, rfl, id⟩
  gas _ _ := ⟨rfl, rfl, id⟩
  output _ _ _ := ⟨rfl, rfl, id⟩

variable {host : Host}

instance (mem : EvmMemory) : Every (Kept SamePlace) (setMemory mem) :=
  ⟨keeps_modify fun _ => ⟨rfl, rfl, id⟩⟩

/-- Neither a jump nor a PUSH: the dispatch itself has moved the program counter. -/
theorem handler_samePlace {cost : Opcode → UInt64} {schedule : GasSchedule} {opcode : Opcode}
    (hjump : isJumpOp opcode = false) (hpush : isPushOp opcode = false) :
    Keeps SamePlace (handler host cost schedule opcode) := by
  cases hstore : isStoreOp opcode with
  | false => exact handler_view hjump hpush hstore
  | true => exact handler_store_view cost schedule hstore

/-- The bitmap a jump looks at is the one of the code. -/
theorem getJumpdestBitmap_inv (h : getJumpdestBitmap host s = .ok bitmap s') :
    SamePlace s s' ∧ s'.frame.jumpdestBitmap = some bitmap ∧
      s'.frame.stack = s.frame.stack := by
  obtain ⟨_, _, ⟨⟩, h⟩ := bind_ok h
  cases hkept : s.frame.jumpdestBitmap with
  | some kept =>
    rw [hkept] at h
    cases h
    exact ⟨refl_of SamePlace s, hkept, rfl⟩
  | none =>
    rw [hkept] at h
    obtain ⟨_, _, ⟨⟩, h⟩ := bind_ok h
    cases hcompute : jumpdestComputeBitmap host.alloc s.frame.code with
    | none =>
      rw [hcompute] at h
      cases h
    | some computed =>
      rw [hcompute] at h
      cases h
      refine ⟨⟨rfl, rfl, fun _ found hfound => ?_⟩, rfl, rfl⟩
      cases hfound
      exact jumpdestIsValid_iff hcompute

variable {u : Unit}

/-- A jump that is taken goes to a jump destination. -/
theorem jumpTo_inv {dest : Word} (h : jumpTo bitmap dest s = .ok u s') :
    ∃ d : UInt64, jumpdestIsValid bitmap s.frame.code.length d = true ∧
      s' = { s with frame := { s.frame with pc := d.toNat } } := by
  obtain ⟨_, s₁, hfits, h⟩ := bind_ok h
  obtain ⟨-, rfl⟩ := require_inv hfits
  obtain ⟨_, _, ⟨⟩, h⟩ := bind_ok h
  obtain ⟨_, s₃, hvalid, h⟩ := bind_ok h
  obtain ⟨hdest, rfl⟩ := require_inv hvalid
  cases h
  exact ⟨_, hdest, rfl⟩

/-- The frame stands at an instruction of its code. -/
structure AtInstruction (frame : CallFrame) : Prop where
  start : InstructionStart frame.code frame.pc
  mapped : Mapped frame

/-- The frame has jumped to a jump destination of its code. -/
structure Landed (s s' : Active) : Prop where
  code : s'.frame.code = s.frame.code
  target : IsJumpdest s.frame.code s'.frame.pc
  mapped : Mapped s'.frame

theorem SamePlace.landed {s s' s'' : Active} (h : SamePlace s s') (h' : Landed s' s'') :
    Landed s s'' :=
  ⟨h'.code.trans h.code, h.code ▸ h'.target, h'.mapped⟩

variable {cost : UInt64}

/-- The start of a jump: its bitmap is there, and its destination is off the stack. -/
theorem jump_start {n : ℕ} {rest : Bytes → Word → Op Unit}
    (h : (getJumpdestBitmap host >>= fun bitmap => hasItems n >>= fun _ =>
      charge cost >>= fun _ => pop >>= rest bitmap) s = .ok u s') :
    ∃ bitmap dest s₁ s₂, SamePlace s s₁ ∧ s₁.frame.jumpdestBitmap = some bitmap ∧
      SamePlace s₁ s₂ ∧ s.frame.stack.items = dest :: s₂.frame.stack.items ∧
      rest bitmap dest s₂ = .ok u s' := by
  obtain ⟨bitmap, s₁, hbitmap, h⟩ := bind_ok h
  obtain ⟨hplace, hkept, hstack⟩ := getJumpdestBitmap_inv hbitmap
  obtain ⟨-, h⟩ := hasItems_ok h
  obtain ⟨_, s₃, hcharge, h⟩ := bind_ok h
  obtain ⟨dest, s₄, hpop, h⟩ := bind_ok h
  have hcharged : SamePlace s₁ s₃ := Keeps.ok inferInstance hcharge
  have hpopped : SamePlace s₃ s₄ := Keeps.ok inferInstance hpop
  refine ⟨bitmap, dest, s₁, s₄, hplace, hkept, trans_of SamePlace hcharged hpopped, ?_, h⟩
  obtain ⟨-, rfl⟩ := charge_inv hcharge
  rw [← pop_inv hpop, ← hstack]

theorem jumpTo_landed {dest : Word} {s s₁ s₂ s' : Active} (hmapped : Mapped s.frame)
    (hplace : SamePlace s s₁) (hkept : s₁.frame.jumpdestBitmap = some bitmap)
    (hbefore : SamePlace s₁ s₂) (h : jumpTo bitmap dest s₂ = .ok u s') : Landed s s' := by
  have hmap := hplace.mapped hmapped
  obtain ⟨d, hd, rfl⟩ := jumpTo_inv h
  have htarget : IsJumpdest s₂.frame.code d.toNat := by
    rw [hbefore.code] at hd ⊢
    exact (hmap bitmap hkept d).mp hd
  exact hplace.landed (hbefore.landed ⟨rfl, htarget, hbefore.mapped hmap⟩)

theorem opJump_landed (hmapped : Mapped s.frame) (h : opJump host cost s = .ok u s') :
    Landed s s' := by
  obtain ⟨bitmap, dest, s₁, s₂, hplace, hkept, hbefore, -, h⟩ := jump_start h
  exact jumpTo_landed hmapped hplace hkept hbefore h

/-- A JUMPI is taken where its condition is not zero. -/
theorem opJumpi_inv (hmapped : Mapped s.frame) (h : opJumpi host cost s = .ok u s') :
    ∃ dest condition rest, s.frame.stack.items = dest :: condition :: rest ∧
      (if uint256IsZero condition then SamePlace s s' else Landed s s') := by
  obtain ⟨bitmap, dest, s₁, s₂, hplace, hkept, hbefore, hitems, h⟩ := jump_start h
  obtain ⟨condition, s₃, hcondition, h⟩ := bind_ok h
  have hpopped : SamePlace s₁ s₃ :=
    trans_of SamePlace hbefore (Keeps.ok inferInstance hcondition)
  refine ⟨dest, condition, s₃.frame.stack.items, by rw [hitems, pop_inv hcondition], ?_⟩
  split at h
  · next hzero =>
    cases h
    rw [if_pos hzero]
    exact trans_of SamePlace hplace hpopped
  · next hzero =>
    rw [if_neg hzero]
    exact jumpTo_landed hmapped hplace hkept hpopped h

/-- A PUSH goes over its immediate bytes. -/
theorem opPushN_inv {n : ℕ} (h : opPushN n cost s = .ok u s') :
    s'.frame.pc = s.frame.pc + n ∧ s'.frame.code = s.frame.code ∧
      (Mapped s.frame → Mapped s'.frame) := by
  obtain ⟨_, _, ⟨⟩, h⟩ := bind_ok h
  obtain ⟨_, s₂, hgas, h⟩ := bind_ok h
  obtain ⟨-, rfl⟩ := require_inv hgas
  obtain ⟨_, s₃, hspace, h⟩ := bind_ok h
  obtain ⟨_, s₄, hcharge, h⟩ := bind_ok h
  obtain ⟨_, _, ⟨⟩, h⟩ := bind_ok h
  obtain ⟨_, _, ⟨⟩, h⟩ := bind_ok h
  have hspaced : SamePlace s s₃ := Keeps.ok inferInstance hspace
  have hcharged : SamePlace s₃ s₄ := Keeps.ok inferInstance hcharge
  have hbefore : SamePlace s s₄ := trans_of SamePlace hspaced hcharged
  have hpushed : SamePlace _ s' := Keeps.ok inferInstance h
  refine ⟨hpushed.pc.trans ?_, hpushed.code.trans hbefore.code, fun hm => hpushed.mapped ?_⟩
  · dsimp only
    rw [hbefore.pc]
  · exact hbefore.mapped hm

end Frames

section Runs

variable {host : Host}

/-- The dispatch table and the sweep agree on the length of every instruction. -/
theorem instructionLength_eq (byte : UInt8) :
    instructionLength byte =
      match dispatchTable byte with
      | .push n => 1 + n
      | _ => 1 := by
  have hall : ∀ i : Fin 256, instructionLength (UInt8.ofNat i) =
      match dispatchTable (UInt8.ofNat i) with
      | .push n => 1 + n
      | _ => 1 := by decide +kernel
  have hbyte := hall ⟨byte.toNat, byte.toNat_lt⟩
  rwa [UInt8.ofNat_toNat] at hbyte

/-- Where the instruction is not a jump, the next one follows it in the sweep. -/
theorem InstructionStart.next {code : Bytes} {pc : ℕ} {byte : UInt8}
    (h : InstructionStart code pc) (hbyte : code[pc]? = some byte) :
    InstructionStart code (pc + instructionLength byte) :=
  h.tail ⟨byte, hbyte, rfl⟩

variable {result : Option FrameResult}

/-- What a handler does to the place of its frame, by the kind of the opcode. -/
theorem handler_place {cost : Opcode → UInt64} {schedule : GasSchedule} {opcode : Opcode}
    (h : handler host cost schedule opcode s = .ok result s') (hmapped : Mapped s.frame) :
    (isPushOp opcode = false ∧ SamePlace s s') ∨ Landed s s' ∨
      ∃ n, opcode = .push n ∧ s'.frame.pc = s.frame.pc + n ∧
        s'.frame.code = s.frame.code ∧ Mapped s'.frame := by
  cases hjump : isJumpOp opcode with
  | true =>
    cases opcode <;> simp only [isJumpOp, Bool.false_eq_true] at hjump
    case jump =>
      obtain ⟨_, s₁, hop, h⟩ := bind_ok h
      cases h
      exact Or.inr (Or.inl (opJump_landed hmapped hop))
    case jumpi =>
      obtain ⟨_, s₁, hop, h⟩ := bind_ok h
      cases h
      obtain ⟨dest, condition, rest, -, hplace⟩ := opJumpi_inv hmapped hop
      split at hplace
      · exact Or.inl ⟨rfl, hplace⟩
      · exact Or.inr (Or.inl hplace)
  | false =>
    cases hpush : isPushOp opcode with
    | false => exact Or.inl ⟨rfl, (handler_samePlace hjump hpush).ok h⟩
    | true =>
      cases opcode <;> simp only [isPushOp, Bool.false_eq_true] at hpush
      case push n =>
        obtain ⟨_, s₁, hop, h⟩ := bind_ok h
        cases h
        obtain ⟨hpc, hcode, hmap⟩ := opPushN_inv hop
        exact Or.inr (Or.inr ⟨n, rfl, hpc, hcode, hmap hmapped⟩)

/-- A dispatch takes a frame from an instruction to an instruction. -/
theorem AtInstruction.dispatch (h : AtInstruction s.frame)
    (hrun : dispatch host s = .ok result s') : AtInstruction s'.frame := by
  rw [dispatch_eq, nextOpcode] at hrun
  cases hbyte : s.frame.code[s.frame.pc]? with
  | none =>
    rw [hbyte] at hrun
    cases hrun
    exact h
  | some byte =>
    rw [hbyte, Option.map_some] at hrun
    dsimp only at hrun
    have hnext := h.start.next hbyte
    rw [instructionLength_eq] at hnext
    rcases handler_place hrun h.mapped with
      ⟨hpush, hsame⟩ | hlanded | ⟨n, hop, hpc, hcode, hmapped⟩
    · refine ⟨?_, hsame.mapped h.mapped⟩
      have hone : (match dispatchTable byte with
          | .push n => 1 + n
          | _ => 1) = 1 := by
        cases hop : dispatchTable byte <;> first | rfl | (rw [hop] at hpush; cases hpush)
      rw [hone] at hnext
      rw [hsame.pc, hsame.code]
      exact hnext
    · exact ⟨hlanded.code ▸ hlanded.target.start, hlanded.mapped⟩
    · refine ⟨?_, hmapped⟩
      rw [hop] at hnext
      rw [hpc, hcode]
      rwa [← Nat.add_assoc] at hnext

/-- A frame that starts. -/
theorem AtInstruction.entry {frame : CallFrame}
    (h : frame.pc = 0 ∧ frame.jumpdestBitmap = none) : AtInstruction frame where
  start := by
    rw [h.1]
    exact .refl
  mapped bitmap hkept := by
    rw [h.2] at hkept
    cases hkept

def jumpsNext (frame : CallFrame) : Bool :=
  match nextOpcode frame with
  | some .jump => true
  | some .jumpi => (frame.stack.items[1]?).any fun condition => !uint256IsZero condition
  | _ => false

theorem dispatch_landed (hmapped : Mapped s.frame) (hjumps : jumpsNext s.frame = true)
    (h : dispatch host s = .ok result s') : IsJumpdest s.frame.code s'.frame.pc := by
  rw [dispatch_eq] at h
  unfold jumpsNext at hjumps
  split at hjumps
  · next hop =>
    rw [hop] at h
    obtain ⟨_, s₁, hrun, h⟩ := bind_ok h
    cases h
    exact (opJump_landed (s := fetched s) hmapped
      hrun).target
  · next hop =>
    rw [hop] at h
    obtain ⟨_, s₁, hrun, h⟩ := bind_ok h
    cases h
    obtain ⟨dest, condition, rest, hstack, hplace⟩ :=
      opJumpi_inv (s := fetched s) hmapped hrun
    have hcondition : uint256IsZero condition = false := by
      rw [show s.frame.stack.items = dest :: condition :: rest from hstack] at hjumps
      simpa using hjumps
    rw [if_neg (by rw [hcondition]; exact Bool.false_ne_true)] at hplace
    exact hplace.target
  · cases hjumps

variable [OnArena host]

theorem atInstruction_step {m m' : Machine} (hm : ∀ frame ∈ frames m, AtInstruction frame)
    (h : step host m = .running m') : ∀ frame ∈ frames m', AtInstruction frame := by
  refine frames_step hm h (fun hdispatch hactive => hactive.dispatch hdispatch)
    (fun hdispatch hstarts hactive => ⟨hactive.dispatch hdispatch, .entry hstarts.entry⟩)
    (fun hdelivered hsaved => ?_)
  rw [hdelivered.rest]
  exact ⟨hsaved.start, hsaved.mapped⟩

/-- In every state of a run, all frames stand at instructions of their code. -/
theorem atInstruction_of_reaches {evm : Evm} {env : ExecutionEnv} {m : Machine}
    (h : Reaches (step host) (start evm env) m) : ∀ frame ∈ frames m, AtInstruction frame := by
  refine reaches_invariant (I := fun m => ∀ frame ∈ frames m, AtInstruction frame)
    (fun _ _ => atInstruction_step) ?_ h
  intro frame hframe
  rcases List.mem_cons.mp hframe with rfl | hnone
  · exact .entry ⟨rfl, rfl⟩
  · cases hnone

end Runs

/-- The bitmap of a code marks exactly its jump destinations; in every state of a run, all
frames stand at instructions of their code, and a jump that is taken goes to a jump
destination. -/
theorem jump_destinations (host : Host) [OnArena host] (alloc : Alloc) (code bitmap : Bytes)
    (hbitmap : jumpdestComputeBitmap alloc code = some bitmap) (evm : Evm) (env : ExecutionEnv)
    (m : Machine) (hreach : Reaches (step host) (start evm env) m) :
    (∀ d : UInt64, jumpdestIsValid bitmap code.length d = true ↔ IsJumpdest code d.toNat) ∧
    (∀ frame ∈ frames m, InstructionStart frame.code frame.pc) ∧
    (jumpsNext m.active.frame = true → ∀ result s,
      dispatch host m.active = .ok result s →
        IsJumpdest m.active.frame.code s.frame.pc) := by
  have hframes := atInstruction_of_reaches hreach
  refine ⟨jumpdestIsValid_iff hbitmap, fun frame hframe => (hframes frame hframe).start, ?_⟩
  intro hjumps result s hrun
  exact dispatch_landed (hframes _ (List.mem_cons_self ..)).mapped hjumps hrun

def pushJump : ExecutionEnv := running 100 [0x60, 3, 0x56, 0x5b, 0x60, 0x5b]

/-- At the jump of that code: byte 3 is a destination, byte 5 is none. -/
theorem jump_destinations_push :
    (∀ d : UInt64, jumpdestIsValid [0x08] 6 d = true ↔
      IsJumpdest [0x60, 3, 0x56, 0x5b, 0x60, 0x5b] d.toNat) ∧
    (∀ frame ∈ frames (stepped 1 (start (evmInit .cancun) pushJump)),
      InstructionStart frame.code frame.pc) ∧
    (jumpsNext (stepped 1
        (start (evmInit .cancun) pushJump)).active.frame = true → ∀ result s,
      dispatch paddedHost (stepped 1
        (start (evmInit .cancun) pushJump)).active = .ok result s →
          IsJumpdest (stepped 1
            (start (evmInit .cancun) pushJump)).active.frame.code s.frame.pc) :=
  jump_destinations paddedHost arenaAlloc [0x60, 3, 0x56, 0x5b, 0x60, 0x5b] [0x08] (by decide) _ _ _
    (reaches_advance _ _ _)

end Div0.JumpTargets
