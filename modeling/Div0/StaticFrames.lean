import Div0.GasConservation

/-!
Calm steps: the current frame is static, or its next instruction is none of SSTORE, LOG and
a CALL with value. A calm step changes no account, no log and not the refund counter,
whatever frames it enters or leaves. A static frame enters static frames only, so all steps
from its entry to the delivery of its result are calm.
-/

namespace Div0.StaticFrames

open BigEndian Effects Node WorldState WorldLedger Frame Interpreter OpEffects CallEffects
open RunEffects GasConservation

variable {host : Host} {m m' : Machine}

/-- The interface shows the same accounts, and logs and refund counter are the same. -/
structure Unchanged (host : Host) (evm evm' : Evm) : Prop where
  accounts : ∀ ws, evm.state = some ws → ∃ ws', evm'.state = some ws' ∧ SameAccounts host ws ws'
  logs : evm'.logs = evm.logs
  gasRefund : evm'.gasRefund = evm.gasRefund

/-- Everything but the warm sets of the state is the same. -/
structure Untouched (evm evm' : Evm) : Prop where
  state : evm'.state.map cool = evm.state.map cool
  logs : evm'.logs = evm.logs
  gasRefund : evm'.gasRefund = evm.gasRefund

theorem Untouched.refl (evm : Evm) : Untouched evm evm := ⟨rfl, rfl, rfl⟩

theorem Untouched.trans {a b c : Evm} (h : Untouched a b) (h' : Untouched b c) : Untouched a c :=
  ⟨h'.state.trans h.state, h'.logs.trans h.logs, h'.gasRefund.trans h.gasRefund⟩

theorem Untouched.unchanged {evm evm' : Evm} (h : Untouched evm evm') : Unchanged host evm evm' := by
  refine ⟨fun ws hws => ?_, h.logs, h.gasRefund⟩
  have hstate := h.state
  rw [hws, Option.map_some, Option.map_eq_some_iff] at hstate
  obtain ⟨ws', hws', hcool⟩ := hstate
  exact ⟨ws', hws', sameAccounts_of_stores (congrArg World.stateTrie hcool :)
    (congrArg World.storageTries hcool :) (congrArg World.codeStore hcool :)⟩

theorem Untouched.of_quiet {s s' : Active} (h : Quiet s s') : Untouched s.evm s'.evm :=
  ⟨(congrArg Evm.state h.evm :), (congrArg Evm.logs h.evm :), (congrArg Evm.gasRefund h.evm :)⟩

theorem Untouched.of_copied {evm evm' : Evm} (h : Copied evm evm') : Untouched evm evm' := by
  rw [h.rest]
  exact ⟨rfl, rfl, rfl⟩

/-- The next step writes nothing. -/
def Calm (m : Machine) : Prop :=
  m.active.frame.isStatic = true ∨ writesNext m.active.frame = false

instance (m : Machine) : Decidable (Calm m) := inferInstanceAs (Decidable (_ ∨ _))

/-- A calm call that starts: the caller, up to the child that is pending. -/
theorem forward_of_starts {s s' : Active} {child : CallFrame} {calm : Prop}
    (h : Starts host calm s s' child) (hcalm : calm) :
    Untouched s.evm s'.evm ∧ s'.frame.isStatic = s.frame.isStatic := by
  obtain ⟨s₁, r, -, hforward, rfl⟩ := h.entered
  have hquiet := (hforward hcalm).toQuiet
  exact ⟨(Untouched.of_quiet hquiet).trans ⟨rfl, rfl, rfl⟩, hquiet.isStatic⟩

section Steps

variable [OnArena host]

theorem untouched_step (hcalm : Calm m) (h : step host m = .running m') :
    Untouched m.active.evm m'.active.evm := by
  cases moves_of_step h with
  | goesOn hdispatch =>
    have hquiet := quiet_dispatch m.active hcalm (not_call_of_none hdispatch)
    rw [after_of_ok hdispatch] at hquiet
    exact .of_quiet hquiet
  | enters hdispatch hroom hpending =>
    have hcaller := (forward_of_starts (starts_of_pending hdispatch hpending) hcalm).1
    exact hcaller.trans ⟨rfl, rfl, rfl⟩
  | delivers hlast hcall hs hdepth hparents hcopied hdelivered =>
    have hquiet := quiet_dispatch m.active hcalm (not_call_of_ending hlast hcall)
    rw [← hs] at hquiet
    exact ((Untouched.of_quiet hquiet).trans (.of_copied hcopied)).trans ⟨rfl, rfl, rfl⟩

theorem untouched_finished {out : Outcome} (hcalm : Calm m) (h : step host m = .finished out) :
    Untouched m.active.evm out.2 := by
  cases moves_of_step h with
  | finishes hlast hcall hs hdepth hcopied =>
    have hquiet := quiet_dispatch m.active hcalm (not_call_of_ending hlast hcall)
    rw [← hs] at hquiet
    exact (Untouched.of_quiet hquiet).trans (.of_copied hcopied)
  | refuses hdispatch hfull =>
    obtain ⟨-, child, hstarts⟩ := dispatch_starts hdispatch
    exact (forward_of_starts hstarts hcalm).1

end Steps

section Static

/-- A run that stays in the frame of `m₀` and in the frames called from it. -/
abbrev Inside (host : Host) (m₀ m : Machine) : Prop :=
  ReachesIn (step host) (fun m => m₀.parents.length ≤ m.parents.length) m₀ m

/-- A parent that is taken off lies above the frames that stay. -/
theorem parents_above {saved : CallFrame} {parents inner base : List CallFrame}
    (h : saved :: parents = inner ++ base) (hle : base.length ≤ parents.length) :
    ∃ rest, inner = saved :: rest ∧ parents = rest ++ base := by
  cases inner with
  | nil =>
    rw [List.nil_append] at h
    rw [← h, List.length_cons] at hle
    exact absurd hle (Nat.not_succ_le_self _)
  | cons first rest =>
    obtain ⟨rfl, rfl⟩ := List.cons.inj h
    exact ⟨rest, rfl, rfl⟩

/-- The current frame and the ones above the parents of `m₀` are static. -/
structure StaticAbove (m₀ m : Machine) : Prop where
  active : m.active.frame.isStatic = true
  parents : ∃ inner, m.parents = inner ++ m₀.parents ∧ ∀ frame ∈ inner, frame.isStatic = true

theorem StaticAbove.step [OnArena host] {m₀ : Machine} (h : StaticAbove m₀ m)
    (hstep : step host m = .running m') (hinside : m₀.parents.length ≤ m'.parents.length) :
    StaticAbove m₀ m' := by
  obtain ⟨inner, hparents, hstatic⟩ := h.parents
  cases moves_of_step hstep with
  | goesOn hdispatch =>
    have hframe := (congrArg CallFrame.isStatic (ordinary_of_none hdispatch).frame :)
    exact ⟨hframe.trans h.active, inner, hparents, hstatic⟩
  | @enters s child hdispatch hroom hpending =>
    have hstarts := starts_of_pending hdispatch hpending
    refine ⟨hstarts.static h.active, s.frame :: inner, by rw [hparents, List.cons_append], ?_⟩
    intro frame hmem
    rcases List.mem_cons.mp hmem with rfl | hmem
    · exact (forward_of_starts hstarts (Or.inl h.active)).2.trans h.active
    · exact hstatic frame hmem
  | @delivers s saved frame parents evm last hlast hcall hs hdepth hsaved hcopied hdelivered =>
    obtain ⟨rest, rfl, rfl⟩ := parents_above (hsaved.symm.trans hparents) hinside
    have hkept : frame.isStatic = saved.isStatic := by rw [hdelivered.rest]
    exact ⟨hkept.trans (hstatic _ (List.mem_cons_self ..)), rest, rfl,
      fun frame hmem => hstatic frame (List.mem_cons_of_mem _ hmem)⟩

/-- From any point of a static frame on, as long as it and its descendants run, and with the
step that delivers its result or ends the execution. -/
theorem static_unchanged (host : Host) [OnArena host] {m₀ m : Machine}
    (hstatic : m₀.active.frame.isStatic = true) (hinside : Inside host m₀ m) :
    Unchanged host m₀.active.evm m.active.evm ∧
    (∀ m', step host m = .running m' → Unchanged host m₀.active.evm m'.active.evm) ∧
    ∀ out, step host m = .finished out → Unchanged host m₀.active.evm out.2 := by
  have hkept : StaticAbove m₀ m ∧ Untouched m₀.active.evm m.active.evm := by
    refine reachesIn_invariant (I := fun m => StaticAbove m₀ m ∧ Untouched m₀.active.evm m.active.evm)
      ?_ ⟨⟨hstatic, [], rfl, fun _ hmem => absurd hmem List.not_mem_nil⟩, .refl _⟩ hinside
    rintro m m' ⟨hstatic, huntouched⟩ hstep hin
    exact ⟨hstatic.step hstep hin, huntouched.trans (untouched_step (Or.inl hstatic.active) hstep)⟩
  obtain ⟨⟨hactive, -⟩, huntouched⟩ := hkept
  exact ⟨huntouched.unchanged,
    fun m' hstep => (huntouched.trans (untouched_step (Or.inl hactive) hstep)).unchanged,
    fun out hstep => (huntouched.trans (untouched_finished (Or.inl hactive) hstep)).unchanged⟩

def probeCode : Bytes := [0x5f, 0x5f, 0x5f, 0x5f, 0x60, 3, 0x61, 0xff, 0xff, 0xfa]

def writerCode : Bytes := [0x60, 1, 0x5f, 0x55]

def probeStart : Machine :=
  start { evmInit .cancun with
      state := some (wsSetCode paddedHost worldStateCreate (lowAddress 3) writerCode) }
    (running 100000 probeCode)

def probeChild : Machine := stepped 7 probeStart

/-- The write ends the child, and its failure is delivered to the root frame. -/
theorem static_unchanged_probe :
    probeChild.active.frame.depth = 1 ∧ probeChild.active.frame.isStatic = true ∧
      (stepped 3 probeChild).parents.length = 0 ∧
      ∀ m', step paddedHost (stepped 2 probeChild) = .running m' →
        Unchanged paddedHost probeChild.active.evm m'.active.evm := by
  have hinside : Inside paddedHost probeChild
      (stepped 2 probeChild) := reachesIn_advance (by decide +kernel)
  refine ⟨by decide +kernel, by decide +kernel, by decide +kernel, ?_⟩
  exact (static_unchanged paddedHost (by decide +kernel) hinside).2.1

end Static

end Div0.StaticFrames
