import Mathlib.Data.Nat.Notation
import Mathlib.Logic.Relation

/-!
Programs whose state survives a failure, and machines that are stepped until they finish.
A relation between the state before and the state after that every primitive keeps is
kept by every program built from them. `Keeps` is a class, so that instance search
follows the structure of the program; only the primitives need a proof. For a machine the
induction is done once, in `reaches_invariant`.
-/

namespace Div0.Effects

section Programs

variable {ε σ α β : Type} {R : σ → σ → Prop} {m : EStateM ε σ α} {f : α → EStateM ε σ β}
  {a : α} {s s' : σ}

theorem bind_apply (m : EStateM ε σ α) (f : α → EStateM ε σ β) (s : σ) :
    (m >>= f) s = match m s with
      | .ok a s' => f a s'
      | .error e s' => .error e s' := rfl

theorem bind_ok {s s'' : σ} {b : β} (h : (m >>= f) s = .ok b s'') :
    ∃ a s', m s = .ok a s' ∧ f a s' = .ok b s'' := by
  rw [bind_apply] at h
  cases hm : m s with
  | ok a s' =>
    rw [hm] at h
    exact ⟨a, s', rfl, h⟩
  | error e s' =>
    rw [hm] at h
    cases h

theorem bind_of_ok (h : m s = .ok a s') : (m >>= f) s = f a s' := by
  rw [bind_apply, h]

def after (m : EStateM ε σ α) (s : σ) : σ :=
  match m s with
  | .ok _ s' => s'
  | .error _ s' => s'

theorem after_of_ok (h : m s = .ok a s') : after m s = s' := by
  simp only [after, h]

theorem after_of_error {e : ε} (h : m s = .error e s') : after m s = s' := by
  simp only [after, h]

/-- Every run of `m` ends in a state that `R` relates to the one it started from. -/
class Keeps (R : σ → σ → Prop) (m : EStateM ε σ α) : Prop where
  keeps : ∀ s, R s (after m s)

theorem Keeps.ok (h : Keeps R m) (hrun : m s = .ok a s') : R s s' :=
  after_of_ok hrun ▸ h.keeps s

theorem Keeps.error (h : Keeps R m) {e : ε} (hrun : m s = .error e s') : R s s' :=
  after_of_error hrun ▸ h.keeps s

instance keeps_pure [Std.Refl R] (a : α) : Keeps R (pure a : EStateM ε σ α) :=
  ⟨fun s => refl_of R s⟩

instance keeps_throw [Std.Refl R] (e : ε) : Keeps R (throw e : EStateM ε σ α) :=
  ⟨fun s => refl_of R s⟩

instance keeps_get [Std.Refl R] : Keeps R (get : EStateM ε σ σ) :=
  ⟨fun s => refl_of R s⟩

theorem keeps_modify {f : σ → σ} (h : ∀ s, R s (f s)) :
    Keeps R (modify f : EStateM ε σ PUnit) :=
  ⟨h⟩

instance keeps_bind [IsTrans σ R] (m : EStateM ε σ α) (f : α → EStateM ε σ β) [hm : Keeps R m]
    [hf : ∀ a, Keeps R (f a)] : Keeps R (m >>= f) where
  keeps s := by
    cases hrun : m s with
    | ok a s' =>
      have hfirst : R s s' := hm.ok hrun
      have hafter : after (m >>= f) s = after (f a) s' := by
        simp only [after, bind, EStateM.bind, hrun]
      rw [hafter]
      exact trans_of R hfirst ((hf a).keeps s')
    | error e s' =>
      have hafter : after (m >>= f) s = s' := by
        simp only [after, bind, EStateM.bind, hrun]
      rw [hafter]
      exact hm.error hrun

instance keeps_ite (c : Prop) [Decidable c] (m n : EStateM ε σ α) [hm : Keeps R m]
    [hn : Keeps R n] : Keeps R (if c then m else n) := by
  split
  · exact hm
  · exact hn

/-- A property of programs that passes on to the programs composed of them. -/
class Closed (P : ∀ ⦃α : Type⦄, EStateM ε σ α → Prop) : Prop where
  pure : ∀ {α : Type} (a : α), P (pure a : EStateM ε σ α)
  bind : ∀ {α β : Type} {m : EStateM ε σ α} {f : α → EStateM ε σ β},
    P m → (∀ a, P (f a)) → P (m >>= f)

/-- The program has the property, found by instance search along the program. -/
class Every (P : ∀ ⦃α : Type⦄, EStateM ε σ α → Prop) (m : EStateM ε σ α) : Prop where
  holds : P m

section Every

variable {P : ∀ ⦃α : Type⦄, EStateM ε σ α → Prop}

instance every_pure [hP : Closed P] (a : α) : Every P (pure a : EStateM ε σ α) := ⟨hP.pure a⟩

instance every_bind [hP : Closed P] (m : EStateM ε σ α) (f : α → EStateM ε σ β)
    [hm : Every P m] [hf : ∀ a, Every P (f a)] : Every P (m >>= f) :=
  ⟨hP.bind hm.holds fun a => (hf a).holds⟩

/-- The rest of a program may take any value. -/
theorem every_then [Closed P] [Every P m] (hf : ∀ a, Every P (f a)) :
    Every P (m >>= f) := every_bind m f

instance every_ite (c : Prop) [Decidable c] (m n : EStateM ε σ α) [hm : Every P m]
    [hn : Every P n] : Every P (if c then m else n) := by
  split
  · exact hm
  · exact hn

abbrev Kept (R : σ → σ → Prop) : ∀ ⦃α : Type⦄, EStateM ε σ α → Prop := fun _ m => Keeps R m

instance closed_kept [IsPreorder σ R] : Closed (Kept R : ∀ ⦃α : Type⦄, EStateM ε σ α → Prop) where
  pure a := keeps_pure a
  bind {_ _ m f} hm hf := by
    have hfirst : Keeps R m := hm
    have hrest : ∀ a, Keeps R (f a) := hf
    exact keeps_bind m f

instance (priority := low) keeps_of_every (m : EStateM ε σ α) [h : Every (Kept R) m] : Keeps R m :=
  h.holds

end Every

/-- Every run of `m` that does not return `v` ends in a state that `R` relates to the one it
started from. -/
class KeepsUnless (R : σ → σ → Prop) (v : α) (m : EStateM ε σ α) : Prop where
  keeps : ∀ s, (∀ s', m s ≠ .ok v s') → R s (after m s)

theorem KeepsUnless.ok {v : α} (h : KeepsUnless R v m) (hrun : m s = .ok a s') (ha : a ≠ v) :
    R s s' := by
  have hkept := h.keeps s fun t ht => ha (EStateM.Result.ok.inj (hrun.symm.trans ht)).1
  rwa [after_of_ok hrun] at hkept

theorem KeepsUnless.error {v : α} (h : KeepsUnless R v m) {e : ε} (hrun : m s = .error e s') :
    R s s' := by
  have hkept := h.keeps s fun t ht => by rw [hrun] at ht; cases ht
  rwa [after_of_error hrun] at hkept

theorem KeepsUnless.mono {R' : σ → σ → Prop} {v : α} (hle : ∀ s s', R s s' → R' s s')
    (h : KeepsUnless R v m) : KeepsUnless R' v m :=
  ⟨fun s hnot => hle _ _ (h.keeps s hnot)⟩

instance (priority := low) keepsUnless_of_keeps (v : α) (m : EStateM ε σ α) [h : Keeps R m] :
    KeepsUnless R v m :=
  ⟨fun s _ => h.keeps s⟩

/-- A program that always returns `v`. -/
theorem keepsUnless_of_returns {v : α} (h : ∀ s, ∃ s', m s = .ok v s') : KeepsUnless R v m :=
  ⟨fun s hnot => absurd (h s) fun ⟨s', hs'⟩ => hnot s' hs'⟩

/-- The second program starts where the first one ends, if that returns. -/
theorem after_bind [IsTrans σ R] {v : β} {s : σ} (hm : R s (after m s))
    (hf : ∀ a s', m s = .ok a s' → (∀ t, f a s' ≠ .ok v t) → R s' (after (f a) s'))
    (hnot : ∀ t, (m >>= f) s ≠ .ok v t) : R s (after (m >>= f) s) := by
  cases hrun : m s with
  | ok a s' =>
    have heq : (m >>= f) s = f a s' := by rw [bind_apply, hrun]
    have hafter : after (m >>= f) s = after (f a) s' := by simp only [after, heq]
    rw [after_of_ok hrun] at hm
    rw [heq] at hnot
    rw [hafter]
    exact trans_of R hm (hf a s' hrun hnot)
  | error e s' =>
    have heq : (m >>= f) s = .error e s' := by rw [bind_apply, hrun]
    rw [after_of_error hrun] at hm
    rwa [after_of_error heq]

instance keepsUnless_bind [IsTrans σ R] (v : β) (m : EStateM ε σ α) (f : α → EStateM ε σ β)
    [hm : Keeps R m] [hf : ∀ a, KeepsUnless R v (f a)] : KeepsUnless R v (m >>= f) :=
  ⟨fun s => after_bind (hm.keeps s) fun a s' _ => (hf a).keeps s'⟩

theorem keepsUnless_then [IsTrans σ R] {v : β} [Keeps R m] (hf : ∀ a, KeepsUnless R v (f a)) :
    KeepsUnless R v (m >>= f) :=
  keepsUnless_bind v m f

instance keepsUnless_ite (c : Prop) [Decidable c] (v : α) (m n : EStateM ε σ α)
    [hm : KeepsUnless R v m] [hn : KeepsUnless R v n] : KeepsUnless R v (if c then m else n) := by
  split
  · exact hm
  · exact hn

/-- The run of `m` from `s` fails only in ways that are allowed, and what it returns meets
`post`. -/
@[irreducible] def Meets (allowed : ε → Prop) (m : EStateM ε σ α) (s : σ)
    (post : α → σ → Prop) : Prop :=
  match m s with
  | .ok a s' => post a s'
  | .error e _ => allowed e

section Meets

variable {allowed : ε → Prop} {post : α → σ → Prop}

theorem meets_of_ok (h : m s = .ok a s') : Meets allowed m s post ↔ post a s' := by
  rw [Meets, h]

theorem meets_of_error {e : ε} (h : m s = .error e s') :
    Meets allowed m s post ↔ allowed e := by
  rw [Meets, h]

theorem meets_congr {m' : EStateM ε σ α} (h : m s = m' s) :
    Meets allowed m s post ↔ Meets allowed m' s post := by
  rw [Meets, Meets, h]

theorem meets_pure : Meets allowed (pure a) s post ↔ post a s := meets_of_ok rfl

theorem meets_bind {post : β → σ → Prop} :
    Meets allowed (m >>= f) s post ↔
      Meets allowed m s fun a s' => Meets allowed (f a) s' post := by
  unfold Meets
  rw [bind_apply]
  cases m s <;> rfl

theorem meets_bind_of_ok {post : β → σ → Prop} (h : m s = .ok a s') :
    Meets allowed (m >>= f) s post ↔ Meets allowed (f a) s' post := by
  rw [meets_bind, meets_of_ok h]

theorem Meets.mono {post' : α → σ → Prop} (h : Meets allowed m s post)
    (hle : ∀ a s', post a s' → post' a s') : Meets allowed m s post' := by
  cases hrun : m s with
  | ok a s' =>
    rw [meets_of_ok hrun] at h ⊢
    exact hle a s' h
  | error e s' =>
    rw [meets_of_error hrun] at h ⊢
    exact h

end Meets

end Programs

section Machines

variable {σ β : Type} {P : σ → Prop} {s s' : σ}

/-- What one step of a machine leads to. A machine that is `stuck` has no next state. -/
inductive Next (σ β : Type) where
  | running (s : σ)
  | finished (b : β)
  | stuck

def Next.isRunning : Next σ β → Bool
  | .running _ => true
  | _ => false

def Next.isFinished : Next σ β → Bool
  | .finished _ => true
  | _ => false

/-- At most `fuel` steps; `none` when the machine has not finished by then. -/
def runFor (step : σ → Next σ β) : ℕ → σ → Option β
  | 0, _ => none
  | fuel + 1, s =>
    match step s with
    | .running s' => runFor step fuel s'
    | .finished b => some b
    | .stuck => none

/-- The machine gets from the first state to the second. -/
def Reaches (step : σ → Next σ β) : σ → σ → Prop :=
  Relation.ReflTransGen fun s s' => step s = .running s'

variable {step : σ → Next σ β}

/-- What holds at the start and is kept by every step holds in every state reached. -/
theorem reaches_invariant {I : σ → Prop} (hstep : ∀ s s', I s → step s = .running s' → I s')
    {s s' : σ} (hs : I s) (h : Reaches step s s') : I s' := by
  induction h with
  | refl => exact hs
  | tail _ hlast ih => exact hstep _ _ ih hlast

/-- A run that finishes does so from a state it reaches. -/
theorem runFor_finished {fuel : ℕ} :
    ∀ {s : σ} {b : β}, runFor step fuel s = some b →
      ∃ s', Reaches step s s' ∧ step s' = .finished b := by
  induction fuel with
  | zero =>
    intro s b hrun
    simp only [runFor, reduceCtorEq] at hrun
  | succ fuel ih =>
    intro s b hrun
    unfold runFor at hrun
    cases hstep : step s with
    | running s' =>
      simp only [hstep] at hrun
      obtain ⟨last, hreach, hlast⟩ := ih hrun
      exact ⟨last, .head hstep hreach, hlast⟩
    | finished c =>
      simp only [hstep, Option.some.injEq] at hrun
      exact ⟨s, .refl, hrun ▸ hstep⟩
    | stuck => simp only [hstep, reduceCtorEq] at hrun

/-- A machine can stop in one state only. -/
theorem reaches_finished_unique {s s₁ s₂ : σ} {b₁ b₂ : β} (h₁ : Reaches step s s₁)
    (hb₁ : step s₁ = .finished b₁) (h₂ : Reaches step s s₂) (hb₂ : step s₂ = .finished b₂) :
    s₁ = s₂ := by
  induction h₁ using Relation.ReflTransGen.head_induction_on with
  | refl =>
    rcases Relation.ReflTransGen.cases_head h₂ with heq | ⟨t, hfirst, -⟩
    · exact heq
    · rw [hb₁] at hfirst
      cases hfirst
  | head hfirst _ ih =>
    rcases Relation.ReflTransGen.cases_head h₂ with rfl | ⟨t, hfirst', hrest⟩
    · rw [hb₂] at hfirst
      cases hfirst
    · rw [hfirst] at hfirst'
      cases hfirst'
      exact ih hrest

/-- A machine with a measure that every step lowers stops. -/
theorem reaches_stop {α : Type} {r : α → α → Prop} (hwf : WellFounded r) {I : σ → Prop}
    (hstep : ∀ s s', I s → step s = .running s' → I s') (μ : σ → α)
    (hμ : ∀ s s', I s → step s = .running s' → r (μ s') (μ s)) {s : σ} (hs : I s) :
    ∃ s', Reaches step s s' ∧ ∀ t, step s' ≠ .running t := by
  induction hvalue : μ s using hwf.induction generalizing s with
  | _ value ih =>
    cases hnext : step s with
    | running s' =>
      obtain ⟨last, hreach, hlast⟩ := ih _ (hvalue ▸ hμ s s' hs hnext) (hstep s s' hs hnext) rfl
      exact ⟨last, .head hnext hreach, hlast⟩
    | finished b => exact ⟨s, .refl, fun t ht => by rw [hnext] at ht; cases ht⟩
    | stuck => exact ⟨s, .refl, fun t ht => by rw [hnext] at ht; cases ht⟩

/-- A result that is reached is found with enough fuel. -/
theorem runFor_of_reaches {b : β} (h : Reaches step s s') (hlast : step s' = .finished b) :
    ∃ fuel, runFor step fuel s = some b := by
  induction h using Relation.ReflTransGen.head_induction_on with
  | refl => exact ⟨1, by simp only [runFor, hlast]⟩
  | head hfirst _ ih =>
    obtain ⟨fuel, hfuel⟩ := ih
    exact ⟨fuel + 1, by simp only [runFor, hfirst, hfuel]⟩

def advance (step : σ → Next σ β) : ℕ → σ → σ
  | 0, s => s
  | n + 1, s =>
    match step s with
    | .running s' => advance step n s'
    | _ => s

theorem reaches_advance (step : σ → Next σ β) (n : ℕ) (s : σ) :
    Reaches step s (advance step n s) := by
  induction n generalizing s with
  | zero => exact .refl
  | succ n ih =>
    unfold advance
    cases hstep : step s with
    | running s' => exact .head hstep (ih s')
    | finished b => exact .refl
    | stuck => exact .refl

theorem advance_succ (step : σ → Next σ β) (n : ℕ) (s : σ) :
    advance step (n + 1) s = match step (advance step n s) with
      | .running s' => s'
      | _ => advance step n s := by
  induction n generalizing s with
  | zero => rfl
  | succ n ih =>
    cases hstep : step s with
    | running s' =>
      have hfirst : ∀ k, advance step (k + 1) s = advance step k s' := fun k => by
        simp only [advance, hstep]
      rw [hfirst, ih, hfirst]
    | finished b => simp only [advance, hstep]
    | stuck => simp only [advance, hstep]

theorem step_advance {n : ℕ} {s : σ} (h : (step (advance step n s)).isRunning = true) :
    step (advance step n s) = .running (advance step (n + 1) s) := by
  rw [advance_succ]
  cases hstep : step (advance step n s) with
  | running s' => rfl
  | finished b =>
    rw [hstep] at h
    cases h
  | stuck =>
    rw [hstep] at h
    cases h

/-- Where a run stops after `n` steps, these steps are all of it. -/
theorem reaches_forall {n : ℕ} (hstop : (step (advance step n s)).isRunning = false)
    (h : ∀ k ≤ n, P (advance step k s)) (hreach : Reaches step s s') : P s' := by
  have hpart : ∃ k ≤ n, s' = advance step k s := by
    induction hreach with
    | refl => exact ⟨0, Nat.zero_le n, rfl⟩
    | tail _ hlast ih =>
      obtain ⟨k, hle, rfl⟩ := ih
      refine ⟨k + 1, ?_, by rw [advance_succ, hlast]⟩
      rcases Nat.lt_or_eq_of_le hle with hlt | rfl
      · exact hlt
      · rw [hlast] at hstop
        cases hstop
  obtain ⟨k, hle, rfl⟩ := hpart
  exact h k hle

theorem runFor_eq_none {n : ℕ} (hstop : (step (advance step n s)).isRunning = false)
    (h : ∀ k ≤ n, (step (advance step k s)).isFinished = false) (fuel : ℕ) :
    runFor step fuel s = none := by
  cases hresult : runFor step fuel s with
  | none => rfl
  | some b =>
    obtain ⟨last, hreach, hlast⟩ := runFor_finished hresult
    have hunfinished := reaches_forall (P := fun s => (step s).isFinished = false) hstop h hreach
    rw [hlast] at hunfinished
    cases hunfinished

/-- The machine gets from the first state to the second, and all states on the way behind the
first have the property. -/
def ReachesIn (step : σ → Next σ β) (P : σ → Prop) : σ → σ → Prop :=
  Relation.ReflTransGen fun s s' => step s = .running s' ∧ P s'

theorem reachesIn_invariant {P I : σ → Prop}
    (hstep : ∀ s s', I s → step s = .running s' → P s' → I s') (hs : I s)
    (h : ReachesIn step P s s') : I s' := by
  induction h with
  | refl => exact hs
  | tail _ hlast ih => exact hstep _ _ ih hlast.1 hlast.2

theorem ReachesIn.reaches (h : ReachesIn step P s s') : Reaches step s s' :=
  h.lift id fun _ _ hstep => hstep.1

theorem reachesIn_advance {n : ℕ} {s : σ} (h : ∀ k ≤ n, P (advance step k s)) :
    ReachesIn step P s (advance step n s) := by
  induction n with
  | zero => exact .refl
  | succ n ih =>
    have hbefore := ih fun k hk => h k (Nat.le_succ_of_le hk)
    have hlast := h (n + 1) (Nat.le_refl _)
    rw [advance_succ] at hlast ⊢
    cases hstep : step (advance step n s) with
    | running s' =>
      rw [hstep] at hlast
      exact hbefore.tail ⟨hstep, hlast⟩
    | finished b => exact hbefore
    | stuck => exact hbefore

end Machines

end Div0.Effects
