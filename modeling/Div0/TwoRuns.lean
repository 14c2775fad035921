import Div0.Effects

/-!
Two runs of one program from related states. `Follows` says that the second run ends as the
first one does, with the states still related, unless the first run ends with a failure of a
kind that is set aside. As with `Keeps`, instance search follows the structure of the
program. What a program reads from the two states may differ in parts that the rest of the
program does not look at; `Same` lets instance search see that the rest is one program.
-/

namespace Div0.TwoRuns

open Effects

section Programs

variable {ε σ α β : Type} {bad : ε → Prop} {R : σ → σ → Prop}

/-- Two results that differ in their states at most, and these are related. -/
inductive Agree (R : σ → σ → Prop) : EStateM.Result ε σ α → EStateM.Result ε σ α → Prop
  | ok (a : α) {s t : σ} (h : R s t) : Agree R (.ok a s) (.ok a t)
  | error (e : ε) {s t : σ} (h : R s t) : Agree R (.error e s) (.error e t)

/-- The result is no failure of the kind `bad`. -/
def Avoids (bad : ε → Prop) : EStateM.Result ε σ α → Prop
  | .ok _ _ => True
  | .error e _ => ¬bad e

/-- A second run of `m` from a related state does what the first one does. -/
class Follows (bad : ε → Prop) (R : σ → σ → Prop) (m : EStateM ε σ α) : Prop where
  follows : ∀ s t, R s t → Avoids bad (m s) → Agree R (m s) (m t)

instance follows_pure (a : α) : Follows bad R (pure a : EStateM ε σ α) :=
  ⟨fun _ _ h _ => .ok a h⟩

instance follows_throw (e : ε) : Follows bad R (throw e : EStateM ε σ α) :=
  ⟨fun _ _ h _ => .error e h⟩

theorem follows_modify {f : σ → σ} (hf : ∀ s t, R s t → R (f s) (f t)) :
    Follows bad R (modify f : EStateM ε σ PUnit) where
  follows s t h _ := by
    change Agree R (.ok PUnit.unit (f s)) (.ok PUnit.unit (f t))
    exact .ok _ (hf s t h)

instance follows_bind (m : EStateM ε σ α) (f : α → EStateM ε σ β) [hm : Follows bad R m]
    [hf : ∀ a, Follows bad R (f a)] : Follows bad R (m >>= f) where
  follows s t h havoids := by
    have hfirst := hm.follows s t h
    rw [bind_apply, bind_apply]
    rw [bind_apply] at havoids
    cases hrun : m s with
    | ok a s' =>
      rw [hrun] at hfirst havoids
      cases hother : m t with
      | ok b t' =>
        rw [hother] at hfirst
        cases hfirst trivial with
        | ok _ h' => exact (hf a).follows s' t' h' havoids
      | error e t' =>
        rw [hother] at hfirst
        cases hfirst trivial
    | error e s' =>
      rw [hrun] at hfirst havoids
      cases hother : m t with
      | ok b t' =>
        rw [hother] at hfirst
        cases hfirst havoids
      | error e' t' =>
        rw [hother] at hfirst
        cases hfirst havoids with
        | error _ h' => exact .error e h'

theorem follows_then {m : EStateM ε σ α} {f : α → EStateM ε σ β} [Follows bad R m]
    (hf : ∀ a, Follows bad R (f a)) : Follows bad R (m >>= f) := follows_bind m f

instance follows_ite (c : Prop) [Decidable c] (m n : EStateM ε σ α) [hm : Follows bad R m]
    [hn : Follows bad R n] : Follows bad R (if c then m else n) := by
  split
  · exact hm
  · exact hn

/-- One value, for instance search. -/
class Same {τ : Type} (a b : τ) : Prop where
  eq : a = b

instance same_refl {τ : Type} (a : τ) : Same a a := ⟨rfl⟩

end Programs

section Machines

variable {σ β : Type} {R : σ → σ → Prop} {O : β → β → Prop}

/-- The same kind of step, into related states or to related results. -/
inductive Along (R : σ → σ → Prop) (O : β → β → Prop) : Next σ β → Next σ β → Prop
  | running {s t : σ} (h : R s t) : Along R O (.running s) (.running t)
  | finished {b c : β} (h : O b c) : Along R O (.finished b) (.finished c)

/-- A machine that follows another one step by step comes to the same result. -/
theorem runFor_along {step : σ → Next σ β}
    (hstep : ∀ s t, R s t → step s ≠ .stuck → Along R O (step s) (step t)) {fuel : ℕ} :
    ∀ {s t : σ} {b : β}, R s t → runFor step fuel s = some b →
      ∃ c, runFor step fuel t = some c ∧ O b c := by
  induction fuel with
  | zero =>
    intro s t b _ hrun
    simp only [runFor, reduceCtorEq] at hrun
  | succ fuel ih =>
    intro s t b h hrun
    unfold runFor at hrun ⊢
    have hnext := hstep s t h
    cases hs : step s with
    | stuck => simp only [hs, reduceCtorEq] at hrun
    | running s' =>
      rw [hs] at hrun hnext
      generalize step t = next at hnext ⊢
      cases hnext (by simp only [ne_eq, reduceCtorEq, not_false_eq_true]) with
      | running h' => exact ih h' hrun
    | finished b' =>
      rw [hs] at hrun hnext
      generalize step t = next at hnext ⊢
      cases hnext (by simp only [ne_eq, reduceCtorEq, not_false_eq_true]) with
      | @finished _ c h' => exact ⟨c, rfl, Option.some.inj hrun ▸ h'⟩

end Machines

end Div0.TwoRuns
