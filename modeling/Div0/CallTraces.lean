import Mathlib.Data.List.Basic
import Mathlib.Data.List.Induction

/-!
Properties along a sequence of calls: a condition that every call meets, given the calls
before it, and a property of all the points a sequence passes through.
-/

namespace Div0.CallTraces

variable {α : Type*}

/-- Every call of a sequence meets a condition, which may look at the calls before it. -/
def EachCall (cond : List α → α → Prop) (ops : List α) : Prop :=
  ∀ before op after, ops = before ++ op :: after → cond before op

/-- Something is true of the calls made so far at every point of a sequence. -/
def Throughout (good : List α → Prop) (ops : List α) : Prop :=
  ∀ before after, ops = before ++ after → good before

variable {cond : List α → α → Prop} {good : List α → Prop} {ops : List α}

@[simp] theorem eachCall_nil : EachCall cond [] := by
  intro before op after h
  exact absurd h.symm (List.append_ne_nil_of_right_ne_nil _ (List.cons_ne_nil _ _))

@[simp] theorem eachCall_cons {op : α} :
    EachCall cond (op :: ops) ↔ cond [] op ∧ EachCall (fun before => cond (op :: before)) ops := by
  constructor
  · intro h
    exact ⟨h [] op ops rfl, fun before o after hops => h (op :: before) o after (by rw [hops]; rfl)⟩
  · rintro ⟨hfirst, hrest⟩ before o after hops
    cases before with
    | nil =>
      obtain ⟨rfl, -⟩ := List.cons.inj hops
      exact hfirst
    | cons b before =>
      obtain ⟨rfl, htail⟩ := List.cons.inj hops
      exact hrest before o after htail

/-- If a call that meets a condition keeps things good, they are good throughout when every
call meets it. -/
theorem throughout_of_eachCall (hnil : good [])
    (hstep : ∀ before op after, ops = before ++ op :: after → good before → cond before op →
      good (before ++ [op])) (hcond : EachCall cond ops) : Throughout good ops := by
  intro before
  induction before using List.reverseRecOn with
  | nil => exact fun _ _ => hnil
  | append_singleton before op ih =>
    intro after hops
    rw [← List.append_cons] at hops
    exact hstep before op after hops (ih _ hops) (hcond before op after hops)

/-- If, as long as things are good, a call keeps them so exactly when it meets a condition,
they are good throughout exactly when every call meets it. -/
theorem throughout_iff (hnil : good [])
    (hstep : ∀ before op after, ops = before ++ op :: after → good before →
      (good (before ++ [op]) ↔ cond before op)) :
    Throughout good ops ↔ EachCall cond ops := by
  constructor
  · intro hgood before op after hops
    have hnext : ops = (before ++ [op]) ++ after := hops.trans (List.append_cons ..)
    exact (hstep before op after hops (hgood before _ hops)).mp (hgood _ after hnext)
  · exact throughout_of_eachCall hnil fun before op after hops hgood =>
      (hstep before op after hops hgood).mpr

theorem Throughout.last (h : Throughout good ops) : good ops := h ops [] (List.append_nil ops).symm

end Div0.CallTraces
