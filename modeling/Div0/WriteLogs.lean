import Mathlib.Order.Nat

/-!
Arrays as the writes made to them. A log lists the writes with the last one first, and a
cell holds the value of the last write that covers it, or the value all cells start with. A
finite list of cells is such an array, with the starting value behind its end.
-/

namespace Div0.WriteLogs

variable {α : Type}

/-- Values written to consecutive cells. -/
structure Write (α : Type) where
  start : ℕ
  values : List α
  deriving DecidableEq

def Write.stop (w : Write α) : ℕ := w.start + w.values.length

def overlay (cells : ℕ → α) (w : Write α) : ℕ → α := fun i =>
  if w.start ≤ i then (w.values[i - w.start]?).getD (cells i) else cells i

def replay (blank : α) : List (Write α) → ℕ → α
  | [] => fun _ => blank
  | w :: log => overlay (replay blank log) w

def span (cells : ℕ → α) (start n : ℕ) : List α := (List.range n).map fun k => cells (start + k)

def cellsOf (blank : α) (values : List α) : ℕ → α := fun i => values.getD i blank

theorem overlay_nil (cells : ℕ → α) (start : ℕ) : overlay cells ⟨start, []⟩ = cells := by
  funext i
  simp only [overlay, List.getElem?_nil, Option.getD_none, ite_self]

@[simp] theorem span_zero (cells : ℕ → α) (start : ℕ) : span cells start 0 = [] := rfl

theorem cellsOf_append_blank (blank : α) (values : List α) (n : ℕ) :
    cellsOf blank (values ++ List.replicate n blank) = cellsOf blank values := by
  funext i
  simp only [cellsOf, List.getD_eq_getElem?_getD, List.getElem?_append, List.getElem?_replicate]
  split
  · rfl
  · next h =>
    rw [List.getElem?_eq_none (not_lt.mp h)]
    split <;> rfl

/-- A list with some of its values replaced. -/
theorem cellsOf_replace (blank : α) {values new : List α} {start : ℕ}
    (h : start + new.length ≤ values.length) :
    cellsOf blank (values.take start ++ new ++ values.drop (start + new.length)) =
      overlay (cellsOf blank values) ⟨start, new⟩ := by
  funext i
  have hstart : (values.take start).length = start := by
    rw [List.length_take]
    omega
  simp only [cellsOf, overlay, List.getD_eq_getElem?_getD, List.append_assoc,
    List.getElem?_append, hstart, List.getElem?_drop, List.getElem?_take]
  by_cases hbefore : i < start
  · rw [if_pos hbefore, if_pos hbefore, if_neg (not_le.mpr hbefore)]
  · rw [if_neg hbefore, if_pos (not_lt.mp hbefore)]
    by_cases hinside : i - start < new.length
    · rw [if_pos hinside, List.getElem?_eq_getElem hinside]
      rfl
    · rw [if_neg hinside, List.getElem?_eq_none (not_lt.mp hinside)]
      rw [show start + new.length + (i - start - new.length) = i by omega]
      rfl

/-- The part of a list between two positions, with `blank` where the list has ended. -/
theorem span_cellsOf_padded (blank : α) (values : List α) (start n : ℕ) :
    span (cellsOf blank values) start n = (values.drop start).take n ++
      List.replicate (n - ((values.drop start).take n).length) blank := by
  refine List.ext_getElem? fun k => ?_
  simp only [span, cellsOf, List.getElem?_map, List.getD_eq_getElem?_getD,
    List.getElem?_append, List.getElem?_replicate, List.length_take, List.length_drop,
    List.getElem?_take, List.getElem?_drop]
  by_cases hk : k < n
  · rw [List.getElem?_range hk, Option.map_some]
    by_cases hvalue : start + k < values.length
    · rw [if_pos (by omega), if_pos hk, List.getElem?_eq_getElem hvalue]
      rfl
    · rw [if_neg (by omega), if_pos (by omega), List.getElem?_eq_none (not_lt.mp hvalue)]
      rfl
  · rw [List.getElem?_eq_none (by rw [List.length_range]; omega), if_neg (by omega),
      if_neg (by omega)]
    rfl

/-- The part of a list between two positions. -/
theorem span_cellsOf (blank : α) {values : List α} {start n : ℕ} (h : start + n ≤ values.length) :
    span (cellsOf blank values) start n = (values.drop start).take n := by
  have hlength : ((values.drop start).take n).length = n := by
    rw [List.length_take, List.length_drop]
    omega
  rw [span_cellsOf_padded, hlength, Nat.sub_self, List.replicate_zero, List.append_nil]

@[simp] theorem span_length (cells : ℕ → α) (start n : ℕ) : (span cells start n).length = n := by
  rw [span, List.length_map, List.length_range]

/-- A write of cells that were in a row elsewhere. -/
theorem overlay_span (cells stream : ℕ → α) (start source n i : ℕ) :
    overlay cells ⟨start, span stream source n⟩ i =
      if start ≤ i ∧ i < start + n then stream (source + (i - start)) else cells i := by
  simp only [overlay, span, List.getElem?_map]
  by_cases hstart : start ≤ i
  · rw [if_pos hstart]
    by_cases hstop : i < start + n
    · rw [if_pos ⟨hstart, hstop⟩, List.getElem?_range (by omega)]
      rfl
    · rw [if_neg (fun h => hstop h.2),
        List.getElem?_eq_none (by rw [List.length_range]; omega)]
      rfl
  · rw [if_neg hstart, if_neg (fun h => hstart h.1)]

end Div0.WriteLogs
