import Div0.RlpFormat

/-!
Trees of framed items and the tokens they are written as. A leaf is an item that is
framed already, a list frames the concatenation of its items. A token is a framed
string or the header of a list; since no token is the beginning of another, a byte
string has at most one reading as a sequence of tokens.
-/

namespace Div0.RlpTree

open BigEndian RlpFormat

inductive Tree where
  | leaf (item : Bytes)
  | list (items : List Tree)

mutual
def encode : Tree → Bytes
  | .leaf item => item
  | .list items => encodeList (encodeAll items)

def encodeAll : List Tree → Bytes
  | [] => []
  | t :: ts => encode t ++ encodeAll ts
end

mutual
def tokens : Tree → List Bytes
  | .leaf item => [item]
  | .list items => header 0xc0 0xf7 (encodeAll items).length :: tokensAll items

def tokensAll : List Tree → List Bytes
  | [] => []
  | t :: ts => tokens t ++ tokensAll ts
end

theorem encodeAll_eq (ts : List Tree) : encodeAll ts = (ts.map encode).flatten := by
  induction ts with
  | nil => rfl
  | cons t ts ih => rw [encodeAll, ih, List.map_cons, List.flatten_cons]

theorem encodeAll_append (ts us : List Tree) :
    encodeAll (ts ++ us) = encodeAll ts ++ encodeAll us := by
  simp only [encodeAll_eq, List.map_append, List.flatten_append]

/-- A framed string or the header of a list. -/
inductive IsToken : Bytes → Prop
  | string (s : Bytes) (h : s.length < 2 ^ 64) : IsToken (encodeString s)
  | opening (n : ℕ) (h : n < 2 ^ 64) : IsToken (header 0xc0 0xf7 n)

theorem header_list_head {n : ℕ} (h : n < 2 ^ 64) :
    ∃ (b : UInt8) (rest : Bytes), header 0xc0 0xf7 n = b :: rest ∧ 0xc0 ≤ b.toNat := by
  unfold header
  split
  · next hshort =>
    refine ⟨_, _, rfl, ?_⟩
    rw [UInt8.toNat_ofNat', Nat.mod_eq_of_lt (by omega)]
    omega
  · next hlong =>
    refine ⟨_, _, rfl, ?_⟩
    have hle := byteLength_le_eight h
    have hpos := byteLength_pos (show n ≠ 0 by omega)
    rw [UInt8.toNat_ofNat', Nat.mod_eq_of_lt (by omega)]
    omega

theorem header_list_append_inj {m n : ℕ} (hm : m < 2 ^ 64) (hn : n < 2 ^ 64) {r s : Bytes}
    (h : header 0xc0 0xf7 m ++ r = header 0xc0 0xf7 n ++ s) : m = n ∧ r = s := by
  have hread := congrArg readHeader h
  rw [readHeader_list hm, readHeader_list hn, Prod.mk.injEq] at hread
  obtain ⟨-, rfl⟩ := hread
  exact ⟨rfl, List.append_cancel_left h⟩

theorem IsToken.ne_nil {x : Bytes} (hx : IsToken x) : x ≠ [] := by
  cases hx with
  | string s h => exact encodeString_ne_nil s
  | opening n h =>
    obtain ⟨b, rest, hb, -⟩ := header_list_head h
    rw [hb]
    exact List.cons_ne_nil _ _

/-- A string is told from a list header by its first byte. -/
theorem encodeString_append_ne_header {s r t : Bytes} {n : ℕ} (hs : s.length < 2 ^ 64)
    (hn : n < 2 ^ 64) : encodeString s ++ r ≠ header 0xc0 0xf7 n ++ t := by
  obtain ⟨a, ra, ha, hlow⟩ := encodeString_head hs
  obtain ⟨b, rb, hb, hhigh⟩ := header_list_head hn
  intro heq
  rw [ha, hb, List.cons_append, List.cons_append] at heq
  have hhead := (List.cons.inj heq).1
  rw [hhead] at hlow
  omega

/-- No token is the beginning of another. -/
theorem IsToken.append_inj {x y r s : Bytes} (hx : IsToken x) (hy : IsToken y)
    (h : x ++ r = y ++ s) : x = y ∧ r = s := by
  cases hx with
  | string a ha =>
    cases hy with
    | string b hb => exact (IsItem.string a ha).append_inj (IsItem.string b hb) h
    | opening n hn => exact absurd h (encodeString_append_ne_header ha hn)
  | opening m hm =>
    cases hy with
    | string b hb => exact absurd h.symm (encodeString_append_ne_header hb hm)
    | opening n hn =>
      obtain ⟨rfl, hrest⟩ := header_list_append_inj hm hn h
      exact ⟨rfl, hrest⟩

/-- Of two readings of one byte string, the one that stops earlier is the beginning of
the other. -/
theorem isPrefix_of_flatten {xs ys : List Bytes} {rest : Bytes} (hxs : ∀ x ∈ xs, IsToken x)
    (hys : ∀ y ∈ ys, IsToken y) (h : xs.flatten = ys.flatten ++ rest) : ys <+: xs := by
  induction ys generalizing xs with
  | nil => exact List.nil_prefix
  | cons y ys ih =>
    rw [List.flatten_cons, List.append_assoc] at h
    cases xs with
    | nil =>
      have hnil := (List.append_eq_nil_iff.mp h.symm).1
      exact absurd hnil (hys y List.mem_cons_self).ne_nil
    | cons x xs =>
      rw [List.flatten_cons] at h
      obtain ⟨rfl, hrest⟩ := (hxs x List.mem_cons_self).append_inj (hys y List.mem_cons_self) h
      have hprefix := ih (fun z hz => hxs z (List.mem_cons_of_mem _ hz))
        (fun z hz => hys z (List.mem_cons_of_mem _ hz)) hrest
      exact (List.prefix_cons_inj x).mpr hprefix

def encodeNat (n : ℕ) : Bytes := encodeString (toBytes (byteLength n) n)

end Div0.RlpTree
