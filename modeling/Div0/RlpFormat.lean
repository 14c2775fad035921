import Div0.BigEndian
import Mathlib.Tactic.NormNum

/-!
The recursive length prefix format on byte strings. `encodeString` frames a
string, `encodeList` frames an already concatenated list payload. Reading the
first bytes of an item gives back the size of its header and of its content, so
items are prefix free: a concatenation of items splits in one way only.
-/

namespace Div0.RlpFormat

open BigEndian

/-- The length prefix: one byte up to 55, else the width of the length and the
length itself. -/
def header (short long n : ℕ) : Bytes :=
  if n < 56 then [UInt8.ofNat (short + n)]
  else UInt8.ofNat (long + byteLength n) :: toBytes (byteLength n) n

def IsSingle (s : Bytes) : Prop := ∃ b, s = [b] ∧ b.toNat ≤ 0x7f

instance (s : Bytes) : Decidable (IsSingle s) :=
  match s with
  | [b] =>
    if h : b.toNat ≤ 0x7f then isTrue ⟨b, rfl, h⟩
    else isFalse (by rintro ⟨c, hc, hle⟩; cases hc; exact h hle)
  | [] => isFalse (by rintro ⟨c, hc, -⟩; cases hc)
  | _ :: _ :: _ => isFalse (by rintro ⟨c, hc, -⟩; cases hc)

def encodeString (s : Bytes) : Bytes :=
  if IsSingle s then s else header 0x80 0xb7 s.length ++ s

def encodeList (payload : Bytes) : Bytes := header 0xc0 0xf7 payload.length ++ payload

def readHeader : Bytes → ℕ × ℕ
  | [] => (0, 0)
  | b :: rest =>
    if b.toNat < 0x80 then (0, 1)
    else if b.toNat ≤ 0xb7 then (1, b.toNat - 0x80)
    else if b.toNat ≤ 0xbf then
      (1 + (b.toNat - 0xb7), ofBytes (rest.take (b.toNat - 0xb7)))
    else if b.toNat ≤ 0xf7 then (1, b.toNat - 0xc0)
    else (1 + (b.toNat - 0xf7), ofBytes (rest.take (b.toNat - 0xf7)))

def content (x : Bytes) : Bytes := x.drop (readHeader x).1

theorem header_length (short long n : ℕ) :
    (header short long n).length = if n < 56 then 1 else 1 + byteLength n := by
  unfold header
  split
  · rfl
  · rw [List.length_cons, toBytes_length]; omega

theorem header_length_pos (short long n : ℕ) : 0 < (header short long n).length := by
  rw [header_length]; split <;> omega

private theorem byteLength_range {n : ℕ} (hlow : ¬n < 56) (hn : n < 2 ^ 64) :
    1 ≤ byteLength n ∧ byteLength n ≤ 8 :=
  ⟨byteLength_pos (by omega), byteLength_le_eight hn⟩

/-- A header is read back from its first byte and the length bytes after it. -/
private theorem readHeader_header {short long n : ℕ} (hn : n < 2 ^ 64) (rest : Bytes)
    (hshort : n < 56 → ∀ xs, readHeader (UInt8.ofNat (short + n) :: xs) = (1, n))
    (hlong : ∀ k xs, 1 ≤ k → k ≤ 8 →
      readHeader (UInt8.ofNat (long + k) :: xs) = (1 + k, ofBytes (xs.take k))) :
    readHeader (header short long n ++ rest) = ((header short long n).length, n) := by
  rw [header_length]
  unfold header
  split
  · next h => exact hshort h _
  · next h =>
    obtain ⟨hlow, hhigh⟩ := byteLength_range h hn
    rw [List.cons_append, hlong _ _ hlow hhigh, List.take_left' (toBytes_length _ _),
      ofBytes_toBytes_byteLength]

theorem readHeader_string {n : ℕ} (hn : n < 2 ^ 64) (rest : Bytes) :
    readHeader (header 0x80 0xb7 n ++ rest) = ((header 0x80 0xb7 n).length, n) := by
  refine readHeader_header hn rest (fun h xs => ?_) (fun k xs hlow hhigh => ?_)
  · rw [readHeader, UInt8.toNat_ofNat', Nat.mod_eq_of_lt (by omega), if_neg (by omega),
      if_pos (by omega), Nat.add_sub_cancel_left]
  · rw [readHeader, UInt8.toNat_ofNat', Nat.mod_eq_of_lt (by omega), if_neg (by omega),
      if_neg (by omega), if_pos (by omega), Nat.add_sub_cancel_left]

theorem readHeader_list {n : ℕ} (hn : n < 2 ^ 64) (rest : Bytes) :
    readHeader (header 0xc0 0xf7 n ++ rest) = ((header 0xc0 0xf7 n).length, n) := by
  refine readHeader_header hn rest (fun h xs => ?_) (fun k xs hlow hhigh => ?_)
  · rw [readHeader, UInt8.toNat_ofNat', Nat.mod_eq_of_lt (by omega), if_neg (by omega),
      if_neg (by omega), if_neg (by omega), if_pos (by omega), Nat.add_sub_cancel_left]
  · rw [readHeader, UInt8.toNat_ofNat', Nat.mod_eq_of_lt (by omega), if_neg (by omega),
      if_neg (by omega), if_neg (by omega), if_neg (by omega), Nat.add_sub_cancel_left]

/-- The byte strings that frame one string or one list. -/
inductive IsItem : Bytes → Prop
  | string (s : Bytes) (h : s.length < 2 ^ 64) : IsItem (encodeString s)
  | list (payload : Bytes) (h : payload.length < 2 ^ 64) : IsItem (encodeList payload)

theorem readHeader_encodeString {s : Bytes} (h : s.length < 2 ^ 64) (rest : Bytes) :
    readHeader (encodeString s ++ rest) =
      ((encodeString s).length - s.length, s.length) := by
  unfold encodeString
  split
  · next hs =>
    obtain ⟨b, rfl, hb⟩ := hs
    simp only [List.cons_append, readHeader, if_pos (show b.toNat < 0x80 by omega),
      List.length_singleton, Nat.sub_self]
  · rw [List.append_assoc, readHeader_string h, List.length_append, Nat.add_sub_cancel]

theorem readHeader_encodeList {payload : Bytes} (h : payload.length < 2 ^ 64) (rest : Bytes) :
    readHeader (encodeList payload ++ rest) =
      ((encodeList payload).length - payload.length, payload.length) := by
  unfold encodeList
  rw [List.append_assoc, readHeader_list h, List.length_append, Nat.add_sub_cancel]

theorem length_le_encodeString (s : Bytes) : s.length ≤ (encodeString s).length := by
  unfold encodeString
  split
  · exact le_rfl
  · rw [List.length_append]; omega

def framedBound (n : ℕ) : ℕ := n + 1 + byteLength n

theorem framedBound_mono {a b : ℕ} (h : a ≤ b) : framedBound a ≤ framedBound b := by
  have := byteLength_mono h
  unfold framedBound
  omega

theorem encodeString_length_le (s : Bytes) : (encodeString s).length ≤ framedBound s.length := by
  unfold encodeString framedBound
  split
  · omega
  · rw [List.length_append, header_length]
    split <;> omega

theorem length_le_encodeList (payload : Bytes) : payload.length ≤ (encodeList payload).length := by
  unfold encodeList
  rw [List.length_append]; omega

theorem encodeString_ne_nil (s : Bytes) : encodeString s ≠ [] := by
  unfold encodeString
  split
  · next hs => obtain ⟨b, rfl, -⟩ := hs; simp
  · intro hnil
    have := header_length_pos 0x80 0xb7 s.length
    rw [(List.append_eq_nil_iff.mp hnil).1] at this
    simp at this

/-- The first bytes of an item followed by anything announce the item's length. -/
theorem IsItem.length_eq {x : Bytes} (hx : IsItem x) (rest : Bytes) :
    (readHeader (x ++ rest)).1 + (readHeader (x ++ rest)).2 = x.length := by
  cases hx with
  | string s h =>
    rw [readHeader_encodeString h]
    have := length_le_encodeString s
    simp only
    omega
  | list payload h =>
    rw [readHeader_encodeList h]
    have := length_le_encodeList payload
    simp only
    omega

/-- Items are prefix free. -/
theorem IsItem.append_inj {x y r s : Bytes} (hx : IsItem x) (hy : IsItem y)
    (h : x ++ r = y ++ s) : x = y ∧ r = s := by
  have hlen : x.length = y.length := by
    rw [← hx.length_eq r, ← hy.length_eq s, h]
  exact List.append_inj h hlen

theorem content_encodeString {s : Bytes} (h : s.length < 2 ^ 64) :
    content (encodeString s) = s := by
  have hread := readHeader_encodeString h []
  rw [List.append_nil] at hread
  rw [content, hread]
  unfold encodeString
  split
  · rw [Nat.sub_self, List.drop_zero]
  · rw [List.length_append, Nat.add_sub_cancel, List.drop_left' rfl]

theorem content_encodeList {payload : Bytes} (h : payload.length < 2 ^ 64) :
    content (encodeList payload) = payload := by
  have hread := readHeader_encodeList h []
  rw [List.append_nil] at hread
  rw [content, hread]
  unfold encodeList
  rw [List.length_append, Nat.add_sub_cancel, List.drop_left' rfl]

theorem encodeString_injective {s t : Bytes} (hs : s.length < 2 ^ 64) (ht : t.length < 2 ^ 64)
    (h : encodeString s = encodeString t) : s = t := by
  rw [← content_encodeString hs, ← content_encodeString ht, h]

theorem encodeList_injective {p q : Bytes} (hp : p.length < 2 ^ 64) (hq : q.length < 2 ^ 64)
    (h : encodeList p = encodeList q) : p = q := by
  rw [← content_encodeList hp, ← content_encodeList hq, h]

private theorem header_head (short long n : ℕ) :
    ∃ (k : ℕ) (rest : Bytes), header short long n = UInt8.ofNat k :: rest ∧
      ((n < 56 ∧ k = short + n) ∨ (¬n < 56 ∧ k = long + byteLength n)) := by
  unfold header
  split
  · exact ⟨_, _, rfl, Or.inl ⟨by assumption, rfl⟩⟩
  · exact ⟨_, _, rfl, Or.inr ⟨by assumption, rfl⟩⟩

/-- The first byte of a framed string is at most `0xbf`. -/
theorem encodeString_head {s : Bytes} (h : s.length < 2 ^ 64) :
    ∃ (b : UInt8) (rest : Bytes), encodeString s = b :: rest ∧ b.toNat ≤ 0xbf := by
  unfold encodeString
  split
  · next hs =>
    obtain ⟨b, rfl, hb⟩ := hs
    exact ⟨b, [], rfl, by omega⟩
  · obtain ⟨k, rest, hk, hcases⟩ := header_head 0x80 0xb7 s.length
    refine ⟨UInt8.ofNat k, rest ++ s, by rw [hk]; rfl, ?_⟩
    rw [UInt8.toNat_ofNat']
    rcases hcases with ⟨hs, rfl⟩ | ⟨hs, rfl⟩
    · omega
    · have := byteLength_le_eight h
      omega

/-- The first byte of a framed list is at least `0xc0`. -/
theorem encodeList_head {p : Bytes} (h : p.length < 2 ^ 64) :
    ∃ (b : UInt8) (rest : Bytes), encodeList p = b :: rest ∧ 0xc0 ≤ b.toNat := by
  obtain ⟨k, rest, hk, hcases⟩ := header_head 0xc0 0xf7 p.length
  refine ⟨UInt8.ofNat k, rest ++ p, by unfold encodeList; rw [hk]; rfl, ?_⟩
  rw [UInt8.toNat_ofNat']
  rcases hcases with ⟨hs, rfl⟩ | ⟨hs, rfl⟩
  · omega
  · have := byteLength_range hs h
    omega

theorem encodeList_ne_nil (payload : Bytes) : encodeList payload ≠ [] := by
  intro hnil
  have hpos := header_length_pos 0xc0 0xf7 payload.length
  rw [(List.append_eq_nil_iff.mp hnil).1] at hpos
  exact Nat.lt_irrefl 0 hpos

theorem encodeString_ne_encodeList {s p : Bytes} (hs : s.length < 2 ^ 64)
    (hp : p.length < 2 ^ 64) : encodeString s ≠ encodeList p := by
  obtain ⟨a, ra, ha, hlow⟩ := encodeString_head hs
  obtain ⟨b, rb, hb, hhigh⟩ := encodeList_head hp
  rw [ha, hb]
  intro heq
  obtain ⟨rfl, -⟩ := List.cons.inj heq
  omega

theorem IsItem.ne_nil {x : Bytes} (hx : IsItem x) : x ≠ [] := by
  cases hx with
  | string s h => exact encodeString_ne_nil s
  | list payload h =>
    obtain ⟨b, rest, hb, -⟩ := encodeList_head h
    rw [hb]
    exact List.cons_ne_nil _ _

/-- A concatenation of items splits in one way only. -/
theorem flatten_injective {xs ys : List Bytes} (hxs : ∀ x ∈ xs, IsItem x)
    (hys : ∀ y ∈ ys, IsItem y) (h : xs.flatten = ys.flatten) : xs = ys := by
  induction xs generalizing ys with
  | nil =>
    cases ys with
    | nil => rfl
    | cons y ys =>
      rw [List.flatten_nil, List.flatten_cons, eq_comm, List.append_eq_nil_iff] at h
      exact absurd h.1 (hys y List.mem_cons_self).ne_nil
  | cons x xs ih =>
    cases ys with
    | nil =>
      rw [List.flatten_nil, List.flatten_cons, List.append_eq_nil_iff] at h
      exact absurd h.1 (hxs x List.mem_cons_self).ne_nil
    | cons y ys =>
      rw [List.flatten_cons, List.flatten_cons] at h
      obtain ⟨rfl, hrest⟩ :=
        (hxs x List.mem_cons_self).append_inj (hys y List.mem_cons_self) h
      rw [ih (fun z hz => hxs z (List.mem_cons_of_mem _ hz))
        (fun z hz => hys z (List.mem_cons_of_mem _ hz)) hrest]

end Div0.RlpFormat
