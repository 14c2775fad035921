import Div0.RlpEncode

/-!
Nested lists built in place. Writing a tree opens a list with a placeholder of nine
bytes, writes the items and closes it again. `peak` is the most bytes of the block in
use while a tree is written: with that much room the result is the encoding of the
tree. With less room some append is lost; then the block holds fewer tokens than the
tree has, unless a placeholder was lost and closing its list writes out of bounds.
-/

namespace Div0.RlpBuilder

open BigEndian Buffer RlpFormat RlpTree RlpEncode

mutual
/-- `rlp_list_append` of an item; `rlp_list_start`, the items and `rlp_list_end` of a list. -/
def writeTree (alloc : Alloc) : Tree → Buf → Buf
  | .leaf item, output => output.append! alloc item
  | .list items, output =>
    let (out, headerPos) := rlpListStart alloc output
    rlpListEnd (writeAll alloc items out) headerPos

def writeAll (alloc : Alloc) : List Tree → Buf → Buf
  | [], output => output
  | t :: ts, output => writeAll alloc ts (writeTree alloc t output)
end

mutual
def peak : Tree → ℕ
  | .leaf item => item.length
  | .list items => rlpMaxHeaderSize + peakAll items

def peakAll : List Tree → ℕ
  | [] => 0
  | t :: ts => max (peak t) ((encode t).length + peakAll ts)
end

theorem header_length_le {n : ℕ} (h : n < 2 ^ 64) :
    (header 0xc0 0xf7 n).length ≤ rlpMaxHeaderSize := by
  have hle := byteLength_le_eight h
  have hheader : rlpMaxHeaderSize = 9 := rfl
  rw [header_length]
  split <;> omega

mutual
theorem encode_length_le_peak (t : Tree) (h : peak t < 2 ^ 64) : (encode t).length ≤ peak t := by
  cases t with
  | leaf item => exact le_rfl
  | list items =>
    rw [peak] at h ⊢
    have hitems := encodeAll_length_le_peakAll items (by omega)
    have hheader := header_length_le (show (encodeAll items).length < 2 ^ 64 by omega)
    rw [encode, encodeList, List.length_append]
    omega

theorem encodeAll_length_le_peakAll (ts : List Tree) (h : peakAll ts < 2 ^ 64) :
    (encodeAll ts).length ≤ peakAll ts := by
  cases ts with
  | nil => exact le_rfl
  | cons t ts =>
    rw [peakAll] at h ⊢
    have hrest := encodeAll_length_le_peakAll ts (by omega)
    rw [encodeAll, List.length_append]
    omega
end

section Fits

variable {alloc : Alloc} {room : ℕ}

mutual
/-- With room for its peak, a tree is written as its encoding. -/
theorem writeTree_eq (hroom : room < 2 ^ 64) (t : Tree) (data : Bytes)
    (h : data.length + peak t ≤ room) :
    writeTree alloc t (inRoom room data) = inRoom room (data ++ encode t) := by
  cases t with
  | leaf item => exact append_inRoom h
  | list items =>
    rw [peak] at h
    have hstart : rlpListStart alloc (inRoom room data) =
        (inRoom room (data ++ List.replicate rlpMaxHeaderSize 0), data.length) := by
      rw [rlpListStart, append_inRoom (by rw [List.length_replicate]; omega)]
      rfl
    have hitems := writeAll_eq hroom items (data ++ List.replicate rlpMaxHeaderSize 0)
      (by rw [List.length_append, List.length_replicate]; omega)
    simp only [writeTree, hstart, hitems]
    rw [List.append_assoc, rlpListEnd_eq]
    rfl

theorem writeAll_eq (hroom : room < 2 ^ 64) (ts : List Tree) (data : Bytes)
    (h : data.length + peakAll ts ≤ room) :
    writeAll alloc ts (inRoom room data) = inRoom room (data ++ encodeAll ts) := by
  cases ts with
  | nil => rw [writeAll, encodeAll, List.append_nil]
  | cons t ts =>
    rw [peakAll] at h
    rw [writeAll, writeTree_eq hroom t data (by omega),
      writeAll_eq hroom ts _ (by rw [List.length_append]; omega), encodeAll, List.append_assoc]
end

end Fits

section Data

/-- Strings and lists of them, as the format knows them. -/
inductive Rlp where
  | string (s : Bytes)
  | list (items : List Rlp)

mutual
def Rlp.encode : Rlp → Bytes
  | .string s => encodeString s
  | .list items => encodeList (Rlp.encodeAll items)

def Rlp.encodeAll : List Rlp → Bytes
  | [] => []
  | r :: rs => r.encode ++ Rlp.encodeAll rs
end

mutual
/-- What a tree stands for whose leaves are encoded already. -/
inductive Stands : Tree → Rlp → Prop
  | leaf (r : Rlp) : Stands (.leaf r.encode) r
  | list {ts : List Tree} {rs : List Rlp} (h : StandsAll ts rs) : Stands (.list ts) (.list rs)

inductive StandsAll : List Tree → List Rlp → Prop
  | nil : StandsAll [] []
  | cons {t : Tree} {ts : List Tree} {r : Rlp} {rs : List Rlp} (h : Stands t r)
      (hs : StandsAll ts rs) : StandsAll (t :: ts) (r :: rs)
end

mutual
theorem Stands.encode_eq {t : Tree} {r : Rlp} (h : Stands t r) : encode t = r.encode := by
  cases h with
  | leaf r => rw [encode]
  | list h => rw [encode, Rlp.encode, h.encodeAll_eq]

theorem StandsAll.encodeAll_eq {ts : List Tree} {rs : List Rlp} (h : StandsAll ts rs) :
    encodeAll ts = Rlp.encodeAll rs := by
  cases h with
  | nil => rfl
  | cons h hs => rw [encodeAll, Rlp.encodeAll, h.encode_eq, hs.encodeAll_eq]
end

mutual
def openLists : Tree → ℕ
  | .leaf _ => 0
  | .list items => openListsAll items + 1

def openListsAll : List Tree → ℕ
  | [] => 0
  | t :: ts => max (openLists t) (openListsAll ts)
end

mutual
/-- Beyond the final size, only the placeholders of the open lists are needed. -/
theorem peak_le (t : Tree) : peak t ≤ (encode t).length + rlpMaxHeaderSize * openLists t := by
  cases t with
  | leaf item => exact Nat.le_add_right _ _
  | list items =>
    have hitems := peakAll_le items
    have hpayload := length_le_encodeList (encodeAll items)
    rw [peak, encode, openLists, Nat.mul_add_one]
    omega

theorem peakAll_le (ts : List Tree) :
    peakAll ts ≤ (encodeAll ts).length + rlpMaxHeaderSize * openListsAll ts := by
  cases ts with
  | nil => exact Nat.zero_le _
  | cons t ts =>
    have hfirst := peak_le t
    have hrest := peakAll_le ts
    have hleft := Nat.mul_le_mul_left rlpMaxHeaderSize
      (Nat.le_max_left (openLists t) (openListsAll ts))
    have hright := Nat.mul_le_mul_left rlpMaxHeaderSize
      (Nat.le_max_right (openLists t) (openListsAll ts))
    rw [peakAll, encodeAll, openListsAll, List.length_append]
    omega
end

/-- A tree whose leaves are encoded items is appended as its canonical encoding to what is in
the buffer, if the capacity covers the final size and nine bytes for each list open at once. -/
theorem writeTree_appends (alloc : Alloc) (room : ℕ) (hroom : room < 2 ^ 64) (data : Bytes)
    (t : Tree) (r : Rlp) (hstands : Stands t r)
    (h : data.length + r.encode.length + rlpMaxHeaderSize * openLists t ≤ room) :
    writeTree alloc t (inRoom room data) = inRoom room (data ++ r.encode) := by
  have hpeak := peak_le t
  rw [← hstands.encode_eq] at h ⊢
  exact writeTree_eq hroom t data (by omega)

/-- A list in a list, behind a byte that is there already. -/
theorem writeTree_appends_nested :
    writeTree arenaAlloc (.list [.leaf (encodeString [5]), .list [.leaf (encodeString [0x80])]])
        (inRoom 24 [1]) =
      inRoom 24 ([1] ++ (Rlp.list [.string [5], .list [.string [0x80]]]).encode) :=
  writeTree_appends arenaAlloc 24 (by decide) [1] _ _
    (.list (.cons (.leaf (.string [5])) (.cons (.list (.cons (.leaf (.string [0x80])) .nil)) .nil)))
    (by decide)

end Data

/-- Closing a list never makes the string longer. -/
theorem rlpListEnd_length_le {room : ℕ} (hroom : room < 2 ^ 64) (output : Buf) (headerPos : ℕ)
    (h : output.data.length ≤ room) : (rlpListEnd output headerPos).data.length ≤ room := by
  unfold rlpListEnd
  split
  · exact h
  · next hsize =>
    have hsize' : headerPos + rlpMaxHeaderSize ≤ output.data.length := not_lt.mp hsize
    have hheader := header_length_le
      (show output.size - headerPos - rlpMaxHeaderSize < 2 ^ 64 by unfold Buf.size; omega)
    simp only [listHeader_eq, List.length_append, List.length_take, List.length_drop]
    omega

theorem rlpListEnd_block (output : Buf) (headerPos : ℕ) :
    (rlpListEnd output headerPos).block = output.block := by
  unfold rlpListEnd
  split <;> rfl

theorem writeAll_append {alloc : Alloc} (ts us : List Tree) (b : Buf) :
    writeAll alloc (ts ++ us) b = writeAll alloc us (writeAll alloc ts b) := by
  induction ts generalizing b with
  | nil => rfl
  | cons t ts ih => exact ih (writeTree alloc t b)

section Block

variable {alloc : Alloc} {room : ℕ} {b : Buf}

/-- The buffer has a block of `room` bytes, and does not go beyond it. -/
structure InBlock (room : ℕ) (b : Buf) : Prop where
  block : b.block = some room
  size : b.data.length ≤ room

theorem append!_inBlock (h : InBlock room b) (src : Bytes) :
    InBlock room (b.append! alloc src) := by
  obtain ⟨hblock, hsize⟩ := h
  by_cases hsrc : src = []
  · rw [hsrc, Buf.append!_of_room hblock (by simpa using hsize)]
    exact ⟨hblock, by simpa using hsize⟩
  by_cases hfit : b.data.length + src.length ≤ room
  · rw [Buf.append!_of_room hblock hfit]
    exact ⟨hblock, by rwa [List.length_append]⟩
  · rw [Buf.append!_of_full hblock (by omega) hsrc]
    exact ⟨hblock, hsize⟩

mutual
/-- Whatever is written stays within the block. -/
theorem writeTree_inBlock (hroom : room < 2 ^ 64) (t : Tree) (b : Buf) (h : InBlock room b) :
    InBlock room (writeTree alloc t b) := by
  cases t with
  | leaf item => exact append!_inBlock h item
  | list items =>
    have hstart := @append!_inBlock alloc _ _ h (List.replicate rlpMaxHeaderSize 0)
    have hitems := writeAll_inBlock hroom items _ hstart
    constructor
    · simp only [writeTree, rlpListStart, rlpListEnd_block]
      exact hitems.block
    · exact rlpListEnd_length_le hroom _ _ hitems.size

theorem writeAll_inBlock (hroom : room < 2 ^ 64) (ts : List Tree) (b : Buf) (h : InBlock room b) :
    InBlock room (writeAll alloc ts b) := by
  cases ts with
  | nil => exact h
  | cons t ts => exact writeAll_inBlock hroom ts _ (writeTree_inBlock hroom t b h)
end

/-- An item longer than the whole block leaves no trace in a list. -/
theorem writeTree_lost (hroom : room < 2 ^ 64) (h : InBlock room b) {item : Bytes}
    (hlong : room < item.length) (ts us : List Tree) :
    writeTree alloc (.list (ts ++ .leaf item :: us)) b =
      writeTree alloc (.list (ts ++ us)) b := by
  have hstart := @append!_inBlock alloc _ _ h (List.replicate rlpMaxHeaderSize 0)
  have hitems := @writeAll_inBlock alloc room hroom ts _ hstart
  have hlost := @Buf.append!_of_full alloc _ item _ hitems.block (by omega)
    (List.ne_nil_of_length_pos (by omega))
  simp only [writeTree, rlpListStart, writeAll_append, writeAll, hlost]

theorem isPrefix_rlpListEnd {inner : Buf} (h : b.data <+: inner.data) :
    b.data <+: (rlpListEnd inner b.size).data := by
  unfold rlpListEnd
  by_cases hshort : inner.size < b.size + rlpMaxHeaderSize
  · rw [if_pos hshort]
    exact h
  · rw [if_neg hshort]
    dsimp only
    rw [Buf.size, ← List.prefix_iff_eq_take.mp h, List.append_assoc]
    exact List.prefix_append _ _

mutual
/-- What stands before a tree is kept. -/
theorem isPrefix_writeTree (t : Tree) (b : Buf) : b.data <+: (writeTree alloc t b).data := by
  cases t with
  | leaf item => exact Buf.isPrefix_append! alloc b item
  | list items =>
    have hstart := Buf.isPrefix_append! alloc b (List.replicate rlpMaxHeaderSize 0)
    exact isPrefix_rlpListEnd (hstart.trans (isPrefix_writeAll items _))

theorem isPrefix_writeAll (ts : List Tree) (b : Buf) : b.data <+: (writeAll alloc ts b).data := by
  cases ts with
  | nil => exact List.prefix_rfl
  | cons t ts => exact (isPrefix_writeTree t b).trans (isPrefix_writeAll ts _)
end

end Block

/-- What writing `full` tokens does to a buffer whose block has `room` bytes and that
would need `need` more of them. -/
structure Kept (room : ℕ) (before after : Buf) (full need : ℕ) : Prop
    extends InBlock room after where
  overrun : before.overrun = true → after.overrun = true
  tokens : after.overrun = false → ∃ toks : List Bytes, after.data = before.data ++ toks.flatten ∧
    (∀ x ∈ toks, IsToken x) ∧ toks.length ≤ full ∧
    (toks.length = full → before.data.length + need ≤ room)

theorem Kept.overrun_before {room full need : ℕ} {before after : Buf}
    (h : Kept room before after full need) (hover : after.overrun = false) :
    before.overrun = false := by
  by_contra hne
  rw [h.overrun (Bool.eq_true_of_not_eq_false hne)] at hover
  cases hover

theorem rlpListEnd_overrun {output : Buf} (headerPos : ℕ) (h : output.overrun = true) :
    (rlpListEnd output headerPos).overrun = true := by
  unfold rlpListEnd
  split
  · rfl
  · exact h

mutual
def LeafTokens : Tree → Prop
  | .leaf item => IsToken item
  | .list items => LeafTokensAll items

def LeafTokensAll : List Tree → Prop
  | [] => True
  | t :: ts => LeafTokens t ∧ LeafTokensAll ts
end

section Kept

variable {alloc : Alloc} {room : ℕ} {b : Buf}

theorem kept_leaf (h : InBlock room b) {item : Bytes} (hitem : IsToken item) :
    Kept room b (b.append! alloc item) 1 item.length := by
  by_cases hfit : b.data.length + item.length ≤ room
  · rw [Buf.append!_of_room h.block hfit]
    refine ⟨⟨h.block, ?_⟩, fun h => h, fun _ => ⟨[item], ?_, ?_, le_rfl, fun _ => hfit⟩⟩
    · simpa only [List.length_append] using hfit
    · simp
    · intro x hx
      rw [List.mem_singleton.mp hx]
      exact hitem
  · rw [Buf.append!_of_full h.block (by omega) hitem.ne_nil]
    refine ⟨h, fun h => h, fun _ => ⟨[], ?_, ?_, Nat.zero_le _, ?_⟩⟩
    · simp
    · intro x hx
      cases hx
    · intro hcount
      cases hcount

/-- A list whose placeholder was lost is closed out of bounds. -/
theorem kept_list_lost (hlost : room < b.data.length + rlpMaxHeaderSize) {inner : Buf}
    {full need : ℕ} (hinner : Kept room b inner full need) (total : ℕ) (want : ℕ) :
    Kept room b (rlpListEnd inner b.size) total want := by
  have hshort : inner.size < b.size + rlpMaxHeaderSize :=
    lt_of_le_of_lt hinner.size hlost
  have hend : rlpListEnd inner b.size = { inner with overrun := true } := by
    rw [rlpListEnd, if_pos hshort]
  rw [hend]
  exact ⟨⟨hinner.block, hinner.size⟩, fun _ => rfl, fun h => by cases h⟩

/-- A list whose placeholder is in place is closed with the header of what was kept. -/
theorem kept_list (hroom : room < 2 ^ 64) {inner : Buf} {full need : ℕ}
    (hinner : Kept room { b with data := b.data ++ List.replicate rlpMaxHeaderSize 0 } inner
      full need) :
    Kept room b (rlpListEnd inner b.size) (full + 1) (rlpMaxHeaderSize + need) := by
  refine ⟨⟨?_, rlpListEnd_length_le hroom _ _ hinner.size⟩, ?_, ?_⟩
  · rw [rlpListEnd_block]
    exact hinner.block
  · intro hover
    exact rlpListEnd_overrun _ (hinner.overrun hover)
  · intro hover
    have hinnerOver : inner.overrun = false := by
      by_contra hne
      rw [rlpListEnd_overrun _ (Bool.eq_true_of_not_eq_false hne)] at hover
      cases hover
    obtain ⟨toks, hdata, htoks, hle, hfull⟩ := hinner.tokens hinnerOver
    have hsize := hinner.size
    simp only [List.append_assoc] at hdata
    have hshape : inner = inRoom room
        (b.data ++ (List.replicate rlpMaxHeaderSize 0 ++ toks.flatten)) := by
      rw [← hdata, inRoom, ← hinner.block, ← hinnerOver]
    have hclosed : rlpListEnd inner b.size = inRoom room (b.data ++ encodeList toks.flatten) := by
      rw [hshape]
      exact rlpListEnd_eq b.data toks.flatten
    refine ⟨header 0xc0 0xf7 toks.flatten.length :: toks, ?_, ?_, ?_, ?_⟩
    · rw [hclosed]
      rfl
    · intro x hx
      rcases List.mem_cons.mp hx with rfl | hmem
      · rw [hdata, List.length_append, List.length_append] at hsize
        exact IsToken.opening _ (by omega)
      · exact htoks x hmem
    · rw [List.length_cons]
      omega
    · intro hcount
      rw [List.length_cons] at hcount
      have hneed := hfull (by omega)
      rw [List.length_append, List.length_replicate] at hneed
      omega

/-- Writing one thing after another, when a complete first part has the length `len`. -/
theorem Kept.trans {mid after : Buf} {full full' need need' len : ℕ}
    (h : Kept room b mid full need) (h' : Kept room mid after full' need')
    (hlen : b.overrun = false → b.data.length + need ≤ room →
      mid.data.length = b.data.length + len) :
    Kept room b after (full + full') (max need (len + need')) := by
  refine ⟨h'.toInBlock, fun hover => h'.overrun (h.overrun hover), ?_⟩
  intro hover
  have hmid := h'.overrun_before hover
  obtain ⟨toks, hdata, htoks, hle, hfull⟩ := h.tokens hmid
  obtain ⟨toks', hdata', htoks', hle', hfull'⟩ := h'.tokens hover
  refine ⟨toks ++ toks', ?_, ?_, ?_, ?_⟩
  · rw [hdata', hdata, List.flatten_append, List.append_assoc]
  · intro x hx
    rcases List.mem_append.mp hx with hmem | hmem
    · exact htoks x hmem
    · exact htoks' x hmem
  · rw [List.length_append]
    omega
  · intro hcount
    rw [List.length_append] at hcount
    have hneed := hfull (by omega)
    have hneed' := hfull' (by omega)
    rw [hlen (h.overrun_before hmid) hneed] at hneed'
    omega

mutual
/-- Writing a tree keeps all its tokens only if there is room for its peak. -/
theorem kept_writeTree (hroom : room < 2 ^ 64) (t : Tree) (ht : LeafTokens t) (b : Buf)
    (h : InBlock room b) :
    Kept room b (writeTree alloc t b) (tokens t).length (peak t) := by
  cases t with
  | leaf item => exact kept_leaf h ht
  | list items =>
    have hzeros : (List.replicate rlpMaxHeaderSize (0 : UInt8)).length = rlpMaxHeaderSize :=
      List.length_replicate
    simp only [writeTree, rlpListStart, tokens, peak, List.length_cons]
    by_cases hfit : b.data.length + rlpMaxHeaderSize ≤ room
    · rw [Buf.append!_of_room h.block (by rw [hzeros]; exact hfit)]
      exact kept_list hroom (kept_writeAll hroom items ht _ ⟨h.block,
        by rw [List.length_append, hzeros]; exact hfit⟩)
    · rw [Buf.append!_of_full h.block (by rw [hzeros]; omega) (by decide)]
      exact kept_list_lost (by omega) (kept_writeAll hroom items ht b h) _ _

theorem kept_writeAll (hroom : room < 2 ^ 64) (ts : List Tree) (hts : LeafTokensAll ts) (b : Buf)
    (h : InBlock room b) :
    Kept room b (writeAll alloc ts b) (tokensAll ts).length (peakAll ts) := by
  cases ts with
  | nil =>
    refine ⟨h, fun h => h, fun _ => ⟨[], ?_, ?_, le_rfl, ?_⟩⟩
    · simp [writeAll]
    · intro x hx
      cases hx
    · intro _
      simpa [peakAll] using h.size
  | cons t ts =>
    have hfirst := kept_writeTree hroom t hts.1 b h
    have hrest := kept_writeAll hroom ts hts.2 _ hfirst.toInBlock
    rw [tokensAll, List.length_append, writeAll, peakAll]
    refine hfirst.trans hrest ?_
    intro hover hfit
    have hshape : b = inRoom room b.data := by rw [inRoom, ← h.block, ← hover]
    rw [hshape, writeTree_eq hroom t b.data hfit, List.length_append]
end

end Kept

end Div0.RlpBuilder
