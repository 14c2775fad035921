import Div0.RlpDecode

/-!
Sequences of calls on one decoder. Every decoder moves its position forward and stays
inside the input. `rlp_skip_item` adds a length of up to eight bytes to the position in
64 bits: where the sum wraps around, the decoder stands still or goes back.
-/

namespace Div0.DecoderRuns

open BigEndian RlpFormat Uint256 RlpDecode

/-- The calls a user of the decoder can make. -/
inductive Call where
  | bytes
  | u64
  | uint256
  | address
  | listHeader
  | skipItem
  deriving DecidableEq, Repr

def Call.perform (d : Decoder) : Call → Decoder
  | .bytes => (rlpDecodeBytes d).2
  | .u64 => (rlpDecodeU64 d).2
  | .uint256 => (rlpDecodeUint256 d).2
  | .address => (rlpDecodeAddress d).2
  | .listHeader => (rlpDecodeListHeader d).2
  | .skipItem => rlpSkipItem d

def performed : List Call → Decoder → List (Call × Decoder)
  | [], _ => []
  | c :: cs, d => (c, d) :: performed cs (c.perform d)

/-- How far the item at the position goes by its own header, over the integers. Of a
header that is cut off only the bytes that are there count. -/
def announced (d : Decoder) : ℕ :=
  min (readHeader d.rest).1 d.remaining + (readHeader d.rest).2

/-- The end of the item wraps around `size_t` to a position that is not ahead. -/
def WrapsBack (d : Decoder) : Prop := 2 ^ 64 ≤ d.pos + announced d ∧ announced d ≤ 2 ^ 64

instance (d : Decoder) : Decidable (WrapsBack d) := inferInstanceAs (Decidable (_ ∧ _))

/-- What a caller relies on in one call. -/
structure Sound (c : Call) (d : Decoder) : Prop where
  bounded : (c.perform d).pos ≤ d.input.length
  forward : d.pos ≤ (c.perform d).pos
  progress : d.pos < d.input.length → d.pos < (c.perform d).pos
  view : c = .bytes → ∀ r, (rlpDecodeBytes d).1 = .ok r →
    ∃ start, d.pos ≤ start ∧ start + r.value.length = (c.perform d).pos ∧
      r.value = (d.input.drop start).take r.value.length
  skips : c = .skipItem → ∀ item tail, IsItem item → d.rest = item ++ tail →
    (c.perform d).pos = d.pos + item.length

def Moves (d d' : Decoder) : Prop :=
  ∃ n, d' = d.advance n ∧ n ≤ d.remaining ∧ (d.hasMore = true → 0 < n)

section Decoders

variable {d : Decoder}

theorem Moves.of_not_hasMore (h : ¬d.hasMore = true) : Moves d d :=
  ⟨0, rfl, Nat.zero_le _, fun hmore => absurd hmore h⟩

theorem remaining_pos (h : d.hasMore = true) : 0 < d.remaining :=
  Nat.sub_pos_of_lt (of_decide_eq_true h)

theorem remaining_advance (n : ℕ) : (d.advance n).remaining = d.remaining - n := by
  rw [Decoder.remaining, Decoder.remaining, Decoder.advance_input, Decoder.advance_pos,
    Nat.sub_add_eq]

/-- A call that has read the first byte and then `n` more. -/
theorem Moves.of_advance (h : d.hasMore = true) {n : ℕ} (hn : n ≤ (d.advance 1).remaining) :
    Moves d (d.advance (1 + n)) := by
  have hpos := remaining_pos h
  rw [remaining_advance] at hn
  exact ⟨1 + n, rfl, by omega, fun _ => by omega⟩

theorem decodeLength_moves (n : ℕ) :
    ∃ k, (decodeLength d n).2 = d.advance k ∧ k ≤ d.remaining := by
  unfold decodeLength
  split
  · exact ⟨0, rfl, Nat.zero_le _⟩
  · next hroom =>
    split
    · exact ⟨0, rfl, Nat.zero_le _⟩
    · exact ⟨n, rfl, not_lt.mp hroom⟩

theorem rlpDecodeBytes_moves (d : Decoder) : Moves d (rlpDecodeBytes d).2 := by
  unfold rlpDecodeBytes
  split
  · next hmore =>
    have hfirst := Moves.of_advance hmore (Nat.zero_le _)
    simp only
    split
    · exact hfirst
    · split
      · split
        · exact hfirst
        · next hroom =>
          split
          · exact hfirst
          · rw [Decoder.advance_advance]
            exact Moves.of_advance hmore (not_lt.mp hroom)
      · split
        · obtain ⟨k, hk, hle⟩ := @decodeLength_moves (d.advance 1) (d.peek.toNat - 0xb7)
          have hlength := Moves.of_advance hmore hle
          split
          · next heq =>
            rw [heq, Decoder.advance_advance] at hk
            exact hk ▸ hlength
          · next len d2 heq =>
            rw [heq, Decoder.advance_advance] at hk
            split
            · exact hk ▸ hlength
            · split
              · exact hk ▸ hlength
              · next hroom =>
                obtain rfl : d2 = d.advance (1 + k) := hk
                have hend : k + len ≤ (d.advance 1).remaining := by
                  rw [← Decoder.advance_advance, remaining_advance] at hroom
                  omega
                rw [Decoder.advance_advance, Nat.add_assoc 1 k len]
                exact Moves.of_advance hmore hend
        · exact hfirst
  · next hmore => exact Moves.of_not_hasMore hmore

theorem decodeInteger_snd {α : Type} (width : ℕ) (read : Bytes → α) :
    (decodeInteger width read d).2 = (rlpDecodeBytes d).2 := by
  unfold decodeInteger
  split
  · next h => rw [h]
  · next h =>
    rw [h]
    split
    · rfl
    · split
      · rfl
      · split <;> rfl

theorem rlpDecodeAddress_snd : (rlpDecodeAddress d).2 = (rlpDecodeBytes d).2 := by
  unfold rlpDecodeAddress
  split
  · next h => rw [h]
  · next h =>
    rw [h]
    split <;> rfl

theorem rlpDecodeListHeader_moves (d : Decoder) : Moves d (rlpDecodeListHeader d).2 := by
  unfold rlpDecodeListHeader
  split
  · next hmore =>
    have hfirst := Moves.of_advance hmore (Nat.zero_le _)
    simp only
    split
    · exact hfirst
    · split
      · exact hfirst
      · obtain ⟨k, hk, hle⟩ := @decodeLength_moves (d.advance 1) (d.peek.toNat - 0xf7)
        have hlength := Moves.of_advance hmore hle
        split
        · next heq =>
          rw [heq, Decoder.advance_advance] at hk
          exact hk ▸ hlength
        · next heq =>
          rw [heq, Decoder.advance_advance] at hk
          split <;> exact hk ▸ hlength
  · next hmore => exact Moves.of_not_hasMore hmore

/-- All calls but `rlp_skip_item` move as they should. -/
theorem Call.moves {c : Call} (h : c ≠ .skipItem) (d : Decoder) : Moves d (c.perform d) := by
  have hbytes := rlpDecodeBytes_moves d
  cases c with
  | bytes => exact hbytes
  | u64 =>
    rw [perform, rlpDecodeU64, decodeInteger_snd]
    exact hbytes
  | uint256 =>
    rw [perform, rlpDecodeUint256, decodeInteger_snd]
    exact hbytes
  | address =>
    rw [perform, rlpDecodeAddress_snd]
    exact hbytes
  | listHeader => exact rlpDecodeListHeader_moves d
  | skipItem => exact absurd rfl h

/-- The content of a string stands at the end of its encoding. -/
theorem encodeString_suffix (s : Bytes) : ∃ lead, encodeString s = lead ++ s := by
  unfold encodeString
  split
  · exact ⟨[], rfl⟩
  · exact ⟨_, rfl⟩

/-- The view `rlp_decode_bytes` returns ends where the decoder stands. -/
theorem rlpDecodeBytes_view {r : Decoded Bytes} (h : (rlpDecodeBytes d).1 = .ok r) :
    ∃ start, d.pos ≤ start ∧ start + r.value.length = (rlpDecodeBytes d).2.pos ∧
      r.value = (d.input.drop start).take r.value.length := by
  obtain ⟨-, -, hread⟩ := rlpDecodeBytes_ok (Prod.ext h rfl)
  obtain ⟨lead, hlead⟩ := encodeString_suffix r.value
  have hbytes := hread.bytes
  rw [List.flatten_singleton, hlead, List.append_assoc] at hbytes
  have hstart : d.input.drop (d.pos + lead.length) = r.value ++ (rlpDecodeBytes d).2.rest := by
    rw [← List.drop_drop, ← Decoder.rest, hbytes, List.drop_left' rfl]
  refine ⟨d.pos + lead.length, Nat.le_add_right _ _, ?_, ?_⟩
  · have hmoved : (rlpDecodeBytes d).2.pos = d.pos + (lead ++ r.value).length := by
      rw [← hlead, ← List.flatten_singleton (l := encodeString r.value)]
      exact congrArg Decoder.pos hread.moved
    rw [hmoved, List.length_append, Nat.add_assoc]
  · rw [hstart, List.take_left' rfl]

end Decoders

section Skipping

variable {d : Decoder}

theorem skipTo_input (d : Decoder) (len : ℕ) : (skipTo d len).input = d.input := rfl

theorem skipTo_pos_le (len : ℕ) : (skipTo d len).pos ≤ d.input.length := by
  unfold skipTo
  simp only
  split
  · next h => exact h.le
  · exact le_rfl

/-- A skip gets ahead unless its end wraps around to a position that is not ahead. -/
theorem lt_skipTo_pos_iff {len : ℕ} (hpos : d.pos < d.input.length)
    (hsize : d.input.length < 2 ^ 64) (hlen : 0 < len) (hend : d.pos + len < 2 ^ 65) :
    d.pos < (skipTo d len).pos ↔ ¬(2 ^ 64 ≤ d.pos + len ∧ len ≤ 2 ^ 64) := by
  unfold skipTo
  simp only
  split <;> omega

theorem skipTo_advance (m n : ℕ) : skipTo (d.advance m) n = skipTo d (m + n) := by
  unfold skipTo
  simp only [Decoder.advance_input, Decoder.advance_pos, Nat.add_assoc]

/-- The length bytes of a header, as many as are there. -/
theorem skipLength_eq (hmore : d.hasMore = true) {lenOfLen : ℕ} (h : lenOfLen ≤ 8) :
    skipLength (d.advance 1) lenOfLen =
      (ofBytes ((d.advance 1).rest.take lenOfLen),
        d.advance (min (1 + lenOfLen) d.remaining)) := by
  have hpos := remaining_pos hmore
  have hcount : 1 + ((d.advance 1).view lenOfLen).length = min (1 + lenOfLen) d.remaining := by
    rw [Decoder.view, List.length_take, ← Decoder.remaining_eq, remaining_advance]
    omega
  have hwidth : ((d.advance 1).view lenOfLen).length ≤ 8 := by
    rw [Decoder.view, List.length_take]
    omega
  rw [skipLength, limbOfBytes_toNat hwidth, Decoder.advance_advance, hcount]
  rfl

/-- `rlp_skip_item` goes as far as the item's header says, in 64 bits. -/
theorem rlpSkipItem_eq (hmore : d.hasMore = true) (hsize : d.input.length < 2 ^ 64) :
    rlpSkipItem d = skipTo d (announced d) := by
  have hlt : d.pos < d.input.length := of_decide_eq_true hmore
  have hpos := remaining_pos hmore
  have hbyte := d.peek.toNat_lt
  unfold rlpSkipItem announced
  rw [if_pos hmore, Decoder.rest_of_hasMore hmore]
  simp only [readHeader, Nat.lt_succ_iff]
  split
  · rw [Nat.zero_min, Nat.zero_add, skipTo_of_le hlt hsize]
  · split
    · rw [min_eq_left hpos]
    · split
      · rw [skipLength_eq hmore (by omega), skipTo_advance]
      · split
        · rw [min_eq_left hpos]
        · rw [skipLength_eq hmore (by omega), skipTo_advance]

/-- A header takes a byte or announces one, and a length of eight bytes at most. -/
theorem readHeader_bounds (b : UInt8) (rest : Bytes) :
    0 < (readHeader (b :: rest)).1 + (readHeader (b :: rest)).2 ∧
      (readHeader (b :: rest)).2 < 2 ^ 64 := by
  have hbyte := b.toNat_lt
  have hlength {k : ℕ} (hk : k ≤ 8) : ofBytes (rest.take k) < 2 ^ 64 :=
    calc ofBytes (rest.take k) < 256 ^ (rest.take k).length := ofBytes_lt _
      _ ≤ 256 ^ 8 := Nat.pow_le_pow_right (by norm_num)
          (by rw [List.length_take]; omega)
      _ = 2 ^ 64 := by norm_num
  simp only [readHeader]
  split
  · norm_num
  · split
    · exact ⟨by omega, by simp only; omega⟩
    · split
      · refine ⟨by omega, ?_⟩
        simp only
        exact hlength (by omega)
      · split
        · exact ⟨by omega, by simp only; omega⟩
        · refine ⟨by omega, ?_⟩
          simp only
          exact hlength (by omega)

theorem announced_bounds (hmore : d.hasMore = true) (hsize : d.input.length < 2 ^ 64) :
    0 < announced d ∧ d.pos + announced d < 2 ^ 65 := by
  have hpos := remaining_pos hmore
  have hremaining : d.pos + d.remaining = d.input.length :=
    Nat.add_sub_cancel' (of_decide_eq_true hmore : d.pos < d.input.length).le
  obtain ⟨hsome, hlt⟩ := readHeader_bounds d.peek (d.advance 1).rest
  rw [← Decoder.rest_of_hasMore hmore] at hsome hlt
  unfold announced
  omega

/-- `rlp_skip_item` gets ahead unless the end of the item wraps around. -/
theorem lt_rlpSkipItem_pos_iff (hmore : d.hasMore = true) (hsize : d.input.length < 2 ^ 64) :
    d.pos < (rlpSkipItem d).pos ↔ ¬WrapsBack d := by
  obtain ⟨hsome, hend⟩ := announced_bounds hmore hsize
  rw [rlpSkipItem_eq hmore hsize]
  exact lt_skipTo_pos_iff (of_decide_eq_true hmore) hsize hsome hend

/-- The header of a complete item announces its end. -/
theorem announced_item {item tail : Bytes} (hitem : IsItem item) (h : d.rest = item ++ tail) :
    announced d = item.length := by
  have hlen := hitem.length_eq tail
  have hroom : item.length ≤ d.remaining := by
    rw [Decoder.remaining_eq, h, List.length_append]
    exact Nat.le_add_right _ _
  rw [announced, h]
  omega

theorem rlpSkipItem_item {item tail : Bytes} (hitem : IsItem item)
    (hsize : d.input.length < 2 ^ 64) (h : d.rest = item ++ tail) :
    rlpSkipItem d = d.advance item.length := by
  have hlength := congrArg List.length h
  rw [← Decoder.remaining_eq, Decoder.remaining, List.length_append] at hlength
  have hsome := List.length_pos_of_ne_nil hitem.ne_nil
  have hmore : d.hasMore = true := decide_eq_true (by omega)
  rw [rlpSkipItem_eq hmore hsize, announced_item hitem h, skipTo_of_le (by omega) hsize]

end Skipping

section Runs

variable {d : Decoder}

theorem rlpSkipItem_input (d : Decoder) : (rlpSkipItem d).input = d.input := by
  unfold rlpSkipItem
  split
  · simp only [skipLength, skipTo_input, apply_ite Decoder.input, Decoder.advance_input, ite_self]
  · rfl

theorem Call.perform_input (c : Call) : (c.perform d).input = d.input := by
  by_cases hc : c = .skipItem
  · rw [hc]
    exact rlpSkipItem_input d
  · obtain ⟨n, hn, -⟩ := Call.moves hc d
    rw [hn, Decoder.advance_input]

/-- A call that moves as it should is sound, skips apart. -/
theorem Sound.of_moves {c : Call} (hc : c ≠ .skipItem) (hpos : d.pos ≤ d.input.length) :
    Sound c d := by
  obtain ⟨n, hn, hle, hsome⟩ := Call.moves hc d
  rw [Decoder.remaining] at hle
  constructor
  · rw [hn, Decoder.advance_pos]
    omega
  · rw [hn, Decoder.advance_pos]
    exact Nat.le_add_right _ _
  · intro hlt
    have := hsome (decide_eq_true hlt)
    rw [hn, Decoder.advance_pos]
    omega
  · rintro rfl r hr
    exact rlpDecodeBytes_view hr
  · exact fun h => absurd h hc

/-- A skip is sound unless the end of the item wraps around. -/
theorem sound_skipItem_iff (hpos : d.pos ≤ d.input.length) (hsize : d.input.length < 2 ^ 64) :
    Sound .skipItem d ↔ (d.hasMore = true → ¬WrapsBack d) := by
  constructor
  · intro h hmore
    exact (lt_rlpSkipItem_pos_iff hmore hsize).mp (h.progress (of_decide_eq_true hmore))
  · intro h
    have hexact : ∀ item tail, IsItem item → d.rest = item ++ tail →
        (rlpSkipItem d).pos = d.pos + item.length := by
      intro item tail hitem hrest
      rw [rlpSkipItem_item hitem hsize hrest, Decoder.advance_pos]
    by_cases hmore : d.hasMore = true
    · have hlt := (lt_rlpSkipItem_pos_iff hmore hsize).mpr (h hmore)
      have hend : (rlpSkipItem d).pos ≤ d.input.length := by
        rw [rlpSkipItem_eq hmore hsize]
        exact skipTo_pos_le _
      exact ⟨hend, hlt.le, fun _ => hlt, fun hc => (by cases hc), fun _ => hexact⟩
    · have hstill : rlpSkipItem d = d := by rw [rlpSkipItem, if_neg hmore]
      have hdone : ¬d.pos < d.input.length := fun hlt => hmore (decide_eq_true hlt)
      refine ⟨?_, ?_, fun hlt => absurd hlt hdone, fun hc => (by cases hc), fun _ => hexact⟩
      · exact (congrArg Decoder.pos hstill).trans_le hpos
      · exact (congrArg Decoder.pos hstill).ge

theorem sound_iff (c : Call) (hpos : d.pos ≤ d.input.length) (hsize : d.input.length < 2 ^ 64) :
    Sound c d ↔ (c = .skipItem → d.hasMore = true → ¬WrapsBack d) := by
  by_cases hc : c = .skipItem
  · subst hc
    rw [sound_skipItem_iff hpos hsize]
    exact ⟨fun h _ => h, fun h => h rfl⟩
  · exact ⟨fun _ h => absurd h hc, fun _ => Sound.of_moves hc hpos⟩

/-- Also a skip that goes back stays inside the input. -/
theorem Call.perform_pos_le (c : Call) (hpos : d.pos ≤ d.input.length)
    (hsize : d.input.length < 2 ^ 64) : (c.perform d).pos ≤ d.input.length := by
  by_cases hc : c = .skipItem
  · subst hc
    by_cases hmore : d.hasMore = true
    · rw [perform, rlpSkipItem_eq hmore hsize]
      exact skipTo_pos_le _
    · rw [perform, rlpSkipItem, if_neg hmore]
      exact hpos
  · exact (Sound.of_moves hc hpos).bounded

/-- Every call of a run is made on the same input, at a position inside it. -/
theorem performed_bounded {calls : List Call} (hpos : d.pos ≤ d.input.length)
    (hsize : d.input.length < 2 ^ 64) :
    ∀ made ∈ performed calls d, made.2.input = d.input ∧ made.2.pos ≤ d.input.length := by
  induction calls generalizing d with
  | nil =>
    intro made hmade
    cases hmade
  | cons c cs ih =>
    intro made hmade
    have hinput := c.perform_input (d := d)
    rcases List.mem_cons.mp hmade with rfl | htail
    · exact ⟨rfl, hpos⟩
    · have hnext := c.perform_pos_le hpos hsize
      rw [← hinput] at hnext hsize
      have := ih hnext hsize made htail
      rwa [hinput] at this

/-- In a run of calls on an input every call is sound, exactly if no skip is made at an
item whose announced end wraps around `size_t`. -/
theorem calls_sound_iff (input : Bytes) (hsize : input.length < 2 ^ 64) (calls : List Call) :
    (∀ made ∈ performed calls ⟨input, 0⟩, Sound made.1 made.2) ↔
      ∀ made ∈ performed calls ⟨input, 0⟩,
        made.1 = .skipItem → made.2.hasMore = true → ¬WrapsBack made.2 := by
  refine forall₂_congr fun made hmade => ?_
  obtain ⟨hinput, hpos⟩ := performed_bounded (d := ⟨input, 0⟩) (Nat.zero_le _) hsize made hmade
  exact sound_iff made.1 (hinput.symm ▸ hpos) (hinput.symm ▸ hsize)

def wrappingItem : Bytes := [0xbf, 0xff, 0xff, 0xff, 0xff, 0xff, 0xff, 0xff, 0xf7]

/-- A list of two short strings, read item by item. -/
theorem calls_sound_pair :
    ([0xc3, 0x01, 0x81, 0x80] : Bytes).length < 2 ^ 64 ∧
      ∀ made ∈ performed [.listHeader, .bytes, .skipItem] ⟨[0xc3, 0x01, 0x81, 0x80], 0⟩,
        Sound made.1 made.2 :=
  ⟨by decide, (calls_sound_iff [0xc3, 0x01, 0x81, 0x80] (by decide)
    [.listHeader, .bytes, .skipItem]).mpr (by decide)⟩

/-- A skip at the item stays where it is. -/
theorem calls_not_sound :
    ¬∀ (input : Bytes), input.length < 2 ^ 64 → ∀ (calls : List Call),
      ∀ made ∈ performed calls ⟨input, 0⟩, Sound made.1 made.2 := by
  intro h
  have hsound := h wrappingItem (by decide) [.skipItem] (.skipItem, ⟨wrappingItem, 0⟩)
    (List.mem_singleton.mpr rfl)
  have hstill : (Call.perform ⟨wrappingItem, 0⟩ .skipItem).pos = 0 := by decide
  have hlt := hsound.progress (by decide)
  rw [hstill] at hlt
  exact absurd hlt (lt_irrefl 0)

end Runs

end Div0.DecoderRuns
