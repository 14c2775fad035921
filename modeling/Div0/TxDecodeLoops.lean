import Div0.DecoderRuns
import Div0.TxCanonical
import Mathlib.Data.Finset.Card

/-!
Where decoding a transaction stops. The loops over access lists and authorization lists
read an item in each round, so the bytes of the input bound the number of rounds. The
loop that counts blob hashes skips items instead: at the end of the input, or where an
announced length wraps around, a skip does not get ahead, and the loop may never reach
the announced end of the list.
-/

namespace Div0.TxDecodeLoops

open BigEndian Buffer Containers RlpFormat RlpDecode DecoderRuns TxFields TxCodec TxFields.Decode
open TxFieldLaws TxAccepts TxCanonical

def Stuck {α : Type} (x : Decode α) (d : Decoder) : Prop := (x d).1 = .error .outOfFuel

variable {α β : Type} {item : Decode α} {count : α → ℕ} {f : α → Decode β} {d : Decoder}
  {vectors : Growth}

section Steps

theorem stuck_bind {x : Decode α} :
    Stuck (x >>= f) d ↔ Stuck x d ∨ ∃ a d1, x d = (.ok a, d1) ∧ Stuck (f a) d1 := by
  unfold Stuck
  rcases hx : x d with ⟨a | a, d1⟩
  · rw [bind_eq_of_error hx]
    constructor
    · exact fun h => Or.inl (congrArg Except.error (Except.error.inj h))
    · rintro (h | ⟨a, d2, heq, -⟩)
      · exact congrArg Except.error (Except.error.inj h)
      · cases heq
  · rw [bind_eq_of_ok hx]
    constructor
    · exact fun h => Or.inr ⟨a, d1, rfl, h⟩
    · rintro (h | ⟨a, d2, heq, h⟩)
      · cases h
      · cases heq
        exact h

theorem not_stuck_bind {x : Decode α} :
    ¬Stuck (x >>= f) d ↔ ¬Stuck x d ∧ ∀ a d1, x d = (.ok a, d1) → ¬Stuck (f a) d1 := by
  rw [stuck_bind, not_or]
  simp only [not_exists, not_and]

theorem not_stuck_pure (a : α) : ¬Stuck (pure a) d := by
  intro h
  cases h

theorem not_stuck_rejected (e : TxDecodeError) : ¬Stuck (fail (.rejected e) : Decode α) d := by
  intro h
  cases h

theorem not_stuck_ofRlp (f : Decoder → Result α) : ¬Stuck (ofRlp f) d := by
  unfold Stuck ofRlp
  split <;> exact nofun

theorem not_stuck_listHeader : ¬Stuck decodeListHeader d := by
  unfold Stuck decodeListHeader
  split <;> exact nofun

end Steps

def Completes {α : Type} (room : ℕ) (x : Decode α) : Prop :=
  ∀ d : Decoder, d.rest.length < room → ¬Stuck x d

section Completing

variable {room : ℕ} {d' : Decoder}

/-- Every token takes a byte. -/
theorem readsTokens_length_le {n : ℕ} (h : ReadsTokens d n d') :
    d'.rest.length + n ≤ d.rest.length := by
  obtain ⟨toks, htoks, hcount, hreads⟩ := h
  have hlen : toks.length ≤ toks.flatten.length :=
    length_le_flatten fun x hx => (htoks x hx).ne_nil
  rw [hreads.bytes, List.length_append]
  omega

theorem Completes.bind {x : Decode α} (hx : Completes room x) (hcount : Counts x count)
    (hf : ∀ a, Completes room (f a)) : Completes room (x >>= f) := by
  intro d hroom hstuck
  rcases stuck_bind.mp hstuck with h | ⟨a, d1, ha, h⟩
  · exact hx d hroom h
  · have hle := readsTokens_length_le (hcount d a d1 ha)
    exact hf a d1 (by omega) h

theorem completes_pure (a : α) : Completes room (pure a : Decode α) :=
  fun _ _ => not_stuck_pure a

theorem completes_rejected (e : TxDecodeError) :
    Completes room (fail (.rejected e) : Decode α) :=
  fun _ _ => not_stuck_rejected e

theorem completes_ofRlp (f : Decoder → Result α) : Completes room (ofRlp f) :=
  fun _ _ => not_stuck_ofRlp f

theorem completes_listHeader : Completes room decodeListHeader :=
  fun _ _ => not_stuck_listHeader

/-- Every round leaves fewer bytes. -/
theorem completes_whileBelow (hitem : Completes room item) (hcount : Counts item count)
    (hsome : ∀ a, 0 < count a) (bound : ℕ) :
    ∀ fuel (d : Decoder), d.rest.length < fuel → d.rest.length < room →
      ¬Stuck (whileBelow item fuel bound) d := by
  intro fuel
  induction fuel with
  | zero => exact fun d h => absurd h (Nat.not_lt_zero _)
  | succ fuel ih =>
    intro d hfuel hroom hstuck
    rw [whileBelow] at hstuck
    rcases stuck_bind.mp hstuck with h | ⟨c, d1, hc, h⟩
    · cases h
    · obtain ⟨rfl, rfl⟩ := decoder_ok.mp hc
      split at h
      · rcases stuck_bind.mp h with h | ⟨first, d2, hfirst, h⟩
        · exact hitem d hroom h
        · have hle := readsTokens_length_le (hcount d first d2 hfirst)
          have hpos := hsome first
          rcases stuck_bind.mp h with h | ⟨rest, d3, -, h⟩
          · exact ih d2 (by omega) (by omega) h
          · exact not_stuck_pure _ h
      · exact not_stuck_pure _ h

theorem completes_listOf (hitem : Completes room item) (hcount : Counts item count)
    (hsome : ∀ a, 0 < count a) {taken : ℕ → Bool} : Completes room (listOf taken item room) := by
  refine completes_listHeader.bind counts_listHeader fun header d hroom hstuck => ?_
  split at hstuck
  · exact not_stuck_pure _ hstuck
  · rcases stuck_bind.mp hstuck with h | ⟨c, d1, hc, h⟩
    · cases h
    · obtain ⟨rfl, rfl⟩ := decoder_ok.mp hc
      rcases stuck_bind.mp h with h | ⟨items, d2, -, h⟩
      · exact completes_whileBelow hitem hcount hsome _ room d hroom hroom h
      · exact not_stuck_pure _ h

theorem completes_yParity : Completes room decodeYParity :=
  (completes_ofRlp _).bind counts_u64 fun _ => completes_pure _

theorem completes_optionalAddress (alloc : Alloc) :
    Completes room (decodeOptionalAddress alloc) := by
  refine (completes_ofRlp _).bind counts_bytes fun bytes => ?_
  split
  · exact completes_pure _
  · split
    · split
      · exact completes_pure _
      · exact completes_rejected _
    · exact completes_rejected _

theorem completes_txData (alloc : Alloc) : Completes room (decodeTxData alloc) := by
  refine (completes_ofRlp _).bind counts_bytes fun bytes => ?_
  split
  · split
    · exact completes_pure _
    · exact completes_rejected _
  · exact completes_pure _

theorem completes_accessEntry : Completes room (decodeAccessEntry vectors room) := by
  refine completes_listHeader.bind counts_listHeader fun header => ?_
  refine (completes_ofRlp _).bind counts_address fun address => ?_
  refine (completes_listOf (completes_ofRlp _) counts_uint256 fun _ => Nat.one_pos).bind
    (counts_listOf counts_uint256 room) fun keys => ?_
  exact completes_pure _

theorem completes_authorization : Completes room decodeAuthorization := by
  refine completes_listHeader.bind counts_listHeader fun header => ?_
  refine (completes_ofRlp _).bind counts_u64 fun chainId => ?_
  refine (completes_ofRlp _).bind counts_address fun address => ?_
  refine (completes_ofRlp _).bind counts_u64 fun nonce => ?_
  refine completes_yParity.bind counts_yParity fun yParity => ?_
  refine (completes_ofRlp _).bind counts_uint256 fun r => ?_
  exact (completes_ofRlp _).bind counts_uint256 fun s => completes_pure _

/-- All fields but the blob hashes are read in bounded time. -/
theorem completes_field (alloc : Alloc) {kind : Kind} (h : kind ≠ .blobHashes) :
    Completes room (decodeField vectors alloc room kind) := by
  cases kind with
  | u64 => exact completes_ofRlp _
  | uint256 => exact completes_ofRlp _
  | yParity => exact completes_yParity
  | optionalAddress => exact completes_optionalAddress alloc
  | address => exact completes_ofRlp _
  | data => exact completes_txData alloc
  | accessList =>
    exact completes_listOf completes_accessEntry (counts_accessEntry room) fun _ => by omega
  | authorizationList =>
    exact completes_listOf completes_authorization counts_authorization fun _ => by omega
  | blobHashes => exact absurd rfl h

theorem completes_fields (alloc : Alloc) {kinds : List Kind} (h : .blobHashes ∉ kinds) :
    Completes room (decodeFields vectors alloc room kinds) := by
  induction kinds with
  | nil => exact completes_pure _
  | cons kind kinds ih =>
    obtain ⟨hkind, hkinds⟩ := not_or.mp (mt List.mem_cons.mpr h)
    exact (completes_field alloc (Ne.symm hkind)).bind
      (counts_field alloc room formatEncoders kind) fun value =>
        (ih hkinds).bind (counts_fields alloc room formatEncoders kinds) fun values =>
          completes_pure _

end Completing

def Stable {α : Type} (x : ℕ → Decode α) : Prop :=
  ∀ fuel more d, ¬Stuck (x fuel) d → x (fuel + more) d = x fuel d

section Fuel

/-- Two runs whose loops have stopped agree. -/
theorem Stable.agree {x : ℕ → Decode α} (h : Stable x) {m n : ℕ} (hm : ¬Stuck (x m) d)
    (hn : ¬Stuck (x n) d) : x m d = x n d := by
  rw [← h m n d hm, ← h n m d hn, Nat.add_comm]

theorem stable_const (x : Decode α) : Stable fun _ => x := fun _ _ _ _ => rfl

theorem bind_congr {x y : Decode α} {f g : α → Decode β} (hx : y d = x d)
    (hf : ∀ a d1, x d = (.ok a, d1) → g a d1 = f a d1) : (y >>= g) d = (x >>= f) d := by
  rcases h : x d with ⟨e | a, d1⟩
  · rw [bind_eq_of_error h, bind_eq_of_error (hx.trans h)]
  · rw [bind_eq_of_ok h, bind_eq_of_ok (hx.trans h)]
    exact hf a d1 h

theorem Stable.bind {x : ℕ → Decode α} {f : ℕ → α → Decode β} (hx : Stable x)
    (hf : ∀ a, Stable fun n => f n a) : Stable fun n => x n >>= f n := by
  intro fuel more d hdone
  obtain ⟨hfirst, hrest⟩ := not_stuck_bind.mp hdone
  exact bind_congr (hx fuel more d hfirst) fun a d1 ha => hf a fuel more d1 (hrest a d1 ha)

/-- The rounds and the fuel of a single round are bounded apart. -/
theorem whileBelow_stable {item : ℕ → Decode α} (hitem : Stable item) (inner extra bound : ℕ) :
    ∀ fuel more d, ¬Stuck (whileBelow (item inner) fuel bound) d →
      whileBelow (item (inner + extra)) (fuel + more) bound d =
        whileBelow (item inner) fuel bound d := by
  intro fuel
  induction fuel with
  | zero => exact fun _ _ h => absurd rfl h
  | succ fuel ih =>
    intro more d hdone
    rw [Nat.succ_add, whileBelow, whileBelow]
    rw [whileBelow, not_stuck_bind] at hdone
    refine bind_congr rfl fun c d1 hc => ?_
    have hround := hdone.2 c d1 hc
    split
    · next hbelow =>
      rw [if_pos hbelow, not_stuck_bind] at hround
      refine bind_congr (hitem inner extra d1 hround.1) fun first d2 hfirst => ?_
      have hnext := not_stuck_bind.mp (hround.2 first d2 hfirst)
      exact bind_congr (ih more d2 hnext.1) fun _ _ _ => rfl
    · rfl

theorem stable_listOf {item : ℕ → Decode α} (hitem : Stable item) {taken : ℕ → Bool} :
    Stable fun n => listOf taken (item n) n := by
  refine (stable_const _).bind fun header fuel more d hdone => ?_
  dsimp only at hdone ⊢
  split
  · rfl
  · next hsome =>
    rw [if_neg hsome, not_stuck_bind] at hdone
    refine bind_congr rfl fun c d1 hc => ?_
    have hitems := (not_stuck_bind.mp (hdone.2 c d1 hc)).1
    exact bind_congr (whileBelow_stable hitem fuel more _ fuel more d1 hitems) fun _ _ _ => rfl

theorem stable_accessEntry : Stable (decodeAccessEntry vectors) :=
  (stable_const _).bind fun _ => (stable_const _).bind fun _ =>
    (stable_listOf (stable_const _)).bind fun _ => stable_const _

theorem stable_blobHashes (alloc : Alloc) : Stable (decodeBlobHashes alloc) := by
  refine (stable_const _).bind fun header fuel more d hdone => ?_
  dsimp only at hdone ⊢
  split
  · rfl
  · next hsome =>
    rw [if_neg hsome, not_stuck_bind] at hdone
    refine bind_congr rfl fun c d1 hc => ?_
    have hcounted := hdone.2 c d1 hc
    cases hcount : countItems fuel ((c.pos + header.value) % 2 ^ 64) c with
    | none =>
      rw [hcount] at hcounted
      exact absurd rfl hcounted
    | some count => rw [countItems_add more fuel c hcount]

theorem stable_field (alloc : Alloc) (kind : Kind) :
    Stable fun n => decodeField vectors alloc n kind := by
  cases kind with
  | accessList => exact stable_listOf stable_accessEntry
  | authorizationList => exact stable_listOf (stable_const _)
  | blobHashes => exact stable_blobHashes alloc
  | _ => exact stable_const _

end Fuel

def skipped (d : Decoder) (n : ℕ) : Decoder := rlpSkipItem^[n] d

/-- The announced end of the list lies inside the input, and the skips before it do not
come back to a position they have been at. An end that wraps around to a position not
ahead ends the loop at once. -/
def CountingEnds (d : Decoder) (bound : ℕ) : Prop :=
  bound ≤ d.pos ∨ bound ≤ d.input.length ∧
    ∀ i j, i < j → (∀ k ≤ j, (skipped d k).pos < bound) → (skipped d i).pos ≠ (skipped d j).pos

section Counting

variable {bound : ℕ}

theorem skipped_succ (n : ℕ) : skipped d (n + 1) = rlpSkipItem (skipped d n) :=
  Function.iterate_succ_apply' rlpSkipItem n d

theorem skipped_add (m n : ℕ) : skipped d (m + n) = skipped (skipped d m) n := by
  rw [skipped, Nat.add_comm, Function.iterate_add_apply]
  rfl

theorem skipped_input (n : ℕ) : (skipped d n).input = d.input := by
  induction n with
  | zero => rfl
  | succ n ih => rw [skipped_succ, rlpSkipItem_input, ih]

/-- Counting stops in the first round at which the decoder is not below the bound. -/
theorem countItems_eq_none_iff (fuel : ℕ) :
    countItems fuel bound d = none ↔ ∀ n < fuel, (skipped d n).pos < bound := by
  induction fuel generalizing d with
  | zero => exact ⟨fun _ n hn => absurd hn (Nat.not_lt_zero _), fun _ => rfl⟩
  | succ fuel ih =>
    rw [countItems]
    split
    · next hbelow =>
      rw [Option.map_eq_none_iff, ih]
      constructor
      · intro h n hn
        cases n with
        | zero => exact hbelow
        | succ n => exact h n (by omega)
      · exact fun h n hn => h (n + 1) (by omega)
    · next hstop =>
      constructor
      · rintro ⟨⟩
      · exact fun h => absurd (h 0 (by omega)) hstop

theorem rlpSkipItem_pos_le (hpos : d.pos ≤ d.input.length) :
    (rlpSkipItem d).pos ≤ d.input.length := by
  unfold rlpSkipItem
  split
  · next hmore =>
    have hlt : d.pos < d.input.length := of_decide_eq_true hmore
    simp only [skipLength]
    split
    · exact hlt
    · split
      · exact skipTo_pos_le _
      · split
        · exact (skipTo_pos_le _).trans_eq (by simp only [Decoder.advance_input])
        · split
          · exact skipTo_pos_le _
          · exact (skipTo_pos_le _).trans_eq (by simp only [Decoder.advance_input])
  · exact hpos

theorem skipped_pos_le (hpos : d.pos ≤ d.input.length) (n : ℕ) :
    (skipped d n).pos ≤ d.input.length := by
  induction n with
  | zero => exact hpos
  | succ n ih =>
    rw [skipped_succ]
    rw [← skipped_input (d := d) n] at ih ⊢
    exact rlpSkipItem_pos_le ih

/-- Where the skips come back to a position, they go round for ever. -/
theorem pos_lt_of_return {i j : ℕ} (hij : i < j) (hbelow : ∀ k ≤ j, (skipped d k).pos < bound)
    (hreturn : (skipped d i).pos = (skipped d j).pos) (n : ℕ) : (skipped d n).pos < bound := by
  have hsame : skipped d i = skipped d j :=
    Decoder.ext ((skipped_input i).trans (skipped_input j).symm) hreturn
  induction n using Nat.strong_induction_on with
  | _ n ih =>
    by_cases hn : n ≤ j
    · exact hbelow n hn
    · have hback : skipped d n = skipped d (i + (n - j)) := by
        rw [skipped_add, hsame, ← skipped_add]
        congr 1
        omega
      rw [hback]
      exact ih _ (by omega)

/-- If all positions up to round `bound` were below the bound, two of them would be equal. -/
theorem exists_le_pos (hends : CountingEnds d bound) :
    ∃ n ≤ d.input.length, bound ≤ (skipped d n).pos := by
  rcases hends with hdone | ⟨hinside, hreturn⟩
  · exact ⟨0, Nat.zero_le _, hdone⟩
  · by_contra hnone
    push Not at hnone
    have hbelow : ∀ k ≤ bound, (skipped d k).pos < bound :=
      fun k hk => hnone k (hk.trans hinside)
    obtain ⟨i, hi, j, hj, hne, heq⟩ := Finset.exists_ne_map_eq_of_card_lt_of_maps_to
      (s := Finset.range (bound + 1)) (t := Finset.range bound)
      (by rw [Finset.card_range, Finset.card_range]; exact Nat.lt_succ_self _)
      (f := fun k => (skipped d k).pos)
      (fun k hk => Finset.mem_coe.mpr (Finset.mem_range.mpr
        (hbelow k (Nat.le_of_lt_succ (Finset.mem_range.mp hk)))))
    rw [Finset.mem_range, Nat.lt_succ_iff] at hi hj
    rcases Nat.lt_or_gt_of_ne hne with hlt | hlt
    · exact hreturn i j hlt (fun k hk => hbelow k (hk.trans hj)) heq
    · exact hreturn j i hlt (fun k hk => hbelow k (hk.trans hi)) heq.symm

theorem countingEnds_of_le_pos (hpos : d.pos ≤ d.input.length) {n : ℕ}
    (hstop : bound ≤ (skipped d n).pos) : CountingEnds d bound := by
  refine Or.inr ⟨hstop.trans (skipped_pos_le hpos n), fun i j hij hbelow hreturn => ?_⟩
  have hlt := pos_lt_of_return hij hbelow hreturn n
  omega

/-- The loop ends for some fuel, and then for any that exceeds the input, exactly if the
counting ends. -/
theorem countItems_ends_iff (hpos : d.pos ≤ d.input.length) :
    (∃ fuel, countItems fuel bound d ≠ none) ↔ CountingEnds d bound := by
  constructor
  · rintro ⟨fuel, hfuel⟩
    rw [Ne, countItems_eq_none_iff] at hfuel
    push Not at hfuel
    obtain ⟨n, -, hstop⟩ := hfuel
    exact countingEnds_of_le_pos hpos hstop
  · intro hends
    obtain ⟨n, hn, hstop⟩ := exists_le_pos hends
    refine ⟨d.input.length + 1, fun hnone => ?_⟩
    have := (countItems_eq_none_iff _).mp hnone n (by omega)
    omega

end Counting

/-- The decoder stands at the start of the blob hashes of a type 3 transaction, which are
not empty and are announced to end at `bound`. -/
def BlobListAt (vectors : Growth) (alloc : Alloc) (data : Bytes) (d : Decoder) (bound : ℕ) :
    Prop :=
  ∃ rest, data = 0x03 :: rest ∧ ∃ outer d0 values d1 header,
    decodeListHeader ⟨rest, 0⟩ = (.ok outer, d0) ∧
    decodeFields vectors alloc (rest.length + 1) (eip4844Format.kinds.take 10) d0 =
      (.ok values, d1) ∧
    decodeListHeader d1 = (.ok header, d) ∧ header.value ≠ 0 ∧
    bound = (d.pos + header.value) % 2 ^ 64

section Fields

variable {alloc : Alloc} {d' : Decoder}

theorem readsTokens_pos_le {n : ℕ} (h : ReadsTokens d n d') (hpos : d.pos ≤ d.input.length) :
    d'.input = d.input ∧ d'.pos ≤ d'.input.length := by
  obtain ⟨toks, -, -, hreads⟩ := h
  have hlen := congrArg List.length hreads.bytes
  rw [List.length_append, Decoder.rest, Decoder.rest, List.length_drop, List.length_drop] at hlen
  have hmoved := hreads.moved
  have hinput : d'.input = d.input := by rw [hmoved, Decoder.advance_input]
  have hend : d'.pos = d.pos + toks.flatten.length := by rw [hmoved, Decoder.advance_pos]
  rw [hinput] at hlen ⊢
  exact ⟨rfl, by omega⟩

theorem completes_blobHash (room : ℕ) : Completes room decodeBlobHash := by
  intro d _
  unfold Stuck decodeBlobHash
  split
  · split <;> rintro ⟨⟩
  · rintro ⟨⟩

theorem completes_times {room : ℕ} (hitem : Completes room item)
    (hcount : Counts item count) (n : ℕ) : Completes room (times item n) := by
  induction n with
  | zero => exact completes_pure _
  | succ n ih =>
    exact hitem.bind hcount fun _ => ih.bind (counts_times hcount n) fun _ => completes_pure _

/-- The blob hashes do not stop where their counting does not. -/
theorem stuck_blobHashes_iff {fuel : ℕ} :
    Stuck (decodeBlobHashes alloc fuel) d ↔ ∃ header d1, decodeListHeader d = (.ok header, d1) ∧
      header.value ≠ 0 ∧ countItems fuel ((d1.pos + header.value) % 2 ^ 64) d1 = none := by
  rw [decodeBlobHashes, stuck_bind, or_iff_right not_stuck_listHeader]
  refine exists_congr fun header => exists_congr fun d1 => and_congr_right fun _ => ?_
  by_cases hzero : header.value = 0
  · rw [if_pos hzero]
    exact ⟨fun h => absurd h (not_stuck_pure _), fun h => absurd hzero h.1⟩
  · rw [if_neg hzero]
    cases hcount : countItems fuel ((d1.pos + header.value) % 2 ^ 64) d1 with
    | none =>
      refine ⟨fun _ => ⟨hzero, rfl⟩, fun _ => stuck_bind.mpr (Or.inr ⟨d1, d1, rfl, ?_⟩)⟩
      rw [hcount]
      rfl
    | some count =>
      refine ⟨fun h => ?_, fun h => by cases h.2⟩
      rcases stuck_bind.mp h with h | ⟨c, d2, hc, h⟩
      · cases h
      · obtain ⟨rfl, rfl⟩ := decoder_ok.mp hc
        rw [hcount] at h
        dsimp only at h
        split at h
        · exact absurd h (completes_times (completes_blobHash _) counts_blobHash count d1
            (Nat.lt_succ_self _))
        · exact absurd h (not_stuck_rejected _)

/-- The fields around one that may not stop. -/
theorem not_stuck_fields {room : ℕ} {before after : List Kind} {kind : Kind}
    (hbefore : .blobHashes ∉ before) (hafter : .blobHashes ∉ after) (hroom : d.rest.length < room)
    (h : ∀ values d1, decodeFields vectors alloc room before d = (.ok values, d1) →
      ¬Stuck (decodeField vectors alloc room kind) d1) :
    ¬Stuck (decodeFields vectors alloc room (before ++ kind :: after)) d := by
  induction before generalizing d with
  | nil =>
    refine not_stuck_bind.mpr ⟨h () d rfl, fun value d1 hvalue => ?_⟩
    have hle := readsTokens_length_le (counts_field alloc room formatEncoders kind d value d1 hvalue)
    exact (completes_fields alloc hafter).bind (counts_fields alloc room formatEncoders after)
      (fun _ => completes_pure _) d1 (by omega)
  | cons first before ih =>
    obtain ⟨hfirst, hbefore⟩ := not_or.mp (mt List.mem_cons.mpr hbefore)
    refine not_stuck_bind.mpr ⟨completes_field alloc (Ne.symm hfirst) d hroom,
      fun value d1 hvalue => ?_⟩
    have hle := readsTokens_length_le (counts_field alloc room formatEncoders first d value d1 hvalue)
    refine not_stuck_bind.mpr ⟨ih hbefore (by omega) fun values d2 hvalues => ?_,
      fun _ _ _ => not_stuck_pure _⟩
    exact h (value, values) d2 (bind_ok.mpr ⟨value, d1, hvalue, bind_ok.mpr
      ⟨values, d2, hvalues, rfl⟩⟩)

/-- If all the fields stop, so does one that is reached. -/
theorem not_stuck_field {fuel room : ℕ} {before after : List Kind} {kind : Kind}
    (hbefore : .blobHashes ∉ before) (hroom : d.rest.length < room)
    (h : ¬Stuck (decodeFields vectors alloc fuel (before ++ kind :: after)) d)
    {values : Values before} (hread : decodeFields vectors alloc room before d = (.ok values, d')) :
    ¬Stuck (decodeField vectors alloc fuel kind) d' := by
  induction before generalizing d with
  | nil =>
    obtain ⟨-, rfl⟩ := pure_ok.mp hread
    exact (not_stuck_bind.mp h).1
  | cons first before ih =>
    obtain ⟨hfirst, hbefore⟩ := not_or.mp (mt List.mem_cons.mpr hbefore)
    obtain ⟨value, d1, hvalue, hread⟩ := bind_ok.mp hread
    obtain ⟨values, d2, hvalues, hread⟩ := bind_ok.mp hread
    obtain ⟨-, rfl⟩ := pure_ok.mp hread
    have hle := readsTokens_length_le (counts_field alloc room formatEncoders first d value d1 hvalue)
    obtain ⟨hdone, hrest⟩ := not_stuck_bind.mp h
    have hsame := (stable_field alloc first).agree
      (completes_field alloc (Ne.symm hfirst) d hroom) hdone
    have hnext := (not_stuck_bind.mp (hrest value d1 (hsame ▸ hvalue))).1
    exact ih hbefore (by omega) hnext hvalues

end Fields

section Transactions

variable {alloc : Alloc}

/-- Decoding one type of transaction does not stop exactly where its body does not. -/
theorem decodeTx_outOfFuel_iff {T : Type} {format : TxFormat T} {fuel : ℕ} {data : Bytes} :
    decodeTx format vectors alloc fuel data = .error .outOfFuel ↔
      ∃ outer d, decodeListHeader ⟨data, 0⟩ = (.ok outer, d) ∧
        Stuck (decodeFields vectors alloc fuel format.kinds) d := by
  have hbody : Stuck (decodeBody format vectors alloc fuel) ⟨data, 0⟩ ↔
      ∃ outer d, decodeListHeader ⟨data, 0⟩ = (.ok outer, d) ∧
        Stuck (decodeFields vectors alloc fuel format.kinds) d := by
    rw [decodeBody, stuck_bind, or_iff_right not_stuck_listHeader]
    refine exists_congr fun outer => exists_congr fun d => and_congr_right fun _ => ?_
    rw [stuck_bind]
    refine or_iff_left ?_
    rintro ⟨_, _, _, h⟩
    exact not_stuck_pure _ h
  rw [← hbody, decodeTx]
  split
  · next hnil =>
    obtain rfl := List.eq_nil_of_length_eq_zero hnil
    exact ⟨by rintro ⟨⟩, by rintro ⟨⟩⟩
  · exact Iff.rfl

theorem rest_length_le_of_header {data : Bytes} {outer : Decoded ℕ}
    (h : decodeListHeader ⟨data, 0⟩ = (.ok outer, d)) : d.rest.length ≤ data.length := by
  have hle := readsTokens_length_le (counts_listHeader _ _ _ h)
  exact (Nat.le_add_right _ _).trans hle

/-- Types without blob hashes are decoded in bounded time. -/
theorem decodeTx_completes {T : Type} {format : TxFormat T} (h : .blobHashes ∉ format.kinds)
    (data : Bytes) : decodeTx format vectors alloc (data.length + 1) data ≠ .error .outOfFuel := by
  intro hstuck
  obtain ⟨outer, d, houter, hfields⟩ := decodeTx_outOfFuel_iff.mp hstuck
  exact completes_fields alloc h d (Nat.lt_succ_of_le (rest_length_le_of_header houter)) hfields

theorem eip4844_kinds : eip4844Format.kinds =
    eip4844Format.kinds.take 10 ++ .blobHashes :: [.yParity, .uint256, .uint256] := rfl

/-- Reading up to the blob hashes stays inside the input. -/
theorem blobListAt_inside {rest : Bytes} {bound : ℕ}
    (h : BlobListAt vectors alloc (0x03 :: rest) d bound) :
    d.input = rest ∧ d.pos ≤ d.input.length := by
  obtain ⟨tail, heq, outer, d0, values, d1, header, houter, hvalues, hheader, -⟩ := h
  obtain rfl := (List.cons.inj heq).2
  have hread := ((counts_listHeader _ _ _ houter).trans
    (counts_fields alloc _ formatEncoders _ _ _ _ hvalues)).trans (counts_listHeader _ _ _ hheader)
  exact readsTokens_pos_le hread (Nat.zero_le _)

/-- A type 3 transaction is decoded exactly where the counting of its blob hashes ends. -/
theorem eip4844_returns_iff (rest : Bytes) :
    (∃ fuel, eip4844TxDecode vectors alloc fuel rest ≠ .error .outOfFuel) ↔
      ∀ d bound, BlobListAt vectors alloc (0x03 :: rest) d bound → CountingEnds d bound := by
  constructor
  · rintro ⟨fuel, hfuel⟩ d bound hat
    obtain ⟨-, hpos⟩ := blobListAt_inside hat
    obtain ⟨tail, heq, outer, d0, values, d1, header, houter, hvalues, hheader, hsome, rfl⟩ := hat
    obtain rfl := (List.cons.inj heq).2
    have hle := rest_length_le_of_header houter
    have hfields : ¬Stuck (decodeFields vectors alloc fuel eip4844Format.kinds) d0 :=
      fun h => hfuel (decodeTx_outOfFuel_iff.mpr ⟨outer, d0, houter, h⟩)
    rw [eip4844_kinds] at hfields
    have hfield := not_stuck_field (by decide) (Nat.lt_succ_of_le hle) hfields hvalues
    rw [decodeField, stuck_blobHashes_iff] at hfield
    exact (countItems_ends_iff hpos).mp
      ⟨fuel, fun hnone => hfield ⟨header, d, hheader, hsome, hnone⟩⟩
  · intro hends
    refine ⟨rest.length + 1, fun hstuck => ?_⟩
    obtain ⟨outer, d0, houter, hfields⟩ := decodeTx_outOfFuel_iff.mp hstuck
    have hle := rest_length_le_of_header houter
    rw [eip4844_kinds] at hfields
    refine not_stuck_fields (by decide) (by decide) (Nat.lt_succ_of_le hle)
      (fun values d1 hvalues => ?_) hfields
    rw [decodeField, stuck_blobHashes_iff]
    rintro ⟨header, d, hheader, hsome, hnone⟩
    have hat : BlobListAt vectors alloc (0x03 :: rest) d ((d.pos + header.value) % 2 ^ 64) :=
      ⟨rest, rfl, outer, d0, values, d1, header, houter, hvalues, hheader, hsome, rfl⟩
    obtain ⟨n, hn, hstop⟩ := exists_le_pos (hends d _ hat)
    rw [(blobListAt_inside hat).1] at hn
    exact absurd ((countItems_eq_none_iff _).mp hnone n (Nat.lt_succ_of_le hn)) (not_lt.mpr hstop)

theorem map_outOfFuel_iff {f : α → β} {result : Except Failure α} :
    result.map f = .error .outOfFuel ↔ result = .error .outOfFuel := by
  cases result with
  | error e => simp only [Except.map, Except.error.injEq]
  | ok value => simp only [Except.map, reduceCtorEq]

theorem transactionDecode_three (fuel : ℕ) (rest : Bytes) :
    transactionDecode vectors alloc fuel (0x03 :: rest) =
      typedResult .eip4844 (eip4844TxDecode vectors alloc fuel rest) := rfl

/-- Everything but a type 3 transaction is decoded in bounded time. -/
theorem transactionDecode_completes {first : UInt8} {rest : Bytes} (h : first ≠ 0x03) :
    ∃ fuel, transactionDecode vectors alloc fuel (first :: rest) ≠ .error .outOfFuel := by
  rcases first_cases vectors alloc 0 first with hlist | rfl | rfl | rfl | rfl | hother
  · exact ⟨_, fun hout => decodeTx_completes (by decide) _
      (map_outOfFuel_iff.mp ((if_pos hlist).symm.trans hout))⟩
  · exact ⟨_, mt map_outOfFuel_iff.mp (decodeTx_completes (by decide) _)⟩
  · exact ⟨_, mt map_outOfFuel_iff.mp (decodeTx_completes (by decide) _)⟩
  · exact absurd rfl h
  · exact ⟨_, mt map_outOfFuel_iff.mp (decodeTx_completes (by decide) _)⟩
  · exact ⟨0, by rw [hother]; exact nofun⟩

/-- Decoding a byte string returns, exactly if the blob hashes of a type 3 transaction, where
it gets as far as those, are announced to end inside the input and skipping them does not
come back to a position before that end. -/
theorem transactionDecode_returns_iff (vectors : Growth) (alloc : Alloc) (data : Bytes) :
    (∃ fuel, transactionDecode vectors alloc fuel data ≠ .error .outOfFuel) ↔
      ∀ d bound, BlobListAt vectors alloc data d bound → CountingEnds d bound := by
  cases data with
  | nil =>
    refine ⟨fun _ d bound hat => ?_, fun _ => ⟨0, nofun⟩⟩
    obtain ⟨rest, heq, -⟩ := hat
    cases heq
  | cons first rest =>
    by_cases hfirst : first = 0x03
    · subst hfirst
      rw [← eip4844_returns_iff]
      refine exists_congr fun fuel => not_congr ?_
      rw [transactionDecode_three, typedResult, map_outOfFuel_iff]
    · refine ⟨fun _ d bound hat => ?_, fun _ => transactionDecode_completes hfirst⟩
      obtain ⟨tail, heq, -⟩ := hat
      exact absurd (List.cons.inj heq).1 hfirst

/-- A type 3 transaction cut off behind the header of its blob hashes, which announces one
byte. -/
def cutOffBlobs : Bytes :=
  [0xdf, 0x01, 0x80, 0x80, 0x80, 0x80, 0x94, 0, 0, 0, 0, 0, 0, 0, 0, 0, 0, 0, 0, 0, 0, 0, 0, 0, 0,
    0, 0, 0x80, 0x80, 0xc0, 0x80, 0xc1]

/-- The decoder reads up to that header. -/
theorem blobListAt_cutOffBlobs :
    BlobListAt (.packed 65536) (fun _ => true) (0x03 :: cutOffBlobs) ⟨cutOffBlobs, 32⟩ 33 := by
  have hread : (decodeFields (.packed 65536) (fun _ => true) (cutOffBlobs.length + 1)
        (eip4844Format.kinds.take 10) ⟨cutOffBlobs, 1⟩).1.toBool = true ∧
      (decodeFields (.packed 65536) (fun _ => true) (cutOffBlobs.length + 1)
        (eip4844Format.kinds.take 10) ⟨cutOffBlobs, 1⟩).2 = ⟨cutOffBlobs, 31⟩ := by
    decide +kernel
  rcases hfields : decodeFields (.packed 65536) (fun _ => true) (cutOffBlobs.length + 1)
    (eip4844Format.kinds.take 10) ⟨cutOffBlobs, 1⟩ with ⟨result, d⟩
  rw [hfields] at hread
  obtain ⟨hok, rfl⟩ := hread
  cases result with
  | error e => cases hok
  | ok values =>
    exact ⟨cutOffBlobs, rfl, ⟨31, 1⟩, ⟨cutOffBlobs, 1⟩, values, ⟨cutOffBlobs, 31⟩, ⟨1, 1⟩,
      by decide +kernel, hfields, by decide +kernel, by decide, by decide⟩

/-- Counting its blob hashes never ends. -/
theorem transactionDecode_hangs :
    ¬∃ fuel, transactionDecode (.packed 65536) (fun _ => true) fuel (0x03 :: cutOffBlobs) ≠
      .error .outOfFuel := by
  rintro ⟨fuel, hreturns⟩
  rw [transactionDecode_three, typedResult, Ne, map_outOfFuel_iff] at hreturns
  have hends := (eip4844_returns_iff cutOffBlobs).mp ⟨fuel, hreturns⟩ _ _ blobListAt_cutOffBlobs
  rcases hends with h | h
  · exact absurd h (by decide)
  · exact absurd h.1 (by decide)

end Transactions

end Div0.TxDecodeLoops
