import Div0.TxCodec
import Mathlib.Algebra.Order.BigOperators.Group.List

/-!
Laws of the field decoders: how a decoding step is taken apart, and how many tokens it
has read when it succeeds. A token is a string item or a list header. The count is
followed through sequences and loops, whatever position the loops stop at, up to the
fields of a transaction. The lists that are returned are those the vectors have taken.
-/

namespace Div0.TxFieldLaws

open BigEndian Buffer Containers RlpFormat RlpTree RlpDecode Transaction TxFields TxFields.Decode

variable {d d' : Decoder}

section Steps

variable {α β : Type}

theorem bind_eq_of_ok {x : Decode α} {a : α} (h : x d = (.ok a, d')) (f : α → Decode β) :
    (x >>= f) d = f a d' := by
  simp only [Bind.bind, h]

theorem bind_eq_of_error {x : Decode α} {e : Failure} (h : x d = (.error e, d'))
    (f : α → Decode β) : (x >>= f) d = (.error e, d') := by
  simp only [Bind.bind, h]

theorem bind_ok {x : Decode α} {f : α → Decode β} {b : β} :
    (x >>= f) d = (.ok b, d') ↔ ∃ a d1, x d = (.ok a, d1) ∧ f a d1 = (.ok b, d') := by
  constructor
  · intro h
    rcases hx : x d with ⟨e | a, d1⟩
    · rw [bind_eq_of_error hx] at h
      cases h
    · rw [bind_eq_of_ok hx] at h
      exact ⟨a, d1, rfl, h⟩
  · rintro ⟨a, d1, hx, hf⟩
    rw [bind_eq_of_ok hx]
    exact hf

theorem pure_ok {a b : α} : (pure a : Decode α) d = (.ok b, d') ↔ a = b ∧ d = d' := by
  change (Except.ok a, d) = (Except.ok b, d') ↔ _
  simp

theorem decoder_ok {c : Decoder} : decoder d = (.ok c, d') ↔ d = c ∧ d = d' := by
  change (Except.ok d, d) = (Except.ok c, d') ↔ _
  simp

theorem fail_ok {e : Failure} {a : α} : ¬(fail e : Decode α) d = (.ok a, d') := by
  intro h
  cases h

theorem ofRlp_ok {f : Decoder → Result α} {a : α} :
    ofRlp f d = (.ok a, d') ↔ ∃ r, f d = (.ok r, d') ∧ r.value = a := by
  unfold ofRlp
  constructor
  · intro h
    split at h
    · next r d1 hf =>
      obtain ⟨hr, rfl⟩ := Prod.mk.inj h
      exact ⟨r, hf, Except.ok.inj hr⟩
    · cases h
  · rintro ⟨r, hf, rfl⟩
    rw [hf]

theorem decodeListHeader_ok {r : Decoded ℕ} :
    decodeListHeader d = (.ok r, d') ↔ rlpDecodeListHeader d = (.ok r, d') := by
  unfold decodeListHeader
  constructor
  · intro h
    split at h
    · next r1 d1 hf =>
      obtain ⟨hr, rfl⟩ := Prod.mk.inj h
      rw [hf, Except.ok.inj hr]
    · cases h
  · intro h
    rw [h]

end Steps

/-- Between two positions stand at least `count` tokens. -/
def ReadsTokens (d : Decoder) (count : ℕ) (d' : Decoder) : Prop :=
  ∃ toks : List Bytes, (∀ x ∈ toks, IsToken x) ∧ count ≤ toks.length ∧ Reads d toks d'

namespace ReadsTokens

variable {d'' : Decoder} {m n : ℕ}

theorem refl (d : Decoder) : ReadsTokens d 0 d :=
  ⟨[], by simp, le_rfl, Reads.refl d⟩

theorem one {x : Bytes} (hx : IsToken x) (h : Reads d [x] d') : ReadsTokens d 1 d' :=
  ⟨[x], by simpa using hx, le_rfl, h⟩

theorem trans (h : ReadsTokens d m d') (h' : ReadsTokens d' n d'') :
    ReadsTokens d (m + n) d'' := by
  obtain ⟨xs, hxs, hm, hreads⟩ := h
  obtain ⟨ys, hys, hn, hreads'⟩ := h'
  refine ⟨xs ++ ys, ?_, ?_, hreads.trans hreads'⟩
  · intro x hx
    rcases List.mem_append.mp hx with hmem | hmem
    · exact hxs x hmem
    · exact hys x hmem
  · rw [List.length_append]
    exact Nat.add_le_add hm hn

theorem mono (h : ReadsTokens d n d') (hle : m ≤ n) : ReadsTokens d m d' := by
  obtain ⟨toks, htoks, hn, hreads⟩ := h
  exact ⟨toks, htoks, hle.trans hn, hreads⟩

end ReadsTokens

def Counts {α : Type} (x : Decode α) (count : α → ℕ) : Prop :=
  ∀ d a d', x d = (.ok a, d') → ReadsTokens d (count a) d'

variable {α : Type} {item : Decode α} {vectors : Growth}

section Counting

variable {count : α → ℕ}

theorem counts_listHeader : Counts decodeListHeader fun _ => 1 := by
  intro d r d' h
  obtain ⟨hlt, -, hreads⟩ := rlpDecodeListHeader_ok (decodeListHeader_ok.mp h)
  exact ReadsTokens.one (IsToken.opening _ hlt) hreads

theorem counts_u64 : Counts decodeU64 fun _ => 1 := by
  intro d v d' h
  obtain ⟨r, hr, rfl⟩ := ofRlp_ok.mp h
  obtain ⟨bytes, -, hlt, -, hreads⟩ := rlpDecodeU64_ok hr
  exact ReadsTokens.one (IsToken.string _ hlt) hreads

theorem counts_uint256 : Counts decodeUint256 fun _ => 1 := by
  intro d v d' h
  obtain ⟨r, hr, rfl⟩ := ofRlp_ok.mp h
  obtain ⟨bytes, -, hlt, -, hreads⟩ := rlpDecodeUint256_ok hr
  exact ReadsTokens.one (IsToken.string _ hlt) hreads

theorem counts_yParity : Counts decodeYParity fun _ => 1 := by
  intro d v d' h
  obtain ⟨value, d1, hvalue, hpure⟩ := bind_ok.mp h
  obtain ⟨-, rfl⟩ := pure_ok.mp hpure
  exact counts_u64 d value d1 hvalue

theorem counts_bytes : Counts (ofRlp rlpDecodeBytes) fun _ => 1 := by
  intro d v d' h
  obtain ⟨r, hr, rfl⟩ := ofRlp_ok.mp h
  obtain ⟨hlt, -, hreads⟩ := rlpDecodeBytes_ok hr
  exact ReadsTokens.one (IsToken.string _ hlt) hreads

theorem counts_address : Counts (ofRlp rlpDecodeAddress) fun _ => 1 := by
  intro d v d' h
  obtain ⟨r, hr, rfl⟩ := ofRlp_ok.mp h
  have hsize := r.value.size_eq
  exact ReadsTokens.one (IsToken.string _ (by omega)) (rlpDecodeAddress_ok hr)

theorem counts_whileBelow (hitem : Counts item count) (fuel bound : ℕ) :
    Counts (whileBelow item fuel bound) fun as => (as.map count).sum := by
  induction fuel with
  | zero =>
    intro d as d' h
    exact absurd h fail_ok
  | succ fuel ih =>
    intro d as d' h
    rw [whileBelow] at h
    obtain ⟨c, d1, hc, h⟩ := bind_ok.mp h
    obtain ⟨rfl, rfl⟩ := decoder_ok.mp hc
    split at h
    · obtain ⟨first, d2, hfirst, h⟩ := bind_ok.mp h
      obtain ⟨rest, d3, hrest, h⟩ := bind_ok.mp h
      obtain ⟨rfl, rfl⟩ := pure_ok.mp h
      exact (hitem d first d2 hfirst).trans (ih d2 rest d3 hrest)
    · obtain ⟨rfl, rfl⟩ := pure_ok.mp h
      exact ReadsTokens.refl d

theorem counts_times (hitem : Counts item count) (n : ℕ) :
    Counts (times item n) fun as => (as.map count).sum := by
  induction n with
  | zero =>
    intro d as d' h
    obtain ⟨rfl, rfl⟩ := pure_ok.mp h
    exact ReadsTokens.refl d
  | succ n ih =>
    intro d as d' h
    rw [times] at h
    obtain ⟨first, d2, hfirst, h⟩ := bind_ok.mp h
    obtain ⟨rest, d3, hrest, h⟩ := bind_ok.mp h
    obtain ⟨rfl, rfl⟩ := pure_ok.mp h
    exact (hitem d first d2 hfirst).trans (ih d2 rest d3 hrest)

/-- An item that is lost has been read. -/
theorem counts_listOf {room : ℕ → Bool} (hitem : Counts item count) (fuel : ℕ) :
    Counts (listOf room item fuel) fun as => 1 + (as.map count).sum := by
  intro d as d' h
  rw [listOf] at h
  obtain ⟨header, d1, hheader, h⟩ := bind_ok.mp h
  have hone := counts_listHeader d header d1 hheader
  split at h
  · obtain ⟨rfl, rfl⟩ := pure_ok.mp h
    exact hone
  · obtain ⟨c, d2, hc, h⟩ := bind_ok.mp h
    obtain ⟨rfl, rfl⟩ := decoder_ok.mp hc
    obtain ⟨items, d3, hitems, h⟩ := bind_ok.mp h
    obtain ⟨rfl, rfl⟩ := pure_ok.mp h
    have hkept := ((@pushAll_sublist _ room items).map count).sum_le_sum fun _ _ => Nat.zero_le _
    exact (hone.trans (counts_whileBelow hitem fuel _ d1 items d3 hitems)).mono
      (Nat.add_le_add_left hkept 1)

/-- A step after which a value is checked, or turned into another, reads what it reads. -/
theorem Counts.bind_none {β : Type} {x : Decode α} {f : α → Decode β} {n : ℕ}
    (hx : Counts x fun _ => n) (hf : ∀ a d b d', f a d = (.ok b, d') → d' = d) :
    Counts (x >>= f) fun _ => n := by
  intro d b d' h
  obtain ⟨a, d1, ha, h⟩ := bind_ok.mp h
  rw [hf a d1 b d' h]
  exact hx d a d1 ha

theorem counts_optionalAddress (alloc : Alloc) :
    Counts (decodeOptionalAddress alloc) fun _ => 1 := by
  refine counts_bytes.bind_none ?_
  intro bytes d a d' h
  split at h
  · exact (pure_ok.mp h).2.symm
  · split at h
    · split at h
      · exact (pure_ok.mp h).2.symm
      · exact absurd h fail_ok
    · exact absurd h fail_ok

theorem counts_txData (alloc : Alloc) : Counts (decodeTxData alloc) fun _ => 1 := by
  refine counts_bytes.bind_none ?_
  intro bytes d a d' h
  split at h
  · split at h
    · exact (pure_ok.mp h).2.symm
    · exact absurd h fail_ok
  · exact (pure_ok.mp h).2.symm

theorem counts_accessEntry (fuel : ℕ) :
    Counts (decodeAccessEntry vectors fuel) fun entry => 3 + entry.storageKeys.length := by
  intro d entry d' h
  rw [decodeAccessEntry] at h
  obtain ⟨header, d1, hheader, h⟩ := bind_ok.mp h
  obtain ⟨address, d2, haddress, h⟩ := bind_ok.mp h
  obtain ⟨keys, d3, hkeys, h⟩ := bind_ok.mp h
  obtain ⟨rfl, rfl⟩ := pure_ok.mp h
  have hread := (counts_listHeader d header d1 hheader).trans
    ((counts_address d1 address d2 haddress).trans
      (counts_listOf counts_uint256 fuel d2 keys d3 hkeys))
  have hsum : 3 + keys.length = 1 + (1 + (1 + (keys.map fun _ => 1).sum)) := by
    rw [List.map_const', List.sum_replicate_nat]
    omega
  change ReadsTokens d (3 + keys.length) d3
  rw [hsum]
  exact hread

theorem counts_authorization : Counts decodeAuthorization fun _ => 7 := by
  intro d auth d' h
  rw [decodeAuthorization] at h
  obtain ⟨header, d1, hheader, h⟩ := bind_ok.mp h
  obtain ⟨chainId, d2, hchainId, h⟩ := bind_ok.mp h
  obtain ⟨address, d3, haddress, h⟩ := bind_ok.mp h
  obtain ⟨nonce, d4, hnonce, h⟩ := bind_ok.mp h
  obtain ⟨yParity, d5, hyParity, h⟩ := bind_ok.mp h
  obtain ⟨r, d6, hr, h⟩ := bind_ok.mp h
  obtain ⟨sig, d7, hs, h⟩ := bind_ok.mp h
  obtain ⟨-, rfl⟩ := pure_ok.mp h
  exact (counts_listHeader d header d1 hheader).trans ((counts_u64 d1 chainId d2 hchainId).trans
    ((counts_address d2 address d3 haddress).trans ((counts_u64 d3 nonce d4 hnonce).trans
      ((counts_yParity d4 yParity d5 hyParity).trans ((counts_uint256 d5 r d6 hr).trans
        (counts_uint256 d6 sig d7 hs))))))

theorem counts_blobHash : Counts decodeBlobHash fun _ => 1 := by
  intro d hash d' h
  unfold decodeBlobHash at h
  split at h
  · next bytes d1 hbytes =>
    split at h
    · obtain ⟨-, rfl⟩ := Prod.mk.inj h
      obtain ⟨hlt, -, hreads⟩ := rlpDecodeBytes_ok hbytes
      exact ReadsTokens.one (IsToken.string _ hlt) hreads
    · cases h
  · cases h

theorem counts_blobHashes (alloc : Alloc) (fuel : ℕ) :
    Counts (decodeBlobHashes alloc fuel) fun hashes => 1 + hashes.length := by
  intro d hashes d' h
  rw [decodeBlobHashes] at h
  obtain ⟨header, d1, hheader, h⟩ := bind_ok.mp h
  have hone := counts_listHeader d header d1 hheader
  split at h
  · obtain ⟨rfl, rfl⟩ := pure_ok.mp h
    exact hone
  · obtain ⟨c, d2, hc, h⟩ := bind_ok.mp h
    obtain ⟨rfl, rfl⟩ := decoder_ok.mp hc
    cases hcount : countItems fuel ((d1.pos + header.value) % 2 ^ 64) d1 with
    | none =>
      rw [hcount] at h
      exact absurd h fail_ok
    | some count =>
      simp only [hcount] at h
      split at h
      · have hread := hone.trans (counts_times counts_blobHash count d1 hashes d' h)
        simp only [List.map_const', List.sum_replicate_nat, mul_one] at hread
        exact hread
      · exact absurd h fail_ok

theorem tokensAll_map {β : Type} (f : β → Tree) (l : List β) :
    (tokensAll (l.map f)).length = (l.map fun a => (tokens (f a)).length).sum := by
  induction l with
  | nil => rfl
  | cons a l ih =>
    rw [List.map_cons, tokensAll, List.length_append, ih, List.map_cons, List.sum_cons]

/-- A list of single items has one token for each and one for its header. -/
theorem tokens_list_leaves {β : Type} (f : β → Bytes) (l : List β) :
    (tokens (.list (l.map fun a => .leaf (f a)))).length = 1 + l.length := by
  rw [tokens, List.length_cons, tokensAll_map]
  simp only [tokens, List.length_singleton, List.map_const', List.sum_replicate_nat, mul_one]
  omega

theorem tokens_accessEntry (enc : Encoders) (entry : AccessListEntry) :
    (tokens (accessEntryTree enc entry)).length = 3 + entry.storageKeys.length := by
  have hkeys := tokens_list_leaves enc.uint256 entry.storageKeys
  rw [accessEntryTree, tokens, List.length_cons, tokensAll, List.length_append, tokensAll,
    List.length_append, hkeys, tokensAll, tokens]
  simp
  omega

/-- When a field is accepted, as many tokens were read as the field has. -/
theorem counts_field (alloc : Alloc) (fuel : ℕ) (enc : Encoders) (kind : Kind) :
    Counts (decodeField vectors alloc fuel kind)
      fun v => (tokens (fieldTree enc kind v)).length := by
  cases kind with
  | u64 => exact counts_u64
  | uint256 => exact counts_uint256
  | yParity => exact counts_yParity
  | optionalAddress =>
    intro d v d' h
    have hone := counts_optionalAddress alloc d v d' h
    cases v <;> exact hone
  | address => exact counts_address
  | data => exact counts_txData alloc
  | accessList =>
    intro d v d' h
    have hread := counts_listOf (counts_accessEntry fuel) fuel d v d' h
    simp only [fieldTree, txEncodeAccessList, tokens, List.length_cons, tokensAll_map,
      tokens_accessEntry]
    rw [Nat.add_comm]
    exact hread
  | authorizationList =>
    intro d v d' h
    have hread := counts_listOf counts_authorization fuel d v d' h
    have hseven : ∀ auth, (tokens (authorizationTree enc auth)).length = 7 := fun _ => rfl
    simp only [fieldTree, txEncodeAuthorizationList, tokens, List.length_cons, tokensAll_map,
      hseven]
    rw [Nat.add_comm]
    exact hread
  | blobHashes =>
    intro d v d' h
    simp only [fieldTree, blobHashesTree, tokens_list_leaves]
    exact counts_blobHashes alloc fuel d v d' h

theorem counts_fields (alloc : Alloc) (fuel : ℕ) (enc : Encoders) (kinds : List Kind) :
    Counts (decodeFields vectors alloc fuel kinds) fun vs =>
      (tokensAll (fieldTrees enc kinds vs)).length := by
  induction kinds with
  | nil =>
    intro d vs d' h
    obtain ⟨-, rfl⟩ := pure_ok.mp h
    exact ReadsTokens.refl d
  | cons kind kinds ih =>
    intro d vs d' h
    rw [decodeFields] at h
    obtain ⟨value, d1, hvalue, h⟩ := bind_ok.mp h
    obtain ⟨values, d2, hvalues, h⟩ := bind_ok.mp h
    obtain ⟨rfl, rfl⟩ := pure_ok.mp h
    change ReadsTokens d (tokensAll (fieldTree enc kind value :: fieldTrees enc kinds values)).length
      d2
    rw [tokensAll, List.length_append]
    exact (counts_field alloc fuel enc kind d value d1 hvalue).trans (ih d1 values d2 hvalues)

end Counting

section Vectors

variable {fuel : ℕ}

variable (vectors) in
/-- The vectors of the decoder take the lists of a field. -/
def KeptField : (kind : Kind) → kind.Value → Prop
  | .accessList, list => Taken (vectors accessEntrySize) list.length ∧
      ∀ entry ∈ list, Taken (vectors keySize) entry.storageKeys.length
  | .authorizationList, list => Taken (vectors authorizationSize) list.length
  | _, _ => True

variable (vectors) in
def KeptFields : (kinds : List Kind) → Values kinds → Prop
  | [], _ => True
  | kind :: kinds, (v, vs) => KeptField vectors kind v ∧ KeptFields kinds vs

theorem keptFields_ample {kinds : List Kind} (vs : Values kinds) : KeptFields .ample kinds vs := by
  induction kinds with
  | nil => exact trivial
  | cons kind kinds ih =>
    refine ⟨?_, ih vs.2⟩
    cases kind with
    | accessList => exact ⟨fun _ _ => rfl, fun _ _ _ _ => rfl⟩
    | authorizationList => exact fun _ _ => rfl
    | u64 | uint256 | yParity | optionalAddress | address | data | blobHashes => exact trivial

theorem whileBelow_forall {P : α → Prop} (hitem : ∀ d a d', item d = (.ok a, d') → P a)
    {bound : ℕ} {as : List α} (h : whileBelow item fuel bound d = (.ok as, d')) :
    ∀ a ∈ as, P a := by
  induction fuel generalizing d d' as with
  | zero => exact absurd h fail_ok
  | succ fuel ih =>
    rw [whileBelow] at h
    obtain ⟨c, d1, -, h⟩ := bind_ok.mp h
    split at h
    · obtain ⟨first, d2, hfirst, h⟩ := bind_ok.mp h
      obtain ⟨rest, d3, hrest, h⟩ := bind_ok.mp h
      obtain ⟨rfl, -⟩ := pure_ok.mp h
      exact List.forall_mem_cons.mpr ⟨hitem d1 first d2 hfirst, ih hrest⟩
    · obtain ⟨rfl, -⟩ := pure_ok.mp h
      exact List.forall_mem_nil P

theorem listOf_kept {room : ℕ → Bool} {P : α → Prop} {as : List α}
    (hitem : ∀ d a d', item d = (.ok a, d') → P a) (h : listOf room item fuel d = (.ok as, d')) :
    Taken room as.length ∧ ∀ a ∈ as, P a := by
  rw [listOf] at h
  obtain ⟨header, d1, -, h⟩ := bind_ok.mp h
  split at h
  · obtain ⟨rfl, -⟩ := pure_ok.mp h
    exact ⟨@taken_pushAll α room [], List.forall_mem_nil P⟩
  · obtain ⟨c, d2, -, h⟩ := bind_ok.mp h
    obtain ⟨items, d3, hitems, h⟩ := bind_ok.mp h
    obtain ⟨rfl, -⟩ := pure_ok.mp h
    exact ⟨taken_pushAll items,
      fun a ha => whileBelow_forall hitem hitems a ((pushAll_sublist items).subset ha)⟩

theorem accessEntry_kept {entry : AccessListEntry}
    (h : decodeAccessEntry vectors fuel d = (.ok entry, d')) :
    Taken (vectors keySize) entry.storageKeys.length := by
  obtain ⟨header, d1, -, h⟩ := bind_ok.mp h
  obtain ⟨address, d2, -, h⟩ := bind_ok.mp h
  obtain ⟨keys, d3, hkeys, h⟩ := bind_ok.mp h
  obtain ⟨rfl, -⟩ := pure_ok.mp h
  exact (listOf_kept (fun _ _ _ _ => trivial) hkeys).1

theorem field_kept {alloc : Alloc} {kind : Kind} {v : kind.Value}
    (h : decodeField vectors alloc fuel kind d = (.ok v, d')) : KeptField vectors kind v := by
  cases kind with
  | accessList => exact listOf_kept (fun _ _ _ => accessEntry_kept) h
  | authorizationList => exact (listOf_kept (fun _ _ _ _ => trivial) h).1
  | u64 | uint256 | yParity | optionalAddress | address | data | blobHashes => exact trivial

theorem fields_kept {alloc : Alloc} {kinds : List Kind} {vs : Values kinds}
    (h : decodeFields vectors alloc fuel kinds d = (.ok vs, d')) : KeptFields vectors kinds vs := by
  induction kinds generalizing d d' with
  | nil => exact trivial
  | cons kind kinds ih =>
    obtain ⟨v, d1, hv, h⟩ := bind_ok.mp h
    obtain ⟨others, d2, hothers, h⟩ := bind_ok.mp h
    obtain ⟨rfl, -⟩ := pure_ok.mp h
    exact ⟨field_kept hv, ih hothers⟩

end Vectors

end Div0.TxFieldLaws
