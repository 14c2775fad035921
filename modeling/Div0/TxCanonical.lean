import Div0.TxRoundTrip

/-!
Which inputs a transaction decoder reads canonically. The decoders look at the length of
a list only to find the end of a loop, never to compare it with what was read, and take
the byte `0x00` for zero. On an input that is framed exactly, where each list header
announces the items that follow it, and whose lists the vectors of the decoder take, what is
read is the canonical encoding of what is returned; on any other input it is not.
-/

namespace Div0.TxCanonical

open BigEndian Buffer Containers RlpFormat RlpTree RlpDecode Uint256 Transaction TxFields TxCodec
open TxFields.Decode TxFieldLaws TxAccepts TxRoundTrip

/-- Where `item` is written, a step that succeeds has read it and no more, and returns a
value with the property `post`. -/
def Takes {α : Type} (step : Decode α) (item : Bytes) (post : α → Prop) : Prop :=
  ∀ (d : Decoder) (tail : Bytes) (a : α) (d' : Decoder), d.input.length < 2 ^ 64 →
    d.rest = item ++ tail → step d = (.ok a, d') → d' = d.advance item.length ∧ post a

variable {item : Bytes}

section Rules

variable {α β : Type} {step : Decode α} {post : α → Prop}

theorem takes_pure {a : α} (h : post a) : Takes (pure a) [] post := by
  intro d tail b d' hinput hrest hstep
  obtain ⟨rfl, rfl⟩ := pure_ok.mp hstep
  exact ⟨rfl, h⟩

theorem Takes.imp {weaker : α → Prop} (h : Takes step item post) (himp : ∀ a, post a → weaker a) :
    Takes step item weaker := by
  intro d tail a d' hinput hrest hstep
  obtain ⟨hmoved, hpost⟩ := h d tail a d' hinput hrest hstep
  exact ⟨hmoved, himp a hpost⟩

variable {goal : β → Prop}

theorem Takes.bind {f : α → Decode β} {xs ys : Bytes} (hx : Takes step xs post)
    (hf : ∀ a, post a → Takes (f a) ys goal) : Takes (step >>= f) (xs ++ ys) goal := by
  intro d tail b d' hinput hrest hstep
  rw [List.append_assoc] at hrest
  obtain ⟨a, d1, ha, hb⟩ := bind_ok.mp hstep
  obtain ⟨rfl, hpost⟩ := hx d _ a d1 hinput hrest ha
  have hnext := hf a hpost (d.advance xs.length) tail b d' hinput
    (Decoder.rest_advance_of_rest hrest) hb
  rw [Decoder.advance_advance, ← List.length_append] at hnext
  exact hnext

/-- The last step of a sequence reads nothing. -/
theorem Takes.bind_check {f : α → Decode β} {xs : Bytes} (hx : Takes step xs post)
    (hf : ∀ a d b d', post a → f a d = (.ok b, d') → d' = d ∧ goal b) :
    Takes (step >>= f) xs goal := by
  intro d tail b d' hinput hrest hstep
  obtain ⟨a, d1, ha, hb⟩ := bind_ok.mp hstep
  obtain ⟨rfl, hpost⟩ := hx d tail a d1 hinput hrest ha
  exact hf a _ b d' hpost hb

theorem takes_listHeader {n : ℕ} (hn : n < 2 ^ 64) : Takes decodeListHeader (header 0xc0 0xf7 n)
    fun r => r = ⟨n, (header 0xc0 0xf7 n).length⟩ := by
  intro d tail r d' hinput hrest hstep
  rw [accepts_listHeader hn d tail hinput hrest] at hstep
  obtain ⟨hr, hd⟩ := Prod.mk.inj hstep
  exact ⟨hd.symm, (Except.ok.inj hr).symm⟩

theorem takes_inList {f : Decoded ℕ → Decode β} {ys : Bytes}
    (hf : Takes (f ⟨ys.length, (header 0xc0 0xf7 ys.length).length⟩) ys goal) :
    Takes (decodeListHeader >>= f) (encodeList ys) goal := by
  intro d tail b d' hinput hrest hstep
  have hlt := lt_of_le_of_lt (length_le_encodeList ys) (length_lt_of_rest hinput hrest)
  have hlist := (takes_listHeader hlt).bind (f := f) (fun r hr => by rw [hr]; exact hf)
  exact hlist d tail b d' hinput hrest hstep

end Rules

section Loops

variable {α : Type} {item : Decode α} {e : α → Bytes}

theorem takes_whileBelow (xs : List Bytes) :
    ∀ (fuel : ℕ) (d : Decoder) (tail : Bytes) (as : List α) (d' : Decoder),
      (∀ x ∈ xs, x ≠ [] ∧ Takes item x fun a => x = e a) → d.input.length < 2 ^ 64 →
      d.rest = xs.flatten ++ tail →
      whileBelow item fuel (d.pos + xs.flatten.length) d = (.ok as, d') →
      d' = d.advance xs.flatten.length ∧ xs = as.map e := by
  induction xs with
  | nil =>
    intro fuel d tail as d' hxs hinput hrest hloop
    cases fuel with
    | zero => exact absurd hloop fail_ok
    | succ fuel =>
      rw [whileBelow] at hloop
      obtain ⟨c, d1, hc, hloop⟩ := bind_ok.mp hloop
      obtain ⟨rfl, rfl⟩ := decoder_ok.mp hc
      rw [if_neg (by simp)] at hloop
      obtain ⟨rfl, rfl⟩ := pure_ok.mp hloop
      exact ⟨rfl, rfl⟩
  | cons x xs ih =>
    intro fuel d tail as d' hxs hinput hrest hloop
    cases fuel with
    | zero => exact absurd hloop fail_ok
    | succ fuel =>
      obtain ⟨hx, htakes⟩ := hxs x List.mem_cons_self
      have hpos := List.length_pos_of_ne_nil hx
      rw [List.flatten_cons, List.append_assoc] at hrest
      rw [whileBelow, List.flatten_cons, List.length_append] at hloop
      obtain ⟨c, d1, hc, hloop⟩ := bind_ok.mp hloop
      obtain ⟨rfl, rfl⟩ := decoder_ok.mp hc
      rw [if_pos (by omega)] at hloop
      obtain ⟨first, d1, hfirst, hloop⟩ := bind_ok.mp hloop
      obtain ⟨others, d2, hothers, hloop⟩ := bind_ok.mp hloop
      obtain ⟨rfl, rfl⟩ := pure_ok.mp hloop
      obtain ⟨rfl, hvalue⟩ := htakes d _ first d1 hinput hrest hfirst
      rw [← Nat.add_assoc] at hothers
      obtain ⟨hmoved, hsame⟩ := ih fuel (d.advance x.length) tail others d2
        (fun y hy => hxs y (List.mem_cons_of_mem _ hy)) hinput
        (Decoder.rest_advance_of_rest hrest) hothers
      rw [Decoder.advance_advance] at hmoved
      rw [List.flatten_cons, List.length_append, List.map_cons, ← hvalue, ← hsame]
      exact ⟨hmoved, rfl⟩

theorem takes_listOf {room : ℕ → Bool} {xs : List Bytes} {fuel : ℕ}
    (hroom : Taken room xs.length) (hxs : ∀ x ∈ xs, x ≠ [] ∧ Takes item x fun a => x = e a) :
    Takes (listOf room item fuel) (encodeList xs.flatten) fun as => xs = as.map e := by
  apply takes_inList
  intro d tail as d' hinput hrest hstep
  dsimp only at hstep
  by_cases hzero : xs.flatten.length = 0
  · have hle := length_le_flatten fun x hx => (hxs x hx).1
    have hnil : xs = [] := List.eq_nil_of_length_eq_zero (by omega)
    rw [if_pos hzero] at hstep
    obtain ⟨rfl, rfl⟩ := pure_ok.mp hstep
    rw [hnil]
    exact ⟨rfl, rfl⟩
  · have hstop := pos_add_le (List.ne_nil_of_length_pos (Nat.pos_of_ne_zero hzero)) hrest
    rw [if_neg hzero] at hstep
    obtain ⟨c, d1, hc, hloop⟩ := bind_ok.mp hstep
    obtain ⟨rfl, rfl⟩ := decoder_ok.mp hc
    rw [Nat.mod_eq_of_lt (lt_of_le_of_lt hstop hinput)] at hloop
    obtain ⟨items, d1, hitems, hpush⟩ := bind_ok.mp hloop
    obtain ⟨rfl, rfl⟩ := pure_ok.mp hpush
    obtain ⟨hmoved, rfl⟩ := takes_whileBelow xs fuel d tail items d1 hxs hinput hrest hitems
    rw [List.length_map] at hroom
    exact ⟨hmoved, by rw [pushAll_of_taken hroom]⟩

theorem takes_times (xs : List Bytes) (hxs : ∀ x ∈ xs, Takes item x fun a => x = e a) :
    Takes (times item xs.length) xs.flatten fun as => xs = as.map e := by
  induction xs with
  | nil => exact takes_pure rfl
  | cons x xs ih =>
    have hothers := ih fun y hy => hxs y (List.mem_cons_of_mem _ hy)
    refine (hxs x List.mem_cons_self).bind ?_
    intro first hfirst
    refine hothers.bind_check ?_
    intro others d as d' hsame hstep
    obtain ⟨rfl, rfl⟩ := pure_ok.mp hstep
    exact ⟨rfl, by rw [List.map_cons, ← hfirst, ← hsame]⟩

end Loops

def FramedString (item : Bytes) : Prop := ∃ s, item = encodeString s

/-- An integer item: zero is the empty string, not the byte `0x00`. -/
def FramedInteger (item : Bytes) : Prop := ∃ s, item = encodeString s ∧ s ≠ [0]

/-- The item of a parity: an integer of at most one byte. -/
def FramedParity (item : Bytes) : Prop := ∃ s, item = encodeString s ∧ s ≠ [0] ∧ s.length ≤ 1

section Framing

variable (vectors : Growth)

/-- The item of an access list entry: a vector takes its keys. -/
def FramedAccessEntry (item : Bytes) : Prop :=
  ∃ (address : Bytes) (keys : List Bytes),
    item = encodeList (encodeString address ++ encodeList keys.flatten) ∧
    Taken (vectors keySize) keys.length ∧ ∀ key ∈ keys, FramedInteger key

def FramedAuthorization (item : Bytes) : Prop :=
  ∃ chainId address nonce yParity r s,
    item = encodeList (chainId ++ (address ++ (nonce ++ (yParity ++ (r ++ s))))) ∧
    FramedInteger chainId ∧ FramedString address ∧ FramedInteger nonce ∧ FramedParity yParity ∧
    FramedInteger r ∧ FramedInteger s

def FramedField : Kind → Bytes → Prop
  | .u64, item | .uint256, item => FramedInteger item
  | .yParity, item => FramedParity item
  | .optionalAddress, item | .address, item | .data, item => FramedString item
  | .accessList, item =>
    ∃ entries : List Bytes, item = encodeList entries.flatten ∧
      Taken (vectors accessEntrySize) entries.length ∧
      ∀ entry ∈ entries, FramedAccessEntry vectors entry
  | .authorizationList, item =>
    ∃ entries : List Bytes, item = encodeList entries.flatten ∧
      Taken (vectors authorizationSize) entries.length ∧
      ∀ entry ∈ entries, FramedAuthorization entry
  | .blobHashes, item => ∃ hashes : List Bytes, item = encodeList (hashes.map encodeString).flatten

def FramedFields : List Kind → Bytes → Prop
  | [], payload => payload = []
  | kind :: kinds, payload =>
    ∃ item others, payload = item ++ others ∧ FramedField vectors kind item ∧
      FramedFields kinds others

end Framing

variable {vectors : Growth} {alloc : Alloc}

section Items

variable {s : Bytes}

theorem takes_string : Takes (ofRlp rlpDecodeBytes) (encodeString s) fun v => v = s := by
  intro d tail v d' hinput hrest hstep
  rw [accepts_bytes s d tail hinput hrest] at hstep
  obtain ⟨hv, hd⟩ := Prod.mk.inj hstep
  exact ⟨hd.symm, (Except.ok.inj hv).symm⟩

/-- Two string tokens at one place are one string. -/
theorem eq_of_reads {d d' : Decoder} {s bytes tail : Bytes} (hinput : d.input.length < 2 ^ 64)
    (hrest : d.rest = encodeString s ++ tail) (hlt : bytes.length < 2 ^ 64)
    (hreads : Reads d [encodeString bytes] d') :
    bytes = s ∧ d' = d.advance (encodeString s).length := by
  have hs := lt_of_le_of_lt (length_le_encodeString s) (length_lt_of_rest hinput hrest)
  obtain ⟨hsame, hmoved, -⟩ := hreads.eq_of_rest (IsToken.string bytes hlt) (IsToken.string s hs) hrest
  exact ⟨encodeString_injective hlt hs hsame, hmoved⟩

theorem takes_integer (hzero : s ≠ [0]) : Takes decodeU64 (encodeString s)
    fun v => encodeString s = encodeNat v.toNat ∧ v.toNat < 256 ^ s.length := by
  intro d tail v d' hinput hrest hstep
  obtain ⟨r, hr, rfl⟩ := ofRlp_ok.mp hstep
  obtain ⟨bytes, -, hlt, hform, hreads⟩ := rlpDecodeU64_ok hr
  obtain ⟨rfl, hmoved⟩ := eq_of_reads hinput hrest hlt hreads
  exact ⟨hmoved, hform.form.resolve_left hzero, hform.value ▸ ofBytes_lt bytes⟩

theorem takes_u64 (h : FramedInteger item) :
    Takes decodeU64 item fun v => item = encodeNat v.toNat := by
  obtain ⟨s, rfl, hzero⟩ := h
  exact (takes_integer hzero).imp fun v hv => hv.1

/-- A parity of one byte is not cut. -/
theorem takes_yParity (h : FramedParity item) :
    Takes decodeYParity item fun v => item = encodeNat v.toUInt64.toNat := by
  obtain ⟨s, rfl, hzero, hlen⟩ := h
  refine (takes_integer hzero).bind_check ?_
  intro v d b d' hv hstep
  obtain ⟨rfl, rfl⟩ := pure_ok.mp hstep
  have hpow : 256 ^ s.length ≤ 256 ^ 1 := Nat.pow_le_pow_right (by decide) hlen
  have hbyte : v.toUInt8.toUInt64.toNat = v.toNat := by
    rw [UInt8.toNat_toUInt64, UInt64.toNat_toUInt8]
    omega
  exact ⟨rfl, by rw [hbyte, hv.1]⟩

theorem takes_uint256 (h : FramedInteger item) :
    Takes decodeUint256 item fun v => item = encodeNat v.toNat := by
  obtain ⟨s, rfl, hzero⟩ := h
  intro d tail v d' hinput hrest hstep
  obtain ⟨r, hr, rfl⟩ := ofRlp_ok.mp hstep
  obtain ⟨bytes, -, hlt, hform, hreads⟩ := rlpDecodeUint256_ok hr
  obtain ⟨rfl, hmoved⟩ := eq_of_reads hinput hrest hlt hreads
  exact ⟨hmoved, hform.form.resolve_left hzero⟩

theorem takes_address : Takes (ofRlp rlpDecodeAddress) (encodeString s)
    fun v => encodeString s = encodeString v.bytes := by
  intro d tail v d' hinput hrest hstep
  obtain ⟨r, hr, rfl⟩ := ofRlp_ok.mp hstep
  have hsize := r.value.size_eq
  obtain ⟨hsame, hmoved⟩ := eq_of_reads hinput hrest (by omega) (rlpDecodeAddress_ok hr)
  exact ⟨hmoved, congrArg encodeString hsame.symm⟩

theorem takes_optionalAddress :
    Takes (decodeOptionalAddress alloc) (encodeString s)
      fun v => encodeString s = encode (txEncodeOptionalAddress formatEncoders v) := by
  refine takes_string.bind_check ?_
  rintro bytes d v d' rfl hstep
  split at hstep
  · next hnil =>
    obtain ⟨rfl, rfl⟩ := pure_ok.mp hstep
    rw [List.eq_nil_of_length_eq_zero hnil]
    exact ⟨rfl, rfl⟩
  · split at hstep
    · split at hstep
      · obtain ⟨rfl, rfl⟩ := pure_ok.mp hstep
        exact ⟨rfl, rfl⟩
      · exact absurd hstep fail_ok
    · exact absurd hstep fail_ok

theorem takes_txData :
    Takes (decodeTxData alloc) (encodeString s) fun v => encodeString s = encodeString v := by
  refine takes_string.bind_check ?_
  rintro bytes d v d' rfl hstep
  split at hstep
  · split at hstep
    · obtain ⟨rfl, rfl⟩ := pure_ok.mp hstep
      exact ⟨rfl, rfl⟩
    · exact absurd hstep fail_ok
  · next hnil =>
    obtain ⟨rfl, rfl⟩ := pure_ok.mp hstep
    rw [List.eq_nil_of_length_eq_zero (by omega : bytes.length = 0)]
    exact ⟨rfl, rfl⟩

theorem takes_blobHash :
    Takes decodeBlobHash (encodeString s) fun v => encodeString s = encodeString v.bytes := by
  intro d tail v d' hinput hrest hstep
  have hs := lt_of_le_of_lt (length_le_encodeString s) (length_lt_of_rest hinput hrest)
  unfold decodeBlobHash at hstep
  rw [rlpDecodeBytes_encode hs hrest] at hstep
  dsimp only at hstep
  split at hstep
  · obtain ⟨hv, hd⟩ := Prod.mk.inj hstep
    rw [← Except.ok.inj hv]
    exact ⟨hd.symm, rfl⟩
  · cases hstep

theorem FramedInteger.ne_nil (h : FramedInteger item) : item ≠ [] := by
  obtain ⟨s, rfl, -⟩ := h
  exact encodeString_ne_nil s

theorem takes_accessEntry {fuel : ℕ} (h : FramedAccessEntry vectors item) :
    Takes (decodeAccessEntry vectors fuel) item
      fun v => item = encode (accessEntryTree formatEncoders v) := by
  obtain ⟨address, keys, rfl, hroom, hkeys⟩ := h
  apply takes_inList
  refine takes_address.bind ?_
  intro addr haddr
  have hlist := @takes_listOf _ _ (fun v : Word => encodeNat v.toNat) _ keys fuel hroom
    fun key hkey => ⟨(hkeys key hkey).ne_nil, takes_uint256 (hkeys key hkey)⟩
  refine hlist.bind_check ?_
  intro values d v d' hvalues hstep
  obtain ⟨rfl, rfl⟩ := pure_ok.mp hstep
  refine ⟨rfl, ?_⟩
  rw [haddr, hvalues, accessEntryTree, encode, encodeAll, encodeAll, encodeAll, encode, encode,
    encodeAll_map, List.append_nil]
  rfl

theorem takes_authorization (h : FramedAuthorization item) :
    Takes decodeAuthorization item
      fun v => item = encode (authorizationTree formatEncoders v) := by
  obtain ⟨chainId, address, nonce, yParity, r, s, rfl, hchainId, ⟨addr, rfl⟩, hnonce, hyParity, hr,
    hs⟩ := h
  apply takes_inList
  refine (takes_u64 hchainId).bind fun vChainId hChainId => ?_
  refine takes_address.bind fun vAddress hAddress => ?_
  refine (takes_u64 hnonce).bind fun vNonce hNonce => ?_
  refine (takes_yParity hyParity).bind fun vYParity hYParity => ?_
  refine (takes_uint256 hr).bind fun vR hR => ?_
  refine (takes_uint256 hs).bind_check ?_
  intro vS d v d' hS hstep
  obtain ⟨rfl, rfl⟩ := pure_ok.mp hstep
  refine ⟨rfl, ?_⟩
  rw [hChainId, hAddress, hNonce, hYParity, hR, hS]
  simp only [authorizationTree, encode, encodeAll, List.append_nil, formatEncoders]

end Items

section Fields

variable {alloc : Alloc} {fuel : ℕ}

theorem countItems_add {bound count : ℕ} (more : ℕ) : ∀ (fuel : ℕ) (d : Decoder),
    countItems fuel bound d = some count → countItems (fuel + more) bound d = some count := by
  intro fuel
  induction fuel generalizing count with
  | zero =>
    intro d h
    cases h
  | succ fuel ih =>
    intro d h
    rw [Nat.succ_add, countItems]
    rw [countItems] at h
    split at h
    · next hbelow =>
      obtain ⟨rest, hrest, rfl⟩ := Option.map_eq_some_iff.mp h
      rw [if_pos hbelow, ih (rlpSkipItem d) hrest]
      rfl
    · next hbelow =>
      rw [if_neg hbelow]
      exact h

/-- Where counting stops, it has counted the strings. -/
theorem countItems_ok {ss : List Bytes} {d : Decoder} {tail : Bytes} {count : ℕ}
    (hinput : d.input.length < 2 ^ 64) (hrest : d.rest = (ss.map encodeString).flatten ++ tail)
    (hcount : countItems fuel (d.pos + (ss.map encodeString).flatten.length) d = some count) :
    count = ss.length := by
  have hmore := countItems_add (ss.length + 1) fuel d hcount
  rw [countItems_encode ss _ d tail (by omega) hinput hrest] at hmore
  exact (Option.some.inj hmore).symm

theorem takes_blobHashes {hashes : List Bytes} : Takes (decodeBlobHashes alloc fuel)
    (encodeList (hashes.map encodeString).flatten)
    fun vs => hashes.map encodeString = vs.map fun v => encodeString v.bytes := by
  apply takes_inList
  intro d tail vs d' hinput hrest hstep
  dsimp only at hstep
  by_cases hzero : (hashes.map encodeString).flatten.length = 0
  · have hle := @length_le_flatten (hashes.map encodeString)
      (by simpa using fun s _ => encodeString_ne_nil s)
    rw [List.length_map] at hle
    have hnil : hashes = [] := List.eq_nil_of_length_eq_zero (by omega)
    rw [if_pos hzero] at hstep
    obtain ⟨rfl, rfl⟩ := pure_ok.mp hstep
    rw [hnil]
    exact ⟨rfl, rfl⟩
  · have hstop := pos_add_le (List.ne_nil_of_length_pos (Nat.pos_of_ne_zero hzero)) hrest
    rw [if_neg hzero] at hstep
    obtain ⟨c, d1, hc, hstep⟩ := bind_ok.mp hstep
    obtain ⟨rfl, rfl⟩ := decoder_ok.mp hc
    rw [Nat.mod_eq_of_lt (lt_of_le_of_lt hstop hinput)] at hstep
    cases hcount : countItems fuel (d.pos + (hashes.map encodeString).flatten.length) d with
    | none =>
      rw [hcount] at hstep
      exact absurd hstep fail_ok
    | some count =>
      have hnumber := countItems_ok hinput hrest hcount
      simp only [hcount] at hstep
      split at hstep
      · rw [hnumber, ← List.length_map (f := encodeString)] at hstep
        refine takes_times (hashes.map encodeString) ?_ d tail vs d' hinput hrest hstep
        intro x hx
        obtain ⟨s, -, rfl⟩ := List.mem_map.mp hx
        exact takes_blobHash
      · exact absurd hstep fail_ok

/-- An exactly framed item is taken only as the encoding of the value returned. -/
theorem takes_field {kind : Kind} (h : FramedField vectors kind item) :
    Takes (decodeField vectors alloc fuel kind) item
      fun v => item = encode (fieldTree formatEncoders kind v) := by
  cases kind with
  | u64 => exact takes_u64 h
  | uint256 => exact takes_uint256 h
  | yParity => exact takes_yParity h
  | optionalAddress =>
    obtain ⟨s, rfl⟩ := h
    exact takes_optionalAddress
  | address =>
    obtain ⟨s, rfl⟩ := h
    exact takes_address
  | data =>
    obtain ⟨s, rfl⟩ := h
    exact takes_txData
  | accessList =>
    obtain ⟨entries, rfl, hroom, hentries⟩ := h
    refine (takes_listOf hroom fun entry hentry =>
      ⟨?_, takes_accessEntry (hentries entry hentry)⟩).imp ?_
    · obtain ⟨address, keys, rfl, -⟩ := hentries entry hentry
      exact encodeList_ne_nil _
    · intro vs hvs
      rw [hvs, fieldTree, txEncodeAccessList, encode, encodeAll_map]
  | authorizationList =>
    obtain ⟨entries, rfl, hroom, hentries⟩ := h
    refine (takes_listOf hroom fun entry hentry =>
      ⟨?_, takes_authorization (hentries entry hentry)⟩).imp ?_
    · obtain ⟨chainId, address, nonce, yParity, r, s, rfl, -⟩ := hentries entry hentry
      exact encodeList_ne_nil _
    · intro vs hvs
      rw [hvs, fieldTree, txEncodeAuthorizationList, encode, encodeAll_map]
  | blobHashes =>
    obtain ⟨hashes, rfl⟩ := h
    refine takes_blobHashes.imp ?_
    intro vs hvs
    rw [hvs, fieldTree, blobHashesTree, encode, encodeAll_map]
    rfl

theorem takes_fields {kinds : List Kind} {payload : Bytes}
    (h : FramedFields vectors kinds payload) : Takes (decodeFields vectors alloc fuel kinds) payload
      fun vs => payload = encodeAll (fieldTrees formatEncoders kinds vs) := by
  induction kinds generalizing payload with
  | nil =>
    rw [h]
    exact takes_pure rfl
  | cons kind kinds ih =>
    obtain ⟨item, others, rfl, hitem, hothers⟩ := h
    refine (takes_field hitem).bind fun v hv => ?_
    refine (ih hothers).bind_check ?_
    intro vs d values d' hvs hstep
    obtain ⟨rfl, rfl⟩ := pure_ok.mp hstep
    refine ⟨rfl, ?_⟩
    rw [fieldTrees, encodeAll, ← hv, ← hvs]

end Fields

section Encodings

theorem toBytes_byteLength_ne_zero (n : ℕ) : toBytes (byteLength n) n ≠ [0] := by
  intro hbytes
  have hvalue := ofBytes_toBytes_byteLength n
  rw [hbytes] at hvalue
  have hzero : n = 0 := hvalue.symm
  rw [hzero] at hbytes
  cases hbytes

theorem encodeNat_framed (n : ℕ) : FramedInteger (encodeNat n) :=
  ⟨_, rfl, toBytes_byteLength_ne_zero n⟩

theorem encodeNat_framedParity (v : UInt8) : FramedParity (encodeNat v.toUInt64.toNat) := by
  refine ⟨_, rfl, toBytes_byteLength_ne_zero _, ?_⟩
  rw [toBytes_length, UInt8.toNat_toUInt64]
  exact byteLength_le_of_lt_pow (by simpa using v.toNat_lt)

theorem accessEntry_framed {entry : AccessListEntry}
    (hkept : Taken (vectors keySize) entry.storageKeys.length) :
    FramedAccessEntry vectors (encode (accessEntryTree formatEncoders entry)) := by
  refine ⟨entry.address.bytes, entry.storageKeys.map fun key => encodeNat key.toNat, ?_,
    by rwa [List.length_map], ?_⟩
  · rw [accessEntryTree, encode, encodeAll, encodeAll, encodeAll, encode, encode, encodeAll_map,
      List.append_nil]
    rfl
  · intro key hkey
    obtain ⟨word, -, rfl⟩ := List.mem_map.mp hkey
    exact encodeNat_framed word.toNat

theorem authorization_framed (auth : Authorization) :
    FramedAuthorization (encode (authorizationTree formatEncoders auth)) := by
  refine ⟨_, _, _, _, _, _, ?_, encodeNat_framed auth.chainId.toNat, ⟨auth.address.bytes, rfl⟩,
    encodeNat_framed auth.nonce.toNat, encodeNat_framedParity auth.yParity,
    encodeNat_framed auth.r.toNat, encodeNat_framed auth.s.toNat⟩
  simp only [authorizationTree, encode, encodeAll, List.append_nil, formatEncoders]

/-- The format frames its items exactly. -/
theorem field_framed {kind : Kind} {v : kind.Value} (hkept : KeptField vectors kind v) :
    FramedField vectors kind (encode (fieldTree formatEncoders kind v)) := by
  cases kind with
  | u64 => exact encodeNat_framed v.toNat
  | uint256 => exact encodeNat_framed v.toNat
  | yParity => exact encodeNat_framedParity v
  | optionalAddress =>
    cases v with
    | none => exact ⟨[], rfl⟩
    | some addr => exact ⟨addr.bytes, rfl⟩
  | address => exact ⟨v.bytes, rfl⟩
  | data => exact ⟨v, rfl⟩
  | accessList =>
    refine ⟨v.map fun entry => encode (accessEntryTree formatEncoders entry), ?_,
      by rw [List.length_map]; exact hkept.1, ?_⟩
    · rw [fieldTree, txEncodeAccessList, encode, encodeAll_map]
    · intro item hitem
      obtain ⟨entry, hentry, rfl⟩ := List.mem_map.mp hitem
      exact accessEntry_framed (hkept.2 entry hentry)
  | authorizationList =>
    refine ⟨v.map fun auth => encode (authorizationTree formatEncoders auth), ?_,
      by rw [List.length_map]; exact hkept, ?_⟩
    · rw [fieldTree, txEncodeAuthorizationList, encode, encodeAll_map]
    · intro item hitem
      obtain ⟨auth, -, rfl⟩ := List.mem_map.mp hitem
      exact authorization_framed auth
  | blobHashes =>
    refine ⟨v.map Hash.bytes, ?_⟩
    rw [fieldTree, blobHashesTree, encode, encodeAll_map, List.map_map]
    rfl

theorem fields_framed {kinds : List Kind} {vs : Values kinds}
    (hkept : KeptFields vectors kinds vs) :
    FramedFields vectors kinds (encodeAll (fieldTrees formatEncoders kinds vs)) := by
  induction kinds with
  | nil => rfl
  | cons kind kinds ih =>
    obtain ⟨v, vs⟩ := vs
    exact ⟨_, _, rfl, field_framed hkept.1, ih hkept.2⟩

end Encodings

def FramedList (vectors : Growth) (kinds : List Kind) (input : Bytes) : Prop :=
  ∃ payload trailing, input = encodeList payload ++ trailing ∧ FramedFields vectors kinds payload

section Format

variable {T : Type} {format : TxFormat T} {alloc : Alloc} {fuel : ℕ}

theorem takes_body {payload : Bytes} (hlt : (encodeList payload).length < 2 ^ 64)
    (h : FramedFields vectors format.kinds payload) :
    Takes (decodeBody format vectors alloc fuel) (encodeList payload) fun r =>
      encodeList payload = encode (.list (format.trees formatEncoders r.1)) ∧
        r.2 = (encodeList payload).length := by
  apply takes_inList
  refine (takes_fields h).bind_check ?_
  intro values d r d' hvalues hstep
  obtain ⟨rfl, rfl⟩ := pure_ok.mp hstep
  refine ⟨rfl, ?_, ?_⟩
  · rw [TxFormat.trees, format.toValues_ofValues, encode, ← hvalues]
  · rw [encodeList, List.length_append] at hlt ⊢
    exact Nat.mod_eq_of_lt hlt

/-- One type: what is consumed is the canonical list exactly when the list is framed. -/
theorem decodeTx_canonical_iff {data : Bytes} {tx : T} {n : ℕ} (hdata : data.length < 2 ^ 64)
    (h : decodeTx format vectors alloc fuel data = .ok (tx, n)) :
    n < 2 ^ 64 ∧ ((n ≤ data.length ∧
      data.take n = encode (.list (format.trees formatEncoders tx))) ↔
        FramedList vectors format.kinds data) := by
  obtain ⟨d', hbody⟩ := decodeTx_ok h
  constructor
  · obtain ⟨header, d1, -, hfields⟩ := bind_ok.mp hbody
    obtain ⟨values, d2, -, hreturn⟩ := bind_ok.mp hfields
    rw [← (Prod.mk.inj (pure_ok.mp hreturn).1).2]
    exact Nat.mod_lt _ (by decide)
  constructor
  · rintro ⟨hle, htake⟩
    refine ⟨_, data.drop n, ?_, fields_framed (kept_of_decodeTx h)⟩
    have hsplit := (List.take_append_drop n data).symm
    rw [htake, encode] at hsplit
    exact hsplit
  · rintro ⟨payload, trailing, rfl, hframed⟩
    rw [List.length_append] at hdata
    obtain ⟨-, hlist, hn⟩ := takes_body (by omega) hframed ⟨encodeList payload ++ trailing, 0⟩
      trailing (tx, n) d' (by rw [List.length_append]; exact hdata) rfl hbody
    dsimp only at hlist hn
    rw [hn, List.length_append, List.take_left' rfl]
    exact ⟨Nat.le_add_right _ _, hlist⟩

end Format

/-- The canonical encoding: the type byte and the list of the fields. -/
def canonicalEncoding : Tx → Bytes
  | .legacy tx => encode (.list (legacyFormat.trees formatEncoders tx))
  | .eip2930 tx => 0x01 :: encode (.list (eip2930Format.trees formatEncoders tx))
  | .eip1559 tx => 0x02 :: encode (.list (eip1559Format.trees formatEncoders tx))
  | .eip4844 tx => 0x03 :: encode (.list (eip4844Format.trees formatEncoders tx))
  | .eip7702 tx => 0x04 :: encode (.list (eip7702Format.trees formatEncoders tx))

/-- An input that starts with the list of a legacy transaction, or with a type byte and the
list of that type, where every list is filled exactly by its items and the vectors of the
decoder take the items of access lists and authorization lists. -/
def FramedTx (vectors : Growth) : Bytes → Prop
  | [] => False
  | first :: rest =>
    if 0xc0 ≤ first.toNat then FramedList vectors legacyFormat.kinds (first :: rest)
    else if first.toNat = 0x01 then FramedList vectors eip2930Format.kinds rest
    else if first.toNat = 0x02 then FramedList vectors eip1559Format.kinds rest
    else if first.toNat = 0x03 then FramedList vectors eip4844Format.kinds rest
    else if first.toNat = 0x04 then FramedList vectors eip7702Format.kinds rest
    else False

/-- What a successful decoding of `input` as `tx` with `n` bytes consumed should mean. -/
def ReadCanonically (input : Bytes) (tx : Tx) (n : ℕ) : Prop :=
  n ≤ input.length ∧ input.take n = canonicalEncoding tx

instance (input : Bytes) (tx : Tx) (n : ℕ) : Decidable (ReadCanonically input tx n) :=
  inferInstanceAs (Decidable (_ ∧ _))

/-- A typed transaction, with its type byte. -/
theorem typed_canonical_iff {T : Type} {format : TxFormat T} {fuel n : ℕ} {wrap : T → Tx}
    {b : UInt8} {body : Bytes} {tx : Tx}
    (hcanonical : ∀ t, canonicalEncoding (wrap t) = b :: encode (.list (format.trees formatEncoders t)))
    (hinput : (b :: body).length < 2 ^ 64)
    (h : typedResult wrap (decodeTx format vectors alloc fuel body) = .ok (tx, n)) :
    ReadCanonically (b :: body) tx n ↔ FramedList vectors format.kinds body := by
  obtain ⟨t, consumed, hdecoded, rfl, rfl⟩ := typedResult_ok.mp h
  rw [List.length_cons] at hinput
  obtain ⟨hlt, hiff⟩ := decodeTx_canonical_iff (by omega) hdecoded
  rw [← hiff, ReadCanonically, hcanonical, List.length_cons]
  by_cases hlast : consumed + 1 < 2 ^ 64
  · rw [Nat.mod_eq_of_lt hlast, List.take_succ_cons, List.cons_inj_right]
    exact and_congr_left fun _ => Nat.add_le_add_iff_right
  · -- the sum has wrapped to zero, and the input is shorter than what was announced
    have hwrap : (consumed + 1) % 2 ^ 64 = 0 := by omega
    rw [hwrap, List.take_zero]
    constructor
    · rintro ⟨-, hnil⟩
      cases hnil
    · rintro ⟨hle, -⟩
      omega

theorem readCanonically_iff {fuel : ℕ} {input : Bytes} {tx : Tx} {n : ℕ}
    (hinput : input.length < 2 ^ 64)
    (h : transactionDecode vectors alloc fuel input = .ok (tx, n)) :
    ReadCanonically input tx n ↔ FramedTx vectors input := by
  cases input with
  | nil => cases h
  | cons first rest =>
    rcases first_cases vectors alloc fuel first with hlist | rfl | rfl | rfl | rfl | hother
    · rw [transactionDecode, if_pos hlist] at h
      rw [FramedTx, if_pos hlist]
      obtain ⟨t, hdecoded, rfl⟩ := legacyResult_ok h
      exact (decodeTx_canonical_iff hinput hdecoded).2
    · exact typed_canonical_iff (fun _ => rfl) hinput h
    · exact typed_canonical_iff (fun _ => rfl) hinput h
    · exact typed_canonical_iff (fun _ => rfl) hinput h
    · exact typed_canonical_iff (fun _ => rfl) hinput h
    · rw [hother] at h
      cases h

/-- An accepted input is read canonically exactly when it is framed exactly. Hence two framed
inputs that are decoded to one transaction are decoded from the same bytes. -/
theorem transactionDecode_canonical_iff (vectors : Growth) (alloc : Alloc) (fuel : ℕ)
    (input : Bytes) (tx : Tx) (n : ℕ) (hinput : input.length < 2 ^ 64)
    (h : transactionDecode vectors alloc fuel input = .ok (tx, n)) :
    (ReadCanonically input tx n ↔ FramedTx vectors input) ∧
    (FramedTx vectors input → ∀ other m, other.length < 2 ^ 64 → FramedTx vectors other →
      transactionDecode vectors alloc fuel other = .ok (tx, m) → input.take n = other.take m) := by
  refine ⟨readCanonically_iff hinput h, ?_⟩
  intro hframed other m hother hframed' h'
  have hread := (readCanonically_iff hinput h).mpr hframed
  have hread' := (readCanonically_iff hother h').mpr hframed'
  rw [hread.2, hread'.2]

def zeroTx : Tx :=
  .legacy ⟨0, uint256Zero, 0, none, uint256Zero, [], 0, uint256Zero, uint256Zero⟩

def nineEmpty (header : UInt8) : Bytes := header :: List.replicate 9 0x80

theorem transactionDecode_canonical_nineEmpty :
    transactionDecode (.packed 65536) arenaAlloc 0 (nineEmpty 0xc9) = .ok (zeroTx, 10) ∧
    ReadCanonically (nineEmpty 0xc9) zeroTx 10 ∧ FramedTx (.packed 65536) (nineEmpty 0xc9) := by
  have hdecode : transactionDecode (.packed 65536) arenaAlloc 0 (nineEmpty 0xc9) =
      .ok (zeroTx, 10) := rfl
  have hread : ReadCanonically (nineEmpty 0xc9) zeroTx 10 := by decide +kernel
  exact ⟨hdecode, hread,
    (transactionDecode_canonical_iff _ _ _ _ _ _ (by decide) hdecode).1.mp hread⟩

/-- A list header that announces nothing is accepted in front of nine fields, so two inputs
of ten bytes give one transaction. -/
theorem not_readCanonically_nineEmpty :
    transactionDecode (.packed 65536) arenaAlloc 0 (nineEmpty 0xc0) = .ok (zeroTx, 1) ∧
    ¬ReadCanonically (nineEmpty 0xc0) zeroTx 1 ∧
    transactionDecode (.packed 65536) arenaAlloc 0 (nineEmpty 0xc9) = .ok (zeroTx, 10) := by
  refine ⟨rfl, ?_, rfl⟩
  decide +kernel

end Div0.TxCanonical
