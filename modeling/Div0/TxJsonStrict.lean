import Div0.TxJson

/-!
When the transaction parser is strict. A parsed transaction has exactly the values that the
fields of the object denote if the fields read without a check are well formed, the two
names of one field agree, the parity is in its range, the calldata fits the allocator, and
no string goes on behind a NUL character, where C stops to read.
-/

namespace Div0.TxJsonStrict

open BigEndian Buffer Uint256 Hex Transaction JsonValues TxJson

variable {alloc : Alloc} {obj : Json}

section Fields

variable {α : Type} (denote : String → Option α) (obj : Json) (key : String)

def Denotes (value : α) : Prop := ∀ s, obj.get key = some (.str s) → denote s = some value

/-- A field that is a string denotes some value. -/
def WellFormed : Prop := ∀ s, obj.get key = some (.str s) → ∃ value, denote s = some value

def Agree (other : String) : Prop :=
  ∀ s t, obj.get key = some (.str s) → obj.get other = some (.str t) → denote s = denote t

def Whole : Prop := ∀ s, obj.get key = some (.str s) → nul ∉ s.toList

def Room (alloc : Alloc) : Prop := ∀ s bytes, obj.get key = some (.str s) →
  denoteBytes s = some bytes → bytes.length ≠ 0 → alloc bytes.length = true

variable {denote obj key} {other : String} {value : α}

/-- A field read as it denotes is exact where it is well formed. -/
theorem denotes_iff_wellFormed
    (h : ∀ s v, obj.get key = some (.str s) → denote s = some v → v = value) :
    Denotes denote obj key value ↔ WellFormed denote obj key := by
  constructor
  · exact fun hdenotes s hs => ⟨value, hdenotes s hs⟩
  · intro hformed s hs
    obtain ⟨v, hv⟩ := hformed s hs
    rw [hv, h s v hs hv]

/-- A field that had to be readable is exact where C sees all of it. -/
theorem denotes_iff_whole
    (h : ∀ s, obj.get key = some (.str s) → (denote s = some value ↔ nul ∉ s.toList)) :
    Denotes denote obj key value ↔ Whole obj key :=
  forall₂_congr h

/-- Two names of one field, the first of which is preferred. -/
theorem denotes_pair_iff
    (hfirst : ∀ s v, obj.get key = some (.str s) → denote s = some v → v = value)
    (hsecond : (∀ s, obj.get key ≠ some (.str s)) → ∀ t v, obj.get other = some (.str t) →
      denote t = some v → v = value) :
    (Denotes denote obj key value ∧ Denotes denote obj other value) ↔
      WellFormed denote obj key ∧ WellFormed denote obj other ∧ Agree denote obj key other := by
  constructor
  · rintro ⟨hkey, hother⟩
    exact ⟨fun s hs => ⟨value, hkey s hs⟩, fun t ht => ⟨value, hother t ht⟩,
      fun s t hs ht => (hkey s hs).trans (hother t ht).symm⟩
  · rintro ⟨hkey, hother, hagree⟩
    have hexact : Denotes denote obj key value := (denotes_iff_wellFormed hfirst).mpr hkey
    refine ⟨hexact, fun t ht => ?_⟩
    by_cases hstr : ∃ s, obj.get key = some (.str s)
    · obtain ⟨s, hs⟩ := hstr
      exact (hagree s t hs ht).symm.trans (hexact s hs)
    · obtain ⟨v, hv⟩ := hother t ht
      rw [hv, hsecond (not_exists.mp hstr) t v ht hv]

end Fields

section Reads

variable {key : String} {s : String}

theorem jsonGetHexU64_of_denote {v : UInt64} (hs : obj.get key = some (.str s))
    (h : denoteU64 s = some v) : jsonGetHexU64 obj key = some v := by
  rw [jsonGetHexU64, hs]
  exact (denoteU64_eq_some.mp h).1

/-- Only a string is read as a number. -/
theorem jsonGetHexU64_of_ne_str (h : ∀ s, obj.get key ≠ some (.str s)) :
    jsonGetHexU64 obj key = none := by
  rw [jsonGetHexU64]
  cases hget : obj.get key with
  | none => rfl
  | some val =>
    cases val with
    | str s => exact absurd hget (h s)
    | _ => rfl

theorem readU64_exact : Denotes denoteU64 obj key (readU64 obj key) ↔
    WellFormed denoteU64 obj key := by
  refine denotes_iff_wellFormed fun s v hs hv => ?_
  rw [readU64, jsonGetHexU64_of_denote hs hv, Option.getD_some]

theorem readUint256_exact : Denotes denoteUint256 obj key (readUint256 obj key) ↔
    WellFormed denoteUint256 obj key := by
  refine denotes_iff_wellFormed fun s v hs hv => ?_
  rw [readUint256, jsonGetHexUint256, hs]
  exact (congrArg Prod.snd (denoteUint256_eq_some.mp hv).1).symm

theorem parseGas_exact :
    (Denotes denoteU64 obj "gas" (parseGas obj) ∧ Denotes denoteU64 obj "gasLimit" (parseGas obj)) ↔
      WellFormed denoteU64 obj "gas" ∧ WellFormed denoteU64 obj "gasLimit" ∧
        Agree denoteU64 obj "gas" "gasLimit" := by
  refine denotes_pair_iff (fun s v hs hv => ?_) fun hstr t v ht hv => ?_
  · rw [parseGas, jsonGetHexU64_of_denote hs hv, Option.getD_some]
  · rw [parseGas, jsonGetHexU64_of_ne_str hstr, Option.getD_none, readU64,
      jsonGetHexU64_of_denote ht hv, Option.getD_some]

/-- Bytes are read as they are denoted if there is room for them. -/
theorem jsonGetHexBytes_of_denote {bytes : Bytes} (hs : obj.get key = some (.str s))
    (h : denoteBytes s = some bytes) (hroom : bytes.length ≠ 0 → alloc bytes.length = true) :
    jsonGetHexBytes alloc obj key = some bytes := by
  rw [jsonGetHexBytes, hs]
  exact jsonValHexBytes_eq_some.mpr ⟨(denoteBytes_eq_some.mp h).1, hroom⟩

theorem room_of_jsonGetHexBytes {bytes : Bytes} (h : jsonGetHexBytes alloc obj key = some bytes)
    (hne : bytes.length ≠ 0) : alloc bytes.length = true := by
  obtain ⟨val, -, hval⟩ := Option.bind_eq_some_iff.mp h
  cases val with
  | str s => exact (jsonValHexBytes_eq_some.mp hval).2 hne
  | _ => exact absurd hval (by rintro ⟨⟩)

/-- Calldata that is there was read from one of the two fields. -/
theorem room_parseData (hne : (parseData alloc obj).length ≠ 0) :
    alloc (parseData alloc obj).length = true := by
  have hread : ∀ key, ((jsonGetHexBytes alloc obj key).getD []).length ≠ 0 →
      alloc ((jsonGetHexBytes alloc obj key).getD []).length = true := by
    intro key hlength
    cases hget : jsonGetHexBytes alloc obj key with
    | none => exact absurd (by rw [hget]; rfl) hlength
    | some bytes =>
      rw [hget] at hlength
      exact room_of_jsonGetHexBytes hget hlength
  unfold parseData at hne ⊢
  dsimp only at hne ⊢
  split at hne
  · next hzero =>
    rw [if_pos hzero] at ⊢
    rw [List.eq_nil_of_length_eq_zero hzero] at hne ⊢
    exact hread "data" hne
  · next hpos =>
    rw [if_neg hpos]
    exact hread "input" hne

theorem jsonGetHexBytes_of_ne_str (h : ∀ s, obj.get key ≠ some (.str s)) :
    jsonGetHexBytes alloc obj key = none := by
  rw [jsonGetHexBytes]
  cases hget : obj.get key with
  | none => rfl
  | some val =>
    cases val with
    | str s => exact absurd hget (h s)
    | _ => rfl

theorem parseData_exact :
    (Denotes denoteBytes obj "input" (parseData alloc obj) ∧
        Denotes denoteBytes obj "data" (parseData alloc obj)) ↔
      WellFormed denoteBytes obj "input" ∧ WellFormed denoteBytes obj "data" ∧
        Agree denoteBytes obj "input" "data" ∧ Room obj "input" alloc ∧ Room obj "data" alloc := by
  constructor
  · rintro ⟨hinput, hdata⟩
    have hroom : ∀ key, Denotes denoteBytes obj key (parseData alloc obj) → Room obj key alloc := by
      intro key hkey s bytes hs hbytes hne
      obtain rfl := Option.some.inj (hbytes.symm.trans (hkey s hs))
      exact room_parseData hne
    exact ⟨fun s hs => ⟨_, hinput s hs⟩, fun s hs => ⟨_, hdata s hs⟩,
      fun s t hs ht => (hinput s hs).trans (hdata t ht).symm, hroom _ hinput, hroom _ hdata⟩
  · rintro ⟨hinput, hdata, hagree, hroomInput, hroomData⟩
    have hgiven : ∀ key, Room obj key alloc → ∀ s v, obj.get key = some (.str s) →
        denoteBytes s = some v → jsonGetHexBytes alloc obj key = some v :=
      fun key hroom s v hs hv => jsonGetHexBytes_of_denote hs hv (hroom s v hs hv)
    refine (denotes_pair_iff (fun s v hs hv => ?_) fun hstr t v ht hv => ?_).mpr
      ⟨hinput, hdata, hagree⟩
    · rw [parseData, hgiven "input" hroomInput s v hs hv, Option.getD_some]
      split
      · next hzero =>
        -- An empty input hands over to `data`, which then denotes nothing either.
        by_cases hother : ∃ t, obj.get "data" = some (.str t)
        · obtain ⟨t, ht⟩ := hother
          rw [hgiven "data" hroomData t v ht ((hagree s t hs ht).symm.trans hv), Option.getD_some]
        · rw [jsonGetHexBytes_of_ne_str (not_exists.mp hother), Option.getD_none]
      · rfl
    · rw [parseData, jsonGetHexBytes_of_ne_str hstr, hgiven "data" hroomData t v ht hv]
      rfl

def denoteParity (s : String) : Option UInt8 :=
  (denoteU64 s).bind fun y => if y < 256 then some y.toUInt8 else none

def PlainV (obj : Json) : Prop := (∀ s, obj.get "yParity" ≠ some (.str s)) →
  ∀ t y, obj.get "v" = some (.str t) → denoteU64 t = some y → y < 2

theorem denoteParity_eq_some {y : UInt8} :
    denoteParity s = some y ↔ denoteU64 s = some y.toUInt64 := by
  rw [denoteParity, Option.bind_eq_some_iff]
  simp only [Option.ite_none_right_eq_some, Option.some.injEq]
  constructor
  · rintro ⟨v, hv, hlt, rfl⟩
    rw [hv, Option.some.injEq, ← UInt64.toNat_inj, UInt8.toNat_toUInt64, UInt64.toNat_toUInt8]
    have hnat : v.toNat < 256 := UInt64.lt_iff_toNat_lt.mp hlt
    omega
  · intro h
    refine ⟨y.toUInt64, h, UInt64.lt_iff_toNat_lt.mpr ?_, UInt8.toUInt8_toUInt64 y⟩
    exact (UInt8.toNat_toUInt64 y).trans_lt y.toNat_lt

theorem parseYParity_exact :
    (Denotes denoteParity obj "yParity" (parseYParity obj) ∧
        Denotes denoteParity obj "v" (parseYParity obj)) ↔
      WellFormed denoteParity obj "yParity" ∧ WellFormed denoteParity obj "v" ∧
        Agree denoteParity obj "yParity" "v" ∧ PlainV obj := by
  have hlow : ∀ {t : String} {y : UInt64}, (∀ s, obj.get "yParity" ≠ some (.str s)) →
      obj.get "v" = some (.str t) → denoteU64 t = some y →
      (parseYParity obj).toUInt64.toNat = y.toNat % 2 := by
    intro t y hstr ht hy
    rw [parseYParity, jsonGetHexU64_of_ne_str hstr, jsonGetHexU64_of_denote ht hy]
    dsimp only
    rw [UInt8.toNat_toUInt64, UInt64.toNat_toUInt8, UInt64.toNat_and,
      show (1 : UInt64).toNat = 2 ^ 1 - 1 from rfl, Nat.and_two_pow_sub_one_eq_mod]
    omega
  constructor
  · rintro ⟨hy, hv⟩
    refine ⟨fun s hs => ⟨_, hy s hs⟩, fun t ht => ⟨_, hv t ht⟩,
      fun s t hs ht => (hy s hs).trans (hv t ht).symm, fun hstr t y ht hdenote => ?_⟩
    have hmod := hlow hstr ht hdenote
    rw [Option.some.inj ((denoteParity_eq_some.mp (hv t ht)).symm.trans hdenote)] at hmod
    exact UInt64.lt_iff_toNat_lt.mpr (hmod ▸ Nat.mod_lt _ (by decide))
  · rintro ⟨hy, hv, hagree, hplain⟩
    refine (denotes_pair_iff (fun s v hs hdenote => ?_) fun hstr t v ht hdenote => ?_).mpr
      ⟨hy, hv, hagree⟩
    · rw [parseYParity, jsonGetHexU64_of_denote hs (denoteParity_eq_some.mp hdenote)]
      exact (UInt8.toUInt8_toUInt64 v).symm
    · have hnat := denoteParity_eq_some.mp hdenote
      have hmod := hlow hstr ht hnat
      have hlt : v.toUInt64.toNat < 2 := UInt64.lt_iff_toNat_lt.mp (hplain hstr t _ ht hnat)
      rw [Nat.mod_eq_of_lt hlt, UInt8.toNat_toUInt64, UInt8.toNat_toUInt64] at hmod
      exact (UInt8.toNat_inj.mp hmod).symm

end Reads

variable {addr : Address}

section Lists

/-- If each read element is exact under a condition on its source, the list is exact if
all elements meet it. -/
theorem forall₂_exact_iff {α β : Type} {reads exact : α → β → Prop} {tidy : α → Prop} {l : List α}
    {r : List β} (hreads : List.Forall₂ reads l r)
    (h : ∀ a b, reads a b → (exact a b ↔ tidy a)) :
    List.Forall₂ exact l r ↔ ∀ a ∈ l, tidy a := by
  induction hreads with
  | nil => exact iff_of_true .nil (List.forall_mem_nil _)
  | cons hab _ ih => rw [List.forall₂_cons, List.forall_mem_cons, h _ _ hab, ih]

def StrictList {α : Type} (strict : Json → α → Prop) (obj : Json) (key : String) (list : List α) :
    Prop :=
  ∀ items, obj.get key = some (.arr items) → List.Forall₂ strict items list

def TidyList (tidy : Json → Prop) (obj : Json) (key : String) : Prop :=
  ∀ items, obj.get key = some (.arr items) → ∀ item ∈ items, tidy item

def StrictItem {α : Type} (denote : String → Option α) (item : Json) (value : α) : Prop :=
  ∀ s, item = .str s → denote s = some value

def WholeItem (item : Json) : Prop := ∀ s, item = .str s → nul ∉ s.toList

def StrictEntry (entry : Json) (value : AccessListEntry) : Prop :=
  Denotes denoteAddress entry "address" value.address ∧
    StrictList (StrictItem denoteUint256) entry "storageKeys" value.storageKeys

def TidyEntry (entry : Json) : Prop :=
  Whole entry "address" ∧ TidyList WholeItem entry "storageKeys"

def StrictAuthorization (auth : Json) (value : Authorization) : Prop :=
  Denotes denoteU64 auth "chainId" value.chainId ∧
    Denotes denoteAddress auth "address" value.address ∧
    Denotes denoteU64 auth "nonce" value.nonce ∧
    (Denotes denoteParity auth "yParity" value.yParity ∧
      Denotes denoteParity auth "v" value.yParity) ∧
    Denotes denoteUint256 auth "r" value.r ∧ Denotes denoteUint256 auth "s" value.s

def TidyParity (obj : Json) : Prop :=
  WellFormed denoteParity obj "yParity" ∧ WellFormed denoteParity obj "v" ∧
    Agree denoteParity obj "yParity" "v" ∧ PlainV obj

def TidyAuthorization (auth : Json) : Prop :=
  WellFormed denoteU64 auth "chainId" ∧ Whole auth "address" ∧ Whole auth "nonce" ∧
    TidyParity auth ∧ Whole auth "r" ∧ Whole auth "s"

variable {α : Type}

theorem required_eq_ok {v : Option α} {error : JsonError} {detail : String} {a : α} :
    required v error detail = .ok a ↔ v = some a := by
  cases v with
  | none => exact iff_of_false (by rintro ⟨⟩) (by rintro ⟨⟩)
  | some b => exact ⟨fun h => congrArg some (Except.ok.inj h), fun h => congrArg _ (Option.some.inj h)⟩

theorem if_eq_ok {r : Bool × α} {e : JsonErr} {a : α} :
    (if r.1 then Except.ok r.2 else Except.error e) = Except.ok a ↔ r = (true, a) := by
  rcases r with ⟨b, x⟩
  cases b with
  | false => exact iff_of_false (by rintro ⟨⟩) (by rintro ⟨⟩)
  | true => exact ⟨fun h => congrArg _ (Except.ok.inj h), fun h => congrArg _ (Prod.mk.inj h).2⟩

variable {key : String}

theorem address_exact (h : jsonGetHexAddress obj key = some addr) :
    Denotes denoteAddress obj key addr ↔ Whole obj key := by
  refine denotes_iff_whole fun s hs => ?_
  rw [jsonGetHexAddress, hs] at h
  exact denoteAddress_eq_some.trans (and_iff_right h)

theorem u64_exact {v : UInt64} (h : jsonGetHexU64 obj key = some v) :
    Denotes denoteU64 obj key v ↔ Whole obj key := by
  refine denotes_iff_whole fun s hs => ?_
  rw [jsonGetHexU64, hs] at h
  exact denoteU64_eq_some.trans (and_iff_right h)

theorem uint256_exact {v : Word} (h : jsonGetHexUint256 obj key uint256Zero = (true, v)) :
    Denotes denoteUint256 obj key v ↔ Whole obj key := by
  refine denotes_iff_whole fun s hs => ?_
  rw [jsonGetHexUint256, hs] at h
  exact denoteUint256_eq_some.trans (and_iff_right h)

/-- A list read element by element. -/
theorem list_exact (read : Json → Except JsonErr α) {strict : Json → α → Prop}
    {tidy : Json → Prop} {list : List α}
    (h : ∀ items, obj.get key = some (.arr items) → items.mapM read = .ok list)
    (helem : ∀ item value, read item = .ok value → (strict item value ↔ tidy item)) :
    StrictList strict obj key list ↔ TidyList tidy obj key :=
  forall₂_congr fun items hitems => forall₂_exact_iff (mapM_eq_ok.mp (h items hitems)) helem

theorem entry_exact {entry : Json} {value : AccessListEntry}
    (h : parseAccessListEntry alloc entry = .ok value) :
    StrictEntry entry value ↔ TidyEntry entry := by
  cases entry with
  | obj fields =>
    obtain ⟨address, haddress, h⟩ := bind_eq_ok.mp h
    obtain ⟨storageKeys, hkeys, hvalue⟩ := bind_eq_ok.mp h
    obtain rfl := Except.ok.inj hvalue
    refine and_congr (address_exact (required_eq_ok.mp haddress)) ?_
    refine list_exact parseStorageKey (fun items hitems => ?_) fun item key hread => ?_
    · rw [hitems] at hkeys
      obtain ⟨-, -, hmap⟩ := bind_eq_ok.mp hkeys
      exact hmap
    · refine forall₂_congr fun s hs => ?_
      rw [hs] at hread
      exact denoteUint256_eq_some.trans (and_iff_right (if_eq_ok.mp hread))
  | _ => exact absurd h (by rintro ⟨⟩)

theorem authorization_exact {auth : Json} {value : Authorization}
    (h : parseAuthorization auth = .ok value) :
    StrictAuthorization auth value ↔ TidyAuthorization auth := by
  cases auth with
  | obj fields =>
    obtain ⟨address, haddress, h⟩ := bind_eq_ok.mp h
    obtain ⟨nonce, hnonce, h⟩ := bind_eq_ok.mp h
    obtain ⟨r, hr, h⟩ := bind_eq_ok.mp h
    obtain ⟨s, hs, hvalue⟩ := bind_eq_ok.mp h
    obtain rfl := Except.ok.inj hvalue
    exact and_congr readU64_exact (and_congr (address_exact (required_eq_ok.mp haddress))
      (and_congr (u64_exact (required_eq_ok.mp hnonce)) (and_congr parseYParity_exact
        (and_congr (uint256_exact (if_eq_ok.mp hr)) (uint256_exact (if_eq_ok.mp hs))))))
  | _ => exact absurd h (by rintro ⟨⟩)

theorem accessList_exact {list : AccessList}
    (h : parseAccessList alloc (obj.get key) = .ok list) :
    StrictList StrictEntry obj key list ↔ TidyList TidyEntry obj key := by
  refine list_exact (parseAccessListEntry alloc) (fun items hitems => ?_) fun _ _ => entry_exact
  rw [hitems] at h
  obtain ⟨-, -, hmap⟩ := bind_eq_ok.mp h
  exact hmap

theorem authorizationList_exact {list : AuthorizationList}
    (h : parseAuthorizationList alloc (obj.get key) = .ok list) :
    StrictList StrictAuthorization obj key list ↔ TidyList TidyAuthorization obj key := by
  refine list_exact parseAuthorization (fun items hitems => ?_) fun _ _ => authorization_exact
  rw [hitems] at h
  obtain ⟨-, -, hmap⟩ := bind_eq_ok.mp h
  exact hmap

theorem blobHashes_exact {list : List Hash} (h : parseBlobHashes alloc (obj.get key) = .ok list) :
    StrictList (StrictItem denoteHash) obj key list ↔ TidyList WholeItem obj key := by
  refine list_exact parseBlobHash (fun items hitems => ?_) fun item hash hread => ?_
  · rw [hitems] at h
    obtain ⟨-, -, hmap⟩ := bind_eq_ok.mp h
    exact hmap
  · refine forall₂_congr fun s hs => ?_
    rw [hs] at hread
    exact denoteHash_eq_some.trans (and_iff_right (required_eq_ok.mp hread))

end Lists

section Recipients

def denoteRecipient (s : String) : Option (Option Address) := (denoteAddress s).map some

theorem denoteRecipient_eq_some {s : String} :
    denoteRecipient s = some (some addr) ↔ denoteAddress s = some addr := by
  rw [denoteRecipient, Option.map_eq_some_iff]
  simp only [Option.some.injEq, exists_eq_right]

theorem parseTo_exact {recipient : Option Address} (h : parseTo alloc obj = .ok recipient) :
    Denotes denoteRecipient obj "to" recipient ↔ Whole obj "to" := by
  refine denotes_iff_whole fun s hs => ?_
  rw [parseTo, hs] at h
  obtain ⟨-, -, h⟩ := bind_eq_ok.mp h
  obtain ⟨addr, haddr, hvalue⟩ := bind_eq_ok.mp h
  obtain rfl := Except.ok.inj hvalue
  rw [denoteRecipient_eq_some, denoteAddress_eq_some]
  exact and_iff_right (required_eq_ok.mp haddr)

theorem required_to_exact {error : JsonError} {detail : String}
    (h : required (jsonGetHexAddress obj "to") error detail = .ok addr) :
    Denotes denoteRecipient obj "to" (some addr) ↔ Whole obj "to" := by
  rw [← address_exact (required_eq_ok.mp h)]
  exact forall₂_congr fun s _ => denoteRecipient_eq_some

end Recipients

section Transactions

def typeNumber : Tx → UInt64
  | .legacy _ => 0
  | .eip2930 _ => 1
  | .eip1559 _ => 2
  | .eip4844 _ => 3
  | .eip7702 _ => 4

/-- The fields that all types have are exact. -/
structure StrictShared (obj : Json) (tx : Tx) (r s : Word) : Prop where
  type : Denotes denoteU64 obj "type" (typeNumber tx)
  nonce : Denotes denoteU64 obj "nonce" (transactionNonce tx)
  gas : Denotes denoteU64 obj "gas" (transactionGasLimit tx) ∧
    Denotes denoteU64 obj "gasLimit" (transactionGasLimit tx)
  value : Denotes denoteUint256 obj "value" (transactionValue tx)
  data : Denotes denoteBytes obj "input" (transactionData tx) ∧
    Denotes denoteBytes obj "data" (transactionData tx)
  recipient : Denotes denoteRecipient obj "to" (transactionTo tx)
  r : Denotes denoteUint256 obj "r" r
  s : Denotes denoteUint256 obj "s" s

def StrictTyped (obj : Json) (chainId : UInt64) (yParity : UInt8) (list : AccessList) : Prop :=
  Denotes denoteU64 obj "chainId" chainId ∧
    (Denotes denoteParity obj "yParity" yParity ∧ Denotes denoteParity obj "v" yParity) ∧
    StrictList StrictEntry obj "accessList" list

def StrictFees (obj : Json) (maxPriorityFeePerGas maxFeePerGas : Word) : Prop :=
  Denotes denoteUint256 obj "maxPriorityFeePerGas" maxPriorityFeePerGas ∧
    Denotes denoteUint256 obj "maxFeePerGas" maxFeePerGas

/-- Every field of the object that is a string is well formed, and the transaction has
exactly the value it denotes. -/
def Strict (obj : Json) : Tx → Prop
  | .legacy tx => StrictShared obj (.legacy tx) tx.r tx.s ∧
      Denotes denoteUint256 obj "gasPrice" tx.gasPrice ∧ Denotes denoteU64 obj "v" tx.v
  | .eip2930 tx => StrictShared obj (.eip2930 tx) tx.r tx.s ∧
      Denotes denoteUint256 obj "gasPrice" tx.gasPrice ∧
      StrictTyped obj tx.chainId tx.yParity tx.accessList
  | .eip1559 tx => StrictShared obj (.eip1559 tx) tx.r tx.s ∧
      StrictFees obj tx.maxPriorityFeePerGas tx.maxFeePerGas ∧
      StrictTyped obj tx.chainId tx.yParity tx.accessList
  | .eip4844 tx => StrictShared obj (.eip4844 tx) tx.r tx.s ∧
      StrictFees obj tx.maxPriorityFeePerGas tx.maxFeePerGas ∧
      StrictTyped obj tx.chainId tx.yParity tx.accessList ∧
      Denotes denoteUint256 obj "maxFeePerBlobGas" tx.maxFeePerBlobGas ∧
      StrictList (StrictItem denoteHash) obj "blobVersionedHashes" tx.blobVersionedHashes
  | .eip7702 tx => StrictShared obj (.eip7702 tx) tx.r tx.s ∧
      StrictFees obj tx.maxPriorityFeePerGas tx.maxFeePerGas ∧
      StrictTyped obj tx.chainId tx.yParity tx.accessList ∧
      StrictList StrictAuthorization obj "authorizationList" tx.authorizationList

/-- What the parser does not check of the fields that all types have. -/
structure TidyShared (alloc : Alloc) (obj : Json) : Prop where
  type : WellFormed denoteU64 obj "type"
  nonce : WellFormed denoteU64 obj "nonce"
  gas : WellFormed denoteU64 obj "gas" ∧ WellFormed denoteU64 obj "gasLimit" ∧
    Agree denoteU64 obj "gas" "gasLimit"
  value : WellFormed denoteUint256 obj "value"
  data : WellFormed denoteBytes obj "input" ∧ WellFormed denoteBytes obj "data" ∧
    Agree denoteBytes obj "input" "data" ∧ Room obj "input" alloc ∧ Room obj "data" alloc
  recipient : Whole obj "to"
  r : WellFormed denoteUint256 obj "r"
  s : WellFormed denoteUint256 obj "s"

def TidyTyped (obj : Json) : Prop :=
  WellFormed denoteU64 obj "chainId" ∧ TidyParity obj ∧ TidyList TidyEntry obj "accessList"

def TidyFees (obj : Json) : Prop :=
  WellFormed denoteUint256 obj "maxPriorityFeePerGas" ∧ WellFormed denoteUint256 obj "maxFeePerGas"

def TidyOfType (obj : Json) : ℕ → Prop
  | 0 => WellFormed denoteUint256 obj "gasPrice" ∧ WellFormed denoteU64 obj "v"
  | 1 => WellFormed denoteUint256 obj "gasPrice" ∧ TidyTyped obj
  | 2 => TidyFees obj ∧ TidyTyped obj
  | 3 => TidyFees obj ∧ TidyTyped obj ∧ WellFormed denoteUint256 obj "maxFeePerBlobGas" ∧
      TidyList WholeItem obj "blobVersionedHashes"
  | _ => TidyFees obj ∧ TidyTyped obj ∧ TidyList TidyAuthorization obj "authorizationList"

/-- The object is fine where the parser does not look. -/
def Tidy (alloc : Alloc) (obj : Json) : Prop :=
  TidyShared alloc obj ∧ TidyOfType obj (readU64 obj "type").toNat

theorem shared_exact {tx : Tx} {r s : Word} (htype : typeNumber tx = readU64 obj "type")
    (hnonce : transactionNonce tx = readU64 obj "nonce")
    (hgas : transactionGasLimit tx = parseGas obj)
    (hvalue : transactionValue tx = readUint256 obj "value")
    (hdata : transactionData tx = parseData alloc obj)
    (hto : Denotes denoteRecipient obj "to" (transactionTo tx) ↔ Whole obj "to")
    (hr : r = readUint256 obj "r") (hs : s = readUint256 obj "s") :
    StrictShared obj tx r s ↔ TidyShared alloc obj := by
  constructor
  · intro h
    exact
      { type := readU64_exact.mp (htype ▸ h.type)
        nonce := readU64_exact.mp (hnonce ▸ h.nonce)
        gas := parseGas_exact.mp (hgas ▸ h.gas)
        value := readUint256_exact.mp (hvalue ▸ h.value)
        data := parseData_exact.mp (hdata ▸ h.data)
        recipient := hto.mp h.recipient
        r := readUint256_exact.mp (hr ▸ h.r)
        s := readUint256_exact.mp (hs ▸ h.s) }
  · intro h
    exact
      { type := htype ▸ readU64_exact.mpr h.type
        nonce := hnonce ▸ readU64_exact.mpr h.nonce
        gas := hgas ▸ parseGas_exact.mpr h.gas
        value := hvalue ▸ readUint256_exact.mpr h.value
        data := hdata ▸ parseData_exact.mpr h.data
        recipient := hto.mpr h.recipient
        r := hr ▸ readUint256_exact.mpr h.r
        s := hs ▸ readUint256_exact.mpr h.s }

theorem typed_exact {list : AccessList}
    (hlist : parseAccessList alloc (obj.get "accessList") = .ok list) :
    StrictTyped obj (readU64 obj "chainId") (parseYParity obj) list ↔ TidyTyped obj :=
  and_congr readU64_exact (and_congr parseYParity_exact (accessList_exact hlist))

theorem fees_exact :
    StrictFees obj (readUint256 obj "maxPriorityFeePerGas") (readUint256 obj "maxFeePerGas") ↔
      TidyFees obj :=
  and_congr readUint256_exact readUint256_exact

/-- A branch of the parser is strict if the object is tidy for its type. -/
theorem parseTyped_exact {tx : Tx} {code : ℕ} (hcode : (readU64 obj "type").toNat = code)
    (h : parseTyped alloc obj code = .ok tx) :
    Strict obj tx ↔ TidyShared alloc obj ∧ TidyOfType obj code := by
  have htype : ∀ number : UInt64, number.toNat = code → number = readU64 obj "type" :=
    fun number hnumber => UInt64.toNat_inj.mp (hnumber.trans hcode.symm)
  rcases code with _ | _ | _ | _ | _ | code
  · obtain ⟨tx, htx, rfl⟩ := map_eq_ok.mp h
    obtain ⟨recipient, hto, hvalue⟩ := bind_eq_ok.mp htx
    obtain rfl := Except.ok.inj hvalue
    exact and_congr (shared_exact (htype 0 rfl) rfl rfl rfl rfl (parseTo_exact hto) rfl rfl)
      (and_congr readUint256_exact readU64_exact)
  · obtain ⟨tx, htx, rfl⟩ := map_eq_ok.mp h
    obtain ⟨recipient, hto, htx⟩ := bind_eq_ok.mp htx
    obtain ⟨list, hlist, hvalue⟩ := bind_eq_ok.mp htx
    obtain rfl := Except.ok.inj hvalue
    exact and_congr (shared_exact (htype 1 rfl) rfl rfl rfl rfl (parseTo_exact hto) rfl rfl)
      (and_congr readUint256_exact (typed_exact hlist))
  · obtain ⟨tx, htx, rfl⟩ := map_eq_ok.mp h
    obtain ⟨recipient, hto, htx⟩ := bind_eq_ok.mp htx
    obtain ⟨list, hlist, hvalue⟩ := bind_eq_ok.mp htx
    obtain rfl := Except.ok.inj hvalue
    exact and_congr (shared_exact (htype 2 rfl) rfl rfl rfl rfl (parseTo_exact hto) rfl rfl)
      (and_congr fees_exact (typed_exact hlist))
  · obtain ⟨tx, htx, rfl⟩ := map_eq_ok.mp h
    obtain ⟨recipient, hto, htx⟩ := bind_eq_ok.mp htx
    obtain ⟨list, hlist, htx⟩ := bind_eq_ok.mp htx
    obtain ⟨hashes, hhashes, hvalue⟩ := bind_eq_ok.mp htx
    obtain rfl := Except.ok.inj hvalue
    exact and_congr (shared_exact (htype 3 rfl) rfl rfl rfl rfl (required_to_exact hto) rfl rfl)
      (and_congr fees_exact (and_congr (typed_exact hlist)
        (and_congr readUint256_exact (blobHashes_exact hhashes))))
  · obtain ⟨tx, htx, rfl⟩ := map_eq_ok.mp h
    obtain ⟨recipient, hto, htx⟩ := bind_eq_ok.mp htx
    obtain ⟨list, hlist, htx⟩ := bind_eq_ok.mp htx
    obtain ⟨auths, hauths, hvalue⟩ := bind_eq_ok.mp htx
    obtain rfl := Except.ok.inj hvalue
    exact and_congr (shared_exact (htype 4 rfl) rfl rfl rfl rfl (required_to_exact hto) rfl rfl)
      (and_congr fees_exact (and_congr (typed_exact hlist) (authorizationList_exact hauths)))
  · exact absurd h (by rintro ⟨⟩)

/-- A transaction that was parsed has exactly the values that the fields of the object
denote, and these are well formed, if and only if the object is fine where the parser does
not look. -/
theorem parseTx_strict_iff {tx : Tx} (h : t8nParseTx alloc obj = .ok tx) :
    Strict obj tx ↔ Tidy alloc obj := by
  cases obj with
  | obj fields => exact parseTyped_exact rfl h
  | _ => exact absurd h (by rintro ⟨⟩)

def feeMarketTx (nonce : UInt64) (value : Word) (yParity : UInt8) : Tx :=
  .eip1559 ⟨0, nonce, uint256Zero, uint256Zero, 0, none, value, [], [], yParity, uint256Zero,
    uint256Zero⟩

def neatObj : Json := .obj [("type", .str "0x2"), ("nonce", .str "0x7"), ("value", .str "0x12")]

theorem tidy_neatObj : Tidy arenaAlloc neatObj := by
  have htype : denoteU64 "0x2" = some 2 := by decide
  have hnonce : denoteU64 "0x7" = some 7 := by decide
  have hvalue : denoteUint256 "0x12" = some (uint256FromU64 0x12) := by decide
  have hkind : (readU64 neatObj "type").toNat = 2 := rfl
  rw [Tidy, hkind]
  constructor
  · constructor <;>
      simp [WellFormed, Agree, Whole, Room, neatObj, Json.get, List.lookup_cons, htype, hnonce,
        hvalue]
  · simp [TidyOfType, TidyFees, TidyTyped, TidyParity, TidyList, PlainV, WellFormed, Agree, neatObj,
      Json.get, List.lookup_cons]

/-- It is parsed exactly, as it is tidy. -/
theorem parseTx_strict_iff_neat :
    t8nParseTx arenaAlloc neatObj = .ok (feeMarketTx 7 (uint256FromU64 0x12) 0) ∧
      Strict neatObj (feeMarketTx 7 (uint256FromU64 0x12) 0) := by
  have hparse : t8nParseTx arenaAlloc neatObj = .ok (feeMarketTx 7 (uint256FromU64 0x12) 0) := rfl
  exact ⟨hparse, (parseTx_strict_iff hparse).mpr tidy_neatObj⟩

def laxObj : Json :=
  .obj [("type", .str "0x2"), ("nonce", .str "0xzz"), ("value", .str "0x12zz"),
    ("yParity", .str "0x100")]

/-- It is parsed with the default for the nonce, a part of the value and a parity that is
cut off. -/
theorem lax_fields_accepted :
    t8nParseTx arenaAlloc laxObj = .ok (feeMarketTx 0 (uint256FromU64 0x12) 0) ∧
      denoteU64 "0xzz" = none ∧ denoteUint256 "0x12zz" = none ∧ denoteU64 "0x100" = some 256 ∧
      ¬Strict laxObj (feeMarketTx 0 (uint256FromU64 0x12) 0) := by
  have hnonce : denoteU64 "0xzz" = none := by decide
  refine ⟨rfl, hnonce, by decide, by decide, fun h => ?_⟩
  have hstrict : denoteU64 "0xzz" = some 0 := h.1.nonce "0xzz" rfl
  exact absurd (hnonce.symm.trans hstrict) (by rintro ⟨⟩)

end Transactions

end Div0.TxJsonStrict
