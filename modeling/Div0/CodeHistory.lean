import Div0.StorageHistory

/-!
Code and code hashes over sequences of calls. The hash is written to the account by every
`ws_set_code`, the code itself goes to the code map, where an entry that is there stays. So
the hash is always that of the code set last, and the two agree as long as no call sets
another code while an entry is there.
-/

namespace Div0.CodeHistory

open BigEndian Buffer Node Uint256 Accounts WorldState WorldStores WorldCalls GasConservation
open StorageHistory CallTraces Containers

variable {host : Host} {ws : World} {addrs : Set Address} {slots : Set Word}

def codeBy (addr : Address) (old : Bytes) : WorldOp → Bytes
  | .setCode a code => if addr = a then code else old
  | .deleteAccount a => if addr = a then [] else old
  | _ => old

def lastCode (ops : List WorldOp) (addr : Address) : Bytes := ops.foldl (codeBy addr) []

/-- The hash of a code; there is a constant for the empty one. -/
def codeHashOf (host : Host) (code : Bytes) : Hash :=
  if code.length = 0 then emptyCodeHash else host.keccak256 code

/-- The code of an address is the one set last, and its hash is the hash of that code. -/
structure CodeAgrees (host : Host) (ws : World) (ops : List WorldOp) (addr : Address) : Prop where
  hash : wsGetCodeHash host ws addr = codeHashOf host (wsGetCode ws addr)
  latest : wsGetCode ws addr = lastCode ops addr

/-- The call does not set a code that differs from the one in the code map. -/
def KeepsCode (ws : World) : WorldOp → Prop
  | .setCode addr code => ∀ old, ws.codeStore.lookup addr = some old → old = code
  | _ => True

theorem lastCode_concat (ops : List WorldOp) (op : WorldOp) (addr : Address) :
    lastCode (ops ++ [op]) addr = codeBy addr (lastCode ops addr) op := by
  rw [lastCode, List.foldl_append]
  rfl

variable {op : WorldOp} {probe : Address}

theorem storedCode_eq [harena : OnArena host] {code : Bytes}
    (hsize : code.length ≤ 65536) : storedCode host code = code := by
  unfold storedCode
  split
  · next hpos =>
    obtain ⟨buf, hbuf, hdata⟩ := Buf.fromData_isSome fun _ => harena.supply.grants _ hpos hsize
    rw [hbuf, Option.getD_some, hdata]
  · next hzero => exact (List.eq_nil_of_length_eq_zero (by omega)).symm

theorem codeBy_of_other (hset : ∀ addr code, op ≠ .setCode addr code)
    (hdelete : ∀ addr, op ≠ .deleteAccount addr) (probe : Address) (code : Bytes) :
    codeBy probe code op = code := by
  cases op with
  | setCode addr code => exact absurd rfl (hset addr code)
  | deleteAccount addr => exact absurd rfl (hdelete addr)
  | _ => rfl

/-- The code hash of an account that was handed to `world_state_set_account`. -/
theorem codeHash_written (acc : Account) :
    ((if accountIsEmpty acc then none else some acc).getD accountEmpty).codeHash =
      acc.codeHash := by
  split
  · next hempty => exact ((accountIsEmpty_iff acc).mp hempty).2.2.symm
  · rfl

section Runs

variable [harena : OnArena host] (hinj : Set.InjOn (addressToKey host) addrs)
include hinj

theorem getCode_setCode [Roomy host] (h : Sound host ws addrs slots) {addr : Address}
    (haddr : addr ∈ addrs) {code : Bytes} (hsize : code.length ≤ 65536) (probe : Address) :
    wsGetCode (applyOp host ws (.setCode addr code)) probe =
      if probe = addr then (ws.codeStore.lookup addr).getD code else wsGetCode ws probe := by
  have huses : (WorldOp.setCode addr code).Uses addrs slots := haddr
  have hroom : HasRoom (host.tables codeEntry) ws.codeStore addr := hasRoom_of_roomy _ _
  rw [wsGetCode, (applyOp_applied hinj h huses).code, changeOf, codeAfter, lookup_insertNew,
    storedCode_eq hsize]
  simp only [hroom, and_true]
  split <;> rfl

/-- All other calls keep the code or delete it. -/
theorem getCode_other (h : Sound host ws addrs slots) (huses : op.Uses addrs slots)
    (hother : ∀ addr code, op ≠ .setCode addr code) (probe : Address) :
    wsGetCode (applyOp host ws op) probe = codeBy probe (wsGetCode ws probe) op := by
  rw [wsGetCode, (applyOp_applied hinj h huses).code]
  cases op with
  | setCode addr code => exact absurd rfl (hother addr code)
  | deleteAccount addr =>
    simp only [changeOf, codeAfter, codeBy]
    split
    · next hprobe => rw [hprobe, AList.lookup_erase, Option.getD_none]
    · next hprobe => rw [AList.lookup_erase_ne hprobe, wsGetCode]
  | createContract addr =>
    simp only [changeOf]
    split <;> rfl
  | addBalance addr amount =>
    simp only [changeOf]
    split <;> rfl
  | subBalance addr amount =>
    simp only [changeOf]
    split
    · rfl
    · split <;> rfl
  | incrementNonce addr =>
    simp only [changeOf]
    split <;> rfl
  | _ => rfl

/-- A call leaves every address with the code set last exactly when it does not set another
one over an entry of the code map. -/
theorem getCode_applyOp_iff [Roomy host] (h : Sound host ws addrs slots)
    (huses : op.Uses addrs slots)
    (hsize : ∀ addr code, op = .setCode addr code → code.length ≤ 65536) :
    (∀ probe ∈ addrs, wsGetCode (applyOp host ws op) probe =
      codeBy probe (wsGetCode ws probe) op) ↔ KeepsCode ws op := by
  by_cases hset : ∃ addr code, op = .setCode addr code
  · obtain ⟨addr, code, rfl⟩ := hset
    simp only [getCode_setCode hinj h huses (hsize addr code rfl), codeBy, KeepsCode]
    constructor
    · intro hcode old hold
      have hat := hcode addr huses
      rwa [if_pos rfl, if_pos rfl, hold, Option.getD_some] at hat
    · intro hkept probe _
      split
      · cases hold : ws.codeStore.lookup addr with
        | none => rfl
        | some old => exact hkept old hold
      · rfl
  · have hother : ∀ addr code, op ≠ .setCode addr code :=
      fun addr code heq => hset ⟨addr, code, heq⟩
    refine iff_of_true (fun probe _ => getCode_other hinj h huses hother probe) ?_
    cases op with
    | setCode addr code => exact absurd rfl (hother addr code)
    | _ => trivial

/-- A call that neither sets a code nor deletes an account keeps all code hashes. -/
theorem getCodeHash_other (h : Sound host ws addrs slots) (huses : op.Uses addrs slots)
    (hset : ∀ addr code, op ≠ .setCode addr code) (hdelete : ∀ addr, op ≠ .deleteAccount addr)
    (hprobe : probe ∈ addrs) :
    wsGetCodeHash host (applyOp host ws op) probe = wsGetCodeHash host ws probe := by
  simp only [wsGetCodeHash_eq]
  rw [accountOrEmpty, (applyOp_applied hinj h huses).accounts probe hprobe]
  cases hchange : changeOf host ws op with
  | account addr acc put =>
    rw [accountAfter]
    obtain ⟨-, ⟨-, hhash⟩ | ⟨bytes, -, hop, -⟩⟩ := changeOf_account h.accounts hchange
    · split
      · next heq => rw [codeHash_written, hhash, heq]
      · rfl
    · exact absurd hop (hset addr bytes)
  | delete addr => exact absurd (changeOf_from hchange) (hdelete addr)
  | root =>
    rw [accountAfter, accountOrEmpty]
    split
    · cases worldStateGetAccount host ws probe with
      | none => rfl
      | some acc => exact codeHash_refresh probe acc
    · rfl
  | store addr slot value => rfl
  | nothing => rfl

/-- The hash follows the code set last. -/
theorem getCodeHash_applyOp (h : Sound host ws addrs slots) (huses : op.Uses addrs slots)
    (hprobe : probe ∈ addrs) {code : Bytes}
    (hcode : wsGetCodeHash host ws probe = codeHashOf host code) :
    wsGetCodeHash host (applyOp host ws op) probe = codeHashOf host (codeBy probe code op) := by
  have hafter : wsGetCodeHash host (applyOp host ws op) probe =
      ((accountAfter host ws (changeOf host ws op) probe).getD accountEmpty).codeHash := by
    rw [wsGetCodeHash_eq, accountOrEmpty,
      (applyOp_applied hinj h huses).accounts probe hprobe]
  by_cases hset : ∃ addr bytes, op = .setCode addr bytes
  · obtain ⟨addr, bytes, rfl⟩ := hset
    rw [hafter, changeOf, accountAfter, codeBy]
    split
    · rw [codeHash_written]
      rfl
    · exact (wsGetCodeHash_eq probe).symm.trans hcode
  by_cases hdelete : ∃ addr, op = .deleteAccount addr
  · obtain ⟨addr, rfl⟩ := hdelete
    rw [hafter, changeOf, accountAfter, codeBy]
    split
    · rfl
    · exact (wsGetCodeHash_eq probe).symm.trans hcode
  have hset' : ∀ addr bytes, op ≠ .setCode addr bytes :=
    fun addr bytes heq => hset ⟨addr, bytes, heq⟩
  have hdelete' : ∀ addr, op ≠ .deleteAccount addr := fun addr heq => hdelete ⟨addr, heq⟩
  rw [getCodeHash_other hinj h huses hset' hdelete' hprobe, hcode,
    codeBy_of_other hset' hdelete']

/-- The code hash of an address is that of the code set last, whatever the calls were. -/
theorem getCodeHash_runOps {ops : List WorldOp} (huses : ∀ op ∈ ops, op.Uses addrs slots)
    (hprobe : probe ∈ addrs) :
    wsGetCodeHash host (runOps host worldStateCreate ops) probe =
      codeHashOf host (lastCode ops probe) := by
  induction ops using List.reverseRecOn with
  | nil => rfl
  | append_singleton ops op ih =>
    rw [List.forall_mem_append] at huses
    have hsound := sound_runOps hinj (sound_create host addrs slots) huses.1
    rw [runOps_concat, lastCode_concat]
    exact getCodeHash_applyOp hinj hsound (huses.2 op List.mem_cons_self) hprobe (ih huses.1)

/-- One more call leaves code and code hash in agreement exactly when it keeps the code. -/
theorem codeAgrees_concat [Roomy host] {before : List WorldOp}
    (huses : ∀ o ∈ before ++ [op], o.Uses addrs slots)
    (hsize : ∀ addr code, op = .setCode addr code → code.length ≤ 65536)
    (hbefore : ∀ addr ∈ addrs,
      CodeAgrees host (runOps host worldStateCreate before) before addr) :
    (∀ addr ∈ addrs, CodeAgrees host (runOps host worldStateCreate (before ++ [op]))
      (before ++ [op]) addr) ↔ KeepsCode (runOps host worldStateCreate before) op := by
  have hsound := sound_runOps hinj (sound_create host addrs slots)
    fun o ho => huses o (List.mem_append_left _ ho)
  rw [← getCode_applyOp_iff hinj hsound (huses op (by simp)) hsize]
  refine forall₂_congr fun addr haddr => ?_
  have hhash := getCodeHash_runOps hinj huses haddr
  rw [(hbefore addr haddr).latest, ← lastCode_concat, ← runOps_concat]
  exact ⟨fun h => h.latest, fun h => ⟨by rw [hhash, h], h⟩⟩

end Runs

/-- Code and code hash agree at every point of a sequence of calls, and the code is the one
set last since the last deletion, exactly when no call sets another code over an entry of the
code map. -/
theorem code_agrees_iff (host : Host) [OnArena host] [Roomy host] (addrs : Set Address)
    (hinj : Set.InjOn (addressToKey host) addrs) (ops : List WorldOp)
    (huses : ∀ op ∈ ops, op.Uses addrs Set.univ)
    (hsize : ∀ addr code, .setCode addr code ∈ ops → code.length ≤ 65536) :
    Throughout (fun before => ∀ addr ∈ addrs, CodeAgrees host
        (runOps host worldStateCreate before) before addr) ops ↔
      EachCall (fun before => KeepsCode (runOps host worldStateCreate before)) ops := by
  refine throughout_iff (fun addr _ => ⟨rfl, rfl⟩) ?_
  rintro before op after rfl hbefore
  rw [List.append_cons, List.forall_mem_append] at huses
  exact codeAgrees_concat hinj huses.1
    (fun addr code heq => hsize addr code (by simp [heq])) hbefore

/-- A code that is set again after a deletion. -/
theorem code_agrees_iff_deleted :
    Throughout (fun before => ∀ addr ∈ ({lowAddress 1} : Set Address), CodeAgrees
        paddedHost (runOps paddedHost worldStateCreate before) before addr)
      [.setCode (lowAddress 1) [1], .deleteAccount (lowAddress 1), .setCode (lowAddress 1) [2]] := by
  refine (code_agrees_iff paddedHost {lowAddress 1} (Set.injOn_singleton _ _) _ ?_ ?_).mpr ?_
  · simp [WorldOp.Uses]
  · rintro addr code hop
    simp only [List.mem_cons, WorldOp.setCode.injEq, reduceCtorEq, List.not_mem_nil, false_or,
      or_false] at hop
    rcases hop with ⟨-, rfl⟩ | ⟨-, rfl⟩ <;> decide
  · simp only [eachCall_cons, eachCall_nil, KeepsCode, and_true, true_and]
    constructor
    · rintro old ⟨⟩
    · rintro old ⟨⟩

/-- A second code over the first one: the hash is that of the new code, but the old one is
still returned. -/
theorem second_code_dropped :
    let ws := runOps paddedHost worldStateCreate
      [.setCode (lowAddress 1) [1], .setCode (lowAddress 1) [2]]
    wsGetCode ws (lowAddress 1) = [1] ∧
    wsGetCodeHash paddedHost ws (lowAddress 1) = padded [2] ∧ padded [2] ≠ padded [1] := by
  decide

end Div0.CodeHistory
