import Div0.Uint256

/-!
The five transaction types and the accessors that read a field whatever the type is.
The field `to` is called `recipient`; a null pointer, which asks for a contract to be
created, is `none`.
-/

namespace Div0.Transaction

open BigEndian Uint256

structure AccessListEntry where
  address : Address
  storageKeys : List Word
  deriving DecidableEq

abbrev AccessList := List AccessListEntry

structure Authorization where
  chainId : UInt64
  address : Address
  nonce : UInt64
  yParity : UInt8
  r : Word
  s : Word
  deriving DecidableEq

abbrev AuthorizationList := List Authorization

structure LegacyTx where
  nonce : UInt64
  gasPrice : Word
  gasLimit : UInt64
  recipient : Option Address
  value : Word
  data : Bytes
  v : UInt64
  r : Word
  s : Word
  deriving DecidableEq

structure Eip2930Tx where
  chainId : UInt64
  nonce : UInt64
  gasPrice : Word
  gasLimit : UInt64
  recipient : Option Address
  value : Word
  data : Bytes
  accessList : AccessList
  yParity : UInt8
  r : Word
  s : Word
  deriving DecidableEq

structure Eip1559Tx where
  chainId : UInt64
  nonce : UInt64
  maxPriorityFeePerGas : Word
  maxFeePerGas : Word
  gasLimit : UInt64
  recipient : Option Address
  value : Word
  data : Bytes
  accessList : AccessList
  yParity : UInt8
  r : Word
  s : Word
  deriving DecidableEq

structure Eip4844Tx where
  chainId : UInt64
  nonce : UInt64
  maxPriorityFeePerGas : Word
  maxFeePerGas : Word
  gasLimit : UInt64
  recipient : Address
  value : Word
  data : Bytes
  accessList : AccessList
  maxFeePerBlobGas : Word
  blobVersionedHashes : List Hash
  yParity : UInt8
  r : Word
  s : Word
  deriving DecidableEq

structure Eip7702Tx where
  chainId : UInt64
  nonce : UInt64
  maxPriorityFeePerGas : Word
  maxFeePerGas : Word
  gasLimit : UInt64
  recipient : Address
  value : Word
  data : Bytes
  accessList : AccessList
  authorizationList : AuthorizationList
  yParity : UInt8
  r : Word
  s : Word
  deriving DecidableEq

inductive Tx where
  | legacy (tx : LegacyTx)
  | eip2930 (tx : Eip2930Tx)
  | eip1559 (tx : Eip1559Tx)
  | eip4844 (tx : Eip4844Tx)
  | eip7702 (tx : Eip7702Tx)
  deriving DecidableEq

def legacyTxChainId (tx : LegacyTx) : Option UInt64 :=
  if tx.v = 27 ∨ tx.v = 28 then none
  else if 35 ≤ tx.v then some ((tx.v - 35) / 2)
  else none

def transactionNonce : Tx → UInt64
  | .legacy tx => tx.nonce
  | .eip2930 tx => tx.nonce
  | .eip1559 tx => tx.nonce
  | .eip4844 tx => tx.nonce
  | .eip7702 tx => tx.nonce

def transactionGasLimit : Tx → UInt64
  | .legacy tx => tx.gasLimit
  | .eip2930 tx => tx.gasLimit
  | .eip1559 tx => tx.gasLimit
  | .eip4844 tx => tx.gasLimit
  | .eip7702 tx => tx.gasLimit

def transactionValue : Tx → Word
  | .legacy tx => tx.value
  | .eip2930 tx => tx.value
  | .eip1559 tx => tx.value
  | .eip4844 tx => tx.value
  | .eip7702 tx => tx.value

def transactionTo : Tx → Option Address
  | .legacy tx => tx.recipient
  | .eip2930 tx => tx.recipient
  | .eip1559 tx => tx.recipient
  | .eip4844 tx => some tx.recipient
  | .eip7702 tx => some tx.recipient

def transactionIsCreate (tx : Tx) : Bool := (transactionTo tx).isNone

def transactionData : Tx → Bytes
  | .legacy tx => tx.data
  | .eip2930 tx => tx.data
  | .eip1559 tx => tx.data
  | .eip4844 tx => tx.data
  | .eip7702 tx => tx.data

def transactionChainId : Tx → Option UInt64
  | .legacy tx => legacyTxChainId tx
  | .eip2930 tx => some tx.chainId
  | .eip1559 tx => some tx.chainId
  | .eip4844 tx => some tx.chainId
  | .eip7702 tx => some tx.chainId

def feeMarketGasPrice (maxPriorityFeePerGas maxFeePerGas baseFee : Word) : Word :=
  let priorityPrice := uint256Add baseFee maxPriorityFeePerGas
  if uint256Lt maxFeePerGas priorityPrice then maxFeePerGas else priorityPrice

def transactionEffectiveGasPrice (tx : Tx) (baseFee : Word) : Word :=
  match tx with
  | .legacy tx => tx.gasPrice
  | .eip2930 tx => tx.gasPrice
  | .eip1559 tx => feeMarketGasPrice tx.maxPriorityFeePerGas tx.maxFeePerGas baseFee
  | .eip4844 tx => feeMarketGasPrice tx.maxPriorityFeePerGas tx.maxFeePerGas baseFee
  | .eip7702 tx => feeMarketGasPrice tx.maxPriorityFeePerGas tx.maxFeePerGas baseFee

def transactionAccessList : Tx → Option AccessList
  | .legacy _ => none
  | .eip2930 tx => some tx.accessList
  | .eip1559 tx => some tx.accessList
  | .eip4844 tx => some tx.accessList
  | .eip7702 tx => some tx.accessList

end Div0.Transaction
