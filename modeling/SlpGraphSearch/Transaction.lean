import SlpGraphSearch.Library.HashMap
import SlpGraphSearch.Sha2
import SlpGraphSearch.SlpGrammar

/-!
# Transactions

The data model of `output.hpp` and `transaction.hpp`, the SLP views of a
transaction (its token outputs, the amount of an output, its baton), and the
decoder of raw transactions.

`slp_outputs` indexes the outputs without a test for most shapes. A missing
output is a failure of the model, so that its absence is a statement.
-/
namespace SlpGraphSearch
open Library Cursor

/-- How a run ends abnormally: an index outside a container, `at` on a missing
key, `absl::get` on another alternative, a thrown `std::runtime_error`, a failed
assertion, or a loop cut off by the bound given to its model. -/
inductive Failure
  | outOfBounds
  | outOfRange
  | badVariantAccess
  | runtimeError
  | assertion
  | exhausted
deriving DecidableEq, Repr

abbrev Scriptpubkey := Bytes

structure Outpoint where
  txid : Txid
  vout : UInt32
deriving DecidableEq

structure Output where
  prevTxId : Txid
  prevOutIdx : UInt32
  value : UInt64
  scriptpubkey : Scriptpubkey
deriving DecidableEq

namespace Output

def isOpReturn (o : Output) : Bool := o.scriptpubkey.head? = some 0x6a

/-- Equality and hashing of outputs compare these two fields only. -/
def outpoint (o : Output) : Outpoint := ⟨o.prevTxId, o.prevOutIdx⟩

end Output

structure Transaction where
  txid : Txid
  version : Int32
  lockTime : UInt32
  inputs : List Outpoint
  outputs : List Output
  slp : SlpTransaction
  serialized : Bytes
deriving DecidableEq

/-- Transactions under their id. -/
abbrev TransactionMap := KeyedMap Transaction.txid

/-- A txid determines its transaction. -/
def TxidsDetermine (txs : List Transaction) : Prop :=
  ∀ t ∈ txs, ∀ u ∈ txs, t.txid = u.txid → t = u

theorem TxidsDetermine.of_nodup {txs : List Transaction} (h : (txs.map Transaction.txid).Nodup) :
    TxidsDetermine txs := fun _ ht _ hu => List.inj_on_of_nodup_map h ht hu

theorem TxidsDetermine.mono {txs all : List Transaction} (h : TxidsDetermine all)
    (hsub : ∀ tx ∈ txs, tx ∈ all) : TxidsDetermine txs :=
  fun t ht u hu => h t (hsub t ht) u (hsub u hu)

namespace Transaction

/-! ## SLP views -/

/-- The shared body of the GENESIS and MINT branches of `slp_outputs`. -/
def batonOutputs (outputs : List Output) (mintBatonVout : UInt32) :
    Except Failure (List Output) :=
  match outputs[1]? with
  | none => .error .outOfBounds
  | some o =>
      if mintBatonVout = 0 then .ok [o]
      else match outputs[mintBatonVout.toNat]? with
        | none => .ok [o]
        | some b => .ok [o, b]

def slpOutputs (tx : Transaction) : Except Failure (List Output) :=
  match tx.slp.slpTx with
  | .send s =>
      if tx.outputs = [] then .error .outOfBounds
      else if tx.outputs.length - 1 ≤ s.amounts.length then .ok (tx.outputs.drop 1)
      else .ok ((tx.outputs.drop 1).take s.amounts.length)
  | .mint s => batonOutputs tx.outputs s.mintBatonVout
  | .genesis s => batonOutputs tx.outputs s.mintBatonVout
  | .invalid => .ok []

def outputSlpAmount (tx : Transaction) (vout : ℕ) : UInt64 :=
  match tx.slp.slpTx with
  | .send s => if 0 < vout then s.amounts.getD (vout - 1) 0 else 0
  | .mint s => if vout = 1 then s.qty else 0
  | .genesis s => if vout = 1 then s.qty else 0
  | .invalid => 0

/-- "vout of 0 means no mint_baton_outpoint". -/
def mintBatonOutpoint (tx : Transaction) : Outpoint :=
  match tx.slp.slpTx with
  | .mint s =>
      if s.mintBatonVout.toNat < tx.outputs.length then ⟨tx.txid, s.mintBatonVout⟩
      else ⟨tx.txid, 0⟩
  | .genesis s =>
      if s.mintBatonVout.toNat < tx.outputs.length then ⟨tx.txid, s.mintBatonVout⟩
      else ⟨tx.txid, 0⟩
  | _ => ⟨tx.txid, 0⟩

@[simp] theorem mintBatonOutpoint_txid (tx : Transaction) :
    tx.mintBatonOutpoint.txid = tx.txid := by
  unfold mintBatonOutpoint
  split <;> (try split_ifs) <;> rfl

/-! ## Decoding -/

def maxTxSize : ℕ := 1000000

/-- `CHECK_END(4)` and `extract_u32`. -/
def checkedU32 : Cursor UInt32 := do
  checkEnd 4
  extractU32

/-- `std::abs(extract_i64(it))`, stored as an unsigned value. -/
def absI64 (b : Bytes) : UInt64 :=
  if leValue b < 2 ^ 63 then UInt64.ofNat (leValue b) else -UInt64.ofNat (leValue b)

/-- `CHECK_END(8)` and the absolute value of the eight bytes. -/
def checkedAbsI64 : Cursor UInt64 := do
  checkEnd 8
  let b ← take 8
  pure (absI64 b)

/-- A script length below the limit and the script. -/
def readScript : Cursor Bytes := do
  let scriptLen ← checkedVarInt 1
  require (scriptLen.toNat < maxTxSize)
  checkedTake scriptLen.toNat scriptLen.toNat

/-- One iteration of the input loop. The signature script and the sequence
number are read and dropped. -/
def readInput : Cursor Outpoint := do
  let prevTxId ← checkedTake 32 32
  let prevOutIdx ← checkedU32
  let _ ← readScript
  let _ ← checkedU32
  pure ⟨.ofBytes prevTxId, prevOutIdx⟩

/-- One iteration of the output loop; the transaction id is filled in later. -/
def readOutput (outI : ℕ) : Cursor Output := do
  let value ← checkedAbsI64
  let scriptpubkey ← readScript
  pure ⟨.zero, UInt32.ofNat outI, value, scriptpubkey⟩

/-- A count below the limit, then that many elements. -/
def readCounted {α : Type} (body : ℕ → Cursor α) : Cursor (List α) := do
  let count ← checkedVarInt 1
  require (count.toNat < maxTxSize)
  loop body 0 count.toNat

structure Fields where
  version : Int32
  inputs : List Outpoint
  outputs : List Output
  lockTime : UInt32

/-- The reads of `hydrate`. The last test is `CHECK_END(4-1)`, "minus 1 because
+4 could be the end". -/
def readFields : Cursor Fields := do
  let version ← checkedU32
  let inputs ← readCounted fun _ => readInput
  let outputs ← readCounted readOutput
  let lockTime ← checkedTake 3 4
  pure ⟨version.toInt32, inputs, outputs, UInt32.ofNat (leValue lockTime)⟩

/-- The SLP part of a transaction with the given outputs and id. -/
def hydrateSlp (txid : Txid) (outputs : List Output) : Except Stop SlpTransaction :=
  match outputs with
  | [] => .ok .empty
  | o :: _ =>
      if o.isOpReturn then do
        let (slp, _) ← SlpTransaction.hydrate .empty o.scriptpubkey
        .ok (if slp.type = .genesis then { slp with tokenid := txid } else slp)
      else .ok .empty

/-- `transaction::hydrate` on a fresh object. -/
def hydrate (buf : Bytes) : Except Stop Transaction := do
  let (f, rest) ← readFields buf
  let serialized := buf.take (buf.length - rest.length)
  let txid := Sha2.sha256d serialized
  let outputs := f.outputs.map fun m => { m with prevTxId := txid }
  let slp ← hydrateSlp txid outputs
  .ok ⟨txid, f.version, f.lockTime, f.inputs, outputs, slp, serialized⟩

end Transaction
end SlpGraphSearch
