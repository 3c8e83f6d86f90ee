import SlpGraphSearch.Slpdb
import SlpGraphSearch.TopologicalSort

/-!
# The output store

`utxodb` keeps the confirmed token outputs by outpoint and by script, the same
two indexes for the mempool, and the outpoints that mempool transactions spent.
`bch` feeds it with blocks and mempool transactions, next to the token store.

An address bucket is a hash set whose equality compares outpoints only, so it is a
map keyed by outpoint. Logging and the returned counters are left out.
-/
namespace SlpGraphSearch
open Library

/-- Outputs under their outpoint. -/
abbrev OutpointMap := KeyedMap Output.outpoint

structure Utxodb where
  currentBlockHeight : UInt32
  outpointMap : OutpointMap
  scriptpubkeyToOutput : HashMap Scriptpubkey OutpointMap
  mempoolOutpointMap : OutpointMap
  mempoolScriptpubkeyToOutput : HashMap Scriptpubkey OutpointMap
  mempoolSpentConfirmedOutpoints : Finset Outpoint
  lastBlockRemoved : List (List Output)
  lastBlockAdded : List (List Outpoint)

/-! ## Address buckets -/

/-- Insert into the bucket of a script, opening it if needed. -/
def insertBucket (m : HashMap Scriptpubkey OutpointMap) (script : Scriptpubkey) (o : Output) :
    HashMap Scriptpubkey OutpointMap :=
  match m.lookup script with
  | none => Finmap.insert script ((∅ : OutpointMap).emplace o) m
  | some bucket => Finmap.insert script (bucket.emplace o) m

/-- Erase from the bucket of a script and drop the bucket once it is empty. -/
def eraseBucket (m : HashMap Scriptpubkey OutpointMap) (script : Scriptpubkey) (o : Outpoint) :
    HashMap Scriptpubkey OutpointMap :=
  match m.lookup script with
  | none => m
  | some bucket =>
      if (bucket.erase o).isEmpty then Finmap.erase script m
      else Finmap.insert script (bucket.erase o) m

/-- Erase from the bucket of a script and keep the bucket. -/
def eraseInBucket (m : HashMap Scriptpubkey OutpointMap) (script : Scriptpubkey) (o : Outpoint) :
    HashMap Scriptpubkey OutpointMap :=
  match m.lookup script with
  | none => m
  | some bucket => Finmap.insert script (bucket.erase o) m

namespace Utxodb

def empty : Utxodb := ⟨0, ∅, ∅, ∅, ∅, ∅, [], []⟩

def rollbackDepth : ℕ := 10

/-- One output of a block. `oid` is the entry that the map holds afterwards. -/
def addOutput (db : Utxodb) (m : Output) : Utxodb :=
  let outpointMap := db.outpointMap.emplace m
  let oid := (db.outpointMap.lookup m.outpoint).getD m
  { db with
    outpointMap := outpointMap
    scriptpubkeyToOutput := insertBucket db.scriptpubkeyToOutput m.scriptpubkey oid
    mempoolOutpointMap := db.mempoolOutpointMap.erase m.outpoint
    mempoolScriptpubkeyToOutput :=
      eraseInBucket db.mempoolScriptpubkeyToOutput m.scriptpubkey oid.outpoint
    mempoolSpentConfirmedOutpoints := db.mempoolSpentConfirmedOutpoints.erase oid.outpoint }

/-- An input of a block against the confirmed maps, with the output it removed. -/
def spendConfirmed (db : Utxodb) (m : Outpoint) : Utxodb × List Output :=
  match db.outpointMap.lookup m with
  | none => (db, [])
  | some o =>
      ({ db with
          outpointMap := db.outpointMap.erase m
          scriptpubkeyToOutput := eraseBucket db.scriptpubkeyToOutput o.scriptpubkey o.outpoint
          mempoolSpentConfirmedOutpoints :=
            if o.scriptpubkey ∈ db.scriptpubkeyToOutput then
              db.mempoolSpentConfirmedOutpoints.erase o.outpoint
            else db.mempoolSpentConfirmedOutpoints }, [o])

/-- An input of a block against the mempool maps. -/
def spendMempool (db : Utxodb) (m : Outpoint) : Utxodb × List Output :=
  match db.mempoolOutpointMap.lookup m with
  | none => (db, [])
  | some o =>
      ({ db with
          mempoolOutpointMap := db.mempoolOutpointMap.erase m
          mempoolScriptpubkeyToOutput :=
            eraseBucket db.mempoolScriptpubkeyToOutput o.scriptpubkey o.outpoint }, [o])

/-- The end of `process_block` with `save_rollback`. -/
def pushRollback (db : Utxodb) (added : List Outpoint) (removed : List Output) : Utxodb :=
  let lastBlockAdded := db.lastBlockAdded ++ [added]
  let lastBlockRemoved := db.lastBlockRemoved ++ [removed]
  { db with
    lastBlockAdded :=
      if rollbackDepth < lastBlockAdded.length then lastBlockAdded.drop 1 else lastBlockAdded
    lastBlockRemoved :=
      if rollbackDepth < lastBlockRemoved.length then lastBlockRemoved.drop 1
      else lastBlockRemoved }

/-- One output of a mempool transaction. -/
def addMempoolOutput (db : Utxodb) (m : Output) : Utxodb :=
  let oid := (db.mempoolOutpointMap.lookup m.outpoint).getD m
  { db with
    mempoolOutpointMap := db.mempoolOutpointMap.emplace m
    mempoolScriptpubkeyToOutput :=
      insertBucket db.mempoolScriptpubkeyToOutput m.scriptpubkey oid }

/-- One input of a mempool transaction. The spent output leaves its bucket and
stays in the mempool map. -/
def spendByMempool (db : Utxodb) (m : Outpoint) : Utxodb :=
  match db.mempoolOutpointMap.lookup m with
  | none =>
      { db with mempoolSpentConfirmedOutpoints := insert m db.mempoolSpentConfirmedOutpoints }
  | some o =>
      { db with
        mempoolScriptpubkeyToOutput :=
          eraseBucket db.mempoolScriptpubkeyToOutput o.scriptpubkey o.outpoint }

/-! ### Rollback -/

/-- One removed output of `rollback`, put back. -/
def restoreOutput (db : Utxodb) (m : Output) : Utxodb :=
  let outpointMap := db.outpointMap.emplace m
  let oid := (db.outpointMap.lookup m.outpoint).getD m
  { db with
    outpointMap := outpointMap
    scriptpubkeyToOutput := insertBucket db.scriptpubkeyToOutput m.scriptpubkey oid }

/-- One added outpoint of `rollback`. Its output leaves the bucket and stays in the map. -/
def withdrawOutput (db : Utxodb) (m : Outpoint) : Utxodb :=
  match db.outpointMap.lookup m with
  | none => db
  | some o =>
      match db.scriptpubkeyToOutput.lookup o.scriptpubkey with
      | none => db
      | some bucket =>
          if o.outpoint ∈ bucket then
            { db with scriptpubkeyToOutput :=
                eraseBucket db.scriptpubkeyToOutput o.scriptpubkey o.outpoint }
          else db

/-- `rollback` of the last block on record. -/
def rollback (db : Utxodb) : Utxodb :=
  match db.lastBlockRemoved.getLast?, db.lastBlockAdded.getLast? with
  | some rbRemoved, some rbAdded =>
      let db := { db with
        lastBlockRemoved := db.lastBlockRemoved.dropLast
        lastBlockAdded := db.lastBlockAdded.dropLast }
      rbAdded.foldl withdrawOutput (rbRemoved.foldl restoreOutput db)
  | _, _ => db

/-! ### Queries -/

/-- What one outpoint adds to `get_outputs_by_outpoints`. -/
def outputByOutpoint (db : Utxodb) (o : Outpoint) : Option Output :=
  match db.outpointMap.lookup o with
  | some output => if o ∉ db.mempoolSpentConfirmedOutpoints then some output else none
  | none => db.mempoolOutpointMap.lookup o

def getOutputsByOutpoints (db : Utxodb) (outpoints : List Outpoint) : List Output :=
  outpoints.filterMap db.outputByOutpoint

/-- A bucket pushed to `ret` until it has `limit` entries. -/
def pushUpTo (limit : ℕ) : List Output → List Output → List Output
  | ret, [] => ret
  | ret, u :: us =>
      if (ret ++ [u]).length = limit then ret ++ [u] else pushUpTo limit (ret ++ [u]) us

/-- `get_outputs_by_scriptpubkey`, for an order of iteration over the buckets. -/
def getOutputsByScriptpubkey (db : Utxodb) (order : KeyedOrder Output.outpoint)
    (script : Scriptpubkey) (limit : ℕ) : List Output :=
  let ret := match db.scriptpubkeyToOutput.lookup script with
    | none => []
    | some bucket => pushUpTo limit [] ((order.list bucket).filter fun u =>
        u.outpoint ∉ db.mempoolSpentConfirmedOutpoints)
  if ret.length < limit then
    match db.mempoolScriptpubkeyToOutput.lookup script with
    | none => ret
    | some bucket => pushUpTo limit ret (order.list bucket)
  else ret

/-- The outputs in the bucket of a script. -/
def bucketOutputs (idx : HashMap Scriptpubkey OutpointMap) (order : KeyedOrder Output.outpoint)
    (script : Scriptpubkey) : List Output :=
  match idx.lookup script with
  | none => []
  | some bucket => order.list bucket

/-- The outputs that `get_balance_by_scriptpubkey` adds up, bucket by bucket. -/
def countedOutputs (db : Utxodb) (order : KeyedOrder Output.outpoint) (script : Scriptpubkey) :
    List Output :=
  ((bucketOutputs db.scriptpubkeyToOutput order script).filter fun u =>
    u.outpoint ∉ db.mempoolSpentConfirmedOutpoints) ++
  bucketOutputs db.mempoolScriptpubkeyToOutput order script

/-- `get_balance_by_scriptpubkey`, for an order of iteration over the buckets. -/
def getBalanceByScriptpubkey (db : Utxodb) (order : KeyedOrder Output.outpoint)
    (script : Scriptpubkey) : UInt64 :=
  (db.countedOutputs order script).foldl (fun ret u => ret + u.value) 0

end Utxodb

structure Bch where
  utxodb : Utxodb
  slpdb : Slpdb

namespace Bch

def empty : Bch := ⟨.empty, .empty⟩

/-- The token outputs of a transaction that are not OP_RETURN outputs. -/
def spendableOutputs (tx : Transaction) : Except Failure (List Output) := do
  .ok ((← tx.slpOutputs).filter fun m => ¬ m.isOpReturn)

/-- One input of a block, through the confirmed maps, the mempool maps and the
token store. The removed outputs are kept for the rollback. -/
def spendInput (acc : Bch × List Output) (m : Outpoint) : Except Failure (Bch × List Output) := do
  let (utxodb, removed) := acc.1.utxodb.spendConfirmed m
  let (utxodb, removedMempool) := utxodb.spendMempool m
  let slpdb ← acc.1.slpdb.spend m
  .ok (⟨utxodb, slpdb⟩, acc.2 ++ removed ++ removedMempool)

/-- `process_block` on the transactions of a block. -/
def processBlock (b : Bch) (txs : List Transaction) (saveRollback : Bool) :
    Except Failure Bch := do
  let blkInputs := txs.flatMap Transaction.inputs
  let blkOutputs ← txs.mapM spendableOutputs
  let slpTxs := txs.filter fun tx => tx.slp.type ≠ .invalid
  let utxodb := blkOutputs.flatten.foldl Utxodb.addOutput
    { b.utxodb with currentBlockHeight := b.utxodb.currentBlockHeight + 1 }
  let sorted ← topologicalSort slpTxs
  let slpdb := sorted.foldl Slpdb.addTransaction b.slpdb
  let (b, removed) ← blkInputs.foldlM spendInput (⟨utxodb, slpdb⟩, [])
  if saveRollback then
    .ok { b with
      utxodb := b.utxodb.pushRollback (blkOutputs.flatten.map Output.outpoint) removed }
  else .ok b

def processMempoolTx (b : Bch) (tx : Transaction) : Except Failure Bch := do
  let outputs ← spendableOutputs tx
  let utxodb := outputs.foldl Utxodb.addMempoolOutput b.utxodb
  let utxodb := tx.inputs.foldl Utxodb.spendByMempool utxodb
  .ok ⟨utxodb, if tx.slp.type ≠ .invalid then b.slpdb.addTransaction tx else b.slpdb⟩

end Bch
end SlpGraphSearch
