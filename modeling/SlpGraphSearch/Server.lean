import SlpGraphSearch.Bch
import SlpGraphSearch.TxGraph
import SlpGraphSearch.Validator

/-!
# The server

The global state of `gs++` and the three handlers that feed it: blocks, mempool
refreshes and single transactions. Each hands transactions to `bch`, to the
validator and to one of the token graphs, `g` for blocks and `mg` for the rest.

A failure leaves no state behind: nothing catches an exception of a handler, and
an index outside a vector is undefined. Locks and logging are left out, and so
are the counters of the running process.
-/
namespace SlpGraphSearch
open Library Transaction

structure Server where
  utxosync : Bool
  validator : Validator
  g : TxGraph
  mg : TxGraph
  bch : Bch

/-- The map `valid_txs`, in the order in which its keys were inserted. -/
abbrev ValidTxs := List (Tokenid × List Transaction)

/-- The order of iteration over a `valid_txs`. -/
abbrev TokenOrder := HashOrder (Tokenid × List Transaction)

namespace Server

def empty (utxosync : Bool) : Server := ⟨utxosync, .empty, .empty, .empty, .empty⟩

/-- The loop body that blocks and mempool refreshes share, without the grouping:
an unknown transaction is judged, and listed if it is accepted. -/
def offerTx (trusted : Bool) (acc : Validator × List Transaction) (tx : Transaction) :
    Except Failure (Validator × List Transaction) :=
  if acc.1.has tx.txid then .ok acc
  else do
    let (added, validator) ← acc.1.addTx tx trusted
    .ok (validator, if added then acc.2 ++ [tx] else acc.2)

def offerTxs (s : Server) (txs : List Transaction) (trusted : Bool) :
    Except Failure (Validator × List Transaction) :=
  txs.foldlM (offerTx trusted) (s.validator, [])

/-- File an accepted transaction under its token. -/
def pushValidTx : ValidTxs → Transaction → ValidTxs
  | [], tx => [(tx.slp.tokenid, [tx])]
  | (tokenid, txs) :: m, tx =>
      if tokenid = tx.slp.tokenid then (tokenid, txs ++ [tx]) :: m
      else (tokenid, txs) :: pushValidTx m tx

def groupByToken (txs : List Transaction) : ValidTxs := txs.foldl pushValidTx []

/-- The loop over `valid_txs` that fills a token graph. -/
def insertValidTxs (g : TxGraph) (m : ValidTxs) : TxGraph :=
  m.foldl (fun g entry => (g.insertTokenData entry.1 entry.2).2) g

/-- `slpsync_bitcoind_process_block`, with the list that `valid_txs_list` receives. -/
def slpsyncBitcoindProcessBlock (s : Server) (order : TokenOrder) (txs : List Transaction)
    (trusted : Bool) : Except Failure (Server × List Transaction) := do
  let bch ← (if s.utxosync then s.bch.processBlock txs true else .ok s.bch)
  let (validator, validTxsList) ← s.offerTxs txs trusted
  let validTxs := order.permute (groupByToken validTxsList)
  .ok ({ s with
    bch := bch
    validator := validator
    g := insertValidTxs s.g validTxs }, validTxsList)

def slpsyncBitcoindProcessMempool (s : Server) (order : TokenOrder) (txs : List Transaction) :
    Except Failure Server := do
  let (validator, validTxsList) ← s.offerTxs txs false
  let validTxs := order.permute (groupByToken validTxsList)
  let bch ← (if s.utxosync then (validTxs.flatMap Prod.snd).foldlM Bch.processMempoolTx s.bch
    else .ok s.bch)
  .ok { s with
    bch := bch
    validator := validator
    mg := insertValidTxs s.mg.clear validTxs }

def slpsyncBitcoindProcessTx (s : Server) (tx : Transaction) : Except Failure (Bool × Server) := do
  let bch ← (if s.utxosync then s.bch.processMempoolTx tx else .ok s.bch)
  let s := { s with bch := bch }
  if tx.slp.type = .invalid then .ok (false, s)
  else if s.validator.has tx.txid then .ok (false, s)
  else do
    let (added, validator) ← s.validator.addTx tx false
    let s := { s with validator := validator }
    if ¬ added then .ok (false, s)
    else .ok (true, { s with mg := (s.mg.insertTokenData tx.slp.tokenid [tx]).2 })

/-! ## Runs -/

/-- A call of one of the handlers. -/
inductive Event
  | block (order : TokenOrder) (txs : List Transaction) (trusted : Bool)
  | mempool (order : TokenOrder) (txs : List Transaction)
  | rawtx (tx : Transaction)

def Event.txs : Event → List Transaction
  | .block _ txs _ => txs
  | .mempool _ txs => txs
  | .rawtx tx => [tx]

def step (s : Server) : Event → Except Failure Server
  | .block order txs trusted => do .ok (← s.slpsyncBitcoindProcessBlock order txs trusted).1
  | .mempool order txs => s.slpsyncBitcoindProcessMempool order txs
  | .rawtx tx => do .ok (← s.slpsyncBitcoindProcessTx tx).2

/-! ## Graph search requests -/

/-- A fresh transaction decoded from `txdata`, if it decodes. -/
def decoded (txdata : Bytes) : Except Failure (Option Transaction) :=
  match hydrate txdata with
  | .ok tx => .ok (some tx)
  | .error .refuse => .ok none
  | .error .outOfBounds => .error .outOfBounds
  | .error .exhausted => .error .exhausted

/-- The decoded transactions of a list of `txdata`; what does not decode is skipped. -/
def decodedAll (txdata : List Bytes) : Except Failure (List Transaction) := do
  .ok ((← txdata.mapM decoded).filterMap id)

/-- The exclusion loop of `GraphSearch`. It stops after its first round when there
are too many exclusions. -/
def exclusionSet (s : Server) (maxExclusionSetSize : ℕ) (exclude : List Txid) :
    Except Failure (Finset NodePtr) :=
  (if maxExclusionSetSize ≤ exclude.length then exclude.take 1 else exclude).foldlM
    (fun seen x => do .ok (← s.g.buildExclusionSet x seen).2) ∅

/-- `GraphSearch` on parsed ids, with the status and the `txdata` of the reply.
Pointers into `g` and `mg` never coincide, so the search of `mg` starts without
exclusions. The mempool branch repeats the reply of `mg` once for each of its
entries and decodes the entries, which always decode; its searches of `g` for
the looked up transaction are dropped, since nothing reads their results. -/
def graphSearch (s : Server) (order : SetOrder NodePtr) (maxExclusionSetSize : ℕ)
    (exclude : List Txid) (lookupTxid : Txid) :
    Except Failure (GraphSearchStatus × List Bytes) := do
  let seen ← s.exclusionSet maxExclusionSetSize exclude
  let (mempoolResult, _) ← s.mg.graphSearchPtr lookupTxid ∅
  if mempoolResult.1 = .ok then do
    let mempoolTransactions ← decodedAll mempoolResult.2
    let mempoolTxids := mempoolTransactions.map Transaction.txid
    let unaccounted := (mempoolTransactions.flatMap Transaction.inputs).filter fun o =>
      o.txid ∉ mempoolTxids
    let overlap ← unaccounted.foldlM
      (fun overlap o => do .ok (← s.g.buildExclusionSet o.txid overlap).2) ∅
    .ok (.ok, (mempoolResult.2.flatMap fun _ => mempoolResult.2) ++
      s.g.txdata (order.list overlap))
  else do
    let (result, _) ← s.g.graphSearchPtr lookupTxid seen
    .ok result

/-- `GraphSearchValidate` of the client on a reply: the printed verdict. -/
def graphSearchValidate (txdata : List Bytes) (txid : Txid) : Except Failure Bool := do
  let txs ← decodedAll txdata
  let sorted ← topologicalSort txs
  let validator ← Validator.empty.addTxs sorted
  .ok (← validator.validate txid).1

end Server
end SlpGraphSearch
