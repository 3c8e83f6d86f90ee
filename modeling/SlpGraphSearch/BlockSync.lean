import SlpGraphSearch.Server

/-!
# Blocks on their way to the server

What `main` does with a block, in the start-up loop over the RPC interface, in the
loop that replays the cache, and in the listener for new blocks. Fetching, decoding and
the cache itself are left to the callers.

The start-up loops hand every block to `bch` themselves, after
`slpsync_bitcoind_process_block` did so already. The listener does not.
-/
namespace SlpGraphSearch
open Library Transaction

namespace Server

/-- The call of `bch.process_block` in the bodies of the start-up loops. -/
def utxosyncBlock (s : Server) (txs : List Transaction) : Except Failure Server := do
  let bch ← (if s.utxosync then s.bch.processBlock txs true else .ok s.bch)
  .ok { s with bch := bch }

/-- The body of the RPC loop, with the list `valid_txs`. -/
def rpcBlock (s : Server) (order : TokenOrder) (block : List Transaction) :
    Except Failure (Server × List Transaction) := do
  let txs ← topologicalSort block
  let (s, validTxs) ← s.slpsyncBitcoindProcessBlock order txs false
  .ok (← s.utxosyncBlock txs, validTxs)

/-- The body of the loop over the cache. -/
def replayBlock (s : Server) (order : TokenOrder) (block : List Transaction) :
    Except Failure Server := do
  let (s, _) ← s.slpsyncBitcoindProcessBlock order block true
  s.utxosyncBlock block

/-- The listener on "rawblock", with the mempool that the node reports afterwards. -/
def zmqBlock (s : Server) (order : TokenOrder) (block mempool : List Transaction) :
    Except Failure Server := do
  let txs ← topologicalSort block
  let (s, _) ← s.slpsyncBitcoindProcessBlock order txs false
  s.slpsyncBitcoindProcessMempool order (← topologicalSort mempool)

end Server
end SlpGraphSearch
