import SlpGraphSearch.Block
import SlpGraphSearch.BlockSync
import SlpGraphSearch.ServerRun

/-!
# One start of the server

What `main` does before it listens, with the cache and the RPC interface enabled: it
replays the cached blocks from the configured height on, until a file is missing, and
then fetches blocks up to the tip. Both loops work on one counter, and the second starts
where the first leaves it.

The cache maps heights to files. Every RPC call succeeds, and no signal interrupts the
loops. The test of the RPC loop compares the counter with an unsigned number, so it finds
a negative counter too large and nothing is fetched.
-/
namespace SlpGraphSearch
open Library Transaction

/-- The files of the cache directory. -/
abbrev Cache := HashMap ℕ Bytes

def cacheSlpBlock (cache : Cache) (block : Block) (height : ℕ) : Cache :=
  Finmap.insert height block.serialize cache

/-- One start: the blocks that the node has, by height, and the order in which each loop
finds `valid_txs` at a height. -/
structure Start where
  chain : List Block
  cacheOrder : ℕ → TokenOrder
  rpcOrder : ℕ → TokenOrder

/-- A block decoded from a file, if it decodes. -/
def decodedBlock (data : Bytes) : Except Failure (Option Block) :=
  match Block.hydrate data false with
  | .ok block => .ok (some block)
  | .error .refuse => .ok none
  | .error .outOfBounds => .error .outOfBounds
  | .error .exhausted => .error .exhausted

namespace Server

/-- The loop over the cache, with the height that it leaves behind; nothing if a file does
not decode, which ends `main`. Every round reads another file, so there are at most as
many rounds as files, and one that finds none. -/
def replayCache (order : ℕ → TokenOrder) (cache : Cache) :
    ℕ → ℕ → Server → Except Failure (Option (ℤ × Server))
  | 0, _, _ => .error .exhausted
  | fuel + 1, height, s =>
      match cache.lookup height with
      | none => .ok (some (height - 1, s))
      | some blkData => do
          match ← decodedBlock blkData with
          | none => .ok none
          | some block =>
              replayCache order cache fuel (height + 1) (← s.replayBlock (order height) block.txs)

/-- The RPC loop over the blocks from a height to the tip. The cached copy of a block keeps
the header, and the transactions that the validator newly accepted. -/
def rpcLoop (order : ℕ → TokenOrder) :
    ℕ → List Block → Server → Cache → Except Failure (Server × Cache)
  | _, [], s, cache => .ok (s, cache)
  | height, block :: blocks, s, cache => do
      let (s, validTxs) ← s.rpcBlock (order height) block.txs
      let cblk := { block with txs := ← topologicalSort validTxs }
      rpcLoop order (height + 1) blocks s (cacheSlpBlock cache cblk height)

/-- `main` up to the end of the RPC loop; nothing if it returned before. -/
def start (utxosync : Bool) (blockHeight : ℕ) (e : Start) (cache : Cache) :
    Except Failure (Option (Server × Cache)) := do
  match ← replayCache e.cacheOrder cache (cache.keys.card + 1) blockHeight (.empty utxosync) with
  | none => .ok none
  | some (currentBlockHeight, s) =>
      let bestBlockHeight : ℤ := e.chain.length - 1
      if currentBlockHeight = bestBlockHeight then .ok (some (s, cache))
      else if currentBlockHeight < 0 then .ok (some (s, cache))
      else do
        let height := currentBlockHeight.toNat
        .ok (some (← rpcLoop e.rpcOrder height (e.chain.drop height) s cache))

end Server

/-- A start as a step on the cache. -/
def Cache.step (utxosync : Bool) (blockHeight : ℕ) (cache : Cache) (e : Start) :
    Except Failure Cache := do
  match ← Server.start utxosync blockHeight e cache with
  | none => .ok cache
  | some (_, cache) => .ok cache

end SlpGraphSearch
