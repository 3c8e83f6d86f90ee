import SlpGraphSearch.BlockFormat
import SlpGraphSearch.Listener
import SlpGraphSearch.TxidStrings

/-!
# The RPC client

Hashes and raw data travel as strings of hexadecimal digits between the node and the
client. The node writes hashes backwards. The client turns the ids of the mempool around and
writes them backwards again in its requests, and it leaves block hashes as they come. So what
it fetches from a node is what the node has.
-/
namespace SlpGraphSearch
open Library Transaction

/-! ## Digits of bytes -/

/-- One digit. Characters are signed, and those below the digits wrap around. -/
def unhexDigit (p : UInt8) : UInt8 := if p ≤ 57 ∨ 128 ≤ p then p - 48 else p - 97 + 10

/-- `gs::util::unhex`. The last character of an odd number is left over. -/
def unhex : Bytes → Bytes
  | p1 :: p2 :: v_ => (unhexDigit p1 <<< 4 + unhexDigit p2) :: unhex v_
  | _ => []

theorem hex_byte (b : UInt8) : IsHexDigit (hexChars.getD (b >>> 4).toNat 0) ∧
    IsHexDigit (hexChars.getD (b &&& 0x0F).toNat 0) ∧
    unhexDigit (hexChars.getD (b >>> 4).toNat 0) <<< 4 +
      unhexDigit (hexChars.getD (b &&& 0x0F).toNat 0) = b := by
  have hall : ∀ n < 256, let b := UInt8.ofNat n
      IsHexDigit (hexChars.getD (b >>> 4).toNat 0) ∧
      IsHexDigit (hexChars.getD (b &&& 0x0F).toNat 0) ∧
      unhexDigit (hexChars.getD (b >>> 4).toNat 0) <<< 4 +
        unhexDigit (hexChars.getD (b &&& 0x0F).toNat 0) = b := by decide +kernel
  have hone := hall b.toNat b.toNat_lt
  rwa [UInt8.ofNat_toNat] at hone

theorem hex_cons_eq (b : UInt8) (v : Bytes) : hex (b :: v) =
    hexChars.getD (b >>> 4).toNat 0 :: hexChars.getD (b &&& 0x0F).toNat 0 :: hex v := rfl

theorem unhex_hex (v : Bytes) : unhex (hex v) = v := by
  induction v with
  | nil => rfl
  | cons b v ih => rw [hex_cons_eq, unhex, ih, (hex_byte b).2.2]

theorem length_hex (v : Bytes) : (hex v).length = 2 * v.length := by
  induction v with
  | nil => rfl
  | cons b v ih =>
      rw [hex_cons_eq, List.length_cons, List.length_cons, ih, List.length_cons]
      omega

theorem isHexDigit_hex (v : Bytes) : ∀ c ∈ hex v, IsHexDigit c := by
  induction v with
  | nil => exact fun c hc => absurd hc List.not_mem_nil
  | cons b v ih =>
      obtain ⟨hhigh, hlow, -⟩ := hex_byte b
      rw [hex_cons_eq]
      exact List.forall_mem_cons.mpr ⟨hhigh, List.forall_mem_cons.mpr ⟨hlow, ih⟩⟩

theorem Bhash.ofString_hex (h : Bhash) : Bhash.ofString (hex h.v) = .ok h := by
  have hlen : (hex h.v).length = 64 := by rw [length_hex, h.size_eq]
  have hnot : (hex h.v).length ≠ 32 := by omega
  obtain ⟨v, hv, hvlen, hback⟩ := Bhash.hexPairs_spec (n := 32) (s := hex h.v) hlen.ge
    fun c hc => isHexDigit_hex h.v c (List.mem_of_mem_take hc)
  rw [List.take_of_length_le hlen.le] at hback
  have hsame : v = h.v := by rw [← unhex_hex v, hback, unhex_hex]
  rw [Bhash.ofString, dif_neg hnot, hv, hsame]
  exact congrArg Except.ok (Bhash.ofBytes_self h)

/-! ## Calls -/

/-- What the client looks at in a response: the status, the number of entries of the body, and
of the first one whether its error is set and its result. Bodies that are not of this form
raise an exception and are left out. -/
structure RpcResponse (α : Type) where
  status : ℕ
  size : ℕ
  error : Bool
  result : α

/-- The checks that all calls make. -/
def checkedResult {α : Type} : Option (RpcResponse α) → Option α
  | none => none
  | some res =>
      if res.status ≠ 200 then none
      else if res.size = 0 then none
      else if res.error then none
      else some res.result

/-- The answers of a node, by parameter. -/
structure RpcNode where
  getblockhash : ℕ → Option (RpcResponse Bytes)
  getblock : Bytes → Option (RpcResponse Bytes)
  getrawmempool : Option (RpcResponse (List Bytes))
  getrawtransaction : Bytes → Option (RpcResponse Bytes)

/-- `std::reverse` on the bytes of a hash. -/
def Bhash.reverse (h : Bhash) : Bhash := ⟨h.v.reverse, by rw [List.length_reverse, h.size_eq]⟩

namespace RpcNode

variable (n : RpcNode)

def getBlockHash (height : ℕ) : Except Failure (Option Blockhash) :=
  match checkedResult (n.getblockhash height) with
  | none => .ok none
  | some result => do
      let blockHash ← Bhash.ofString result
      .ok (some blockHash)

def getRawBlock (blockHash : Blockhash) : Option Bytes :=
  (checkedResult (n.getblock (blockHash.decompress false))).map unhex

/-- The loop body of `get_raw_mempool`. -/
def mempoolTxid (jtxid : Bytes) : Except Failure Txid := do
  let txid ← Bhash.ofString jtxid
  .ok txid.reverse

def getRawMempool : Except Failure (Option (List Txid)) :=
  match checkedResult n.getrawmempool with
  | none => .ok none
  | some result => do
      let ret ← result.mapM mempoolTxid
      .ok (some ret)

def getRawTransaction (txid : Txid) : Option Bytes :=
  (checkedResult (n.getrawtransaction (txid.decompress true))).map unhex

/-- `get_mempool_transactions` with this client. -/
def mempoolTransactions : Except Failure (List Transaction) := do
  let txids ← n.getRawMempool
  getMempoolTransactions ⟨txids, n.getRawTransaction⟩

end RpcNode

/-! ## A node that serves -/

/-- How a node writes the id of a transaction, or with a header the hash of a block. -/
def displayId (data : Bytes) : Bytes := hex (Sha2.sha256d data).v.reverse

/-- The node answers with these raw blocks, by height, and these raw transactions. -/
structure RpcNode.Serves (n : RpcNode) (chain : ℕ → Option Bytes) (raws : List Bytes) :
    Prop where
  blockHash : ∀ height raw, chain height = some raw →
    checkedResult (n.getblockhash height) = some (displayId (raw.take 80))
  block : ∀ height raw, chain height = some raw →
    checkedResult (n.getblock (displayId (raw.take 80))) = some (hex raw)
  mempool : checkedResult n.getrawmempool = some (raws.map displayId)
  transaction : ∀ raw ∈ raws,
    checkedResult (n.getrawtransaction (displayId raw)) = some (hex raw)

theorem mempoolTxid_displayId (data : Bytes) :
    RpcNode.mempoolTxid (displayId data) = .ok (Sha2.sha256d data) := by
  have hread := Bhash.ofString_hex (Sha2.sha256d data).reverse
  have htwice : (Sha2.sha256d data).reverse.reverse = Sha2.sha256d data :=
    Bhash.ext_v (List.reverse_reverse _)
  change (Bhash.ofString (hex (Sha2.sha256d data).reverse.v) >>= fun txid => .ok txid.reverse) = _
  rw [hread]
  exact congrArg Except.ok htwice

theorem decompress_sha256d (data : Bytes) : (Sha2.sha256d data).decompress true = displayId data :=
  rfl

namespace RpcNode

variable {n : RpcNode} {chain : ℕ → Option Bytes}

/-- The client asks for each transaction under the id that the node listed. -/
theorem Serves.push {txs : List Transaction} (h : n.Serves chain (txs.map Transaction.serialized))
    {tx : Transaction} (htx : tx ∈ txs) (hhyd : tx.Hydrated) (txids : Option (List Txid))
    (ret : List Transaction) : MempoolAnswers.push ⟨txids, n.getRawTransaction⟩ ret tx.txid =
      .ok (if tx.slp.type ≠ .invalid then ret ++ [tx] else ret) := by
  have hraw : n.getRawTransaction tx.txid = some tx.serialized := by
    rw [getRawTransaction, hhyd.txid_eq, decompress_sha256d,
      h.transaction _ (List.mem_map_of_mem htx), Option.map_some, unhex_hex]
  rw [MempoolAnswers.push]
  simp only [hraw, Server.decoded_serialized hhyd, bind, Except.bind]
  split_ifs <;> rfl

theorem Serves.getRawMempool {txs : List Transaction}
    (h : n.Serves chain (txs.map Transaction.serialized)) (hhyd : ∀ tx ∈ txs, tx.Hydrated) :
    n.getRawMempool = .ok (some (txs.map Transaction.txid)) := by
  have hids : ((txs.map Transaction.serialized).map displayId).mapM mempoolTxid =
      .ok (txs.map Transaction.txid) := by
    rw [mapM_eq_ok_iff, List.map_map, List.forall₂_map_left_iff, List.forall₂_map_right_iff,
      List.forall₂_same]
    intro tx htx
    rw [(hhyd tx htx).txid_eq]
    exact mempoolTxid_displayId tx.serialized
  rw [RpcNode.getRawMempool, h.mempool]
  simp only [hids, bind, Except.bind]

theorem Serves.mempoolTransactions {txs : List Transaction}
    (h : n.Serves chain (txs.map Transaction.serialized)) (hhyd : ∀ tx ∈ txs, tx.Hydrated) :
    n.mempoolTransactions = .ok (txs.filter fun tx => tx.slp.type ≠ .invalid) := by
  have hloop : ∀ (l ret : List Transaction) (txids : Option (List Txid)), (∀ tx ∈ l, tx ∈ txs) →
      (l.map Transaction.txid).foldlM (MempoolAnswers.push ⟨txids, n.getRawTransaction⟩) ret =
        .ok (ret ++ l.filter fun tx => tx.slp.type ≠ .invalid) := by
    intro l
    induction l with
    | nil => exact fun ret txids _ => by rw [List.filter_nil, List.append_nil]; rfl
    | cons tx l ih =>
        intro ret txids hl
        have htx := hl tx List.mem_cons_self
        rw [List.map_cons, List.foldlM_cons, h.push htx (hhyd tx htx)]
        have hrest := ih (if tx.slp.type ≠ .invalid then ret ++ [tx] else ret) txids
          fun u hu => hl u (List.mem_cons_of_mem _ hu)
        refine hrest.trans ?_
        by_cases htype : tx.slp.type = .invalid
        · simp [htype]
        · simp [htype]
  rw [RpcNode.mempoolTransactions, h.getRawMempool hhyd]
  exact hloop txs [] _ fun _ htx => htx

theorem Serves.fetchBlock {raws : List Bytes} (h : n.Serves chain raws) {height : ℕ}
    {raw : Bytes} (hraw : chain height = some raw) :
    n.getBlockHash height = .ok (some (Sha2.sha256d (raw.take 80)).reverse) ∧
      n.getRawBlock (Sha2.sha256d (raw.take 80)).reverse = some raw := by
  have hread := Bhash.ofString_hex (Sha2.sha256d (raw.take 80)).reverse
  constructor
  · rw [getBlockHash, h.blockHash height raw hraw]
    change (Bhash.ofString (hex (Sha2.sha256d (raw.take 80)).reverse.v) >>= _) = _
    rw [hread]
    rfl
  · rw [getRawBlock]
    change (checkedResult (n.getblock (displayId (raw.take 80)))).map unhex = _
    rw [h.block height raw hraw, Option.map_some, unhex_hex]

end RpcNode

/-- The hash of a decoded block is that of the first eighty bytes. -/
theorem Block.blockHash_of_hydrate {raw : Bytes} {slpOnly : Bool} {b : Block}
    (h : Block.hydrate raw slpOnly = .ok b) : b.blockHash = Sha2.sha256d (raw.take 80) := by
  obtain ⟨p, rest, b', rfl, hp⟩ := Block.encoding_of_hydrate h
  rw [Block.hydrate_of_encoding hp rest slpOnly, Except.ok.injEq] at h
  obtain ⟨l, m, q, rfl, -, -, -, hhash⟩ := hp
  have hheader : b'.header.length = 80 := by
    simp only [Block.header, List.length_append, length_leBytes, b'.prevBlock.size_eq,
      b'.merkleRoot.size_eq]
  rw [← h, List.append_assoc, ← hheader, List.take_left]
  exact hhash

/-- From a node that serves a chain and a mempool, the client fetches exactly the raw blocks
and exactly the SLP transactions of the mempool, in order. The hash that comes with a block is
the one that the decoder computes, backwards. -/
theorem RpcNode.serves_fetched {n : RpcNode} {chain : ℕ → Option Bytes} {txs : List Transaction}
    (h : n.Serves chain (txs.map Transaction.serialized)) (hhyd : ∀ tx ∈ txs, tx.Hydrated) :
    n.mempoolTransactions = .ok (txs.filter fun tx => tx.slp.type ≠ .invalid) ∧
      ∀ height raw, chain height = some raw → ∃ blockHash,
        n.getBlockHash height = .ok (some blockHash) ∧ n.getRawBlock blockHash = some raw ∧
        ∀ slpOnly b, Block.hydrate raw slpOnly = .ok b → blockHash = b.blockHash.reverse := by
  refine ⟨h.mempoolTransactions hhyd, fun height raw hraw => ?_⟩
  obtain ⟨hhash, hblock⟩ := h.fetchBlock hraw
  refine ⟨_, hhash, hblock, fun slpOnly b hb => ?_⟩
  rw [Block.blockHash_of_hydrate hb]

/-- A block with a GENESIS. -/
def sampleRawBlock : Bytes := (Block.mk .zero 2 .zero .zero 0 0 0 [sampleGenesis]).serialize

/-- A node with one block and one transaction in its mempool. -/
def sampleNode : RpcNode where
  getblockhash height :=
    if height = 1 then some ⟨200, 1, false, displayId (sampleRawBlock.take 80)⟩ else none
  getblock hash :=
    if hash = displayId (sampleRawBlock.take 80) then some ⟨200, 1, false, hex sampleRawBlock⟩
    else none
  getrawmempool := some ⟨200, 1, false, [displayId sampleSend.serialized]⟩
  getrawtransaction txid :=
    if txid = displayId sampleSend.serialized then some ⟨200, 1, false, hex sampleSend.serialized⟩
    else none

theorem sampleNode_serves : sampleNode.Serves
    (fun height => if height = 1 then some sampleRawBlock else none)
    ([sampleSend].map Transaction.serialized) where
  blockHash height raw hraw := by
    obtain ⟨rfl, hsome⟩ := Option.ite_none_right_eq_some.mp hraw
    rw [← Option.some.inj hsome]
    simp [sampleNode, checkedResult]
  block height raw hraw := by
    obtain ⟨rfl, hsome⟩ := Option.ite_none_right_eq_some.mp hraw
    rw [← Option.some.inj hsome]
    simp [sampleNode, checkedResult]
  mempool := rfl
  transaction raw hraw := by
    rw [List.map_singleton, List.mem_singleton] at hraw
    rw [hraw]
    simp [sampleNode, checkedResult]

theorem RpcNode.serves_fetched_sample :
    sampleNode.mempoolTransactions =
        .ok ([sampleSend].filter fun tx => tx.slp.type ≠ .invalid) ∧
      ∃ blockHash, sampleNode.getBlockHash 1 = .ok (some blockHash) ∧
        sampleNode.getRawBlock blockHash = some sampleRawBlock := by
  obtain ⟨hmempool, hchain⟩ := RpcNode.serves_fetched sampleNode_serves
    (List.forall_mem_singleton.mpr sampleSend_hydrated)
  obtain ⟨blockHash, hhash, hblock, -⟩ := hchain 1 sampleRawBlock rfl
  exact ⟨hmempool, blockHash, hhash, hblock⟩

end SlpGraphSearch
