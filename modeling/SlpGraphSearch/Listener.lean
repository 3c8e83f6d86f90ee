import SlpGraphSearch.CacheSync
import SlpGraphSearch.Publisher
import SlpGraphSearch.VerdictHistory

/-!
# The listener

After the start-up phase everything reaches the server through one socket: raw
transactions, and raw blocks with a look at the mempool of the node behind each. What
does not decode is skipped. The listener publishes the single transactions that the
validator accepts and the blocks in the order in which they were processed.

A run of the listener on raw messages is a run of the handlers on decoded transactions,
so what holds in every state of those holds here.
-/
namespace SlpGraphSearch
open Library Transaction

/-! ## The model -/

/-- What the node answers to the calls of one `get_mempool_transactions`. -/
structure MempoolAnswers where
  rawMempool : Option (List Txid)
  rawTransaction : Txid → Option Bytes

/-- The loop body of `get_mempool_transactions`. -/
def MempoolAnswers.push (answers : MempoolAnswers) (ret : List Transaction) (txid : Txid) :
    Except Failure (List Transaction) :=
  match answers.rawTransaction txid with
  | none => .error .runtimeError
  | some txdata => do
      match ← Server.decoded txdata with
      | none => .error .runtimeError
      | some tx => if tx.slp.type ≠ .invalid then .ok (ret ++ [tx]) else .ok ret

def getMempoolTransactions (answers : MempoolAnswers) : Except Failure (List Transaction) :=
  match answers.rawMempool with
  | none => .error .runtimeError
  | some txids => txids.foldlM answers.push []

/-- A message behind its envelope. With a block comes what the node answers afterwards, and
the order of iteration of the maps that the handlers fill. -/
inductive Message
  | rawtx (data : Bytes)
  | rawblock (data : Bytes) (answers : MempoolAnswers) (order : TokenOrder)

structure Listener where
  server : Server
  currentBlockHeight : ℤ
  currentBlockHash : Blockhash
  publishedTxs : List PublishedTx
  publishedBlocks : List Bytes

/-- The text is UTF-8. -/
def IsUtf8 (text : Bytes) : Prop := text.toByteArray.IsValidUTF8

instance (text : Bytes) : Decidable (IsUtf8 text) :=
  inferInstanceAs (Decidable text.toByteArray.IsValidUTF8)

/-- The strings of the JSON object, without the hexadecimal ones. -/
def PublishedTx.strings (p : PublishedTx) : List Bytes := p.ticker :: (p.inputs ++ p.outputs)

/-- `json.dump()` throws at a string that is not UTF-8. -/
def PublishedTx.dump (p : PublishedTx) : Except Failure Unit :=
  if ∀ text ∈ p.strings, IsUtf8 text then .ok () else .error .runtimeError

/-- `zmqpub` and the prefix of the addresses. -/
structure ListenerConfig where
  zmqpub : Bool
  networkPrefix : Bytes

namespace Listener

def handleTx (config : ListenerConfig) (l : Listener) (data : Bytes) :
    Except Failure Listener := do
  match ← Server.decoded data with
  | none => .ok l
  | some tx => do
      let (added, server) ← l.server.slpsyncBitcoindProcessTx tx
      if added ∧ config.zmqpub then do
        let published ← server.publishTx config.networkPrefix tx
        published.dump
        .ok { l with server := server, publishedTxs := l.publishedTxs ++ [published] }
      else .ok { l with server := server }

def handleBlock (config : ListenerConfig) (l : Listener) (data : Bytes)
    (answers : MempoolAnswers) (order : TokenOrder) : Except Failure Listener := do
  match ← decodedBlock data with
  | none => .ok l
  | some block => do
      let txs ← topologicalSort block.txs
      let (server, _) ← l.server.slpsyncBitcoindProcessBlock order txs false
      let mempoolTransactions ← getMempoolTransactions answers
      let mempool ← topologicalSort mempoolTransactions
      let server ← server.slpsyncBitcoindProcessMempool order mempool
      .ok { l with
        server := server
        currentBlockHeight := l.currentBlockHeight + 1
        currentBlockHash := block.blockHash
        publishedBlocks := if config.zmqpub then
            l.publishedBlocks ++ [{ block with txs := txs }.serialize]
          else l.publishedBlocks }

def step (config : ListenerConfig) (l : Listener) : Message → Except Failure Listener
  | .rawtx data => l.handleTx config data
  | .rawblock data answers order => l.handleBlock config data answers order

end Listener

/-! ## Decoding -/

theorem Server.decoded_eq_some {txdata : Bytes} {tx : Transaction} :
    Server.decoded txdata = .ok (some tx) ↔ hydrate txdata = .ok tx := by
  unfold Server.decoded
  split <;> simp_all

theorem decodedBlock_eq_some {data : Bytes} {block : Block} :
    decodedBlock data = .ok (some block) ↔ Block.hydrate data false = .ok block := by
  unfold decodedBlock
  split <;> simp_all

/-- A decoded block holds decoded transactions and the hash of its header. -/
theorem Block.hydrated_of_hydrate {data : Bytes} {block : Block}
    (h : Block.hydrate data false = .ok block) :
    (∀ tx ∈ block.txs, tx.Hydrated) ∧ block.hashed = block := by
  obtain ⟨⟨b, rest⟩, hread, h⟩ := bind_eq_ok.mp h
  rw [← Except.ok.inj h]
  obtain ⟨-, p, -, l, n, q, -, -, -, hr, hhash⟩ :=
    readBlock_decodes.sound data b rest (Nat.zero_le _) hread
  constructor
  · intro tx htx
    obtain ⟨j, hj⟩ := List.mem_iff_getElem?.mp htx
    obtain ⟨-, hhyd, -⟩ := hr.getElem? hj
    exact hhyd
  · rw [hashed, ← hhash]

/-- The mempool listing consists of decoded SLP transactions. -/
theorem hydrated_of_getMempoolTransactions {answers : MempoolAnswers} {txs : List Transaction}
    (h : getMempoolTransactions answers = .ok txs) :
    ∀ tx ∈ txs, tx.Hydrated ∧ tx.slp.type ≠ .invalid := by
  unfold getMempoolTransactions at h
  cases hraw : answers.rawMempool with
  | none =>
    rw [hraw] at h
    cases h
  | some txids =>
    rw [hraw] at h
    refine foldlM_inv (I := fun ret => ∀ tx ∈ ret, tx.Hydrated ∧ tx.slp.type ≠ .invalid)
      ?_ (fun tx htx => absurd htx List.not_mem_nil) h
    intro ret txid _ ret' hret hpush
    unfold MempoolAnswers.push at hpush
    split at hpush
    · cases hpush
    · obtain ⟨decoded, hdecoded, hpush⟩ := bind_eq_ok.mp hpush
      cases decoded with
      | none => cases hpush
      | some tx =>
        simp only at hpush
        split_ifs at hpush with htype
        · rw [← Except.ok.inj hpush]
          intro u hu
          rcases List.mem_append.mp hu with hu | hu
          · exact hret u hu
          · obtain rfl := List.mem_singleton.mp hu
            exact ⟨⟨_, Server.decoded_eq_some.mp hdecoded⟩, htype⟩
        · exact Except.ok.inj hpush ▸ hret

/-- The bytes decode to the block with its transactions in the order of processing, each
once, and parents first if there is no cycle. -/
def Block.RepublishedAs (block : Block) (bytes : Bytes) : Prop :=
  ∃ txs, topologicalSort block.txs = .ok txs ∧
    Block.hydrate bytes false = .ok { block with txs := txs } ∧
    txs ⊆ block.txs ∧ (txs.map Transaction.txid).Nodup ∧
    (TxidsDetermine block.txs → (∀ t, t ∈ txs ↔ t ∈ block.txs) ∧
      (AcyclicList block.txs → ParentsFirst txs))

/-- The handler calls of a message. -/
def Message.events : Message → Except Failure (List Server.Event)
  | .rawtx data => do
      match ← Server.decoded data with
      | none => .ok []
      | some tx => .ok [.rawtx tx]
  | .rawblock data answers order => do
      match ← decodedBlock data with
      | none => .ok []
      | some block => do
          let txs ← topologicalSort block.txs
          let mempool ← topologicalSort (← getMempoolTransactions answers)
          .ok [.block order txs false, .mempool order mempool]

/-- The block that a message brings, if it brings one that decodes. -/
def Message.block : Message → Except Failure (Option Block)
  | .rawtx _ => .ok none
  | .rawblock data _ _ => decodedBlock data

/-- The message brings the transaction, alone, in a block or in a mempool listing. -/
def Message.Carries (m : Message) (tx : Transaction) : Prop :=
  match m with
  | .rawtx data => hydrate data = .ok tx
  | .rawblock data answers _ =>
      (∃ block, Block.hydrate data false = .ok block ∧ tx ∈ block.txs) ∨
      ∃ listed, getMempoolTransactions answers = .ok listed ∧ tx ∈ listed

/-- The message brings the transaction in a block or in a mempool listing. -/
def Message.Lists (m : Message) (x : Txid) : Prop :=
  match m with
  | .rawtx _ => False
  | .rawblock data answers _ =>
      (∃ block, Block.hydrate data false = .ok block ∧ x ∈ block.txs.map Transaction.txid) ∨
      ∃ listed, getMempoolTransactions answers = .ok listed ∧ x ∈ listed.map Transaction.txid

namespace Listener

variable {config : ListenerConfig} {l l' : Listener}

/-- A raw transaction is skipped, or judged and then published if it was accepted. -/
theorem handleTx_cases {data : Bytes} (h : l.handleTx config data = .ok l') :
    Server.decoded data = .ok none ∧ l' = l ∨
    ∃ tx added server, hydrate data = .ok tx ∧
      l.server.slpsyncBitcoindProcessTx tx = .ok (added, server) ∧
      ((added = true ∧ config.zmqpub = true) ∧ (∃ published,
        server.publishTx config.networkPrefix tx = .ok published ∧ published.dump = .ok () ∧
        l' = { l with server := server, publishedTxs := l.publishedTxs ++ [published] }) ∨
      ¬ (added = true ∧ config.zmqpub = true) ∧ l' = { l with server := server }) := by
  obtain ⟨decoded, hdecoded, h⟩ := bind_eq_ok.mp h
  cases decoded with
  | none => exact .inl ⟨hdecoded, (Except.ok.inj h).symm⟩
  | some tx =>
    obtain ⟨⟨added, server⟩, hprocess, h⟩ := bind_eq_ok.mp h
    refine .inr ⟨tx, added, server, Server.decoded_eq_some.mp hdecoded, hprocess, ?_⟩
    simp only at h
    split_ifs at h with hpub
    · obtain ⟨published, hpublish, h⟩ := bind_eq_ok.mp h
      obtain ⟨⟨⟩, hdump, h⟩ := bind_eq_ok.mp h
      exact .inl ⟨hpub, published, hpublish, hdump, (Except.ok.inj h).symm⟩
    · exact .inr ⟨hpub, (Except.ok.inj h).symm⟩

/-- A raw block is skipped, or processed in order and followed by the mempool. -/
theorem handleBlock_cases {data : Bytes} {answers : MempoolAnswers} {order : TokenOrder}
    (h : l.handleBlock config data answers order = .ok l') :
    decodedBlock data = .ok none ∧ l' = l ∨
    ∃ block txs s listed mempool server, Block.hydrate data false = .ok block ∧
      topologicalSort block.txs = .ok txs ∧
      l.server.step (.block order txs false) = .ok s ∧
      getMempoolTransactions answers = .ok listed ∧ topologicalSort listed = .ok mempool ∧
      s.step (.mempool order mempool) = .ok server ∧
      l' = { l with
        server := server
        currentBlockHeight := l.currentBlockHeight + 1
        currentBlockHash := block.blockHash
        publishedBlocks := if config.zmqpub then
            l.publishedBlocks ++ [{ block with txs := txs }.serialize]
          else l.publishedBlocks } := by
  obtain ⟨decoded, hdecoded, h⟩ := bind_eq_ok.mp h
  cases decoded with
  | none => exact .inl ⟨hdecoded, (Except.ok.inj h).symm⟩
  | some block =>
    obtain ⟨txs, htxs, h⟩ := bind_eq_ok.mp h
    obtain ⟨⟨s, validTxs⟩, hblock, h⟩ := bind_eq_ok.mp h
    obtain ⟨listed, hlisted, h⟩ := bind_eq_ok.mp h
    obtain ⟨mempool, hmempool, h⟩ := bind_eq_ok.mp h
    obtain ⟨server, hserver, h⟩ := bind_eq_ok.mp h
    refine .inr ⟨block, txs, s, listed, mempool, server, decodedBlock_eq_some.mp hdecoded, htxs,
      ?_, hlisted, hmempool, hserver, (Except.ok.inj h).symm⟩
    exact bind_eq_ok.mpr ⟨_, hblock, rfl⟩

/-- The listener makes the handler calls of the message. -/
theorem step_events {m : Message} (h : l.step config m = .ok l') :
    ∃ events, m.events = .ok events ∧ events.foldlM Server.step l.server = .ok l'.server := by
  cases m with
  | rawtx data =>
    rcases handleTx_cases h with ⟨hnone, rfl⟩ | ⟨tx, added, server, htx, hprocess, hpublished⟩
    · exact ⟨[], by rw [Message.events, hnone]; rfl, rfl⟩
    · have hserver : l'.server = server := by
        rcases hpublished with ⟨-, _, -, -, rfl⟩ | ⟨-, rfl⟩
        · rfl
        · rfl
      refine ⟨[.rawtx tx], ?_, ?_⟩
      · rw [Message.events, Server.decoded_eq_some.mpr htx]
        rfl
      · rw [hserver, List.foldlM_cons, Server.step, hprocess]
        rfl
  | rawblock data answers order =>
    rcases handleBlock_cases h with ⟨hnone, rfl⟩ |
      ⟨block, txs, s, listed, mempool, server, hblock, htxs, hs, hlisted, hmempool, hserver, rfl⟩
    · exact ⟨[], by rw [Message.events, hnone]; rfl, rfl⟩
    · refine ⟨[.block order txs false, .mempool order mempool], ?_, ?_⟩
      · simp only [Message.events, decodedBlock_eq_some.mpr hblock, htxs, hlisted, hmempool, bind,
          Except.bind]
      · simp only [List.foldlM_cons, hs, hserver, bind, Except.bind]
        rfl

/-- Nothing that arrives is trusted, and the handlers get what the message carries. -/
theorem events_carried {m : Message} {events : List Server.Event} (h : m.events = .ok events) :
    ∀ e ∈ events, e.trusted = false ∧ ∀ tx ∈ e.txs, m.Carries tx := by
  cases m with
  | rawtx data =>
    obtain ⟨decoded, hdecoded, h⟩ := bind_eq_ok.mp h
    cases decoded with
    | none =>
      rw [← Except.ok.inj h]
      simp
    | some tx =>
      rw [← Except.ok.inj h]
      intro e he
      rw [List.mem_singleton.mp he]
      refine ⟨rfl, fun u hu => ?_⟩
      rw [List.mem_singleton.mp hu]
      exact Server.decoded_eq_some.mp hdecoded
  | rawblock data answers order =>
    obtain ⟨decoded, hdecoded, h⟩ := bind_eq_ok.mp h
    cases decoded with
    | none =>
      rw [← Except.ok.inj h]
      simp
    | some block =>
      obtain ⟨txs, htxs, h⟩ := bind_eq_ok.mp h
      obtain ⟨listed, hlisted, h⟩ := bind_eq_ok.mp h
      obtain ⟨mempool, hmempool, h⟩ := bind_eq_ok.mp h
      rw [← Except.ok.inj h]
      intro e he
      rcases List.mem_pair.mp he with rfl | rfl
      · refine ⟨rfl, fun tx htx => .inl ⟨block, decodedBlock_eq_some.mp hdecoded, ?_⟩⟩
        exact (subset_of_topologicalSort htxs).1 htx
      · refine ⟨rfl, fun tx htx => .inr ⟨listed, hlisted, ?_⟩⟩
        exact (subset_of_topologicalSort hmempool).1 htx

theorem hydrated_of_carries {m : Message} {tx : Transaction} (h : m.Carries tx) :
    tx.Hydrated := by
  cases m with
  | rawtx data => exact ⟨data, h⟩
  | rawblock data answers order =>
    rcases h with ⟨block, hblock, htx⟩ | ⟨listed, hlisted, htx⟩
    · exact (Block.hydrated_of_hydrate hblock).1 tx htx
    · exact (hydrated_of_getMempoolTransactions hlisted tx htx).1

/-- What the handlers keep on decoded transactions, the listener keeps on any bytes. -/
theorem step_keeps {I : Server → Prop}
    (hevent : ∀ (s : Server) (e : Server.Event) (s' : Server), e.trusted = false →
      (∀ tx ∈ e.txs, tx.Hydrated) → I s → s.step e = .ok s' → I s')
    {m : Message} (hl : I l.server) (h : l.step config m = .ok l') : I l'.server := by
  obtain ⟨events, hevents, hrun⟩ := step_events h
  refine foldlM_inv (I := I) ?_ hl hrun
  intro s e he s' hs hstep
  obtain ⟨huntrusted, hcarries⟩ := events_carried hevents e he
  exact hevent s e s' huntrusted (fun tx htx => hydrated_of_carries (hcarries tx htx)) hs hstep

theorem step_storedHydrated {m : Message} (hl : l.server.validator.StoredHydrated)
    (h : l.step config m = .ok l') : l'.server.validator.StoredHydrated := by
  refine step_keeps (I := fun s => s.validator.StoredHydrated) ?_ hl h
  intro s e s' _ hhyd hs hstep
  exact Server.storedHydrated_step hs hhyd hstep

theorem step_extends {m : Message} (h : l.step config m = .ok l') :
    l.server.validator.Extends l'.server.validator := by
  refine step_keeps (I := fun s => l.server.validator.Extends s.validator) ?_ (.refl _) h
  intro s e s' _ _ hs hstep
  exact hs.trans (Server.extends_step hstep)

/-! ## Published transactions -/

/-- What the published message says, in terms of stored transactions: the GENESIS of the
token with its group, the outputs that the message of `tx` names and some of those that it
spends. -/
structure Describes (v : Validator) (networkPrefix : Bytes) (tx : Transaction)
    (p : PublishedTx) : Prop where
  serialized : p.serialized = tx.serialized
  txHash : p.txHash = tx.txid
  tokenId : p.tokenId = tx.slp.tokenid
  type : p.type = tx.slp.tokenType
  txType : p.txType = tx.slp.type
  genesis : ∃ g info, v.transactionMap.lookup tx.slp.tokenid = some g ∧
    g.slp.slpTx = .genesis info ∧ p.ticker = info.ticker ∧ p.decimals = info.decimals ∧
    (tx.slp.tokenType = 0x41 → ∃ o q, g.inputs.head? = some o ∧
      v.transactionMap.lookup o.txid = some q ∧ p.groupId = some q.slp.tokenid)
  outputs : ∃ os, tx.slpOutputs = .ok os ∧ List.Forall₂ (fun o address =>
    Scriptpubkey.toCashaddr o.scriptpubkey networkPrefix = .ok address) os p.outputs
  inputs : ∀ address ∈ p.inputs, ∃ input ∈ tx.inputs, ∃ prevTx o,
    v.transactionMap.lookup input.txid = some prevTx ∧ prevTx.NamesOutput input.vout.toNat ∧
      prevTx.outputs[input.vout.toNat]? = some o ∧
      Scriptpubkey.toCashaddr o.scriptpubkey networkPrefix = .ok address

theorem Describes.mono {v v' : Validator} {networkPrefix : Bytes} {tx : Transaction}
    {p : PublishedTx} (h : Describes v networkPrefix tx p) (hext : v.Extends v') :
    Describes v' networkPrefix tx p where
  serialized := h.serialized
  txHash := h.txHash
  tokenId := h.tokenId
  type := h.type
  txType := h.txType
  genesis := by
    obtain ⟨g, info, hg, hinfo, hticker, hdecimals, hgroup⟩ := h.genesis
    refine ⟨g, info, hext.lookup _ _ hg, hinfo, hticker, hdecimals, fun h41 => ?_⟩
    obtain ⟨o, q, ho, hq, hid⟩ := hgroup h41
    exact ⟨o, q, ho, hext.lookup _ _ hq, hid⟩
  outputs := h.outputs
  inputs := by
    intro address ha
    obtain ⟨input, hin, prevTx, o, hprev, hrest⟩ := h.inputs address ha
    exact ⟨input, hin, prevTx, o, hext.lookup _ _ hprev, hrest⟩

theorem inputCashaddr_eq_ok {s : Server} {networkPrefix : Bytes} {input : Outpoint}
    {address : Bytes} : s.inputCashaddr networkPrefix input = .ok address ↔
      ∃ prevTx o, s.validator.transactionMap.lookup input.txid = some prevTx ∧
        prevTx.outputs[input.vout.toNat]? = some o ∧
        Scriptpubkey.toCashaddr o.scriptpubkey networkPrefix = .ok address := by
  simp only [Server.inputCashaddr, bind_eq_ok, Server.get_eq_ok]
  refine exists_congr fun prevTx => ?_
  cases prevTx.outputs[input.vout.toNat]? with
  | none => simp
  | some o => simp

theorem describes_of_publishTx {s : Server} {networkPrefix : Bytes} {tx : Transaction}
    {p : PublishedTx} (hstored : s.validator.StoredHydrated)
    (h : s.publishTx networkPrefix tx = .ok p) : Describes s.validator networkPrefix tx p := by
  obtain ⟨⟨g, info⟩, hg, h⟩ := bind_eq_ok.mp h
  obtain ⟨group, hgroup, h⟩ := bind_eq_ok.mp h
  obtain ⟨ins, hins, h⟩ := bind_eq_ok.mp h
  obtain ⟨inputs, hinputs, h⟩ := bind_eq_ok.mp h
  obtain ⟨os, hos, h⟩ := bind_eq_ok.mp h
  obtain ⟨outputs, houtputs, h⟩ := bind_eq_ok.mp h
  rw [← Except.ok.inj h]
  obtain ⟨hlook, hinfo⟩ := Server.genesisInfo_eq_ok.mp hg
  refine ⟨rfl, rfl, rfl, rfl, rfl, ⟨g, info, hlook, hinfo, rfl, rfl, fun h41 => ?_⟩,
    ⟨os, hos, mapM_eq_ok_iff.mp houtputs⟩, fun address haddress => ?_⟩
  · simp only [h41, if_true] at hgroup
    cases ht : s.groupid g with
    | error e =>
      rw [ht] at hgroup
      cases hgroup
    | ok t =>
      rw [ht] at hgroup
      obtain ⟨o, q, ho, hq, hid⟩ := Server.groupid_eq_ok.mp ht
      refine ⟨o, q, ho, hq, ?_⟩
      rw [hid]
      exact (Except.ok.inj hgroup).symm
  · obtain ⟨input, hinput, haddr⟩ := mem_of_mapM_ok hinputs haddress
    obtain ⟨hin, hslp⟩ := (mem_slpInputs hins).mp hinput
    obtain ⟨prevTx, -, hprev, hnames, -⟩ := (isSlpInput_iff hstored).mp hslp
    obtain ⟨prevTx', o, hprev', ho, haddr⟩ := inputCashaddr_eq_ok.mp haddr
    obtain rfl := Option.some.inj (hprev.symm.trans hprev')
    exact ⟨input, hin, prevTx, o, hprev, hnames, ho, haddr⟩

/-- The verdict that `slpsync_bitcoind_process_tx` returns is the one it stores. -/
theorem valid_of_processTx {s s' : Server} {tx : Transaction} {added : Bool}
    (h : s.slpsyncBitcoindProcessTx tx = .ok (added, s')) :
    s'.validator.valid = if added then insert tx.txid s.validator.valid
      else s.validator.valid := by
  obtain ⟨bch, -, h⟩ := bind_eq_ok.mp h
  simp only at h
  split_ifs at h with htype hknown
  · cases h
    rfl
  · cases h
    rfl
  · have hnew : tx.txid ∉ s.validator.transactionMap := by simpa [Validator.has] using hknown
    obtain ⟨⟨b, validator⟩, hadd, h⟩ := bind_eq_ok.mp h
    rcases Validator.addTx_unknown hnew hadd with ⟨-, rfl, rfl⟩ | ⟨-, rfl, rfl⟩ | ⟨-, rfl, rfl⟩
    · cases h
      rfl
    · cases h
      rfl
    · cases h
      rfl

/-- The publications of a run from `l` to `l'`: new ones, each of them once, about stored
transactions; and of everything that became valid on the way, unless it came in a list. -/
structure Publications (config : ListenerConfig) (l : Listener) (messages : List Message)
    (l' : Listener) (new : List PublishedTx) : Prop where
  hydrated : l'.server.validator.StoredHydrated
  extends_ : l.server.validator.Extends l'.server.validator
  appended : l'.publishedTxs = l.publishedTxs ++ new
  once : (new.map PublishedTx.txHash).Nodup
  fresh : ∀ p ∈ new, p.txHash ∉ l.server.validator.transactionMap
  sound : ∀ p ∈ new, ∃ tx, l'.server.validator.view p.txHash = some tx ∧
    Describes l'.server.validator config.networkPrefix tx p
  complete : config.zmqpub = true → ∀ x ∈ l'.server.validator.valid,
    x ∈ l.server.validator.valid ∨ x ∈ new.map PublishedTx.txHash ∨ ∃ m ∈ messages, m.Lists x
  silent : config.zmqpub = false → new = []

theorem Publications.refl (config : ListenerConfig) {l : Listener}
    (h : l.server.validator.StoredHydrated) : Publications config l [] l [] where
  hydrated := h
  extends_ := .refl _
  appended := (List.append_nil _).symm
  once := List.nodup_nil
  fresh _ hp := absurd hp List.not_mem_nil
  sound _ hp := absurd hp List.not_mem_nil
  complete _ _ hx := .inl hx
  silent _ := rfl

variable {config : ListenerConfig} {l l₁ l₂ : Listener} {new new' : List PublishedTx}
  {messages messages' : List Message}

/-- What is published later is unknown until then, so it was not published before. -/
theorem Publications.trans (h : Publications config l messages l₁ new)
    (h' : Publications config l₁ messages' l₂ new') :
    Publications config l (messages ++ messages') l₂ (new ++ new') where
  hydrated := h'.hydrated
  extends_ := h.extends_.trans h'.extends_
  appended := by rw [h'.appended, h.appended, List.append_assoc]
  once := by
    rw [List.map_append]
    refine h.once.append h'.once fun x hx hx' => ?_
    obtain ⟨p, hp, rfl⟩ := List.mem_map.mp hx
    obtain ⟨q, hq, heq⟩ := List.mem_map.mp hx'
    obtain ⟨tx, htx, -⟩ := h.sound p hp
    apply h'.fresh q hq
    rw [heq]
    exact KeyedMap.mem_iff.mpr ⟨tx, (Validator.view_eq_some.mp htx).2⟩
  fresh p hp := by
    rcases List.mem_append.mp hp with hp | hp
    · exact h.fresh p hp
    · exact fun hmem => h'.fresh p hp (h.extends_.mem hmem)
  sound p hp := by
    rcases List.mem_append.mp hp with hp | hp
    · obtain ⟨tx, htx, hdescribes⟩ := h.sound p hp
      exact ⟨tx, h'.extends_.view htx, hdescribes.mono h'.extends_⟩
    · exact h'.sound p hp
  complete hpub x hx := by
    rw [List.map_append, List.mem_append]
    rcases h'.complete hpub x hx with hx | hx | ⟨m, hm, hlists⟩
    · rcases h.complete hpub x hx with hx | hx | ⟨m, hm, hlists⟩
      · exact .inl hx
      · exact .inr (.inl (.inl hx))
      · exact .inr (.inr ⟨m, List.mem_append_left _ hm, hlists⟩)
    · exact .inr (.inl (.inr hx))
    · exact .inr (.inr ⟨m, List.mem_append_right _ hm, hlists⟩)
  silent hpub := by rw [h.silent hpub, h'.silent hpub, List.append_nil]

theorem Publications.quiet {m : Message} (hhyd : l₁.server.validator.StoredHydrated)
    (hext : l.server.validator.Extends l₁.server.validator)
    (hsame : l₁.publishedTxs = l.publishedTxs)
    (hvalid : config.zmqpub = true → ∀ x ∈ l₁.server.validator.valid,
      x ∈ l.server.validator.valid ∨ m.Lists x) : Publications config l [m] l₁ [] where
  hydrated := hhyd
  extends_ := hext
  appended := hsame.trans (List.append_nil _).symm
  once := List.nodup_nil
  fresh _ hp := absurd hp List.not_mem_nil
  sound _ hp := absurd hp List.not_mem_nil
  complete hpub x hx := by
    rcases hvalid hpub x hx with hx | hlists
    · exact .inl hx
    · exact .inr (.inr ⟨m, List.mem_singleton.mpr rfl, hlists⟩)
  silent _ := rfl

/-- An accepted transaction is held with its verdict. -/
theorem view_of_accepted {s s' : Server} {tx : Transaction}
    (h : s.slpsyncBitcoindProcessTx tx = .ok (true, s')) :
    s'.validator.view tx.txid = some tx := by
  obtain ⟨-, hnew, hmap⟩ := Server.transactionMap_of_accepted h
  refine Validator.view_eq_some.mpr ⟨?_, ?_⟩
  · rw [valid_of_processTx h, if_pos rfl]
    exact Finset.mem_insert_self _ _
  · rw [hmap, KeyedMap.lookup_emplace, if_pos rfl, KeyedMap.lookup_eq_none.mpr hnew]
    rfl

theorem publications_handleTx (hstored : l.server.validator.StoredHydrated) {data : Bytes}
    (h : l.handleTx config data = .ok l₁) :
    ∃ new, Publications config l [.rawtx data] l₁ new := by
  have hstep : l.step config (.rawtx data) = .ok l₁ := h
  have hhyd := step_storedHydrated hstored hstep
  have hext := step_extends hstep
  rcases handleTx_cases h with ⟨-, rfl⟩ | ⟨tx, added, server, -, hprocess, hpublished⟩
  · exact ⟨[], .quiet hhyd hext rfl fun _ x hx => .inl hx⟩
  · have hvalid := valid_of_processTx hprocess
    rcases hpublished with ⟨⟨rfl, hpub⟩, p, hpublish, -, rfl⟩ | ⟨hquiet, rfl⟩
    · obtain ⟨-, hnew, -⟩ := Server.transactionMap_of_accepted hprocess
      have hdescribes := describes_of_publishTx hhyd hpublish
      have hview := view_of_accepted hprocess
      refine ⟨[p], hhyd, hext, rfl, List.nodup_singleton _, ?_, ?_, ?_, ?_⟩
      · intro q hq
        rw [List.mem_singleton.mp hq, hdescribes.txHash]
        exact hnew
      · intro q hq
        rw [List.mem_singleton.mp hq, hdescribes.txHash]
        exact ⟨tx, hview, hdescribes⟩
      · intro _ x hx
        rw [hvalid, if_pos rfl] at hx
        rcases Finset.mem_insert.mp hx with rfl | hx
        · exact .inr (.inl (List.mem_singleton.mpr hdescribes.txHash.symm))
        · exact .inl hx
      · intro hoff
        rw [hpub] at hoff
        cases hoff
    · refine ⟨[], .quiet hhyd hext rfl fun hpub x hx => .inl ?_⟩
      have hrefused : added = false := by
        cases added with
        | false => rfl
        | true => exact absurd ⟨rfl, hpub⟩ hquiet
      rw [hvalid, hrefused] at hx
      exact hx

/-- What a handler accepts is among what it was given. -/
theorem valid_of_step {s s' : Server} {e : Server.Event} (h : s.step e = .ok s') {x : Txid}
    (hx : x ∈ s'.validator.valid) : x ∈ s.validator.valid ∨ x ∈ e.txs.map Transaction.txid := by
  obtain ⟨v, accepted, bch, hoffer, -, rfl⟩ := Server.step_eq_ok.mp h
  have hjudged := Server.judged_offerTxs hoffer
  rcases (hjudged.valid_iff x).mp hx with hx | ⟨tx, htx, rfl⟩
  · exact .inl hx
  · exact .inr (List.mem_map_of_mem (hjudged.accepted tx htx).1)

theorem publications_handleBlock (hstored : l.server.validator.StoredHydrated) {data : Bytes}
    {answers : MempoolAnswers} {order : TokenOrder}
    (h : l.handleBlock config data answers order = .ok l₁) :
    ∃ new, Publications config l [.rawblock data answers order] l₁ new := by
  have hstep : l.step config (.rawblock data answers order) = .ok l₁ := h
  have hhyd := step_storedHydrated hstored hstep
  have hext := step_extends hstep
  rcases handleBlock_cases h with ⟨-, rfl⟩ |
    ⟨block, txs, s, listed, mempool, server, hblock, htxs, hs, hlisted, hmempool, hserver, rfl⟩
  · exact ⟨[], .quiet hhyd hext rfl fun _ x hx => .inl hx⟩
  · refine ⟨[], .quiet hhyd hext rfl fun _ x hx => ?_⟩
    rcases valid_of_step hserver hx with hx | hx
    · rcases valid_of_step hs hx with hx | hx
      · exact .inl hx
      · exact .inr (.inl ⟨block, hblock, List.map_subset _ (subset_of_topologicalSort htxs).1 hx⟩)
    · exact .inr (.inr ⟨listed, hlisted,
        List.map_subset _ (subset_of_topologicalSort hmempool).1 hx⟩)

/-- Over any messages a listener publishes only stored valid transactions, with the data of
their token and the addresses of their outputs, each at most once and none that was known
before. It leaves out no transaction that became valid, unless a block or a mempool listing
brought it. -/
theorem run_publishedTxs (hstored : l.server.validator.StoredHydrated)
    (hrun : messages.foldlM (Listener.step config) l = .ok l₁) :
    ∃ new, l₁.publishedTxs = l.publishedTxs ++ new ∧ (new.map PublishedTx.txHash).Nodup ∧
      (∀ p ∈ new, p.txHash ∉ l.server.validator.transactionMap ∧
        ∃ tx, l₁.server.validator.view p.txHash = some tx ∧
          Describes l₁.server.validator config.networkPrefix tx p) ∧
      (config.zmqpub = true → ∀ x ∈ l₁.server.validator.valid, x ∉ l.server.validator.valid →
        x ∈ new.map PublishedTx.txHash ∨ ∃ m ∈ messages, m.Lists x) ∧
      (config.zmqpub = false → new = []) := by
  obtain ⟨new, h⟩ : ∃ new, Publications config l messages l₁ new := by
    induction messages generalizing l with
    | nil =>
        rw [List.foldlM_nil] at hrun
        rw [← Except.ok.inj hrun]
        exact ⟨[], .refl config hstored⟩
    | cons m messages ih =>
        rw [List.foldlM_cons, bind_eq_ok] at hrun
        obtain ⟨l₂, hstep, hrun⟩ := hrun
        obtain ⟨new, hnew⟩ : ∃ new, Publications config l [m] l₂ new := by
          cases m with
          | rawtx data => exact publications_handleTx hstored hstep
          | rawblock data answers order => exact publications_handleBlock hstored hstep
        obtain ⟨rest, hrest⟩ := ih hnew.hydrated hrun
        exact ⟨new ++ rest, hnew.trans hrest⟩
  refine ⟨new, h.appended, h.once, ?_, ?_, h.silent⟩
  · intro p hp
    exact ⟨h.fresh p hp, h.sound p hp⟩
  · intro hpub x hx hnew
    exact (h.complete hpub x hx).resolve_left hnew

/-- Two messages: a GENESIS, and a SEND of what it issues. -/
def paidMessages : List Message :=
  [.rawtx Server.paidGenesis.serialized, .rawtx Server.paidSend.serialized]

theorem run_publishedTxs_sample : ∃ l₁ new,
    paidMessages.foldlM (Listener.step ⟨true, Server.mainPrefix⟩) ⟨.empty false, 0, .zero, [], []⟩ =
      .ok l₁ ∧ l₁.publishedTxs = [] ++ new ∧ (new.map PublishedTx.txHash).Nodup := by
  have hrun : ∃ l₁, paidMessages.foldlM (Listener.step ⟨true, Server.mainPrefix⟩)
      ⟨.empty false, 0, .zero, [], []⟩ = .ok l₁ ∧ True := by decide +kernel
  obtain ⟨l₁, hrun, -⟩ := hrun
  obtain ⟨new, happ, honce, -⟩ := run_publishedTxs (Server.sincere_empty false).hydrated hrun
  exact ⟨l₁, new, hrun, happ, honce⟩

/-! ## Published blocks -/

/-- The blocks that a run receives: they are counted, the hash is that of the last one,
and each is published in the order of processing. -/
structure Received (config : ListenerConfig) (l : Listener) (blocks : List Block)
    (l' : Listener) : Prop where
  height : l'.currentBlockHeight = l.currentBlockHeight + blocks.length
  hash : l'.currentBlockHash = blocks.getLast?.elim l.currentBlockHash Block.blockHash
  published : ∃ new, l'.publishedBlocks = l.publishedBlocks ++ new ∧
    if config.zmqpub then List.Forall₂ Block.RepublishedAs blocks new else new = []

theorem Received.trans {blocks blocks' : List Block} (h : Received config l blocks l₁)
    (h' : Received config l₁ blocks' l₂) : Received config l (blocks ++ blocks') l₂ where
  height := by
    rw [h'.height, h.height, List.length_append]
    push_cast
    ring
  hash := by
    rw [h'.hash, h.hash, List.getLast?_append]
    cases blocks'.getLast? with
    | none => rfl
    | some block => rfl
  published := by
    obtain ⟨new, happ, hnew⟩ := h.published
    obtain ⟨new', happ', hnew'⟩ := h'.published
    refine ⟨new ++ new', by rw [happ', happ, List.append_assoc], ?_⟩
    split_ifs at hnew hnew' ⊢
    · exact List.rel_append hnew hnew'
    · rw [hnew, hnew', List.append_nil]

end Listener
end SlpGraphSearch
