import SlpGraphSearch.Listener

/-!
# When the listener fails

The listener catches errors of the socket only, so one message can end the process. Over the
transactions of a ledger the handlers run through, and what is left are two places. Behind a
block the node must list its mempool and hand over each transaction of it. And the publisher
looks up the GENESIS of the token, which a SEND of nothing can do without, converts the
scripts of token outputs to addresses, which not every script has, and writes the ticker into
a JSON text, though a GENESIS may name any bytes.
-/
namespace SlpGraphSearch
open Library Transaction

/-! ## The conditions -/

/-- The node lists its mempool and has the listed transactions, and they decode. -/
def MempoolAnswers.Complete (answers : MempoolAnswers) : Prop :=
  ∃ txids, answers.rawMempool = some txids ∧ ∀ txid ∈ txids, ∃ txdata tx,
    answers.rawTransaction txid = some txdata ∧ hydrate txdata = .ok tx

/-- Every GENESIS and MINT of the ledger has the outputs that `slp_outputs` indexes. -/
def Ledger.Indexable (L : Ledger) : Prop :=
  ∀ ⦃x t⦄, L.T.lookup x = some t → t.IsAuthority → 2 ≤ t.outputs.length

/-- The GENESIS of the token is stored, and for a child token the transaction behind its
first input. -/
def Validator.Describable (v : Validator) (tx : Transaction) : Prop :=
  ∃ g, v.transactionMap.lookup tx.slp.tokenid = some g ∧ g.slp.type = .genesis ∧
    (tx.slp.tokenType = 0x41 → ∃ o ∈ g.inputs.head?, o.txid ∈ v.transactionMap)

/-- The ticker of the token is text. -/
def Validator.TickerIsText (v : Validator) (tx : Transaction) : Prop :=
  ∀ g info, v.transactionMap.lookup tx.slp.tokenid = some g → g.slp.slpTx = .genesis info →
    IsUtf8 info.ticker

/-- A new transaction whose rule holds over the valid ones. -/
def Validator.Accepts (L : Ledger) (v : Validator) (tx : Transaction) : Prop :=
  tx.txid ∉ v.transactionMap ∧ SlpRule (restrict L.T v.valid) tx

/-- The message brings nothing that the listener fails at. -/
def Listener.Withstands (L : Ledger) (config : ListenerConfig) (l : Listener) (m : Message) :
    Prop :=
  match m with
  | .rawtx data => config.zmqpub = true → ∀ tx, hydrate data = .ok tx →
      l.server.validator.Accepts L tx → l.server.validator.TokensAddressable tx ∧
        (l.server.validator.offered tx).TickerIsText tx ∧
        (tx.SendsNothing → (l.server.validator.offered tx).Describable tx)
  | .rawblock data answers _ =>
      (∃ block, Block.hydrate data false = .ok block) → answers.Complete

/-! ## Decoding -/

theorem Server.decoded_cases (txdata : Bytes) :
    Server.decoded txdata = .ok none ∧ (∀ tx, hydrate txdata ≠ .ok tx) ∨
      ∃ tx, hydrate txdata = .ok tx ∧ Server.decoded txdata = .ok (some tx) := by
  cases htx : hydrate txdata with
  | ok tx => exact .inr ⟨tx, rfl, Server.decoded_eq_some.mpr htx⟩
  | error e =>
    cases e with
    | refuse => exact .inl ⟨by rw [Server.decoded, htx], fun tx h => by cases h⟩
    | outOfBounds => exact absurd htx (hydrate_safe txdata)
    | exhausted => exact absurd htx (hydrate_terminates txdata)

theorem decodedBlock_cases (data : Bytes) :
    decodedBlock data = .ok none ∧ (∀ block, Block.hydrate data false ≠ .ok block) ∨
      ∃ block, Block.hydrate data false = .ok block ∧ decodedBlock data = .ok (some block) := by
  rcases Block.hydrate_cases data false with h | ⟨block, h⟩
  · refine .inl ⟨by rw [decodedBlock, h], fun block hblock => ?_⟩
    rw [h] at hblock
    cases hblock
  · exact .inr ⟨block, h, decodedBlock_eq_some.mpr h⟩

/-! ## Text -/

theorem IsUtf8.append {a b : Bytes} (ha : IsUtf8 a) (hb : IsUtf8 b) : IsUtf8 (a ++ b) := by
  rw [IsUtf8, List.toByteArray_append]
  exact ByteArray.IsValidUTF8.append ha hb

theorem isUtf8_ascii {text : Bytes} (h : ∀ b ∈ text, b < 0x80) : IsUtf8 text := by
  have hchar : ∀ n < 0x80, String.utf8EncodeChar (Char.ofNat n) = [UInt8.ofNat n] := by
    decide +kernel
  induction text with
  | nil => exact ByteArray.isValidUTF8_empty
  | cons b text ih =>
    have hb : IsUtf8 [b] := by
      have hvalid := Char.isValidUTF8_toByteArray_utf8EncodeChar (c := Char.ofNat b.toNat)
      rw [hchar _ (UInt8.lt_iff_toNat_lt.mp (h b List.mem_cons_self)), UInt8.ofNat_toNat] at hvalid
      exact hvalid
    exact hb.append (ih fun c hc => h c (List.mem_cons_of_mem b hc))

theorem Cashaddr.isUtf8_encode {addrPrefix payload str : Bytes} (hp : IsUtf8 addrPrefix)
    (h : encode addrPrefix payload = .ok str) : IsUtf8 str := by
  have hcharset : ∀ x ∈ charset, x < 0x80 := by decide +kernel
  obtain ⟨digits, hdigits, h⟩ := bind_eq_ok.mp h
  rw [← Except.ok.inj h]
  refine hp.append (isUtf8_ascii fun b hb => ?_)
  rcases List.mem_cons.mp hb with rfl | hb
  · decide
  · obtain ⟨c, -, hc⟩ := mem_of_mapM_ok hdigits hb
    unfold charAt at hc
    split at hc
    · cases hc
    · rename_i x hx
      cases hc
      exact hcharset _ (List.mem_of_getElem? hx)

/-- An address is text behind a prefix that is. -/
theorem Scriptpubkey.isUtf8_toCashaddr {v : Scriptpubkey} {addrPrefix str : Bytes}
    (hp : IsUtf8 addrPrefix) (h : toCashaddr v addrPrefix = .ok str) : IsUtf8 str := by
  obtain ⟨typeBits, -, h⟩ := bind_eq_ok.mp h
  obtain ⟨sizeBits, -, h⟩ := bind_eq_ok.mp h
  obtain ⟨payload, -, h⟩ := bind_eq_ok.mp h
  exact Cashaddr.isUtf8_encode hp h

/-- `json.dump()` fails at the ticker only. -/
theorem PublishedTx.dump_ok_iff {p : PublishedTx}
    (haddresses : ∀ address ∈ p.inputs ++ p.outputs, IsUtf8 address) :
    p.dump = .ok () ↔ IsUtf8 p.ticker := by
  unfold dump strings
  split_ifs with h
  · exact iff_of_true rfl (h _ List.mem_cons_self)
  · refine iff_of_false (fun hok => by cases hok) fun hticker => h ?_
    exact List.forall_mem_cons.mpr ⟨hticker, haddresses⟩

namespace MempoolAnswers

variable {answers : MempoolAnswers}

theorem push_ok_iff {ret : List Transaction} {txid : Txid} :
    (∃ ret', answers.push ret txid = .ok ret') ↔
      ∃ txdata tx, answers.rawTransaction txid = some txdata ∧ hydrate txdata = .ok tx := by
  unfold push
  cases hraw : answers.rawTransaction txid with
  | none => simp
  | some txdata =>
    rcases Server.decoded_cases txdata with ⟨hnone, hnot⟩ | ⟨tx, htx, hsome⟩
    · simp [hnone, hnot, bind, Except.bind]
    · refine iff_of_true ?_ ⟨txdata, tx, rfl, htx⟩
      simp only [hsome, bind, Except.bind]
      split_ifs
      · exact ⟨_, rfl⟩
      · exact ⟨_, rfl⟩

/-- `get_mempool_transactions` throws unless every answer is there. -/
theorem getMempoolTransactions_ok_iff :
    (∃ listed, getMempoolTransactions answers = .ok listed) ↔ answers.Complete := by
  unfold getMempoolTransactions Complete
  cases hraw : answers.rawMempool with
  | none => simp
  | some txids =>
    simp only [Option.some.injEq, exists_eq_left']
    constructor
    · intro h txid htxid
      obtain ⟨listed, hlisted⟩ := h
      obtain ⟨ret, ret', hpush⟩ := exists_step_ok hlisted htxid
      exact push_ok_iff.mp ⟨ret', hpush⟩
    · intro h
      exact foldlM_ok _ _ (fun ret txid htxid => push_ok_iff.mpr (h txid htxid)) []

end MempoolAnswers

/-! ## The handlers over a ledger -/

namespace Server

variable {L : Ledger} {s s' : Server} {tx : Transaction}

theorem fromLedger_of_member (htwo : L.Indexable) {e : Event} (huntrusted : e.trusted = false)
    (hmem : ∀ tx ∈ e.txs, L.T.lookup tx.txid = some tx) (utxosync : Bool) :
    FromLedger L utxosync e where
  member := hmem
  untrusted := huntrusted
  ingestible _ tx htx := ⟨L.hydrated (hmem tx htx), htwo (hmem tx htx)⟩

/-- The handler of a single transaction tells whether it accepted it by its rule. -/
theorem accepted_iff (hs : s.validator.Consistent L) (htx : L.T.lookup tx.txid = some tx)
    {added : Bool} (h : s.slpsyncBitcoindProcessTx tx = .ok (added, s')) :
    added = true ↔ s.validator.Accepts L tx := by
  obtain ⟨bch, -, h⟩ := bind_eq_ok.mp h
  simp only at h
  split_ifs at h with htype hknown
  · rw [Except.ok.injEq, Prod.mk.injEq] at h
    refine iff_of_false (by simp [← h.1]) fun haccepts => ?_
    exact not_slpRule_invalid htype haccepts.2
  · rw [Except.ok.injEq, Prod.mk.injEq] at h
    refine iff_of_false (by simp [← h.1]) fun haccepts => haccepts.1 ?_
    simpa [Validator.has] using hknown
  · obtain ⟨b, v, hadd, -, -, -, hflag⟩ := hs.addTx htx
    obtain ⟨⟨b', v'⟩, hadd', h⟩ := bind_eq_ok.mp h
    obtain ⟨rfl, rfl⟩ := Prod.mk.inj (Except.ok.inj (hadd.symm.trans hadd'))
    simp only at h
    rw [Validator.Accepts, ← hflag]
    split_ifs at h with hadded
    · rw [Except.ok.injEq, Prod.mk.injEq] at h
      rw [← h.1]
      simpa using hadded
    · rw [Except.ok.injEq, Prod.mk.injEq] at h
      rw [← h.1]
      simpa using hadded

/-- Only what is stored matters. -/
theorem describable_iff_offered (h : s.slpsyncBitcoindProcessTx tx = .ok (true, s')) :
    s'.validator.Describable tx ↔ (s.validator.offered tx).Describable tx := by
  obtain ⟨-, -, hmap⟩ := transactionMap_of_accepted h
  rw [Validator.Describable, Validator.Describable, hmap, Validator.offered]

theorem tickerIsText_iff_offered (h : s.slpsyncBitcoindProcessTx tx = .ok (true, s')) :
    s'.validator.TickerIsText tx ↔ (s.validator.offered tx).TickerIsText tx := by
  obtain ⟨-, -, hmap⟩ := transactionMap_of_accepted h
  rw [Validator.TickerIsText, Validator.TickerIsText, hmap, Validator.offered]

/-- What is accepted has its GENESIS and its group, unless it sends nothing. -/
theorem describable_of_accepts (hs : s.validator.Consistent L)
    (hview : s.validator.view tx.txid = some tx) (hsends : ¬ tx.SendsNothing) :
    s.validator.Describable tx := by
  rw [hs.view_eq] at hview
  obtain ⟨g, hg, hgen, hsame⟩ := hs.justified.genesis hview hsends
  rw [← hs.view_eq] at hg
  refine ⟨g, (Validator.view_eq_some.mp hg).2, hgen, fun h41 => ?_⟩
  obtain ⟨info, hinfo⟩ := SlpTransaction.type_eq_genesis.mp hgen
  have hrule := hs.rule_of_view hg
  simp only [SlpRule, hinfo] at hrule
  obtain ⟨o, p, ho, hp, -⟩ := hrule (hsame.2.trans h41)
  exact ⟨o, ho, KeyedMap.mem_iff.mpr ⟨p, (Validator.view_eq_some.mp hp).2⟩⟩

/-- The publisher needs the token and the addresses. -/
theorem publishTx_ok_iff_describable (hstored : s.validator.StoredHydrated)
    (hs : s.validator.Consistent L) (htwo : L.Indexable)
    (htx : L.T.lookup tx.txid = some tx) (networkPrefix : Bytes) :
    (∃ r, s.publishTx networkPrefix tx = .ok r) ↔
      s.validator.Describable tx ∧ s.validator.TokensAddressable tx := by
  have hinputs : ∀ input ∈ tx.inputs, ∀ prevTx,
      s.validator.transactionMap.lookup input.txid = some prevTx →
        prevTx.slp.type = .genesis ∨ prevTx.slp.type = .mint → 2 ≤ prevTx.outputs.length :=
    fun input _ prevTx hprev htype => htwo (hs.known hprev) htype
  have hgenesis : (∃ g info, s.genesisInfo tx.slp.tokenid = .ok (g, info) ∧
      (tx.slp.tokenType = 0x41 → ∃ t, s.groupid g = .ok t)) ↔ s.validator.Describable tx := by
    simp only [genesisInfo_eq_ok, groupid_ok_iff, Validator.Describable]
    refine exists_congr fun g => ?_
    simp only [SlpTransaction.type_eq_genesis, and_assoc, exists_and_left, exists_and_right]
  rw [publishTx_ok_iff hstored (L.hydrated htx) (htwo htx) networkPrefix, hgenesis]
  constructor
  · intro h
    exact ⟨h.1, h.2.2⟩
  · intro h
    exact ⟨h.1, hinputs, h.2⟩

end Server

namespace Listener

variable {L : Ledger} {config : ListenerConfig} {l l' : Listener}

/-- What the listener is in over a ledger. -/
structure Fed (L : Ledger) (l : Listener) : Prop where
  server : Server.Fed L l.server
  stored : l.server.validator.StoredHydrated

/-- What can be published can be written if the ticker is text. -/
theorem exists_dump_iff {s : Server} {networkPrefix : Bytes} {tx : Transaction}
    (hp : IsUtf8 networkPrefix) (hstored : s.validator.StoredHydrated) :
    (∃ p, s.publishTx networkPrefix tx = .ok p ∧ p.dump = .ok ()) ↔
      (∃ p, s.publishTx networkPrefix tx = .ok p) ∧ s.validator.TickerIsText tx := by
  have hdump : ∀ p, s.publishTx networkPrefix tx = .ok p →
      (p.dump = .ok () ↔ s.validator.TickerIsText tx) := by
    intro p hpublish
    have hdescribes := describes_of_publishTx hstored hpublish
    obtain ⟨g, info, hg, hinfo, hticker, -⟩ := hdescribes.genesis
    have haddresses : ∀ address ∈ p.inputs ++ p.outputs, IsUtf8 address := by
      intro address haddress
      rcases List.mem_append.mp haddress with hin | hout
      · obtain ⟨_, _, _, _, _, _, _, haddr⟩ := hdescribes.inputs address hin
        exact Scriptpubkey.isUtf8_toCashaddr hp haddr
      · obtain ⟨os, -, hos⟩ := hdescribes.outputs
        obtain ⟨o, -, haddr⟩ := mem_of_mapM_ok (mapM_eq_ok_iff.mpr hos) hout
        exact Scriptpubkey.isUtf8_toCashaddr hp haddr
    rw [PublishedTx.dump_ok_iff haddresses, hticker]
    constructor
    · intro htext g' info' hg' hinfo'
      obtain rfl := Option.some.inj (hg.symm.trans hg')
      obtain rfl := SlpTx.genesis.inj (hinfo.symm.trans hinfo')
      exact htext
    · intro htext
      exact htext g info hg hinfo
  constructor
  · intro h
    obtain ⟨p, hpublish, hok⟩ := h
    exact ⟨⟨p, hpublish⟩, (hdump p hpublish).mp hok⟩
  · intro h
    obtain ⟨⟨p, hpublish⟩, htext⟩ := h
    exact ⟨p, hpublish, (hdump p hpublish).mpr htext⟩

theorem handleTx_ok_iff (hp : IsUtf8 config.networkPrefix) (h : Fed L l) (htwo : L.Indexable)
    {data : Bytes} (hfrom : ∀ tx, hydrate data = .ok tx → L.T.lookup tx.txid = some tx) :
    (∃ l', l.handleTx config data = .ok l') ↔ l.Withstands L config (.rawtx data) := by
  unfold handleTx Withstands
  rcases Server.decoded_cases data with ⟨hnone, hnot⟩ | ⟨tx, htx, hsome⟩
  · refine iff_of_true ⟨l, by rw [hnone]; rfl⟩ fun _ tx htx => absurd htx (hnot tx)
  · have hmember := hfrom tx htx
    have hevent := Server.fromLedger_of_member (e := .rawtx tx) htwo rfl
      (fun t ht => List.mem_singleton.mp ht ▸ hmember) l.server.utxosync
    obtain ⟨s', hstep, hfed, -⟩ := h.server.step hevent
    obtain ⟨⟨added, server⟩, hprocess, heq⟩ := bind_eq_ok.mp hstep
    rw [Except.ok.injEq] at heq
    simp only at heq
    subst heq
    have hadded := Server.accepted_iff h.server.consistent hmember hprocess
    simp only [hsome, hprocess, bind, Except.bind, htx, Except.ok.injEq, forall_eq']
    by_cases hpub : added = true ∧ config.zmqpub = true
    · obtain ⟨rfl, hzmq⟩ := hpub
      have hstored := Server.storedHydrated_of_accepted hprocess h.stored (L.hydrated hmember)
      have hpublish : _ ↔ _ ∧ server.validator.TickerIsText tx := exists_dump_iff hp hstored
      rw [Server.publishTx_ok_iff_describable hstored hfed.consistent htwo hmember,
        Server.describable_iff_offered hprocess, Server.tickerIsText_iff_offered hprocess,
        Server.tokensAddressable_of_accepted hprocess] at hpublish
      have hdescribable : ¬ tx.SendsNothing →
          (l.server.validator.offered tx).Describable tx := fun hsends =>
        (Server.describable_iff_offered hprocess).mp
          (Server.describable_of_accepts hfed.consistent (view_of_accepted hprocess) hsends)
      rw [hzmq]
      simp only [hadded.mp rfl, and_self, if_true, forall_const]
      have hok : (∃ l', (server.publishTx config.networkPrefix tx >>= fun published =>
          published.dump >>= fun _ => .ok { l with
            server := server, publishedTxs := l.publishedTxs ++ [published] }) = .ok l') ↔
          ∃ p, server.publishTx config.networkPrefix tx = .ok p ∧ p.dump = .ok () := by
        simp only [bind_eq_ok]
        constructor
        · intro hrun
          obtain ⟨l', p, hpub, ⟨⟩, hdump, -⟩ := hrun
          exact ⟨p, hpub, hdump⟩
        · intro hrun
          obtain ⟨p, hpub, hdump⟩ := hrun
          exact ⟨_, p, hpub, (), hdump, rfl⟩
      refine hok.trans (hpublish.trans ?_)
      constructor
      · intro hall
        exact ⟨hall.1.2, hall.2, fun _ => hall.1.1⟩
      · intro hall
        refine ⟨⟨?_, hall.1⟩, hall.2.1⟩
        by_cases hsends : tx.SendsNothing
        · exact hall.2.2 hsends
        · exact hdescribable hsends
    · rw [if_neg hpub]
      refine iff_of_true ⟨_, rfl⟩ fun hzmq haccepts => ?_
      exact absurd ⟨hadded.mpr haccepts, hzmq⟩ hpub

theorem handleBlock_ok_iff (h : Fed L l) (htwo : L.Indexable) {data : Bytes}
    {answers : MempoolAnswers} {order : TokenOrder}
    (hfrom : ∀ tx, (Message.rawblock data answers order).Carries tx →
      L.T.lookup tx.txid = some tx) :
    (∃ l', l.handleBlock config data answers order = .ok l') ↔
      l.Withstands L config (.rawblock data answers order) := by
  constructor
  · intro hrun hdecodes
    obtain ⟨l', hrun⟩ := hrun
    rcases handleBlock_cases hrun with ⟨hnone, -⟩ |
      ⟨block, txs, s, listed, mempool, server, -, -, -, hlisted, -, -, -⟩
    · obtain ⟨block, hblock⟩ := hdecodes
      rw [decodedBlock_eq_some.mpr hblock] at hnone
      cases hnone
    · exact MempoolAnswers.getMempoolTransactions_ok_iff.mp ⟨listed, hlisted⟩
  · intro hwithstands
    unfold handleBlock
    rcases decodedBlock_cases data with ⟨hnone, -⟩ | ⟨block, hblock, hsome⟩
    · exact ⟨l, by rw [hnone]; rfl⟩
    · obtain ⟨listed, hlisted⟩ :=
        MempoolAnswers.getMempoolTransactions_ok_iff.mpr (hwithstands ⟨block, hblock⟩)
      have hblockMem : ∀ tx ∈ block.txs, L.T.lookup tx.txid = some tx := fun tx htx =>
        hfrom tx (.inl ⟨block, hblock, htx⟩)
      have hlistedMem : ∀ tx ∈ listed, L.T.lookup tx.txid = some tx := fun tx htx =>
        hfrom tx (.inr ⟨listed, hlisted, htx⟩)
      obtain ⟨txs, htxs, -, hmem, -⟩ := topologicalSort_spec block.txs (L.txidsDetermine hblockMem)
      obtain ⟨mempool, hmempool, -, hmem', -⟩ :=
        topologicalSort_spec listed (L.txidsDetermine hlistedMem)
      obtain ⟨s, hs, hfed, -⟩ := h.server.step (Server.fromLedger_of_member
        (e := .block order txs false) htwo rfl
        (fun tx htx => hblockMem tx ((hmem tx).mp htx)) l.server.utxosync)
      obtain ⟨⟨s₁, validTxs⟩, hprocess, hs₁⟩ := bind_eq_ok.mp hs
      rw [Except.ok.injEq] at hs₁
      simp only at hs₁
      subst hs₁
      obtain ⟨server, hserver, -, -⟩ := hfed.step (Server.fromLedger_of_member
        (e := .mempool order mempool) htwo rfl
        (fun tx htx => hlistedMem tx ((hmem' tx).mp htx)) s₁.utxosync)
      have hrefresh : s₁.slpsyncBitcoindProcessMempool order mempool = .ok server := hserver
      simp only [hsome, htxs, hprocess, hlisted, hmempool, hrefresh, bind, Except.bind]
      exact ⟨_, rfl⟩

theorem Fed.step (h : Fed L l) (htwo : L.Indexable) {m : Message}
    (hfrom : ∀ tx, m.Carries tx → L.T.lookup tx.txid = some tx)
    (hstep : l.step config m = .ok l') : Fed L l' := by
  refine ⟨?_, step_storedHydrated h.stored hstep⟩
  obtain ⟨events, hevents, hrun⟩ := step_events hstep
  have hledger : ∀ e ∈ events, Server.FromLedger L l.server.utxosync e := by
    intro e he
    refine Server.fromLedger_of_member htwo (events_carried hevents e he).1 ?_ _
    exact fun tx htx => hfrom tx ((events_carried hevents e he).2 tx htx)
  obtain ⟨s, hs, hfed⟩ := h.server.run hledger
  rw [hrun, Except.ok.injEq] at hs
  exact hs ▸ hfed

/-- After any start over a ledger the listener gets through a sequence of messages exactly if
it comes to none that it fails at: a block behind which the node does not answer in full; and,
if it publishes, a new valid transaction with a token output that has no address, or of a
token whose ticker is not text, or a SEND of nothing whose token it cannot describe. -/
theorem run_withstands_iff (L : Ledger) (htwo : L.Indexable) (utxosync : Bool)
    {startup : List Server.Event} {l : Listener}
    (hstart : startup.foldlM Server.step (.empty utxosync) = .ok l.server)
    (hstartup : ∀ e ∈ startup, Server.FromLedger L utxosync e)
    (hp : IsUtf8 config.networkPrefix) {messages : List Message}
    (hfrom : ∀ m ∈ messages, ∀ tx, m.Carries tx → L.T.lookup tx.txid = some tx) :
    (∃ l', messages.foldlM (Listener.step config) l = .ok l') ↔
      ∀ past m rest l₁, messages = past ++ m :: rest →
        past.foldlM (Listener.step config) l = .ok l₁ → l₁.Withstands L config m := by
  have hfed : Fed L l := by
    obtain ⟨s, hs, hfed⟩ := (Server.Fed.empty L utxosync).run hstartup
    rw [hstart, Except.ok.injEq] at hs
    refine ⟨hs ▸ hfed, Server.storedHydrated_run (fun e he tx htx => ?_) hstart⟩
    exact L.hydrated ((hstartup e he).member tx htx)
  refine foldlM_ok_iff (I := Fed L) hfed ?_ ?_
  · intro l₁ m hm l₂ h₁ hstep
    exact h₁.step htwo (hfrom m hm) hstep
  · intro l₁ m hm h₁
    cases m with
    | rawtx data => exact handleTx_ok_iff hp h₁ htwo (hfrom _ hm)
    | rawblock data answers order => exact handleBlock_ok_iff h₁ htwo (hfrom _ hm)

/-- The ledger of the two transactions. -/
def paidLedger : Ledger :=
  .ofList [Server.paidGenesis, Server.paidSend]
    (by simp [Server.paidGenesis_hydrated, Server.paidSend_hydrated]) (by decide) (by decide)
    (by decide) (by decide)

theorem run_withstands_iff_sample :
    (∃ l₁, paidMessages.foldlM (Listener.step ⟨true, Server.mainPrefix⟩)
      ⟨.empty false, 0, .zero, [], []⟩ = .ok l₁) ∧
    ∀ past m rest l₁, paidMessages = past ++ m :: rest →
      past.foldlM (Listener.step ⟨true, Server.mainPrefix⟩) ⟨.empty false, 0, .zero, [], []⟩ =
        .ok l₁ → l₁.Withstands paidLedger ⟨true, Server.mainPrefix⟩ m := by
  have hlookup : ∀ {x : Txid} {t : Transaction}, paidLedger.T.lookup x = some t ↔
      t ∈ [Server.paidGenesis, Server.paidSend] ∧ t.txid = x :=
    Ledger.lookup_ofList_txid (by decide)
  have htwo : paidLedger.Indexable := by
    intro x t ht _
    have hall : ∀ u ∈ [Server.paidGenesis, Server.paidSend], 2 ≤ u.outputs.length := by decide
    exact hall t (hlookup.mp ht).1
  have hcarried : ∀ u ∈ [Server.paidGenesis, Server.paidSend], ∀ tx,
      hydrate u.serialized = .ok tx → paidLedger.T.lookup tx.txid = some tx := by
    intro u hu tx htx
    have hhyd : u.Hydrated := by
      rcases List.mem_pair.mp hu with rfl | rfl
      · exact Server.paidGenesis_hydrated
      · exact Server.paidSend_hydrated
    have hsame := (Server.decoded_eq_some.mpr htx).symm.trans (Server.decoded_serialized hhyd)
    rw [Except.ok.injEq, Option.some.injEq] at hsame
    rw [hsame]
    exact hlookup.mpr ⟨hu, rfl⟩
  have hstart : ([] : List Server.Event).foldlM Server.step (.empty false) =
      .ok (Listener.server ⟨.empty false, 0, .zero, [], []⟩) := rfl
  have hrun : ∃ l₁, paidMessages.foldlM (Listener.step ⟨true, Server.mainPrefix⟩)
      ⟨.empty false, 0, .zero, [], []⟩ = .ok l₁ ∧ True := by decide +kernel
  obtain ⟨l₁, hl₁, -⟩ := hrun
  refine ⟨⟨l₁, hl₁⟩, (run_withstands_iff paidLedger htwo false hstart ?_ ?_ ?_).mp ⟨l₁, hl₁⟩⟩
  · exact fun e he => absurd he List.not_mem_nil
  · decide +kernel
  · intro m hm tx hcarries
    rcases List.mem_pair.mp hm with rfl | rfl
    · exact hcarried _ (by simp) tx hcarries
    · exact hcarried _ (by simp) tx hcarries

end Listener
end SlpGraphSearch
