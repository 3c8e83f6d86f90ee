import SlpGraphSearch.Balances
import SlpGraphSearch.QueryAgreement

/-!
# Queries about tokens

The address queries and `SlpTokenInfo` look up the GENESIS of a token by the token id
that a transaction carries, and read its record without a test. They always find the
transaction of a listed output, since `bch` and the validator are fed together; but that
transaction names its token freely, and the validator stores it in any case. So a query
answers exactly if the tokens it meets have a stored GENESIS. `SlpTokenInfo` tests only
that the id is stored, so it fails for every stored MINT and SEND.
-/
namespace SlpGraphSearch
open Library Transaction

/-- The group of a token is the token of the first input of its GENESIS. -/
structure SlpTokenInfoReply where
  name : Bytes
  ticker : Bytes
  tokenid : Txid
  initialamount : UInt64
  decimals : UInt32
  documenthash : Bytes
  documenturl : Bytes
  type : UInt16
  groupid : Option Tokenid

namespace Server

/-- `transaction_map.at(genesis_tx.inputs[0].txid)`, and the token of what is there. -/
def groupid (s : Server) (genesisTx : Transaction) : Except Failure Tokenid :=
  match genesisTx.inputs with
  | [] => .error .outOfBounds
  | o :: _ => do .ok (← s.validator.get o.txid).slp.tokenid

/-- `SlpTokenInfo` on a parsed id. Without a reply the status is `NOT_FOUND`. -/
def slpTokenInfo (s : Server) (tokenid : Tokenid) : Except Failure (Option SlpTokenInfoReply) :=
  if ¬ s.validator.has tokenid then .ok none
  else do
    let (genesisTx, info) ← s.genesisInfo tokenid
    let groupid ← (if genesisTx.slp.tokenType = 0x41 then some <$> s.groupid genesisTx
      else .ok none)
    .ok (some {
      name := info.name
      ticker := info.ticker
      tokenid := genesisTx.txid
      initialamount := info.qty
      decimals := info.decimals
      documenthash := info.documentHash
      documenturl := info.documentUri
      type := genesisTx.slp.tokenType
      groupid := groupid })

/-! ## The property and the conditions -/

/-- The four handlers complete. -/
structure Answers (s : Server) (order : KeyedOrder Output.outpoint)
    (balanceOrder : HashOrder (Tokenid × UInt64)) (script : Scriptpubkey) (tokenid : Tokenid) :
    Prop where
  utxos : ∃ us, s.slpUtxos order script = .ok us
  balance : ∃ r, s.slpTokenBalance order script tokenid = .ok r
  allBalances : ∃ rs, s.slpAllTokenBalances order balanceOrder script = .ok rs
  info : ∃ r, s.slpTokenInfo tokenid = .ok r

/-- The GENESIS of the token is stored. -/
def KnowsToken (s : Server) (tokenid : Tokenid) : Prop :=
  ∃ g, s.validator.transactionMap.lookup tokenid = some g ∧ g.slp.type = .genesis

/-- Every output of the address belongs to a known token. -/
def KnowsTokens (s : Server) (order : KeyedOrder Output.outpoint) (script : Scriptpubkey) : Prop :=
  ∀ o ∈ s.addressOutputs order script, ∀ tx,
    s.validator.transactionMap.lookup o.prevTxId = some tx → s.KnowsToken tx.slp.tokenid

/-- A GENESIS that, as the child of a group, has a first input among `known`. -/
def GroupedGenesis (known : Set Txid) (tx : Transaction) : Prop :=
  tx.slp.type = .genesis ∧ (tx.slp.tokenType = 0x41 → ∃ o ∈ tx.inputs.head?, o.txid ∈ known)

/-- Whatever is stored under the id is such a GENESIS. -/
def KnowsInfo (s : Server) (tokenid : Tokenid) : Prop :=
  ∀ tx, s.validator.transactionMap.lookup tokenid = some tx →
    GroupedGenesis {x | x ∈ s.validator.transactionMap} tx

/-- The step stores nothing but GENESIS transactions whose groups are stored by then. -/
def StoresGenesis (s : Server) (e : Event) : Prop :=
  ∀ tx ∈ e.txs, tx.slp.type ≠ .invalid → tx.txid ∉ s.validator.transactionMap →
    GroupedGenesis {x | x ∈ s.validator.transactionMap ∨
      ∃ t ∈ e.txs, t.txid = x ∧ t.slp.type ≠ .invalid} tx

variable {s s' : Server}

/-! ## Looking up a GENESIS -/

theorem get_eq_ok {v : Validator} {x : Txid} {tx : Transaction} :
    v.get x = .ok tx ↔ v.transactionMap.lookup x = some tx := by
  unfold Validator.get
  cases v.transactionMap.lookup x <;> simp

theorem genesisInfo_eq_ok {tokenid : Tokenid} {g : Transaction} {info : SlpTransactionGenesis} :
    s.genesisInfo tokenid = .ok (g, info) ↔
      s.validator.transactionMap.lookup tokenid = some g ∧ g.slp.slpTx = .genesis info := by
  simp only [genesisInfo, bind_eq_ok, get_eq_ok]
  constructor
  · rintro ⟨tx, htx, h⟩
    split at h
    · rename_i info' hinfo
      obtain ⟨rfl, rfl⟩ := Prod.mk.inj (Except.ok.inj h)
      exact ⟨htx, hinfo⟩
    · simp at h
  · rintro ⟨hg, hinfo⟩
    exact ⟨g, hg, by rw [hinfo]⟩

theorem genesisInfo_ok_iff {tokenid : Tokenid} :
    (∃ r, s.genesisInfo tokenid = .ok r) ↔ s.KnowsToken tokenid := by
  constructor
  · rintro ⟨⟨g, info⟩, h⟩
    obtain ⟨hg, hinfo⟩ := genesisInfo_eq_ok.mp h
    exact ⟨g, hg, SlpTransaction.type_eq_genesis.mpr ⟨info, hinfo⟩⟩
  · rintro ⟨g, hg, hty⟩
    obtain ⟨info, hinfo⟩ := SlpTransaction.type_eq_genesis.mp hty
    exact ⟨(g, info), genesisInfo_eq_ok.mpr ⟨hg, hinfo⟩⟩

theorem balanceReply_ok {tokenid : Tokenid} (h : s.KnowsToken tokenid) (balance : UInt64) :
    ∃ r, s.balanceReply tokenid balance = .ok r := by
  obtain ⟨r, hr⟩ := genesisInfo_ok_iff.mpr h
  exact ⟨_, by rw [balanceReply, hr]; rfl⟩

theorem groupid_ok_iff {g : Transaction} : (∃ t, s.groupid g = .ok t) ↔
    ∃ o ∈ g.inputs.head?, o.txid ∈ s.validator.transactionMap := by
  unfold groupid
  cases g.inputs with
  | nil => simp
  | cons o os =>
      simp only [bind_eq_ok, get_eq_ok, List.head?_cons, Option.mem_some_iff, exists_eq_left']
      rw [KeyedMap.mem_iff]
      constructor
      · rintro ⟨t, tx, htx, -⟩
        exact ⟨tx, htx⟩
      · rintro ⟨tx, htx⟩
        exact ⟨tx.slp.tokenid, tx, htx, rfl⟩

/-- Only child tokens have a group to look up. -/
theorem optionalGroupid_ok_iff {g : Transaction} {tokenType : UInt16} :
    (∃ group, (if tokenType = 0x41 then some <$> s.groupid g else .ok none) = .ok group) ↔
      (tokenType = 0x41 → ∃ t, s.groupid g = .ok t) := by
  by_cases h41 : tokenType = 0x41
  · simp only [h41, if_true, forall_const]
    cases s.groupid g with
    | error e => simp [Functor.map, Except.map]
    | ok t => exact iff_of_true ⟨some t, rfl⟩ ⟨t, rfl⟩
  · simp only [h41, if_false, false_implies, iff_true]
    exact ⟨none, rfl⟩

theorem slpTokenInfo_ok_iff {tokenid : Tokenid} :
    (∃ r, s.slpTokenInfo tokenid = .ok r) ↔ s.KnowsInfo tokenid := by
  unfold slpTokenInfo KnowsInfo
  cases hlook : s.validator.transactionMap.lookup tokenid with
  | none => simp [Validator.has_of_lookup_none hlook]
  | some tx =>
      rw [if_neg (by simp [Validator.has_of_lookup hlook])]
      simp only [bind_eq_ok, Option.some.injEq, forall_eq', GroupedGenesis]
      constructor
      · intro h
        obtain ⟨r, ⟨g, info⟩, hg, group, hgroup, -⟩ := h
        obtain ⟨hg, hinfo⟩ := genesisInfo_eq_ok.mp hg
        obtain rfl := Option.some.inj (hlook.symm.trans hg)
        refine ⟨SlpTransaction.type_eq_genesis.mpr ⟨info, hinfo⟩, ?_⟩
        intro h41
        exact groupid_ok_iff.mp (optionalGroupid_ok_iff.mp ⟨group, hgroup⟩ h41)
      · intro h
        obtain ⟨hty, hgrouped⟩ := h
        obtain ⟨info, hinfo⟩ := SlpTransaction.type_eq_genesis.mp hty
        obtain ⟨group, hgroup⟩ := optionalGroupid_ok_iff.mpr fun h41 =>
          groupid_ok_iff.mpr (hgrouped h41)
        exact ⟨_, (tx, info), genesisInfo_eq_ok.mpr ⟨hlook, hinfo⟩, group, hgroup, rfl⟩

/-! ## Walking the outputs of an address -/

/-- The transactions behind the outputs are stored, with these outputs. -/
def Located (s : Server) (utxos : List Output) : Prop :=
  ∀ o ∈ utxos, ∃ tx, s.validator.transactionMap.lookup o.prevTxId = some tx ∧
    tx.outputs[o.prevOutIdx.toNat]? = some o

theorem slpUtxo_ok_iff {o : Output} {tx : Transaction}
    (htx : s.validator.transactionMap.lookup o.prevTxId = some tx)
    (ho : tx.outputs[o.prevOutIdx.toNat]? = some o) :
    (∃ u, s.slpUtxo o = .ok u) ↔ s.KnowsToken tx.slp.tokenid := by
  simp only [← genesisInfo_ok_iff, slpUtxo, bind_eq_ok, get_eq_ok, htx, Option.some.injEq,
    exists_eq_left', ho]
  constructor
  · rintro ⟨u, r, hr, -⟩
    exact ⟨r, hr⟩
  · rintro ⟨r, hr⟩
    exact ⟨_, r, hr, rfl⟩

theorem slpUtxos_ok_iff {order : KeyedOrder Output.outpoint} {script : Scriptpubkey}
    (h : s.Located (s.addressOutputs order script)) :
    (∃ us, s.slpUtxos order script = .ok us) ↔ s.KnowsTokens order script := by
  apply mapM_ok_iff.trans
  apply forall₂_congr
  intro o ho
  obtain ⟨tx, htx, hout⟩ := h o ho
  simp only [slpUtxo_ok_iff htx hout, htx, Option.some.injEq, forall_eq']

/-- A balance other than zero comes from an output of the token. -/
theorem exists_of_tokenAmount_sum_ne_zero {tokenid : Tokenid} {utxos : List Output}
    (h : (utxos.map (s.tokenAmount tokenid)).sum ≠ 0) : ∃ o ∈ utxos, ∃ tx,
      s.validator.transactionMap.lookup o.prevTxId = some tx ∧ tx.slp.tokenid = tokenid := by
  have hne : ∃ n ∈ utxos.map (s.tokenAmount tokenid), n ≠ 0 := by
    by_contra hall
    push Not at hall
    exact h (List.sum_eq_zero hall)
  obtain ⟨n, hn, hzero⟩ := hne
  obtain ⟨o, ho, rfl⟩ := List.mem_map.mp hn
  refine ⟨o, ho, ?_⟩
  unfold tokenAmount at hzero
  split at hzero
  · exact absurd rfl hzero
  · rename_i tx htx
    split_ifs at hzero with ht
    · exact ⟨tx, get_eq_ok.mp htx, ht⟩
    · exact absurd rfl hzero

theorem slpTokenBalance_ok {order : KeyedOrder Output.outpoint} {script : Scriptpubkey}
    (h : s.Located (s.addressOutputs order script)) (hknows : s.KnowsTokens order script)
    (tokenid : Tokenid) : ∃ r, s.slpTokenBalance order script tokenid = .ok r := by
  have hfold : ∀ (utxos : List Output) (start : UInt64), s.Located utxos →
      ∃ balance, utxos.foldlM (s.addTokenBalance tokenid) start = .ok balance := by
    intro utxos start hutxos
    refine foldlM_ok _ utxos (fun balance o ho => ?_) start
    obtain ⟨tx, htx, -⟩ := hutxos o ho
    unfold addTokenBalance
    rw [get_eq_ok.mpr htx]
    exact ⟨if tx.slp.tokenid ≠ tokenid then balance else _, (apply_ite _ _ _ _).symm⟩
  obtain ⟨balance, hbalance⟩ := hfold _ 0 h
  simp only [slpTokenBalance, bind_eq_ok, hbalance, Except.ok.injEq, exists_eq_left']
  split_ifs with hzero
  · exact ⟨_, rfl⟩
  · have hsum := foldlM_addTokenBalance hbalance
    rw [zero_add] at hsum
    obtain ⟨o, ho, tx, htx, rfl⟩ := exists_of_tokenAmount_sum_ne_zero (hsum ▸ hzero)
    exact balanceReply_ok (hknows o ho tx htx) balance

/-- The entries of the balances are the tokens of the outputs. -/
theorem keys_foldlM_addAllBalances {utxos : List Output} {start balances : List (Tokenid × UInt64)}
    (h : utxos.foldlM s.addAllBalances start = .ok balances) {t : Tokenid} :
    t ∈ balances.map Prod.fst ↔ t ∈ start.map Prod.fst ∨ ∃ o ∈ utxos, ∃ tx,
      s.validator.transactionMap.lookup o.prevTxId = some tx ∧ tx.slp.tokenid = t := by
  induction utxos generalizing start with
  | nil =>
      rw [List.foldlM_nil] at h
      rw [Except.ok.inj h]
      simp
  | cons o utxos ih =>
      simp only [List.foldlM_cons, addAllBalances, bind_eq_ok, get_eq_ok] at h
      obtain ⟨next, ⟨tx, htx, hnext⟩, h⟩ := h
      obtain rfl := Except.ok.inj hnext
      simp only [ih h, mem_keys_addToBalance, List.mem_cons, exists_eq_or_imp, htx,
        Option.some.injEq, exists_eq_left', or_assoc, eq_comm (a := t)]

theorem slpAllTokenBalances_ok {order : KeyedOrder Output.outpoint} {script : Scriptpubkey}
    (h : s.Located (s.addressOutputs order script)) (hknows : s.KnowsTokens order script)
    (balanceOrder : HashOrder (Tokenid × UInt64)) :
    ∃ rs, s.slpAllTokenBalances order balanceOrder script = .ok rs := by
  have hfold : ∃ balances, (s.addressOutputs order script).foldlM s.addAllBalances [] =
      .ok balances := by
    refine foldlM_ok _ _ (fun balances o ho => ?_) []
    obtain ⟨tx, htx, -⟩ := h o ho
    unfold addAllBalances
    rw [get_eq_ok.mpr htx]
    exact ⟨_, rfl⟩
  obtain ⟨balances, hbalances⟩ := hfold
  simp only [slpAllTokenBalances, bind_eq_ok, hbalances, Except.ok.injEq, exists_eq_left']
  refine mapM_ok fun entry hentry => balanceReply_ok ?_ entry.2
  have hkey : entry.1 ∈ balances.map Prod.fst := List.mem_map_of_mem (balanceOrder.mem.mp hentry)
  rcases (keys_foldlM_addAllBalances hbalances).mp hkey with hnil | ⟨o, ho, tx, htx, ht⟩
  · exact absurd hnil List.not_mem_nil
  · exact ht ▸ hknows o ho tx htx

/-- One query of each kind, where the transactions of the outputs are stored. -/
theorem answers_iff {order : KeyedOrder Output.outpoint}
    {balanceOrder : HashOrder (Tokenid × UInt64)} {script : Scriptpubkey} {tokenid : Tokenid}
    (h : s.Located (s.addressOutputs order script)) :
    s.Answers order balanceOrder script tokenid ↔
      s.KnowsTokens order script ∧ s.KnowsInfo tokenid := by
  constructor
  · intro ha
    exact ⟨(slpUtxos_ok_iff h).mp ha.utxos, slpTokenInfo_ok_iff.mp ha.info⟩
  · rintro ⟨hknows, hinfo⟩
    exact ⟨(slpUtxos_ok_iff h).mpr hknows, slpTokenBalance_ok h hknows tokenid,
      slpAllTokenBalances_ok h hknows balanceOrder, slpTokenInfo_ok_iff.mpr hinfo⟩

/-! ## Runs -/

/-- The `bch` events of a call that accepts the transactions `l`. -/
def bchEvents (e : Event) (l : List Transaction) : List BchEvent :=
  match e with
  | .block _ txs _ => [.block txs true]
  | .mempool order _ => ((order.permute (groupByToken l)).flatMap Prod.snd).map .mempoolTx
  | .rawtx tx => [.mempoolTx tx]

theorem bchStep_eq (hu : s.utxosync = true) (e : Event) (l : List Transaction) :
    s.bchStep e l = (bchEvents e l).foldlM Bch.step s.bch := by
  unfold bchStep
  rw [if_pos hu]
  cases e with
  | block order txs trusted => simp [bchEvents, Bch.step]
  | mempool order txs => rw [bchEvents, List.foldlM_map]; rfl
  | rawtx tx => simp [bchEvents, Bch.step]

/-- `bch` sees no transactions but those of the call. -/
theorem bchEvents_txs {e : Event} {l : List Transaction} (hl : ∀ tx ∈ l, tx ∈ e.txs)
    {be : BchEvent} (hbe : be ∈ bchEvents e l) {tx : Transaction} (htx : tx ∈ be.txs) :
    tx ∈ e.txs := by
  cases e with
  | block order txs trusted =>
      obtain rfl := List.mem_singleton.mp hbe
      exact htx
  | mempool order txs =>
      obtain ⟨u, hu, rfl⟩ := List.mem_map.mp hbe
      obtain rfl := List.mem_singleton.mp htx
      obtain ⟨entry, hentry, hu⟩ := List.mem_flatMap.mp hu
      exact hl tx ((mem_validTxs order l entry.1 tx).mp ⟨entry, hentry, rfl, hu⟩).1
  | rawtx u =>
      obtain rfl := List.mem_singleton.mp hbe
      exact htx

/-- The store shows outputs of stored transactions. -/
structure Traced (past : List Event) (s : Server) : Prop where
  utxosync : s.utxosync = true
  stored : Stored past s
  view : ∃ v, s.bch.utxodb.Shows v ∧ ∀ o ∈ v.outputs, ∃ tx ∈ past.flatMap Event.txs,
    s.validator.transactionMap.lookup tx.txid = some tx ∧ o ∈ spendable tx

/-- What is stored under an id of the events is the transaction of that id. -/
theorem Stored.eq_of_lookup {past : List Event} (h : Stored past s) {all : List Transaction}
    (hdet : TxidsDetermine all) (hpast : past.flatMap Event.txs ⊆ all) {x : Txid}
    {t tx : Transaction} (ht : s.validator.transactionMap.lookup x = some t) (htx : tx ∈ all)
    (hx : tx.txid = x) : t = tx :=
  hdet t (hpast (h.source ht).1) tx htx ((KeyedMap.key_lookup ht).trans hx.symm)

/-- A transaction that is stored and known to the events is stored as such. -/
theorem Stored.lookup_of_mem {past : List Event} (h : Stored past s) {all : List Transaction}
    (hdet : TxidsDetermine all) (hpast : past.flatMap Event.txs ⊆ all) {tx : Transaction}
    (htx : tx ∈ all) (hmem : tx.txid ∈ s.validator.transactionMap) :
    s.validator.transactionMap.lookup tx.txid = some tx := by
  obtain ⟨t, ht⟩ := KeyedMap.mem_iff.mp hmem
  rw [ht, h.eq_of_lookup hdet hpast ht htx rfl]

variable {all : List Transaction}

theorem Traced.step {past : List Event} {e : Event} (h : Traced past s)
    (hhyd : ∀ tx ∈ all, tx.Hydrated) (hdet : TxidsDetermine all)
    (hall : (past ++ [e]).flatMap Event.txs ⊆ all) (hstored : Stored (past ++ [e]) s')
    (hstep : s.step e = .ok s') : Traced (past ++ [e]) s' := by
  obtain ⟨v, l, bch, hoffer, hbch, rfl⟩ := step_eq_ok.mp hstep
  have hj := judged_offerTxs hoffer
  rw [bchStep_eq h.utxosync] at hbch
  rw [List.flatMap_append, List.flatMap_singleton] at hall
  obtain ⟨w, hw, hbacked⟩ := h.view
  have hevents : ∀ be ∈ bchEvents e l, ∀ tx ∈ be.txs, tx ∈ e.txs := fun be hbe tx htx =>
    bchEvents_txs (fun t ht => (hj.accepted t ht).1) hbe htx
  have hrun := hw.of_run hhyd hdet
    (fun be hbe tx htx => hall (List.mem_append_right _ (hevents be hbe tx htx)))
    (fun o ho => ?_) hbch
  · refine ⟨h.utxosync, hstored, _, hrun.1, fun o ho => ?_⟩
    have hfind : ∀ tx ∈ (past ++ [e]).flatMap Event.txs, o ∈ spendable tx →
        tx.txid ∈ v.transactionMap → ∃ tx ∈ (past ++ [e]).flatMap Event.txs,
          v.transactionMap.lookup tx.txid = some tx ∧ o ∈ spendable tx := by
      intro tx htx ho hmem
      rw [List.flatMap_append, List.flatMap_singleton] at htx
      refine ⟨tx, by rwa [List.flatMap_append, List.flatMap_singleton], ?_, ho⟩
      exact hstored.lookup_of_mem hdet (by rwa [List.flatMap_append, List.flatMap_singleton])
        (hall htx) hmem
    rcases Utxodb.run_spendable ho with hold | ⟨be, hbe, tx, htx, hnew⟩
    · obtain ⟨tx, htx, hlook, hsp⟩ := hbacked o hold
      refine hfind tx (by simp [List.flatMap_append, htx]) hsp ?_
      exact (hj.known_iff _).mpr (.inl (KeyedMap.mem_iff.mpr ⟨tx, hlook⟩))
    · have htxe := hevents be hbe tx htx
      refine hfind tx (by simp [List.flatMap_append, htxe]) hnew ?_
      exact (hj.known_iff _).mpr (.inr ⟨tx, htxe, rfl, type_ne_invalid_of_spendable hnew⟩)
  · obtain ⟨tx, htx, -, hsp⟩ := hbacked o ho
    exact ⟨tx, hall (List.mem_append_left _ htx), mem_spendable hsp⟩

theorem traced_always {events : List Event} (hhyd : ∀ e ∈ events, ∀ tx ∈ e.txs, tx.Hydrated)
    (hdet : TxidsDetermine (events.flatMap Event.txs)) :
    Always Server.step Traced (.empty true) events := by
  have hstored := stored_always true events
  have hempty : Traced [] (.empty true) :=
    ⟨rfl, hstored [] events rfl _ rfl, .empty, .empty, by simp [UtxoView.outputs, UtxoView.empty]⟩
  refine Always.of_step hempty fun past e rest s₁ s₂ hev h hs₁ hstep => ?_
  have hev' : events = (past ++ [e]) ++ rest := by rw [hev, List.append_assoc]; rfl
  refine h.step (fun tx htx => ?_) hdet ?_
    (hstored _ rest hev' s₂ (foldlM_concat.mpr ⟨s₁, hs₁, hstep⟩)) hstep
  · obtain ⟨e', he', htx⟩ := List.mem_flatMap.mp htx
    exact hhyd e' he' tx htx
  · intro tx htx
    rw [hev', List.flatMap_append]
    exact List.mem_append_left _ htx

/-- The transactions of all outputs that a query walks are stored. -/
theorem Traced.located {past : List Event} (h : Traced past s)
    (hhyd : ∀ tx ∈ past.flatMap Event.txs, tx.Hydrated) (order : KeyedOrder Output.outpoint)
    (script : Scriptpubkey) : s.Located (s.addressOutputs order script) := by
  intro o ho
  obtain ⟨v, hv, hbacked⟩ := h.view
  obtain ⟨tx, htx, hlook, hsp⟩ :=
    hbacked o (hv.countedOutputs_subset (Utxodb.countedOutputs_of_mem ho))
  have hid : o.prevTxId = tx.txid := outpoint_txid_of_spendable (hhyd tx htx) hsp
  exact ⟨tx, hid ▸ hlook, (hhyd tx htx).getElem?_prevOutIdx (mem_spendable hsp)⟩

/-- Where every stored transaction is a GENESIS, every token is known. -/
theorem Stored.knowsTokens {past : List Event} (h : Stored past s)
    (hhyd : ∀ tx ∈ past.flatMap Event.txs, tx.Hydrated) (hinfo : ∀ tokenid, s.KnowsInfo tokenid)
    (order : KeyedOrder Output.outpoint) (script : Scriptpubkey) :
    s.KnowsTokens order script := by
  intro o _ tx htx
  have hty := (hinfo _ tx htx).1
  rw [(hhyd tx (h.source htx).1).genesis_tokenid hty, KeyedMap.key_lookup htx]
  exact ⟨tx, htx, hty⟩

/-- One step keeps the information on all tokens exactly under the condition. -/
theorem Stored.knowsInfo_step {past : List Event} {e : Event} (h : Stored past s)
    (h' : Stored (past ++ [e]) s') (hdet : TxidsDetermine ((past ++ [e]).flatMap Event.txs))
    (hinfo : ∀ tokenid, s.KnowsInfo tokenid) (hstep : s.step e = .ok s') :
    (∀ tokenid, s'.KnowsInfo tokenid) ↔ s.StoresGenesis e := by
  obtain ⟨v, l, bch, hoffer, -, rfl⟩ := step_eq_ok.mp hstep
  have hj := judged_offerTxs hoffer
  have hknown : {x | x ∈ v.transactionMap} = {x | x ∈ s.validator.transactionMap ∨
      ∃ t ∈ e.txs, t.txid = x ∧ t.slp.type ≠ .invalid} := Set.ext fun x => hj.known_iff x
  have hevent : ∀ tx ∈ e.txs, tx ∈ (past ++ [e]).flatMap Event.txs := fun tx htx => by
    simp [List.flatMap_append, htx]
  have hpast : past.flatMap Event.txs ⊆ (past ++ [e]).flatMap Event.txs := fun tx htx => by
    rw [List.flatMap_append]
    exact List.mem_append_left _ htx
  constructor
  · intro hnext tx htx hty _
    have hmem : tx.txid ∈ v.transactionMap := (hj.known_iff _).mpr (.inr ⟨tx, htx, rfl, hty⟩)
    exact hknown ▸ hnext tx.txid tx
      (h'.lookup_of_mem hdet (List.Subset.refl _) (hevent tx htx) hmem)
  · intro hC tokenid tx htx
    show GroupedGenesis {x | x ∈ v.transactionMap} tx
    by_cases hold : tokenid ∈ s.validator.transactionMap
    · obtain ⟨t, ht⟩ := KeyedMap.mem_iff.mp hold
      obtain rfl := h'.eq_of_lookup hdet (List.Subset.refl _) htx (hpast (h.source ht).1)
        (KeyedMap.key_lookup ht)
      obtain ⟨hty, hgrouped⟩ := hinfo tokenid tx ht
      refine ⟨hty, fun h41 => ?_⟩
      obtain ⟨o, ho, hmem⟩ := hgrouped h41
      exact ⟨o, ho, (hj.known_iff _).mpr (.inl hmem)⟩
    · rcases stored_foldlM_offerTx hoffer htx with ht | ⟨hmem, hty⟩
      · exact absurd (KeyedMap.mem_iff.mpr ⟨tx, ht⟩) hold
      · rw [hknown]
        exact hC tx hmem hty (KeyedMap.key_lookup htx ▸ hold)

/-- With `utxosync`, all queries complete in every state of a run exactly if every step
stores only GENESIS transactions whose groups are stored by then. In every state that is
reached a query completes exactly if the tokens it meets are known. -/
theorem run_answers_iff {events : List Event} (hhyd : ∀ e ∈ events, ∀ tx ∈ e.txs, tx.Hydrated)
    (hdet : TxidsDetermine (events.flatMap Event.txs)) :
    (Always Server.step (fun _ s => ∀ order balanceOrder script tokenid,
        s.Answers order balanceOrder script tokenid) (.empty true) events ↔
      EveryStep Server.step (fun _ => StoresGenesis) (.empty true) events) ∧
    Always Server.step (fun _ s => ∀ order balanceOrder script tokenid,
        s.Answers order balanceOrder script tokenid ↔
          s.KnowsTokens order script ∧ s.KnowsInfo tokenid) (.empty true) events := by
  have hstored := stored_always true events
  have hpast : ∀ past rest, events = past ++ rest →
      ∀ tx ∈ past.flatMap Event.txs, tx.Hydrated := by
    intro past rest hev tx htx
    obtain ⟨e, he, htx⟩ := List.mem_flatMap.mp htx
    exact hhyd e (hev ▸ List.mem_append_left _ he) tx htx
  have hquery : Always Server.step (fun _ s => ∀ order balanceOrder script tokenid,
      s.Answers order balanceOrder script tokenid ↔
        s.KnowsTokens order script ∧ s.KnowsInfo tokenid) (.empty true) events :=
    fun past rest hev s hs order _ script _ =>
      answers_iff ((traced_always hhyd hdet past rest hev s hs).located (hpast past rest hev)
        order script)
  have hall : ∀ past rest, events = past ++ rest → ∀ s, past.foldlM step (.empty true) = .ok s →
      ((∀ order balanceOrder script tokenid, s.Answers order balanceOrder script tokenid) ↔
        ∀ tokenid, s.KnowsInfo tokenid) := by
    intro past rest hev s hs
    constructor
    · intro h tokenid
      exact ((hquery past rest hev s hs (.some _) (.insertion _) [] tokenid).mp (h _ _ _ _)).2
    · intro hinfo order balanceOrder script tokenid
      exact (hquery past rest hev s hs order balanceOrder script tokenid).mpr
        ⟨(hstored past rest hev s hs).knowsTokens (hpast past rest hev) hinfo order script,
          hinfo tokenid⟩
  refine ⟨always_iff_everyStep ?_ fun past e rest s₁ s₂ hev hP hs₁ hs₂ => ?_, hquery⟩
  · refine (hall [] events rfl _ rfl).mpr fun tokenid tx htx => ?_
    simp [Server.empty, Validator.empty] at htx
  · have hev' : events = (past ++ [e]) ++ rest := by rw [hev, List.append_assoc]; rfl
    have hrun := foldlM_concat.mpr ⟨s₁, hs₁, hs₂⟩
    rw [hall _ rest hev' s₂ hrun]
    refine (hstored past _ hev s₁ hs₁).knowsInfo_step (hstored _ rest hev' s₂ hrun)
      (hdet.mono fun t ht => ?_) ((hall past _ hev s₁ hs₁).mp hP) hs₂
    rw [hev', List.flatMap_append]
    exact List.mem_append_left _ ht

/-- A token, a group with a child token, and a burn. -/
def genesisEvents : List Event :=
  [.block (.insertion _) [sampleGenesis] false,
    .block (.insertion _) [sampleGroup, sampleChild] false,
    .block (.insertion _) [sampleBurn] false]

/-- A GENESIS, a MINT that spends its baton and a SEND that spends its quantity. -/
def spendingEvents : List Event :=
  [.block (.insertion _) [sampleGenesis] false, .block (.insertion _) [sampleMint] false,
    .block (.insertion _) [sampleSend] false]

theorem spendingEvents_hydrated : ∀ e ∈ spendingEvents, ∀ tx ∈ e.txs, tx.Hydrated := by
  simp [spendingEvents, Event.txs, sampleGenesis_hydrated, sampleMint_hydrated,
    sampleSend_hydrated]

theorem spendingEvents_txidsDetermine : TxidsDetermine (spendingEvents.flatMap Event.txs) :=
  .of_nodup (by decide)

/-- All transactions of the run belong to the token. -/
theorem spendingEvents_knowsToken (hs : spendingEvents.foldlM Server.step (.empty true) = .ok s)
    {x : Txid} {tx : Transaction} (htx : s.validator.transactionMap.lookup x = some tx) :
    s.KnowsToken tx.slp.tokenid := by
  have hrun : ∃ s, spendingEvents.foldlM Server.step (.empty true) = .ok s ∧
      s.validator.transactionMap.lookup sampleGenesis.txid = some sampleGenesis := by
    decide +kernel
  obtain ⟨s', hs', hlookup⟩ := hrun
  rw [hs, Except.ok.injEq] at hs'
  subst hs'
  have hsource := ((stored_always true spendingEvents spendingEvents [] (List.append_nil _).symm s
    hs).source htx).1
  have htoken : ∀ tx ∈ spendingEvents.flatMap Event.txs, tx.slp.tokenid = sampleGenesis.txid := by
    decide
  exact ⟨sampleGenesis, htoken tx hsource ▸ hlookup, rfl⟩

/-- Only GENESIS transactions are stored in the first run. After the second one the queries
answer for its token, and they fail for the id of its MINT. -/
theorem run_answers_sample :
    Always Server.step (fun _ s => ∀ order balanceOrder script tokenid,
        s.Answers order balanceOrder script tokenid) (.empty true) genesisEvents ∧
    ∃ s, spendingEvents.foldlM Server.step (.empty true) = .ok s ∧
      s.Answers (.some _) (.insertion _) [0x51] sampleGenesis.txid ∧
      ¬ s.Answers (.some _) (.insertion _) [0x51] sampleMint.txid := by
  constructor
  · have hhyd : ∀ e ∈ genesisEvents, ∀ tx ∈ e.txs, tx.Hydrated := by
      simp [genesisEvents, Event.txs, sampleGenesis_hydrated, sampleGroup_hydrated,
        sampleChild_hydrated, sampleBurn_hydrated]
    have hdet : TxidsDetermine (genesisEvents.flatMap Event.txs) :=
      .of_nodup (by decide)
    refine (run_answers_iff hhyd hdet).1.mpr fun past e rest hev s _ _ _ tx htx hty _ => ?_
    have hgenesis : ∀ e ∈ genesisEvents, ∀ tx ∈ e.txs, tx.slp.type ≠ .invalid →
        tx.slp.type = .genesis ∧ (tx.slp.tokenType = 0x41 → ∃ o ∈ tx.inputs.head?,
          ∃ t ∈ e.txs, t.txid = o.txid ∧ t.slp.type ≠ .invalid) := by
      decide
    refine (hgenesis e (by simp [hev]) tx htx hty).imp_right fun hgroup h41 => ?_
    obtain ⟨o, ho, ht⟩ := hgroup h41
    exact ⟨o, ho, .inr ht⟩
  · have hrun : ∃ s, spendingEvents.foldlM Server.step (.empty true) = .ok s ∧
        s.validator.transactionMap.lookup sampleGenesis.txid = some sampleGenesis ∧
        s.validator.transactionMap.lookup sampleMint.txid = some sampleMint := by
      decide +kernel
    obtain ⟨s, hs, hgenesis, hmint⟩ := hrun
    have hquery := (run_answers_iff spendingEvents_hydrated spendingEvents_txidsDetermine).2
      spendingEvents [] (List.append_nil _).symm s hs (.some _) (.insertion _) [0x51]
    refine ⟨s, hs, (hquery _).mpr ⟨fun _ _ _ htx => spendingEvents_knowsToken hs htx, ?_⟩, ?_⟩
    · intro tx htx
      obtain rfl := Option.some.inj (hgenesis.symm.trans htx)
      exact ⟨rfl, fun h41 => absurd h41 (by decide)⟩
    · intro hanswers
      have hknows := ((hquery _).mp hanswers).2 sampleMint hmint
      exact absurd hknows.1 (by decide)

/-- A block with a SEND of a token without a GENESIS. -/
def unissuedEvents : List Event := [.block (.insertion _) [fakeSend] false]

/-- Two ways to fail. `SlpTokenInfo` reads the stored SEND of a genuine run as a GENESIS,
and `SlpUtxos` looks for the GENESIS of a SEND that names a token nobody issued. -/
theorem answers_fails :
    (∀ e ∈ genuineEvents ++ unissuedEvents, ∀ tx ∈ e.txs, tx.Hydrated) ∧
    ¬ Always Server.step (fun _ s => ∀ order balanceOrder script tokenid,
        s.Answers order balanceOrder script tokenid) (.empty true) genuineEvents ∧
    ¬ Always Server.step (fun _ s => ∀ order balanceOrder script tokenid,
        s.Answers order balanceOrder script tokenid) (.empty true) unissuedEvents := by
  refine ⟨fun e he tx htx => ?_, fun h => ?_, fun h => ?_⟩
  · simp only [genuineEvents, unissuedEvents, List.cons_append, List.nil_append, List.mem_cons,
      List.not_mem_nil, or_false] at he
    rcases he with rfl | rfl | rfl
    · exact List.mem_singleton.mp htx ▸ sampleGenesis_hydrated
    · exact List.mem_singleton.mp htx ▸ sampleSend_hydrated
    · exact List.mem_singleton.mp htx ▸ fakeSend_hydrated
  · have hrun : ∃ s, genuineEvents.foldlM Server.step (.empty true) = .ok s ∧
        s.validator.transactionMap.lookup sampleSend.txid = some sampleSend := by decide +kernel
    obtain ⟨s, hs, hsend⟩ := hrun
    have hinfo := (h genuineEvents [] (List.append_nil _).symm s hs (.some _) (.insertion _) []
      sampleSend.txid).info
    exact absurd (slpTokenInfo_ok_iff.mp hinfo sampleSend hsend).1 (by decide)
  · have hrun : ∃ s, unissuedEvents.foldlM Server.step (.empty true) = .ok s ∧
        s.validator.transactionMap.lookup sampleGenesis.txid = none ∧
        ∃ bucket ∈ s.bch.utxodb.scriptpubkeyToOutput.lookup fakeScript, ∃ o ∈ fakeSend.outputs,
          bucket.lookup o.outpoint = some o ∧
          o.outpoint ∉ s.bch.utxodb.mempoolSpentConfirmedOutpoints ∧
          bucket.toMap.keys.card ≤ 1 ∧ fakeSend.outputs[o.prevOutIdx.toNat]? = some o ∧
          s.validator.transactionMap.lookup o.prevTxId = some fakeSend := by decide +kernel
    obtain ⟨s, hs, hgenesis, bucket, hbucket, o, -, ho, hspent, hcard, hidx, hsend⟩ := hrun
    have hmem : o ∈ s.addressOutputs (.some _) fakeScript :=
      Utxodb.mem_getOutputsByScriptpubkey_of_confirmed hbucket ho hspent (by omega)
    obtain ⟨us, hus⟩ := (h unissuedEvents [] (List.append_nil _).symm s hs (.some _)
      (.insertion _) fakeScript .zero).utxos
    obtain ⟨g, hg, -⟩ := (slpUtxo_ok_iff hsend hidx).mp (exists_ok_of_mapM_ok hus hmem)
    exact absurd (hgenesis.symm.trans hg) (by simp)

end Server
end SlpGraphSearch
