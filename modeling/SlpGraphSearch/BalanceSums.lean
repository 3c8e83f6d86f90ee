import SlpGraphSearch.LimitedQueries
import SlpGraphSearch.TokenQueries
import Mathlib.Algebra.BigOperators.Finprod

/-!
# Sums of balances

The validator and the token store add amounts in 128 bits. The balance queries add them in 64
bits, although each GENESIS and each MINT may issue any 64-bit quantity. A query reports what
an address holds exactly as long as that fits, and as long as no amount is counted twice.
-/
namespace SlpGraphSearch
open Library Transaction

theorem toNat_sum (ns : List UInt64) : ns.sum.toNat = (ns.map UInt64.toNat).sum % 2 ^ 64 := by
  induction ns with
  | nil => rfl
  | cons n ns ih =>
    rw [List.sum_cons, UInt64.toNat_add, ih, List.map_cons, List.sum_cons, Nat.add_mod_mod]

/-- A sum in 64 bits is one of its parts if that fits and the rest vanishes. -/
theorem add_mod_eq_left_iff {m a b : ℕ} (hm : 0 < m) : (a + b) % m = a ↔ a < m ∧ m ∣ b := by
  constructor
  · intro h
    have hlt : a < m := h ▸ Nat.mod_lt _ hm
    refine ⟨hlt, ?_⟩
    have hmod : (a + b) % m = (a + 0) % m := by rw [h, Nat.add_zero, Nat.mod_eq_of_lt hlt]
    exact Nat.dvd_of_mod_eq_zero (Nat.ModEq.add_left_cancel' a hmod)
  · intro h
    obtain ⟨hlt, k, hk⟩ := h
    rw [hk, Nat.add_mul_mod_self_left, Nat.mod_eq_of_lt hlt]

namespace Utxodb

variable {db : Utxodb} {order : KeyedOrder Output.outpoint} {script : Scriptpubkey}

/-! ## What an address holds -/

/-- The entries of both buckets that a query without a limit would list. -/
noncomputable def heldCount (db : Utxodb) (script : Scriptpubkey) : ℕ :=
  {u | db.VisibleConfirmed script u}.ncard + {u | db.VisibleMempool script u}.ncard

theorem setOf_visibleConfirmed (db : Utxodb) (order : KeyedOrder Output.outpoint)
    (script : Scriptpubkey) : {u | db.VisibleConfirmed script u} =
      ((bucketOutputs db.scriptpubkeyToOutput order script).filter fun u =>
        u.outpoint ∉ db.mempoolSpentConfirmedOutpoints).toFinset := by
  ext u
  rw [Set.mem_ofPred_eq, Finset.mem_coe, List.mem_toFinset, mem_visibleConfirmed]

theorem setOf_visibleMempool (db : Utxodb) (order : KeyedOrder Output.outpoint)
    (script : Scriptpubkey) : {u | db.VisibleMempool script u} =
      (bucketOutputs db.mempoolScriptpubkeyToOutput order script).toFinset := by
  ext u
  rw [Set.mem_ofPred_eq, Finset.mem_coe, List.mem_toFinset, mem_bucketOutputs, VisibleMempool]

theorem length_countedOutputs (db : Utxodb) (order : KeyedOrder Output.outpoint)
    (script : Scriptpubkey) : (db.countedOutputs order script).length = db.heldCount script := by
  have hconfirmed := (nodup_bucketOutputs db.scriptpubkeyToOutput order script).filter
    fun u => u.outpoint ∉ db.mempoolSpentConfirmedOutpoints
  have hmempool := nodup_bucketOutputs db.mempoolScriptpubkeyToOutput order script
  rw [heldCount, setOf_visibleConfirmed db order, setOf_visibleMempool db order,
    Set.ncard_coe_finset, Set.ncard_coe_finset, List.toFinset_card_of_nodup hconfirmed,
    List.toFinset_card_of_nodup hmempool, countedOutputs, List.length_append]

theorem not_visibleMempool (hmempool : db.mempoolScriptpubkeyToOutput.lookup script = none)
    (u : Output) : ¬ db.VisibleMempool script u := by
  intro hu
  rw [VisibleMempool, bucketLookup, hmempool] at hu
  simp at hu

theorem visible_iff_bucketLookup (hmempool : db.mempoolScriptpubkeyToOutput.lookup script = none)
    (hspent : db.mempoolSpentConfirmedOutpoints = ∅) {u : Output} :
    db.Visible script u ↔ bucketLookup db.scriptpubkeyToOutput script u.outpoint = some u := by
  rw [Visible, or_iff_left (not_visibleMempool hmempool u), VisibleConfirmed, hspent,
    and_iff_left (Finset.notMem_empty _)]

/-- A script without outputs in the mempool. -/
theorem heldCount_le {bucket : OutpointMap}
    (hbucket : db.scriptpubkeyToOutput.lookup script = some bucket)
    (hmempool : db.mempoolScriptpubkeyToOutput.lookup script = none) :
    db.heldCount script ≤ bucket.toMap.keys.card := by
  have hconfirmed : bucketOutputs db.scriptpubkeyToOutput (.some _) script =
      (KeyedOrder.some Output.outpoint).list bucket := by
    rw [bucketOutputs, hbucket]
  have hnil : bucketOutputs db.mempoolScriptpubkeyToOutput (.some _) script = [] := by
    rw [bucketOutputs, hmempool]
  rw [← length_countedOutputs db (.some _), countedOutputs, hconfirmed, hnil, List.append_nil]
  exact (List.length_filter_le _ _).trans (KeyedOrder.length_list_le _ bucket)

/-- What both buckets list is counted twice. -/
theorem sum_countedOutputs (db : Utxodb) (order : KeyedOrder Output.outpoint)
    (script : Scriptpubkey) (f : Output → ℕ) :
    ((db.countedOutputs order script).map f).sum = (∑ᶠ u ∈ {u | db.Visible script u}, f u) +
      ∑ᶠ u ∈ {u | db.VisibleConfirmed script u ∧ db.VisibleMempool script u}, f u := by
  have hconfirmed := (nodup_bucketOutputs db.scriptpubkeyToOutput order script).filter
    fun u => u.outpoint ∉ db.mempoolSpentConfirmedOutpoints
  have hmempool := nodup_bucketOutputs db.mempoolScriptpubkeyToOutput order script
  have hset₁ := setOf_visibleConfirmed db order script
  have hset₂ := setOf_visibleMempool db order script
  have hunion : {u | db.Visible script u} =
      {u | db.VisibleConfirmed script u} ∪ {u | db.VisibleMempool script u} := rfl
  have hinter : {u | db.VisibleConfirmed script u ∧ db.VisibleMempool script u} =
      {u | db.VisibleConfirmed script u} ∩ {u | db.VisibleMempool script u} := rfl
  rw [hunion, hinter, hset₁, hset₂,
    finsum_mem_union_inter (Finset.finite_toSet _) (Finset.finite_toSet _),
    finsum_mem_coe_finset, finsum_mem_coe_finset, List.sum_toFinset _ hconfirmed,
    List.sum_toFinset _ hmempool, countedOutputs, List.map_append, List.sum_append]

end Utxodb

namespace Server

variable {s : Server} {order : KeyedOrder Output.outpoint}
  {balanceOrder : HashOrder (Tokenid × UInt64)} {script : Scriptpubkey} {tokenid : Tokenid}

/-- The exact sum of the amounts of a token that an address holds. -/
noncomputable def exactBalance (s : Server) (script : Scriptpubkey) (tokenid : Tokenid) : ℕ :=
  ∑ᶠ u ∈ {u | s.bch.utxodb.Visible script u}, (s.tokenAmount tokenid u).toNat

/-- The amounts in outputs that both buckets list. -/
noncomputable def countedTwice (s : Server) (script : Scriptpubkey) (tokenid : Tokenid) : ℕ :=
  ∑ᶠ u ∈ {u | s.bch.utxodb.VisibleConfirmed script u ∧ s.bch.utxodb.VisibleMempool script u},
    (s.tokenAmount tokenid u).toNat

/-- The balance fits into 64 bits, and nothing is added to it, up to multiples of `2 ^ 64`. -/
def Fits (s : Server) (script : Scriptpubkey) (tokenid : Tokenid) : Prop :=
  s.exactBalance script tokenid < 2 ^ 64 ∧ 2 ^ 64 ∣ s.countedTwice script tokenid

/-- Both queries report the exact sum, and the second one has an entry for a token that the
address holds. -/
structure BalancesExact (s : Server) (order : KeyedOrder Output.outpoint)
    (balanceOrder : HashOrder (Tokenid × UInt64)) (script : Scriptpubkey) (tokenid : Tokenid) :
    Prop where
  balance : ∃ r, s.slpTokenBalance order script tokenid = .ok r ∧
    r.value.toNat = s.exactBalance script tokenid
  allBalances : ∃ rs, s.slpAllTokenBalances order balanceOrder script = .ok rs ∧
    (∀ r ∈ rs, r.tokenid = tokenid → r.value.toNat = s.exactBalance script tokenid) ∧
    ∀ u, s.bch.utxodb.Visible script u → ∀ tx,
      s.validator.transactionMap.lookup u.prevTxId = some tx → tx.slp.tokenid = tokenid →
        ∃ r ∈ rs, r.tokenid = tokenid

theorem addressOutputs_eq (h : s.bch.utxodb.heldCount script ≤ 100000) :
    s.addressOutputs order script = s.bch.utxodb.countedOutputs order script := by
  apply Utxodb.getOutputsByScriptpubkey_eq
  rwa [Utxodb.length_countedOutputs]

/-- What is reported is exact, up to multiples of `2 ^ 64`. -/
theorem toNat_balance (h : s.bch.utxodb.heldCount script ≤ 100000)
    (order : KeyedOrder Output.outpoint) (tokenid : Tokenid) :
    ((s.addressOutputs order script).map (s.tokenAmount tokenid)).sum.toNat =
      (s.exactBalance script tokenid + s.countedTwice script tokenid) % 2 ^ 64 := by
  rw [toNat_sum, List.map_map, addressOutputs_eq h, Utxodb.sum_countedOutputs]
  rfl

theorem toNat_balance_iff (h : s.bch.utxodb.heldCount script ≤ 100000)
    (order : KeyedOrder Output.outpoint) (tokenid : Tokenid) :
    ((s.addressOutputs order script).map (s.tokenAmount tokenid)).sum.toNat =
      s.exactBalance script tokenid ↔ s.Fits script tokenid := by
  rw [toNat_balance h]
  exact add_mod_eq_left_iff (by decide)

/-- The second query has an entry for every token of the outputs, and completes only if their
GENESIS transactions are stored. -/
theorem slpAllTokenBalances_entry {rs : List SlpTokenBalanceReply}
    (h : s.slpAllTokenBalances order balanceOrder script = .ok rs) {u : Output}
    (hu : u ∈ s.addressOutputs order script) {tx : Transaction}
    (htx : s.validator.transactionMap.lookup u.prevTxId = some tx) :
    s.KnowsToken tx.slp.tokenid ∧ ∃ r ∈ rs, r.tokenid = tx.slp.tokenid := by
  simp only [slpAllTokenBalances, bind_eq_ok] at h
  obtain ⟨balances, hbalances, h⟩ := h
  have hkey := (keys_foldlM_addAllBalances hbalances).mpr (.inr ⟨u, hu, tx, htx, rfl⟩)
  obtain ⟨entry, hentry, hentryid⟩ := List.mem_map.mp hkey
  obtain ⟨r, hr, hreply⟩ := exists_mem_of_mapM_ok h (balanceOrder.mem.mpr hentry)
  rw [hentryid] at hreply
  refine ⟨?_, r, hr, (balanceReply_tokenid hreply).1⟩
  simp only [balanceReply, bind_eq_ok] at hreply
  obtain ⟨ginfo, hinfo, -⟩ := hreply
  exact genesisInfo_ok_iff.mp ⟨ginfo, hinfo⟩

/-- Where the transactions of the outputs are stored, exactly the tokens must be known and the
balance must fit. -/
theorem balancesExact_iff (hheld : s.bch.utxodb.heldCount script ≤ 100000)
    (hlocated : s.Located (s.addressOutputs order script)) :
    s.BalancesExact order balanceOrder script tokenid ↔
      s.KnowsTokens order script ∧ s.Fits script tokenid := by
  constructor
  · intro h
    obtain ⟨r, hr, hexact⟩ := h.balance
    obtain ⟨rs, hrs, -⟩ := h.allBalances
    constructor
    · intro u hu tx htx
      exact (slpAllTokenBalances_entry hrs hu htx).1
    · rw [slpTokenBalance_value hr] at hexact
      exact (toNat_balance_iff hheld order tokenid).mp hexact
  · intro h
    obtain ⟨hknows, hfits⟩ := h
    have hsum := (toNat_balance_iff hheld order tokenid).mpr hfits
    obtain ⟨r, hr⟩ := slpTokenBalance_ok hlocated hknows tokenid
    obtain ⟨rs, hrs⟩ := slpAllTokenBalances_ok hlocated hknows balanceOrder
    refine ⟨⟨r, hr, ?_⟩, rs, hrs, ?_, ?_⟩
    · rw [slpTokenBalance_value hr, hsum]
    · intro r hr hid
      rw [slpAllTokenBalances_value hrs hr, hid, hsum]
    · intro u hu tx htx hid
      have hmem : u ∈ s.addressOutputs order script := by
        rw [addressOutputs_eq hheld]
        exact Utxodb.mem_countedOutputs.mpr hu
      exact hid ▸ (slpAllTokenBalances_entry hrs hmem htx).2

/-- In every state of a run, both queries report what an address holds of a token exactly if
they know the tokens there and the balance fits. -/
theorem run_balancesExact_iff {events : List Event}
    (hhyd : ∀ e ∈ events, ∀ tx ∈ e.txs, tx.Hydrated)
    (hdet : TxidsDetermine (events.flatMap Event.txs)) :
    Always Server.step (fun _ s => ∀ order balanceOrder script tokenid,
      s.bch.utxodb.heldCount script ≤ 100000 →
        (s.BalancesExact order balanceOrder script tokenid ↔
          s.KnowsTokens order script ∧ s.Fits script tokenid)) (.empty true) events := by
  intro past rest hev s hs order balanceOrder script tokenid hheld
  apply balancesExact_iff hheld
  apply (traced_always hhyd hdet past rest hev s hs).located
  intro tx htx
  obtain ⟨e, he, htx⟩ := List.mem_flatMap.mp htx
  exact hhyd e (hev ▸ List.mem_append_left _ he) tx htx

/-- The address holds 5 from the MINT and 6 from the SEND. -/
theorem run_balancesExact_sample :
    ∃ s, spendingEvents.foldlM Server.step (.empty true) = .ok s ∧
      s.exactBalance [0x51] sampleGenesis.txid = 11 ∧
      s.BalancesExact (.some _) (.insertion _) [0x51] sampleGenesis.txid := by
  have hrun : ∃ s, spendingEvents.foldlM Server.step (.empty true) = .ok s ∧
      s.bch.utxodb.mempoolScriptpubkeyToOutput.lookup [0x51] = none ∧
      s.bch.utxodb.mempoolSpentConfirmedOutpoints = ∅ ∧
      ∃ bucket ∈ s.bch.utxodb.scriptpubkeyToOutput.lookup [0x51],
        bucket.toMap.keys = {⟨sampleMint.txid, 1⟩, ⟨sampleSend.txid, 2⟩} ∧
        ∃ o ∈ sampleMint.outputs, ∃ p ∈ sampleSend.outputs,
          bucket.lookup ⟨sampleMint.txid, 1⟩ = some o ∧
          bucket.lookup ⟨sampleSend.txid, 2⟩ = some p ∧ o ≠ p ∧
          (s.tokenAmount sampleGenesis.txid o).toNat +
            (s.tokenAmount sampleGenesis.txid p).toNat = 11 := by
    decide +kernel
  obtain ⟨s, hs, hmempool, hspent, bucket, hbucket, hkeys, o, -, p, -, ho, hp, hne, hsum⟩ := hrun
  have hheld : s.bch.utxodb.heldCount [0x51] ≤ 100000 := by
    refine (Utxodb.heldCount_le hbucket hmempool).trans ?_
    rw [hkeys]
    exact Finset.card_le_two.trans (by decide)
  have hvisible : {u | s.bch.utxodb.Visible [0x51] u} =
      (({o, p} : Finset Output) : Set Output) := by
    ext u
    have hlookup : s.bch.utxodb.Visible [0x51] u ↔ bucket.lookup u.outpoint = some u := by
      rw [Utxodb.visible_iff_bucketLookup hmempool hspent, bucketLookup,
        Option.mem_def.mp hbucket, Option.bind_some]
    rw [Set.mem_ofPred_eq, hlookup, Finset.mem_coe, Finset.mem_insert, Finset.mem_singleton]
    constructor
    · intro hu
      have hkey : u.outpoint ∈ bucket.toMap.keys :=
        Finmap.mem_keys.mpr (KeyedMap.mem_iff.mpr ⟨u, hu⟩)
      rw [hkeys, Finset.mem_insert, Finset.mem_singleton] at hkey
      cases hkey with
      | inl hmint => exact .inl (Option.some.inj (hu.symm.trans (hmint ▸ ho)))
      | inr hsend => exact .inr (Option.some.inj (hu.symm.trans (hsend ▸ hp)))
    · intro hu
      cases hu with
      | inl huo => rw [huo, KeyedMap.key_lookup ho, ho]
      | inr hup => rw [hup, KeyedMap.key_lookup hp, hp]
  have hexact : s.exactBalance [0x51] sampleGenesis.txid = 11 := by
    rw [exactBalance, hvisible, finsum_mem_coe_finset, Finset.sum_pair hne, hsum]
  have htwice : s.countedTwice [0x51] sampleGenesis.txid = 0 := by
    rw [countedTwice]
    simp only [Utxodb.not_visibleMempool hmempool, and_false, Set.ofPred_false, finsum_mem_empty]
  have hfits : s.Fits [0x51] sampleGenesis.txid := by
    refine ⟨?_, htwice ▸ dvd_zero _⟩
    rw [hexact]
    decide
  refine ⟨s, hs, hexact, ?_⟩
  refine (run_balancesExact_iff spendingEvents_hydrated spendingEvents_txidsDetermine
    spendingEvents [] (List.append_nil _).symm s hs (.some _) (.insertion _) [0x51]
    sampleGenesis.txid hheld).mpr ⟨fun _ _ _ htx => ?_, hfits⟩
  exact spendingEvents_knowsToken hs htx

/-! ## More than 64 bits -/

/-- A GENESIS of type 1 with the largest quantity on output 1 and the baton on output 2. -/
def hugeGenesis : Transaction :=
  let txid : Txid := ⟨
    [0xBD, 0x34, 0x61, 0xF7, 0xB0, 0x36, 0xE8, 0xE5, 0xA3, 0x27, 0x71, 0x25, 0xA6, 0xDB, 0x3A,
     0x80, 0xF1, 0xF3, 0xD4, 0x2C, 0xB0, 0x65, 0xD3, 0x13, 0xAC, 0xD5, 0x73, 0x9D, 0xB3, 0x21,
     0x10, 0x88], rfl⟩
  encoded txid [⟨.zero, 0⟩]
    [opReturn ((genesisPayloads 1 [2] 0).dropLast ++ [List.replicate 8 0xFF]), fakeScript, [0x52]]
    ⟨txid, 1, .genesis ⟨[], [], [], [], 0, true, 2, 0xFFFFFFFFFFFFFFFF⟩⟩

/-- A MINT of quantity 5 to the same address. -/
def hugeMint : Transaction :=
  let txid : Txid := ⟨
    [0xD2, 0x37, 0xD0, 0x37, 0x71, 0xF2, 0x97, 0x88, 0xAE, 0xCC, 0xEB, 0x9A, 0x29, 0x8F, 0xB9,
     0x0C, 0x7A, 0x29, 0x26, 0x1F, 0xCB, 0xBE, 0xCB, 0xB1, 0x6B, 0x77, 0xA3, 0xD1, 0x7E, 0x32,
     0x7B, 0xC3], rfl⟩
  encoded txid [⟨hugeGenesis.txid, 2⟩]
    [opReturn (mintPayloads 1 hugeGenesis.txid [2] 5), fakeScript, [0x52]]
    ⟨hugeGenesis.txid, 1, .mint ⟨true, 2, 5⟩⟩

theorem hugeGenesis_hydrated : hugeGenesis.Hydrated :=
  hydrated_encoded (by decide) (by decide) (by decide) (by decide +kernel) (by decide +kernel)

theorem hugeMint_hydrated : hugeMint.Hydrated :=
  hydrated_encoded (by decide) (by decide) (by decide) (by decide +kernel) (by decide +kernel)

def hugeEvents : List Event := [.block (.insertion _) [hugeGenesis, hugeMint] false]

theorem hugeEvents_txs : hugeEvents.flatMap Event.txs = [hugeGenesis, hugeMint] := rfl

theorem hugeEvents_hydrated : ∀ e ∈ hugeEvents, ∀ tx ∈ e.txs, tx.Hydrated := by
  intro e he tx htx
  have hmem : tx ∈ hugeEvents.flatMap Event.txs := List.mem_flatMap.mpr ⟨e, he, htx⟩
  rw [hugeEvents_txs] at hmem
  simp only [List.mem_cons, List.not_mem_nil, or_false] at hmem
  cases hmem with
  | inl hgenesis => exact hgenesis ▸ hugeGenesis_hydrated
  | inr hmint => exact hmint ▸ hugeMint_hydrated

theorem hugeEvents_txidsDetermine : TxidsDetermine (hugeEvents.flatMap Event.txs) :=
  .of_nodup (by decide)

/-- Two outputs are part of the sum. -/
theorem add_le_exactBalance (tokenid : Tokenid) {u w : Output}
    (hu : s.bch.utxodb.Visible script u) (hw : s.bch.utxodb.Visible script w) (hne : u ≠ w) :
    (s.tokenAmount tokenid u).toNat + (s.tokenAmount tokenid w).toNat ≤
      s.exactBalance script tokenid := by
  rw [exactBalance, Utxodb.setOf_visible _ (.some _), finsum_mem_coe_finset,
    ← Finset.sum_pair (f := fun o => (s.tokenAmount tokenid o).toNat) hne]
  apply Finset.sum_le_sum_of_subset
  intro o ho
  rw [List.mem_toFinset, Utxodb.mem_countedOutputs]
  cases Finset.mem_insert.mp ho with
  | inl hou => exact hou ▸ hu
  | inr how => exact Finset.mem_singleton.mp how ▸ hw

/-- Both transactions are valid, and what is reported is less than one of the two amounts. -/
theorem balancesExact_fails :
    (∀ e ∈ hugeEvents, ∀ tx ∈ e.txs, tx.Hydrated) ∧
    ¬ Always Server.step (fun _ s => ∀ order balanceOrder script tokenid,
      s.bch.utxodb.heldCount script ≤ 100000 →
      (∀ u, s.bch.utxodb.Visible script u → u.prevTxId ∈ s.validator.valid) →
        s.BalancesExact order balanceOrder script tokenid) (.empty true) hugeEvents := by
  refine ⟨hugeEvents_hydrated, fun h => ?_⟩
  have hrun : ∃ s, hugeEvents.foldlM Server.step (.empty true) = .ok s ∧
      hugeGenesis.txid ∈ s.validator.valid ∧ hugeMint.txid ∈ s.validator.valid ∧
      s.bch.utxodb.mempoolScriptpubkeyToOutput.lookup fakeScript = none ∧
      (∃ bucket ∈ s.bch.utxodb.scriptpubkeyToOutput.lookup fakeScript,
        bucket.toMap.keys.card ≤ 2) ∧
      s.bch.utxodb.mempoolSpentConfirmedOutpoints = ∅ ∧
      ∃ o ∈ hugeGenesis.outputs, ∃ p ∈ hugeMint.outputs,
        bucketLookup s.bch.utxodb.scriptpubkeyToOutput fakeScript o.outpoint = some o ∧
        bucketLookup s.bch.utxodb.scriptpubkeyToOutput fakeScript p.outpoint = some p ∧
        o ≠ p ∧ 2 ^ 64 ≤ (s.tokenAmount hugeGenesis.txid o).toNat +
          (s.tokenAmount hugeGenesis.txid p).toNat := by
    decide +kernel
  obtain ⟨s, hs, hgenesis, hmint, hmempool, ⟨bucket, hbucket, hcard⟩, hspent, o, -, p, -, ho, hp,
    hne, hsum⟩ := hrun
  have hpast : hugeEvents = hugeEvents ++ [] := (List.append_nil _).symm
  have hconfirmed : ∀ u : Output,
      bucketLookup s.bch.utxodb.scriptpubkeyToOutput fakeScript u.outpoint = some u →
        s.bch.utxodb.Visible fakeScript u :=
    fun _ hu => (Utxodb.visible_iff_bucketLookup hmempool hspent).mpr hu
  have hheld : s.bch.utxodb.heldCount fakeScript ≤ 100000 :=
    (Utxodb.heldCount_le hbucket hmempool).trans (hcard.trans (by decide))
  have hvalid : ∀ u, s.bch.utxodb.Visible fakeScript u → u.prevTxId ∈ s.validator.valid := by
    intro u hu
    have htraced := traced_always hugeEvents_hydrated hugeEvents_txidsDetermine _ _ hpast s hs
    have hmem : u ∈ s.addressOutputs (.some _) fakeScript := by
      rw [addressOutputs_eq hheld]
      exact Utxodb.mem_countedOutputs.mpr hu
    obtain ⟨tx, htx, -⟩ := htraced.located (fun tx htx => by
      obtain ⟨e, he, htx⟩ := List.mem_flatMap.mp htx
      exact hugeEvents_hydrated e he tx htx) (.some _) fakeScript u hmem
    have hsource := (htraced.stored.source htx).1
    rw [hugeEvents_txs] at hsource
    rw [← KeyedMap.key_lookup htx]
    simp only [List.mem_cons, List.not_mem_nil, or_false] at hsource
    cases hsource with
    | inl h => exact h ▸ hgenesis
    | inr h => exact h ▸ hmint
  obtain ⟨r, -, hexact⟩ := (h _ _ hpast s hs (.some _) (.insertion _) fakeScript hugeGenesis.txid
    hheld hvalid).balance
  have hle := add_le_exactBalance hugeGenesis.txid (hconfirmed o ho) (hconfirmed p hp) hne
  have hlt := r.value.toNat_lt
  omega

end Server
end SlpGraphSearch
