import SlpGraphSearch.Server
import SlpGraphSearch.Library.Run
import Mathlib.Data.UInt

/-!
# Address queries

The requests that report the tokens of an address. They walk the outputs that
`utxodb` lists for the script of the address and look every transaction up in the
validator's map, whether it is valid or not.
-/
namespace SlpGraphSearch
open Library Transaction

structure SlpUtxo where
  txid : Txid
  vout : UInt32
  satoshis : UInt64
  value : UInt64
  decimals : UInt32
  ticker : Bytes
  tokenid : Txid
  type : UInt16
  isbaton : Bool

structure SlpTokenBalanceReply where
  value : UInt64
  decimals : UInt32
  ticker : Bytes
  name : Bytes
  tokenid : Txid
  type : UInt16

namespace Server

/-- The outputs that the address queries walk. -/
def addressOutputs (s : Server) (order : KeyedOrder Output.outpoint) (script : Scriptpubkey) :
    List Output :=
  s.bch.utxodb.getOutputsByScriptpubkey order script 100000

/-- `validator.get` on the GENESIS of a token and `absl::get` on its record. -/
def genesisInfo (s : Server) (tokenid : Tokenid) :
    Except Failure (Transaction × SlpTransactionGenesis) := do
  let genesisTx ← s.validator.get tokenid
  match genesisTx.slp.slpTx with
  | .genesis info => .ok (genesisTx, info)
  | _ => .error .badVariantAccess

/-- One entry of `SlpUtxos`. -/
def slpUtxo (s : Server) (utxo : Output) : Except Failure SlpUtxo := do
  let tx ← s.validator.get utxo.prevTxId
  let (genesisTx, info) ← s.genesisInfo tx.slp.tokenid
  match tx.outputs[utxo.prevOutIdx.toNat]? with
  | none => .error .outOfBounds
  | some o =>
      .ok {
        txid := utxo.prevTxId
        vout := utxo.prevOutIdx
        satoshis := o.value
        value := tx.outputSlpAmount utxo.prevOutIdx.toNat
        decimals := info.decimals
        ticker := info.ticker
        tokenid := genesisTx.txid
        type := tx.slp.tokenType
        isbaton := tx.mintBatonOutpoint.vout = utxo.prevOutIdx }

def slpUtxos (s : Server) (order : KeyedOrder Output.outpoint) (script : Scriptpubkey) :
    Except Failure (List SlpUtxo) :=
  (s.addressOutputs order script).mapM s.slpUtxo

/-- The entry of a token in the replies about balances. -/
def balanceReply (s : Server) (tokenid : Tokenid) (balance : UInt64) :
    Except Failure SlpTokenBalanceReply := do
  let (genesisTx, info) ← s.genesisInfo tokenid
  .ok ⟨balance, info.decimals, info.ticker, info.name, genesisTx.txid, genesisTx.slp.tokenType⟩

/-- One round of the loop of `SlpTokenBalance`. -/
def addTokenBalance (s : Server) (tokenid : Tokenid) (balance : UInt64) (utxo : Output) :
    Except Failure UInt64 := do
  let tx ← s.validator.get utxo.prevTxId
  if tx.slp.tokenid ≠ tokenid then .ok balance
  else .ok (balance + tx.outputSlpAmount utxo.prevOutIdx.toNat)

/-- A balance of zero is reported without the data of the token. -/
def slpTokenBalance (s : Server) (order : KeyedOrder Output.outpoint) (script : Scriptpubkey)
    (tokenid : Tokenid) : Except Failure SlpTokenBalanceReply := do
  let balance ← (s.addressOutputs order script).foldlM (s.addTokenBalance tokenid) 0
  if balance = 0 then .ok ⟨0, 0, [], [], tokenid, 0⟩ else s.balanceReply tokenid balance

/-- `balances[tokenid] += amount`. -/
def addToBalance (tokenid : Tokenid) (amount : UInt64) :
    List (Tokenid × UInt64) → List (Tokenid × UInt64)
  | [] => [(tokenid, amount)]
  | (t, balance) :: m =>
      if t = tokenid then (t, balance + amount) :: m
      else (t, balance) :: addToBalance tokenid amount m

/-- One round of the loop of `SlpAllTokenBalances`. -/
def addAllBalances (s : Server) (balances : List (Tokenid × UInt64)) (utxo : Output) :
    Except Failure (List (Tokenid × UInt64)) := do
  let tx ← s.validator.get utxo.prevTxId
  .ok (addToBalance tx.slp.tokenid (tx.outputSlpAmount utxo.prevOutIdx.toNat) balances)

def slpAllTokenBalances (s : Server) (order : KeyedOrder Output.outpoint)
    (balanceOrder : HashOrder (Tokenid × UInt64)) (script : Scriptpubkey) :
    Except Failure (List SlpTokenBalanceReply) := do
  let balances ← (s.addressOutputs order script).foldlM s.addAllBalances []
  (balanceOrder.permute balances).mapM fun entry => s.balanceReply entry.1 entry.2

/-! ## What replies consist of -/

/-- What an output adds to the balance of a token. -/
def tokenAmount (s : Server) (tokenid : Tokenid) (utxo : Output) : UInt64 :=
  match s.validator.get utxo.prevTxId with
  | .error _ => 0
  | .ok tx => if tx.slp.tokenid = tokenid then tx.outputSlpAmount utxo.prevOutIdx.toNat else 0

theorem foldlM_addTokenBalance {s : Server} {tokenid : Tokenid} {utxos : List Output}
    {start balance : UInt64} (h : utxos.foldlM (s.addTokenBalance tokenid) start = .ok balance) :
    balance = start + (utxos.map (s.tokenAmount tokenid)).sum := by
  induction utxos generalizing start with
  | nil =>
      rw [List.foldlM_nil] at h
      rw [← Except.ok.inj h, List.map_nil, List.sum_nil, add_zero]
  | cons utxo utxos ih =>
      simp only [List.foldlM_cons, addTokenBalance, bind_eq_ok] at h
      obtain ⟨next, ⟨tx, htx, hnext⟩, h⟩ := h
      have hamount : next = start + s.tokenAmount tokenid utxo := by
        simp only [tokenAmount, htx]
        by_cases ht : tx.slp.tokenid = tokenid
        · rw [if_neg (not_not.mpr ht)] at hnext
          rw [if_pos ht, Except.ok.inj hnext]
        · rw [if_pos ht] at hnext
          rw [if_neg ht, Except.ok.inj hnext, add_zero]
      rw [ih h, hamount, List.map_cons, List.sum_cons, add_assoc]

/-- The entry of a token in a list of balances, added up. -/
def tokenTotal (tokenid : Tokenid) (balances : List (Tokenid × UInt64)) : UInt64 :=
  (balances.map fun entry => if entry.1 = tokenid then entry.2 else 0).sum

theorem tokenTotal_addToBalance (t tokenid : Tokenid) (amount : UInt64)
    (m : List (Tokenid × UInt64)) : tokenTotal t (addToBalance tokenid amount m) =
      tokenTotal t m + if tokenid = t then amount else 0 := by
  induction m with
  | nil => simp [tokenTotal, addToBalance]
  | cons entry m ih =>
      obtain ⟨t', n⟩ := entry
      unfold addToBalance
      split_ifs with ht' ht ht
      · subst ht' ht
        simp only [tokenTotal, List.map_cons, List.sum_cons, if_true]
        rw [add_right_comm]
      · subst ht'
        simp [tokenTotal, ht]
      · simp only [tokenTotal, List.map_cons, List.sum_cons] at ih ⊢
        rw [ih, if_pos ht, add_assoc]
      · simp only [tokenTotal, List.map_cons, List.sum_cons] at ih ⊢
        rw [ih, if_neg ht, add_zero, add_zero]

theorem mem_keys_addToBalance {m : List (Tokenid × UInt64)} {t tokenid : Tokenid}
    {amount : UInt64} : t ∈ (addToBalance tokenid amount m).map Prod.fst ↔
      t ∈ m.map Prod.fst ∨ t = tokenid := by
  induction m with
  | nil => simp [addToBalance]
  | cons entry m ih =>
      obtain ⟨t', n⟩ := entry
      unfold addToBalance
      split_ifs with ht
      · simp only [List.map_cons, List.mem_cons]
        constructor
        · exact .inl
        · intro h
          exact h.elim id fun heq => .inl (heq.trans ht.symm)
      · simp only [List.map_cons, List.mem_cons, ih, or_assoc]

theorem nodup_keys_addToBalance {m : List (Tokenid × UInt64)} (h : (m.map Prod.fst).Nodup)
    (tokenid : Tokenid) (amount : UInt64) :
    ((addToBalance tokenid amount m).map Prod.fst).Nodup := by
  induction m with
  | nil => simp [addToBalance]
  | cons entry m ih =>
      obtain ⟨t', n⟩ := entry
      rw [List.map_cons, List.nodup_cons] at h
      unfold addToBalance
      split_ifs with ht
      · rw [List.map_cons]
        exact List.nodup_cons.mpr h
      · rw [List.map_cons, List.nodup_cons]
        refine ⟨fun hmem => ?_, ih h.2⟩
        exact (mem_keys_addToBalance.mp hmem).elim h.1 ht

theorem tokenTotal_of_mem {m : List (Tokenid × UInt64)} (h : (m.map Prod.fst).Nodup)
    {t : Tokenid} {n : UInt64} (hmem : (t, n) ∈ m) : tokenTotal t m = n := by
  induction m with
  | nil => exact absurd hmem List.not_mem_nil
  | cons entry m ih =>
      rw [List.map_cons, List.nodup_cons] at h
      rw [tokenTotal, List.map_cons, List.sum_cons]
      rcases List.mem_cons.mp hmem with rfl | hmem
      · have hrest : (m.map fun entry => if entry.1 = t then entry.2 else 0).sum = 0 := by
          refine List.sum_eq_zero fun x hx => ?_
          obtain ⟨e, he, rfl⟩ := List.mem_map.mp hx
          have hkey : e.1 ∈ m.map Prod.fst := List.mem_map_of_mem he
          have hne : e.1 ≠ t := fun ht => h.1 (ht ▸ hkey)
          exact if_neg hne
        rw [if_pos rfl, hrest, add_zero]
      · have hkey : t ∈ m.map Prod.fst := List.mem_map_of_mem hmem
        have hne : entry.1 ≠ t := fun ht => h.1 (ht ▸ hkey)
        rw [if_neg hne, zero_add]
        exact ih h.2 hmem

theorem foldlM_addAllBalances {s : Server} {utxos : List Output}
    (start : List (Tokenid × UInt64)) {balances : List (Tokenid × UInt64)}
    (hstart : (start.map Prod.fst).Nodup)
    (h : utxos.foldlM s.addAllBalances start = .ok balances) :
    (balances.map Prod.fst).Nodup ∧
      ∀ t, tokenTotal t balances = tokenTotal t start + (utxos.map (s.tokenAmount t)).sum := by
  induction utxos generalizing start with
  | nil =>
      rw [List.foldlM_nil] at h
      rw [← Except.ok.inj h]
      exact ⟨hstart, by simp⟩
  | cons utxo utxos ih =>
      simp only [List.foldlM_cons, addAllBalances, bind_eq_ok] at h
      obtain ⟨next, ⟨tx, htx, hnext⟩, h⟩ := h
      obtain rfl := Except.ok.inj hnext
      obtain ⟨hnodup, htotal⟩ := ih _ (nodup_keys_addToBalance hstart _ _) h
      refine ⟨hnodup, fun t => ?_⟩
      rw [htotal, tokenTotal_addToBalance, List.map_cons, List.sum_cons, tokenAmount, htx,
        add_assoc]

/-- A balance is the sum, in 64 bits, of what the outputs of the address add to it. -/
theorem slpTokenBalance_value {s : Server} {order : KeyedOrder Output.outpoint}
    {script : Scriptpubkey} {tokenid : Tokenid} {r : SlpTokenBalanceReply}
    (h : s.slpTokenBalance order script tokenid = .ok r) :
    r.value = ((s.addressOutputs order script).map (s.tokenAmount tokenid)).sum := by
  simp only [slpTokenBalance, bind_eq_ok] at h
  obtain ⟨balance, hbalance, h⟩ := h
  have hsum := foldlM_addTokenBalance hbalance
  rw [zero_add] at hsum
  rw [← hsum]
  split_ifs at h with hzero
  · rw [← Except.ok.inj h, hzero]
  · simp only [balanceReply, bind_eq_ok] at h
    obtain ⟨_, -, h⟩ := h
    rw [← Except.ok.inj h]

theorem genesisInfo_txid {s : Server} {tokenid : Tokenid} {r : Transaction × SlpTransactionGenesis}
    (h : s.genesisInfo tokenid = .ok r) : r.1.txid = tokenid := by
  simp only [genesisInfo, bind_eq_ok] at h
  obtain ⟨tx, hget, htx⟩ := h
  unfold Validator.get at hget
  split at hget
  · cases hget
  · rename_i u hu
    obtain rfl := Except.ok.inj hget
    split at htx
    · rw [← Except.ok.inj htx]
      exact KeyedMap.key_lookup hu
    · cases htx

theorem balanceReply_tokenid {s : Server} {tokenid : Tokenid} {balance : UInt64}
    {r : SlpTokenBalanceReply} (h : s.balanceReply tokenid balance = .ok r) :
    r.tokenid = tokenid ∧ r.value = balance := by
  simp only [balanceReply, bind_eq_ok] at h
  obtain ⟨ginfo, hinfo, h⟩ := h
  rw [← Except.ok.inj h]
  exact ⟨genesisInfo_txid hinfo, rfl⟩

theorem slpAllTokenBalances_value {s : Server} {order : KeyedOrder Output.outpoint}
    {balanceOrder : HashOrder (Tokenid × UInt64)} {script : Scriptpubkey}
    {rs : List SlpTokenBalanceReply}
    (h : s.slpAllTokenBalances order balanceOrder script = .ok rs) {r : SlpTokenBalanceReply}
    (hr : r ∈ rs) :
    r.value = ((s.addressOutputs order script).map (s.tokenAmount r.tokenid)).sum := by
  simp only [slpAllTokenBalances, bind_eq_ok] at h
  obtain ⟨balances, hbalances, h⟩ := h
  obtain ⟨⟨t, n⟩, hentry, hreply⟩ := mem_of_mapM_ok h hr
  obtain ⟨hnodup, htotal⟩ := foldlM_addAllBalances [] List.nodup_nil hbalances
  obtain ⟨hid, hvalue⟩ := balanceReply_tokenid hreply
  have hmem := tokenTotal_of_mem hnodup ((balanceOrder.mem).mp hentry)
  rw [hid, hvalue, ← hmem, htotal, tokenTotal, List.map_nil, List.sum_nil, zero_add]

/-- `SlpUtxos` lists the outputs of the address. -/
theorem slpUtxos_outpoints {s : Server} {order : KeyedOrder Output.outpoint}
    {script : Scriptpubkey} {us : List SlpUtxo} (h : s.slpUtxos order script = .ok us)
    {u : SlpUtxo} (hu : u ∈ us) :
    ∃ o ∈ s.addressOutputs order script, o.outpoint = ⟨u.txid, u.vout⟩ := by
  obtain ⟨o, ho, hou⟩ := mem_of_mapM_ok h hu
  refine ⟨o, ho, ?_⟩
  simp only [slpUtxo, bind_eq_ok] at hou
  obtain ⟨tx, -, ginfo, -, hou⟩ := hou
  split at hou
  · simp at hou
  · rw [← Except.ok.inj hou]
    rfl

end Server
end SlpGraphSearch
