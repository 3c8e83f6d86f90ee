import SlpGraphSearch.SlpRules
import SlpGraphSearch.Slpdb

/-!
# What the token store does

Each operation of `slpdb` by its effect on the tokens. A transaction is either
dropped or recorded, and recording does the same for all three kinds: it adds the
outputs of the transaction to its token and moves the baton of the token to the one
that the transaction creates, if it creates one.
-/
namespace SlpGraphSearch
open Library Transaction

namespace Transaction

/-- The outpoint of the baton, if a GENESIS or MINT creates that output. -/
def batonOutput (p : Transaction) : Option Outpoint :=
  match p.slp.slpTx with
  | .genesis s =>
      if s.hasMintBaton ∧ s.mintBatonVout.toNat < p.outputs.length then
        some ⟨p.txid, s.mintBatonVout⟩
      else none
  | .mint s =>
      if s.hasMintBaton ∧ s.mintBatonVout.toNat < p.outputs.length then
        some ⟨p.txid, s.mintBatonVout⟩
      else none
  | _ => none

/-- What the token store records under an outpoint of the transaction. The baton of
a GENESIS is not among the outputs of its token, and a SEND may name two outputs
more than it has. -/
def tokenOutput (p : Transaction) (o : Outpoint) : Option SlpOutput :=
  if o.txid ≠ p.txid then none
  else match p.slp.slpTx with
    | .genesis s => if o.vout = 1 then some ⟨o, s.qty, false⟩ else none
    | .mint s =>
        if o.vout = 1 then some ⟨o, s.qty, false⟩
        else if p.batonOutput = some o then some ⟨⟨p.txid, 1⟩, 0, true⟩
        else none
    | .send s =>
        if o.vout = 0 ∨ 1 + p.outputs.length < o.vout.toNat then none
        else (s.amounts[o.vout.toNat - 1]?).map fun amount => ⟨o, amount, false⟩
    | .invalid => none

theorem batonOutput_txid {p : Transaction} {o : Outpoint} (h : p.batonOutput = some o) :
    o.txid = p.txid := by
  unfold batonOutput at h
  split at h
  · split_ifs at h
    rw [← Option.some.inj h]
  · split_ifs at h
    rw [← Option.some.inj h]
  · simp at h

theorem tokenOutput_txid {p : Transaction} {o : Outpoint} {u : SlpOutput}
    (h : p.tokenOutput o = some u) : o.txid = p.txid := by
  by_contra hne
  simp [tokenOutput, hne] at h

theorem tokenOutput_of_ne {p : Transaction} {o : Outpoint} (h : o.txid ≠ p.txid) :
    p.tokenOutput o = none := if_pos h

theorem batonOutput_genesis {p : Transaction} {s : SlpTransactionGenesis}
    (hs : p.slp.slpTx = .genesis s) : p.batonOutput =
      if s.hasMintBaton ∧ s.mintBatonVout.toNat < p.outputs.length then
        some ⟨p.txid, s.mintBatonVout⟩ else none := by
  simp only [batonOutput, hs]

theorem batonOutput_mint {p : Transaction} {s : SlpTransactionMint}
    (hs : p.slp.slpTx = .mint s) : p.batonOutput =
      if s.hasMintBaton ∧ s.mintBatonVout.toNat < p.outputs.length then
        some ⟨p.txid, s.mintBatonVout⟩ else none := by
  simp only [batonOutput, hs]

theorem tokenOutput_genesis {p : Transaction} {s : SlpTransactionGenesis}
    (hs : p.slp.slpTx = .genesis s) (o : Outpoint) : p.tokenOutput o =
      if o = ⟨p.txid, 1⟩ then some ⟨⟨p.txid, 1⟩, s.qty, false⟩ else none := by
  obtain ⟨x, v⟩ := o
  by_cases hx : x = p.txid
  · by_cases hv : v = 1 <;> simp [tokenOutput, hs, hx, hv]
  · simp [tokenOutput, hx]

theorem tokenOutput_mint {p : Transaction} {s : SlpTransactionMint}
    (hs : p.slp.slpTx = .mint s) (o : Outpoint) : p.tokenOutput o =
      if o = ⟨p.txid, 1⟩ then some ⟨⟨p.txid, 1⟩, s.qty, false⟩
      else if p.batonOutput = some o then some ⟨⟨p.txid, 1⟩, 0, true⟩ else none := by
  obtain ⟨x, v⟩ := o
  by_cases hx : x = p.txid
  · by_cases hv : v = 1 <;> simp [tokenOutput, hs, hx, hv]
  · have hb : p.batonOutput ≠ some ⟨x, v⟩ := fun hb => hx (batonOutput_txid hb)
    simp [tokenOutput, hx, hb]

theorem tokenOutput_send {p : Transaction} (h : p.Hydrated) {s : SlpTransactionSend}
    (hs : p.slp.slpTx = .send s) {o : Outpoint} {u : SlpOutput} :
    p.tokenOutput o = some u ↔ ∃ i amount,
      (s.amounts.take (1 + p.outputs.length))[i]? = some amount ∧
        o = ⟨p.txid, UInt32.ofNat (i + 1)⟩ ∧ u = ⟨o, amount, false⟩ := by
  have h19 := (h.send hs).2
  unfold tokenOutput
  simp only [hs]
  constructor
  · intro ho
    split_ifs at ho with hx hv
    rw [not_not] at hx
    rw [not_or, not_lt, ← UInt32.toNat_inj, UInt32.toNat_zero] at hv
    obtain ⟨amount, ha, hu⟩ := Option.map_eq_some_iff.mp ho
    refine ⟨o.vout.toNat - 1, amount, ?_, ?_, hu.symm⟩
    · rw [List.getElem?_take_of_lt (by omega)]
      exact ha
    · rw [Nat.sub_add_cancel (by omega), UInt32.ofNat_toNat, ← hx]
  · rintro ⟨i, amount, ha, rfl, rfl⟩
    have hi := (List.getElem?_eq_some_iff.mp ha).1
    rw [List.length_take] at hi
    have hv : (UInt32.ofNat (i + 1)).toNat = i + 1 :=
      UInt32.toNat_ofNat_of_lt' (by rw [UInt32.size]; omega)
    rw [List.getElem?_take_of_lt (by omega)] at ha
    rw [if_neg (not_not.mpr rfl), if_neg, hv, Nat.add_sub_cancel, ha]
    · rfl
    · rw [hv, ← UInt32.toNat_inj, hv, UInt32.toNat_zero]
      omega

/-- Only a GENESIS or MINT creates a baton. -/
theorem isAuthority_of_batonOutput {p : Transaction} {o : Outpoint}
    (h : p.batonOutput = some o) : p.IsAuthority := by
  unfold batonOutput at h
  split at h
  · rename_i s hs
    exact .inl (SlpTransaction.type_eq_genesis.mpr ⟨s, hs⟩)
  · rename_i s hs
    exact .inr (SlpTransaction.type_eq_mint.mpr ⟨s, hs⟩)
  · simp at h

/-- A decoded baton stands behind the output of the quantity. -/
theorem Hydrated.two_le_baton {p : Transaction} (h : p.Hydrated) {o : Outpoint}
    (ho : p.batonOutput = some o) : 2 ≤ o.vout.toNat := by
  have hfield : ∀ {b : Bytes}, BatonField b → (!b.isEmpty) = true →
      2 ≤ (UInt32.ofNat (beValue b)).toNat := by
    intro b hb hne
    rcases hb with rfl | ⟨hlen, h2⟩
    · simp at hne
    · have hlt := leValue_lt b.reverse
      rw [List.length_reverse, hlen] at hlt
      simp only [beValue] at h2 ⊢
      rwa [UInt32.toNat_ofNat_of_lt' (by rw [UInt32.size]; omega)]
  obtain ⟨-, ps, t, hrec, -, hslpTx, -⟩ :=
    h.slp_record (isAuthority_of_batonOutput ho).ne_invalid
  unfold batonOutput at ho
  rw [hslpTx] at ho
  cases hrec with
  | genesis hty hh hd hb hq hc =>
      simp only at ho
      split_ifs at ho with hbaton
      rw [← Option.some.inj ho]
      exact hfield hb hbaton.1
  | mint hty hne hid hb hq =>
      simp only at ho
      split_ifs at ho with hbaton
      rw [← Option.some.inj ho]
      exact hfield hb hbaton.1
  | send => simp at ho

end Transaction

namespace Slpdb

/-- A token of the store; an unknown one has nothing. -/
def token (db : Slpdb) (tokenid : Tokenid) : SlpToken :=
  (db.tokens.lookup tokenid).getD ⟨tokenid, ∅, ∅, none⟩

theorem mem_tokens_of_held {db : Slpdb} {tokenid : Tokenid} {o : Outpoint}
    (h : o ∈ (db.token tokenid).utxos) : tokenid ∈ db.tokens.keys := by
  rw [Finmap.mem_keys]
  by_contra hmem
  rw [token, Finmap.lookup_eq_none.mpr hmem] at h
  exact Finmap.notMem_empty h

theorem token_of_lookup {db : Slpdb} {tokenid : Tokenid} {token : SlpToken}
    (h : db.tokens.lookup tokenid = some token) : db.token tokenid = token := by
  rw [Slpdb.token, h, Option.getD_some]

theorem token_insert (tokens : HashMap Tokenid SlpToken) (index : HashMap Outpoint Tokenid)
    (k x : Tokenid) (token : SlpToken) :
    (⟨Finmap.insert k token tokens, index⟩ : Slpdb).token x =
      if x = k then token else (⟨tokens, index⟩ : Slpdb).token x := by
  unfold Slpdb.token
  rw [HashMap.lookup_insert]
  split_ifs <;> rfl

/-- `tx` was added to its token. -/
structure Records (db db' : Slpdb) (tx : Transaction) : Prop where
  tokens : ∀ t, t ∈ db'.tokens ↔ t = tx.slp.tokenid ∨ t ∈ db.tokens
  transactions : ∀ t x, x ∈ (db'.token t).transactions ↔
    t = tx.slp.tokenid ∧ x = tx.txid ∨ x ∈ (db.token t).transactions
  utxos : ∀ t o, (db'.token t).utxos.lookup o =
    ((db.token t).utxos.lookup o).or (if t = tx.slp.tokenid then tx.tokenOutput o else none)
  baton : ∀ t, (db'.token t).mintBatonOutpoint =
    if t = tx.slp.tokenid then tx.batonOutput.or (db.token t).mintBatonOutpoint
    else (db.token t).mintBatonOutpoint
  index : ∀ o, db'.utxoToTokenid.lookup o = (db.utxoToTokenid.lookup o).or
    (if tx.tokenOutput o ≠ none ∨ tx.batonOutput = some o then some tx.slp.tokenid else none)

/-- When `add_transaction` does not drop the transaction. -/
def Accepts (db : Slpdb) (tx : Transaction) : Prop :=
  match tx.slp.slpTx with
  | .genesis _ => 2 ≤ tx.outputs.length
  | .mint _ => tx.slp.tokenid ∈ db.tokens ∧
      ∃ o ∈ tx.inputs, (db.token tx.slp.tokenid).mintBatonOutpoint = some o
  | .send s => tx.slp.tokenid ∈ db.tokens ∧
      totalTokenOutputs s.amounts ≤ totalTokenInputs (db.token tx.slp.tokenid) tx.inputs
  | .invalid => False

theorem Accepts.known {db : Slpdb} {tx : Transaction} (h : db.Accepts tx) :
    tx.slp.type = .genesis ∨ tx.slp.tokenid ∈ db.tokens := by
  unfold Accepts at h
  split at h
  · rename_i s hs
    exact .inl (SlpTransaction.type_eq_genesis.mpr ⟨s, hs⟩)
  · exact .inr h.1
  · exact .inr h.1
  · exact absurd h not_false

/-- Whoever creates a baton spends the current one. -/
theorem Accepts.baton {db : Slpdb} {tx : Transaction} (h : db.Accepts tx)
    (hnew : tx.slp.type = .genesis → tx.slp.tokenid ∉ db.tokens) (hb : tx.batonOutput ≠ none)
    {o : Outpoint} (ho : (db.token tx.slp.tokenid).mintBatonOutpoint = some o) :
    o ∈ tx.inputs := by
  unfold Accepts at h
  split at h
  · rename_i s hs
    have hnone := Finmap.lookup_eq_none.mpr (hnew (SlpTransaction.type_eq_genesis.mpr ⟨s, hs⟩))
    simp [token, hnone] at ho
  · obtain ⟨-, o', ho', hcur⟩ := h
    rw [hcur, Option.some.injEq] at ho
    exact ho ▸ ho'
  · rename_i s hs
    simp [batonOutput, hs] at hb
  · exact absurd h not_false

/-- Storing `token` for `tx`, from what it has beyond the token stored before. -/
theorem Records.insert {db : Slpdb} {tx : Transaction} {tokenid : Tokenid} {token : SlpToken}
    {index : HashMap Outpoint Tokenid} (hid : tx.slp.tokenid = tokenid)
    (htx : ∀ x, x ∈ token.transactions ↔ x = tx.txid ∨ x ∈ (db.token tokenid).transactions)
    (hutxos : ∀ o, token.utxos.lookup o =
      ((db.token tokenid).utxos.lookup o).or (tx.tokenOutput o))
    (hbaton : token.mintBatonOutpoint = tx.batonOutput.or (db.token tokenid).mintBatonOutpoint)
    (hindex : ∀ o, index.lookup o = (db.utxoToTokenid.lookup o).or
      (if tx.tokenOutput o ≠ none ∨ tx.batonOutput = some o then some tokenid else none)) :
    Records db ⟨Finmap.insert tokenid token db.tokens, index⟩ tx where
  tokens t := hid ▸ Finmap.mem_insert
  transactions := by
    intro t x
    rw [token_insert, hid]
    split_ifs with ht
    · subst ht
      simp [htx]
    · simp [ht, Slpdb.token]
  utxos := by
    intro t o
    rw [token_insert, hid]
    split_ifs with ht
    · subst ht
      exact hutxos o
    · rw [Option.or_none]
      rfl
  baton := by
    intro t
    rw [token_insert, hid]
    split_ifs with ht
    · subst ht
      exact hbaton
    · rfl
  index := hid ▸ hindex

theorem addGenesis_records {db : Slpdb} {tx : Transaction} {s : SlpTransactionGenesis}
    (hs : tx.slp.slpTx = .genesis s) (hid : tx.slp.tokenid = tx.txid)
    (hknown : tx.txid ∈ db.tokens → tx.txid ∈ (db.token tx.txid).transactions)
    (hout : 2 ≤ tx.outputs.length) : Records db (db.addGenesis tx s) tx := by
  obtain ⟨token, htoken⟩ : ∃ token, (db.tokens.lookup tx.txid).getD (.ofGenesis tx) = token :=
    ⟨_, rfl⟩
  obtain ⟨htx, hutxos, hcur⟩ : (∀ x, x ∈ token.transactions ↔
      x = tx.txid ∨ x ∈ (db.token tx.txid).transactions) ∧
      token.utxos = (db.token tx.txid).utxos ∧
      token.mintBatonOutpoint = (db.token tx.txid).mintBatonOutpoint := by
    rw [← htoken, Slpdb.token]
    cases hl : db.tokens.lookup tx.txid with
    | none => exact ⟨fun x => by simp [SlpToken.ofGenesis], rfl, rfl⟩
    | some old =>
        have hmem := hknown (Finmap.mem_iff.mpr ⟨old, hl⟩)
        rw [token_of_lookup hl] at hmem
        refine ⟨fun x => (or_iff_right_of_imp ?_).symm, rfl, rfl⟩
        rintro rfl
        exact hmem
  unfold addGenesis
  rw [if_neg (by omega)]
  simp only [htoken]
  split_ifs with hbaton
  · refine Records.insert hid htx (fun o => ?_) ?_ fun o => ?_
    · simp [hutxos, HashMap.lookup_emplace_or, tokenOutput_genesis hs]
    · simp [batonOutput_genesis hs, hbaton]
    · rw [HashMap.lookup_emplace_or, HashMap.lookup_emplace_or, Option.or_assoc,
        tokenOutput_genesis hs, batonOutput_genesis hs, if_pos hbaton]
      by_cases ho : o = ⟨tx.txid, 1⟩
      · simp [ho]
      · simp [ho, eq_comm]
  · refine Records.insert hid htx (fun o => ?_) ?_ fun o => ?_
    · simp [hutxos, HashMap.lookup_emplace_or, tokenOutput_genesis hs]
    · simp [batonOutput_genesis hs, hbaton, hcur]
    · rw [HashMap.lookup_emplace_or, tokenOutput_genesis hs, batonOutput_genesis hs, if_neg hbaton]
      simp

theorem addMint_records {db : Slpdb} {tx : Transaction} {s : SlpTransactionMint}
    (hs : tx.slp.slpTx = .mint s) (h : db.Accepts tx) : Records db (db.addMint tx s) tx := by
  simp only [Accepts, hs] at h
  obtain ⟨hmem, baton, hin, hbat⟩ := h
  obtain ⟨token, htoken⟩ := Finmap.mem_iff.mp hmem
  have hold := token_of_lookup htoken
  rw [hold] at hbat
  unfold addMint
  simp only [htoken, hbat, not_not.mpr hin, if_false]
  split_ifs with hbaton
  · have hb := batonOutput_mint hs
    rw [if_pos hbaton] at hb
    refine Records.insert rfl (fun x => ?_) (fun o => ?_) ?_ fun o => ?_
    · simp [hold]
    · rw [HashMap.lookup_emplace_or, HashMap.lookup_emplace_or, Option.or_assoc, hold,
        tokenOutput_mint hs, hb]
      by_cases ho : o = ⟨tx.txid, 1⟩
      · simp [ho]
      · simp [ho, eq_comm]
    · simp [hb]
    · rw [HashMap.lookup_emplace_or, HashMap.lookup_emplace_or, Option.or_assoc,
        tokenOutput_mint hs, hb]
      by_cases ho : o = ⟨tx.txid, 1⟩
      · simp [ho]
      · by_cases ho' : o = ⟨tx.txid, s.mintBatonVout⟩
        · rw [if_neg ho, Option.none_or, if_pos ho', if_pos (.inr (by rw [ho']))]
        · simp [ho, Ne.symm ho', ho']
  · have hb := batonOutput_mint hs
    rw [if_neg hbaton] at hb
    refine Records.insert rfl (fun x => ?_) (fun o => ?_) ?_ fun o => ?_
    · simp [hold]
    · simp [hold, HashMap.lookup_emplace_or, tokenOutput_mint hs, hb]
    · simp [hb, hold, hbat]
    · rw [HashMap.lookup_emplace_or, tokenOutput_mint hs, hb]
      simp

/-- The outputs that `addSend` creates are those of `tokenOutput`. -/
theorem find?_created {tx : Transaction} (h : tx.Hydrated) {s : SlpTransactionSend}
    (hs : tx.slp.slpTx = .send s) (o : Outpoint) :
    (((s.amounts.take (1 + tx.outputs.length)).mapIdx fun i amount =>
      ((⟨tx.txid, UInt32.ofNat (i + 1)⟩ : Outpoint), amount)).find? fun c => c.1 = o).map
        (fun c => (⟨c.1, c.2, false⟩ : SlpOutput)) = tx.tokenOutput o := by
  set created := (s.amounts.take (1 + tx.outputs.length)).mapIdx fun i amount =>
    ((⟨tx.txid, UInt32.ofNat (i + 1)⟩ : Outpoint), amount) with hcreated
  have hmem : ∀ c, c ∈ created ↔ tx.tokenOutput c.1 = some ⟨c.1, c.2, false⟩ := by
    intro c
    rw [hcreated, List.mem_mapIdx, tokenOutput_send h hs]
    constructor
    · rintro ⟨i, hi, rfl⟩
      exact ⟨i, _, List.getElem?_eq_getElem hi, rfl, rfl⟩
    · rintro ⟨i, amount, ha, hc, hu⟩
      obtain ⟨hi, rfl⟩ := List.getElem?_eq_some_iff.mp ha
      rw [SlpOutput.mk.injEq] at hu
      exact ⟨i, hi, Prod.ext hc.symm hu.2.1.symm⟩
  cases hf : created.find? fun c => c.1 = o with
  | some c =>
      obtain rfl : c.1 = o := by simpa using List.find?_some hf
      rw [Option.map_some, (hmem c).mp (List.mem_of_find?_eq_some hf)]
  | none =>
      rw [Option.map_none, eq_comm, Option.eq_none_iff_forall_ne_some]
      intro u hu
      obtain ⟨i, amount, ha, ho, rfl⟩ := (tokenOutput_send h hs).mp hu
      have hnone := List.find?_eq_none.mp hf (o, amount) ((hmem _).mpr hu)
      simp at hnone

theorem addSend_records {db : Slpdb} {tx : Transaction} (htx : tx.Hydrated)
    {s : SlpTransactionSend} (hs : tx.slp.slpTx = .send s) (h : db.Accepts tx) :
    Records db (db.addSend tx s) tx := by
  simp only [Accepts, hs] at h
  obtain ⟨hmem, hsum⟩ := h
  obtain ⟨token, htoken⟩ := Finmap.mem_iff.mp hmem
  have hold := token_of_lookup htoken
  rw [hold] at hsum
  have hb : tx.batonOutput = none := by simp only [batonOutput, hs]
  unfold addSend
  simp only [htoken]
  rw [if_neg (BitVec.not_lt.mpr hsum)]
  refine Records.insert rfl (fun x => ?_) (fun o => ?_) ?_ fun o => ?_
  · simp [hold]
  · rw [hold, HashMap.lookup_foldl_emplace Prod.fst fun c => (⟨c.1, c.2, false⟩ : SlpOutput),
      find?_created htx hs]
  · simp [hold, hb]
  · rw [HashMap.lookup_foldl_emplace Prod.fst fun _ => tx.slp.tokenid, ← find?_created htx hs, hb]
    cases List.find? (fun c : Outpoint × UInt64 => decide (c.1 = o)) _ <;> simp

/-- `add_transaction` records what it accepts. A known GENESIS must be recorded already. -/
theorem addTransaction_records {db : Slpdb} {tx : Transaction} (htx : tx.Hydrated)
    (hknown : tx.slp.type = .genesis → tx.txid ∈ db.tokens →
      tx.txid ∈ (db.token tx.txid).transactions) (h : db.Accepts tx) :
    Records db (db.addTransaction tx) tx := by
  unfold addTransaction
  cases hs : tx.slp.slpTx with
  | invalid => simp [Accepts, hs] at h
  | genesis s =>
      exact addGenesis_records hs (htx.genesis hs).1
        (hknown (SlpTransaction.type_eq_genesis.mpr ⟨s, hs⟩)) (by simpa only [Accepts, hs] using h)
  | mint s => exact addMint_records hs h
  | send s => exact addSend_records htx hs h

/-- `add_transaction` drops the rest. -/
theorem addTransaction_dropped {db : Slpdb} {tx : Transaction} (h : ¬ db.Accepts tx) :
    db.addTransaction tx = db := by
  unfold addTransaction
  cases hs : tx.slp.slpTx with
  | invalid => rfl
  | genesis s =>
      simp only [Accepts, hs, not_le] at h
      exact if_pos h
  | mint s =>
      simp only [Accepts, hs] at h
      simp only [addMint]
      split
      · rfl
      · rename_i token htoken
        split
        · rfl
        · rename_i baton hbaton
          refine if_pos fun hin => h ⟨Finmap.mem_iff.mpr ⟨_, htoken⟩, baton, hin, ?_⟩
          rw [token_of_lookup htoken, hbaton]
  | send s =>
      simp only [Accepts, hs] at h
      simp only [addSend]
      split
      · rfl
      · rename_i token htoken
        refine if_pos (BitVec.not_le.mp fun hsum => h ⟨Finmap.mem_iff.mpr ⟨_, htoken⟩, ?_⟩)
        rwa [token_of_lookup htoken]

/-! ## Spending -/

/-- The outpoint left the outputs of its token. -/
structure Spends (db db' : Slpdb) (m : Outpoint) : Prop where
  tokens : ∀ t, t ∈ db'.tokens ↔ t ∈ db.tokens
  transactions : ∀ t, (db'.token t).transactions = (db.token t).transactions
  utxos : ∀ t o, (db'.token t).utxos.lookup o =
    if o = m ∧ db.utxoToTokenid.lookup m = some t then none else (db.token t).utxos.lookup o
  baton : ∀ t, (db'.token t).mintBatonOutpoint = (db.token t).mintBatonOutpoint ∨
    (db.token t).mintBatonOutpoint = some m ∧ (db'.token t).mintBatonOutpoint = none
  index : db'.utxoToTokenid = db.utxoToTokenid

theorem spend_spends {db db' : Slpdb} {m : Outpoint} (h : db.spend m = .ok db') :
    Spends db db' m := by
  unfold Slpdb.spend at h
  split at h
  · rename_i hm
    obtain rfl := Except.ok.inj h
    exact ⟨fun _ => .rfl, fun _ => rfl, fun t o => by simp [hm], fun _ => .inl rfl, rfl⟩
  · rename_i tokenid hm
    split at h
    · simp at h
    · rename_i token htoken
      have hold := token_of_lookup htoken
      by_cases hmem : m ∉ token.utxos
      · rw [if_pos hmem] at h
        obtain rfl := Except.ok.inj h
        refine ⟨fun _ => .rfl, fun _ => rfl, fun t o => ?_, fun _ => .inl rfl, rfl⟩
        split_ifs with ho
        · obtain ⟨rfl, ht⟩ := ho
          obtain rfl := Option.some.inj (hm.symm.trans ht)
          rw [hold, Finmap.lookup_eq_none.mpr hmem]
        · rfl
      · rw [if_neg hmem] at h
        obtain rfl := Except.ok.inj h
        refine ⟨fun t => ?_, fun t => ?_, fun t o => ?_, fun t => ?_, rfl⟩
        · rw [Finmap.mem_insert]
          constructor
          · rintro (rfl | ht)
            · exact Finmap.mem_iff.mpr ⟨_, htoken⟩
            · exact ht
          · exact .inr
        · rw [token_insert]
          by_cases ht : t = tokenid
          · rw [if_pos ht, ht, hold]
          · rw [if_neg ht]
        · rw [token_insert]
          by_cases ht : t = tokenid
          · subst ht
            simp only [if_true, hm, and_true, hold, HashMap.lookup_erase]
          · rw [if_neg ht, if_neg fun hc => ht (Option.some.inj (hc.2.symm.trans hm))]
        · rw [token_insert]
          by_cases ht : t = tokenid
          · rw [if_pos ht, ht, hold]
            by_cases hb : token.mintBatonOutpoint = some m
            · exact .inr ⟨hb, if_pos hb⟩
            · exact .inl (if_neg hb)
          · rw [if_neg ht]
            exact .inl rfl

end Slpdb
end SlpGraphSearch
