import SlpGraphSearch.Transaction

/-!
# The token store

`slpdb` follows every token on its own: the transactions it accepted for the
token, the token's outputs and its current baton. It refuses transactions whose
token it does not know.
-/
namespace SlpGraphSearch
open Library

structure SlpOutput where
  outpoint : Outpoint
  amount : UInt64
  isMintBaton : Bool
deriving DecidableEq

structure SlpToken where
  tokenid : Tokenid
  transactions : TransactionMap
  utxos : HashMap Outpoint SlpOutput
  mintBatonOutpoint : Option Outpoint

structure Slpdb where
  tokens : HashMap Tokenid SlpToken
  utxoToTokenid : HashMap Outpoint Tokenid

/-- `slp_token(const gs::transaction &)`. -/
def SlpToken.ofGenesis (tx : Transaction) : SlpToken :=
  ⟨tx.txid, (∅ : TransactionMap).emplace tx, ∅, none⟩

namespace Slpdb

def empty : Slpdb := ⟨∅, ∅⟩

/-- A GENESIS with at least two outputs opens its token. The baton enters the
reverse index but not the outputs of the token. -/
def addGenesis (db : Slpdb) (tx : Transaction) (slp : SlpTransactionGenesis) : Slpdb :=
  if tx.outputs.length < 2 then db
  else
    let tokenid : Tokenid := tx.txid
    let token := (db.tokens.lookup tokenid).getD (.ofGenesis tx)
    let outpoint : Outpoint := ⟨tx.txid, 1⟩
    let token := { token with utxos := token.utxos.emplace outpoint ⟨outpoint, slp.qty, false⟩ }
    let utxoToTokenid := db.utxoToTokenid.emplace outpoint tokenid
    if slp.hasMintBaton ∧ slp.mintBatonVout.toNat < tx.outputs.length then
      let mintBatonOutpoint : Outpoint := ⟨tx.txid, slp.mintBatonVout⟩
      let token := { token with mintBatonOutpoint := some mintBatonOutpoint }
      ⟨Finmap.insert tokenid token db.tokens, utxoToTokenid.emplace mintBatonOutpoint tokenid⟩
    else ⟨Finmap.insert tokenid token db.tokens, utxoToTokenid⟩

/-- A MINT must spend the current baton of its token. -/
def addMint (db : Slpdb) (tx : Transaction) (slp : SlpTransactionMint) : Slpdb :=
  match db.tokens.lookup tx.slp.tokenid with
  | none => db
  | some token =>
      match token.mintBatonOutpoint with
      | none => db
      | some baton =>
          if baton ∉ tx.inputs then db
          else
            let outpoint : Outpoint := ⟨tx.txid, 1⟩
            let token := { token with
              transactions := token.transactions.emplace tx
              utxos := token.utxos.emplace outpoint ⟨outpoint, slp.qty, false⟩ }
            let utxoToTokenid := db.utxoToTokenid.emplace outpoint tx.slp.tokenid
            if slp.hasMintBaton ∧ slp.mintBatonVout.toNat < tx.outputs.length then
              let mintBatonOutpoint : Outpoint := ⟨tx.txid, slp.mintBatonVout⟩
              let token := { token with
                mintBatonOutpoint := some mintBatonOutpoint
                utxos := token.utxos.emplace mintBatonOutpoint ⟨outpoint, 0, true⟩ }
              ⟨Finmap.insert tx.slp.tokenid token db.tokens,
                utxoToTokenid.emplace mintBatonOutpoint tx.slp.tokenid⟩
            else ⟨Finmap.insert tx.slp.tokenid token db.tokens, utxoToTokenid⟩

/-- The token amounts of the inputs, in 128 bits. -/
def totalTokenInputs (token : SlpToken) (inputs : List Outpoint) : BitVec 128 :=
  inputs.foldl (fun total o =>
    match token.utxos.lookup o with
    | none => total
    | some utxo => total + utxo.amount.toBitVec.setWidth 128) 0

def totalTokenOutputs (amounts : List UInt64) : BitVec 128 :=
  amounts.foldl (fun total amount => total + amount.toBitVec.setWidth 128) 0

/-- A SEND must not send more than its inputs hold. Outputs are recorded for
`i < 1 + tx.outputs.size()`, two more than there are token outputs. -/
def addSend (db : Slpdb) (tx : Transaction) (slp : SlpTransactionSend) : Slpdb :=
  match db.tokens.lookup tx.slp.tokenid with
  | none => db
  | some token =>
      if totalTokenInputs token tx.inputs < totalTokenOutputs slp.amounts then db
      else
        let created : List (Outpoint × UInt64) :=
          (slp.amounts.take (1 + tx.outputs.length)).mapIdx fun i amount =>
            (⟨tx.txid, UInt32.ofNat (i + 1)⟩, amount)
        let utxos := created.foldl (fun utxos c => utxos.emplace c.1 ⟨c.1, c.2, false⟩) token.utxos
        let utxoToTokenid :=
          created.foldl (fun m c => m.emplace c.1 tx.slp.tokenid) db.utxoToTokenid
        let token := { token with
          utxos := utxos
          transactions := token.transactions.emplace tx }
        ⟨Finmap.insert tx.slp.tokenid token db.tokens, utxoToTokenid⟩

def addTransaction (db : Slpdb) (tx : Transaction) : Slpdb :=
  match tx.slp.slpTx with
  | .invalid => db
  | .genesis slp => db.addGenesis tx slp
  | .mint slp => db.addMint tx slp
  | .send slp => db.addSend tx slp

/-- The token part of an input in `process_block`. A spent output stays in the
reverse index. -/
def spend (db : Slpdb) (m : Outpoint) : Except Failure Slpdb :=
  match db.utxoToTokenid.lookup m with
  | none => .ok db
  | some tokenid =>
      match db.tokens.lookup tokenid with
      | none => .error .assertion
      | some token =>
          if m ∉ token.utxos then .ok db
          else
            let token := { token with
              utxos := Finmap.erase m token.utxos
              mintBatonOutpoint :=
                if token.mintBatonOutpoint = some m then none else token.mintBatonOutpoint }
            .ok { db with tokens := Finmap.insert tokenid token db.tokens }

/-- The reverse index only names known tokens. -/
def Indexed (db : Slpdb) : Prop :=
  ∀ o tokenid, db.utxoToTokenid.lookup o = some tokenid → tokenid ∈ db.tokens

theorem Indexed.empty : Slpdb.empty.Indexed := fun o tokenid h => by
  simp [Slpdb.empty, Finmap.lookup_empty] at h

/-- Storing a token and indexing outputs under it keeps the index sound. -/
theorem Indexed.insert {db : Slpdb} (h : db.Indexed) {tokenid : Tokenid} {token : SlpToken}
    {index : HashMap Outpoint Tokenid}
    (hindex : ∀ o t, index.lookup o = some t → t = tokenid ∨ db.utxoToTokenid.lookup o = some t) :
    (⟨Finmap.insert tokenid token db.tokens, index⟩ : Slpdb).Indexed := by
  intro o t ht
  rcases hindex o t ht with rfl | ht
  · exact Finmap.mem_insert.mpr (.inl rfl)
  · exact Finmap.mem_insert.mpr (.inr (h o t ht))

theorem lookup_emplace_cases {index : HashMap Outpoint Tokenid} {k o : Outpoint}
    {tokenid t : Tokenid} (h : (index.emplace k tokenid).lookup o = some t) :
    t = tokenid ∨ index.lookup o = some t := by
  rw [HashMap.lookup_emplace] at h
  split_ifs at h with ho
  · subst ho
    rw [Option.some.injEq] at h
    cases hl : index.lookup o with
    | none => exact .inl (by rw [← h, hl, Option.getD_none])
    | some u => exact .inr (by rw [← h, hl, Option.getD_some])
  · exact .inr h

theorem lookup_foldl_emplace_cases {created : List (Outpoint × UInt64)}
    {index : HashMap Outpoint Tokenid} {o : Outpoint} {tokenid t : Tokenid}
    (h : (created.foldl (fun m c => m.emplace c.1 tokenid) index).lookup o = some t) :
    t = tokenid ∨ index.lookup o = some t := by
  induction created generalizing index with
  | nil => exact .inr h
  | cons c created ih =>
      rcases ih h with ht | ht
      · exact .inl ht
      · exact lookup_emplace_cases ht

theorem Indexed.addTransaction {db : Slpdb} (h : db.Indexed) (tx : Transaction) :
    (db.addTransaction tx).Indexed := by
  unfold Slpdb.addTransaction
  cases tx.slp.slpTx with
  | invalid => exact h
  | genesis slp =>
      simp only [addGenesis]
      split_ifs
      · exact h
      · exact h.insert fun o t ht => (lookup_emplace_cases ht).elim .inl lookup_emplace_cases
      · exact h.insert fun o t ht => lookup_emplace_cases ht
  | mint slp =>
      simp only [addMint]
      split
      · exact h
      · split
        · exact h
        · split_ifs
          · exact h.insert fun o t ht => (lookup_emplace_cases ht).elim .inl lookup_emplace_cases
          · exact h.insert fun o t ht => lookup_emplace_cases ht
          · exact h
  | send slp =>
      simp only [addSend]
      split
      · exact h
      · split_ifs
        · exact h
        · exact h.insert fun o t ht => lookup_foldl_emplace_cases ht

/-- The assertion of `process_block` holds. -/
theorem Indexed.spend {db : Slpdb} (h : db.Indexed) (m : Outpoint) :
    ∃ db', db.spend m = .ok db' ∧ db'.Indexed := by
  unfold Slpdb.spend
  cases hm : db.utxoToTokenid.lookup m with
  | none => exact ⟨db, rfl, h⟩
  | some tokenid =>
      obtain ⟨token, htoken⟩ := Finmap.mem_iff.mp (h m tokenid hm)
      simp only [htoken]
      by_cases hmem : m ∉ token.utxos
      · exact ⟨db, if_pos hmem, h⟩
      · exact ⟨_, if_neg hmem, h.insert fun o t ht => .inr ht⟩

end Slpdb
end SlpGraphSearch
