import SlpGraphSearch.Transaction

/-!
# The validator

`slp_validator` keeps every transaction it was given and the ids of those it
accepted. A verdict is computed when a transaction is added, from the verdicts
already there; a rejected transaction stays in the map.

The checks recurse into each other and `check_mint` loops. The model bounds both,
and a run that reaches a bound ends with `exhausted`.
-/
namespace SlpGraphSearch
open Library

structure Validator where
  transactionMap : TransactionMap
  valid : Finset Txid

namespace Validator

def empty : Validator := ⟨∅, ∅⟩

def has (s : Validator) (txid : Txid) : Bool := txid ∈ s.transactionMap

def hasValid (s : Validator) (txid : Txid) : Bool := txid ∈ s.valid

/-- `transaction_map.at`. -/
def get (s : Validator) (txid : Txid) : Except Failure Transaction :=
  match s.transactionMap.lookup txid with
  | none => .error .outOfRange
  | some tx => .ok tx

def addValidTxid (s : Validator) (txid : Txid) : Bool × Validator :=
  (¬ s.hasValid txid, { s with valid := insert txid s.valid })

def removeTx (s : Validator) (txid : Txid) : Bool × Validator :=
  (s.has txid, { s with transactionMap := s.transactionMap.erase txid })

/-! ## SEND -/

/-- One input of the loop of `check_send`; `check` is `check_outputs_valid`. -/
def addInputAmount (s : Validator)
    (check : Finset Txid → Transaction → Except Failure (Bool × Finset Txid)) (tx : Transaction)
    (acc : Finset Txid × BitVec 128) (o : Outpoint) :
    Except Failure (Finset Txid × BitVec 128) :=
  if ¬ s.hasValid o.txid then .ok acc
  else match s.transactionMap.lookup o.txid with
    | none => .ok acc
    | some txi =>
        if tx.slp.tokenType ≠ txi.slp.tokenType then .ok acc
        else if tx.slp.tokenid ≠ txi.slp.tokenid then .ok acc
        else do
          let (outputsValid, seen) ← check acc.1 txi
          if ¬ outputsValid then .ok (seen, acc.2)
          else .ok (seen, acc.2 + (txi.outputSlpAmount o.vout.toNat).toBitVec.setWidth 128)

/-- The sum of the amounts in 128 bits. -/
def sumAmounts (amounts : List UInt64) : BitVec 128 :=
  amounts.foldl (fun acc n => acc + n.toBitVec.setWidth 128) 0

def checkSend (s : Validator)
    (check : Finset Txid → Transaction → Except Failure (Bool × Finset Txid))
    (seen : Finset Txid) (tx : Transaction) : Except Failure (Bool × Finset Txid) :=
  match tx.slp.slpTx with
  | .send send => do
      let outputAmount := sumAmounts send.amounts
      let (seen, inputAmount) ← tx.inputs.foldlM (s.addInputAmount check tx) (seen, 0)
      if inputAmount < outputAmount then .ok (false, seen) else .ok (true, seen)
  | _ => .error .badVariantAccess

/-! ## MINT -/

/-- One input of `walk_mints_home`. -/
def mintParent (s : Validator) (front : Transaction) (o : Outpoint) : Option Transaction :=
  if ¬ s.hasValid o.txid then none
  else match s.transactionMap.lookup o.txid with
    | none => none
    | some txi =>
        if front.slp.tokenid ≠ txi.slp.tokenid then none
        else if front.slp.tokenType ≠ txi.slp.tokenType then none
        else if o ≠ txi.mintBatonOutpoint then none
        else if txi.slp.type = .mint then some txi
        else if txi.slp.type = .genesis then some txi
        else none

def walkMintsHome (s : Validator) (front back : Transaction) : List Transaction :=
  if front.slp.tokenid ≠ back.slp.tokenid then []
  else if front.slp.tokenType ≠ back.slp.tokenType then []
  else back.inputs.filterMap (s.mintParent front)

/-- The loop of `check_mint`, with the "mint rare condition" as an error. -/
def checkMintLoop (s : Validator) : ℕ → Transaction → List Transaction → Except Failure Bool
  | 0, _, _ => .error .exhausted
  | fuel + 1, back, inputTxs =>
      if inputTxs.any fun front => front.slp.type = .genesis then .ok true
      else match inputTxs.flatMap fun front => s.walkMintsHome back front with
        | [] => .ok false
        | i :: rest =>
            if rest.any fun txi => i.txid ≠ txi.txid then .error .runtimeError
            else if s.hasValid i.txid then .ok true
            else s.checkMintLoop fuel i (i :: rest)

def checkMint (s : Validator) (tx : Transaction) : Except Failure Bool :=
  s.checkMintLoop (s.valid.card + 1) tx (s.walkMintsHome tx tx)

/-! ## GENESIS -/

/-- The child GENESIS looks at its first input; `validate` is the overload on
transactions. -/
def checkGenesis (s : Validator) (validate : Transaction → Except Failure Bool)
    (tx : Transaction) : Except Failure Bool :=
  if tx.slp.tokenType = 0x41 then
    match tx.inputs with
    | [] => .ok false
    | o :: _ =>
        if ¬ s.hasValid o.txid then .ok false
        else match s.transactionMap.lookup o.txid with
          | none => .ok false
          | some txi =>
              if txi.slp.tokenType ≠ 0x81 then .ok false
              else if txi.outputSlpAmount o.vout.toNat < 1 then .ok false
              else validate txi
  else .ok true

/-! ## Verdicts -/

mutual

def checkOutputsValid (s : Validator) :
    ℕ → Finset Txid → Transaction → Except Failure (Bool × Finset Txid)
  | 0, _, _ => .error .exhausted
  | fuel + 1, seen, tx =>
      if ¬ s.has tx.txid then .ok (false, seen)
      else if tx.txid ∈ seen then .ok (true, seen)
      else
        let seen := insert tx.txid seen
        if s.hasValid tx.txid then .ok (true, seen)
        else match tx.slp.type with
          | .send => s.checkSend (s.checkOutputsValid fuel) seen tx
          | .mint => do .ok (← s.checkMint tx, seen)
          | .genesis => do .ok (← s.checkGenesis (s.validateTx fuel) tx, seen)
          | .invalid => .ok (false, seen)

/-- `validate(const gs::transaction &)`. -/
def validateTx (s : Validator) : ℕ → Transaction → Except Failure Bool
  | 0, _ => .error .exhausted
  | fuel + 1, tx =>
      if tx.slp.type = .invalid then .ok false
      else if s.hasValid tx.txid then .ok true
      else match tx.slp.type with
        | .send => do .ok (← s.checkSend (s.checkOutputsValid fuel) ∅ tx).1
        | .mint => s.checkMint tx
        | .genesis => s.checkGenesis (s.validateTx fuel) tx
        | .invalid => .ok false

end

/-- `validate(const gs::txid &)`. -/
def validate (s : Validator) (txid : Txid) : Except Failure (Bool × Validator) :=
  if ¬ s.has txid then .ok (false, s)
  else do
    let tx ← s.get txid
    let isValid ← s.validateTx (s.valid.card + 2) tx
    .ok (isValid, if isValid then (s.addValidTxid txid).2 else s)

def addTx (s : Validator) (tx : Transaction) (trusted : Bool) :
    Except Failure (Bool × Validator) :=
  if tx.slp.type ≠ .invalid then
    let inserted := decide (¬ s.has tx.txid)
    let s := { s with transactionMap := s.transactionMap.emplace tx }
    if trusted then .ok (inserted, (s.addValidTxid tx.txid).2)
    else do
      let (isValid, s) ← s.validate tx.txid
      if isValid then .ok (inserted, s) else .ok (false, s)
  else .ok (false, s)

/-- `add_tx(tx, false)` for each transaction in turn, the flags dropped. -/
def addTxs (s : Validator) (txs : List Transaction) : Except Failure Validator :=
  txs.foldlM (fun s tx => do .ok (← s.addTx tx false).2) s

end Validator
end SlpGraphSearch
