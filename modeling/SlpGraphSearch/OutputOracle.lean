import SlpGraphSearch.ServerSpec
import SlpGraphSearch.SlpdbSpec
import SlpGraphSearch.TransactionEncoder

/-!
# The output oracle

`OutputOracle` signs a statement about one output of a valid transaction: its token,
its amount and whether it is the mint baton. Both helpers it asks answer with sentinels.
`mint_baton_outpoint` says output 0 where there is no baton, and `output_slp_amount`
reads the amounts of the message without a look at the outputs, so some statements are
false. The signature scheme is a parameter.
-/
namespace SlpGraphSearch
open Library Transaction

structure OutputOracleReply where
  msg : Bhash
  sig : Bytes
  tx : Bytes
  vout : UInt32
  tokenid : Tokenid
  tokentype : UInt16
  value : UInt64
  isBaton : Bool
  groupid : Option Tokenid

/-- The signed bytes and the reply fields computed on the way. -/
structure Attestation where
  preimage : Bytes
  value : UInt64
  isBaton : Bool
  groupid : Option Tokenid

/-- `txid`, `vout`, `tokenid` and `tokentype`. -/
def preimageHead (tx : Transaction) (vout : UInt32) : Bytes :=
  tx.txid.v ++ (leBytes 4 vout.toNat ++ (tx.slp.tokenid.v ++ leBytes 2 tx.slp.tokenType.toNat))

/-- The shared body of the branches for the types `0x01` and `0x81`. -/
def amountAttestation (tx : Transaction) (vout : UInt32) : Attestation :=
  let value := tx.outputSlpAmount vout.toNat
  let isBaton := decide (tx.mintBatonOutpoint.vout = vout)
  ⟨preimageHead tx vout ++ (leBytes 8 value.toNat ++ [if isBaton then 1 else 0]),
    value, isBaton, none⟩

/-- The group of a child is the token of the transaction behind its first input. -/
def groupAttestation (v : Validator) (tx : Transaction) (vout : UInt32) :
    Except Failure Attestation := do
  let _ ← v.get tx.slp.tokenid
  match tx.inputs with
  | [] => .error .outOfBounds
  | o :: _ => do
      let txi ← v.get o.txid
      .ok ⟨preimageHead tx vout ++ txi.slp.tokenid.v, 0, false, some txi.slp.tokenid⟩

/-- For any other token type, which no decoded transaction has, the code hashes no bytes and
sets the hash and the signature only; the reply of the model has the other fields too. -/
def attest (v : Validator) (tx : Transaction) (vout : UInt32) : Except Failure Attestation :=
  if tx.slp.tokenType = 0x01 then .ok (amountAttestation tx vout)
  else if tx.slp.tokenType = 0x81 then .ok (amountAttestation tx vout)
  else if tx.slp.tokenType = 0x41 then groupAttestation v tx vout
  else .ok ⟨[], 0, false, none⟩

/-- `OutputOracle` on a parsed id; without a result the transaction is not valid. -/
def Server.outputOracle (s : Server) (schnorrSign : Bhash → Bytes) (lookupTxid : Txid)
    (vout : UInt32) : Except Failure (Option OutputOracleReply) :=
  if ¬ s.validator.hasValid lookupTxid then .ok none
  else do
    let tx ← s.validator.get lookupTxid
    let a ← attest s.validator tx vout
    let msg := Sha2.sha256 a.preimage
    .ok (some ⟨msg, schnorrSign msg, tx.serialized, vout, tx.slp.tokenid, tx.slp.tokenType,
      a.value, a.isBaton, a.groupid⟩)

/-! ## Reading a preimage -/

/-- The eight bytes of `value`. -/
def attestedValue (preimage : Bytes) : ℕ := leValue ((preimage.drop 70).take 8)

/-- The byte `is_baton`. -/
def attestedBaton (preimage : Bytes) : Option UInt8 := preimage[78]?

theorem length_preimageHead (tx : Transaction) (vout : UInt32) :
    (preimageHead tx vout).length = 70 := by
  simp only [preimageHead, List.length_append, tx.txid.size_eq, tx.slp.tokenid.size_eq,
    length_leBytes]

theorem attestedValue_amount (tx : Transaction) (vout : UInt32) :
    attestedValue (amountAttestation tx vout).preimage = (tx.outputSlpAmount vout.toNat).toNat := by
  have hlen := length_preimageHead tx vout
  have hlt := (tx.outputSlpAmount vout.toNat).toNat_lt
  rw [attestedValue, amountAttestation, List.drop_append_of_le_length hlen.ge,
    List.drop_of_length_le hlen.le, List.nil_append,
    List.take_left' (length_leBytes 8 _), leValue_leBytes, Nat.mod_eq_of_lt (by simpa using hlt)]

theorem attestedBaton_amount (tx : Transaction) (vout : UInt32) :
    attestedBaton (amountAttestation tx vout).preimage = some 1 ↔
      tx.mintBatonOutpoint.vout = vout := by
  have hlen := length_preimageHead tx vout
  rw [attestedBaton, amountAttestation, ← List.append_assoc, List.getElem?_append_right
    (by rw [List.length_append, hlen, length_leBytes])]
  simp [hlen]

/-! ## What is true of an output -/

namespace Transaction

/-- The message gives `amount` to output `vout`. -/
def Assigns (tx : Transaction) (vout : ℕ) (amount : UInt64) : Prop :=
  match tx.slp.slpTx with
  | .send s => 0 < vout ∧ s.amounts[vout - 1]? = some amount
  | .mint s => vout = 1 ∧ amount = s.qty
  | .genesis s => vout = 1 ∧ amount = s.qty
  | .invalid => False

/-- A positive amount is the one that the message gives to the output. -/
theorem assigns_iff {tx : Transaction} {vout : ℕ} {amount : UInt64} (h : amount ≠ 0) :
    tx.Assigns vout amount ↔ tx.outputSlpAmount vout = amount := by
  unfold Assigns outputSlpAmount
  cases tx.slp.slpTx with
  | invalid => simp [h.symm]
  | genesis s =>
      by_cases hv : vout = 1
      · simp [hv, eq_comm]
      · simp [hv, h.symm]
  | mint s =>
      by_cases hv : vout = 1
      · simp [hv, eq_comm]
      · simp [hv, h.symm]
  | send s =>
      by_cases hv : 0 < vout
      · simp only [hv, true_and, if_true, List.getD_eq_getElem?_getD]
        cases s.amounts[vout - 1]? with
        | none => simp [h.symm]
        | some a => simp
      · simp [hv, h.symm]

/-- The two readings of a baton field: the helper falls back to output 0, and an empty field,
which is read as 0, names no baton. -/
theorem baton_vout (baton : Bytes) (txid : Txid) (n : ℕ) :
    (if (UInt32.ofNat (beValue baton)).toNat < n then
        (⟨txid, UInt32.ofNat (beValue baton)⟩ : Outpoint) else ⟨txid, 0⟩).vout =
      ((if (!baton.isEmpty) = true ∧ (UInt32.ofNat (beValue baton)).toNat < n then
          some (⟨txid, UInt32.ofNat (beValue baton)⟩ : Outpoint)
        else none).map Outpoint.vout).getD 0 := by
  cases baton with
  | nil => split_ifs <;> rfl
  | cons b baton =>
      simp only [List.isEmpty_cons, Bool.not_false, true_and]
      split_ifs <;> rfl

/-- The helper answers the baton, or output 0 where there is none. -/
theorem Hydrated.mintBatonOutpoint_vout {tx : Transaction} (h : tx.Hydrated)
    (ht : tx.slp.type ≠ .invalid) :
    tx.mintBatonOutpoint.vout = (tx.batonOutput.map Outpoint.vout).getD 0 := by
  obtain ⟨-, ps, t, hrec, -, hslpTx, -⟩ := h.slp_record ht
  unfold mintBatonOutpoint batonOutput
  rw [hslpTx]
  cases hrec with
  | genesis => exact baton_vout _ tx.txid tx.outputs.length
  | mint => exact baton_vout _ tx.txid tx.outputs.length
  | send => rfl

end Transaction

/-- `OutputOracle` signs a preimage that marks output `vout` as the baton only if it is
the baton, and gives it a positive amount only if it exists and carries that amount. -/
def Server.SignsTruth (s : Server) (schnorrSign : Bhash → Bytes) (tx : Transaction)
    (vout : UInt32) : Prop :=
  ∃ a reply, attest s.validator tx vout = .ok a ∧
    s.outputOracle schnorrSign tx.txid vout = .ok (some reply) ∧
    reply.msg = Sha2.sha256 a.preimage ∧
    (attestedBaton a.preimage = some 1 → tx.batonOutput = some ⟨tx.txid, vout⟩) ∧
    (0 < attestedValue a.preimage → vout.toNat < tx.outputs.length ∧
      tx.Assigns vout.toNat (UInt64.ofNat (attestedValue a.preimage)))

/-- The two sentinels: output 0 is asked about only where there is a baton, and no
output that does not exist has an amount. -/
def Transaction.OracleSafe (tx : Transaction) (vout : UInt32) : Prop :=
  (vout = 0 → tx.batonOutput ≠ none) ∧
    (tx.outputs.length ≤ vout.toNat → ∀ amount, tx.Assigns vout.toNat amount → amount = 0)

theorem Server.signsTruth_iff {s : Server} {tx : Transaction} (hhyd : tx.Hydrated)
    (hty : tx.slp.type ≠ .invalid) (hget : s.validator.get tx.txid = .ok tx)
    (hvalid : tx.txid ∈ s.validator.valid)
    (htype : tx.slp.tokenType = 0x01 ∨ tx.slp.tokenType = 0x81) (schnorrSign : Bhash → Bytes)
    (vout : UInt32) : s.SignsTruth schnorrSign tx vout ↔ tx.OracleSafe vout := by
  have hattest : attest s.validator tx vout = .ok (amountAttestation tx vout) := by
    rcases htype with h | h <;> simp [attest, h]
  have hreply : s.outputOracle schnorrSign tx.txid vout = .ok (some
      ⟨Sha2.sha256 (amountAttestation tx vout).preimage,
        schnorrSign (Sha2.sha256 (amountAttestation tx vout).preimage), tx.serialized, vout,
        tx.slp.tokenid, tx.slp.tokenType, (amountAttestation tx vout).value,
        (amountAttestation tx vout).isBaton, (amountAttestation tx vout).groupid⟩) := by
    simp only [outputOracle, Validator.hasValid, hvalid, decide_true, not_true_eq_false, if_false,
      hget, hattest, bind, Except.bind]
  have hiff : s.SignsTruth schnorrSign tx vout ↔
      (tx.mintBatonOutpoint.vout = vout → tx.batonOutput = some ⟨tx.txid, vout⟩) ∧
      (tx.outputSlpAmount vout.toNat ≠ 0 → vout.toNat < tx.outputs.length ∧
        tx.Assigns vout.toNat (tx.outputSlpAmount vout.toNat)) := by
    have hpos : 0 < (tx.outputSlpAmount vout.toNat).toNat ↔ tx.outputSlpAmount vout.toNat ≠ 0 := by
      rw [Nat.pos_iff_ne_zero, ne_eq, ne_eq, ← UInt64.toNat_inj, UInt64.toNat_zero]
    constructor
    · rintro ⟨a, reply, ha, -, -, hbaton, hvalue⟩
      obtain rfl := Except.ok.inj (hattest.symm.trans ha)
      rw [attestedBaton_amount] at hbaton
      rw [attestedValue_amount, UInt64.ofNat_toNat, hpos] at hvalue
      exact ⟨hbaton, hvalue⟩
    · rintro ⟨hbaton, hvalue⟩
      refine ⟨_, _, hattest, hreply, rfl, ?_, ?_⟩
      · rwa [attestedBaton_amount]
      · rwa [attestedValue_amount, UInt64.ofNat_toNat, hpos]
  rw [hiff, hhyd.mintBatonOutpoint_vout hty]
  refine and_congr ?_ ⟨fun h hout amount hamount => ?_, fun h hne => ?_⟩
  · cases hbaton : tx.batonOutput with
    | none => simp [eq_comm]
    | some o =>
        have htxid := batonOutput_txid hbaton
        refine iff_of_true (fun hv => ?_) fun _ => by simp
        rw [← htxid, ← hv]
        rfl
  · by_contra hne
    have hgiven := (assigns_iff hne).mp hamount
    exact absurd (h (by rwa [hgiven])).1 (Nat.not_lt.mpr hout)
  · have hgiven := (assigns_iff hne).mpr rfl
    exact ⟨Nat.not_le.mp fun hout => hne (h hout _ hgiven), hgiven⟩

/-- In every state of every run, what the oracle signs about a valid transaction of type
`0x01` or `0x81` is true exactly for the outputs that stay clear of both sentinels. -/
theorem Server.run_signsTruth_iff (utxosync : Bool) {events : List Event}
    (hhyd : ∀ e ∈ events, ∀ tx ∈ e.txs, tx.Hydrated) (schnorrSign : Bhash → Bytes) :
    Always Server.step (fun _ s => ∀ x ∈ s.validator.valid,
      ∃ tx, s.validator.get x = .ok tx ∧ tx.txid = x ∧
        (tx.slp.tokenType = 0x01 ∨ tx.slp.tokenType = 0x81 →
          ∀ vout, s.SignsTruth schnorrSign tx vout ↔ tx.OracleSafe vout))
      (.empty utxosync) events := by
  intro past rest hev s hs x hx
  have hstored := stored_always utxosync events past rest hev s hs
  obtain ⟨tx, htx⟩ := KeyedMap.mem_iff.mp (hstored.held x hx)
  obtain ⟨hmem, hty⟩ := hstored.source htx
  have hid : tx.txid = x := KeyedMap.key_lookup htx
  have hget : s.validator.get x = .ok tx := by rw [Validator.get, htx]
  refine ⟨tx, hget, hid, fun htype vout => ?_⟩
  obtain ⟨e, he, hte⟩ := List.mem_flatMap.mp hmem
  have htxhyd := hhyd e (hev ▸ List.mem_append_left _ he) tx hte
  exact signsTruth_iff htxhyd hty (hid ▸ hget) (hid ▸ hx) htype schnorrSign vout

/-- A GENESIS and a SEND of its token. -/
def oracleEvents : List Server.Event := [.rawtx sampleGenesis, .rawtx sampleSend]

theorem oracleEvents_hydrated : ∀ e ∈ oracleEvents, ∀ tx ∈ e.txs, tx.Hydrated := by
  simp [oracleEvents, Server.Event.txs, sampleGenesis_hydrated, sampleSend_hydrated]

theorem Server.run_signsTruth_iff_sample :
    Always Server.step (fun _ s => ∀ x ∈ s.validator.valid,
      ∃ tx, s.validator.get x = .ok tx ∧ tx.txid = x ∧
        (tx.slp.tokenType = 0x01 ∨ tx.slp.tokenType = 0x81 →
          ∀ vout, s.SignsTruth (fun msg => msg.v) tx vout ↔ tx.OracleSafe vout))
      (.empty false) oracleEvents :=
  run_signsTruth_iff false oracleEvents_hydrated fun msg => msg.v

/-- The oracle signs that output 0 of a SEND is a mint baton. -/
theorem oracle_signs_opReturn_as_baton :
    ¬ Always Server.step (fun _ s => ∀ x ∈ s.validator.valid, ∀ tx,
      s.validator.get x = .ok tx → tx.slp.tokenType = 0x01 ∨ tx.slp.tokenType = 0x81 →
        ∀ vout, s.SignsTruth (fun msg => msg.v) tx vout) (.empty false) oracleEvents := by
  intro h
  have hrun : ∃ s, oracleEvents.foldlM Server.step (.empty false) = .ok s ∧
      sampleSend.txid ∈ s.validator.valid ∧ s.validator.get sampleSend.txid = .ok sampleSend := by
    decide +kernel
  obtain ⟨s, hs, hvalid, hget⟩ := hrun
  have hsigns := h oracleEvents [] (by simp) s hs _ hvalid _ hget (.inl rfl) 0
  rw [Server.signsTruth_iff sampleSend_hydrated (by decide) hget hvalid (.inl rfl)] at hsigns
  exact hsigns.1 rfl (by decide)

end SlpGraphSearch
