import SlpGraphSearch.TransactionCodec

/-!
# Writing transactions

A writer of plain transactions: empty signature scripts, one-byte lengths, a
fixed value on every output. Its bytes are encodings of the transaction format,
so what it writes can be handed to the program as a raw transaction.
-/
namespace SlpGraphSearch
open Library Cursor

/-- A push of fewer than 256 bytes. -/
def pushBytes (p : Bytes) : Bytes := 0x4C :: UInt8.ofNat p.length :: p

/-- The OP_RETURN script of a payload list. -/
def opReturn (payloads : List Bytes) : Bytes := 0x6A :: payloads.flatMap pushBytes

namespace Transaction

/-- A one-byte length. -/
def lengthByte (n : ℕ) : Bytes := [UInt8.ofNat n]

theorem varInt_lengthByte {n : ℕ} (h : n < 0xFD) : VarInt (lengthByte n) (UInt64.ofNat n) := by
  have hb : (UInt8.ofNat n).toNat = n := by
    rw [UInt8.toNat_ofNat']
    omega
  have hlt : UInt8.ofNat n < 0xFD := by
    rw [UInt8.lt_iff_toNat_lt, hb]
    exact h
  refine ⟨UInt8.ofNat n, [], rfl, by simp [varIntWidth, hlt], ?_⟩
  rw [if_pos hlt]
  apply UInt64.toNat_inj.mp
  rw [UInt8.toNat_toUInt64, hb, UInt64.toNat_ofNat']
  omega

theorem toNat_ofNat_short {n : ℕ} (h : n < 0xFD) : (UInt64.ofNat n).toNat = n := by
  rw [UInt64.toNat_ofNat']
  omega

def encodeScript (s : Bytes) : Bytes := lengthByte s.length ++ s

def encodeInput (o : Outpoint) : Bytes :=
  o.txid.v ++ (leBytes 4 o.vout.toNat ++ (encodeScript [] ++ leBytes 4 0xFFFFFFFF))

def encodeOutput (s : Bytes) : Bytes := leBytes 8 546 ++ encodeScript s

/-- The raw transaction with these inputs and output scripts. -/
def encode (inputs : List Outpoint) (scripts : List Bytes) : Bytes :=
  leBytes 4 1 ++ ((lengthByte inputs.length ++ inputs.flatMap encodeInput) ++
    ((lengthByte scripts.length ++ scripts.flatMap encodeOutput) ++ leBytes 4 0))

theorem encodeScript_encoding {s : Bytes} (h : s.length < 0xFD) :
    ScriptEncoding (encodeScript s) s :=
  ⟨_, _, rfl, varInt_lengthByte h, (toNat_ofNat_short h).symm, by rw [maxTxSize]; omega⟩

theorem encodeInput_encoding (o : Outpoint) : InputEncoding (encodeInput o) o := by
  refine ⟨_, _, [], _, rfl, length_leBytes _ _, ?_, encodeScript_encoding (by simp),
    length_leBytes _ _⟩
  rw [leValue_leBytes, Nat.mod_eq_of_lt (by simpa using o.vout.toNat_lt), UInt32.ofNat_toNat]

theorem encodeOutput_encoding (i : ℕ) {s : Bytes} (h : s.length < 0xFD) :
    OutputEncoding i (encodeOutput s) ⟨.zero, UInt32.ofNat i, 546, s⟩ :=
  ⟨_, _, rfl, length_leBytes _ _, encodeScript_encoding h, by
    rw [absI64, leValue_leBytes, if_pos (by decide)]
    rfl⟩

theorem counted_encoding {α β : Type} {E : ℕ → Bytes → β → Prop} {enc : α → Bytes}
    {f : ℕ → α → β} {as : List α} (hlen : as.length < 0xFD)
    (h : ∀ i, ∀ a ∈ as, E i (enc a) (f i a)) :
    CountedEncoding E (lengthByte as.length ++ as.flatMap enc) (as.mapIdx f) := by
  refine ⟨_, _, _, rfl, varInt_lengthByte hlen, ?_, ?_, ?_⟩
  · rw [List.length_mapIdx, toNat_ofNat_short hlen]
  · rw [List.length_mapIdx, maxTxSize]
    omega
  · simpa using Repeats.flatMap h 0

/-- The outputs of an encoded transaction with the id `txid`. -/
def encodedOutputs (txid : Txid) (scripts : List Bytes) : List Output :=
  scripts.mapIdx fun i s => ⟨txid, UInt32.ofNat i, 546, s⟩

theorem encode_fields {inputs : List Outpoint} {scripts : List Bytes}
    (hin : inputs.length < 0xFD) (hout : scripts.length < 0xFD)
    (hs : ∀ s ∈ scripts, s.length < 0xFD) :
    FieldsEncoding (encode inputs scripts) ⟨1, inputs, encodedOutputs .zero scripts, 0⟩ := by
  have hversion : (1 : Int32) = (UInt32.ofNat (leValue (leBytes 4 1))).toInt32 := by decide
  have hlockTime : (0 : UInt32) = UInt32.ofNat (leValue (leBytes 4 0)) := by decide
  refine ⟨_, _, _, _, rfl, length_leBytes _ _, hversion, ?_, ?_, length_leBytes _ _, hlockTime⟩
  · have h := counted_encoding (E := fun _ => InputEncoding) (f := fun _ o => o) hin
      fun _ o _ => encodeInput_encoding o
    have hid : inputs.mapIdx (fun _ o => o) = inputs :=
      List.mapIdx_eq_iff.mpr fun i => by simp
    rwa [hid] at h
  · exact counted_encoding hout fun i s h => encodeOutput_encoding i (hs s h)

/-- The transaction that the program decodes from what the writer wrote. -/
def encoded (txid : Txid) (inputs : List Outpoint) (scripts : List Bytes)
    (slp : SlpTransaction) : Transaction :=
  ⟨txid, 1, 0, inputs, encodedOutputs txid scripts, slp, encode inputs scripts⟩

/-- Writing and decoding round trip, up to the id and the SLP part that the
program computes from the bytes. -/
theorem hydrate_encode {inputs : List Outpoint} {scripts : List Bytes} {txid : Txid}
    {slp : SlpTransaction} (hin : inputs.length < 0xFD) (hout : scripts.length < 0xFD)
    (hs : ∀ s ∈ scripts, s.length < 0xFD)
    (hid : Sha2.sha256d (encode inputs scripts) = txid)
    (hslp : hydrateSlp txid (encodedOutputs txid scripts) = .ok slp) (rest : Bytes) :
    hydrate (encode inputs scripts ++ rest) = .ok (encoded txid inputs scripts slp) := by
  have hmap : (encodedOutputs .zero scripts).map (fun m => { m with prevTxId := txid }) =
      encodedOutputs txid scripts := by
    refine List.ext_getElem? fun i => ?_
    cases h : scripts[i]? <;> simp [encodedOutputs, h]
  rw [hydrate_encoding (encode_fields hin hout hs), assemble]
  simp only [hid, hmap, hslp, bind, Except.bind]
  rfl

/-! ## Samples -/

/-- A GENESIS payload list without texts: type, decimals, baton and quantity. -/
def genesisPayloads (tokenType : UInt8) (baton : Bytes) (qty : UInt8) : List Bytes :=
  [SlpTransaction.lokadId, [tokenType], SlpTransaction.genesisStr, [], [], [], [], [0], baton,
    [0, 0, 0, 0, 0, 0, 0, qty]]

def sendPayloads (tokenType : UInt8) (tokenid : Tokenid) (amounts : List UInt8) : List Bytes :=
  [SlpTransaction.lokadId, [tokenType], SlpTransaction.sendStr, tokenid.v.reverse] ++
    amounts.map fun n => [0, 0, 0, 0, 0, 0, 0, n]

def mintPayloads (tokenType : UInt8) (tokenid : Tokenid) (baton : Bytes) (qty : UInt8) :
    List Bytes :=
  [SlpTransaction.lokadId, [tokenType], SlpTransaction.mintStr, tokenid.v.reverse, baton,
    [0, 0, 0, 0, 0, 0, 0, qty]]

/-- A GENESIS of type 1 with quantity 10 on output 1 and the baton on output 2. -/
def sampleGenesis : Transaction :=
  let txid : Txid := ⟨
    [0x70, 0x0C, 0x48, 0x92, 0xA5, 0x5C, 0xA3, 0x6A, 0x7E, 0x04, 0xC9, 0x16, 0xB9, 0x51, 0x8A,
     0xA5, 0x81, 0xD7, 0xD0, 0x05, 0xC9, 0x6D, 0xCE, 0x78, 0xDD, 0x41, 0xD5, 0x4E, 0x87, 0xE5,
     0x2A, 0xE9], rfl⟩
  encoded txid [⟨.zero, 0⟩] [opReturn (genesisPayloads 1 [2] 10), [0x51], [0x52]]
    ⟨txid, 1, .genesis ⟨[], [], [], [], 0, true, 2, 10⟩⟩

/-- A SEND of the whole quantity of `sampleGenesis`. -/
def sampleSend : Transaction :=
  let txid : Txid := ⟨
    [0xDC, 0xBA, 0xEC, 0x0A, 0x3B, 0x53, 0xEE, 0x38, 0x15, 0x7A, 0x5E, 0x8C, 0x20, 0xCF, 0xC0,
     0x60, 0x05, 0xAF, 0xDD, 0xC0, 0xCD, 0x4E, 0x31, 0xC1, 0x93, 0xE7, 0x01, 0x11, 0x4B, 0x67,
     0x99, 0x09], rfl⟩
  encoded txid [⟨sampleGenesis.txid, 1⟩]
    [opReturn (sendPayloads 1 sampleGenesis.txid [4, 6]), [0x53], [0x51]]
    ⟨sampleGenesis.txid, 1, .send ⟨[4, 6]⟩⟩

/-- A MINT of quantity 5 that spends the baton of `sampleGenesis` and passes it on. -/
def sampleMint : Transaction :=
  let txid : Txid := ⟨
    [0x7C, 0x7D, 0x31, 0xE2, 0x26, 0x83, 0xE3, 0x7A, 0xDA, 0xAC, 0xC2, 0xEF, 0xCE, 0xBE, 0x81,
     0x8B, 0x24, 0x7B, 0x2B, 0x96, 0x4A, 0x4B, 0x86, 0xE6, 0x4D, 0x5C, 0xE2, 0xE6, 0x3E, 0x3C,
     0xA9, 0xC9], rfl⟩
  encoded txid [⟨sampleGenesis.txid, 2⟩]
    [opReturn (mintPayloads 1 sampleGenesis.txid [2] 5), [0x51], [0x52]]
    ⟨sampleGenesis.txid, 1, .mint ⟨true, 2, 5⟩⟩

/-- A transaction without SLP data that spends the quantity of `sampleGenesis`. -/
def sampleBurn : Transaction :=
  let txid : Txid := ⟨
    [0x67, 0x9F, 0x33, 0xB1, 0x67, 0x7D, 0x4C, 0x64, 0xC6, 0x71, 0x26, 0x80, 0x0A, 0x99, 0xF7,
     0xB5, 0x6B, 0x76, 0xEC, 0x3E, 0xBF, 0x88, 0x42, 0xA2, 0x97, 0x35, 0x69, 0x73, 0xB1, 0x49,
     0x59, 0x4B], rfl⟩
  encoded txid [⟨sampleGenesis.txid, 1⟩] [[0x54]] .empty

/-- A group with quantity 10 on output 1. -/
def sampleGroup : Transaction :=
  let txid : Txid := ⟨
    [0xC7, 0xE3, 0xDA, 0xAE, 0x4D, 0xD8, 0x65, 0x48, 0x14, 0xCD, 0xA6, 0xEF, 0xF0, 0x91, 0xEB,
     0x23, 0x84, 0x2E, 0x6A, 0x88, 0x45, 0x7D, 0x92, 0x46, 0x32, 0xCA, 0x35, 0x56, 0x5F, 0x21,
     0x34, 0x2C], rfl⟩
  encoded txid [⟨.zero, 0⟩] [opReturn (genesisPayloads 0x81 [2] 10), [0x51], [0x52]]
    ⟨txid, 0x81, .genesis ⟨[], [], [], [], 0, true, 2, 10⟩⟩

/-- A child token of `sampleGroup`. -/
def sampleChild : Transaction :=
  let txid : Txid := ⟨
    [0xFB, 0xE2, 0x83, 0x11, 0xA1, 0x5A, 0xE6, 0xCF, 0x85, 0xB3, 0x0A, 0x98, 0xE4, 0x9C, 0xF5,
     0x75, 0x18, 0x50, 0xA3, 0x5B, 0xC0, 0xB4, 0x40, 0x36, 0x13, 0x2A, 0x4A, 0xED, 0xB9, 0xEA,
     0xC0, 0x5F], rfl⟩
  encoded txid [⟨sampleGroup.txid, 1⟩] [opReturn (genesisPayloads 0x41 [] 1), [0x53]]
    ⟨txid, 0x41, .genesis ⟨[], [], [], [], 0, false, 0, 1⟩⟩

theorem hydrated_encoded {inputs : List Outpoint} {scripts : List Bytes} {txid : Txid}
    {slp : SlpTransaction} (hin : inputs.length < 0xFD) (hout : scripts.length < 0xFD)
    (hs : ∀ s ∈ scripts, s.length < 0xFD)
    (hid : Sha2.sha256d (encode inputs scripts) = txid)
    (hslp : hydrateSlp txid (encodedOutputs txid scripts) = .ok slp) :
    (encoded txid inputs scripts slp).Hydrated :=
  ⟨_, hydrate_encode hin hout hs hid hslp []⟩

theorem sampleGenesis_hydrated : sampleGenesis.Hydrated :=
  hydrated_encoded (by decide) (by decide) (by decide) (by decide +kernel) (by decide +kernel)

theorem sampleSend_hydrated : sampleSend.Hydrated :=
  hydrated_encoded (by decide) (by decide) (by decide) (by decide +kernel) (by decide +kernel)

theorem sampleMint_hydrated : sampleMint.Hydrated :=
  hydrated_encoded (by decide) (by decide) (by decide) (by decide +kernel) (by decide +kernel)

theorem sampleBurn_hydrated : sampleBurn.Hydrated :=
  hydrated_encoded (by decide) (by decide) (by decide) (by decide +kernel) (by decide +kernel)

theorem sampleGroup_hydrated : sampleGroup.Hydrated :=
  hydrated_encoded (by decide) (by decide) (by decide) (by decide +kernel) (by decide +kernel)

theorem sampleChild_hydrated : sampleChild.Hydrated :=
  hydrated_encoded (by decide) (by decide) (by decide) (by decide +kernel) (by decide +kernel)

end Transaction
end SlpGraphSearch
