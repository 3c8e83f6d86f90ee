import SlpGraphSearch.Bytes

/-!
# SLP transactions and their OP_RETURN parser

The parser of `slp_transaction.hpp` in two stages, as its text has them: a
tokenizer that splits the script into pushes, and three record parsers that walk
the pushes. `PARSE_CHECK` sets the type to invalid and returns false; it never
resets the other fields, so a refused script can leave a token type behind.

`type` and the variant `slp_tx` are always assigned together in the source. Here
the variant carries both, so a mismatched pair cannot be built.
-/
namespace SlpGraphSearch
open Library Cursor

structure SlpTransactionGenesis where
  ticker : Bytes
  name : Bytes
  documentUri : Bytes
  documentHash : Bytes
  decimals : UInt32
  hasMintBaton : Bool
  mintBatonVout : UInt32
  qty : UInt64
deriving DecidableEq

structure SlpTransactionMint where
  hasMintBaton : Bool
  mintBatonVout : UInt32
  qty : UInt64
deriving DecidableEq

structure SlpTransactionSend where
  amounts : List UInt64
deriving DecidableEq

inductive SlpTransactionType
  | invalid
  | genesis
  | mint
  | send
deriving DecidableEq

/-- The variant `slp_tx`. -/
inductive SlpTx
  | invalid
  | genesis (s : SlpTransactionGenesis)
  | mint (s : SlpTransactionMint)
  | send (s : SlpTransactionSend)
deriving DecidableEq

def SlpTx.type : SlpTx → SlpTransactionType
  | .invalid => .invalid
  | .genesis _ => .genesis
  | .mint _ => .mint
  | .send _ => .send

structure SlpTransaction where
  tokenid : Tokenid
  tokenType : UInt16
  slpTx : SlpTx
deriving DecidableEq

namespace SlpTransaction

def type (t : SlpTransaction) : SlpTransactionType := t.slpTx.type

theorem type_eq_genesis {t : SlpTransaction} : t.type = .genesis ↔ ∃ s, t.slpTx = .genesis s := by
  cases h : t.slpTx <;> simp [type, SlpTx.type, h]

theorem type_eq_mint {t : SlpTransaction} : t.type = .mint ↔ ∃ s, t.slpTx = .mint s := by
  cases h : t.slpTx <;> simp [type, SlpTx.type, h]

theorem type_eq_send {t : SlpTransaction} : t.type = .send ↔ ∃ s, t.slpTx = .send s := by
  cases h : t.slpTx <;> simp [type, SlpTx.type, h]

theorem type_eq_invalid {t : SlpTransaction} : t.type = .invalid ↔ t.slpTx = .invalid := by
  cases h : t.slpTx <;> simp [type, SlpTx.type, h]

/-- The default constructor. It leaves `token_type` uninitialized; nothing reads
the token type of an invalid transaction. -/
def empty : SlpTransaction := ⟨.zero, 0, .invalid⟩

/-! ## Tokenizer -/

/-- The length of the next push. On failure the iterator is put back before the
opcode: "we subtract 1 from iterator to unconsume invalid opcodes". -/
def extractPushdata (it : Bytes) : Except Stop (Option ℕ × Bytes) :=
  if it = [] then .ok (none, it) else do
    let (cnt, next) ← extractU8 it
    if 0x00 < cnt ∧ cnt < 0x4C then
      if next.length < cnt.toNat then .ok (none, it) else .ok (some cnt.toNat, next)
    else if cnt = 0x4C then
      if next.length ≤ 1 then .ok (none, it) else do
        let (n, next) ← extractU8 next
        .ok (some n.toNat, next)
    else if cnt = 0x4D then
      if next.length ≤ 2 then .ok (none, it) else do
        let (n, next) ← extractU16 next
        .ok (some n.toNat, next)
    else if cnt = 0x4E then
      if next.length ≤ 4 then .ok (none, it) else do
        let (n, next) ← extractU32 next
        .ok (some n.toNat, next)
    else .ok (none, it)

def extractString (len : ℕ) (it : Bytes) : Except Stop (Option Bytes × Bytes) :=
  if it.length < len then .ok (none, it) else do
    let (ret, it) ← take len it
    .ok (some ret, it)

/-- `"SLP\0"`. -/
def lokadId : Bytes := [0x53, 0x4C, 0x50, 0x00]

/-- The chunk loop, with the quick exit on the first chunk. Every push consumes
at least one byte, so the script's length bounds the iterations. -/
def extractChunks : ℕ → List Bytes → Bytes → Except Stop (List Bytes × Bytes)
  | 0, _, _ => .error .exhausted
  | fuel + 1, chunks, it => do
      let (lenCheck, it) ← extractPushdata it
      match lenCheck with
      | none => .ok (chunks, it)
      | some len =>
          let (data, it) ← extractString len it
          match data with
          | none => .error .refuse
          | some data =>
              let chunks := chunks ++ [data]
              if chunks.length = 1 ∧ data ≠ lokadId then .error .refuse
              else extractChunks fuel chunks it

/-- Everything up to the end of the chunk loop and the trailing data check. -/
def parseChunks (s : Bytes) : Except Stop (List Bytes) :=
  if s = [] then .error .refuse else do
    let (b, it) ← extractU8 s
    if b ≠ 0x6A then .error .refuse
    else if s.length < 10 then .error .refuse
    else do
      let (chunks, it) ← extractChunks s.length [] it
      if it ≠ [] then .error .refuse else .ok chunks

/-! ## Record parsers -/

/-- A chunk iterator that is not at the end: the chunk and those behind it. -/
abbrev ChunkIt := Bytes × List Bytes

/-- `CHECK_NEXT`. -/
def checkNext (cit : ChunkIt) : Option ChunkIt :=
  match cit.2 with
  | [] => none
  | c :: rest => some (c, rest)

def stringToNumber (s : Bytes) : Option UInt64 :=
  if s.length = 1 ∨ s.length = 2 ∨ s.length = 4 ∨ s.length = 8 then
    some (UInt64.ofNat (leValue s))
  else none

def parseTokenType (chunks : List Bytes) : Option (UInt16 × ChunkIt) := do
  let cit ← match chunks with
    | [] => none
    | c :: rest => some (c, rest)
  let cit ← checkNext cit
  let tokenTypeStr := cit.1.reverse
  guard (tokenTypeStr.length = 1 ∨ tokenTypeStr.length = 2)
  let tokenTypeCheck ← stringToNumber tokenTypeStr
  let tokenType := tokenTypeCheck.toUInt16
  guard (tokenType = 1 ∨ tokenType = 0x41 ∨ tokenType = 0x81)
  let cit ← checkNext cit
  pure (tokenType, cit)

/-- `mint_baton_vout`, read the same way by GENESIS and MINT. -/
def parseMintBatonVout (s : Bytes) : Option (Bool × UInt32) :=
  if 2 ≤ s.length then none
  else if s ≠ [] then do
    let check ← stringToNumber s
    let mintBatonVout := check.toUInt32
    guard (¬ mintBatonVout < 2)
    pure (true, mintBatonVout)
  else some (false, 0)

/-- An 8-byte big-endian quantity. -/
def parseQty (s : Bytes) : Option UInt64 :=
  if s.length ≠ 8 then none else stringToNumber s.reverse

/-- A 32-byte token id, stored reversed. -/
def parseTokenid (s : Bytes) : Option Tokenid :=
  if h : s.reverse.length = 32 then some ⟨s.reverse, h⟩ else none

def parseGenesis (tokenType : UInt16) (chunks : List Bytes) (cit : ChunkIt) :
    Option SlpTransactionGenesis := do
  guard (chunks.length = 10)
  let cit ← checkNext cit
  let ticker := cit.1
  let cit ← checkNext cit
  let name := cit.1
  let cit ← checkNext cit
  let documentUri := cit.1
  let cit ← checkNext cit
  let documentHash := cit.1
  guard (documentHash.length = 0 ∨ documentHash.length = 32)
  let cit ← checkNext cit
  guard (cit.1.length = 1)
  let decimals ← stringToNumber cit.1
  guard (decimals ≤ 9)
  let cit ← checkNext cit
  let (hasMintBaton, mintBatonVout) ← parseMintBatonVout cit.1
  let cit ← checkNext cit
  let qty ← parseQty cit.1
  guard (tokenType = 0x41 → decimals = 0 ∧ mintBatonVout = 0 ∧ qty = 1)
  pure ⟨ticker, name, documentUri, documentHash, decimals.toUInt32, hasMintBaton,
    mintBatonVout, qty⟩

def parseMint (tokenType : UInt16) (chunks : List Bytes) (cit : ChunkIt) :
    Option (Tokenid × SlpTransactionMint) := do
  guard (tokenType ≠ 0x41)
  guard (chunks.length = 6)
  let cit ← checkNext cit
  let tokenid ← parseTokenid cit.1
  let cit ← checkNext cit
  let (hasMintBaton, mintBatonVout) ← parseMintBatonVout cit.1
  guard (mintBatonVout ≤ 0xFF)
  let cit ← checkNext cit
  let additionalQty ← parseQty cit.1
  pure (tokenid, ⟨hasMintBaton, mintBatonVout, additionalQty⟩)

def parseSend (chunks : List Bytes) (cit : ChunkIt) :
    Option (Tokenid × SlpTransactionSend) := do
  guard (4 ≤ chunks.length)
  let cit ← checkNext cit
  let tokenid ← parseTokenid cit.1
  let cit ← checkNext cit
  let tokenAmounts ← (cit.1 :: cit.2).mapM parseQty
  guard (tokenAmounts.length ≠ 0)
  guard (tokenAmounts.length ≤ 19)
  pure (tokenid, ⟨tokenAmounts⟩)

/-- `"GENESIS"`, `"MINT"` and `"SEND"`. -/
def genesisStr : Bytes := [0x47, 0x45, 0x4E, 0x45, 0x53, 0x49, 0x53]
def mintStr : Bytes := [0x4D, 0x49, 0x4E, 0x54]
def sendStr : Bytes := [0x53, 0x45, 0x4E, 0x44]

/-- The branch on the action type. GENESIS does not assign the token id. -/
def parseAction (this : SlpTransaction) (chunks : List Bytes) (cit : ChunkIt) :
    Option SlpTransaction :=
  if cit.1 = genesisStr then
    (parseGenesis this.tokenType chunks cit).map fun s => { this with slpTx := .genesis s }
  else if cit.1 = mintStr then
    (parseMint this.tokenType chunks cit).map fun r =>
      { this with tokenid := r.1, slpTx := .mint r.2 }
  else if cit.1 = sendStr then
    (parseSend chunks cit).map fun r => { this with tokenid := r.1, slpTx := .send r.2 }
  else none

/-- `slp_transaction::hydrate`: the object afterwards and the returned flag. -/
def hydrate (this : SlpTransaction) (s : Bytes) : Except Stop (SlpTransaction × Bool) :=
  match parseChunks s with
  | .error .refuse => .ok ({ this with slpTx := .invalid }, false)
  | .error e => .error e
  | .ok chunks =>
      match parseTokenType chunks with
      | none => .ok ({ this with slpTx := .invalid }, false)
      | some (tokenType, cit) =>
          match parseAction { this with tokenType := tokenType } chunks cit with
          | none => .ok ({ this with tokenType := tokenType, slpTx := .invalid }, false)
          | some t => .ok (t, true)

end SlpTransaction
end SlpGraphSearch
