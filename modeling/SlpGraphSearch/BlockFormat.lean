import SlpGraphSearch.Block
import SlpGraphSearch.WireFormat

/-!
# Blocks on the wire

The format of raw blocks on its own terms, built on that of raw transactions. The block
decoder accepts exactly the buffers that start with a header, a count and so many
transactions, whatever follows them. With `slp_only` it reads the same bytes and keeps the
transactions with an SLP message.
-/
namespace SlpGraphSearch
open Library Transaction

namespace Wire

structure Block where
  version : UInt32
  prevBlock : Txid
  merkleRoot : Txid
  timestamp : UInt32
  bits : UInt32
  nonce : UInt32
  txs : List Tx

namespace Block

/-- The eighty bytes that the block hash is taken of. -/
def header (w : Block) : Bytes :=
  leBytes 4 w.version.toNat ++ (w.prevBlock.v ++ (w.merkleRoot.v ++
    (leBytes 4 w.timestamp.toNat ++ (leBytes 4 w.bits.toNat ++ leBytes 4 w.nonce.toNat))))

/-- The number of transactions may be written with any width. -/
def Encoding (p : Bytes) (w : Block) : Prop :=
  ∃ l n q, p = w.header ++ (l ++ q) ∧ VarInt l n ∧ w.txs.length = n.toNat ∧
    Repeats (fun _ => Tx.Encoding) 0 q w.txs

end Block
end Wire

namespace Block

/-- What `hydrate` returns for an encoding `p` of `w`. -/
structure DecodedFrom (slpOnly : Bool) (p : Bytes) (w : Wire.Block) (b : Block) : Prop where
  version : b.version = w.version
  prevBlock : b.prevBlock = w.prevBlock
  merkleRoot : b.merkleRoot = w.merkleRoot
  timestamp : b.timestamp = w.timestamp
  bits : b.bits = w.bits
  nonce : b.nonce = w.nonce
  blockHash : b.blockHash = Sha2.sha256d w.header
  txs : ∃ l txs, p = w.header ++ (l ++ txs.flatMap Transaction.serialized) ∧
    List.Forall₂ (fun v tx => Wire.Tx.Encoding tx.serialized v ∧
      Transaction.DecodedFrom tx.serialized v tx) w.txs txs ∧
    b.txs = if slpOnly then txs.filter fun tx => tx.slp.type ≠ .invalid else txs

/-- Decoded transactions are those that come from an encoding. -/
theorem exists_wire {q : Bytes} {tx : Transaction} (h : tx.Hydrated ∧ q = tx.serialized) :
    ∃ v, Wire.Tx.Encoding q v ∧ Wire.Tx.Encoding tx.serialized v := by
  obtain ⟨⟨buf, hbuf⟩, rfl⟩ := h
  obtain ⟨p, v, rest, -, hv, htx⟩ := (Wire.hydrate_ok_iff buf tx).mp hbuf
  obtain ⟨rfl, -⟩ := assemble_eq htx
  exact ⟨v, hv, hv⟩

theorem exists_decoded {q : Bytes} {v : Wire.Tx} (h : Wire.Tx.Encoding q v) :
    ∃ tx : Transaction, (tx.Hydrated ∧ q = tx.serialized) ∧
      Wire.Tx.Encoding tx.serialized v ∧ Transaction.DecodedFrom tx.serialized v tx := by
  obtain ⟨tx, htx⟩ := assemble_total q v.fields
  have hdecoded := Transaction.decodedFrom h htx
  obtain ⟨rfl, -⟩ := assemble_eq htx
  refine ⟨tx, ⟨⟨tx.serialized, ?_⟩, rfl⟩, h, hdecoded⟩
  exact (Wire.hydrate_ok_iff _ tx).mpr ⟨tx.serialized, v, [], (List.append_nil _).symm, h, htx⟩

theorem exists_wireBlock {p : Bytes} {b : Block} (h : BlockEncoding p b) :
    ∃ w, Wire.Block.Encoding p w := by
  obtain ⟨l, n, q, rfl, hl, hlen, hr, -⟩ := h
  obtain ⟨vs, hvs, hall⟩ := hr.exists_forall₂ fun _ _ _ htx => exists_wire htx
  exact ⟨⟨b.version, b.prevBlock, b.merkleRoot, b.timestamp, b.bits, b.nonce, vs⟩,
    l, n, q, rfl, hl, hall.length_eq ▸ hlen, hvs⟩

theorem exists_decodedBlock {p : Bytes} {w : Wire.Block} (h : Wire.Block.Encoding p w) :
    ∃ b, BlockEncoding p b ∧ DecodedFrom false p w b := by
  obtain ⟨l, n, q, rfl, hl, hlen, hr⟩ := h
  obtain ⟨txs, htxs, hall⟩ := hr.exists_forall₂ fun _ _ _ hv => exists_decoded hv
  have hq : q = txs.flatMap Transaction.serialized := htxs.eq_flatMap fun _ _ _ htx => htx.2
  refine ⟨⟨Sha2.sha256d w.header, w.version, w.prevBlock, w.merkleRoot, w.timestamp, w.bits,
    w.nonce, txs⟩, ?_, ?_⟩
  · exact ⟨l, n, q, rfl, hl, hall.length_eq ▸ hlen, htxs, rfl⟩
  · exact ⟨rfl, rfl, rfl, rfl, rfl, rfl, rfl, l, txs, by rw [hq], hall, rfl⟩

/-- The filter is applied to what is read in any case. -/
theorem hydrate_of_encoding {p : Bytes} {b : Block} (h : BlockEncoding p b) (rest : Bytes)
    (slpOnly : Bool) : hydrate (p ++ rest) slpOnly =
      .ok { b with txs := b.txs.filter fun tx => ¬ slpOnly ∨ tx.slp.type ≠ .invalid } := by
  have hread := readBlock_decodes.complete p b rest h (Nat.zero_le _)
  rw [hydrate, readBlock_slpOnly, Cursor.run_bind, hread]
  rfl

theorem encoding_of_hydrate {buf : Bytes} {slpOnly : Bool} {b : Block}
    (h : hydrate buf slpOnly = .ok b) : ∃ p rest b', buf = p ++ rest ∧ BlockEncoding p b' := by
  rw [hydrate, readBlock_slpOnly, Cursor.run_bind] at h
  cases hread : readBlock false buf with
  | error e => simp [hread, bind, Except.bind] at h
  | ok r =>
      obtain ⟨-, p, hbuf, hp⟩ :=
        readBlock_decodes.sound buf r.1 r.2 (Nat.zero_le _) hread
      exact ⟨p, r.2, r.1, hbuf, hp⟩

theorem DecodedFrom.filter {p : Bytes} {w : Wire.Block} {b : Block}
    (h : DecodedFrom false p w b) (slpOnly : Bool) : DecodedFrom slpOnly p w
      { b with txs := b.txs.filter fun tx => ¬ slpOnly ∨ tx.slp.type ≠ .invalid } := by
  obtain ⟨l, txs, hp, hall, htxs⟩ := h.txs
  rw [if_neg Bool.false_ne_true] at htxs
  refine ⟨h.version, h.prevBlock, h.merkleRoot, h.timestamp, h.bits, h.nonce, h.blockHash,
    l, txs, hp, hall, ?_⟩
  rw [htxs]
  cases slpOnly <;> simp

/-- `block::hydrate` ends on every buffer without reading outside it. It accepts exactly the
buffers that start with an encoding, which is then unique, and returns its header, the hash
of the header and its transactions in order, the SLP ones or all, whatever follows them. -/
theorem hydrate_wireFormat (buf : Bytes) (slpOnly : Bool) :
    (hydrate buf slpOnly = .error .refuse ∨ ∃ b, hydrate buf slpOnly = .ok b) ∧
      ((∃ b, hydrate buf slpOnly = .ok b) ↔
        ∃ p w rest, buf = p ++ rest ∧ Wire.Block.Encoding p w) ∧
      ∀ p w rest, buf = p ++ rest → Wire.Block.Encoding p w →
        (∀ q v rest', buf = q ++ rest' → Wire.Block.Encoding q v → q = p) ∧
        ∃ b, DecodedFrom slpOnly p w b ∧ ∀ rest', hydrate (p ++ rest') slpOnly = .ok b := by
  refine ⟨hydrate_cases buf slpOnly, ⟨?_, ?_⟩, ?_⟩
  · intro h
    obtain ⟨b, hb⟩ := h
    obtain ⟨p, rest, b', hbuf, hp⟩ := encoding_of_hydrate hb
    obtain ⟨w, hw⟩ := exists_wireBlock hp
    exact ⟨p, w, rest, hbuf, hw⟩
  · intro h
    obtain ⟨p, w, rest, rfl, hw⟩ := h
    obtain ⟨b, hb, -⟩ := exists_decodedBlock hw
    exact ⟨_, hydrate_of_encoding hb rest slpOnly⟩
  · intro p w rest hbuf hw
    subst hbuf
    obtain ⟨b, hb, hdecoded⟩ := exists_decodedBlock hw
    refine ⟨fun q v rest' hbuf hv => ?_, _, hdecoded.filter slpOnly, fun rest' =>
      hydrate_of_encoding hb rest' slpOnly⟩
    obtain ⟨b', hb', -⟩ := exists_decodedBlock hv
    exact (readBlock_decodes.unique hb' hb hbuf.symm).1

end Block
end SlpGraphSearch
