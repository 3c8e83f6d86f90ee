import SlpGraphSearch.TransactionEncoder

/-!
# Transactions on the wire

The format of raw transactions on its own terms: what a transaction carries on the
wire and which byte strings encode it, with variable length integers of any width.
The decoder accepts exactly the buffers that start with such an encoding and returns
its fields.
-/
namespace SlpGraphSearch
open Library

namespace Wire

structure TxIn where
  prevTxId : Txid
  prevOutIdx : UInt32
  sigscript : Bytes
  sequence : UInt32

structure TxOut where
  value : UInt64
  scriptpubkey : Scriptpubkey

structure Tx where
  version : Int32
  inputs : List TxIn
  outputs : List TxOut
  lockTime : UInt32

open Transaction

def TxIn.Encoding (p : Bytes) (i : TxIn) : Prop :=
  ∃ script, p = i.prevTxId.v ++ (leBytes 4 i.prevOutIdx.toNat ++
    (script ++ leBytes 4 i.sequence.toNat)) ∧ ScriptEncoding script i.sigscript

def TxOut.Encoding (p : Bytes) (o : TxOut) : Prop :=
  ∃ script, p = leBytes 8 o.value.toNat ++ script ∧ ScriptEncoding script o.scriptpubkey

def Tx.Encoding (p : Bytes) (tx : Tx) : Prop :=
  ∃ inputs outputs, p = leBytes 4 tx.version.toUInt32.toNat ++
    (inputs ++ (outputs ++ leBytes 4 tx.lockTime.toNat)) ∧
    CountedEncoding (fun _ => TxIn.Encoding) inputs tx.inputs ∧
    CountedEncoding (fun _ => TxOut.Encoding) outputs tx.outputs

/-- What the decoder keeps of an input. -/
def TxIn.outpoint (i : TxIn) : Outpoint := ⟨i.prevTxId, i.prevOutIdx⟩

/-- The value that the decoder reads. -/
def TxOut.amount (o : TxOut) : UInt64 := absI64 (leBytes 8 o.value.toNat)

/-- What the decoder makes of the output at position `n`. -/
def TxOut.output (n : ℕ) (o : TxOut) : Output :=
  ⟨.zero, UInt32.ofNat n, o.amount, o.scriptpubkey⟩

def Tx.fields (tx : Tx) : Fields :=
  ⟨tx.version, tx.inputs.map TxIn.outpoint, tx.outputs.mapIdx TxOut.output, tx.lockTime⟩

theorem Tx.fields_outputs_length (tx : Tx) : tx.fields.outputs.length = tx.outputs.length :=
  List.length_mapIdx

theorem Tx.fields_output {tx : Tx} {i : ℕ} {o : TxOut} (h : tx.outputs[i]? = some o) :
    tx.fields.outputs[i]? = some (o.output i) := by
  rw [Tx.fields, List.getElem?_mapIdx, h, Option.map_some]

/-- The positions of the outputs fit into 32 bits. -/
theorem Tx.Encoding.outputs_lt {p : Bytes} {tx : Tx} (hp : Tx.Encoding p tx) {i : ℕ} {o : TxOut}
    (h : tx.outputs[i]? = some o) : i < UInt32.size := by
  obtain ⟨_, _, -, -, ⟨_, _, _, -, -, -, hlen, -⟩⟩ := hp
  have hi := (List.getElem?_eq_some_iff.mp h).1
  rw [maxTxSize] at hlen
  rw [UInt32.size]
  omega

/-- Values below `2 ^ 63` are read as they are. -/
theorem TxOut.amount_eq {o : TxOut} (h : o.value.toNat < 2 ^ 63) : o.amount = o.value := by
  have hv : leValue (leBytes 8 o.value.toNat) = o.value.toNat := by
    rw [leValue_leBytes]
    exact Nat.mod_eq_of_lt o.value.toNat_lt
  rw [TxOut.amount, absI64, hv, if_pos h, UInt64.ofNat_toNat]

/-- Eight bytes are those of the number that they encode. -/
theorem leBytes_uint64 {p : Bytes} (hp : p.length = 8) :
    p = leBytes 8 (UInt64.ofNat (leValue p)).toNat := by
  have hlt := leValue_lt p
  rw [hp] at hlt
  rw [UInt64.toNat_ofNat', Nat.mod_eq_of_lt (by simpa using hlt), ← hp, leBytes_leValue]

theorem inputEncoding_iff (p : Bytes) (o : Outpoint) :
    InputEncoding p o ↔ ∃ i, TxIn.Encoding p i ∧ o = i.outpoint := by
  constructor
  · rintro ⟨idx, script, sig, seq, rfl, hi, hv, hscript, hseq⟩
    have hidx := leBytes_uint32.mp ⟨hi, hv⟩
    have hseq' := leBytes_uint32.mp ⟨hseq, rfl⟩
    exact ⟨⟨o.txid, o.vout, sig, UInt32.ofNat (leValue seq)⟩,
      ⟨script, by rw [← hidx, ← hseq'], hscript⟩, rfl⟩
  · rintro ⟨i, ⟨script, rfl, hscript⟩, rfl⟩
    obtain ⟨hi, hv⟩ := leBytes_uint32.mpr (rfl : leBytes 4 i.prevOutIdx.toNat = _)
    exact ⟨_, script, i.sigscript, _, rfl, hi, hv, hscript, length_leBytes _ _⟩

theorem outputEncoding_iff (n : ℕ) (p : Bytes) (o : Output) :
    OutputEncoding n p o ↔ ∃ w, TxOut.Encoding p w ∧ o = w.output n := by
  constructor
  · rintro ⟨v, script, rfl, hv, hscript, ho⟩
    refine ⟨⟨UInt64.ofNat (leValue v), o.scriptpubkey⟩, ⟨script, ?_, hscript⟩, ?_⟩
    · rw [← leBytes_uint64 hv]
    · rw [TxOut.output, TxOut.amount, ← leBytes_uint64 hv]
      exact ho
  · rintro ⟨w, ⟨script, rfl, hscript⟩, rfl⟩
    exact ⟨_, script, rfl, length_leBytes _ _, hscript, rfl⟩

theorem countedEncoding_iff {α β : Type} {E : ℕ → Bytes → β → Prop} {W : Bytes → α → Prop}
    {g : ℕ → α → β} (h : ∀ i p b, E i p b ↔ ∃ a, W p a ∧ b = g i a) {p : Bytes} {bs : List β} :
    CountedEncoding E p bs ↔ ∃ as, CountedEncoding (fun _ => W) p as ∧ bs = as.mapIdx g := by
  constructor
  · rintro ⟨l, n, q, rfl, hl, hlen, hlt, hr⟩
    obtain ⟨as, has, rfl⟩ := (Repeats.iff_mapIdx h).mp hr
    rw [List.length_mapIdx] at hlen hlt
    exact ⟨as, ⟨l, n, q, rfl, hl, hlen, hlt, has⟩, by simp only [Nat.zero_add]⟩
  · rintro ⟨as, ⟨l, n, q, rfl, hl, hlen, hlt, has⟩, rfl⟩
    refine ⟨l, n, q, rfl, hl, by rw [List.length_mapIdx]; exact hlen,
      by rw [List.length_mapIdx]; exact hlt, (Repeats.iff_mapIdx h).mpr ⟨as, has, ?_⟩⟩
    simp only [Nat.zero_add]

/-- The encodings of the fields are the encodings of wire transactions. -/
theorem fieldsEncoding_iff (p : Bytes) (f : Fields) :
    FieldsEncoding p f ↔ ∃ tx, Tx.Encoding p tx ∧ f = tx.fields := by
  have hins := @countedEncoding_iff _ _ _ _ _ fun _ => inputEncoding_iff
  have houts := @countedEncoding_iff _ _ _ _ _ outputEncoding_iff
  have hmap : ∀ is : List TxIn, (is.mapIdx fun _ => TxIn.outpoint) = is.map TxIn.outpoint :=
    fun is => List.ext_getElem (by simp) (by simp)
  constructor
  · rintro ⟨version, inputs, outputs, lockTime, rfl, hv, hversion, hin, hout, hlock, hlt⟩
    obtain ⟨is, his, hfin⟩ := hins.mp hin
    obtain ⟨os, hos, hfout⟩ := houts.mp hout
    have hver := leBytes_uint32.mp ⟨hv, rfl⟩
    have hlock' := leBytes_uint32.mp ⟨hlock, hlt⟩
    refine ⟨⟨f.version, is, os, f.lockTime⟩, ⟨inputs, outputs, ?_, his, hos⟩, ?_⟩
    · rw [hversion, UInt32.toUInt32_toInt32, ← hver, ← hlock']
    · obtain ⟨v, fi, fo, lt⟩ := f
      rw [hmap] at hfin
      exact Fields.mk.injEq .. ▸ ⟨rfl, hfin, hfout, rfl⟩
  · rintro ⟨tx, ⟨inputs, outputs, rfl, hin, hout⟩, rfl⟩
    obtain ⟨hv, hversion⟩ := leBytes_uint32.mpr (rfl : leBytes 4 tx.version.toUInt32.toNat = _)
    obtain ⟨hlock, hlt⟩ := leBytes_uint32.mpr (rfl : leBytes 4 tx.lockTime.toNat = _)
    refine ⟨_, inputs, outputs, _, rfl, hv, ?_, hins.mpr ⟨_, hin, (hmap _).symm⟩,
      houts.mpr ⟨_, hout, rfl⟩, hlock, hlt⟩
    rw [← hversion]
    rfl

theorem hydrate_ok_iff (buf : Bytes) (tx : Transaction) : hydrate buf = .ok tx ↔
    ∃ p w rest, buf = p ++ rest ∧ Tx.Encoding p w ∧ assemble p w.fields = .ok tx := by
  constructor
  · intro h
    obtain ⟨p, rest, f, hbuf, hp, htx⟩ := hydrate_fields h
    obtain ⟨w, hw, rfl⟩ := (fieldsEncoding_iff p f).mp hp
    exact ⟨p, w, rest, hbuf, hw, htx⟩
  · rintro ⟨p, w, rest, rfl, hw, htx⟩
    rw [hydrate_encoding ((fieldsEncoding_iff p _).mpr ⟨w, hw, rfl⟩), htx]

/-- No two encodings are prefixes of one buffer. -/
theorem Tx.Encoding.unique {p q r s : Bytes} {v w : Tx} (hp : Tx.Encoding p v)
    (hq : Tx.Encoding q w) (h : p ++ r = q ++ s) : p = q :=
  (readFields_decodes.unique ((fieldsEncoding_iff p _).mpr ⟨v, hp, rfl⟩)
    ((fieldsEncoding_iff q _).mpr ⟨w, hq, rfl⟩) h).1

end Wire

namespace Transaction
open Wire

/-- What `hydrate` returns for an encoding `p` of `w`. -/
structure DecodedFrom (p : Bytes) (w : Tx) (tx : Transaction) : Prop where
  serialized : tx.serialized = p
  version : tx.version = w.version
  lockTime : tx.lockTime = w.lockTime
  inputs : tx.inputs = w.inputs.map TxIn.outpoint
  outputs_length : tx.outputs.length = w.outputs.length
  output : ∀ (i : ℕ) (o : TxOut), w.outputs[i]? = some o → ∃ m, tx.outputs[i]? = some m ∧
    m.scriptpubkey = o.scriptpubkey ∧ m.prevOutIdx.toNat = i ∧ m.prevTxId = tx.txid ∧
    (o.value.toNat < 2 ^ 63 → m.value = o.value)

theorem decodedFrom {p : Bytes} {w : Tx} {tx : Transaction} (hw : Tx.Encoding p w)
    (h : assemble p w.fields = .ok tx) : DecodedFrom p w tx := by
  obtain ⟨hser, -, hin, hout, -⟩ := assemble_eq h
  obtain ⟨hversion, hlock⟩ := assemble_header h
  refine ⟨hser, hversion, hlock, hin, ?_, ?_⟩
  · rw [hout, List.length_map, Tx.fields_outputs_length]
  · intro i o ho
    have hi := hw.outputs_lt ho
    have hidx : (UInt32.ofNat i).toNat = i := UInt32.toNat_ofNat_of_lt' hi
    refine ⟨⟨tx.txid, UInt32.ofNat i, o.amount, o.scriptpubkey⟩, ?_, rfl, hidx, rfl, ?_⟩
    · rw [hout, List.getElem?_map, Tx.fields_output ho, Option.map_some, TxOut.output]
    · intro hv
      simp only [TxOut.amount_eq hv]

/-- `hydrate` ends on every buffer without reading outside it. It accepts exactly the
buffers that start with an encoding, which is then unique, and returns its fields
whatever follows it. -/
theorem hydrate_format (buf : Bytes) :
    (hydrate buf = .error .refuse ∨ ∃ tx, hydrate buf = .ok tx) ∧
      ((∃ tx, hydrate buf = .ok tx) ↔ ∃ p w rest, buf = p ++ rest ∧ Tx.Encoding p w) ∧
      ∀ p w rest, buf = p ++ rest → Tx.Encoding p w →
        (∀ q v rest', buf = q ++ rest' → Tx.Encoding q v → q = p) ∧
        ∃ tx, hydrate buf = .ok tx ∧ DecodedFrom p w tx ∧
          ∀ rest', hydrate (p ++ rest') = .ok tx := by
  have hok : ∀ p w, Tx.Encoding p w → ∃ tx, DecodedFrom p w tx ∧
      ∀ rest', hydrate (p ++ rest') = .ok tx := by
    intro p w hw
    obtain ⟨tx, htx⟩ := assemble_total p w.fields
    exact ⟨tx, decodedFrom hw htx, fun rest' =>
      (hydrate_ok_iff _ tx).mpr ⟨p, w, rest', rfl, hw, htx⟩⟩
  refine ⟨?_, ⟨?_, ?_⟩, ?_⟩
  · cases htx : hydrate buf with
    | ok tx => exact .inr ⟨tx, rfl⟩
    | error e =>
        cases e with
        | refuse => exact .inl rfl
        | outOfBounds => exact absurd htx (hydrate_safe buf)
        | exhausted => exact absurd htx (hydrate_terminates buf)
  · rintro ⟨tx, htx⟩
    obtain ⟨p, w, rest, hbuf, hw, -⟩ := (hydrate_ok_iff buf tx).mp htx
    exact ⟨p, w, rest, hbuf, hw⟩
  · rintro ⟨p, w, rest, rfl, hw⟩
    obtain ⟨tx, -, htx⟩ := hok p w hw
    exact ⟨tx, htx rest⟩
  · rintro p w rest rfl hw
    obtain ⟨tx, hdec, htx⟩ := hok p w hw
    exact ⟨fun q v rest' hbuf hv => hv.unique hw hbuf.symm, tx, htx rest, hdec, htx⟩

end Transaction
end SlpGraphSearch
