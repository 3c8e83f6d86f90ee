import SlpGraphSearch.Transaction

/-!
# The transaction format

The wire format that `transaction::hydrate` reads, as a relation between bytes
and fields, and what follows for every decoded transaction: its serialization is
a prefix of the buffer that decodes to the same transaction whatever follows it,
and its fields satisfy the bounds and the SLP restrictions that later code relies
on.
-/
namespace SlpGraphSearch
open Library Cursor

namespace Transaction

/-! ## Encodings -/

/-- A script with its length in front. -/
def ScriptEncoding (p s : Bytes) : Prop :=
  ∃ l n, p = l ++ s ∧ VarInt l n ∧ s.length = n.toNat ∧ s.length < maxTxSize

/-- An input: the spent outpoint, a signature script and a sequence number. -/
def InputEncoding (p : Bytes) (o : Outpoint) : Prop :=
  ∃ idx script sig seq, p = o.txid.v ++ (idx ++ (script ++ seq)) ∧ idx.length = 4 ∧
    o.vout = UInt32.ofNat (leValue idx) ∧ ScriptEncoding script sig ∧ seq.length = 4

/-- The output at position `i`. -/
def OutputEncoding (i : ℕ) (p : Bytes) (o : Output) : Prop :=
  ∃ v script, p = v ++ script ∧ v.length = 8 ∧ ScriptEncoding script o.scriptpubkey ∧
    o = ⟨.zero, UInt32.ofNat i, absI64 v, o.scriptpubkey⟩

/-- A list with its length in front. -/
def CountedEncoding {α : Type} (E : ℕ → Bytes → α → Prop) (p : Bytes) (as : List α) : Prop :=
  ∃ l n q, p = l ++ q ∧ VarInt l n ∧ as.length = n.toNat ∧ as.length < maxTxSize ∧
    Repeats E 0 q as

def FieldsEncoding (p : Bytes) (f : Fields) : Prop :=
  ∃ version inputs outputs lockTime,
    p = version ++ (inputs ++ (outputs ++ lockTime)) ∧ version.length = 4 ∧
    f.version = (UInt32.ofNat (leValue version)).toInt32 ∧
    CountedEncoding (fun _ => InputEncoding) inputs f.inputs ∧
    CountedEncoding OutputEncoding outputs f.outputs ∧
    lockTime.length = 4 ∧ f.lockTime = UInt32.ofNat (leValue lockTime)

/-! ## The decoders meet their encodings -/

theorem checkedU32_decodes {b : ℕ} (hb : b ≤ 5) :
    Decodes b 1 checkedU32 fun p x => p.length = 4 ∧ x = UInt32.ofNat (leValue p) :=
  Decodes.checkedRead rfl hb _

theorem checkedAbsI64_decodes :
    Decodes 1 1 checkedAbsI64 fun p x => p.length = 8 ∧ x = absI64 p :=
  Decodes.checkedRead rfl (by omega) _

theorem readScript_decodes : Decodes 1 1 readScript ScriptEncoding := by
  refine ((checkedVarInt_decodes 1).bind fun n => (Decodes.require (n.toNat < maxTxSize)).bind
    fun _ => Decodes.checkedTake (n := n.toNat) (k := n.toNat) (a := 1) rfl
      (Nat.le_add_left 1 _)).congr fun p s => ?_
  constructor
  · rintro ⟨l, _, n, rfl, hl, _, q, -, rfl, ⟨rfl, hn⟩, hq, rfl⟩
    exact ⟨l, n, rfl, hl, hq, hq ▸ hn⟩
  · rintro ⟨l, n, rfl, hl, hs, hn⟩
    exact ⟨l, s, n, rfl, hl, [], s, (), rfl, ⟨rfl, hs ▸ hn⟩, hs, rfl⟩

theorem readInput_decodes : Decodes 1 1 readInput InputEncoding := by
  refine ((Decodes.checkedTake (n := 32) (k := 32) (a := 1) rfl (by omega)).bind fun prevTxId =>
    (checkedU32_decodes (by omega)).bind fun prevOutIdx => readScript_decodes.bind fun _ =>
      (checkedU32_decodes (by omega)).map fun _ =>
        (⟨.ofBytes prevTxId, prevOutIdx⟩ : Outpoint)).congr fun p o => ?_
  constructor
  · rintro ⟨h, _, _, rfl, ⟨hh, rfl⟩, idx, _, _, rfl, ⟨hi, rfl⟩, script, seq, sig, rfl, hsig,
      _, ⟨hseq, -⟩, rfl⟩
    exact ⟨idx, script, sig, seq, by rw [Bhash.ofBytes_v hh], hi, rfl, hsig, hseq⟩
  · rintro ⟨idx, script, sig, seq, rfl, hi, hv, hsig, hseq⟩
    refine ⟨o.txid.v, _, _, rfl, ⟨o.txid.size_eq, rfl⟩, idx, _, _, rfl, ⟨hi, rfl⟩, script, seq,
      sig, rfl, hsig, _, ⟨hseq, rfl⟩, ?_⟩
    cases o
    simp only [Outpoint.mk.injEq]
    exact ⟨Bhash.ext_v (Bhash.ofBytes_v (Bhash.size_eq _)).symm, hv⟩

theorem readOutput_decodes (i : ℕ) : Decodes 1 1 (readOutput i) (OutputEncoding i) := by
  refine (checkedAbsI64_decodes.bind fun value => readScript_decodes.map fun scriptpubkey =>
    (⟨.zero, UInt32.ofNat i, value, scriptpubkey⟩ : Output)).congr fun p o => ?_
  constructor
  · rintro ⟨v, script, _, rfl, ⟨hv, rfl⟩, _, hs, rfl⟩
    exact ⟨v, script, rfl, hv, hs, rfl⟩
  · rintro ⟨v, script, rfl, hv, hs, ho⟩
    exact ⟨v, script, _, rfl, ⟨hv, rfl⟩, _, hs, ho⟩

theorem readCounted_decodes {α : Type} {body : ℕ → Cursor α} {E : ℕ → Bytes → α → Prop}
    (h : ∀ i, Decodes 1 1 (body i) (E i)) :
    Decodes 1 1 (readCounted body) (CountedEncoding E) := by
  refine ((checkedVarInt_decodes 1).bind fun n => (Decodes.require (n.toNat < maxTxSize)).bind
    fun _ => Decodes.loop h n.toNat 0).congr fun p as => ?_
  constructor
  · rintro ⟨l, _, n, rfl, hl, _, q, -, rfl, ⟨rfl, hn⟩, has, hr⟩
    exact ⟨l, n, q, rfl, hl, has, has ▸ hn, hr⟩
  · rintro ⟨l, n, q, rfl, hl, has, hn, hr⟩
    exact ⟨l, q, n, rfl, hl, [], q, (), rfl, ⟨rfl, has ▸ hn⟩, has, hr⟩

/-- The fields are read exactly, from any buffer, and nothing is read outside it. -/
theorem readFields_decodes : Decodes 0 0 readFields FieldsEncoding := by
  refine ((checkedU32_decodes (by omega)).bind fun version =>
    (readCounted_decodes fun _ => readInput_decodes).bind fun inputs =>
      (readCounted_decodes readOutput_decodes).bind fun outputs =>
        (Decodes.checkedTake (n := 4) (k := 3) (b := 1) (a := 0) rfl (by omega)).map
          fun lockTime => (⟨version.toInt32, inputs, outputs,
            UInt32.ofNat (leValue lockTime)⟩ : Fields)).congr fun p f => ?_
  constructor
  · rintro ⟨v, _, _, rfl, ⟨hv, rfl⟩, ins, _, _, rfl, hins, outs, lock, _, rfl, houts, _,
      ⟨hlock, rfl⟩, rfl⟩
    exact ⟨v, ins, outs, _, rfl, hv, rfl, hins, houts, hlock, rfl⟩
  · rintro ⟨v, ins, outs, lock, rfl, hv, hversion, hins, houts, hlock, hlt⟩
    refine ⟨v, _, _, rfl, ⟨hv, rfl⟩, ins, _, _, rfl, hins, outs, lock, _, rfl, houts, _,
      ⟨hlock, rfl⟩, ?_⟩
    cases f
    simp only [Fields.mk.injEq, true_and]
    exact ⟨hversion, hlt⟩

theorem readScript_terminates : Terminates readScript :=
  (checkedVarInt_terminates 1).bind fun _ => (Terminates.require _).bind fun _ => .checkedTake _ _

theorem checkedU32_terminates : Terminates checkedU32 :=
  (Terminates.checkEnd 4).bind fun _ => (Terminates.take 4).bind fun _ => .pure _

theorem readInput_terminates : Terminates readInput :=
  (Terminates.checkedTake 32 32).bind fun _ => checkedU32_terminates.bind fun _ =>
    readScript_terminates.bind fun _ => checkedU32_terminates.bind fun _ => .pure _

theorem readOutput_terminates (i : ℕ) : Terminates (readOutput i) :=
  ((Terminates.checkEnd 8).bind fun _ => (Terminates.take 8).bind fun _ => .pure _).bind fun _ =>
    readScript_terminates.bind fun _ => .pure _

theorem readCounted_terminates {α : Type} {body : ℕ → Cursor α} (h : ∀ i, Terminates (body i)) :
    Terminates (readCounted body) :=
  (checkedVarInt_terminates 1).bind fun _ => (Terminates.require _).bind fun _ => .loop h _ _

theorem readFields_terminates : Terminates readFields :=
  checkedU32_terminates.bind fun _ => (readCounted_terminates fun _ => readInput_terminates).bind
    fun _ => (readCounted_terminates readOutput_terminates).bind fun _ =>
      (Terminates.checkedTake 3 4).bind fun _ => .pure _

/-! ## Decoded transactions -/

/-- The rest of `hydrate`, once the fields and the copied bytes are known. -/
def assemble (serialized : Bytes) (f : Fields) : Except Stop Transaction := do
  let txid := Sha2.sha256d serialized
  let outputs := f.outputs.map fun m => { m with prevTxId := txid }
  let slp ← hydrateSlp txid outputs
  .ok ⟨txid, f.version, f.lockTime, f.inputs, outputs, slp, serialized⟩

theorem hydrate_encoding {p rest : Bytes} {f : Fields} (h : FieldsEncoding p f) :
    hydrate (p ++ rest) = assemble p f := by
  have hread := readFields_decodes.complete p f rest h (Nat.zero_le _)
  have hser : (p ++ rest).take ((p ++ rest).length - rest.length) = p := by
    rw [List.length_append, Nat.add_sub_cancel, List.take_left]
  rw [hydrate, hread]
  simp only [bind, Except.bind, hser]
  rfl

theorem hydrate_fields {buf : Bytes} {tx : Transaction} (h : hydrate buf = .ok tx) :
    ∃ p rest f, buf = p ++ rest ∧ FieldsEncoding p f ∧ assemble p f = .ok tx := by
  cases hr : readFields buf with
  | error e => simp [hydrate, hr, bind, Except.bind] at h
  | ok r =>
      obtain ⟨-, p, rfl, hp⟩ := readFields_decodes.sound buf r.1 r.2 (Nat.zero_le _) hr
      exact ⟨p, r.2, r.1, rfl, hp, hydrate_encoding hp ▸ h⟩

theorem assemble_eq {p : Bytes} {f : Fields} {tx : Transaction} (h : assemble p f = .ok tx) :
    tx.serialized = p ∧ tx.txid = Sha2.sha256d p ∧ tx.inputs = f.inputs ∧
      tx.outputs = f.outputs.map (fun m => { m with prevTxId := tx.txid }) ∧
      hydrateSlp tx.txid tx.outputs = .ok tx.slp := by
  simp only [assemble, bind, Except.bind] at h
  split at h
  · simp at h
  · rename_i slp hslp
    simp only [Except.ok.injEq] at h
    subst h
    exact ⟨rfl, rfl, rfl, rfl, hslp⟩

theorem assemble_header {p : Bytes} {f : Fields} {tx : Transaction}
    (h : assemble p f = .ok tx) : tx.version = f.version ∧ tx.lockTime = f.lockTime := by
  simp only [assemble, bind, Except.bind] at h
  split at h
  · simp at h
  · simp only [Except.ok.injEq] at h
    subst h
    exact ⟨rfl, rfl⟩

/-- Decoding never fails once the fields are read. -/
theorem assemble_total (p : Bytes) (f : Fields) : ∃ tx, assemble p f = .ok tx := by
  have hslp : ∀ txid outputs, ∃ slp, hydrateSlp txid outputs = .ok slp := by
    intro txid outputs
    unfold hydrateSlp
    split
    · exact ⟨_, rfl⟩
    · rename_i o os
      split_ifs
      · obtain ⟨t, b, ht⟩ := hydrate_total .empty o.scriptpubkey
        simp only [ht, bind, Except.bind]
        exact ⟨_, rfl⟩
      · exact ⟨_, rfl⟩
  obtain ⟨slp, hslp⟩ := hslp (Sha2.sha256d p)
    (f.outputs.map fun m => { m with prevTxId := Sha2.sha256d p })
  simp only [assemble, hslp, bind, Except.bind]
  exact ⟨_, rfl⟩

/-- The serialization is a prefix of the buffer, and decodes to the same
transaction in front of any bytes. -/
theorem hydrate_serialized {buf : Bytes} {tx : Transaction} (h : hydrate buf = .ok tx) :
    (∃ rest, buf = tx.serialized ++ rest) ∧
      ∀ rest, hydrate (tx.serialized ++ rest) = .ok tx := by
  obtain ⟨p, rest, f, rfl, hp, htx⟩ := hydrate_fields h
  obtain ⟨rfl, -⟩ := assemble_eq htx
  exact ⟨⟨rest, rfl⟩, fun rest' => (hydrate_encoding hp).trans htx⟩

/-- Fields that were read make a transaction. -/
theorem hydrate_of_readFields {buf : Bytes} {r : Fields × Bytes} (hr : readFields buf = .ok r) :
    ∃ tx, hydrate buf = .ok tx := by
  obtain ⟨-, p, rfl, hp⟩ := readFields_decodes.sound buf r.1 r.2 (Nat.zero_le _) hr
  obtain ⟨tx, htx⟩ := assemble_total p r.1
  exact ⟨tx, (hydrate_encoding hp).trans htx⟩

/-- The decoder never reads outside the buffer. -/
theorem hydrate_safe (buf : Bytes) : hydrate buf ≠ .error .outOfBounds := by
  cases hr : readFields buf with
  | error e =>
      have hsafe := readFields_decodes.safe buf (Nat.zero_le _)
      simpa [hydrate, hr, bind, Except.bind] using hsafe
  | ok r =>
      obtain ⟨tx, htx⟩ := hydrate_of_readFields hr
      simp [htx]

theorem hydrate_terminates (buf : Bytes) : hydrate buf ≠ .error .exhausted := by
  cases hr : readFields buf with
  | error e =>
      have hend := readFields_terminates buf
      simpa [hydrate, hr, bind, Except.bind] using hend
  | ok r =>
      obtain ⟨tx, htx⟩ := hydrate_of_readFields hr
      simp [htx]

/-- A transaction that came out of `hydrate`. -/
def Hydrated (tx : Transaction) : Prop := ∃ buf, hydrate buf = .ok tx

theorem Hydrated.txid_eq {tx : Transaction} (h : tx.Hydrated) :
    tx.txid = Sha2.sha256d tx.serialized := by
  obtain ⟨buf, h⟩ := h
  obtain ⟨p, rest, f, -, -, htx⟩ := hydrate_fields h
  obtain ⟨rfl, hid, -⟩ := assemble_eq htx
  exact hid

theorem Hydrated.serialized_length {tx : Transaction} (h : tx.Hydrated) :
    4 ≤ tx.serialized.length := by
  obtain ⟨buf, h⟩ := h
  obtain ⟨p, rest, f, -, ⟨version, inputs, outputs, lockTime, hp, hversion, -⟩, htx⟩ :=
    hydrate_fields h
  rw [(assemble_eq htx).1, hp, List.length_append, hversion]
  exact Nat.le_add_right _ _

/-- The serialization determines the transaction. -/
theorem Hydrated.eq_of_serialized {t u : Transaction} (ht : t.Hydrated) (hu : u.Hydrated)
    (h : t.serialized = u.serialized) : t = u := by
  obtain ⟨buf, ht⟩ := ht
  obtain ⟨buf', hu⟩ := hu
  have h₁ := (hydrate_serialized ht).2 []
  rw [h, (hydrate_serialized hu).2 []] at h₁
  exact (Except.ok.inj h₁).symm

theorem Hydrated.inputs_length {tx : Transaction} (h : tx.Hydrated) :
    tx.inputs.length < maxTxSize := by
  obtain ⟨buf, h⟩ := h
  obtain ⟨p, rest, f, -, hp, htx⟩ := hydrate_fields h
  obtain ⟨-, -, hin, -⟩ := assemble_eq htx
  obtain ⟨_, _, _, _, -, -, -, ⟨_, _, _, -, -, -, hlen, -⟩, -⟩ := hp
  exact hin ▸ hlen

/-- Every output carries the transaction's id and its own position. -/
theorem Hydrated.outpoint_eq {tx : Transaction} (h : tx.Hydrated) {i : ℕ} {o : Output}
    (ho : tx.outputs[i]? = some o) : o.outpoint = ⟨tx.txid, UInt32.ofNat i⟩ ∧ i < maxTxSize := by
  obtain ⟨buf, h⟩ := h
  obtain ⟨p, rest, f, -, hp, htx⟩ := hydrate_fields h
  obtain ⟨-, -, -, hout, -⟩ := assemble_eq htx
  obtain ⟨_, _, _, _, -, -, -, -, ⟨_, _, _, -, -, -, hlen, hrep⟩, -⟩ := hp
  rw [hout, List.getElem?_map, Option.map_eq_some_iff] at ho
  obtain ⟨m, hm, rfl⟩ := ho
  obtain ⟨_, _, _, -, -, -, hmi⟩ := hrep.getElem? hm
  have hi := (List.getElem?_eq_some_iff.mp hm).1
  rw [hmi, Nat.zero_add]
  exact ⟨rfl, by omega⟩

theorem Hydrated.outpoint_txid {tx : Transaction} (h : tx.Hydrated) {o : Output}
    (ho : o ∈ tx.outputs) : o.outpoint.txid = tx.txid := by
  obtain ⟨i, hi⟩ := List.mem_iff_getElem?.mp ho
  rw [(h.outpoint_eq hi).1]

theorem Hydrated.prevOutIdx_toNat {tx : Transaction} (h : tx.Hydrated) {i : ℕ} {o : Output}
    (ho : tx.outputs[i]? = some o) : o.prevOutIdx.toNat = i := by
  obtain ⟨hout, hlt⟩ := h.outpoint_eq ho
  rw [show o.prevOutIdx = UInt32.ofNat i from congrArg Outpoint.vout hout]
  exact UInt32.toNat_ofNat_of_lt' (hlt.trans (by decide))

/-- Every output is found at its own position. -/
theorem Hydrated.getElem?_prevOutIdx {tx : Transaction} (h : tx.Hydrated) {o : Output}
    (ho : o ∈ tx.outputs) : tx.outputs[o.prevOutIdx.toNat]? = some o := by
  obtain ⟨i, hi⟩ := List.mem_iff_getElem?.mp ho
  rw [h.prevOutIdx_toNat hi, hi]

/-- The SLP part of a decoded transaction stands in its first output, an OP_RETURN. -/
theorem Hydrated.slp_output {tx : Transaction} (h : tx.Hydrated) (ht : tx.slp.type ≠ .invalid) :
    ∃ o os, tx.outputs = o :: os ∧ o.isOpReturn = true ∧
      hydrateSlp tx.txid (o :: os) = .ok tx.slp := by
  obtain ⟨buf, h⟩ := h
  obtain ⟨p, rest, f, -, -, htx⟩ := hydrate_fields h
  obtain ⟨-, -, -, -, hslp⟩ := assemble_eq htx
  cases hout : tx.outputs with
  | nil =>
      simp only [hydrateSlp, hout, Except.ok.injEq] at hslp
      exact absurd (hslp ▸ rfl) ht
  | cons o os =>
      refine ⟨o, os, rfl, ?_, hout ▸ hslp⟩
      by_contra hop
      simp only [hydrateSlp, hout, if_neg hop, Except.ok.injEq] at hslp
      exact absurd (hslp ▸ rfl) ht

/-- The SLP part of a decoded transaction is a record of the grammar; only the
token id of a GENESIS comes from the transaction itself. -/
theorem Hydrated.slp_record {tx : Transaction} (h : tx.Hydrated) (ht : tx.slp.type ≠ .invalid) :
    tx.outputs ≠ [] ∧ ∃ ps t, SlpRecord .zero ps t ∧ tx.slp.tokenType = t.tokenType ∧
      tx.slp.slpTx = t.slpTx ∧ (t.type = .genesis → tx.slp.tokenid = tx.txid) := by
  obtain ⟨o, os, hout, hop, hslp⟩ := h.slp_output ht
  simp only [hydrateSlp, if_pos hop] at hslp
  cases hr : SlpTransaction.hydrate .empty o.scriptpubkey with
  | error e => simp [hr, bind, Except.bind] at hslp
  | ok r =>
      obtain ⟨t, b⟩ := r
      simp only [hr, bind, Except.bind, Except.ok.injEq] at hslp
      have hslpTx : tx.slp.slpTx = t.slpTx := by rw [← hslp]; split_ifs <;> rfl
      obtain ⟨ps, hrec⟩ := hydrate_record .empty hr fun hinv => ht (by
        rw [SlpTransaction.type, hslpTx]; exact hinv)
      exact ⟨by simp [hout], ps, t, hrec, by rw [← hslp]; split_ifs <;> rfl, hslpTx,
        fun hg => by rw [← hslp, if_pos hg]⟩

theorem Hydrated.outputs_ne_nil {tx : Transaction} (h : tx.Hydrated)
    (ht : tx.slp.type ≠ .invalid) : tx.outputs ≠ [] := (h.slp_record ht).1

theorem Hydrated.tokenType {tx : Transaction} (h : tx.Hydrated) (ht : tx.slp.type ≠ .invalid) :
    tx.slp.tokenType = 0x01 ∨ tx.slp.tokenType = 0x41 ∨ tx.slp.tokenType = 0x81 := by
  obtain ⟨-, ps, t, hrec, htype, -⟩ := h.slp_record ht
  rw [htype]
  cases hrec with
  | genesis hty => exact hty.2.2
  | mint hty => exact hty.2.2
  | send hty => exact hty.2.2

theorem Hydrated.genesis {tx : Transaction} (h : tx.Hydrated) {s : SlpTransactionGenesis}
    (hs : tx.slp.slpTx = .genesis s) :
    tx.slp.tokenid = tx.txid ∧ (tx.slp.tokenType = 0x41 → s.qty = 1 ∧ s.mintBatonVout = 0) := by
  obtain ⟨-, ps, t, hrec, htype, hslpTx, hid⟩ :=
    h.slp_record (by simp [SlpTransaction.type_eq_genesis.mpr ⟨s, hs⟩])
  rw [hs] at hslpTx
  cases hrec with
  | genesis hty hh hd hb hq hc =>
      rw [SlpTx.genesis.injEq] at hslpTx
      subst hslpTx
      refine ⟨hid rfl, fun h41 => ?_⟩
      obtain ⟨-, rfl, hqty⟩ := hc (htype.symm.trans h41)
      exact ⟨by rw [hqty]; rfl, rfl⟩
  | mint => simp at hslpTx
  | send => simp at hslpTx

theorem Hydrated.genesis_tokenid {tx : Transaction} (h : tx.Hydrated)
    (ht : tx.slp.type = .genesis) : tx.slp.tokenid = tx.txid := by
  obtain ⟨g, hg⟩ := SlpTransaction.type_eq_genesis.mp ht
  exact (h.genesis hg).1

theorem Hydrated.mint {tx : Transaction} (h : tx.Hydrated) {s : SlpTransactionMint}
    (hs : tx.slp.slpTx = .mint s) : tx.slp.tokenType ≠ 0x41 := by
  obtain ⟨-, ps, t, hrec, htype, hslpTx, -⟩ :=
    h.slp_record (by simp [SlpTransaction.type_eq_mint.mpr ⟨s, hs⟩])
  rw [hs] at hslpTx
  cases hrec with
  | genesis => simp at hslpTx
  | mint hty hne => exact htype ▸ hne
  | send => simp at hslpTx

theorem Hydrated.send {tx : Transaction} (h : tx.Hydrated) {s : SlpTransactionSend}
    (hs : tx.slp.slpTx = .send s) : 1 ≤ s.amounts.length ∧ s.amounts.length ≤ 19 := by
  obtain ⟨-, ps, t, hrec, htype, hslpTx, -⟩ :=
    h.slp_record (by simp [SlpTransaction.type_eq_send.mpr ⟨s, hs⟩])
  rw [hs] at hslpTx
  cases hrec with
  | genesis => simp at hslpTx
  | mint => simp at hslpTx
  | send hty hi hp h19 h8 =>
      rw [SlpTx.send.injEq] at hslpTx
      subst hslpTx
      simp [hp, h19]

end Transaction
end SlpGraphSearch
