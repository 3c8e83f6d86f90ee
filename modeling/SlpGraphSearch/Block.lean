import SlpGraphSearch.TopologicalSort
import SlpGraphSearch.TransactionEncoder

/-!
# Blocks

The block decoder and writer of `block.hpp`. The decoder leaves the iterator behind
each transaction by the length of its serialization, so what the writer wrote is
read back exactly.
-/
namespace SlpGraphSearch
open Library Cursor

structure Block where
  blockHash : Blockhash
  version : UInt32
  prevBlock : Txid
  merkleRoot : Txid
  timestamp : UInt32
  bits : UInt32
  nonce : UInt32
  txs : List Transaction

namespace Block

/-- The fields of the header in memory order. -/
def header (b : Block) : Bytes :=
  leBytes 4 b.version.toNat ++ (b.prevBlock.v ++ (b.merkleRoot.v ++
    (leBytes 4 b.timestamp.toNat ++ (leBytes 4 b.bits.toNat ++ leBytes 4 b.nonce.toNat))))

/-- The block with the hash of its header. -/
def hashed (b : Block) : Block := { b with blockHash := Sha2.sha256d b.header }

/-- One iteration of the transaction loop, which starts with `CHECK_END(0)`. -/
def readTransaction : Cursor Transaction := do
  checkEnd 0
  fun it => do
    let tx ← Transaction.hydrate it
    .ok (tx, it.drop tx.serialized.length)

/-- The reads of `hydrate`. The test before the number of transactions leaves out
its first byte. -/
def readBlock (slpOnly : Bool) : Cursor Block := do
  let version ← Transaction.checkedU32
  let prevBlock ← checkedTake 32 32
  let merkleRoot ← checkedTake 32 32
  let timestamp ← Transaction.checkedU32
  let bits ← Transaction.checkedU32
  let nonce ← Transaction.checkedU32
  let txnCount ← checkedVarInt 0
  let txs ← loop (fun _ => readTransaction) 0 txnCount.toNat
  pure (hashed ⟨.zero, version, .ofBytes prevBlock, .ofBytes merkleRoot, timestamp, bits, nonce,
    txs.filter fun tx => ¬ slpOnly ∨ tx.slp.type ≠ .invalid⟩)

/-- `block::hydrate` on a fresh object. -/
def hydrate (buf : Bytes) (slpOnly : Bool) : Except Stop Block := do
  let (b, _) ← readBlock slpOnly buf
  .ok b

def serialize (b : Block) : Bytes :=
  b.header ++ (numToVarInt (UInt64.ofNat b.txs.length) ++ b.txs.flatMap Transaction.serialized)

/-! ## The block format -/

/-- The bytes of a block: its header, the number of transactions and the transactions. -/
def BlockEncoding (p : Bytes) (b : Block) : Prop :=
  ∃ l n q, p = b.header ++ (l ++ q) ∧ VarInt l n ∧ b.txs.length = n.toNat ∧
    Repeats (fun _ p tx => tx.Hydrated ∧ p = tx.serialized) 0 q b.txs ∧
    b.blockHash = Sha2.sha256d b.header

theorem readTransaction_decodes :
    Decodes 0 0 readTransaction fun p tx => tx.Hydrated ∧ p = tx.serialized where
  complete := by
    rintro p tx rest ⟨hhyd, rfl⟩ -
    have hlen := hhyd.serialized_length
    obtain ⟨buf, h⟩ := hhyd
    have hpos : 0 < (tx.serialized ++ rest).length := by
      rw [List.length_append]
      omega
    rw [readTransaction, run_bind, checkEnd_ok hpos]
    simp only [Except.bind, bind, (Transaction.hydrate_serialized h).2 rest, List.drop_left]
  sound := by
    intro it tx rest _ h
    rw [readTransaction, run_bind] at h
    cases hc : checkEnd 0 it with
    | error e => simp [hc, Except.bind] at h
    | ok r =>
        obtain ⟨-, rfl⟩ : it.length ≠ 0 ∧ r.2 = it := by
          unfold checkEnd at hc
          split_ifs at hc with hlen
          exact ⟨by omega, congrArg Prod.snd (Except.ok.inj hc).symm⟩
        simp only [hc, Except.bind, bind] at h
        cases htx : Transaction.hydrate r.2 with
        | error e => simp [htx] at h
        | ok u =>
            simp only [htx, Except.ok.injEq, Prod.mk.injEq] at h
            obtain ⟨rfl, rfl⟩ := h
            obtain ⟨rest, hrest⟩ := (Transaction.hydrate_serialized htx).1
            exact ⟨Nat.zero_le _, u.serialized, by rw [hrest, List.drop_left], ⟨_, htx⟩, rfl⟩
  safe := by
    intro it _
    rw [readTransaction, run_bind]
    unfold checkEnd
    split_ifs
    · simp [Except.bind]
    · have hsafe := Transaction.hydrate_safe it
      simp only [Except.bind, bind]
      cases htx : Transaction.hydrate it with
      | error e => simpa [htx] using hsafe
      | ok u => simp
  room := by simp

/-- Blocks are read exactly, and nothing is read outside the buffer. -/
theorem readBlock_decodes : Decodes 0 0 (readBlock false) BlockEncoding := by
  refine ((Transaction.checkedU32_decodes (by omega)).bind fun version =>
    (Decodes.checkedTake (n := 32) (k := 32) (a := 1) (b := 1) rfl (by omega)).bind fun prevBlock =>
    (Decodes.checkedTake (n := 32) (k := 32) (a := 1) (b := 1) rfl (by omega)).bind fun merkleRoot =>
    (Transaction.checkedU32_decodes (b := 1) (by omega)).bind fun timestamp =>
    (Transaction.checkedU32_decodes (b := 1) (by omega)).bind fun bits =>
    (Transaction.checkedU32_decodes (b := 1) (by omega)).bind fun nonce =>
    (checkedVarInt_decodes 0).bind fun txnCount =>
    (Decodes.loop (fun _ => readTransaction_decodes) txnCount.toNat 0).map fun txs =>
      hashed ⟨.zero, version, .ofBytes prevBlock, .ofBytes merkleRoot, timestamp, bits, nonce,
        txs.filter fun tx => ¬ false ∨ tx.slp.type ≠ .invalid⟩).congr fun p b => ?_
  constructor
  · rintro ⟨version, _, v, rfl, hversion, prevBlock, _, _, rfl, ⟨hprev, rfl⟩, merkleRoot, _, _, rfl,
      ⟨hroot, rfl⟩, time, _, t, rfl, htime, bits, _, c, rfl, hbits, nonce, _, n, rfl, hnonce,
      l, q, m, rfl, hl, txs, ⟨hlen, hr⟩, rfl⟩
    rw [leBytes_uint32] at hversion htime hbits hnonce
    have hfilter : (txs.filter fun tx => ¬ (false = true) ∨ tx.slp.type ≠ .invalid) = txs :=
      List.filter_eq_self.mpr fun _ _ => by simp
    refine ⟨l, m, q, ?_, hl, by rw [← hlen]; exact congrArg List.length hfilter, ?_, rfl⟩
    · simp only [hashed, header, Bhash.ofBytes_v hprev, Bhash.ofBytes_v hroot, ← hversion,
        ← htime, ← hbits, ← hnonce, List.append_assoc]
    · exact hfilter.symm ▸ hr
  · rintro ⟨l, n, q, rfl, hl, hlen, hr, hhash⟩
    refine ⟨_, _, b.version, by rw [header, List.append_assoc], leBytes_uint32.mpr rfl,
      b.prevBlock.v, _, _, by rw [List.append_assoc], ⟨b.prevBlock.size_eq, rfl⟩,
      b.merkleRoot.v, _, _, by rw [List.append_assoc], ⟨b.merkleRoot.size_eq, rfl⟩,
      _, _, b.timestamp, by rw [List.append_assoc], leBytes_uint32.mpr rfl,
      _, _, b.bits, by rw [List.append_assoc], leBytes_uint32.mpr rfl,
      _, _, b.nonce, rfl, leBytes_uint32.mpr rfl, l, q, n, rfl, hl, b.txs, ⟨hlen, hr⟩, ?_⟩
    have hfilter : (b.txs.filter fun tx => ¬ (false = true) ∨ tx.slp.type ≠ .invalid) = b.txs :=
      List.filter_eq_self.mpr fun _ _ => by simp
    rw [hfilter, Bhash.ofBytes_self, Bhash.ofBytes_self]
    cases b
    simp only [hashed, header] at hhash ⊢
    rw [hhash]

/-- What a block carries, without its hash. -/
def SameFields (b b' : Block) : Prop :=
  b.version = b'.version ∧ b.prevBlock = b'.prevBlock ∧ b.merkleRoot = b'.merkleRoot ∧
    b.timestamp = b'.timestamp ∧ b.bits = b'.bits ∧ b.nonce = b'.nonce ∧ b.txs = b'.txs

theorem serialize_encoding (b : Block) (hhyd : ∀ tx ∈ b.txs, tx.Hydrated)
    (hlen : b.txs.length < 2 ^ 64) : BlockEncoding b.serialize b.hashed := by
  refine ⟨_, _, _, rfl, varInt_numToVarInt _, ?_, ?_, rfl⟩
  · rw [UInt64.toNat_ofNat', Nat.mod_eq_of_lt hlen]
    rfl
  · have h : Repeats (fun _ p tx => tx.Hydrated ∧ p = tx.serialized) 0
        (b.txs.flatMap Transaction.serialized) (b.txs.mapIdx fun _ tx => tx) :=
      Repeats.flatMap (f := fun _ tx => tx) (fun _ tx htx => ⟨hhyd tx htx, rfl⟩) 0
    have hid : b.txs.mapIdx (fun _ tx => tx) = b.txs := List.mapIdx_eq_iff.mpr fun i => by simp
    rwa [hid] at h

/-- What the writer wrote is read back, whatever follows it. -/
theorem hydrate_serialize {b : Block} (hhyd : ∀ tx ∈ b.txs, tx.Hydrated)
    (hlen : b.txs.length < 2 ^ 64) (rest : Bytes) :
    hydrate (b.serialize ++ rest) false = .ok b.hashed := by
  have h := readBlock_decodes.complete _ _ rest (b.serialize_encoding hhyd hlen) (Nat.zero_le _)
  simp only [hydrate, h, bind, Except.bind]

/-- The number of transactions is read from 64 bits. -/
theorem length_txs_of_hydrate {buf : Bytes} {b : Block} (h : hydrate buf false = .ok b) :
    b.txs.length < 2 ^ 64 := by
  unfold hydrate at h
  cases hr : readBlock false buf with
  | error e => simp [hr, bind, Except.bind] at h
  | ok r =>
      simp only [hr, bind, Except.bind, Except.ok.injEq] at h
      subst h
      obtain ⟨-, p, -, l, n, q, -, -, hlen, -⟩ :=
        readBlock_decodes.sound buf r.1 r.2 (Nat.zero_le _) hr
      exact hlen ▸ n.toNat_lt

/-- The other direction needs the number of transactions in its shortest encoding. -/
theorem serialize_readBlock {buf l q : Bytes} {b : Block} {n : UInt64}
    (h : readBlock false buf = .ok (b, [])) (hbuf : buf.drop 80 = l ++ q)
    (hl : MinimalVarInt l n) : b.serialize = buf := by
  obtain ⟨-, p, hp, l', n', q', rfl, hl', hlen, hr, -⟩ :=
    readBlock_decodes.sound buf b [] (Nat.zero_le _) h
  rw [List.append_nil] at hp
  have hheader : b.header.length = 80 := by
    simp only [header, List.length_append, length_leBytes, b.prevBlock.size_eq,
      b.merkleRoot.size_eq]
  rw [hp, ← hheader, List.drop_left] at hbuf
  obtain ⟨rfl, rfl⟩ := (checkedVarInt_decodes 0).unique hl' hl.1 hbuf
  rw [minimalVarInt_iff] at hl
  rw [serialize, hp, hlen, UInt64.ofNat_toNat, ← hl, ← hr.eq_flatMap fun _ _ _ hE => hE.2]

/-- With `slp_only` the same bytes are read and fewer transactions kept. -/
theorem readBlock_slpOnly (slpOnly : Bool) : readBlock slpOnly = (do
    let b ← readBlock false
    pure { b with txs := b.txs.filter fun tx => ¬ slpOnly ∨ tx.slp.type ≠ .invalid }) := by
  have hfilter : ∀ txs : List Transaction,
      (txs.filter fun tx => ¬ (false = true) ∨ tx.slp.type ≠ .invalid) = txs := fun txs =>
    List.filter_eq_self.mpr fun _ _ => by simp
  simp only [readBlock, bind_assoc, pure_bind, hashed, header, hfilter]

theorem readTransaction_terminates : Terminates readTransaction := by
  refine (Terminates.checkEnd 0).bind fun _ it => ?_
  have hhydrate := Transaction.hydrate_terminates it
  cases htx : Transaction.hydrate it with
  | error e => simpa only [bind, Except.bind, htx, ne_eq, Except.error.injEq] using hhydrate
  | ok tx => simp [bind, Except.bind]

theorem readBlock_terminates (slpOnly : Bool) : Terminates (readBlock slpOnly) :=
  Transaction.checkedU32_terminates.bind fun _ => (Terminates.checkedTake 32 32).bind fun _ =>
    (Terminates.checkedTake 32 32).bind fun _ => Transaction.checkedU32_terminates.bind fun _ =>
      Transaction.checkedU32_terminates.bind fun _ => Transaction.checkedU32_terminates.bind
        fun _ => (checkedVarInt_terminates 0).bind fun _ =>
          (Terminates.loop (fun _ => readTransaction_terminates) _ _).bind fun _ => .pure _

/-- A transaction takes bytes from the buffer. -/
theorem readTransaction_advances {it rest : Bytes} {tx : Transaction}
    (h : readTransaction it = .ok (tx, rest)) : rest.length < it.length := by
  obtain ⟨-, p, rfl, hhyd, rfl⟩ := readTransaction_decodes.sound it tx rest (Nat.zero_le _) h
  have hlen := hhyd.serialized_length
  rw [List.length_append]
  omega

theorem hydrate_cases (buf : Bytes) (slpOnly : Bool) :
    hydrate buf slpOnly = .error .refuse ∨ ∃ b, hydrate buf slpOnly = .ok b := by
  have hsafe : readBlock slpOnly buf ≠ .error .outOfBounds := by
    rw [readBlock_slpOnly]
    exact (readBlock_decodes.map _).safe buf (Nat.zero_le _)
  rcases (readBlock_terminates slpOnly).cases hsafe with h | ⟨r, h⟩
  · exact .inl (by rw [hydrate, h]; rfl)
  · exact .inr ⟨r.1, by rw [hydrate, h]; rfl⟩

/-- Writing and reading blocks are inverse to each other, and reading ends on every
buffer inside it: the transaction loop starts no more iterations than there are bytes,
and one, whatever number of transactions the block declares. -/
theorem cache_roundTrip :
    (∀ (b : Block) (rest : Bytes), (∀ tx ∈ b.txs, tx.Hydrated) → b.txs.length < 2 ^ 64 →
      ∃ b', hydrate (b.serialize ++ rest) false = .ok b' ∧ SameFields b' b) ∧
    (∀ (buf l q : Bytes) (b : Block) (n : UInt64), readBlock false buf = .ok (b, []) →
      buf.drop 80 = l ++ q → MinimalVarInt l n → b.serialize = buf) ∧
    (∀ (buf : Bytes) (slpOnly : Bool),
      hydrate buf slpOnly = .error .refuse ∨ ∃ b, hydrate buf slpOnly = .ok b) ∧
    ∀ (n : ℕ) (it : Bytes), iterations (fun _ => readTransaction) 0 n it ≤ it.length + 1 ∧
      loop (fun _ => readTransaction) 0 (iterations (fun _ => readTransaction) 0 n it) it =
        loop (fun _ => readTransaction) 0 n it := by
  refine ⟨fun b rest hhyd hlen => ?_, fun buf l q b n => serialize_readBlock, hydrate_cases,
    fun n it => ⟨?_, loop_iterations _ n 0 it⟩⟩
  · exact ⟨b.hashed, hydrate_serialize hhyd hlen rest, ⟨rfl, rfl, rfl, rfl, rfl, rfl, rfl⟩⟩
  · exact iterations_le (fun _ _ _ _ => readTransaction_advances) n 0 it

theorem cache_roundTrip_sample : ∃ b',
    hydrate ((Block.mk .zero 2 .zero .zero 0 0 0 [.sampleGenesis, .sampleSend]).serialize ++ [0])
        false = .ok b' ∧
      SameFields b' ⟨.zero, 2, .zero, .zero, 0, 0, 0, [.sampleGenesis, .sampleSend]⟩ := by
  refine cache_roundTrip.1 ⟨.zero, 2, .zero, .zero, 0, 0, 0, [.sampleGenesis, .sampleSend]⟩ [0]
    ?_ (by simp)
  intro tx htx
  rcases List.mem_pair.mp htx with rfl | rfl
  · exact Transaction.sampleGenesis_hydrated
  · exact Transaction.sampleSend_hydrated

end Block
end SlpGraphSearch
