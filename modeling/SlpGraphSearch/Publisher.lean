import SlpGraphSearch.ClientAddresses
import SlpGraphSearch.TokenGenesis
import SlpGraphSearch.TokenOutputs
import SlpGraphSearch.TokenQueries

/-!
# The publisher

A single transaction that the validator accepts is published with the addresses of its token
outputs and of the token outputs that it spends. Scripts are free, and `to_address` has no
type for most of them; `to_cashaddr` hands whatever it gets to two helpers that assert.
-/
namespace SlpGraphSearch
open Library Transaction

/-! ## The model -/

/-- The loop body of `slp_inputs`: whether the input spends one of the `slp_outputs` of a
stored transaction. -/
def Validator.isSlpInput (validator : Validator) (input : Outpoint) : Except Failure Bool :=
  if ¬ validator.has input.txid then .ok false
  else do
    let prevTx ← validator.get input.txid
    let prevOutputs ← prevTx.slpOutputs
    .ok (prevOutputs.any fun prevOutput =>
      prevOutput.prevOutIdx = input.vout ∧ prevOutput.prevTxId = input.txid)

def Transaction.slpInputs (tx : Transaction) (validator : Validator) :
    Except Failure (List Outpoint) :=
  tx.inputs.foldlM (fun result input => do
    .ok (if ← validator.isSlpInput input then result ++ [input] else result)) []

/-- What follows the envelope `rawtx`. The address fields are cash addresses. -/
structure PublishedTx where
  serialized : Bytes
  inputs : List Bytes
  outputs : List Bytes
  groupId : Option Tokenid
  tokenId : Tokenid
  type : UInt16
  ticker : Bytes
  decimals : UInt32
  txType : SlpTransactionType
  txHash : Txid

namespace Server

/-- `validator.get(input.txid).outputs[input.vout].scriptpubkey.to_cashaddr(networkPrefix)`. -/
def inputCashaddr (s : Server) (networkPrefix : Bytes) (input : Outpoint) :
    Except Failure Bytes := do
  let prevTx ← s.validator.get input.txid
  match prevTx.outputs[input.vout.toNat]? with
  | none => .error .outOfBounds
  | some o => Scriptpubkey.toCashaddr o.scriptpubkey networkPrefix

/-- The branch of the publisher behind `slpsync_bitcoind_process_tx`. -/
def publishTx (s : Server) (networkPrefix : Bytes) (tx : Transaction) :
    Except Failure PublishedTx := do
  let (genesisTx, genesisInfo) ← s.genesisInfo tx.slp.tokenid
  let groupId ← (if tx.slp.tokenType = 0x41 then some <$> s.groupid genesisTx else .ok none)
  let slpInputs ← tx.slpInputs s.validator
  let inputs ← slpInputs.mapM (s.inputCashaddr networkPrefix)
  let slpOutputs ← tx.slpOutputs
  let outputs ← slpOutputs.mapM fun output =>
    Scriptpubkey.toCashaddr output.scriptpubkey networkPrefix
  .ok {
    serialized := tx.serialized
    inputs := inputs
    outputs := outputs
    groupId := groupId
    tokenId := tx.slp.tokenid
    type := tx.slp.tokenType
    ticker := genesisInfo.ticker
    decimals := genesisInfo.decimals
    txType := tx.slp.type
    txHash := tx.txid }

end Server

/-! ## The property and the condition -/

/-- The publisher converts the script: it belongs to one of the `slp_outputs`, or to the
output that one of the `slp_inputs` spends. -/
inductive Validator.Publishes (validator : Validator) (tx : Transaction) : Scriptpubkey → Prop
  | output {os : List Output} {o : Output} (hos : tx.slpOutputs = .ok os) (ho : o ∈ os) :
      Publishes validator tx o.scriptpubkey
  | input {input : Outpoint} {prevTx : Transaction} {o : Output} (hin : input ∈ tx.inputs)
      (hslp : validator.isSlpInput input = .ok true)
      (hget : validator.get input.txid = .ok prevTx)
      (ho : prevTx.outputs[input.vout.toNat]? = some o) : Publishes validator tx o.scriptpubkey

/-- The lengths, in bytes, of the hashes that a version byte can announce. -/
def hashLengths : List ℕ := [20, 24, 28, 32, 40, 48, 56, 64]

/-- The script is `OP_DUP OP_HASH160`, the length of a hash, the hash and two more bytes, or
it is `OP_HASH160`, 21 bytes and `OP_EQUAL`. -/
def Addressable (script : Scriptpubkey) : Prop :=
  (∃ hash rest : Bytes, hash.length ∈ hashLengths ∧ rest.length = 2 ∧
    script = [0x76, 0xA9, UInt8.ofNat hash.length] ++ hash ++ rest) ∨
  ∃ body : Bytes, body.length = 21 ∧ script = 0xA9 :: body ++ [0x87]

/-- The outputs that the SLP message of the transaction names have addresses, and so have
those that it spends and that the message of their stored transaction names. -/
structure Validator.TokensAddressable (validator : Validator) (tx : Transaction) : Prop where
  outputs : ∀ (v : ℕ) (o : Output), tx.NamesOutput v → tx.outputs[v]? = some o →
    Addressable o.scriptpubkey
  inputs : ∀ input ∈ tx.inputs, ∀ prevTx,
    validator.transactionMap.lookup input.txid = some prevTx →
      prevTx.NamesOutput input.vout.toNat → ∀ o, prevTx.outputs[input.vout.toNat]? = some o →
        Addressable o.scriptpubkey

/-! ## Scripts with addresses -/

namespace Scriptpubkey

theorem getHashSizeBits_ok_iff {hash : Bytes} :
    (∃ bits, getHashSizeBits hash = .ok bits) ↔ hash.length ∈ hashLengths := by
  constructor
  · intro h
    obtain ⟨bits, hbits⟩ := h
    obtain ⟨hlt, hlen⟩ := getHashSizeBits_spec hbits
    have hall : ∀ n < 8, hashSize (UInt8.ofNat n) ∈ hashLengths := by decide
    have hmem := hall bits.toNat hlt
    rwa [UInt8.ofNat_toNat, ← hlen] at hmem
  · intro h
    simp only [hashLengths, List.mem_cons, List.not_mem_nil, or_false] at h
    rcases h with h | h | h | h | h | h | h | h
    all_goals
      simp only [getHashSizeBits, h]
      exact ⟨_, rfl⟩

theorem getHashSizeBits_assertion {hash : Bytes} (h : hash.length ∉ hashLengths) :
    getHashSizeBits hash = .error .assertion := by
  have hfails := h ∘ getHashSizeBits_ok_iff.mp
  unfold getHashSizeBits at hfails ⊢
  split at hfails
  all_goals simp at hfails ⊢

/-! ### Patterns -/

/-- What has the first pattern. -/
theorem exists_of_p2pkh {v : Scriptpubkey} (hlong : 5 < v.length) (h₀ : v[0]? = some 0x76)
    (h₁ : v[1]? = some 0xA9) (hsize : v.length = 3 + (v.getD 2 0).toNat + 2) :
    ∃ hash rest : Bytes, hash.length = v.length - 5 ∧ rest.length = 2 ∧
      v = [0x76, 0xA9, UInt8.ofNat hash.length] ++ hash ++ rest := by
  obtain ⟨a, b, n, w, hv⟩ : ∃ a b n w, v = a :: b :: n :: w := by
    match v, hlong with
    | a :: b :: n :: w, _ => exact ⟨a, b, n, w, rfl⟩
  subst hv
  have ha : a = 0x76 := Option.some.inj h₀
  have hb : b = 0xA9 := Option.some.inj h₁
  subst ha hb
  simp only [List.getD_cons_succ, List.getD_cons_zero, List.length_cons] at hsize ⊢
  have hhash : (w.take n.toNat).length = n.toNat := by
    rw [List.length_take]
    omega
  refine ⟨w.take n.toNat, w.drop n.toNat, ?_, ?_, ?_⟩
  · omega
  · rw [List.length_drop]
    omega
  · rw [hhash, UInt8.ofNat_toNat, List.append_assoc, List.take_append_drop]
    rfl

/-- What has the second pattern. -/
theorem exists_of_p2sh {v : Scriptpubkey} (hsize : v.length = 23) (h₀ : v[0]? = some 0xA9)
    (h₂₂ : v[22]? = some 0x87) : ∃ body : Bytes, body.length = 21 ∧ v = 0xA9 :: body ++ [0x87] := by
  obtain ⟨a, w, hv⟩ := List.exists_cons_of_length_eq_add_one hsize
  subst hv
  have ha : a = 0xA9 := Option.some.inj h₀
  subst ha
  rw [List.getElem?_cons_succ] at h₂₂
  have hw : w.length = 22 := Nat.succ.inj hsize
  have hlast : w.drop 21 = [0x87] := by
    have hone : (w.drop 21).length = 1 := by rw [List.length_drop, hw]
    obtain ⟨b, hb⟩ := List.length_eq_one_iff.mp hone
    have hget : (w.drop 21)[0]? = w[21]? := List.getElem?_drop
    rw [hb, h₂₂] at hget
    rw [hb, Option.some.inj hget]
  refine ⟨w.take 21, ?_, ?_⟩
  · rw [List.length_take, hw]
    rfl
  · rw [← hlast, List.cons_append, List.take_append_drop]

/-- A type and a hash length that can be announced are all that an address needs. -/
theorem addressable_iff {v : Scriptpubkey} : Addressable v ↔
    (toAddress v).1 ≠ none ∧ (toAddress v).2.length ∈ hashLengths := by
  have hsmall : ∀ n ∈ hashLengths, 0 < n ∧ n < 256 := by decide
  constructor
  · intro h
    cases h with
    | inl hp2pkh =>
      obtain ⟨hash, rest, hlen, hrest, hv⟩ := hp2pkh
      obtain ⟨hpos, hlt⟩ := hsmall _ hlen
      rw [hv, toAddress_p2pkh hpos hlt hrest]
      exact ⟨Option.some_ne_none _, hlen⟩
    | inr hp2sh =>
      obtain ⟨body, hbody, hv⟩ := hp2sh
      rw [hv, toAddress_p2sh hbody, List.length_take, hbody]
      exact ⟨Option.some_ne_none _, by decide⟩
  · intro h
    obtain ⟨htype, hlen⟩ := h
    unfold toAddress at htype hlen
    split_ifs at htype hlen with hp2pkh hp2sh
    · obtain ⟨hlong, h₀, h₁, hsize⟩ := hp2pkh
      obtain ⟨hash, rest, hhash, hrest, hv⟩ := exists_of_p2pkh hlong h₀ h₁ hsize
      have htake : ((v.drop 3).take (v.length - 5)).length = hash.length := by
        rw [List.length_take, List.length_drop]
        omega
      rw [htake] at hlen
      exact .inl ⟨hash, rest, hlen, hrest, hv⟩
    · obtain ⟨hsize, h₀, h₂₂⟩ := hp2sh
      exact .inr (exists_of_p2sh hsize h₀ h₂₂)
    · exact absurd rfl htype

theorem toCashaddr_ok {v : Scriptpubkey} (h : Addressable v) (addrPrefix : Bytes) :
    ∃ str, toCashaddr v addrPrefix = .ok str := by
  obtain ⟨htype, hlen⟩ := addressable_iff.mp h
  obtain ⟨sizeBits, hbits⟩ := getHashSizeBits_ok_iff.mpr hlen
  obtain ⟨type, htype⟩ := Option.ne_none_iff_exists'.mp htype
  obtain ⟨typeBits, htypeBits⟩ : ∃ typeBits, getTypeBits (some type) = .ok typeBits := by
    cases type with
    | p2pkh => exact ⟨0, rfl⟩
    | p2sh => exact ⟨8, rfl⟩
  rw [toCashaddr_eq (Prod.ext htype rfl) htypeBits hbits]
  exact Cashaddr.encode_ok addrPrefix (payloadDigits_lt _)

theorem toCashaddr_assertion {v : Scriptpubkey} (h : ¬ Addressable v) (addrPrefix : Bytes) :
    toCashaddr v addrPrefix = .error .assertion := by
  unfold toCashaddr
  cases htype : (toAddress v).1 with
  | none => simp only [htype, getTypeBits, bind, Except.bind]
  | some type =>
    have hlen : (toAddress v).2.length ∉ hashLengths := by
      intro hlen
      exact h (addressable_iff.mpr ⟨by simp [htype], hlen⟩)
    have hsize := getHashSizeBits_assertion hlen
    cases type with
    | p2pkh => simp only [htype, getTypeBits, hsize, bind, Except.bind]
    | p2sh => simp only [htype, getTypeBits, hsize, bind, Except.bind]

theorem toCashaddr_ok_iff {v : Scriptpubkey} {addrPrefix : Bytes} :
    (∃ str, toCashaddr v addrPrefix = .ok str) ↔ Addressable v := by
  constructor
  · intro h
    obtain ⟨str, hstr⟩ := h
    by_contra hnot
    rw [toCashaddr_assertion hnot] at hstr
    cases hstr
  · intro h
    exact toCashaddr_ok h addrPrefix

/-- Which scripts have an address does not depend on the network. -/
theorem toCashaddr_iff {v : Scriptpubkey} {addrPrefix : Bytes} :
    toCashaddr v addrPrefix ≠ .error .assertion ↔ Addressable v := by
  constructor
  · intro h
    by_contra hnot
    exact h (toCashaddr_assertion hnot addrPrefix)
  · intro h hfails
    obtain ⟨str, hstr⟩ := toCashaddr_ok h addrPrefix
    rw [hstr] at hfails
    cases hfails

end Scriptpubkey

/-! ## The inputs -/

variable {tx : Transaction} {validator : Validator}

theorem mem_slpInputs {ins : List Outpoint} (h : tx.slpInputs validator = .ok ins)
    {input : Outpoint} : input ∈ ins ↔
      input ∈ tx.inputs ∧ validator.isSlpInput input = .ok true := by
  rw [mem_foldlM_keep h, List.mem_nil_iff, false_or]

/-- What `slp_outputs` returns, or would return if it did not read past the end. -/
theorem Transaction.Hydrated.exists_slpOutputs_iff (h : tx.Hydrated) {o : Output} :
    (∃ os, tx.slpOutputs = .ok os ∧ o ∈ os) ↔
      ∃ v, tx.NamesOutput v ∧ tx.outputs[v]? = some o := by
  constructor
  · intro hmem
    obtain ⟨os, hos, ho⟩ := hmem
    exact (mem_slpOutputs_iff hos).mp ho
  · intro hnamed
    obtain ⟨v, hv, ho⟩ := hnamed
    have htwo : 2 ≤ tx.outputs.length := by
      have hlt := (List.getElem?_eq_some_iff.mp ho).1
      have hone := hv.1
      omega
    obtain ⟨os, hos⟩ := (slpOutputs_ok_iff h).mpr fun _ => htwo
    exact ⟨os, hos, (mem_slpOutputs_iff hos).mpr ⟨v, hv, ho⟩⟩

theorem isSlpInput_unknown {input : Outpoint}
    (hlook : validator.transactionMap.lookup input.txid = none) :
    validator.isSlpInput input = .ok false :=
  if_pos (by simp [Validator.has_of_lookup_none hlook])

theorem isSlpInput_stored {input : Outpoint} {prevTx : Transaction}
    (hlook : validator.transactionMap.lookup input.txid = some prevTx) {kept : Bool} :
    validator.isSlpInput input = .ok kept ↔ ∃ os, prevTx.slpOutputs = .ok os ∧
      (os.any fun o => o.prevOutIdx = input.vout ∧ o.prevTxId = input.txid) = kept := by
  rw [Validator.isSlpInput, if_neg (by simp [Validator.has_of_lookup hlook])]
  simp only [bind_eq_ok, Server.get_eq_ok, hlook, Option.some.injEq, exists_eq_left',
    Except.ok.injEq]

/-- An input is kept if the message of a stored transaction names the output it spends. -/
theorem isSlpInput_iff (hstored : validator.StoredHydrated) {input : Outpoint} :
    validator.isSlpInput input = .ok true ↔
      ∃ prevTx o, validator.transactionMap.lookup input.txid = some prevTx ∧
        prevTx.NamesOutput input.vout.toNat ∧ prevTx.outputs[input.vout.toNat]? = some o := by
  cases hlook : validator.transactionMap.lookup input.txid with
  | none => simp [isSlpInput_unknown hlook]
  | some prevTx =>
    have hhyd := (hstored _ _ hlook).1
    have hid : prevTx.txid = input.txid := KeyedMap.key_lookup hlook
    rw [isSlpInput_stored hlook]
    simp only [List.any_eq_true, decide_eq_true_eq]
    constructor
    · intro h
      obtain ⟨os, hos, o, ho, hvout, -⟩ := h
      obtain ⟨v, hv, hov⟩ := (mem_slpOutputs_iff hos).mp ho
      have hindex := hhyd.prevOutIdx_toNat hov
      rw [hvout] at hindex
      rw [hindex]
      exact ⟨prevTx, o, rfl, hv, hov⟩
    · intro h
      obtain ⟨t, o, ht, hv, ho⟩ := h
      rw [← Option.some.inj ht] at hv ho
      obtain ⟨os, hos, hmem⟩ := hhyd.exists_slpOutputs_iff.mpr ⟨_, hv, ho⟩
      have hprev : o.prevTxId = prevTx.txid := hhyd.outpoint_txid (List.mem_of_getElem? ho)
      refine ⟨os, hos, o, hmem, ?_, hprev.trans hid⟩
      exact UInt32.toNat_inj.mp (hhyd.prevOutIdx_toNat ho)

/-- `slp_inputs` gets through unless a stored GENESIS or MINT behind an input has one output. -/
theorem slpInputs_ok_iff (hstored : validator.StoredHydrated) :
    (∃ ins, tx.slpInputs validator = .ok ins) ↔
      ∀ input ∈ tx.inputs, ∀ prevTx,
        validator.transactionMap.lookup input.txid = some prevTx →
          prevTx.slp.type = .genesis ∨ prevTx.slp.type = .mint → 2 ≤ prevTx.outputs.length := by
  apply foldlM_keep_ok_iff.trans
  apply forall₂_congr
  intro input _
  cases hlook : validator.transactionMap.lookup input.txid with
  | none => simp [isSlpInput_unknown hlook]
  | some prevTx =>
    simp only [isSlpInput_stored hlook, Option.some.injEq, forall_eq']
    rw [← slpOutputs_ok_iff (hstored _ _ hlook).1]
    constructor
    · intro h
      obtain ⟨kept, os, hos, -⟩ := h
      exact ⟨os, hos⟩
    · intro h
      obtain ⟨os, hos⟩ := h
      exact ⟨_, os, hos, rfl⟩

/-- The published scripts are those of the two lists, if `slp_inputs` returns one. -/
theorem forall_publishes_iff {ins : List Outpoint} {os : List Output}
    (hstored : validator.StoredHydrated) (hins : tx.slpInputs validator = .ok ins)
    (hos : tx.slpOutputs = .ok os) (P : Scriptpubkey → Prop) :
    (∀ script, validator.Publishes tx script → P script) ↔
      (∀ input ∈ ins, ∃ prevTx o, validator.get input.txid = .ok prevTx ∧
        prevTx.outputs[input.vout.toNat]? = some o ∧ P o.scriptpubkey) ∧
      ∀ o ∈ os, P o.scriptpubkey := by
  constructor
  · intro h
    constructor
    · intro input hinput
      obtain ⟨hin, hslp⟩ := (mem_slpInputs hins).mp hinput
      obtain ⟨prevTx, o, hlook, -, ho⟩ := (isSlpInput_iff hstored).mp hslp
      have hget := Server.get_eq_ok.mpr hlook
      exact ⟨prevTx, o, hget, ho, h _ (.input hin hslp hget ho)⟩
    · intro o ho
      exact h _ (.output hos ho)
  · intro h script hscript
    cases hscript with
    | output hos' ho =>
      rw [hos, Except.ok.injEq] at hos'
      exact h.2 _ (hos' ▸ ho)
    | input hin hslp hget ho =>
      obtain ⟨t, u, ht, hu, hP⟩ := h.1 _ ((mem_slpInputs hins).mpr ⟨hin, hslp⟩)
      rw [hget, Except.ok.injEq] at ht
      rw [← ht, ho, Option.some.injEq] at hu
      exact hu ▸ hP

theorem publishes_addressable_iff (hstored : validator.StoredHydrated) (htx : tx.Hydrated) :
    (∀ script, validator.Publishes tx script → Addressable script) ↔
      validator.TokensAddressable tx := by
  constructor
  · intro h
    constructor
    · intro v o hv ho
      obtain ⟨os, hos, hmem⟩ := htx.exists_slpOutputs_iff.mpr ⟨v, hv, ho⟩
      exact h _ (.output hos hmem)
    · intro input hin prevTx hlook hv o ho
      exact h _ (.input hin ((isSlpInput_iff hstored).mpr ⟨prevTx, o, hlook, hv, ho⟩)
        (Server.get_eq_ok.mpr hlook) ho)
  · intro h script hscript
    cases hscript with
    | output hos ho =>
      obtain ⟨v, hv, hov⟩ := htx.exists_slpOutputs_iff.mp ⟨_, hos, ho⟩
      exact h.outputs v _ hv hov
    | input hin hslp hget ho =>
      obtain ⟨prevTx, -, hlook, hv, -⟩ := (isSlpInput_iff hstored).mp hslp
      have hprev := Server.get_eq_ok.mp hget
      have heq := Option.some.inj (hlook.symm.trans hprev)
      exact h.inputs _ hin _ hprev (heq ▸ hv) _ ho

/-! ## Acceptance -/

namespace Server

variable {s s' : Server}

/-- An accepted transaction was unknown and is stored. -/
theorem transactionMap_of_accepted (h : s.slpsyncBitcoindProcessTx tx = .ok (true, s')) :
    tx.slp.type ≠ .invalid ∧ tx.txid ∉ s.validator.transactionMap ∧
      s'.validator.transactionMap = s.validator.transactionMap.emplace tx := by
  obtain ⟨bch, -, h⟩ := bind_eq_ok.mp h
  simp only at h
  split_ifs at h with htype hknown
  · cases h
  · cases h
  · have hnew : tx.txid ∉ s.validator.transactionMap := by simpa [Validator.has] using hknown
    obtain ⟨r, hadd, h⟩ := bind_eq_ok.mp h
    obtain ⟨added, validator⟩ := r
    refine ⟨htype, hnew, ?_⟩
    cases added with
    | false => cases h
    | true =>
      cases h
      obtain ⟨verdict, -, -, hv⟩ := Validator.addTx_verdict htype hadd
      cases verdict with
      | true => rw [hv]; rfl
      | false => rw [hv]; rfl

/-- A transaction that names outputs of its own does not change the condition. -/
theorem tokensAddressable_of_accepted (h : s.slpsyncBitcoindProcessTx tx = .ok (true, s')) :
    s'.validator.TokensAddressable tx ↔ s.validator.TokensAddressable tx := by
  obtain ⟨-, hnew, hmap⟩ := transactionMap_of_accepted h
  constructor
  · intro haddress
    refine ⟨haddress.outputs, ?_⟩
    intro input hin prevTx hlook
    apply haddress.inputs input hin prevTx
    rw [hmap, KeyedMap.lookup_emplace, hlook, Option.getD_some, ite_self]
  · intro haddress
    refine ⟨haddress.outputs, ?_⟩
    intro input hin prevTx hlook hv o ho
    rw [hmap] at hlook
    cases KeyedMap.lookup_emplace_cases hlook with
    | inl hself =>
      rw [hself] at hv ho
      exact haddress.outputs _ o hv ho
    | inr hold => exact haddress.inputs input hin prevTx hold hv o ho

theorem storedHydrated_of_accepted (h : s.slpsyncBitcoindProcessTx tx = .ok (true, s'))
    (hstored : s.validator.StoredHydrated) (htx : tx.Hydrated) : s'.validator.StoredHydrated := by
  obtain ⟨htype, -, hmap⟩ := transactionMap_of_accepted h
  intro x t hlook
  rw [hmap] at hlook
  exact hstored.offered htx htype x t hlook

/-! ## What is published -/

/-- No script that the publisher converts fails an assertion. -/
def ConvertsScripts (s : Server) (networkPrefix : Bytes) (tx : Transaction) : Prop :=
  ∀ script, s.validator.Publishes tx script →
    Scriptpubkey.toCashaddr script networkPrefix ≠ .error .assertion

theorem convertsScripts_iff (hstored : s.validator.StoredHydrated) (htx : tx.Hydrated)
    (networkPrefix : Bytes) :
    s.ConvertsScripts networkPrefix tx ↔ s.validator.TokensAddressable tx := by
  rw [← publishes_addressable_iff hstored htx]
  exact forall₂_congr fun script _ => Scriptpubkey.toCashaddr_iff

theorem inputCashaddr_ok_iff {networkPrefix : Bytes} {input : Outpoint} :
    (∃ str, s.inputCashaddr networkPrefix input = .ok str) ↔
      ∃ prevTx o, s.validator.get input.txid = .ok prevTx ∧
        prevTx.outputs[input.vout.toNat]? = some o ∧ Addressable o.scriptpubkey := by
  simp only [inputCashaddr, bind_eq_ok]
  constructor
  · intro h
    obtain ⟨str, prevTx, hget, hstr⟩ := h
    cases ho : prevTx.outputs[input.vout.toNat]? with
    | none => simp [ho] at hstr
    | some o =>
      rw [ho] at hstr
      exact ⟨prevTx, o, hget, ho, Scriptpubkey.toCashaddr_ok_iff.mp ⟨str, hstr⟩⟩
  · intro h
    obtain ⟨prevTx, o, hget, ho, haddress⟩ := h
    obtain ⟨str, hstr⟩ := Scriptpubkey.toCashaddr_ok haddress networkPrefix
    exact ⟨str, prevTx, hget, by simp only [ho, hstr]⟩

/-- The message is complete if the GENESIS is stored, and the group of a child token, if no
stored transaction behind an input lacks outputs, and if every script has an address. -/
theorem publishTx_ok_iff (hstored : s.validator.StoredHydrated) (htx : tx.Hydrated)
    (htwo : tx.slp.type = .genesis ∨ tx.slp.type = .mint → 2 ≤ tx.outputs.length)
    (networkPrefix : Bytes) :
    (∃ r, s.publishTx networkPrefix tx = .ok r) ↔
      (∃ g info, s.genesisInfo tx.slp.tokenid = .ok (g, info) ∧
        (tx.slp.tokenType = 0x41 → ∃ t, s.groupid g = .ok t)) ∧
      (∀ input ∈ tx.inputs, ∀ prevTx,
        s.validator.transactionMap.lookup input.txid = some prevTx →
          prevTx.slp.type = .genesis ∨ prevTx.slp.type = .mint → 2 ≤ prevTx.outputs.length) ∧
      s.validator.TokensAddressable tx := by
  rw [← publishes_addressable_iff hstored htx, ← slpInputs_ok_iff hstored]
  constructor
  · intro h
    obtain ⟨r, h⟩ := h
    obtain ⟨⟨g, info⟩, hg, h⟩ := bind_eq_ok.mp h
    obtain ⟨group, hgroup, h⟩ := bind_eq_ok.mp h
    obtain ⟨ins, hins, h⟩ := bind_eq_ok.mp h
    obtain ⟨inputs, hinputs, h⟩ := bind_eq_ok.mp h
    obtain ⟨os, hos, h⟩ := bind_eq_ok.mp h
    obtain ⟨outputs, houtputs, -⟩ := bind_eq_ok.mp h
    refine ⟨⟨g, info, hg, optionalGroupid_ok_iff.mp ⟨group, hgroup⟩⟩, ⟨ins, hins⟩, ?_⟩
    apply (forall_publishes_iff hstored hins hos Addressable).mpr
    constructor
    · intro input hinput
      exact inputCashaddr_ok_iff.mp (exists_ok_of_mapM_ok hinputs hinput)
    · intro o ho
      exact Scriptpubkey.toCashaddr_ok_iff.mp (exists_ok_of_mapM_ok houtputs ho)
  · intro h
    obtain ⟨⟨g, info, hg, hgroup⟩, ⟨ins, hins⟩, haddress⟩ := h
    obtain ⟨group, hgroup⟩ := optionalGroupid_ok_iff.mpr hgroup
    obtain ⟨os, hos⟩ := (slpOutputs_ok_iff htx).mpr htwo
    obtain ⟨hinputs, houtputs⟩ :=
      (forall_publishes_iff hstored hins hos Addressable).mp haddress
    obtain ⟨inputs, hinputs⟩ := mapM_ok fun input hinput =>
      inputCashaddr_ok_iff.mpr (hinputs input hinput)
    obtain ⟨outputs, houtputs⟩ := mapM_ok fun o ho =>
      Scriptpubkey.toCashaddr_ok (houtputs o ho) networkPrefix
    simp only [publishTx, bind_eq_ok]
    exact ⟨_, (g, info), hg, group, hgroup, ins, hins, inputs, hinputs, os, hos, outputs,
      houtputs, rfl⟩

/-! ## Every run -/

/-- In every run, publishing an accepted transaction fails no assertion exactly if the token
outputs that it has and spends have addresses. -/
theorem run_convertsScripts_iff (utxosync : Bool) {events : List Event}
    (hhyd : ∀ e ∈ events, ∀ tx ∈ e.txs, tx.Hydrated) :
    Always Server.step (fun _ s => ∀ tx s', tx.Hydrated →
      s.slpsyncBitcoindProcessTx tx = .ok (true, s') → 2 ≤ tx.outputs.length →
        ∀ networkPrefix,
          s'.ConvertsScripts networkPrefix tx ↔ s.validator.TokensAddressable tx)
      (.empty utxosync) events := by
  intro past rest hev s hs tx s' htx haccept _ networkPrefix
  have hstored : s.validator.StoredHydrated := by
    intro x t hlook
    obtain ⟨hsource, htype⟩ := (stored_always utxosync events past rest hev s hs).source hlook
    obtain ⟨e, he, ht⟩ := List.mem_flatMap.mp hsource
    exact ⟨hhyd e (hev ▸ List.mem_append_left _ he) t ht, htype⟩
  rw [← tokensAddressable_of_accepted haccept]
  exact convertsScripts_iff (storedHydrated_of_accepted haccept hstored htx) htx networkPrefix

/-- A GENESIS of quantity 10 to the hash of a public key. -/
def paidGenesis : Transaction :=
  let txid : Txid := ⟨
    [0xEC, 0xD9, 0x56, 0xE8, 0xBF, 0x6D, 0x3E, 0xE3, 0x1D, 0xE6, 0x1C, 0x12, 0x47, 0xAC, 0xD2,
     0xB0, 0x3A, 0x9C, 0xEC, 0x72, 0xE5, 0xD2, 0xB1, 0xE8, 0x9B, 0xB5, 0xE6, 0x88, 0x8A, 0xC3,
     0xB1, 0xE4], rfl⟩
  encoded txid [⟨.zero, 0⟩] [opReturn (genesisPayloads 1 [] 10), fakeScript]
    ⟨txid, 1, .genesis ⟨[], [], [], [], 0, false, 0, 10⟩⟩

/-- A SEND of the whole quantity to the same hash. -/
def paidSend : Transaction :=
  let txid : Txid := ⟨
    [0x7E, 0xB1, 0x55, 0x8A, 0xA7, 0xDC, 0xC1, 0x1C, 0xD4, 0xE2, 0x46, 0x97, 0xC1, 0xC0, 0xE9,
     0xBC, 0xB9, 0x68, 0xDD, 0x90, 0x31, 0xE6, 0xF5, 0x47, 0x71, 0x62, 0x93, 0x8D, 0x8E, 0xD2,
     0xF7, 0x2C], rfl⟩
  encoded txid [⟨paidGenesis.txid, 1⟩]
    [opReturn (sendPayloads 1 paidGenesis.txid [10]), fakeScript]
    ⟨paidGenesis.txid, 1, .send ⟨[10]⟩⟩

theorem paidGenesis_hydrated : paidGenesis.Hydrated :=
  hydrated_encoded (by decide) (by decide) (by decide) (by decide +kernel) (by decide +kernel)

theorem paidSend_hydrated : paidSend.Hydrated :=
  hydrated_encoded (by decide) (by decide) (by decide) (by decide +kernel) (by decide +kernel)

theorem fakeScript_addressable : Addressable fakeScript :=
  .inl ⟨List.replicate 20 0x11, [0x88, 0xAC], by decide, rfl, rfl⟩

/-- The token outputs of both transactions. -/
theorem addressable_of_paid {p : Transaction}
    (hp : ∀ o ∈ p.outputs.drop 1, o.scriptpubkey = fakeScript) {v : ℕ} {o : Output}
    (hv : p.NamesOutput v) (ho : p.outputs[v]? = some o) : Addressable o.scriptpubkey := by
  rw [hp o (mem_drop_one_iff.mpr ⟨v, hv.1, ho⟩)]
  exact fakeScript_addressable

theorem run_convertsScripts_sample :
    ∃ s s', [Event.rawtx paidGenesis].foldlM Server.step (.empty true) = .ok s ∧
      s.slpsyncBitcoindProcessTx paidSend = .ok (true, s') ∧
      ∀ networkPrefix, s'.ConvertsScripts networkPrefix paidSend := by
  have hrun : ∃ s, [Event.rawtx paidGenesis].foldlM Server.step (.empty true) = .ok s ∧
      s.validator.transactionMap.lookup paidGenesis.txid = some paidGenesis ∧
      ∃ r, s.slpsyncBitcoindProcessTx paidSend = .ok r ∧ r.1 = true := by decide +kernel
  obtain ⟨s, hs, hlook, ⟨accepted, s'⟩, haccept, htrue⟩ := hrun
  have haccepted : accepted = true := htrue
  rw [haccepted] at haccept
  refine ⟨s, s', hs, haccept, ?_⟩
  intro networkPrefix
  have hin : ∀ e ∈ [Event.rawtx paidGenesis], ∀ tx ∈ e.txs, tx.Hydrated := by
    intro e he tx htx
    rw [List.mem_singleton.mp he] at htx
    exact List.mem_singleton.mp htx ▸ paidGenesis_hydrated
  apply (run_convertsScripts_iff true hin _ _ (List.append_nil _).symm s hs paidSend s'
    paidSend_hydrated haccept (by decide) networkPrefix).mpr
  constructor
  · intro v o hv ho
    exact addressable_of_paid (by decide) hv ho
  · intro input hinput prevTx hprev hv o ho
    rw [List.mem_singleton.mp hinput] at hprev
    have heq : prevTx = paidGenesis := Option.some.inj (hprev.symm.trans hlook)
    rw [heq] at hv ho
    exact addressable_of_paid (by decide) hv ho

/-- The prefix of the main network, `simpleledger`. -/
def mainPrefix : Bytes :=
  [0x73, 0x69, 0x6D, 0x70, 0x6C, 0x65, 0x6C, 0x65, 0x64, 0x67, 0x65, 0x72]

/-- Output 1 of the GENESIS has the script `OP_1`. -/
theorem convertsScripts_fails :
    sampleGenesis.Hydrated ∧
    ¬ Always Server.step (fun _ s => ∀ tx s', tx.Hydrated →
      s.slpsyncBitcoindProcessTx tx = .ok (true, s') → 2 ≤ tx.outputs.length →
        s'.ConvertsScripts mainPrefix tx) (.empty true) [] := by
  refine ⟨sampleGenesis_hydrated, ?_⟩
  intro h
  have haccept : ∃ r, (Server.empty true).slpsyncBitcoindProcessTx sampleGenesis = .ok r ∧
      r.1 = true := by decide +kernel
  obtain ⟨⟨accepted, s'⟩, haccept, htrue⟩ := haccept
  have haccepted : accepted = true := htrue
  rw [haccepted] at haccept
  have hconverts := h [] [] rfl _ rfl sampleGenesis s' sampleGenesis_hydrated haccept (by decide)
  have hmem : ∃ os, sampleGenesis.slpOutputs = .ok os ∧
      ∃ o ∈ os, o.scriptpubkey = [0x51] := by decide
  obtain ⟨os, hos, o, ho, hscript⟩ := hmem
  have hok := hconverts _ (.output hos ho)
  rw [hscript] at hok
  exact hok rfl

end Server
end SlpGraphSearch
