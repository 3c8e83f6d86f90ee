import SlpGraphSearch.OutputOracle
import SlpGraphSearch.VerdictHistory

/-!
# What a signature of the oracle stands for

The oracle signs the hash of a string that lists the parts of its statement in fields of
fixed width. The field for the token type tells which fields follow it, so the string can be
read in one way only. Two replies with one hash make one statement, whatever states they come
from, or else they exhibit two strings with that hash.
-/
namespace SlpGraphSearch
open Library Transaction

theorem leBytes_inj {k m n : ℕ} (hm : m < 256 ^ k) (hn : n < 256 ^ k)
    (h : leBytes k m = leBytes k n) : m = n := by
  have hvalue := congrArg leValue h
  rwa [leValue_leBytes, leValue_leBytes, Nat.mod_eq_of_lt hm, Nat.mod_eq_of_lt hn] at hvalue

theorem preimageHead_inj {tx tx' : Transaction} {vout vout' : UInt32} {rest rest' : Bytes}
    (h : preimageHead tx vout ++ rest = preimageHead tx' vout' ++ rest') :
    tx.txid = tx'.txid ∧ vout = vout' ∧ tx.slp.tokenid = tx'.slp.tokenid ∧
      tx.slp.tokenType = tx'.slp.tokenType ∧ rest = rest' := by
  obtain ⟨hhead, hrest⟩ := List.append_inj h (by rw [length_preimageHead, length_preimageHead])
  obtain ⟨htxid, hhead⟩ := List.append_inj hhead (by rw [tx.txid.size_eq, tx'.txid.size_eq])
  obtain ⟨hvout, hhead⟩ := List.append_inj hhead (by rw [length_leBytes, length_leBytes])
  obtain ⟨htoken, htype⟩ := List.append_inj hhead
    (by rw [tx.slp.tokenid.size_eq, tx'.slp.tokenid.size_eq])
  refine ⟨Bhash.ext_v htxid, ?_, Bhash.ext_v htoken, ?_, hrest⟩
  · exact UInt32.toNat_inj.mp (leBytes_inj vout.toNat_lt vout'.toNat_lt hvout)
  · exact UInt16.toNat_inj.mp (leBytes_inj tx.slp.tokenType.toNat_lt
      tx'.slp.tokenType.toNat_lt htype)

/-- Behind the same head, equal strings for an amount say the same about it. -/
theorem amountAttestation_inj {tx tx' : Transaction} {vout vout' : UInt32}
    (h : (amountAttestation tx vout).preimage = (amountAttestation tx' vout').preimage) :
    amountAttestation tx vout = amountAttestation tx' vout' := by
  obtain ⟨-, -, -, -, hrest⟩ := preimageHead_inj h
  obtain ⟨hvalue, hbaton⟩ := List.append_inj hrest (by rw [length_leBytes, length_leBytes])
  have hsame : tx.outputSlpAmount vout.toNat = tx'.outputSlpAmount vout'.toNat :=
    UInt64.toNat_inj.mp (leBytes_inj (tx.outputSlpAmount vout.toNat).toNat_lt
      (tx'.outputSlpAmount vout'.toNat).toNat_lt hvalue)
  have hboth : decide (tx.mintBatonOutpoint.vout = vout) =
      decide (tx'.mintBatonOutpoint.vout = vout') := by
    by_cases hb : tx.mintBatonOutpoint.vout = vout <;>
      by_cases hb' : tx'.mintBatonOutpoint.vout = vout' <;> simp [hb, hb'] at hbaton ⊢
  exact (Attestation.mk.injEq ..).mpr ⟨h, hsame, hboth, rfl⟩

theorem groupAttestation_eq {v : Validator} {tx : Transaction} {vout : UInt32} {a : Attestation}
    (h : groupAttestation v tx vout = .ok a) :
    ∃ t : Tokenid, a = ⟨preimageHead tx vout ++ t.v, 0, false, some t⟩ := by
  unfold groupAttestation at h
  obtain ⟨_, -, h⟩ := bind_eq_ok.mp h
  cases hinputs : tx.inputs with
  | nil => simp [hinputs] at h
  | cons o inputs =>
      rw [hinputs] at h
      obtain ⟨txi, -, h⟩ := bind_eq_ok.mp h
      exact ⟨txi.slp.tokenid, (Except.ok.inj h).symm⟩

/-- The three token types of the format. -/
def KnownType (tx : Transaction) : Prop :=
  tx.slp.tokenType = 0x01 ∨ tx.slp.tokenType = 0x41 ∨ tx.slp.tokenType = 0x81

theorem attest_cases {v : Validator} {tx : Transaction} {vout : UInt32} {a : Attestation}
    (htype : KnownType tx) (h : attest v tx vout = .ok a) :
    tx.slp.tokenType ≠ 0x41 ∧ a = amountAttestation tx vout ∨
      tx.slp.tokenType = 0x41 ∧
        ∃ t : Tokenid, a = ⟨preimageHead tx vout ++ t.v, 0, false, some t⟩ := by
  unfold attest at h
  rcases htype with htype | htype | htype
  · rw [if_pos htype] at h
    exact .inl ⟨by rw [htype]; decide, (Except.ok.inj h).symm⟩
  · rw [htype, if_neg (by decide), if_neg (by decide), if_pos rfl] at h
    exact .inr ⟨htype, groupAttestation_eq h⟩
  · rw [htype, if_neg (by decide), if_pos rfl] at h
    exact .inl ⟨by rw [htype]; decide, (Except.ok.inj h).symm⟩

/-- Every signed string is read in one way. -/
theorem attest_inj {v v' : Validator} {tx tx' : Transaction} {vout vout' : UInt32}
    {a a' : Attestation} (htype : KnownType tx) (htype' : KnownType tx')
    (ha : attest v tx vout = .ok a) (ha' : attest v' tx' vout' = .ok a')
    (h : a.preimage = a'.preimage) :
    tx.txid = tx'.txid ∧ vout = vout' ∧ tx.slp.tokenid = tx'.slp.tokenid ∧
      tx.slp.tokenType = tx'.slp.tokenType ∧ a = a' := by
  rcases attest_cases htype ha with ⟨hamount, rfl⟩ | ⟨hgroup, t, rfl⟩ <;>
    rcases attest_cases htype' ha' with ⟨hamount', rfl⟩ | ⟨hgroup', t', rfl⟩
  · obtain ⟨htxid, hvout, htoken, hsame, -⟩ := preimageHead_inj h
    exact ⟨htxid, hvout, htoken, hsame, amountAttestation_inj h⟩
  · obtain ⟨-, -, -, hsame, -⟩ := preimageHead_inj h
    exact absurd (hsame.trans hgroup') hamount
  · obtain ⟨-, -, -, hsame, -⟩ := preimageHead_inj h
    exact absurd (hsame.symm.trans hgroup) hamount'
  · obtain ⟨htxid, hvout, htoken, hsame, hrest⟩ := preimageHead_inj h
    obtain rfl : t = t' := Bhash.ext_v hrest
    refine ⟨htxid, hvout, htoken, hsame, ?_⟩
    simp only [Attestation.mk.injEq, and_true]
    exact h

namespace Server

/-- What a reply for `x` says. -/
def statement (x : Txid) (r : OutputOracleReply) :
    Txid × UInt32 × Tokenid × UInt16 × UInt64 × Bool × Option Tokenid :=
  (x, r.vout, r.tokenid, r.tokentype, r.value, r.isBaton, r.groupid)

/-- The oracle computes `a` for output `vout` of `x`. -/
def Attests (s : Server) (x : Txid) (vout : UInt32) (a : Attestation) : Prop :=
  ∃ tx, s.validator.get x = .ok tx ∧ attest s.validator tx vout = .ok a

theorem outputOracle_reply {s : Server} {schnorrSign : Bhash → Bytes} {x : Txid} {vout : UInt32}
    {r : OutputOracleReply} (h : s.outputOracle schnorrSign x vout = .ok (some r)) :
    ∃ tx a, s.validator.get x = .ok tx ∧ attest s.validator tx vout = .ok a ∧
      r.msg = Sha2.sha256 a.preimage ∧ statement x r =
        (x, vout, tx.slp.tokenid, tx.slp.tokenType, a.value, a.isBaton, a.groupid) := by
  unfold outputOracle at h
  split_ifs at h
  · obtain ⟨tx, hget, h⟩ := bind_eq_ok.mp h
    obtain ⟨a, ha, h⟩ := bind_eq_ok.mp h
    have hr := Option.some.inj (Except.ok.inj h)
    rw [← hr]
    exact ⟨tx, a, hget, ha, rfl, rfl⟩
  · cases h

/-- Two replies with the same signed hash, from any two states of any two servers, say the
same: one output, one token and type, one amount or group. The only other way is that the
strings which were hashed differ and collide. -/
theorem run_outputOracle_binding (utxosync utxosync' : Bool) {events events' : List Event}
    {s s' : Server} (hs : events.foldlM Server.step (.empty utxosync) = .ok s)
    (hs' : events'.foldlM Server.step (.empty utxosync') = .ok s')
    (hhyd : ∀ e ∈ events ++ events', ∀ tx ∈ e.txs, tx.Hydrated)
    (schnorrSign schnorrSign' : Bhash → Bytes) {x x' : Txid} {vout vout' : UInt32}
    {r r' : OutputOracleReply} (hr : s.outputOracle schnorrSign x vout = .ok (some r))
    (hr' : s'.outputOracle schnorrSign' x' vout' = .ok (some r')) (hmsg : r.msg = r'.msg) :
    statement x r = statement x' r' ∨ ∃ a a', s.Attests x vout a ∧ s'.Attests x' vout' a' ∧
      a.preimage ≠ a'.preimage ∧ Sha2.sha256 a.preimage = Sha2.sha256 a'.preimage := by
  have hstored := storedHydrated_run (fun e he => hhyd e (List.mem_append_left _ he)) hs
  have hstored' := storedHydrated_run (fun e he => hhyd e (List.mem_append_right _ he)) hs'
  obtain ⟨tx, a, hget, ha, hhash, hread⟩ := outputOracle_reply hr
  obtain ⟨tx', a', hget', ha', hhash', hread'⟩ := outputOracle_reply hr'
  have hlookup := get_eq_ok.mp hget
  have hlookup' := get_eq_ok.mp hget'
  obtain ⟨htx, htype⟩ := hstored x tx hlookup
  obtain ⟨htx', htype'⟩ := hstored' x' tx' hlookup'
  by_cases hsame : a.preimage = a'.preimage
  · obtain ⟨htxid, rfl, htoken, hkind, rfl⟩ :=
      attest_inj (htx.tokenType htype) (htx'.tokenType htype') ha ha' hsame
    have hx : x = x' := by
      rw [← KeyedMap.key_lookup hlookup, ← KeyedMap.key_lookup hlookup']
      exact htxid
    exact .inl (by rw [hread, hread', hx, htoken, hkind])
  · refine .inr ⟨a, a', ⟨tx, hget, ha⟩, ⟨tx', hget', ha'⟩, hsame, ?_⟩
    rw [← hhash, ← hhash', hmsg]

theorem run_outputOracle_binding_sample : ∃ s r r',
    oracleEvents.foldlM Server.step (.empty false) = .ok s ∧
      s.outputOracle (fun _ => []) sampleGenesis.txid 1 = .ok (some r) ∧
      s.outputOracle Bhash.v sampleGenesis.txid 1 = .ok (some r') ∧ r.msg = r'.msg ∧
      (statement sampleGenesis.txid r = statement sampleGenesis.txid r' ∨
        ∃ a a', s.Attests sampleGenesis.txid 1 a ∧ s.Attests sampleGenesis.txid 1 a' ∧
          a.preimage ≠ a'.preimage ∧ Sha2.sha256 a.preimage = Sha2.sha256 a'.preimage) := by
  have hrun : ∃ s, oracleEvents.foldlM Server.step (.empty false) = .ok s ∧
      ∃ o, s.outputOracle (fun _ => []) sampleGenesis.txid 1 = .ok o ∧
      ∃ o', s.outputOracle Bhash.v sampleGenesis.txid 1 = .ok o' ∧
        o.isSome ∧ o'.isSome ∧ o.map OutputOracleReply.msg = o'.map OutputOracleReply.msg := by
    decide +kernel
  obtain ⟨s, hs, o, ho, o', ho', hsome, hsome', hmsg⟩ := hrun
  obtain ⟨r, rfl⟩ := Option.isSome_iff_exists.mp hsome
  obtain ⟨r', rfl⟩ := Option.isSome_iff_exists.mp hsome'
  have hsame : r.msg = r'.msg := Option.some.inj hmsg
  have hhyd : ∀ e ∈ oracleEvents ++ oracleEvents, ∀ tx ∈ e.txs, tx.Hydrated := fun e he =>
    oracleEvents_hydrated e ((List.mem_append.mp he).elim id id)
  exact ⟨s, r, r', hs, ho, ho', hsame,
    run_outputOracle_binding false false hs hs hhyd _ _ ho ho' hsame⟩

end Server
end SlpGraphSearch
