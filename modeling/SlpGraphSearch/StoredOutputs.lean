import SlpGraphSearch.TokenOutputs
import SlpGraphSearch.TokenTracks

/-!
# What the outputs of a token are

Whether the outputs that `slpdb` files under a token exist, and whether its two maps and
the baton agree. A SEND may name two outputs more than it has; the entry of a MINT baton
names output 1; and what is spent stays in the reverse index.
-/
namespace SlpGraphSearch
open Library Transaction

namespace Transaction

variable {p : Transaction}

theorem tokenOutput_send_ne_none {s : SlpTransactionSend} (hs : p.slp.slpTx = .send s)
    {v : UInt32} : p.tokenOutput ⟨p.txid, v⟩ ≠ none ↔
      0 < v.toNat ∧ v.toNat ≤ 1 + p.outputs.length ∧ v.toNat ≤ s.amounts.length := by
  have hv : v = 0 ↔ v.toNat = 0 := by
    rw [← UInt32.toNat_inj, UInt32.toNat_zero]
  simp only [tokenOutput, hs, ne_eq, not_true_eq_false, if_false, hv]
  split_ifs with hout
  · simp only [not_true_eq_false, false_iff]
    omega
  · rw [Option.map_eq_none_iff, List.getElem?_eq_none_iff]
    omega

theorem lt_length_of_batonOutput {o : Outpoint} (h : p.batonOutput = some o) :
    o.vout.toNat < p.outputs.length := by
  unfold batonOutput at h
  split at h
  · split_ifs at h with hbaton
    rw [← Option.some.inj h]
    exact hbaton.2
  · split_ifs at h with hbaton
    rw [← Option.some.inj h]
    exact hbaton.2
  · simp at h

/-- The output that a GENESIS or MINT files exists as soon as there are two. -/
theorem Hydrated.lt_length_of_tokenOutput (h : p.Hydrated) (hauth : p.IsAuthority)
    (h2 : 2 ≤ p.outputs.length) {o : Outpoint} (ho : p.tokenOutput o ≠ none) :
    1 ≤ o.vout.toNat ∧ o.vout.toNat < p.outputs.length := by
  have hone : (1 : UInt32).toNat = 1 := rfl
  cases hauth with
  | inl hgen =>
    obtain ⟨s, hs⟩ := SlpTransaction.type_eq_genesis.mp hgen
    rw [tokenOutput_genesis hs] at ho
    split_ifs at ho with hvout
    · rw [hvout, hone]
      omega
    · exact absurd rfl ho
  | inr hmint =>
    obtain ⟨s, hs⟩ := SlpTransaction.type_eq_mint.mp hmint
    rw [tokenOutput_mint hs] at ho
    split_ifs at ho with hvout hbaton
    · rw [hvout, hone]
      omega
    · have htwo := h.two_le_baton hbaton
      exact ⟨by omega, lt_length_of_batonOutput hbaton⟩
    · exact absurd rfl ho

end Transaction

namespace Slpdb

/-- Every output of every token is an existing output, not the first, of a transaction
that the token recorded. -/
def StoresRealOutputs (db : Slpdb) : Prop :=
  ∀ t, ∀ o ∈ (db.token t).utxos, ∃ p, (db.token t).transactions.lookup o.txid = some p ∧
    1 ≤ o.vout.toNat ∧ o.vout.toNat < p.outputs.length

/-- An entry names its own outpoint, and the reverse index names a token exactly for its
outputs and its baton. -/
def Agrees (db : Slpdb) : Prop :=
  (∀ t o u, (db.token t).utxos.lookup o = some u → u.outpoint = o) ∧
    ∀ o t, db.utxoToTokenid.lookup o = some t ↔
      o ∈ (db.token t).utxos ∨ (db.token t).mintBatonOutpoint = some o

end Slpdb

/-- The call spends the outputs that a recorded SEND names and does not have. -/
def BchEvent.SpendsMissing (b : Bch) (e : BchEvent) : Prop :=
  ∀ p ∈ e.recorded b, ∀ s, p.slp.slpTx = .send s → ∀ v : UInt32, p.outputs.length ≤ v.toNat →
    v.toNat ≤ 1 + p.outputs.length → v.toNat ≤ s.amounts.length → ⟨p.txid, v⟩ ∈ e.spent

/-- No recorded MINT creates a baton, and the call spends no output that a token has or
gets by it. -/
def BchEvent.KeepsOutputs (b : Bch) (e : BchEvent) : Prop :=
  (∀ p ∈ e.recorded b, p.slp.type = .mint → p.batonOutput = none) ∧
    ∀ o ∈ e.spent, (∀ t, o ∉ (b.slpdb.token t).utxos) ∧
      ∀ p ∈ e.recorded b, p.tokenOutput o = none

variable {T : TransactionMap} {b b' : Bch} {e : BchEvent} {db db' : Slpdb}

/-! ## Real outputs -/

/-- A call gets through only if the GENESIS and MINT transactions have two outputs. -/
theorem Bch.two_le_of_step (hstep : b.step e = .ok b') {tx : Transaction} (htx : tx ∈ e.txs)
    (hhyd : tx.Hydrated) (hauth : tx.IsAuthority) : 2 ≤ tx.outputs.length := by
  have hspendable : ∃ os, Bch.spendableOutputs tx = .ok os := by
    cases e with
    | block txs saveRollback =>
      obtain ⟨oss, hoss, -⟩ := bind_eq_ok.mp hstep
      exact exists_ok_of_mapM_ok hoss htx
    | mempoolTx t =>
      obtain ⟨os, hos, -⟩ := bind_eq_ok.mp hstep
      rw [List.mem_singleton.mp htx]
      exact ⟨os, hos⟩
  obtain ⟨os, hos⟩ := hspendable
  obtain ⟨outputs, houtputs, -⟩ := bind_eq_ok.mp hos
  exact (slpOutputs_ok_iff hhyd).mp ⟨outputs, houtputs⟩ hauth

theorem Slpdb.Moves.storesRealOutputs_iff (hmoves : db.Moves db' (e.recorded b) e.spent)
    (htracks : db'.Tracks T) (hT : T.Decoded)
    (hrec : ∀ tx ∈ e.recorded b, T.lookup tx.txid = some tx)
    (htwo : ∀ tx ∈ e.recorded b, tx.IsAuthority → 2 ≤ tx.outputs.length)
    (h : db.StoresRealOutputs) : db'.StoresRealOutputs ↔ e.SpendsMissing b := by
  constructor
  · intro h' p hp s hs v hlow hhigh hnamed
    by_contra hunspent
    have hhyd := hT (hrec p hp)
    have hpos : 0 < p.outputs.length := by
      apply List.length_pos_of_ne_nil
      exact hhyd.outputs_ne_nil (by simp [SlpTransaction.type_eq_send.mpr ⟨s, hs⟩])
    have hout : p.tokenOutput ⟨p.txid, v⟩ ≠ none :=
      (tokenOutput_send_ne_none hs).mpr ⟨by omega, hhigh, hnamed⟩
    have hheld : ⟨p.txid, v⟩ ∈ (db'.token p.slp.tokenid).utxos :=
      hmoves.utxos.mpr ⟨.inr ⟨p, hp, rfl, hout⟩, hunspent⟩
    obtain ⟨q, hq, -, hlt⟩ := h' _ _ hheld
    have hqp : q = p := Option.some.inj ((htracks.recorded hq).1.symm.trans (hrec p hp))
    rw [hqp] at hlt
    exact absurd hlow (Nat.not_le.mpr hlt)
  · intro hspends t o ho
    obtain ⟨hold, hunspent⟩ := hmoves.utxos.mp ho
    cases hold with
    | inl hheld =>
      obtain ⟨p, hp, hbounds⟩ := h t o hheld
      exact ⟨p, hmoves.transactions.mpr (.inr hp), hbounds⟩
    | inr hnew =>
      obtain ⟨p, hp, ht, hout⟩ := hnew
      have hid : o.txid = p.txid := by_contra fun hne => hout (tokenOutput_of_ne hne)
      refine ⟨p, hmoves.transactions.mpr (.inl ⟨hp, hid, ht.symm⟩), ?_⟩
      cases hs : p.slp.slpTx with
      | invalid => simp [tokenOutput, hs, hid] at hout
      | genesis s =>
        have hauth : p.IsAuthority := .inl (SlpTransaction.type_eq_genesis.mpr ⟨s, hs⟩)
        exact (hT (hrec p hp)).lt_length_of_tokenOutput hauth (htwo p hp hauth) hout
      | mint s =>
        have hauth : p.IsAuthority := .inr (SlpTransaction.type_eq_mint.mpr ⟨s, hs⟩)
        exact (hT (hrec p hp)).lt_length_of_tokenOutput hauth (htwo p hp hauth) hout
      | send s =>
        have ho' : o = ⟨p.txid, o.vout⟩ := by rw [← hid]
        rw [ho'] at hout hunspent
        obtain ⟨hpos, hhigh, hnamed⟩ := (tokenOutput_send_ne_none hs).mp hout
        refine ⟨hpos, ?_⟩
        by_contra hlow
        exact hunspent (hspends p hp s hs o.vout (by omega) hhigh hnamed)

/-- In every run the token store holds real outputs exactly if every step that records a
SEND with too many amounts spends the missing outputs itself. -/
theorem Bch.run_storesRealOutputs_iff {events : List BchEvent}
    (hhyd : ∀ tx ∈ events.flatMap BchEvent.txs, tx.Hydrated)
    (hdet : TxidsDetermine (events.flatMap BchEvent.txs)) :
    Always Bch.step (fun _ s => s.slpdb.StoresRealOutputs) .empty events ↔
      EveryStep Bch.step (fun _ s e => e.SpendsMissing s) .empty events := by
  refine Bch.always_iff_of_moves hhyd hdet (P := fun _ db => db.StoresRealOutputs) ?_ ?_
  · intro t o ho
    simp [Slpdb.empty, Slpdb.token, Finmap.notMem_empty] at ho
  · intro T past e rest b b' hev hb hT htracks htracks' hmoves hstep hrec h
    apply hmoves.storesRealOutputs_iff htracks' hT fun tx htx => (hrec tx htx).2
    · intro tx htx hauth
      exact Bch.two_le_of_step hstep (hrec tx htx).1 (hT (hrec tx htx).2) hauth
    · exact h

theorem Bch.run_storesRealOutputs_iff_sample :
    Always Bch.step (fun _ s => s.slpdb.StoresRealOutputs) .empty sampleEvents := by
  have hin : ∀ tx ∈ sampleEvents.flatMap BchEvent.txs, tx.Hydrated := by
    intro tx htx
    obtain ⟨e, he, htx⟩ := List.mem_flatMap.mp htx
    exact (sampleEvents_ingestible he htx).hydrated
  apply (Bch.run_storesRealOutputs_iff hin sampleEvents_txidsDetermine).mpr
  intro past e rest hev s₁ s₂ hs₁ hs₂ p hp s hs v hlow hhigh hnamed
  have he : e ∈ sampleEvents := by simp [hev]
  have hdet : TxidsDetermine e.txs := by
    intro t ht u hu
    exact sampleEvents_txidsDetermine t (List.mem_flatMap.mpr ⟨e, he, ht⟩) u
      (List.mem_flatMap.mpr ⟨e, he, hu⟩)
  cases sampleEvents_txs he (BchEvent.mem_of_recorded hdet hp) with
  | inl hgenesis =>
    rw [hgenesis] at hs
    exact absurd hs (by simp [sampleGenesis, encoded])
  | inr hsend =>
    have hs' : s = ⟨[4, 6]⟩ := by
      rw [hsend] at hs
      exact (SlpTx.send.inj hs).symm
    have hlen : p.outputs.length = 3 := by
      rw [hsend]
      rfl
    rw [hs'] at hnamed
    simp only [List.length_cons, List.length_nil] at hnamed
    omega

/-- A SEND of the whole quantity of `sampleGenesis` to two outputs, of which it has one. -/
def sampleLongSend : Transaction :=
  let txid : Txid := ⟨
    [0xA8, 0x76, 0xFA, 0x0A, 0x81, 0xF2, 0x96, 0x57, 0xD8, 0x58, 0x91, 0x86, 0x7B, 0x85, 0xBD,
     0xA9, 0x26, 0x3C, 0xD1, 0x9D, 0x9F, 0x15, 0x88, 0x56, 0x96, 0xA6, 0x24, 0x48, 0x84, 0xAD,
     0x89, 0xAB], rfl⟩
  encoded txid [⟨sampleGenesis.txid, 1⟩]
    [opReturn (sendPayloads 1 sampleGenesis.txid [4, 6]), [0x53]]
    ⟨sampleGenesis.txid, 1, .send ⟨[4, 6]⟩⟩

theorem sampleLongSend_hydrated : sampleLongSend.Hydrated :=
  hydrated_encoded (by decide) (by decide) (by decide) (by decide +kernel) (by decide +kernel)

/-- The token store keeps the output that the SEND does not have. -/
theorem Bch.storesRealOutputs_fails :
    sampleGenesis.Hydrated ∧ sampleLongSend.Hydrated ∧
    ¬ Always Bch.step (fun _ s => s.slpdb.StoresRealOutputs) .empty
      [.block [sampleGenesis] false, .block [sampleLongSend] false] := by
  refine ⟨sampleGenesis_hydrated, sampleLongSend_hydrated, ?_⟩
  intro h
  have hrun : ∃ s, [BchEvent.block [sampleGenesis] false, .block [sampleLongSend] false].foldlM
      Bch.step .empty = .ok s ∧
      ⟨sampleLongSend.txid, 2⟩ ∈ (s.slpdb.token sampleGenesis.txid).utxos ∧
      (s.slpdb.token sampleGenesis.txid).transactions.lookup sampleLongSend.txid =
        some sampleLongSend := by decide +kernel
  obtain ⟨s, hs, hheld, hrec⟩ := hrun
  obtain ⟨p, hp, -, hlt⟩ := h _ [] (List.append_nil _).symm s hs _ _ hheld
  have hpl : p = sampleLongSend := Option.some.inj (hp.symm.trans hrec)
  rw [hpl] at hlt
  exact absurd hlt (by decide)

/-! ## Agreement -/

/-- The store does not take a MINT baton for what it is: the entry names output 1. -/
theorem Transaction.Hydrated.outpoint_ne_of_mint_baton {p : Transaction} (h : p.Hydrated)
    (hmint : p.slp.type = .mint) {o : Outpoint} (hb : p.batonOutput = some o) :
    ∃ u, p.tokenOutput o = some u ∧ u.outpoint ≠ o := by
  obtain ⟨s, hs⟩ := SlpTransaction.type_eq_mint.mp hmint
  have hne : o ≠ ⟨p.txid, 1⟩ := by
    intro ho
    have h2 := h.two_le_baton hb
    rw [ho] at h2
    exact absurd h2 (by simp)
  exact ⟨_, by rw [tokenOutput_mint hs, if_neg hne, if_pos hb], hne.symm⟩

theorem outpoint_of_tokenOutput {p : Transaction} (hno : p.slp.type = .mint → p.batonOutput = none)
    {o : Outpoint} {u : SlpOutput} (hu : p.tokenOutput o = some u) : u.outpoint = o := by
  have hid := tokenOutput_txid hu
  cases hs : p.slp.slpTx with
  | invalid => simp [tokenOutput, hs] at hu
  | genesis s =>
    rw [tokenOutput_genesis hs] at hu
    split_ifs at hu with ho
    rw [← Option.some.inj hu, ho]
  | mint s =>
    rw [tokenOutput_mint hs, hno (SlpTransaction.type_eq_mint.mpr ⟨s, hs⟩)] at hu
    split_ifs at hu with ho hnone
    · rw [← Option.some.inj hu, ho]
    · exact hnone.elim
  | send s =>
    simp only [tokenOutput, hs, hid, ne_eq, not_true_eq_false, if_false] at hu
    split_ifs at hu
    obtain ⟨amount, -, hamount⟩ := Option.map_eq_some_iff.mp hu
    rw [← hamount]

/-- As long as the two agree, no recorded MINT created a baton. -/
theorem Slpdb.Agrees.no_mint_baton (h : db.Agrees) (htracks : db.Tracks T) (hT : T.Decoded)
    {t : Tokenid} {x : Txid} {p : Transaction}
    (hp : (db.token t).transactions.lookup x = some p) (hmint : p.slp.type = .mint) :
    p.batonOutput = none := by
  by_contra hb
  obtain ⟨o, ho⟩ := Option.ne_none_iff_exists'.mp hb
  have hhyd := hT (htracks.recorded hp).1
  have hx : o.txid = x := by
    rw [batonOutput_txid ho, ← KeyedMap.key_lookup hp]
  have hindex := htracks.index.mpr ⟨p, hx ▸ hp, .inr ho⟩
  have hheld : o ∈ (db.token t).utxos := by
    cases (h.2 o t).mp hindex with
    | inl hin => exact hin
    | inr hcur =>
      obtain ⟨q, hq, -, hheld⟩ := htracks.baton hcur
      have hqp : q = p := Option.some.inj (hq.symm.trans (hx ▸ hp))
      exact hheld (hqp ▸ hmint)
  obtain ⟨u, hu⟩ := Finmap.mem_iff.mp hheld
  obtain ⟨q, hq, hqu⟩ := htracks.utxo hu
  have hqp : q = p := Option.some.inj (hq.symm.trans (hx ▸ hp))
  subst hqp
  obtain ⟨u', hu', hne⟩ := hhyd.outpoint_ne_of_mint_baton hmint ho
  have huu : u = u' := Option.some.inj (hqu.symm.trans hu')
  exact hne (huu ▸ h.1 t o u hu)

theorem Slpdb.Tracks.genesis_unique (h : db.Tracks T) (hT : T.Decoded) {t : Tokenid}
    {x y : Txid} {p q : Transaction} (hp : (db.token t).transactions.lookup x = some p)
    (hq : (db.token t).transactions.lookup y = some q) (hgen : p.slp.type = .genesis)
    (hgen' : q.slp.type = .genesis) : p = q := by
  have hid : p.txid = q.txid := by
    rw [← (hT (h.recorded hp).1).genesis_tokenid hgen, (h.recorded hp).2,
      ← (hT (h.recorded hq).1).genesis_tokenid hgen', (h.recorded hq).2]
  have hTp := (h.recorded hp).1
  have hTq := (h.recorded hq).1
  rw [← KeyedMap.key_lookup hp] at hTp
  rw [← KeyedMap.key_lookup hq] at hTq
  exact Option.some.inj (hTp.symm.trans (hid ▸ hTq))

theorem Slpdb.Moves.keepsOutputs_of_agrees (hmoves : db.Moves db' (e.recorded b) e.spent)
    (hb : b.slpdb = db) (htracks : db.Tracks T) (htracks' : db'.Tracks T) (hT : T.Decoded)
    (h' : db'.Agrees) : e.KeepsOutputs b := by
  have hself : ∀ {p}, p ∈ e.recorded b →
      (db'.token p.slp.tokenid).transactions.lookup p.txid = some p :=
    fun hp => hmoves.transactions.mpr (.inl ⟨hp, rfl, rfl⟩)
  -- an output that is spent stays in the index, and is not the baton
  have hgone : ∀ {t p o}, (db'.token t).transactions.lookup o.txid = some p →
      p.tokenOutput o ≠ none → o ∉ e.spent := by
    intro t p o hp hout hspent
    have hindex := htracks'.index.mpr ⟨p, hp, .inl hout⟩
    have hnot : o ∉ (db'.token t).utxos := fun hin => (hmoves.utxos.mp hin).2 hspent
    have hcur := ((h'.2 o t).mp hindex).resolve_left hnot
    obtain ⟨q, hq, hbaton, hheld⟩ := htracks'.baton hcur
    have hqp : q = p := Option.some.inj (hq.symm.trans hp)
    subst hqp
    cases isAuthority_of_batonOutput hbaton with
    | inr hmint => exact hnot (hheld hmint)
    | inl hgen =>
      obtain ⟨s, hs⟩ := SlpTransaction.type_eq_genesis.mp hgen
      rw [tokenOutput_genesis hs] at hout
      split_ifs at hout with hvout
      · have h2 := (hT (htracks'.recorded hq).1).two_le_baton hbaton
        rw [hvout] at h2
        exact absurd h2 (by simp)
      · exact hout rfl
  refine ⟨fun p hp hmint => h'.no_mint_baton htracks' hT (hself hp) hmint, ?_⟩
  intro o hspent
  constructor
  · intro t hin
    rw [hb] at hin
    obtain ⟨u, hu⟩ := Finmap.mem_iff.mp hin
    obtain ⟨p, hp, hpu⟩ := htracks.utxo hu
    exact hgone (hmoves.transactions.mpr (.inr hp)) (by simp [hpu]) hspent
  · intro p hp
    by_contra hout
    have hid : o.txid = p.txid := by_contra fun hne => hout (tokenOutput_of_ne hne)
    exact hgone (hid ▸ hself hp) hout hspent

/-- Without MINT batons the baton of a GENESIS stays. -/
theorem Slpdb.Moves.baton_of_genesis {acc : List Transaction} {ins : List Outpoint}
    (hmoves : db.Moves db' acc ins) (htracks' : db'.Tracks T) (hT : T.Decoded)
    (hno : ∀ q ∈ acc, q.slp.type = .mint → q.batonOutput = none) {t : Tokenid} {o : Outpoint}
    {p : Transaction} (hp : (db'.token t).transactions.lookup o.txid = some p)
    (hgen : p.slp.type = .genesis) (hbaton : p.batonOutput = some o)
    (hold : p ∈ acc ∨ (db.token t).mintBatonOutpoint = some o) :
    (db'.token t).mintBatonOutpoint = some o := by
  apply hmoves.baton.mpr
  constructor
  · cases hlast : lastBaton t acc with
    | some o' =>
      obtain ⟨q, hq, htoken, hqo⟩ := lastBaton_eq_some hlast
      have hqgen : q.slp.type = .genesis := by
        cases isAuthority_of_batonOutput hqo with
        | inl hgen' => exact hgen'
        | inr hmint => simp [hno q hq hmint] at hqo
      have hqrec := hmoves.transactions.mpr (.inl ⟨hq, rfl, htoken.symm⟩)
      have hqp := htracks'.genesis_unique hT hqrec hp hqgen hgen
      rw [Option.some_or, ← hqo, hqp, hbaton]
    | none =>
      rw [Option.none_or]
      cases hold with
      | inr hcur => exact hcur
      | inl hin =>
        have htoken := (htracks'.recorded hp).2
        exact absurd hlast (lastBaton_ne_none hin htoken (by simp [hbaton]))
  · intro hreset
    obtain ⟨-, q, hq, hmint⟩ := hreset
    have hqp : q = p := Option.some.inj (hq.symm.trans hp)
    rw [hqp, hgen] at hmint
    exact absurd hmint (by decide)

theorem Slpdb.Moves.agrees_of_keepsOutputs (hmoves : db.Moves db' (e.recorded b) e.spent)
    (hb : b.slpdb = db) (htracks : db.Tracks T) (htracks' : db'.Tracks T) (hT : T.Decoded)
    (h : db.Agrees) (hkeeps : e.KeepsOutputs b) : db'.Agrees := by
  have hno : ∀ {t x p}, (db'.token t).transactions.lookup x = some p → p.slp.type = .mint →
      p.batonOutput = none := by
    intro t x p hp hmint
    cases hmoves.transactions.mp hp with
    | inl hnew => exact hkeeps.1 p hnew.1 hmint
    | inr hold => exact h.no_mint_baton htracks hT hold hmint
  have hgenesis : ∀ {t o p}, (db'.token t).transactions.lookup o.txid = some p →
      p.batonOutput = some o → p.slp.type = .genesis := by
    intro t o p hp hbaton
    cases isAuthority_of_batonOutput hbaton with
    | inl hgen => exact hgen
    | inr hmint => simp [hno hp hmint] at hbaton
  -- what was filed under the token before stays there
  have hfiled : ∀ {t o}, o ∈ (db.token t).utxos ∨ (db.token t).mintBatonOutpoint = some o →
      o ∈ (db'.token t).utxos ∨ (db'.token t).mintBatonOutpoint = some o := by
    intro t o hold
    cases hold with
    | inl hheld =>
      have hunspent : o ∉ e.spent := fun hspent => (hkeeps.2 o hspent).1 t (hb.symm ▸ hheld)
      exact .inl (hmoves.utxos.mpr ⟨.inl hheld, hunspent⟩)
    | inr hcur =>
      obtain ⟨p, hp, hbaton, -⟩ := htracks.baton hcur
      have hp' := hmoves.transactions.mpr (.inr hp)
      exact .inr (hmoves.baton_of_genesis htracks' hT hkeeps.1 hp' (hgenesis hp' hbaton) hbaton
        (.inr hcur))
  constructor
  · intro t o u hu
    obtain ⟨p, hp, hpu⟩ := htracks'.utxo hu
    exact outpoint_of_tokenOutput (hno hp) hpu
  · intro o t
    constructor
    · intro hindex
      obtain ⟨p, hp, hout⟩ := htracks'.index.mp hindex
      cases hmoves.transactions.mp hp with
      | inr hold => exact hfiled ((h.2 o t).mp (htracks.index.mpr ⟨p, hold, hout⟩))
      | inl hnew =>
        cases hout with
        | inl hout =>
          have hunspent : o ∉ e.spent := fun hspent => hout ((hkeeps.2 o hspent).2 p hnew.1)
          exact .inl (hmoves.utxos.mpr ⟨.inr ⟨p, hnew.1, hnew.2.2.symm, hout⟩, hunspent⟩)
        | inr hbaton =>
          exact .inr (hmoves.baton_of_genesis htracks' hT hkeeps.1 hp (hgenesis hp hbaton) hbaton
            (.inl hnew.1))
    · intro hin
      cases hin with
      | inl hheld => exact htracks'.indexed_of_held hheld
      | inr hcur =>
        obtain ⟨p, hp, hbaton, -⟩ := htracks'.baton hcur
        exact htracks'.index.mpr ⟨p, hp, .inr hbaton⟩

/-- In every run the maps of the token store agree exactly if no step records a MINT that
passes the baton on, or spends an output of a token. -/
theorem Bch.run_agrees_iff {events : List BchEvent}
    (hhyd : ∀ tx ∈ events.flatMap BchEvent.txs, tx.Hydrated)
    (hdet : TxidsDetermine (events.flatMap BchEvent.txs)) :
    Always Bch.step (fun _ s => s.slpdb.Agrees) .empty events ↔
      EveryStep Bch.step (fun _ s e => e.KeepsOutputs s) .empty events := by
  refine Bch.always_iff_of_moves hhyd hdet (P := fun _ db => db.Agrees) ?_ ?_
  · simp [Slpdb.Agrees, Slpdb.empty, Slpdb.token, Finmap.lookup_empty, Finmap.notMem_empty]
  · intro T past e rest b b' hev hb hT htracks htracks' hmoves hstep hrec h
    constructor
    · exact hmoves.keepsOutputs_of_agrees rfl htracks htracks' hT
    · exact hmoves.agrees_of_keepsOutputs rfl htracks htracks' hT h

/-- A MINT of quantity 5 that spends the baton of `sampleGenesis` and passes none on. -/
def sampleLastMint : Transaction :=
  let txid : Txid := ⟨
    [0xC8, 0xB8, 0x8E, 0x8D, 0x06, 0x43, 0xA9, 0x51, 0xFF, 0x50, 0x57, 0x5A, 0x89, 0xA7, 0x96,
     0x69, 0xD3, 0x5F, 0x1D, 0x29, 0x43, 0xEE, 0xEE, 0xC2, 0xA0, 0x16, 0xDD, 0x90, 0xDF, 0x11,
     0xB8, 0x03], rfl⟩
  encoded txid [⟨sampleGenesis.txid, 2⟩]
    [opReturn (mintPayloads 1 sampleGenesis.txid [] 5), [0x51]]
    ⟨sampleGenesis.txid, 1, .mint ⟨false, 0, 5⟩⟩

theorem sampleLastMint_hydrated : sampleLastMint.Hydrated :=
  hydrated_encoded (by decide) (by decide) (by decide) (by decide +kernel) (by decide +kernel)

/-- The MINT takes the baton in a block, and the SEND stays in the mempool. -/
def keptEvents : List BchEvent :=
  [.block [sampleGenesis] true, .block [sampleLastMint] true, .mempoolTx sampleSend]

theorem Bch.run_agrees_iff_sample :
    Always Bch.step (fun _ s => s.slpdb.Agrees) .empty keptEvents ∧
    EveryStep Bch.step (fun _ s e => e.KeepsOutputs s) .empty keptEvents := by
  have hhyd : ∀ tx ∈ keptEvents.flatMap BchEvent.txs, tx.Hydrated := by
    simp [keptEvents, BchEvent.txs, sampleGenesis_hydrated, sampleLastMint_hydrated,
      sampleSend_hydrated]
  have hdet : TxidsDetermine (keptEvents.flatMap BchEvent.txs) :=
    .of_nodup (by decide)
  have hkeeps : EveryStep Bch.step (fun _ s e => e.KeepsOutputs s) .empty keptEvents := by
    have hrun : ∀ n < keptEvents.length, ∃ s₁, (keptEvents.take n).foldlM Bch.step .empty = .ok s₁ ∧
        ∀ e ∈ keptEvents[n]?, (∀ p ∈ e.recorded s₁, p.slp.type = .mint → p.batonOutput = none) ∧
          ∀ o ∈ e.spent, (∀ t ∈ s₁.slpdb.tokens.keys, o ∉ (s₁.slpdb.token t).utxos) ∧
            ∀ p ∈ e.recorded s₁, p.tokenOutput o = none := by
      decide +kernel
    refine .of_take fun n hn => ?_
    obtain ⟨s₁, hs₁, hall⟩ := hrun n hn
    refine ⟨s₁, hs₁, fun e he => (hall e he).imp_right fun hspent o ho => ?_⟩
    refine (hspent o ho).imp_left fun hnot t hheld => ?_
    exact hnot t (Slpdb.mem_tokens_of_held hheld) hheld
  exact ⟨(Bch.run_agrees_iff hhyd hdet).mpr hkeeps, hkeeps⟩

/-- The entry of a MINT baton names output 1, and a spent output stays in the index. -/
theorem Bch.agrees_fails :
    ¬ Always Bch.step (fun _ s => s.slpdb.Agrees) .empty
      [.block [sampleGenesis] false, .block [sampleMint] false] ∧
    ¬ Always Bch.step (fun _ s => s.slpdb.Agrees) .empty
      [.block [sampleGenesis] false, .block [sampleBurn] false] := by
  constructor
  · intro h
    have hrun : ∃ s, [BchEvent.block [sampleGenesis] false, .block [sampleMint] false].foldlM
        Bch.step .empty = .ok s ∧
        (s.slpdb.token sampleGenesis.txid).utxos.lookup ⟨sampleMint.txid, 2⟩ =
          some ⟨⟨sampleMint.txid, 1⟩, 0, true⟩ := by decide +kernel
    obtain ⟨s, hs, hu⟩ := hrun
    exact absurd ((h _ [] (List.append_nil _).symm s hs).1 _ _ _ hu) (by decide)
  · intro h
    have hrun : ∃ s, [BchEvent.block [sampleGenesis] false, .block [sampleBurn] false].foldlM
        Bch.step .empty = .ok s ∧
        s.slpdb.utxoToTokenid.lookup ⟨sampleGenesis.txid, 1⟩ = some sampleGenesis.txid ∧
        ¬ (⟨sampleGenesis.txid, 1⟩ ∈ (s.slpdb.token sampleGenesis.txid).utxos ∨
          (s.slpdb.token sampleGenesis.txid).mintBatonOutpoint = some ⟨sampleGenesis.txid, 1⟩) := by
      decide +kernel
    obtain ⟨s, hs, hindex, hnot⟩ := hrun
    exact hnot (((h _ [] (List.append_nil _).symm s hs).2 _ _).mp hindex)

end SlpGraphSearch
