import SlpGraphSearch.ClientValidation
import SlpGraphSearch.OutputOracle
import SlpGraphSearch.TokenGenesis
import SlpGraphSearch.TokenQueries

/-!
# Group ids

The group of a child token is the token behind the first input of its GENESIS.
`SlpTokenInfo` reads it there. `OutputOracle` fetches the GENESIS too and then looks at
the first input of the transaction it was asked about, which for a SEND may be the child
token itself, another token or no SLP transaction at all.
-/
namespace SlpGraphSearch
open Library Transaction

namespace Server

/-- The oracle completes and signs the token of the `0x81` transaction behind the first
input of the GENESIS, and `SlpTokenInfo` reports the same group. -/
def SignsGroup (s : Server) (schnorrSign : Bhash → Bytes) (tx : Transaction) (vout : UInt32) :
    Prop :=
  ∃ g o p reply info, s.validator.transactionMap.lookup tx.slp.tokenid = some g ∧
    g.slp.type = .genesis ∧ g.inputs.head? = some o ∧
    s.validator.transactionMap.lookup o.txid = some p ∧ p.slp.tokenType = 0x81 ∧
    s.outputOracle schnorrSign tx.txid vout = .ok (some reply) ∧
    reply.groupid = some p.slp.tokenid ∧
    reply.msg = Sha2.sha256 (preimageHead tx vout ++ p.slp.tokenid.v) ∧
    reply.sig = schnorrSign reply.msg ∧
    s.slpTokenInfo tx.slp.tokenid = .ok (some info) ∧ info.groupid = some p.slp.tokenid

/-- The GENESIS is a child of the stored group transaction `p`. -/
def ChildOf (s : Server) (g p : Transaction) : Prop :=
  g.slp.tokenType = 0x41 ∧ ∃ o, g.inputs.head? = some o ∧
    s.validator.transactionMap.lookup o.txid = some p ∧ p.slp.tokenType = 0x81

/-- The GENESIS of the transaction is the child of a group, and the first input of the
transaction itself leads to a stored transaction of that group's token. -/
def SpendsGroup (s : Server) (tx : Transaction) : Prop :=
  ∃ g p, s.validator.transactionMap.lookup tx.slp.tokenid = some g ∧ s.ChildOf g p ∧
    ∃ o q, tx.inputs.head? = some o ∧ s.validator.transactionMap.lookup o.txid = some q ∧
      q.slp.tokenid = p.slp.tokenid

variable {s : Server} {tx g : Transaction}

/-! ## The two handlers -/

theorem groupid_eq_ok {t : Tokenid} : s.groupid g = .ok t ↔
    ∃ o p, g.inputs.head? = some o ∧ s.validator.transactionMap.lookup o.txid = some p ∧
      p.slp.tokenid = t := by
  unfold groupid
  cases g.inputs with
  | nil => simp
  | cons o rest => simp [bind_eq_ok, get_eq_ok]

theorem slpTokenInfo_groupid {tokenid t : Tokenid}
    (hg : s.validator.transactionMap.lookup tokenid = some g) (hgen : g.slp.type = .genesis) :
    (∃ info, s.slpTokenInfo tokenid = .ok (some info) ∧ info.groupid = some t) ↔
      g.slp.tokenType = 0x41 ∧ s.groupid g = .ok t := by
  obtain ⟨r, hr⟩ := SlpTransaction.type_eq_genesis.mp hgen
  have hinfo : s.genesisInfo tokenid = .ok (g, r) := genesisInfo_eq_ok.mpr ⟨hg, hr⟩
  have hhas : s.validator.has tokenid = true := Validator.has_of_lookup hg
  unfold slpTokenInfo
  by_cases h41 : g.slp.tokenType = 0x41
  · cases hgroup : s.groupid g with
    | error e => simp [hhas, hinfo, h41, hgroup, bind, Except.bind, Functor.map, Except.map]
    | ok t' => simp [hhas, hinfo, h41, hgroup, bind, Except.bind, Functor.map, Except.map]
  · simp [hhas, hinfo, h41, bind, Except.bind]

/-- What the oracle makes of a valid child token, whatever `t` is asked for. -/
theorem outputOracle_groupid {schnorrSign : Bhash → Bytes} {vout : UInt32} {t : Tokenid}
    (hvalid : tx.txid ∈ s.validator.valid) (hget : s.validator.get tx.txid = .ok tx)
    (h41 : tx.slp.tokenType = 0x41)
    (hg : s.validator.transactionMap.lookup tx.slp.tokenid = some g) :
    (∃ reply, s.outputOracle schnorrSign tx.txid vout = .ok (some reply) ∧
      reply.groupid = some t ∧ reply.msg = Sha2.sha256 (preimageHead tx vout ++ t.v) ∧
      reply.sig = schnorrSign reply.msg) ↔ s.groupid tx = .ok t := by
  have hattest : attest s.validator tx vout = groupAttestation s.validator tx vout := by
    simp [attest, h41]
  have hgen : s.validator.get tx.slp.tokenid = .ok g := get_eq_ok.mpr hg
  have hhas : s.validator.hasValid tx.txid = true := by
    rw [Validator.hasValid, decide_eq_true_eq]
    exact hvalid
  have hgroup : groupAttestation s.validator tx vout = (s.groupid tx).map fun t =>
      ⟨preimageHead tx vout ++ t.v, 0, false, some t⟩ := by
    unfold groupAttestation groupid
    rw [hgen]
    cases tx.inputs with
    | nil => rfl
    | cons o rest =>
      cases hq : s.validator.get o.txid with
      | error e => simp [hq, bind, Except.bind, Except.map]
      | ok q => simp [hq, bind, Except.bind, Except.map]
  unfold outputOracle
  simp only [hhas, not_true_eq_false, if_false, hget, hattest, hgroup, bind, Except.bind]
  cases s.groupid tx with
  | error e => simp [Except.map]
  | ok t' =>
    simp only [Except.map, Except.ok.injEq, Option.some.injEq, exists_eq_left']
    constructor
    · exact fun h => h.1
    · intro h
      subst h
      simp

/-- One question in one state. -/
theorem signsGroup_iff {schnorrSign : Bhash → Bytes} {vout : UInt32}
    (hvalid : tx.txid ∈ s.validator.valid) (hget : s.validator.get tx.txid = .ok tx)
    (h41 : tx.slp.tokenType = 0x41) (hknows : s.KnowsToken tx.slp.tokenid) :
    s.SignsGroup schnorrSign tx vout ↔ s.SpendsGroup tx := by
  obtain ⟨g, hg, hgen⟩ := hknows
  constructor
  · intro h
    obtain ⟨g', o, p, reply, info, hg', -, ho, hp, h81, horacle, hgroup, hmsg, hsig, hinfo,
      hreport⟩ := h
    have hgg : g = g' := Option.some.inj (hg.symm.trans hg')
    subst hgg
    have hchild := ((slpTokenInfo_groupid hg hgen).mp ⟨info, hinfo, hreport⟩).1
    have hown := (outputOracle_groupid hvalid hget h41 hg).mp ⟨reply, horacle, hgroup, hmsg, hsig⟩
    exact ⟨g, p, hg, ⟨hchild, o, ho, hp, h81⟩, groupid_eq_ok.mp hown⟩
  · intro h
    obtain ⟨g', p, hg', ⟨hchild, o, ho, hp, h81⟩, hown⟩ := h
    have hgg : g = g' := Option.some.inj (hg.symm.trans hg')
    subst hgg
    have hreply : ∃ reply, s.outputOracle schnorrSign tx.txid vout = .ok (some reply) ∧
        reply.groupid = some p.slp.tokenid ∧
        reply.msg = Sha2.sha256 (preimageHead tx vout ++ p.slp.tokenid.v) ∧
        reply.sig = schnorrSign reply.msg :=
      (outputOracle_groupid hvalid hget h41 hg).mpr (groupid_eq_ok.mpr hown)
    obtain ⟨reply, horacle, hgroup, hmsg, hsig⟩ := hreply
    obtain ⟨info, hinfo, hreport⟩ := (slpTokenInfo_groupid hg hgen).mpr
      ⟨hchild, groupid_eq_ok.mpr ⟨o, p, ho, hp, rfl⟩⟩
    exact ⟨g, o, p, reply, info, hg, hgen, ho, hp, h81, horacle, hgroup, hmsg, hsig, hinfo, hreport⟩

/-! ## Untrusted runs -/

/-- The rules of the valid transactions hold, and all that is stored was decoded. -/
structure Reasoned (v : Validator) : Prop where
  hydrated : v.StoredHydrated
  ruled : v.Ruled

theorem Reasoned.offerTx {v v' : Validator} {acc acc' : List Transaction} (h : Reasoned v)
    (hhyd : tx.Hydrated) (hoffer : offerTx false (v, acc) tx = .ok (v', acc')) : Reasoned v' := by
  unfold Server.offerTx at hoffer
  split_ifs at hoffer
  · have heq := Except.ok.inj hoffer
    exact (Prod.mk.inj heq).1 ▸ h
  · obtain ⟨r, hadd, hr⟩ := bind_eq_ok.mp hoffer
    have heq := (Prod.mk.inj (Except.ok.inj hr)).1
    exact heq ▸ ⟨h.hydrated.addTx hhyd hadd, h.ruled.addTx h.hydrated hhyd hadd⟩

theorem Reasoned.offerTxs {v v' : Validator} {txs acc acc' : List Transaction} (h : Reasoned v)
    (hhyd : ∀ tx ∈ txs, tx.Hydrated)
    (hoffer : txs.foldlM (Server.offerTx false) (v, acc) = .ok (v', acc')) : Reasoned v' := by
  induction txs generalizing v acc with
  | nil =>
    have heq := Except.ok.inj hoffer
    exact (Prod.mk.inj heq).1 ▸ h
  | cons tx txs ih =>
    rw [List.foldlM_cons, bind_eq_ok] at hoffer
    obtain ⟨r, hfirst, hrest⟩ := hoffer
    have hnext := h.offerTx (hhyd tx List.mem_cons_self) hfirst
    exact ih hnext (fun t ht => hhyd t (List.mem_cons_of_mem tx ht)) hrest

theorem always_reasoned (utxosync : Bool) {events : List Event}
    (hhyd : ∀ e ∈ events, ∀ tx ∈ e.txs, tx.Hydrated)
    (huntrusted : ∀ e ∈ events, e.trusted = false) :
    Always Server.step (fun _ s => Reasoned s.validator) (.empty utxosync) events := by
  have hempty : Reasoned (Server.empty utxosync).validator :=
    ⟨fun x t hl => by simp [Server.empty, Validator.empty] at hl, .empty⟩
  refine Always.of_step (P := fun _ (s : Server) => Reasoned s.validator) hempty ?_
  intro past e rest s₁ s₂ hev h hs₁ hstep
  have he : e ∈ events := by simp [hev]
  obtain ⟨v, l, bch, hoffer, -, hs₂⟩ := step_eq_ok.mp hstep
  subst hs₂
  rw [huntrusted e he] at hoffer
  exact h.offerTxs (hhyd e he) hoffer

/-- A valid GENESIS of a child token was accepted for the group behind its first input. -/
theorem Reasoned.spendsGroup (h : Reasoned s.validator) (hvalid : tx.txid ∈ s.validator.valid)
    (hget : s.validator.get tx.txid = .ok tx) (h41 : tx.slp.tokenType = 0x41)
    (hgen : tx.slp.type = .genesis) : s.SpendsGroup tx := by
  have hlookup := get_eq_ok.mp hget
  have hhyd := (h.hydrated tx.txid tx hlookup).1
  obtain ⟨t, ht, hrule⟩ := h.ruled tx.txid hvalid
  have htx : t = tx := Option.some.inj (ht.symm.trans hlookup)
  subst htx
  obtain ⟨r, hr⟩ := SlpTransaction.type_eq_genesis.mp hgen
  simp only [SlpRule, hr] at hrule
  obtain ⟨o, p, ho, hp, h81, -⟩ := hrule h41
  have hpl := (Validator.view_eq_some.mp hp).2
  have hself : s.validator.transactionMap.lookup t.slp.tokenid = some t := by
    rw [hhyd.genesis_tokenid hgen, hlookup]
  exact ⟨t, p, hself, ⟨h41, o, ho, hpl, h81⟩, o, p, ho, hpl, rfl⟩

/-! ## Every run -/

/-- In every state of every run, what the oracle signs about a valid child token is the
group that `SlpTokenInfo` reports exactly if the first input of the transaction leads to
that group. Without trusted blocks this is so for every valid GENESIS. -/
theorem run_signsGroup_iff (utxosync : Bool) {events : List Event}
    (hhyd : ∀ e ∈ events, ∀ tx ∈ e.txs, tx.Hydrated) (schnorrSign : Bhash → Bytes) :
    Always Server.step (fun _ s => ∀ x ∈ s.validator.valid, ∀ tx, s.validator.get x = .ok tx →
      tx.slp.tokenType = 0x41 → s.KnowsToken tx.slp.tokenid → ∀ vout,
        (s.SignsGroup schnorrSign tx vout ↔ s.SpendsGroup tx)) (.empty utxosync) events ∧
    ((∀ e ∈ events, e.trusted = false) →
      Always Server.step (fun _ s => ∀ x ∈ s.validator.valid, ∀ tx, s.validator.get x = .ok tx →
        tx.slp.tokenType = 0x41 → tx.slp.type = .genesis → s.SpendsGroup tx)
        (.empty utxosync) events) := by
  have hid : ∀ {s : Server} {x : Txid} {tx : Transaction}, s.validator.get x = .ok tx →
      tx.txid = x := fun hget => KeyedMap.key_lookup (get_eq_ok.mp hget)
  constructor
  · intro past rest hev s hs x hx tx hget h41 hknows vout
    have htxid := hid hget
    subst htxid
    exact signsGroup_iff hx hget h41 hknows
  · intro huntrusted past rest hev s hs x hx tx hget h41 hgen
    have htxid := hid hget
    subst htxid
    exact (always_reasoned utxosync hhyd huntrusted past rest hev s hs).spendsGroup hx hget h41 hgen

/-- A SEND of the child token. -/
def sampleChildSend : Transaction :=
  let txid : Txid := ⟨
    [0x46, 0xBF, 0x8D, 0xE2, 0xC6, 0xBB, 0x7B, 0x37, 0xA8, 0x2D, 0x86, 0xAC, 0x44, 0x80, 0x4E,
     0x15, 0x1B, 0x68, 0x40, 0x69, 0x27, 0x96, 0x82, 0xEF, 0x8C, 0xC8, 0xCF, 0x12, 0x65, 0xDB,
     0xA2, 0xE3], rfl⟩
  encoded txid [⟨sampleChild.txid, 1⟩]
    [opReturn (sendPayloads 0x41 sampleChild.txid [1]), [0x54]]
    ⟨sampleChild.txid, 0x41, .send ⟨[1]⟩⟩

theorem sampleChildSend_hydrated : sampleChildSend.Hydrated :=
  hydrated_encoded (by decide) (by decide) (by decide) (by decide +kernel) (by decide +kernel)

/-- A group, a child token of it and a SEND of the child. -/
def groupEvents : List Event :=
  [.rawtx sampleGroup, .rawtx sampleChild, .rawtx sampleChildSend]

theorem groupEvents_hydrated : ∀ e ∈ groupEvents, ∀ tx ∈ e.txs, tx.Hydrated := by
  simp [groupEvents, Event.txs, sampleGroup_hydrated, sampleChild_hydrated,
    sampleChildSend_hydrated]

theorem groupEvents_run : ∃ s, groupEvents.foldlM Server.step (.empty false) = .ok s ∧
    sampleChild.txid ∈ s.validator.valid ∧ sampleChildSend.txid ∈ s.validator.valid ∧
    s.validator.get sampleGroup.txid = .ok sampleGroup ∧
    s.validator.get sampleChild.txid = .ok sampleChild ∧
    s.validator.get sampleChildSend.txid = .ok sampleChildSend := by decide +kernel

theorem run_signsGroup_iff_sample :
    ∃ s, groupEvents.foldlM Server.step (.empty false) = .ok s ∧
      s.SignsGroup (fun msg => msg.v) sampleChild 1 := by
  obtain ⟨s, hs, hvalid, -, -, hget, -⟩ := groupEvents_run
  have hknows : s.KnowsToken sampleChild.slp.tokenid :=
    ⟨sampleChild, get_eq_ok.mp hget, by decide⟩
  obtain ⟨hiff, huntrusted⟩ := run_signsGroup_iff false groupEvents_hydrated fun msg => msg.v
  have hspends := huntrusted (by simp [groupEvents, Event.trusted]) groupEvents [] (by simp) s hs _
    hvalid _ hget rfl (by decide)
  exact ⟨s, hs, (hiff groupEvents [] (by simp) s hs _ hvalid _ hget rfl hknows 1).mpr hspends⟩

/-- For the SEND the oracle signs the child token as its own group. -/
theorem signsGroup_fails :
    ¬ Always Server.step (fun _ s => ∀ x ∈ s.validator.valid, ∀ tx, s.validator.get x = .ok tx →
      tx.slp.tokenType = 0x41 → s.KnowsToken tx.slp.tokenid → ∀ vout,
        s.SignsGroup (fun msg => msg.v) tx vout) (.empty false) groupEvents := by
  intro h
  obtain ⟨s, hs, -, hvalid, hgroup, hchild, hget⟩ := groupEvents_run
  have hlookup := get_eq_ok.mp hchild
  have hknows : s.KnowsToken sampleChildSend.slp.tokenid := ⟨sampleChild, hlookup, by decide⟩
  have hsigns := h groupEvents [] (by simp) s hs _ hvalid _ hget rfl hknows 1
  rw [signsGroup_iff hvalid hget rfl hknows] at hsigns
  obtain ⟨g, p, hg, ⟨-, o, ho, hp, -⟩, r, q, hr, hq, heq⟩ := hsigns
  have hgchild : sampleChild = g := Option.some.inj (hlookup.symm.trans hg)
  subst hgchild
  have hro : r = ⟨sampleChild.txid, 1⟩ := Option.some.inj (hr.symm.trans rfl)
  have hog : o = ⟨sampleGroup.txid, 1⟩ := Option.some.inj (ho.symm.trans rfl)
  subst hro hog
  have hqchild : q = sampleChild := Option.some.inj (hq.symm.trans hlookup)
  have hpgroup : p = sampleGroup := Option.some.inj (hp.symm.trans (get_eq_ok.mp hgroup))
  subst hqchild hpgroup
  exact absurd heq (by decide)

end Server
end SlpGraphSearch
