import SlpGraphSearch.ChainValidity
import SlpGraphSearch.SlpdbRun

/-!
# The two SLP engines

`slpdb` against the validator over the blocks of a ledger. The token store knows
neither the rule of child GENESIS transactions nor token types, it follows only batons
that are real outputs, and it wants the GENESIS of a token before anything else. Where
none of this matters for a transaction, the engines agree on it.
-/
namespace SlpGraphSearch
open Library Transaction

/-- Each transaction is recorded under its token exactly if the validator holds it as
valid. -/
def EnginesAgree (b : Bch) (s : Validator) (txs : List Transaction) : Prop :=
  ∀ tx ∈ txs, tx.txid ∈ (b.slpdb.token tx.slp.tokenid).transactions ↔ tx.txid ∈ s.valid

/-- The SLP-valid members of the ledger. -/
noncomputable abbrev Ledger.validView (L : Ledger) : ValidView := restrict L.T (SlpValid L.T)

/-- The engines cannot differ on `t`, with the transactions `before` processed: a child
GENESIS is valid; the batons that a MINT spends by one engine's rule it spends by the
other's; a SEND covered by one engine's amounts is covered by the other's; and a SEND of
nothing comes after the GENESIS of its token. -/
structure Undisputed (L : Ledger) (before : List Transaction) (t : Transaction) : Prop where
  child : t.slp.type = .genesis → t.slp.tokenType = 0x41 → SlpRule L.validView t
  mintType : t.slp.type = .mint → ∀ o ∈ t.inputs, ∀ p, SpendsStoredBaton L.validView t o p →
    p.slp.tokenType = t.slp.tokenType
  mintOutput : t.slp.type = .mint → ∀ o ∈ t.inputs, ∀ p, SpendsBaton L.validView t o p →
    p.batonOutput = some o
  sendType : ∀ s, t.slp.slpTx = .send s →
    (s.amounts.map UInt64.toNat).sum ≤ (t.inputs.map (storedCredit L.validView t)).sum →
    (s.amounts.map UInt64.toNat).sum ≤ (t.inputs.map (credit L.validView t)).sum
  sendOutputs : ∀ s, t.slp.slpTx = .send s →
    (s.amounts.map UInt64.toNat).sum ≤ (t.inputs.map (credit L.validView t)).sum →
    (s.amounts.map UInt64.toNat).sum ≤ (t.inputs.map (storedCredit L.validView t)).sum
  grounded : t.SendsNothing → ∃ g ∈ before, g.txid = t.slp.tokenid ∧ g.slp.type = .genesis

namespace Transaction

theorem mintBatonOutpoint_of_batonOutput {p : Transaction} {o : Outpoint}
    (h : p.batonOutput = some o) : p.mintBatonOutpoint = o := by
  unfold batonOutput at h
  unfold mintBatonOutpoint
  split at h
  · rename_i s hs
    split_ifs at h with hb
    simp only [hs, if_pos hb.2]
    exact Option.some.inj h
  · rename_i s hs
    split_ifs at h with hb
    simp only [hs, if_pos hb.2]
    exact Option.some.inj h
  · simp at h

theorem SendsNothing.tokenOutput {p : Transaction} (h : p.SendsNothing) {o : Outpoint}
    {u : SlpOutput} (hu : p.tokenOutput o = some u) : u.amount = 0 := by
  obtain ⟨send, hsend, hsum⟩ := h
  simp only [Transaction.tokenOutput, hsend] at hu
  split_ifs at hu
  obtain ⟨amount, ha, rfl⟩ := Option.map_eq_some_iff.mp hu
  exact UInt64.toNat_inj.mp
    (List.sum_eq_zero_iff.mp hsum _ (List.mem_map_of_mem (List.mem_of_getElem? ha)))

end Transaction

namespace Ledger

variable {L : Ledger} {V : Set Txid} {t : Transaction}

/-- Spending a stored baton of the right type is spending a baton. -/
theorem spendsBaton_of_stored {prev : ValidView} {o : Outpoint} {p : Transaction}
    (h : SpendsStoredBaton prev t o p) (ht : p.slp.tokenType = t.slp.tokenType) :
    SpendsBaton prev t o p :=
  ⟨h.1, ⟨h.2.1, ht⟩, isAuthority_of_batonOutput h.2.2,
    (mintBatonOutpoint_of_batonOutput h.2.2).symm⟩

/-- The valid baton holders of a token id have one type. -/
theorem Justified.tokenType_unique (h : L.Justified V) {x y : Txid} {p q : Transaction}
    (hp : restrict L.T V x = some p) (hq : restrict L.T V y = some q) (hpa : p.IsAuthority)
    (hqa : q.IsAuthority) (hid : p.slp.tokenid = q.slp.tokenid) :
    p.slp.tokenType = q.slp.tokenType := by
  obtain ⟨g, hg, -, hgp⟩ := h.genesis hp fun hz => hz.not_isAuthority hpa
  obtain ⟨g', hg', -, hgq⟩ := h.genesis hq fun hz => hz.not_isAuthority hqa
  rw [hid, hg', Option.some.injEq] at hg
  rw [← hgp.2, ← hg, hgq.2]

theorem mem_slpValid (ht : L.T.lookup t.txid = some t) :
    t.txid ∈ SlpValid L.T ↔ SlpRule L.validView t := by
  rw [SlpValid, Rules.mem_derivable, slpRules_holds ht]
  rfl

/-- On a MINT. -/
theorem mint_agrees_iff (ht : L.T.lookup t.txid = some t) :
    ((∃ o ∈ t.inputs, ∃ p, SpendsStoredBaton L.validView t o p) ↔
      ∃ o ∈ t.inputs, ∃ p, SpendsBaton L.validView t o p) ↔
    (∀ o ∈ t.inputs, ∀ p, SpendsStoredBaton L.validView t o p →
      p.slp.tokenType = t.slp.tokenType) ∧
    ∀ o ∈ t.inputs, ∀ p, SpendsBaton L.validView t o p → p.batonOutput = some o := by
  have hV := L.slpValid_justified
  constructor
  · intro h
    have htype : ∀ o ∈ t.inputs, ∀ p, SpendsStoredBaton L.validView t o p →
        p.slp.tokenType = t.slp.tokenType := by
      intro o ho p hp
      obtain ⟨r, -, q, hq⟩ := h.mp ⟨o, ho, p, hp⟩
      rw [← hq.2.1.2]
      exact hV.tokenType_unique hp.1 hq.1 (isAuthority_of_batonOutput hp.2.2) hq.2.2.1
        (hp.2.1.trans hq.2.1.1.symm)
    refine ⟨htype, fun o ho p hp => ?_⟩
    obtain ⟨r, hr, q, hq⟩ := h.mpr ⟨o, ho, p, hp⟩
    have hq' := spendsBaton_of_stored hq (htype r hr q hq)
    obtain rfl := hV.baton_unique ht ho hr hp hq'
    rw [hp.2.2.2, ← hq'.2.2.2]
    exact hq.2.2
  · rintro ⟨htype, hout⟩
    constructor
    · rintro ⟨o, ho, p, hp⟩
      exact ⟨o, ho, p, spendsBaton_of_stored hp (htype o ho p hp)⟩
    · rintro ⟨o, ho, p, hp⟩
      exact ⟨o, ho, p, hp.1, hp.2.1.1, hout o ho p hp⟩

/-- Recorded amounts make the token known. -/
theorem Justified.knownToken (h : L.Justified V) {o : Outpoint}
    (hc : storedCredit (restrict L.T V) t o ≠ 0) : KnownToken (restrict L.T V) t := by
  unfold storedCredit at hc
  cases hp : restrict L.T V o.txid with
  | none => simp [hp] at hc
  | some p =>
      simp only [hp] at hc
      split_ifs at hc with hid
      · have hz : ¬ p.SendsNothing := by
          intro hz
          cases hu : p.tokenOutput o with
          | none => simp [hu] at hc
          | some u => simp [hu, hz.tokenOutput hu] at hc
        obtain ⟨g, hg, hgen, -⟩ := h.genesis hp hz
        exact ⟨g, hid ▸ hg, hgen⟩
      · exact absurd rfl hc

/-- The valid transactions among those processed. -/
def processedValid (L : Ledger) (before : List Transaction) : Set Txid :=
  {x | x ∈ SlpValid L.T ∧ ∃ u ∈ before, u.txid = x}

variable {before after : List Transaction}

/-- The valid parents of what was processed, and of what comes next, were processed. -/
structure Closed (L : Ledger) (before : List Transaction) (t : Transaction) : Prop where
  member : ∀ u ∈ before, L.T.lookup u.txid = some u
  next : L.T.lookup t.txid = some t
  parents : ∀ u, u ∈ before ∨ u = t → ∀ o ∈ u.inputs, o.txid ∈ SlpValid L.T →
    ∃ v ∈ before, v.txid = o.txid

theorem Closed.justified (h : Closed L before t) : L.Justified (L.processedValid before) := by
  rintro _ ⟨hx, u, hu, rfl⟩
  refine slpRules_dependsOn L.T (fun y hy => ?_) (L.slpValid_justified _ hx)
  obtain ⟨w, hw, -, o, ho, rfl⟩ := hy
  obtain rfl := Option.some.inj ((h.member u hu).symm.trans hw)
  exact ⟨fun hv => ⟨hv, h.parents u (.inl hu) o ho hv⟩, And.left⟩

theorem Closed.view_eq (h : Closed L before t) {o : Outpoint} (ho : o ∈ t.inputs) :
    restrict L.T (L.processedValid before) o.txid = L.validView o.txid := by
  ext p
  simp only [restrict_eq_some]
  exact and_congr_left fun _ => ⟨And.left, fun hv => ⟨hv, h.parents t (.inr rfl) o ho hv⟩⟩

/-- The token of a transaction is known if its GENESIS was processed. -/
theorem Closed.knownToken_iff (h : Closed L before t)
    (hgen : ∀ g ∈ before, g.slp.type = .genesis → g.txid ∈ SlpValid L.T) :
    KnownToken (restrict L.T (L.processedValid before)) t ↔
      ∃ g ∈ before, g.txid = t.slp.tokenid ∧ g.slp.type = .genesis := by
  constructor
  · rintro ⟨g, hg, hgg⟩
    obtain ⟨⟨-, u, hu, hux⟩, hgT⟩ := restrict_eq_some.mp hg
    obtain rfl := Option.some.inj ((h.member u hu).symm.trans (hux ▸ hgT))
    exact ⟨u, hu, hux, hgg⟩
  · rintro ⟨g, hg, hgid, hgg⟩
    rw [KnownToken, ← hgid]
    exact ⟨g, restrict_eq_some.mpr ⟨⟨hgen g hg hgg, g, hg, rfl⟩, h.member g hg⟩, hgg⟩

theorem Closed.storedCredits_eq (h : Closed L before t) :
    t.inputs.map (storedCredit (restrict L.T (L.processedValid before)) t) =
      t.inputs.map (storedCredit L.validView t) := List.map_congr_left fun o ho => by
  simp only [storedCredit, h.view_eq ho]

/-- Stored amounts that cover a positive sum make the token known. -/
theorem Closed.knownToken_of_le (h : Closed L before t) {n : ℕ} (hn : n ≠ 0)
    (hle : n ≤ (t.inputs.map (storedCredit L.validView t)).sum) :
    KnownToken (restrict L.T (L.processedValid before)) t := by
  obtain ⟨m, hm, hne⟩ : ∃ m ∈ t.inputs.map (storedCredit L.validView t), m ≠ 0 := by
    by_contra! hall
    have hsum := List.sum_eq_zero hall
    omega
  rw [← h.storedCredits_eq] at hm
  obtain ⟨o, -, rfl⟩ := List.mem_map.mp hm
  exact h.justified.knownToken hne

/-! ### The rules by kind -/

section Kinds

variable {V : Set Txid}

theorem genesis_rules_agree_iff {s : SlpTransactionGenesis} (hs : t.slp.slpTx = .genesis s) :
    (SlpdbRule (restrict L.T V) t ↔ SlpRule L.validView t) ↔ Undisputed L before t := by
  have ht : t.slp.type = .genesis := SlpTransaction.type_eq_genesis.mpr ⟨s, hs⟩
  simp only [SlpdbRule, hs, true_iff]
  constructor
  · exact fun hr => ⟨fun _ _ => hr, by simp [ht], by simp [ht], by simp [hs], by simp [hs],
      by simp [SendsNothing, hs]⟩
  · intro hu
    by_cases h41 : t.slp.tokenType = 0x41
    · exact hu.child ht h41
    · simp [SlpRule, hs, h41]

theorem Closed.mint_rules_agree_iff (h : Closed L before t) {s : SlpTransactionMint}
    (hs : t.slp.slpTx = .mint s) :
    (SlpdbRule (restrict L.T (L.processedValid before)) t ↔ SlpRule L.validView t) ↔
      Undisputed L before t := by
  have ht : t.slp.type = .mint := SlpTransaction.type_eq_mint.mpr ⟨s, hs⟩
  have hstored : SlpdbRule (restrict L.T (L.processedValid before)) t ↔
      ∃ o ∈ t.inputs, ∃ p, SpendsStoredBaton L.validView t o p := by
    simp only [SlpdbRule, hs]
    refine exists_congr fun o => and_congr_right fun ho => ?_
    simp only [SpendsStoredBaton, h.view_eq ho]
  have hspends : SlpRule L.validView t ↔
      ∃ o ∈ t.inputs, ∃ p, SpendsBaton L.validView t o p := by simp only [SlpRule, hs]
  rw [hstored, hspends, mint_agrees_iff h.next]
  constructor
  · exact fun hu => ⟨by simp [ht], fun _ => hu.1, fun _ => hu.2, by simp [hs], by simp [hs],
      by simp [SendsNothing, hs]⟩
  · exact fun hu => ⟨hu.mintType ht, hu.mintOutput ht⟩

theorem Closed.send_rules_agree_iff (h : Closed L before t)
    (hgen : ∀ g ∈ before, g.slp.type = .genesis → g.txid ∈ SlpValid L.T) {s : SlpTransactionSend}
    (hs : t.slp.slpTx = .send s) :
    (SlpdbRule (restrict L.T (L.processedValid before)) t ↔ SlpRule L.validView t) ↔
      Undisputed L before t := by
  have ht : t.slp.type = .send := SlpTransaction.type_eq_send.mpr ⟨s, hs⟩
  have hnothing : t.SendsNothing ↔ (s.amounts.map UInt64.toNat).sum = 0 := by
    simp [SendsNothing, hs]
  simp only [SlpdbRule, SlpRule, hs, h.storedCredits_eq]
  by_cases hzero : (s.amounts.map UInt64.toNat).sum = 0
  · simp only [hzero, Nat.zero_le, and_true, iff_true, h.knownToken_iff hgen]
    constructor
    · exact fun hg => ⟨by simp [ht], by simp [ht], by simp [ht], by simp [hs, hzero],
        by simp [hs, hzero], fun _ => hg⟩
    · exact fun hu => hu.grounded (hnothing.mpr hzero)
  · constructor
    · intro hiff
      exact ⟨by simp [ht], by simp [ht], by simp [ht],
        fun s' hs' hle => by
          obtain rfl := SlpTx.send.inj (hs.symm.trans hs')
          exact hiff.mp ⟨h.knownToken_of_le hzero hle, hle⟩,
        fun s' hs' hle => by
          obtain rfl := SlpTx.send.inj (hs.symm.trans hs')
          exact (hiff.mpr hle).2,
        fun hz => absurd (hnothing.mp hz) hzero⟩
    · exact fun hu => ⟨fun hd => hu.sendType s hs hd.2, fun hv =>
        have hd := hu.sendOutputs s hs hv
        ⟨h.knownToken_of_le hzero hd, hd⟩⟩

end Kinds

/-- The rules of the two engines decide alike exactly on what is undisputed. -/
theorem Closed.rules_agree_iff (h : Closed L before t)
    (hgen : ∀ g ∈ before, g.slp.type = .genesis → g.txid ∈ SlpValid L.T) :
    (SlpdbRule (restrict L.T (L.processedValid before)) t ↔ t.txid ∈ SlpValid L.T) ↔
      Undisputed L before t := by
  rw [mem_slpValid h.next]
  cases hs : t.slp.slpTx with
  | invalid =>
      have ht : t.slp.type = .invalid := SlpTransaction.type_eq_invalid.mpr hs
      simp only [SlpdbRule, SlpRule, hs, iff_self, true_iff]
      exact ⟨by simp [ht], by simp [ht], by simp [ht], by simp [hs], by simp [hs],
        by simp [SendsNothing, hs]⟩
  | genesis s => exact genesis_rules_agree_iff hs
  | mint s => exact h.mint_rules_agree_iff hs
  | send s => exact h.send_rules_agree_iff hgen hs

/-! ### Along the chain -/

/-- In a chain that is the whole ledger every prefix of its order is closed. -/
theorem Chain.closed {blocks : List (List Transaction)} (h : L.Chain blocks)
    (hall : ∀ x tx, L.T.lookup x = some tx → tx ∈ blocks.flatten)
    (hord : chainOrder blocks = before ++ t :: after) : Closed L before t := by
  have hmem : ∀ u ∈ chainOrder blocks, L.T.lookup u.txid = some u := fun u hu =>
    h.member u (h.mem_chainOrder.mp hu).1
  have hfirst := h.parentsFirst_chainOrder
  rw [hord] at hmem hfirst
  obtain ⟨-, hlast, hcross⟩ := List.pairwise_append.mp hfirst
  refine ⟨fun u hu => hmem u (List.mem_append_left _ hu), hmem t (by simp), fun u hu o ho hv => ?_⟩
  obtain ⟨v, hvT, hr⟩ := (slpRules L.T).mem_derivable.mp hv
  have hvid := KeyedMap.key_lookup hvT
  have hvord : v ∈ before ++ t :: after := by
    rw [← hord, h.mem_chainOrder]
    refine ⟨hall _ v hvT, fun hinv => not_slpRule_invalid hinv hr⟩
  rcases List.mem_append.mp hvord with hvb | hvt
  · exact ⟨v, hvb, hvid⟩
  · rcases hu with hu | rfl
    · exact absurd hvid.symm (hcross u hu v hvt o ho)
    · rcases List.mem_cons.mp hvt with rfl | hva
      · have hself : Parent L.T o.txid v.txid :=
          ⟨v, hmem v (by simp), KeyedMap.mem_iff.mpr ⟨v, hvT⟩, o, ho, rfl⟩
        rw [hvid] at hself
        exact absurd (.single hself) (L.acyclic _)
      · exact absurd hvid.symm ((List.pairwise_cons.mp hlast).1 v hva o ho)

end Ledger

/-- The engines agree if the token store has recorded the valid ones of its transactions. -/
theorem enginesAgree_iff_recorded {L : Ledger} {blocks : List (List Transaction)}
    {txs : List Transaction} {b : Bch} {s : Validator} {spent used : Set Outpoint}
    (hchain : L.Chain blocks) (hmem : ∀ tx, tx ∈ txs ↔ tx ∈ blocks.flatten)
    (hholds : Slpdb.Holds L (slpdbRecorded L.T (chainOrder blocks)) spent used b.slpdb)
    (hvalid : (s.valid : Set Txid) = SlpValid L.T) :
    EnginesAgree b s txs ↔ ∀ t ∈ chainOrder blocks,
      t.txid ∈ slpdbRecorded L.T (chainOrder blocks) ↔ t.txid ∈ SlpValid L.T := by
  have hrecorded : ∀ tx ∈ blocks.flatten,
      tx.txid ∈ (b.slpdb.token tx.slp.tokenid).transactions ↔
        tx.txid ∈ slpdbRecorded L.T (chainOrder blocks) := by
    intro tx htx
    rw [hholds.transactions]
    constructor
    · rintro ⟨p, hp, -⟩
      exact (restrict_eq_some.mp hp).1
    · exact fun hx => ⟨tx, restrict_eq_some.mpr ⟨hx, hchain.member tx htx⟩, rfl⟩
  rw [← hvalid]
  constructor
  · intro h t ht
    have htx := (hchain.mem_chainOrder.mp ht).1
    rw [← hrecorded t htx, h t ((hmem t).mpr htx)]
    rfl
  · intro h tx htx
    have hflat := (hmem tx).mp htx
    rw [hrecorded tx hflat]
    by_cases hslp : tx.slp.type = .invalid
    · have hinvalid : tx.txid ∉ (s.valid : Set Txid) := by
        rw [hvalid, Ledger.mem_slpValid (hchain.member tx hflat)]
        exact not_slpRule_invalid hslp
      refine iff_of_false (fun hx => ?_) hinvalid
      obtain ⟨u, hu, hux⟩ := Slpdb.slpdbRecorded_subset hx
      obtain ⟨huflat, hune⟩ := hchain.mem_chainOrder.mp hu
      have hul := hchain.member u huflat
      rw [hux, hchain.member tx hflat, Option.some.injEq] at hul
      exact hune (hul ▸ hslp)
    · exact h tx (hchain.mem_chainOrder.mpr ⟨hflat, hslp⟩)

/-- Processing the blocks of a ledger and adding their transactions parents first both
succeed, and the engines agree on all of them exactly if no transaction is disputed at
its place in the order in which the token store gets them. -/
theorem processBlocks_agree_iff (L : Ledger) {calls : List (List Transaction × Bool)}
    {txs : List Transaction} (hchain : L.Chain (calls.map Prod.fst))
    (hall : ∀ x tx, L.T.lookup x = some tx → tx ∈ (calls.map Prod.fst).flatten)
    (hing : ∀ tx ∈ (calls.map Prod.fst).flatten, Ingestible tx)
    (hmem : ∀ tx, tx ∈ txs ↔ tx ∈ (calls.map Prod.fst).flatten) (hord : ParentsFirst txs) :
    ∃ b s, Bch.empty.processBlocks calls = .ok b ∧ Validator.empty.addTxs txs = .ok s ∧
      (EnginesAgree b s txs ↔ ∀ before t after,
        chainOrder (calls.map Prod.fst) = before ++ t :: after → Undisputed L before t) := by
  obtain ⟨b, spent, hb, -, hholds⟩ := Slpdb.processBlocks_holds hchain hing
  obtain ⟨s, hs, hvalid⟩ := Validator.addTxs_valid L txs
    (fun tx => (hmem tx).trans ⟨hchain.member tx, fun h => hall _ tx h⟩) hord
  refine ⟨b, s, hb, hs, ?_⟩
  rw [enginesAgree_iff_recorded hchain hmem hholds hvalid,
    Slpdb.slpdbRecorded_iff hchain.nodup_chainOrder]
  have hgenesis : ∀ {g : Transaction} {prev : ValidView}, g.slp.type = .genesis →
      SlpdbRule prev g := by
    intro g prev hg
    obtain ⟨s, hs⟩ := SlpTransaction.type_eq_genesis.mp hg
    simp only [SlpdbRule, hs]
  constructor
  · intro h before t after hsplit
    refine ((hchain.closed hall hsplit).rules_agree_iff fun g hg hgg => ?_).mp
      (h before t after hsplit)
    obtain ⟨before', after', rfl⟩ := List.mem_iff_append.mp hg
    exact (h before' g (after' ++ t :: after) (by rw [hsplit]; simp)).mp (hgenesis hgg)
  · intro h before t after hsplit
    refine ((hchain.closed hall hsplit).rules_agree_iff fun g hg hgg => ?_).mpr
      (h before t after hsplit)
    obtain ⟨before', after', rfl⟩ := List.mem_iff_append.mp hg
    have hu := h before' g (after' ++ t :: after) (by rw [hsplit]; simp)
    have hgmem := (hchain.closed hall hsplit).member g (by simp)
    rw [Ledger.mem_slpValid hgmem]
    obtain ⟨info, hinfo⟩ := SlpTransaction.type_eq_genesis.mp hgg
    by_cases h41 : g.slp.tokenType = 0x41
    · exact hu.child hgg h41
    · simp [SlpRule, hinfo, h41]

theorem processBlocks_agree_iff_sample :
    ∃ b s, Bch.empty.processBlocks (sampleBlocks.map fun txs => (txs, true)) = .ok b ∧
      Validator.empty.addTxs [sampleGenesis, sampleSend] = .ok s ∧
      (EnginesAgree b s [sampleGenesis, sampleSend] ↔ ∀ before t after,
        chainOrder sampleBlocks = before ++ t :: after →
          Undisputed Validator.sampleLedger before t) :=
  @processBlocks_agree_iff Validator.sampleLedger (sampleBlocks.map fun txs => (txs, true)) _
    sampleBlocks_chain sampleBlocks_whole (fun _ => sampleBlocks_ingestible) (fun _ => Iff.rfl)
    (by decide)

/-- A child GENESIS without a group. -/
def orphanChild : Transaction :=
  let txid : Txid := ⟨
    [0x29, 0x59, 0xD9, 0x15, 0xCC, 0x7F, 0x2A, 0x0C, 0x15, 0x63, 0x01, 0x5A, 0xD4, 0x22, 0x6F,
     0x93, 0x8D, 0x96, 0x33, 0x2D, 0x1E, 0x89, 0x4C, 0xF0, 0xE3, 0x95, 0x70, 0x19, 0x22, 0xDD,
     0xAE, 0xC1], rfl⟩
  encoded txid [⟨.zero, 0⟩] [opReturn (genesisPayloads 0x41 [] 1), [0x53]]
    ⟨txid, 0x41, .genesis ⟨[], [], [], [], 0, false, 0, 1⟩⟩

theorem orphanChild_hydrated : orphanChild.Hydrated :=
  hydrated_encoded (by decide) (by decide) (by decide) (by decide +kernel) (by decide +kernel)

def orphanLedger : Ledger :=
  .ofList [orphanChild] (by simp [orphanChild_hydrated]) (by decide) (by decide) (by decide)
    (by decide)

theorem mem_orphanLedger (tx : Transaction) :
    tx ∈ [orphanChild] ↔ orphanLedger.T.lookup tx.txid = some tx := Ledger.mem_ofList

/-- The token store opens a token for it, and the validator rejects it. -/
theorem processBlocks_disagree :
    orphanLedger.Chain [[orphanChild]] ∧ Ingestible orphanChild ∧ ParentsFirst [orphanChild] ∧
      ∃ b s, Bch.empty.processBlocks [([orphanChild], true)] = .ok b ∧
        Validator.empty.addTxs [orphanChild] = .ok s ∧
        orphanChild.txid ∈ (b.slpdb.token orphanChild.slp.tokenid).transactions ∧
        orphanChild.txid ∉ s.valid ∧ ¬ EnginesAgree b s [orphanChild] := by
  have hrunb : ∃ b, Bch.empty.processBlocks [([orphanChild], true)] = .ok b ∧
      orphanChild.txid ∈ (b.slpdb.token orphanChild.slp.tokenid).transactions := by
    decide +kernel
  have hruns : ∃ s, Validator.empty.addTxs [orphanChild] = .ok s ∧
      orphanChild.txid ∉ s.valid := by decide +kernel
  obtain ⟨b, hb, hrecorded⟩ := hrunb
  obtain ⟨s, hs, hinvalid⟩ := hruns
  exact ⟨⟨fun tx htx => (mem_orphanLedger tx).mp htx, by decide, by decide⟩,
    ⟨orphanChild_hydrated, by decide⟩, by decide, b, s, hb, hs, hrecorded, hinvalid,
    fun h => hinvalid ((h orphanChild (by simp)).mp hrecorded)⟩

end SlpGraphSearch
