import SlpGraphSearch.ServerRun
import SlpGraphSearch.TopologicalSort

/-!
# Verdicts of a client

What a client concludes from the reply to a graph search. A server that was fed
with blocks only returns the ancestors of a transaction within its token graph,
and these justify every member except a child GENESIS, whose parent belongs to the
graph of the group. So a client accepts what is not a child token, and of the child
tokens only the SENDs of nothing.
-/
namespace SlpGraphSearch
open Library Transaction

/-- A client's verdict on a transaction that a server holds as valid. -/
def Transaction.Rederivable (tx : Transaction) : Prop :=
  tx.slp.tokenType ≠ 0x41 ∨ tx.SendsNothing

/-! ## Fresh verdicts -/

/-- After a run over a whole ledger `validate` answers SLP validity. -/
theorem Validator.Consistent.validate_eq {L : Ledger} {s : Validator} (h : s.Consistent L)
    (hvalid : (s.valid : Set Txid) = SlpValid L.T) (x : Txid) :
    ∃ b s', s.validate x = .ok (b, s') ∧ (b = true ↔ x ∈ SlpValid L.T) := by
  unfold Validator.validate
  cases hx : s.transactionMap.lookup x with
  | none =>
      have hmem := KeyedMap.lookup_eq_none.mp hx
      rw [if_pos (by simp [has_of_lookup_none hx])]
      refine ⟨false, s, rfl, ?_⟩
      rw [← hvalid]
      simpa using fun hx' => hmem (h.held hx')
  | some tx =>
      have htx := h.known hx
      obtain rfl := KeyedMap.key_lookup htx
      have hrule : tx.txid ∈ SlpValid L.T ↔ SlpRule (restrict L.T s.valid) tx := by
        rw [SlpValid, Rules.mem_derivable, slpRules_holds htx, hvalid, SlpValid]
      rw [if_neg (by simp [has_of_lookup hx]), Validator.get, hx, hrule]
      simp only [bind, Except.bind]
      by_cases ht : tx.slp.type = .invalid
      · refine ⟨false, s, ?_, by simpa using not_slpRule_invalid ht⟩
        unfold Validator.validateTx
        simp [ht]
      · obtain ⟨b, hb, hiff⟩ := h.validateTx_eq htx ht s.valid.card
        exact ⟨b, _, by rw [hb], hiff⟩

namespace Server

/-! ## Parts of a ledger -/

/-- Members of the ledger that belong to one token and, apart from child GENESIS
transactions, satisfy their rules among themselves. -/
structure TokenClosed (L : Ledger) (txs : List Transaction) : Prop where
  member : ∀ tx ∈ txs, L.T.lookup tx.txid = some tx
  sameId : ∀ tx ∈ txs, ∀ u ∈ txs, tx.slp.tokenid = u.slp.tokenid
  rule : ∀ tx ∈ txs, (tx.slp.type = .genesis → tx.slp.tokenType ≠ 0x41) →
    SlpRule (restrict L.T {x | ∃ u ∈ txs, u.txid = x}) tx

variable {L : Ledger} {txs : List Transaction}

theorem TokenClosed.slpValid_of_rederivable (h : TokenClosed L txs) {tx : Transaction}
    (htx : tx ∈ txs) (hr : tx.Rederivable) :
    tx.txid ∈ SlpValid (L.part txs h.member).T := by
  have hjust : (L.part txs h.member).Justified {x | ∃ u ∈ txs, u.txid = x ∧ u.Rederivable} := by
    rintro _ ⟨u, hu, rfl, hur⟩
    refine ⟨u, (L.lookup_part h.member).mpr ⟨hu, rfl⟩, ?_⟩
    rcases hur with hty | hz
    · refine (h.rule u hu fun _ => hty).of_sameToken (fun _ => hty) fun o _ p hp hsame => ?_
      obtain ⟨⟨w, hw, hwx⟩, hl⟩ := restrict_eq_some.mp hp
      obtain rfl := Option.some.inj ((h.member w hw).symm.trans (hwx ▸ hl))
      exact restrict_eq_some.mpr ⟨⟨w, hw, hwx, .inl (hsame.2 ▸ hty)⟩,
        (L.lookup_part h.member).mpr ⟨hw, hwx⟩⟩
    · exact hz.slpRule
  exact hjust.subset_slpValid _ ⟨tx, htx, rfl, hr⟩

/-- Within one token no child token has a valid GENESIS, as the group would have to
share its id. -/
theorem TokenClosed.rederivable_of_slpValid (h : TokenClosed L txs) {tx : Transaction}
    (htx : tx ∈ txs) (hx : tx.txid ∈ SlpValid (L.part txs h.member).T) : tx.Rederivable := by
  let P := L.part txs h.member
  have hP : P.Justified (SlpValid P.T) := fun x hx => (slpRules P.T).mem_derivable.mp hx
  have hlookup : ∀ {x t}, restrict P.T (SlpValid P.T) x = some t → t ∈ txs ∧ t.txid = x :=
    fun ht => (L.lookup_part h.member).mp (restrict_eq_some.mp ht).2
  by_contra hr
  rw [Rederivable, not_or, not_not] at hr
  obtain ⟨g, hg, hgen, hgtx⟩ := hP.genesis
    (restrict_eq_some.mpr ⟨hx, (L.lookup_part h.member).mpr ⟨htx, rfl⟩⟩) hr.2
  obtain ⟨hgmem, hgid⟩ := hlookup hg
  have hgrule : SlpRule (restrict P.T (SlpValid P.T)) g := by
    obtain ⟨u, hu, hru⟩ := hP g.txid (hgid ▸ (restrict_eq_some.mp hg).1)
    obtain rfl := Option.some.inj (hu.symm.trans ((L.lookup_part h.member).mpr ⟨hgmem, rfl⟩))
    exact hru
  obtain ⟨info, hinfo⟩ := SlpTransaction.type_eq_genesis.mp hgen
  simp only [SlpRule, hinfo] at hgrule
  obtain ⟨o, p, -, hp, h81, hamount⟩ := hgrule (hgtx.2.trans hr.1)
  obtain ⟨g', hg', -, hgp⟩ := hP.genesis hp fun hz => by
    simp [hz.outputSlpAmount] at hamount
  rw [h.sameId p (hlookup hp).1 tx htx, hg, Option.some.injEq] at hg'
  subst hg'
  have hty : (0x41 : UInt16) = 0x81 := by rw [← hr.1, ← h81, ← hgtx.2, hgp.2]
  exact absurd hty (by decide)

/-- The client answers whether the transaction is SLP-valid on what it received. -/
theorem TokenClosed.graphSearchValidate_eq (h : TokenClosed L txs) {tx : Transaction}
    (htx : tx ∈ txs) : ∃ verdict,
      graphSearchValidate (txs.map Transaction.serialized) tx.txid = .ok verdict ∧
        (verdict = true ↔ tx.Rederivable) := by
  obtain ⟨sorted, hsort, -, hmem, hord⟩ := topologicalSort_spec _ (L.txidsDetermine h.member)
  have hall : ∀ t, t ∈ sorted ↔ (L.part txs h.member).T.lookup t.txid = some t := by
    intro t
    rw [hmem, L.lookup_part h.member]
    exact (and_iff_left rfl).symm
  obtain ⟨v, hrun, hcons, hvalid⟩ := Validator.addTxs_settled (L.part txs h.member) hall
    (hord (L.part txs h.member).acyclic)
  obtain ⟨verdict, v', hverdict, hiff⟩ := hcons.validate_eq hvalid tx.txid
  refine ⟨verdict, ?_, hiff.trans ⟨h.rederivable_of_slpValid htx, h.slpValid_of_rederivable htx⟩⟩
  rw [graphSearchValidate, decodedAll_serialized fun t ht => L.hydrated (h.member t ht)]
  simp only [bind, Except.bind, hsort, hrun, hverdict]

/-! ## The graph of a server that is fed with blocks -/

/-- A block of members of the ledger, not trusted. -/
def BlockOf (L : Ledger) (e : Event) : Prop :=
  ∃ order txs, e = .block order txs false ∧ ∀ tx ∈ txs, L.T.lookup tx.txid = some tx

/-- Exactly the valid transactions are in `g`, each under its token, and the links of a
node lead to everything that its rule needs within the token. -/
structure Linked (L : Ledger) (s : Server) : Prop where
  consistent : s.validator.Consistent L
  mg : s.mg = .empty
  wf : s.g.Wf
  mem_iff : ∀ x, x ∈ s.g.txidToToken ↔ x ∈ s.validator.valid
  token : ∀ {x t}, s.g.txidToToken.lookup x = some t →
    ∃ tx, L.T.lookup x = some tx ∧ tx.slp.tokenid = t
  node : ∀ {p node tx}, s.g.deref p = some node → L.T.lookup p.txid = some tx →
    node.txdata = tx.serialized ∧ ((tx.slp.type = .genesis → tx.slp.tokenType ≠ 0x41) →
      SlpRule (restrict L.T {i | i ∈ node.inputs}) tx)

theorem Linked.empty (L : Ledger) (utxosync : Bool) : Linked L (.empty utxosync) where
  consistent := Validator.Consistent.empty L
  mg := rfl
  wf := TxGraph.Wf.empty
  mem_iff x := by simp [Server.empty, TxGraph.empty, Validator.empty, Finmap.notMem_empty]
  token h := by simp [Server.empty, TxGraph.empty, Finmap.lookup_empty] at h
  node h := by simp [Server.empty, TxGraph.empty, TxGraph.deref, Finmap.lookup_empty] at h

/-- A new node is linked to all valid parents of its token, also to those that were
accepted after it in the same block. -/
theorem Linked.step {s s' : Server} {e : Event} (h : Linked L s) (he : BlockOf L e)
    (hstep : s.step e = .ok s') : Linked L s' := by
  obtain ⟨v, l, bch, hoffer, -, rfl⟩ := step_eq_ok.mp hstep
  obtain ⟨order, txs, rfl, hmem⟩ := he
  have hj := judged_offerTxs hoffer
  obtain ⟨v', l', hrun, hcons⟩ := foldlM_offerTx_ok h.consistent hmem []
  obtain ⟨rfl, rfl⟩ := Prod.mk.inj (Except.ok.inj (hoffer.symm.trans hrun))
  have hl : ∀ tx ∈ l, L.T.lookup tx.txid = some tx := fun tx htx => hmem tx (hj.accepted tx htx).1
  have hhyd : ∀ tx ∈ l, tx.Hydrated := fun tx htx => L.hydrated (hl tx htx)
  have hf := filed_validTxs h.wf order hhyd
  set g' := insertValidTxs s.g (order.permute (groupByToken l)) with hg'
  have hmemIff : ∀ x, x ∈ g'.txidToToken ↔ x ∈ v.valid := fun x => by
    rw [mem_filed_validTxs h.wf order hhyd, hj.valid_iff, h.mem_iff]
  have hnew : ∀ x ∉ s.g.txidToToken, x ∈ g'.txidToToken → ∃ tx ∈ l, tx.txid = x ∧
      g'.txidToToken.lookup x = some tx.slp.tokenid ∧
      g'.deref ⟨tx.slp.tokenid, x⟩ = some ⟨(tx.inputs.map Outpoint.txid).filter fun i =>
        g'.txidToToken.lookup i = some tx.slp.tokenid, tx.serialized⟩ := by
    intro x hx hx'
    obtain ⟨e, he, tx, htx, hid, htoken, hnode⟩ := hf.new_node x hx hx'
    obtain ⟨htl, hte⟩ := (mem_validTxs order l e.1 tx).mp ⟨e, he, rfl, htx⟩
    exact ⟨tx, htl, hid, hte ▸ htoken, hte ▸ hnode⟩
  have htoken : ∀ {x t}, g'.txidToToken.lookup x = some t →
      ∃ tx, L.T.lookup x = some tx ∧ tx.slp.tokenid = t := by
    intro x t hx
    by_cases hold : x ∈ s.g.txidToToken
    · rw [hf.old_token x hold] at hx
      exact h.token hx
    · obtain ⟨tx, htx, rfl, ht, -⟩ := hnew x hold (Finmap.mem_iff.mpr ⟨t, hx⟩)
      exact ⟨tx, hl tx htx, Option.some.inj (ht.symm.trans hx)⟩
  refine ⟨hcons, h.mg, hf.wf, hmemIff, htoken, fun {p node tx} hp htx => ?_⟩
  change g'.deref p = some node at hp
  by_cases hold : p.txid ∈ s.g.txidToToken
  · rw [hf.old_node p hold] at hp
    exact h.node hp htx
  · have hlookup := (hf.wf.token_iff p.txid p.tokenid).mpr ⟨node, hp⟩
    obtain ⟨u, hu, hid, ht, hnode⟩ := hnew p.txid hold (Finmap.mem_iff.mpr ⟨_, hlookup⟩)
    obtain rfl := Option.some.inj (htx.symm.trans (hid ▸ hl u hu))
    have hpt : p = ⟨tx.slp.tokenid, p.txid⟩ := by
      rw [← Option.some.inj (hlookup.symm.trans ht)]
    rw [hpt, hnode, Option.some.injEq] at hp
    subst hp
    refine ⟨rfl, fun hchild => ?_⟩
    have hvalid : tx.txid ∈ v.valid := (hj.valid_iff _).mpr (.inr ⟨tx, hu, rfl⟩)
    have hrule := (slpRules_holds (hl tx hu)).mp (hcons.justified _ hvalid)
    refine hrule.of_sameToken hchild fun o ho q hq hsame => ?_
    obtain ⟨hqv, hqT⟩ := restrict_eq_some.mp hq
    obtain ⟨t, hqt⟩ := Finmap.mem_iff.mp ((hmemIff o.txid).mpr hqv)
    obtain ⟨w, hw, rfl⟩ := htoken hqt
    obtain rfl := Option.some.inj (hqT.symm.trans hw)
    refine restrict_eq_some.mpr ⟨?_, hqT⟩
    exact List.mem_filter.mpr ⟨List.mem_map_of_mem ho, by simpa [hsame.1] using hqt⟩

theorem linked_always {events : List Event} (he : ∀ e ∈ events, BlockOf L e) (utxosync : Bool) :
    Always Server.step (fun _ => Linked L) (.empty utxosync) events :=
  Always.of_step (.empty L utxosync) fun _ e _ _ _ hev h _ hstep =>
    h.step (he e (by simp [hev])) hstep

/-! ## Replies -/

/-- The raw transactions behind pointers are those of the ledger. -/
theorem Linked.txdata_eq {s : Server} (h : Linked L s) {ps : List NodePtr}
    (hps : ∀ p ∈ ps, ∃ node, s.g.deref p = some node) :
    s.g.txdata ps = (ps.filterMap fun p => L.T.lookup p.txid).map Transaction.serialized := by
  induction ps with
  | nil => rfl
  | cons p ps ih =>
      obtain ⟨node, hnode⟩ := hps p List.mem_cons_self
      obtain ⟨tx, htx, -⟩ := h.token ((h.wf.token_iff p.txid p.tokenid).mpr ⟨node, hnode⟩)
      have hrest := ih fun q hq => hps q (List.mem_cons_of_mem _ hq)
      rw [TxGraph.txdata] at hrest ⊢
      simp only [List.filterMap_cons, hnode, htx, List.map_cons, (h.node hnode htx).1, hrest]

/-- A search without exclusions returns members of one token that are closed under the
rules of the token. -/
theorem Linked.graphSearch_eq {s : Server} (h : Linked L s) {x : Txid}
    (hx : x ∈ s.validator.valid) (order : SetOrder NodePtr) (limit : ℕ) :
    ∃ txs, s.graphSearch order limit [] x = .ok (.ok, txs.map Transaction.serialized) ∧
      TokenClosed L txs ∧ ∃ tx ∈ txs, tx.txid = x := by
  obtain ⟨t, ht⟩ := Finmap.mem_iff.mp ((h.mem_iff x).mpr hx)
  obtain ⟨node, hnode⟩ := (h.wf.token_iff x t).mp ht
  obtain ⟨r, hsearch, -, hroot, hreach, hclosed⟩ := h.wf.searchFrom_spec ∅ ⟨t, x⟩
  have hfound : ∀ q ∈ r.found, q.tokenid = t ∧ s.g.txidToToken.lookup q.txid = some q.tokenid :=
    fun q hq => h.wf.token_of_reachable ht (hreach q hq)
  have hderef : ∀ q ∈ r.found, ∃ n, s.g.deref q = some n := fun q hq =>
    (h.wf.token_iff q.txid q.tokenid).mp (hfound q hq).2
  have hmem : ∀ tx, tx ∈ (r.found.filterMap fun p => L.T.lookup p.txid) ↔
      ∃ q ∈ r.found, L.T.lookup q.txid = some tx := fun tx => List.mem_filterMap
  refine ⟨r.found.filterMap fun p => L.T.lookup p.txid, ?_, ⟨?_, ?_, ?_⟩, ?_⟩
  · have hptr : s.g.graphSearchPtr x ∅ = .ok ((.ok, s.g.txdata r.found), r.seen) := by
      simp only [TxGraph.graphSearchPtr, ht, hnode, hsearch, bind, Except.bind]
    have hmg : s.mg.graphSearchPtr x ∅ = .ok ((.notFound, []), ∅) := by
      rw [h.mg]
      simp [TxGraph.graphSearchPtr, TxGraph.empty, Finmap.lookup_empty]
    have hexcl : s.exclusionSet limit [] = .ok ∅ := by
      simp [exclusionSet, pure, Except.pure]
    rw [graphSearch, hexcl, ← h.txdata_eq hderef]
    simp only [bind, Except.bind, hmg, hptr, reduceCtorEq, if_false]
  · intro tx htx
    obtain ⟨q, -, hq⟩ := (hmem tx).mp htx
    rw [KeyedMap.key_lookup hq, hq]
  · have hid : ∀ tx ∈ r.found.filterMap fun p => L.T.lookup p.txid, tx.slp.tokenid = t := by
      intro tx htx
      obtain ⟨q, hq, hqtx⟩ := (hmem tx).mp htx
      obtain ⟨u, hu, hut⟩ := h.token (hfound q hq).2
      rw [Option.some.inj (hqtx.symm.trans hu), hut, (hfound q hq).1]
    exact fun tx htx u hu => (hid tx htx).trans (hid u hu).symm
  · intro tx htx hchild
    obtain ⟨q, hq, hqtx⟩ := (hmem tx).mp htx
    obtain ⟨n, hn⟩ := hderef q hq
    refine ((h.node hn hqtx).2 hchild).mono fun o _ p hp => ?_
    obtain ⟨hi, hpT⟩ := restrict_eq_some.mp hp
    have hlink : (⟨q.tokenid, o.txid⟩ : NodePtr) ∈ s.g.nodeInputs q := by
      rw [TxGraph.nodeInputs, hn]
      exact List.mem_map_of_mem hi
    have hmemo := (hclosed q hq _ hlink).resolve_left (Finset.notMem_empty _)
    exact restrict_eq_some.mpr ⟨⟨p, (hmem p).mpr ⟨_, hmemo, hpT⟩, KeyedMap.key_lookup hpT⟩, hpT⟩
  · obtain ⟨tx, htx, -⟩ := h.token ht
    exact ⟨tx, (hmem tx).mpr ⟨_, hroot, htx⟩, KeyedMap.key_lookup htx⟩

/-- In every state that a server reaches from blocks of a ledger, the search for any
valid transaction is answered, and a client that validates the reply accepts exactly
what is no child token or a SEND of nothing. The blocks need not be sorted. -/
theorem run_clientVerdict (L : Ledger) (utxosync : Bool) {events : List Event}
    (he : ∀ e ∈ events, BlockOf L e) :
    ((utxosync = true → ∀ e ∈ events, ∀ tx ∈ e.txs, Ingestible tx) →
      ∃ s, events.foldlM Server.step (.empty utxosync) = .ok s) ∧
    Always Server.step (fun _ s => ∀ x ∈ s.validator.valid, ∀ (order : SetOrder NodePtr) limit,
      ∃ tx data verdict, L.T.lookup x = some tx ∧
        s.graphSearch order limit [] x = .ok (.ok, data) ∧
        graphSearchValidate data x = .ok verdict ∧ (verdict = true ↔ tx.Rederivable))
      (.empty utxosync) events := by
  constructor
  · intro hing
    obtain ⟨s, hs, -⟩ := (Fed.empty L utxosync).run fun e hev => by
      obtain ⟨order, txs, rfl, hmem⟩ := he e hev
      exact ⟨hmem, rfl, fun hu => hing hu _ hev⟩
    exact ⟨s, hs⟩
  · intro past rest hev s hs x hx order limit
    obtain ⟨txs, hreply, hclosed, tx, htx, rfl⟩ :=
      (linked_always he utxosync past rest hev s hs).graphSearch_eq hx order limit
    obtain ⟨verdict, hverdict, hiff⟩ := hclosed.graphSearchValidate_eq htx
    exact ⟨tx, _, verdict, hclosed.member tx htx, hreply, hverdict, hiff⟩

/-- The ledger of a group and a child token. -/
def childLedger : Ledger :=
  .ofList [sampleGroup, sampleChild]
    (by simp [sampleGroup_hydrated, sampleChild_hydrated]) (by decide) (by decide) (by decide)
    (by decide)

theorem lookup_childLedger {tx : Transaction} (htx : tx ∈ [sampleGroup, sampleChild]) :
    childLedger.T.lookup tx.txid = some tx := Ledger.mem_ofList.mp htx

def childEvents : List Event := [.block (.insertion _) [sampleGroup, sampleChild] false]

theorem childEvents_blockOf : ∀ e ∈ childEvents, BlockOf childLedger e := by
  intro e he
  obtain rfl := List.mem_singleton.mp he
  exact ⟨_, _, rfl, fun _ => lookup_childLedger⟩

theorem run_clientVerdict_sample :
    ((false = true → ∀ e ∈ childEvents, ∀ tx ∈ e.txs, Ingestible tx) →
      ∃ s, childEvents.foldlM Server.step (.empty false) = .ok s) ∧
    Always Server.step (fun _ s => ∀ x ∈ s.validator.valid, ∀ (order : SetOrder NodePtr) limit,
      ∃ tx data verdict, childLedger.T.lookup x = some tx ∧
        s.graphSearch order limit [] x = .ok (.ok, data) ∧
        graphSearchValidate data x = .ok verdict ∧ (verdict = true ↔ tx.Rederivable))
      (.empty false) childEvents :=
  run_clientVerdict childLedger false childEvents_blockOf

/-- The server accepts the child, and a search for it does not return the group. -/
theorem clientVerdict_fails :
    (∀ e ∈ childEvents, BlockOf childLedger e ∧ ParentsFirst e.txs) ∧
    ¬ Always Server.step (fun _ s => ∀ x ∈ s.validator.valid, ∀ (order : SetOrder NodePtr) limit
      status data, s.graphSearch order limit [] x = .ok (status, data) →
        graphSearchValidate data x = .ok true) (.empty false) childEvents := by
  refine ⟨fun e he => ⟨childEvents_blockOf e he, ?_⟩, fun h => ?_⟩
  · obtain rfl := List.mem_singleton.mp he
    decide
  · have hrun : ∃ s, childEvents.foldlM Server.step (.empty false) = .ok s ∧
        sampleChild.txid ∈ s.validator.valid := by decide +kernel
    obtain ⟨s, hs, hvalid⟩ := hrun
    obtain ⟨txs, hreply, hclosed, tx, htx, hid⟩ :=
      (linked_always childEvents_blockOf false childEvents [] (by simp) s hs).graphSearch_eq
        hvalid (.some _) 1000
    have hchild := hclosed.member tx htx
    rw [hid, lookup_childLedger (by simp), Option.some.injEq] at hchild
    subst hchild
    obtain ⟨verdict, hverdict, hiff⟩ := hclosed.graphSearchValidate_eq htx
    have htrue := h childEvents [] (by simp) s hs _ hvalid (.some _) 1000 _ _ hreply
    rw [hverdict, Except.ok.injEq] at htrue
    rcases hiff.mp htrue with hty | ⟨send, hsend, -⟩
    · exact hty rfl
    · cases hsend

end Server
end SlpGraphSearch
