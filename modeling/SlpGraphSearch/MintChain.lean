import SlpGraphSearch.Library.Line
import SlpGraphSearch.ValidatorRun

/-!
# A single mint authority

The valid GENESIS and MINT transactions of a token stand in one line: each MINT
spends the baton of the one before it. No two of them spend the same baton, and no
cycle leads back, so the line never forks and `check_mint` never meets two different
grandparents.
-/
namespace SlpGraphSearch
open Library Transaction Relation

/-- The first output of an SLP transaction is its OP_RETURN. -/
theorem Transaction.Hydrated.opReturn {tx : Transaction} (h : tx.Hydrated)
    (ht : tx.slp.type ≠ .invalid) : ∃ o, tx.outputs[0]? = some o ∧ o.isOpReturn = true := by
  obtain ⟨o, os, hout, hop, -⟩ := h.slp_output ht
  exact ⟨o, by rw [hout]; rfl, hop⟩

/-- No member spends an OP_RETURN output of a member. -/
def Ledger.SparesOpReturns (L : Ledger) : Prop :=
  ∀ {x t}, L.T.lookup x = some t → ∀ o ∈ t.inputs, ∀ p, L.T.lookup o.txid = some p →
    ∀ out, p.outputs[o.vout.toNat]? = some out → out.isOpReturn = false

namespace Validator

/-- A valid GENESIS or MINT of the token. -/
structure Authority (s : Validator) (tokenid : Tokenid) (tokenType : UInt16) (p : Transaction) :
    Prop where
  valid : s.view p.txid = some p
  tokenid_eq : p.slp.tokenid = tokenid
  tokenType_eq : p.slp.tokenType = tokenType
  isAuthority : p.IsAuthority

/-- The MINT `q` takes over the baton of `p`. -/
structure HandsOver (s : Validator) (tokenid : Tokenid) (tokenType : UInt16)
    (p q : Transaction) : Prop where
  holder : s.Authority tokenid tokenType p
  next : s.Authority tokenid tokenType q
  mint : q.slp.type = .mint
  spends : p.mintBatonOutpoint ∈ q.inputs

/-- The authorities of a token as one line. It starts at the GENESIS, and everyone
else in it is a MINT that spends the baton of the one before. -/
structure MintLine (s : Validator) (tokenid : Tokenid) (tokenType : UInt16)
    (line : List Transaction) : Prop where
  members : ∀ p, p ∈ line ↔ s.Authority tokenid tokenType p
  nodup : line.Nodup
  genesis : ∀ p, line.head? = some p → p.slp.type = .genesis
  spends : line.IsChain fun p q =>
    q.slp.type = .mint ∧ p.mintBatonOutpoint.vout ≠ 0 ∧ p.mintBatonOutpoint ∈ q.inputs

/-- The baton of an authority that no MINT of the token spends. -/
def UnspentBaton (s : Validator) (tokenid : Tokenid) (tokenType : UInt16) (o : Outpoint) : Prop :=
  ∃ p, s.Authority tokenid tokenType p ∧ o = p.mintBatonOutpoint ∧
    ∀ q, s.Authority tokenid tokenType q → q.slp.type = .mint → o ∉ q.inputs

variable {L : Ledger} {s : Validator} {tokenid : Tokenid} {tokenType : UInt16}

theorem Authority.lookup {p : Transaction} (h : Consistent L s)
    (hp : s.Authority tokenid tokenType p) : L.T.lookup p.txid = some p :=
  h.known (view_eq_some.mp hp.valid).2

theorem HandsOver.parent {p q : Transaction} (h : Consistent L s)
    (hpq : s.HandsOver tokenid tokenType p q) : Parent L.T p.txid q.txid :=
  ⟨q, hpq.next.lookup h, KeyedMap.mem_iff.mpr ⟨p, hpq.holder.lookup h⟩, _, hpq.spends,
    mintBatonOutpoint_txid p⟩

theorem Consistent.handsOver_rightUnique (h : Consistent L s) :
    Relator.RightUnique (s.HandsOver tokenid tokenType) := by
  intro p q q' hq hq'
  have hmem : p.mintBatonOutpoint.txid ∈ L.T := by
    rw [mintBatonOutpoint_txid]
    exact KeyedMap.mem_iff.mpr ⟨p, hq.holder.lookup h⟩
  have hid := L.spender_unique (hq.next.lookup h) (hq'.next.lookup h) hmem hq.spends hq'.spends
  have hl := hq.next.lookup h
  rw [hid, hq'.next.lookup h, Option.some.injEq] at hl
  exact hl.symm

theorem finite_authority (s : Validator) (tokenid : Tokenid) (tokenType : UInt16) :
    {p | s.Authority tokenid tokenType p}.Finite := by
  refine Set.Finite.of_finite_image (f := Transaction.txid) ?_ ?_
  · refine s.valid.finite_toSet.subset ?_
    rintro _ ⟨p, hp, rfl⟩
    exact (view_eq_some.mp hp.valid).1
  · intro p hp q hq hid
    have hv := hp.valid
    rw [hid, hq.valid, Option.some.injEq] at hv
    exact hv.symm

theorem Consistent.handsOver_wf (h : Consistent L s) :
    WellFounded (flip (s.HandsOver tokenid tokenType)) := by
  refine wellFounded_of_acyclic (s.finite_authority tokenid tokenType) (fun hpq => hpq.next)
    fun p hcycle => ?_
  have hcycle' : TransGen (s.HandsOver tokenid tokenType) p p := transGen_swap.mp hcycle
  exact L.acyclic p.txid (hcycle'.lift _ fun _ _ hpq => hpq.parent h)

theorem Authority.genesis_txid {g : Transaction} (h : Consistent L s)
    (hg : s.Authority tokenid tokenType g) (hgen : g.slp.type = .genesis) : g.txid = tokenid := by
  rw [← hg.tokenid_eq, (L.hydrated (hg.lookup h)).genesis_tokenid hgen]

/-- Every authority is reached from a GENESIS. -/
theorem Consistent.handsOver_genesis (h : Consistent L s) {p : Transaction}
    (hp : s.Authority tokenid tokenType p) : ∃ g, s.Authority tokenid tokenType g ∧
      g.slp.type = .genesis ∧ ReflTransGen (s.HandsOver tokenid tokenType) g p := by
  induction hx : p.txid using L.wellFounded.induction generalizing p with
  | _ x ih =>
      rcases hp.isAuthority with hgen | hmint
      · exact ⟨p, hp, hgen, .refl⟩
      · obtain ⟨o, ho, q, hq, hsame, hqa, rfl⟩ := (slpRule_mint hmint).mp (h.rule_of_view hp.valid)
        rw [mintBatonOutpoint_txid] at hq
        have hqauth : s.Authority tokenid tokenType q :=
          ⟨hq, hsame.1.trans hp.tokenid_eq, hsame.2.trans hp.tokenType_eq, hqa⟩
        have hpass : s.HandsOver tokenid tokenType q p := ⟨hqauth, hp, hmint, ho⟩
        obtain ⟨g, hg, hgen, hreach⟩ := ih q.txid (hx ▸ hpass.parent h) hqauth rfl
        exact ⟨g, hg, hgen, hreach.tail hpass⟩

/-- All authorities are reached from the same GENESIS. -/
theorem Consistent.handsOver_root (h : Consistent L s) {g p : Transaction}
    (hg : s.Authority tokenid tokenType g) (hgen : g.slp.type = .genesis)
    (hp : s.Authority tokenid tokenType p) :
    ReflTransGen (s.HandsOver tokenid tokenType) g p := by
  obtain ⟨g', hg', hgen', hreach⟩ := h.handsOver_genesis hp
  have hv := hg.valid
  rw [hg.genesis_txid h hgen, ← hg'.genesis_txid h hgen', hg'.valid, Option.some.injEq] at hv
  exact hv ▸ hreach

/-- A spent baton is a real one. -/
theorem HandsOver.vout_ne_zero {p q : Transaction} (h : Consistent L s) (hop : L.SparesOpReturns)
    (hpq : s.HandsOver tokenid tokenType p q) : p.mintBatonOutpoint.vout ≠ 0 := by
  intro hzero
  obtain ⟨out, hout, hret⟩ :=
    (L.hydrated (hpq.holder.lookup h)).opReturn hpq.holder.isAuthority.ne_invalid
  have hspares := hop (hpq.next.lookup h) _ hpq.spends p
    (by rw [mintBatonOutpoint_txid]; exact hpq.holder.lookup h) out (by rw [hzero]; exact hout)
  simp [hret] at hspares

/-- The authorities of every token form one line. -/
theorem Consistent.mintLine (h : Consistent L s) (hop : L.SparesOpReturns) (tokenid : Tokenid)
    (tokenType : UInt16) : ∃ line, s.MintLine tokenid tokenType line := by
  by_cases hex : ∃ p, s.Authority tokenid tokenType p
  · obtain ⟨p, hp⟩ := hex
    obtain ⟨g, hg, hgen, -⟩ := h.handsOver_genesis hp
    obtain ⟨l, hnodup, hchain, hmem⟩ := exists_line h.handsOver_wf h.handsOver_rightUnique g
    refine ⟨g :: l, fun q => ?_, hnodup, fun q hq => ?_, hchain.imp fun a b hab => ?_⟩
    · rw [hmem]
      constructor
      · intro hq
        rcases hq.cases_tail with rfl | ⟨_, -, hlast⟩
        · exact hg
        · exact hlast.next
      · exact h.handsOver_root hg hgen
    · rw [List.head?_cons, Option.some.injEq] at hq
      exact hq ▸ hgen
    · exact ⟨hab.mint, hab.vout_ne_zero h hop, hab.spends⟩
  · refine ⟨[], fun p => ?_, List.nodup_nil, by simp, List.isChain_nil⟩
    exact ⟨fun hp => absurd hp List.not_mem_nil, fun hp => absurd ⟨p, hp⟩ hex⟩

theorem Consistent.unspentBaton_unique (h : Consistent L s) {o r : Outpoint}
    (ho : s.UnspentBaton tokenid tokenType o) (hr : s.UnspentBaton tokenid tokenType r) :
    o = r := by
  obtain ⟨p, hp, rfl, hpfree⟩ := ho
  obtain ⟨q, hq, rfl, hqfree⟩ := hr
  obtain ⟨g, hg, hgen, hreach⟩ := h.handsOver_genesis hp
  have hpq : p = q := last_unique h.handsOver_rightUnique hreach (h.handsOver_root hg hgen hq)
    (fun z hz => hpfree z hz.next hz.mint hz.spends)
    fun z hz => hqfree z hz.next hz.mint hz.spends
  rw [hpq]

/-- At every point of a run over a ledger, the authorities of every token form one
line and at most one of their batons is not spent by a MINT of the token. No MINT of
the ledger makes `check_mint` throw, and over any state at all its loop ends. -/
theorem addTxs_mintLine (L : Ledger) (txs : List Transaction)
    (hmem : ∀ tx ∈ txs, L.T.lookup tx.txid = some tx) (hop : L.SparesOpReturns) :
    (∀ before after, txs = before ++ after → ∃ s, Validator.empty.addTxs before = .ok s ∧
      (∀ tokenid tokenType, (∃ line, s.MintLine tokenid tokenType line) ∧
        ∀ o r, s.UnspentBaton tokenid tokenType o → s.UnspentBaton tokenid tokenType r →
          o = r) ∧
      ∀ tx, L.T.lookup tx.txid = some tx → tx.slp.type = .mint →
        ∃ verdict, (s.offered tx).checkMint tx = .ok verdict) ∧
    ∀ (s : Validator) (tx : Transaction), s.checkMint tx ≠ .error .exhausted := by
  refine ⟨?_, checkMint_ne_exhausted⟩
  rintro before after rfl
  obtain ⟨s, hs, h⟩ := (Consistent.empty L).addTxs_consistent fun tx htx =>
    hmem tx (List.mem_append_left _ htx)
  refine ⟨s, hs, fun tokenid tokenType => ⟨h.mintLine hop tokenid tokenType, fun o r =>
    h.unspentBaton_unique⟩, fun tx htx ht => ?_⟩
  obtain ⟨verdict, hverdict, -⟩ := (h.offered htx).checkMint_eq htx ht
  exact ⟨verdict, hverdict⟩

/-- The ledger of a GENESIS and a MINT that passes its baton on. -/
def mintedLedger : Ledger :=
  .ofList [sampleGenesis, sampleMint]
    (by simp [sampleGenesis_hydrated, sampleMint_hydrated]) (by decide) (by decide) (by decide)
    (by decide)

theorem mintedLedger_lookup {x : Txid} {t : Transaction} :
    mintedLedger.T.lookup x = some t ↔ t ∈ [sampleGenesis, sampleMint] ∧ t.txid = x :=
  Ledger.lookup_ofList_txid (by decide)

theorem mintedLedger_sparesOpReturns : mintedLedger.SparesOpReturns := by
  have hall : ∀ t ∈ [sampleGenesis, sampleMint], ∀ o ∈ t.inputs,
      ∀ p ∈ [sampleGenesis, sampleMint], p.txid = o.txid →
        ∀ out ∈ p.outputs[o.vout.toNat]?, out.isOpReturn = false := by decide
  intro x t ht o ho p hp out hout
  obtain ⟨htmem, -⟩ := mintedLedger_lookup.mp ht
  obtain ⟨hpmem, hpo⟩ := mintedLedger_lookup.mp hp
  exact hall t htmem o ho p hpmem hpo out hout

theorem addTxs_mintLine_sample :
    (∀ before after, [sampleGenesis, sampleMint] = before ++ after →
      ∃ s, Validator.empty.addTxs before = .ok s ∧
        (∀ tokenid tokenType, (∃ line, s.MintLine tokenid tokenType line) ∧
          ∀ o r, s.UnspentBaton tokenid tokenType o → s.UnspentBaton tokenid tokenType r →
            o = r) ∧
        ∀ tx, mintedLedger.T.lookup tx.txid = some tx → tx.slp.type = .mint →
          ∃ verdict, (s.offered tx).checkMint tx = .ok verdict) ∧
      ∀ (s : Validator) (tx : Transaction), s.checkMint tx ≠ .error .exhausted :=
  addTxs_mintLine mintedLedger _ (fun _ htx => mintedLedger_lookup.mpr ⟨htx, rfl⟩)
    mintedLedger_sparesOpReturns

end Validator
end SlpGraphSearch
