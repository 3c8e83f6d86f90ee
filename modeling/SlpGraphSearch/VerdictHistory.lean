import SlpGraphSearch.Conservation
import SlpGraphSearch.GroupIds
import SlpGraphSearch.MintChain
import SlpGraphSearch.TxidStrings
import Mathlib.Data.List.TakeWhile

/-!
# The history of verdicts

What the trusted validation requests answer over the life of a server. The handlers judge a
transaction once, when they see it first, so an answer about a stored transaction is final.
Without trusted blocks a positive answer is also right: the transaction is derivable from
the stored ones by the SLP rules, in whatever order they came and whatever else was there.
-/
namespace SlpGraphSearch
open Library Transaction

/-! ## The handlers of the requests -/

namespace Server

/-- `TrustedValidation`; nothing is replied to a string that does not match. -/
def trustedValidation (s : Server) (txid : Bytes) : Except Failure (Option Bool) := do
  match ← lookupTxid txid with
  | none => .ok none
  | some lookup => .ok (some (s.validator.hasValid lookup))

/-- `TrustedValidationBulk`; after the loop `rmatch` tells whether it saw all strings. -/
def trustedValidationBulk (s : Server) (txids : List Bytes) :
    Except Failure (Option (List Bool)) := do
  let lookups ← bulkTxids txids
  if ∀ txid ∈ txids, TxidRegex txid then .ok (some (lookups.map s.validator.hasValid))
  else .ok none

end Server

/-! ## Growing validators -/

/-- Derivability only grows with the stored transactions. -/
theorem SlpValid.mono {T U : TransactionMap}
    (h : ∀ x t, T.lookup x = some t → U.lookup x = some t) : SlpValid T ⊆ SlpValid U := by
  have hstep : (slpRules T).step ≤ (slpRules U).step := by
    intro V x hx
    obtain ⟨t, ht, hrule⟩ := hx
    refine ⟨t, h x t ht, hrule.mono ?_⟩
    intro o _ p hp
    obtain ⟨hV, hl⟩ := restrict_eq_some.mp hp
    exact restrict_eq_some.mpr ⟨hV, h _ _ hl⟩
  exact OrderHom.lfp.monotone hstep

namespace Validator

/-- What was stored stays as it is, and what was judged keeps its verdict. -/
structure Extends (v v' : Validator) : Prop where
  lookup : ∀ x t, v.transactionMap.lookup x = some t → v'.transactionMap.lookup x = some t
  valid : ∀ x ∈ v.valid, x ∈ v'.valid
  verdict : ∀ x ∈ v.transactionMap, x ∈ v'.valid → x ∈ v.valid

theorem Extends.refl (v : Validator) : v.Extends v := ⟨fun _ _ => id, fun _ => id, fun _ _ => id⟩

theorem Extends.mem {v v' : Validator} (h : v.Extends v') {x : Txid}
    (hx : x ∈ v.transactionMap) : x ∈ v'.transactionMap := by
  obtain ⟨t, ht⟩ := KeyedMap.mem_iff.mp hx
  exact KeyedMap.mem_iff.mpr ⟨t, h.lookup x t ht⟩

theorem Extends.trans {v₁ v₂ v₃ : Validator} (h : v₁.Extends v₂) (h' : v₂.Extends v₃) :
    v₁.Extends v₃ where
  lookup x t hl := h'.lookup x t (h.lookup x t hl)
  valid x hx := h'.valid x (h.valid x hx)
  verdict x hx hv := h.verdict x hx (h'.verdict x (h.mem hx) hv)

theorem Extends.view {v v' : Validator} (h : v.Extends v') {x : Txid} {p : Transaction}
    (hp : v.view x = some p) : v'.view x = some p := by
  obtain ⟨hx, hl⟩ := view_eq_some.mp hp
  exact view_eq_some.mpr ⟨h.valid x hx, h.lookup x p hl⟩

/-- Every valid id is derivable from what is stored. -/
def Derived (v : Validator) : Prop := ∀ x ∈ v.valid, x ∈ SlpValid v.transactionMap

theorem Derived.empty : Validator.empty.Derived := fun x h => by simp [Validator.empty] at h

variable {v v' : Validator} {tx : Transaction} {b : Bool}

theorem extends_offered (v : Validator) (tx : Transaction) : v.Extends (v.offered tx) where
  lookup x t hl := by
    rw [offered, KeyedMap.lookup_emplace]
    split_ifs
    · rw [hl, Option.getD_some]
    · exact hl
  valid _ := id
  verdict _ _ := id

/-- An unknown transaction is stored, and maybe accepted. -/
theorem extends_addTx {trusted : Bool} (hx : tx.txid ∉ v.transactionMap)
    (h : v.addTx tx trusted = .ok (b, v')) : v.Extends v' := by
  rcases addTx_unknown hx h with ⟨-, -, rfl⟩ | ⟨-, -, rfl⟩ | ⟨-, -, rfl⟩
  · exact .refl _
  · exact extends_offered v tx
  · refine ⟨(extends_offered v tx).lookup, fun x => Finset.mem_insert_of_mem, ?_⟩
    intro x hxmem hxv
    rcases Finset.mem_insert.mp hxv with heq | hxv
    · exact absurd (heq ▸ hxmem) hx
    · exact hxv

/-- What is accepted by its rule is derivable, since the rule only used derivable ids. -/
theorem Derived.addTx (h : v.Derived) (hs : v.StoredHydrated) (hx : tx.Hydrated)
    (hadd : v.addTx tx false = .ok (b, v')) : v'.Derived := by
  have hoffered : ∀ x ∈ v.valid, x ∈ SlpValid (v.offered tx).transactionMap := fun x hxv =>
    SlpValid.mono (extends_offered v tx).lookup (h x hxv)
  rcases addTx_cases hs hx hadd with ⟨-, heq⟩ | ⟨ht, heq | ⟨heq, haccept⟩⟩
  · exact heq ▸ h
  · exact heq ▸ hoffered
  · rw [heq]
    intro x hxv
    rcases Finset.mem_insert.mp hxv with hself | hxv
    · rcases haccept with hold | hrule
      · exact hself.symm ▸ hoffered _ hold
      · rw [hself, SlpValid, Rules.mem_derivable]
        refine ⟨v.stored tx, (stored_eq hs hx ht).2.2.2, hrule.mono ?_⟩
        intro o _ p hp
        obtain ⟨hov, hol⟩ := view_eq_some.mp hp
        exact restrict_eq_some.mpr ⟨hoffered _ hov, hol⟩
    · exact hoffered x hxv

end Validator

/-! ## Runs -/

namespace Server

theorem extends_offerTx {v v' : Validator} {acc acc' : List Transaction} {tx : Transaction}
    {trusted : Bool} (h : offerTx trusted (v, acc) tx = .ok (v', acc')) : v.Extends v' := by
  unfold offerTx at h
  by_cases hx : tx.txid ∈ v.transactionMap
  · rw [if_pos (by simpa [Validator.has] using hx), Except.ok.injEq, Prod.mk.injEq] at h
    exact h.1 ▸ .refl v
  · rw [if_neg (by simpa [Validator.has] using hx), bind_eq_ok] at h
    obtain ⟨⟨b, v₁⟩, hadd, h⟩ := h
    rw [Except.ok.injEq, Prod.mk.injEq] at h
    exact h.1 ▸ Validator.extends_addTx hx hadd

theorem extends_step {s s' : Server} {e : Event} (h : s.step e = .ok s') :
    s.validator.Extends s'.validator := by
  obtain ⟨v, l, bch, hoffer, -, rfl⟩ := step_eq_ok.mp h
  refine foldlM_inv (I := fun acc => s.validator.Extends acc.1) ?_ (.refl s.validator) hoffer
  intro acc tx _ acc' hacc hstep
  exact hacc.trans (extends_offerTx hstep)

/-- No handler touches a verdict or a stored transaction again. -/
theorem extends_run {events : List Event} {s s' : Server}
    (h : events.foldlM Server.step s = .ok s') : s.validator.Extends s'.validator := by
  refine foldlM_inv (I := fun s₁ => s.validator.Extends s₁.validator) ?_ (.refl s.validator) h
  intro s₁ e _ s₂ hs₁ hstep
  exact hs₁.trans (extends_step hstep)

theorem storedHydrated_step {s s' : Server} {e : Event} (h : s.validator.StoredHydrated)
    (hhyd : ∀ tx ∈ e.txs, tx.Hydrated) (hstep : s.step e = .ok s') :
    s'.validator.StoredHydrated := by
  obtain ⟨v, l, bch, hoffer, -, rfl⟩ := step_eq_ok.mp hstep
  intro x t ht
  rcases stored_foldlM_offerTx hoffer ht with hold | ⟨hmem, htype⟩
  · exact h x t hold
  · exact ⟨hhyd t hmem, htype⟩

/-- What is stored was decoded, and what is valid is derivable. -/
structure Sincere (v : Validator) : Prop where
  hydrated : v.StoredHydrated
  derived : v.Derived

theorem Sincere.offerTx {v v' : Validator} {acc acc' : List Transaction} {tx : Transaction}
    (h : Sincere v) (hhyd : tx.Hydrated)
    (hoffer : Server.offerTx false (v, acc) tx = .ok (v', acc')) : Sincere v' := by
  unfold Server.offerTx at hoffer
  split_ifs at hoffer
  · have heq := Except.ok.inj hoffer
    exact (Prod.mk.inj heq).1 ▸ h
  · obtain ⟨r, hadd, hr⟩ := bind_eq_ok.mp hoffer
    have heq := (Prod.mk.inj (Except.ok.inj hr)).1
    exact heq ▸ ⟨h.hydrated.addTx hhyd hadd, h.derived.addTx h.hydrated hhyd hadd⟩

theorem Sincere.step {s s' : Server} {e : Event} (h : Sincere s.validator)
    (hhyd : ∀ tx ∈ e.txs, tx.Hydrated) (huntrusted : e.trusted = false)
    (hstep : s.step e = .ok s') : Sincere s'.validator := by
  obtain ⟨v, l, bch, hoffer, -, rfl⟩ := step_eq_ok.mp hstep
  rw [huntrusted] at hoffer
  refine foldlM_inv (I := fun acc => Sincere acc.1) ?_ h hoffer
  intro acc tx htx acc' hacc hfirst
  exact hacc.offerTx (hhyd tx htx) hfirst

theorem Sincere.run {events : List Event} {s s' : Server} (h : Sincere s.validator)
    (hhyd : ∀ e ∈ events, ∀ tx ∈ e.txs, tx.Hydrated)
    (huntrusted : ∀ e ∈ events, e.trusted = false)
    (hrun : events.foldlM Server.step s = .ok s') : Sincere s'.validator := by
  refine foldlM_inv (I := fun s₁ => Sincere s₁.validator) ?_ h hrun
  intro s₁ e he s₂ hs₁ hstep
  exact hs₁.step (hhyd e he) (huntrusted e he) hstep

theorem sincere_empty (utxosync : Bool) : Sincere (Server.empty utxosync).validator :=
  ⟨fun x t hl => by simp [Server.empty, Validator.empty] at hl, .empty⟩

theorem storedHydrated_run {utxosync : Bool} {events : List Event} {s : Server}
    (hhyd : ∀ e ∈ events, ∀ tx ∈ e.txs, tx.Hydrated)
    (hrun : events.foldlM Server.step (.empty utxosync) = .ok s) : s.validator.StoredHydrated := by
  refine foldlM_inv (I := fun s₁ => s₁.validator.StoredHydrated) ?_
    (sincere_empty utxosync).hydrated hrun
  intro s₁ e he s₂ hs₁ hstep
  exact storedHydrated_step hs₁ (hhyd e he) hstep

/-! ## Answers -/

theorem trustedValidation_iff {s : Server} {txid : Bytes} {answer : Bool} :
    s.trustedValidation txid = .ok (some answer) ↔ TxidRegex txid ∧
      ∃ x, Bhash.ofString txid = .ok x ∧ (answer = true ↔ x ∈ s.validator.valid) := by
  unfold trustedValidation lookupTxid
  by_cases hmatch : TxidRegex txid
  · simp only [hmatch, true_and]
    cases hx : Bhash.ofString txid with
    | error e => simp [bind, Except.bind]
    | ok x =>
      simp only [bind, Except.bind, Except.ok.injEq, exists_eq_left', Validator.hasValid]
      cases answer with
      | true => simp
      | false => simp
  · simp [hmatch, bind, Except.bind]

theorem trustedValidationBulk_eq_some {s : Server} {txids : List Bytes} {answers : List Bool} :
    s.trustedValidationBulk txids = .ok (some answers) ↔ (∀ txid ∈ txids, TxidRegex txid) ∧
      ∃ xs, List.Forall₂ (fun txid x => Bhash.ofString txid = .ok x) txids xs ∧
        answers = xs.map s.validator.hasValid := by
  unfold trustedValidationBulk
  rw [bulkTxids_eq, bind_eq_ok]
  by_cases hall : ∀ txid ∈ txids, TxidRegex txid
  · have hwhole : (txids.takeWhile fun txid => TxidRegex txid) = txids :=
      List.takeWhile_eq_self_iff.mpr fun txid htxid => decide_eq_true (hall txid htxid)
    simp only [hwhole, if_pos hall, mapM_eq_ok_iff, Except.ok.injEq, Option.some.injEq]
    rw [and_iff_right hall]
    exact exists_congr fun xs => and_congr_right fun _ => eq_comm
  · simp only [if_neg hall, Except.ok.injEq, reduceCtorEq, and_false, exists_false, false_iff]
    exact fun h => hall h.1

/-- The bulk request answers when the single requests all do, with their answers in order;
one string that does not match leaves it without any answer. -/
theorem trustedValidationBulk_iff (s : Server) (txids : List Bytes) (answers : List Bool) :
    s.trustedValidationBulk txids = .ok (some answers) ↔
      List.Forall₂ (fun txid answer => s.trustedValidation txid = .ok (some answer))
        txids answers := by
  rw [trustedValidationBulk_eq_some]
  induction txids generalizing answers with
  | nil => simp [List.forall₂_nil_left_iff]
  | cons txid txids ih =>
    rw [List.forall₂_cons_left_iff]
    simp only [List.forall_mem_cons, List.forall₂_cons_left_iff, trustedValidation_iff] at ih ⊢
    constructor
    · intro h
      obtain ⟨⟨hmatch, hall⟩, xs, ⟨x, rest, hx, hrest, rfl⟩, rfl⟩ := h
      refine ⟨s.validator.hasValid x, rest.map s.validator.hasValid, ⟨hmatch, x, hx, ?_⟩, ?_, rfl⟩
      · rw [Validator.hasValid, decide_eq_true_eq]
      · exact (ih _).mp ⟨hall, rest, hrest, rfl⟩
    · intro h
      obtain ⟨answer, others, ⟨hmatch, x, hx, hanswer⟩, hothers, rfl⟩ := h
      obtain ⟨hall, rest, hrest, rfl⟩ := (ih _).mpr hothers
      refine ⟨⟨hmatch, hall⟩, x :: rest, ⟨x, rest, hx, hrest, rfl⟩, ?_⟩
      have hsame : answer = s.validator.hasValid x := by
        rw [Bool.eq_iff_iff, hanswer, Validator.hasValid, decide_eq_true_eq]
      rw [hsame, List.map_cons]

/-- A string that was answered is answered later, and positively if it was before. -/
theorem trustedValidation_mono {s s' : Server} (h : s.validator.Extends s'.validator)
    {txid : Bytes} {answer : Bool} (hanswer : s.trustedValidation txid = .ok (some answer)) :
    ∃ answer', s'.trustedValidation txid = .ok (some answer') ∧
      (answer = true → answer' = true) := by
  obtain ⟨hmatch, x, hx, hvalid⟩ := trustedValidation_iff.mp hanswer
  refine ⟨s'.validator.hasValid x, trustedValidation_iff.mpr ⟨hmatch, x, hx, ?_⟩, fun htrue => ?_⟩
  · rw [Validator.hasValid, decide_eq_true_eq]
  · rw [Validator.hasValid, decide_eq_true_eq]
    exact h.valid x (hvalid.mp htrue)

theorem trustedValidationBulk_mono {s s' : Server} (h : s.validator.Extends s'.validator)
    {txids : List Bytes} {answers : List Bool}
    (hanswers : s.trustedValidationBulk txids = .ok (some answers)) :
    ∃ answers', s'.trustedValidationBulk txids = .ok (some answers') ∧
      List.Forall₂ (fun answer answer' => answer = true → answer' = true) answers answers' := by
  simp only [trustedValidationBulk_iff] at hanswers ⊢
  induction hanswers with
  | nil => exact ⟨[], .nil, .nil⟩
  | cons hanswer _ ih =>
    obtain ⟨answer', hnew, hmono⟩ := trustedValidation_mono h hanswer
    obtain ⟨answers', hrest, hall⟩ := ih
    exact ⟨answer' :: answers', .cons hnew hrest, .cons hmono hall⟩

/-- In every run, whatever is trusted in it, a positive answer stays, and so does any answer
about a stored transaction; a bulk request keeps its positive answers too. Without trusted
blocks a positive answer means that the transaction is derivable from what the server
stores. -/
theorem run_trustedValidation (utxosync : Bool) {past more : List Event} {s s' : Server}
    (hs : past.foldlM Server.step (.empty utxosync) = .ok s)
    (hs' : more.foldlM Server.step s = .ok s') (txid : Bytes) :
    (s.trustedValidation txid = .ok (some true) → s'.trustedValidation txid = .ok (some true)) ∧
    (∀ x answer, Bhash.ofString txid = .ok x → x ∈ s.validator.transactionMap →
      (s'.trustedValidation txid = .ok (some answer) ↔
        s.trustedValidation txid = .ok (some answer))) ∧
    (∀ txids answers, s.trustedValidationBulk txids = .ok (some answers) →
      ∃ answers', s'.trustedValidationBulk txids = .ok (some answers') ∧
        List.Forall₂ (fun answer answer' => answer = true → answer' = true) answers answers') ∧
    ((∀ e ∈ past, e.trusted = false ∧ ∀ tx ∈ e.txs, tx.Hydrated) →
      s.trustedValidation txid = .ok (some true) →
        ∃ x, Bhash.ofString txid = .ok x ∧ x ∈ SlpValid s.validator.transactionMap) := by
  have hgrows := extends_run hs'
  refine ⟨?_, ?_, ?_, ?_⟩
  · intro h
    obtain ⟨answer', hanswer, hmono⟩ := trustedValidation_mono hgrows h
    rwa [hmono rfl] at hanswer
  · intro x answer hx hstored
    have hsame : x ∈ s'.validator.valid ↔ x ∈ s.validator.valid :=
      ⟨hgrows.verdict x hstored, hgrows.valid x⟩
    simp only [trustedValidation_iff, hx, Except.ok.injEq, exists_eq_left', hsame]
  · intro txids answers h
    exact trustedValidationBulk_mono hgrows h
  · intro hpast h
    obtain ⟨-, x, hx, hvalid⟩ := trustedValidation_iff.mp h
    have hsincere := (sincere_empty utxosync).run (fun e he => (hpast e he).2)
      (fun e he => (hpast e he).1) hs
    exact ⟨x, hx, hsincere.derived x (hvalid.mp rfl)⟩

theorem run_trustedValidation_sample : ∃ s s',
    [Event.rawtx sampleGenesis].foldlM Server.step (.empty false) = .ok s ∧
      [Event.rawtx sampleSend].foldlM Server.step s = .ok s' ∧
      s'.trustedValidation (sampleGenesis.txid.decompress false) = .ok (some true) ∧
      ∃ x, Bhash.ofString (sampleGenesis.txid.decompress false) = .ok x ∧
        x ∈ SlpValid s.validator.transactionMap := by
  have hrun : ∃ s, [Event.rawtx sampleGenesis].foldlM Server.step (.empty false) = .ok s ∧
      s.trustedValidation (sampleGenesis.txid.decompress false) = .ok (some true) ∧
      ∃ s', [Event.rawtx sampleSend].foldlM Server.step s = .ok s' ∧ True := by decide +kernel
  obtain ⟨s, hs, hanswer, s', hs', -⟩ := hrun
  obtain ⟨hstays, -, -, hright⟩ :=
    run_trustedValidation false hs hs' (sampleGenesis.txid.decompress false)
  refine ⟨s, s', hs, hs', hstays hanswer, hright ?_ hanswer⟩
  simp [Event.trusted, Event.txs, sampleGenesis_hydrated]

/-! ## Tokens over a ledger -/

/-- In every state the valid transactions are SLP-valid, no token has more than was issued, a
child token has at most one unit, and the authorities of a token stand in one line with at
most one live baton. -/
structure TokensSafe (L : Ledger) (v : Validator) : Prop where
  valid : ∀ x ∈ v.valid, x ∈ SlpValid L.T
  conserved : ∀ tokenid tokenType, ∀ U : Finset Outpoint,
    (∀ o ∈ U, v.Unspent tokenid tokenType o) →
      ∑ o ∈ U, v.amountAt o ≤ v.genesisQuantity tokenid tokenType +
        v.mintedQuantity tokenid tokenType
  single : ∀ tokenid, ∀ U : Finset Outpoint, (∀ o ∈ U, v.Unspent tokenid 0x41 o) →
    ∑ o ∈ U, v.amountAt o ≤ 1
  line : ∀ tokenid tokenType, ∃ line, v.MintLine tokenid tokenType line
  baton : ∀ tokenid tokenType o r, v.UnspentBaton tokenid tokenType o →
    v.UnspentBaton tokenid tokenType r → o = r

theorem tokensSafe_of_consistent {L : Ledger} {v : Validator} (h : v.Consistent L)
    (hop : L.SparesOpReturns) : TokensSafe L v where
  valid _ hx := h.justified.subset_slpValid L hx
  conserved _ _ _ hU := h.unspent_le hU
  single tokenid _ hU := (h.unspent_le hU).trans (h.child_issued_le tokenid)
  line := h.mintLine hop
  baton _ _ _ _ := h.unspentBaton_unique

/-- Whatever the interleaving of blocks, mempool refreshes and single transactions of a
ledger, and however often each of them comes, the handlers run through and the tokens are
safe in every state on the way. -/
theorem run_tokensSafe (L : Ledger) (hop : L.SparesOpReturns) (utxosync : Bool)
    {events : List Event} (hfrom : ∀ e ∈ events, FromLedger L utxosync e) :
    (∃ s, events.foldlM Server.step (.empty utxosync) = .ok s) ∧
      Always Server.step (fun _ s => TokensSafe L s.validator) (.empty utxosync) events := by
  have hfed : ∀ past rest, events = past ++ rest →
      ∃ s, past.foldlM Server.step (.empty utxosync) = .ok s ∧ Fed L s := by
    intro past rest hev
    exact (Fed.empty L utxosync).run fun e he => hfrom e (hev ▸ List.mem_append_left rest he)
  constructor
  · obtain ⟨s, hs, -⟩ := hfed events [] (List.append_nil events).symm
    exact ⟨s, hs⟩
  · intro past rest hev s hs
    obtain ⟨s₁, hs₁, h₁⟩ := hfed past rest hev
    have hsame : s₁ = s := Except.ok.inj (hs₁.symm.trans hs)
    exact hsame ▸ tokensSafe_of_consistent h₁.consistent hop

/-- A GENESIS from the mempool, and a block with a MINT of its token. -/
def mintedEvents : List Event :=
  [.rawtx sampleGenesis, .block (.insertion _) [sampleMint] false]

theorem mintedEvents_fromLedger : ∀ e ∈ mintedEvents,
    FromLedger Validator.mintedLedger false e := by
  have hmember : ∀ tx ∈ [sampleGenesis, sampleMint],
      Validator.mintedLedger.T.lookup tx.txid = some tx := fun tx htx =>
    Validator.mintedLedger_lookup.mpr ⟨htx, rfl⟩
  intro e he
  rcases List.mem_pair.mp he with rfl | rfl
  · refine ⟨fun tx htx => hmember tx ?_, rfl, by simp⟩
    exact List.mem_pair.mpr (.inl (List.mem_singleton.mp htx))
  · refine ⟨fun tx htx => hmember tx ?_, rfl, by simp⟩
    exact List.mem_pair.mpr (.inr (List.mem_singleton.mp htx))

theorem run_tokensSafe_sample :
    (∃ s, mintedEvents.foldlM Server.step (.empty false) = .ok s) ∧
      Always Server.step (fun _ s => TokensSafe Validator.mintedLedger s.validator)
        (.empty false) mintedEvents :=
  run_tokensSafe Validator.mintedLedger Validator.mintedLedger_sparesOpReturns false
    mintedEvents_fromLedger

end Server
end SlpGraphSearch
