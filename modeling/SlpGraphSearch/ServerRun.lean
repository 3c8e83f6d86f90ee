import SlpGraphSearch.ServerSpec
import SlpGraphSearch.UtxoIndex
import SlpGraphSearch.ValidatorRun

/-!
# Server runs over a ledger

Handlers that are fed from one ledger never fail, and all of them move the
validator alike: they judge the unknown ones among their transactions in turn. A
verdict, once given, stays.
-/
namespace SlpGraphSearch
open Library Transaction

namespace Server

/-! ## The validator's part of a run -/

/-- What a handler does to the validator with one transaction. -/
def judge (v : Validator) (tx : Transaction) : Except Failure Validator :=
  if v.has tx.txid then .ok v else do .ok (← v.addTx tx false).2

theorem judge_of_offerTx {v v' : Validator} {acc acc' : List Transaction} {tx : Transaction}
    (h : offerTx false (v, acc) tx = .ok (v', acc')) : judge v tx = .ok v' := by
  unfold offerTx at h
  unfold judge
  split_ifs at h ⊢ with hhas
  · rw [(Prod.mk.inj (Except.ok.inj h)).1]
  · rw [bind_eq_ok] at h ⊢
    obtain ⟨r, hr, h⟩ := h
    exact ⟨r, hr, congrArg Except.ok (Prod.mk.inj (Except.ok.inj h)).1⟩

theorem foldlM_judge_of_offerTx {v v' : Validator} {acc acc' txs : List Transaction}
    (h : txs.foldlM (offerTx false) (v, acc) = .ok (v', acc')) :
    txs.foldlM judge v = .ok v' := by
  induction txs generalizing v acc with
  | nil =>
      rw [List.foldlM_nil] at h ⊢
      rw [(Prod.mk.inj (Except.ok.inj h)).1]
      rfl
  | cons tx txs ih =>
      rw [List.foldlM_cons, bind_eq_ok] at h ⊢
      obtain ⟨⟨v₁, acc₁⟩, hstep, h⟩ := h
      exact ⟨v₁, judge_of_offerTx hstep, ih h⟩

/-- A run judges the transactions of its events one after the other. -/
theorem run_judge {events : List Event} (htrust : ∀ e ∈ events, e.trusted = false)
    {s s' : Server} (h : events.foldlM Server.step s = .ok s') :
    (events.flatMap Event.txs).foldlM judge s.validator = .ok s'.validator := by
  induction events generalizing s with
  | nil =>
      rw [List.foldlM_nil] at h
      rw [← Except.ok.inj h]
      rfl
  | cons e events ih =>
      rw [List.foldlM_cons, bind_eq_ok] at h
      obtain ⟨s₁, hstep, h⟩ := h
      have hrest := ih (fun e' he' => htrust e' (List.mem_cons_of_mem _ he')) h
      obtain ⟨v, l, bch, hoffer, -, rfl⟩ := step_eq_ok.mp hstep
      rw [htrust e List.mem_cons_self] at hoffer
      rw [List.flatMap_cons, List.foldlM_append, bind_eq_ok]
      exact ⟨v, foldlM_judge_of_offerTx hoffer, hrest⟩

variable {L : Ledger}

/-- Over a ledger an unknown transaction is accepted exactly if its rule holds over
the transactions that are valid by then. -/
theorem judge_spec {v : Validator} (h : v.Consistent L) {tx : Transaction}
    (htx : L.T.lookup tx.txid = some tx) :
    ∃ v', judge v tx = .ok v' ∧ v'.Consistent L ∧
      (∀ x, x ∈ v'.transactionMap ↔
        x ∈ v.transactionMap ∨ x = tx.txid ∧ tx.slp.type ≠ .invalid) ∧
      ∀ x, x ∈ v'.valid ↔ x ∈ v.valid ∨
        x = tx.txid ∧ x ∉ v.transactionMap ∧ SlpRule (restrict L.T v.valid) tx := by
  unfold judge
  by_cases hx : tx.txid ∈ v.transactionMap
  · rw [if_pos (by simpa [Validator.has] using hx)]
    refine ⟨v, rfl, h, fun x => ?_, fun x => ?_⟩
    · exact (or_iff_left_of_imp fun hx' => hx'.1 ▸ hx).symm
    · exact (or_iff_left_of_imp fun hx' => absurd (hx'.1 ▸ hx) hx'.2.1).symm
  · rw [if_neg (by simpa [Validator.has] using hx)]
    obtain ⟨b, v', hadd, hv', hmap, hvalid, -⟩ := h.addTx htx
    refine ⟨v', by rw [hadd]; rfl, hv', hmap, fun x => ?_⟩
    rw [hvalid]
    refine or_congr_right (and_congr_right ?_)
    rintro rfl
    exact (and_iff_right hx).symm

/-- A verdict stays. -/
theorem foldlM_judge_spec (txs : List Transaction) {v : Validator} (h : v.Consistent L)
    (htxs : ∀ tx ∈ txs, L.T.lookup tx.txid = some tx) :
    ∃ v', txs.foldlM judge v = .ok v' ∧ v'.Consistent L ∧
      (∀ x, x ∈ v'.transactionMap ↔ x ∈ v.transactionMap ∨
        ∃ tx ∈ txs, x = tx.txid ∧ tx.slp.type ≠ .invalid) ∧
      (∀ x ∈ v.transactionMap, x ∈ v'.valid ↔ x ∈ v.valid) := by
  induction txs generalizing v with
  | nil => exact ⟨v, rfl, h, by simp, fun _ _ => Iff.rfl⟩
  | cons tx txs ih =>
      obtain ⟨v₁, hstep, h₁, hmap₁, hvalid₁⟩ := judge_spec h (htxs tx List.mem_cons_self)
      obtain ⟨v', hrun, h', hmap', hstay⟩ := ih h₁ fun t ht => htxs t (List.mem_cons_of_mem _ ht)
      refine ⟨v', ?_, h', fun x => ?_, fun x hx => ?_⟩
      · rw [List.foldlM_cons, hstep]
        exact hrun
      · rw [hmap', hmap₁, or_assoc]
        simp only [List.mem_cons, exists_eq_or_imp]
      · rw [hstay x ((hmap₁ x).mpr (.inl hx)), hvalid₁]
        exact or_iff_left fun hx' => hx'.2.1 hx

/-! ## Runs do not fail -/

/-- An event over the ledger. With `utxosync` every GENESIS and MINT has the outputs
that `slp_outputs` indexes. -/
structure FromLedger (L : Ledger) (utxosync : Bool) (e : Event) : Prop where
  member : ∀ tx ∈ e.txs, L.T.lookup tx.txid = some tx
  untrusted : e.trusted = false
  ingestible : utxosync = true → ∀ tx ∈ e.txs, Ingestible tx

/-- A server that was fed from the ledger. -/
structure Fed (L : Ledger) (s : Server) : Prop where
  consistent : s.validator.Consistent L
  indexed : s.bch.slpdb.Indexed

theorem Fed.empty (L : Ledger) (utxosync : Bool) : Fed L (.empty utxosync) where
  consistent := Validator.Consistent.empty L
  indexed := Slpdb.Indexed.empty

theorem foldlM_processMempoolTx_ok {txs : List Transaction} (h : ∀ tx ∈ txs, Ingestible tx)
    {b : Bch} (hi : b.slpdb.Indexed) :
    ∃ b', txs.foldlM Bch.processMempoolTx b = .ok b' ∧ b'.slpdb.Indexed := by
  induction txs generalizing b with
  | nil => exact ⟨b, rfl, hi⟩
  | cons tx txs ih =>
      obtain ⟨b₁, hstep, hi₁⟩ := (h tx List.mem_cons_self).processMempoolTx hi
      obtain ⟨b', hrun, hi'⟩ := ih (fun t ht => h t (List.mem_cons_of_mem _ ht)) hi₁
      exact ⟨b', by rw [List.foldlM_cons, hstep]; exact hrun, hi'⟩

theorem bchStep_ok {s : Server} (hi : s.bch.slpdb.Indexed) {e : Event} {l : List Transaction}
    (hing : s.utxosync = true → ∀ tx ∈ e.txs, Ingestible tx) (hdet : TxidsDetermine e.txs)
    (hl : ∀ tx ∈ l, tx ∈ e.txs) : ∃ bch, s.bchStep e l = .ok bch ∧ bch.slpdb.Indexed := by
  unfold bchStep
  split_ifs with hu
  · cases e with
    | block order txs trusted =>
        exact processBlock_ok hi (hing hu) hdet true
    | mempool order txs =>
        refine foldlM_processMempoolTx_ok (fun tx htx => ?_) hi
        obtain ⟨e, he, htx⟩ := List.mem_flatMap.mp htx
        exact hing hu tx (hl tx ((mem_validTxs order l e.1 tx).mp ⟨e, he, rfl, htx⟩).1)
    | rawtx tx => exact (hing hu tx (List.mem_singleton.mpr rfl)).processMempoolTx hi
  · exact ⟨s.bch, rfl, hi⟩

/-- The loop over transactions runs through, and judges. -/
theorem foldlM_offerTx_ok {v : Validator} (h : v.Consistent L) {txs : List Transaction}
    (htxs : ∀ tx ∈ txs, L.T.lookup tx.txid = some tx) (acc : List Transaction) :
    ∃ v' acc', txs.foldlM (offerTx false) (v, acc) = .ok (v', acc') ∧ v'.Consistent L := by
  induction txs generalizing v acc with
  | nil => exact ⟨v, acc, rfl, h⟩
  | cons tx txs ih =>
      have hstep : ∃ v₁ acc₁, offerTx false (v, acc) tx = .ok (v₁, acc₁) ∧ v₁.Consistent L := by
        unfold offerTx
        split_ifs
        · exact ⟨v, acc, rfl, h⟩
        · obtain ⟨b, v₁, hadd, hv₁, -⟩ := h.addTx (htxs tx List.mem_cons_self)
          exact ⟨v₁, _, by rw [hadd]; rfl, hv₁⟩
      obtain ⟨v₁, acc₁, hstep, hv₁⟩ := hstep
      obtain ⟨v', acc', hrun, hv'⟩ := ih hv₁ (fun t ht => htxs t (List.mem_cons_of_mem _ ht)) acc₁
      exact ⟨v', acc', by rw [List.foldlM_cons, hstep]; exact hrun, hv'⟩

/-- A handler that is fed from the ledger succeeds. -/
theorem Fed.step {s : Server} (h : Fed L s) {e : Event} (he : FromLedger L s.utxosync e) :
    ∃ s', s.step e = .ok s' ∧ Fed L s' ∧ s'.utxosync = s.utxosync := by
  obtain ⟨v, l, hoffer, hv⟩ := foldlM_offerTx_ok h.consistent he.member []
  have hoffer' : s.offerTxs e.txs e.trusted = .ok (v, l) := by
    rw [he.untrusted]
    exact hoffer
  have hj := judged_offerTxs hoffer'
  obtain ⟨bch, hbch, hi⟩ := bchStep_ok h.indexed he.ingestible (L.txidsDetermine he.member)
    fun tx htx => (hj.accepted tx htx).1
  exact ⟨_, step_eq_ok.mpr ⟨v, l, bch, hoffer', hbch, rfl⟩, ⟨hv, hi⟩, rfl⟩

theorem Fed.run {s : Server} (h : Fed L s) {events : List Event}
    (he : ∀ e ∈ events, FromLedger L s.utxosync e) :
    ∃ s', events.foldlM Server.step s = .ok s' ∧ Fed L s' := by
  induction events generalizing s with
  | nil => exact ⟨s, rfl, h⟩
  | cons e events ih =>
      obtain ⟨s₁, hstep, h₁, hu⟩ := h.step (he e List.mem_cons_self)
      obtain ⟨s', hrun, h'⟩ := ih h₁ fun e' he' => hu ▸ he e' (List.mem_cons_of_mem _ he')
      exact ⟨s', by rw [List.foldlM_cons, hstep]; exact hrun, h'⟩

end Server
end SlpGraphSearch
