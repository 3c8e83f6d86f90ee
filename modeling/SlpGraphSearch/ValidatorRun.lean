import SlpGraphSearch.TransactionEncoder
import SlpGraphSearch.ValidatorSpec

/-!
# Validator runs over a ledger

A validator fed from one ledger stays consistent with it: it stores members of
the ledger and its valid ids justify each other. In such a state a verdict is the
rule over the valid ids and nothing throws. When parents come before children the
valid ids are settled, and a whole run ends with the SLP-valid transactions.
-/
namespace SlpGraphSearch
open Library Transaction

namespace Validator

/-- The state of a validator that was fed from the ledger. -/
structure Consistent (L : Ledger) (s : Validator) : Prop where
  known : ∀ {x t}, s.transactionMap.lookup x = some t → L.T.lookup x = some t
  held : ∀ {x}, x ∈ s.valid → x ∈ s.transactionMap
  justified : L.Justified s.valid

variable {L : Ledger} {s : Validator}

theorem Consistent.empty (L : Ledger) : Consistent L .empty where
  known h := by simp [Validator.empty] at h
  held h := by simp [Validator.empty] at h
  justified x h := by simp [Validator.empty] at h

theorem Consistent.view_eq (h : Consistent L s) : s.view = restrict L.T s.valid := by
  funext x
  by_cases hx : x ∈ s.valid
  · obtain ⟨t, ht⟩ := KeyedMap.mem_iff.mp (h.held hx)
    have h₁ : s.view x = some t := view_eq_some.mpr ⟨hx, ht⟩
    have h₂ : restrict L.T s.valid x = some t := restrict_eq_some.mpr ⟨hx, h.known ht⟩
    rw [h₁, h₂]
  · simp [view, restrict, hx]

theorem Consistent.offered (h : Consistent L s) {tx : Transaction}
    (htx : L.T.lookup tx.txid = some tx) : Consistent L (s.offered tx) where
  known := by
    intro x t ht
    simp only [Validator.offered, KeyedMap.lookup_emplace] at ht
    split_ifs at ht with hx
    · subst hx
      rw [Option.some.injEq] at ht
      cases hl : s.transactionMap.lookup tx.txid with
      | none => rw [← ht, hl, Option.getD_none, htx]
      | some u => rw [← ht, hl, Option.getD_some, h.known hl]
    · exact h.known ht
  held hx := KeyedMap.mem_emplace.mpr (.inr (h.held hx))
  justified := h.justified

theorem Consistent.stored (h : Consistent L s) {tx : Transaction}
    (htx : L.T.lookup tx.txid = some tx) : s.stored tx = tx := by
  unfold Validator.stored
  cases hl : s.transactionMap.lookup tx.txid with
  | none => rfl
  | some u =>
      have hu := h.known hl
      rw [htx, Option.some.injEq] at hu
      rw [Option.getD_some, hu]

theorem Consistent.rule_of_view (h : Consistent L s) {x : Txid} {p : Transaction}
    (hp : s.view x = some p) : SlpRule s.view p := by
  obtain ⟨hx, hl⟩ := view_eq_some.mp hp
  obtain ⟨t, ht, hr⟩ := h.justified x hx
  rw [h.known hl, Option.some.injEq] at ht
  rwa [h.view_eq, ht]

theorem Consistent.baton_unique (h : Consistent L s) {t p q : Transaction} {o r : Outpoint}
    (ht : L.T.lookup t.txid = some t) (ho : o ∈ t.inputs) (hr : r ∈ t.inputs)
    (hp : SpendsBaton s.view t o p) (hq : SpendsBaton s.view t r q) : p = q := by
  rw [h.view_eq] at hp hq
  exact h.justified.baton_unique ht ho hr hp hq

/-- Over a ledger `check_mint` decides the rule: a valid MINT among the parents
has a valid parent itself, and that one is the same for all of them. -/
theorem Consistent.checkMint_eq (h : Consistent L s) {tx : Transaction}
    (htx : L.T.lookup tx.txid = some tx) (ht : tx.slp.type = .mint) :
    ∃ b, s.checkMint tx = .ok b ∧ (b = true ↔ SlpRule s.view tx) := by
  rw [slpRule_mint ht]
  have hone : s.OneParent tx := fun o ho r hr p q => h.baton_unique htx ho hr
  apply hone.checkMint_iff.mpr
  intro o ho p hp
  have hpT : L.T.lookup p.txid = some p := by
    have hl := (view_eq_some.mp hp.1).2
    exact KeyedMap.key_lookup hl ▸ h.known hl
  apply hp.2.2.1.imp_right
  intro hmint
  obtain ⟨r, hr, g, hgrand⟩ := (slpRule_mint hmint).mp (h.rule_of_view hp.1)
  refine ⟨g.txid, ⟨r, hr, g, hgrand⟩, ?_⟩
  intro r' hr' g' hgrand'
  rw [h.baton_unique hpT hr' hr hgrand' hgrand]

/-- Over a ledger a verdict is the rule, and it is reached without a throw. -/
theorem Consistent.validateTx_eq (h : Consistent L s) {tx : Transaction}
    (htx : L.T.lookup tx.txid = some tx) (ht : tx.slp.type ≠ .invalid) (fuel : ℕ) :
    ∃ b, s.validateTx (fuel + 2) tx = .ok b ∧
      (b = true ↔ SlpRule (restrict L.T s.valid) tx) := by
  rw [← h.view_eq]
  by_cases hx : tx.txid ∈ s.valid
  · have hv : s.view tx.txid = some tx := by
      rw [h.view_eq, restrict_eq_some]
      exact ⟨hx, htx⟩
    exact ⟨true, validateTx_view hv ht _, by simpa using h.rule_of_view hv⟩
  · by_cases hm : tx.slp.type = .mint
    · rw [validateTx_mint s (fuel + 1) hm hx]
      exact h.checkMint_eq htx hm
    · exact Validator.validateTx_eq s fuel (L.hydrated htx) ht hx hm

theorem Consistent.accept (h : Consistent L s) {tx : Transaction}
    (htx : L.T.lookup tx.txid = some tx) (hmem : tx.txid ∈ s.transactionMap)
    (hr : SlpRule (restrict L.T s.valid) tx) :
    Consistent L { s with valid := insert tx.txid s.valid } where
  known := h.known
  held := by
    intro x hx
    rcases Finset.mem_insert.mp hx with rfl | hx
    · exact hmem
    · exact h.held hx
  justified := by
    intro x hx
    have hsub : (s.valid : Set Txid) ⊆ ↑(insert tx.txid s.valid) := by simp
    rcases Finset.mem_insert.mp hx with rfl | hx
    · exact (slpRules L.T).mono hsub ⟨tx, htx, hr⟩
    · exact (slpRules L.T).mono hsub (h.justified x hx)

/-- One `add_tx` over a ledger: the transaction is stored, and it is valid
afterwards exactly when its rule holds on the ids that were valid before. -/
theorem Consistent.addTx (h : Consistent L s) {tx : Transaction}
    (htx : L.T.lookup tx.txid = some tx) :
    ∃ b s', s.addTx tx false = .ok (b, s') ∧ Consistent L s' ∧
      (∀ x, x ∈ s'.transactionMap ↔
        x ∈ s.transactionMap ∨ x = tx.txid ∧ tx.slp.type ≠ .invalid) ∧
      (∀ x, x ∈ s'.valid ↔
        x ∈ s.valid ∨ x = tx.txid ∧ SlpRule (restrict L.T s.valid) tx) ∧
      (b = true ↔ tx.txid ∉ s.transactionMap ∧ SlpRule (restrict L.T s.valid) tx) := by
  by_cases ht : tx.slp.type = .invalid
  · have hr : ¬ SlpRule (restrict L.T s.valid) tx := not_slpRule_invalid ht
    exact ⟨false, s, addTx_invalid s ht false, h, by simp [ht], by simp [hr], by simp [hr]⟩
  · have hoff := h.offered htx
    obtain ⟨verdict, hverdict, hiff⟩ := hoff.validateTx_eq htx ht s.valid.card
    have hadd := addTx_eq s ht
    rw [h.stored htx, hverdict] at hadd
    have hmap : ∀ x, x ∈ (s.offered tx).transactionMap ↔
        x ∈ s.transactionMap ∨ x = tx.txid ∧ tx.slp.type ≠ .invalid := by
      intro x
      rw [Validator.offered, KeyedMap.mem_emplace]
      simp [ht, or_comm]
    change verdict = true ↔ SlpRule (restrict L.T s.valid) tx at hiff
    have hflag : (verdict && !s.has tx.txid) = true ↔
        tx.txid ∉ s.transactionMap ∧ SlpRule (restrict L.T s.valid) tx := by
      simp [has, hiff, and_comm]
    cases verdict with
    | true =>
        have hr := hiff.mp rfl
        refine ⟨_, _, hadd, hoff.accept htx (KeyedMap.mem_emplace.mpr (.inl rfl)) hr, hmap, ?_,
          hflag⟩
        intro x
        simp [hr, or_comm]
    | false =>
        have hr : ¬ SlpRule (restrict L.T s.valid) tx := by simpa using hiff
        exact ⟨_, _, hadd, hoff, hmap, by simp [hr, Validator.offered], hflag⟩

/-- A run over members of the ledger, in any order, throws nothing. -/
theorem Consistent.addTxs_consistent (h : Consistent L s) {txs : List Transaction}
    (hmem : ∀ tx ∈ txs, L.T.lookup tx.txid = some tx) :
    ∃ s', s.addTxs txs = .ok s' ∧ Consistent L s' := by
  induction txs generalizing s with
  | nil => exact ⟨s, rfl, h⟩
  | cons tx rest ih =>
      obtain ⟨b, s₁, hadd, hs₁, -⟩ := h.addTx (hmem tx List.mem_cons_self)
      obtain ⟨s', hrun, hs'⟩ := ih hs₁ fun t ht => hmem t (List.mem_cons_of_mem _ ht)
      refine ⟨s', ?_, hs'⟩
      rw [Validator.addTxs, List.foldlM_cons, hadd]
      exact hrun

/-- The ids of a list behind one more id. -/
theorem insert_union_ids (P : Set Txid) (tx : Transaction) (txs : List Transaction) :
    insert tx.txid P ∪ {x | ∃ t ∈ txs, t.txid = x} = P ∪ {x | ∃ t ∈ tx :: txs, t.txid = x} := by
  ext x
  simp only [Set.mem_union, Set.mem_ofPred_eq, List.mem_cons, exists_eq_or_imp,
    Set.mem_insert_iff]
  tauto

/-- The valid parents of each of `txs` are in `P` or among `txs`. -/
def ParentsIn (L : Ledger) (P : Set Txid) (txs : List Transaction) : Prop :=
  ∀ tx ∈ txs, ∀ y, Parent L.T y tx.txid → y ∈ SlpValid L.T → y ∈ P ∨ ∃ u ∈ txs, u.txid = y

theorem ParentsIn.congr {P : Set Txid} {txs txs' : List Transaction} (h : ParentsIn L P txs)
    (hmem : ∀ tx, tx ∈ txs' ↔ tx ∈ txs) : ParentsIn L P txs' := fun tx htx y hy hyv =>
  (h tx ((hmem tx).mp htx) y hy hyv).imp_right fun ⟨u, hu, hux⟩ => ⟨u, (hmem u).mpr hu, hux⟩

/-- The first of a parents-first list has its parents in `P`. -/
theorem ParentsIn.head {P : Set Txid} {tx : Transaction} {rest : List Transaction}
    (h : ParentsIn L P (tx :: rest)) (htx : L.T.lookup tx.txid = some tx)
    (hfirst : ∀ u ∈ rest, ∀ o ∈ tx.inputs, o.txid ≠ u.txid) {y : Txid}
    (hy : Parent L.T y tx.txid) (hyv : y ∈ SlpValid L.T) : y ∈ P := by
  rcases h tx List.mem_cons_self y hy hyv with hyP | ⟨u, hu, rfl⟩
  · exact hyP
  · rcases List.mem_cons.mp hu with rfl | hu
    · exact absurd (.single hy) (L.acyclic _)
    · obtain ⟨t, ht, -, o, ho, hou⟩ := hy
      rw [htx, Option.some.injEq] at ht
      exact absurd hou (hfirst u hu o (ht ▸ ho))

theorem ParentsIn.tail {P : Set Txid} {tx : Transaction} {rest : List Transaction}
    (h : ParentsIn L P (tx :: rest)) : ParentsIn L (insert tx.txid P) rest := by
  intro t ht y hy hyv
  rcases h t (List.mem_cons_of_mem _ ht) y hy hyv with hyP | ⟨u, hu, rfl⟩
  · exact .inl (.inr hyP)
  · rcases List.mem_cons.mp hu with rfl | hu
    · exact .inl (.inl rfl)
    · exact .inr ⟨u, hu, rfl⟩

/-- A parents-first run over a settled state ends in a settled state. -/
theorem Consistent.addTxs (h : Consistent L s) {P : Set Txid} {txs : List Transaction}
    (hset : (slpRules L.T).Settled s.valid P)
    (hmem : ∀ tx ∈ txs, L.T.lookup tx.txid = some tx) (hord : ParentsFirst txs)
    (hpar : ParentsIn L P txs) :
    ∃ s', s.addTxs txs = .ok s' ∧ Consistent L s' ∧
      (slpRules L.T).Settled s'.valid (P ∪ {x | ∃ tx ∈ txs, tx.txid = x}) := by
  induction txs generalizing s P with
  | nil => exact ⟨s, rfl, h, by simpa using hset⟩
  | cons tx rest ih =>
      have htx := hmem tx List.mem_cons_self
      obtain ⟨hfirst, hrest⟩ := List.pairwise_cons.mp hord
      obtain ⟨b, s₁, hadd, hs₁, -, hvalid, -⟩ := h.addTx htx
      have hset₁ : (slpRules L.T).Settled s₁.valid (insert tx.txid P) := by
        refine hset.visit (slpRules_dependsOn L.T) (fun _ => hpar.head htx hfirst) fun y => ?_
        rw [Finset.mem_coe, hvalid, Finset.mem_coe, slpRules_holds htx]
      obtain ⟨s', hrun, hs', hset'⟩ := ih hs₁ hset₁
        (fun t ht => hmem t (List.mem_cons_of_mem _ ht)) hrest hpar.tail
      refine ⟨s', ?_, hs', ?_⟩
      · rw [Validator.addTxs, List.foldlM_cons, hadd]
        exact hrun
      · rwa [← insert_union_ids]

/-- A parents-first run over all members settles the whole ledger. -/
theorem addTxs_settled (L : Ledger) {txs : List Transaction}
    (hall : ∀ tx, tx ∈ txs ↔ L.T.lookup tx.txid = some tx) (hord : ParentsFirst txs) :
    ∃ s, Validator.empty.addTxs txs = .ok s ∧ Consistent L s ∧
      (s.valid : Set Txid) = SlpValid L.T := by
  have hset : (slpRules L.T).Settled (Validator.empty.valid : Set Txid) ∅ := by
    simpa [Validator.empty] using Rules.Settled.empty
  obtain ⟨s, hrun, hcons, hset⟩ := (Consistent.empty L).addTxs hset
    (fun tx htx => (hall tx).mp htx) hord fun tx _ y ⟨_, _, hy, _⟩ _ => by
      obtain ⟨u, hu⟩ := KeyedMap.mem_iff.mp hy
      have huy := KeyedMap.key_lookup hu
      exact .inr ⟨u, (hall u).mpr (huy ▸ hu), huy⟩
  refine ⟨s, hrun, hcons, hset.sound.antisymm fun x hx => ?_⟩
  obtain ⟨t, ht, -⟩ := (slpRules L.T).mem_derivable.mp hx
  have htx := KeyedMap.key_lookup ht
  exact hset.complete x (.inr ⟨t, (hall t).mpr (htx ▸ ht), htx⟩) hx

/-- Every parents-first listing of a ledger, fed to an empty validator, runs
without a throw and leaves exactly the SLP-valid transactions of the ledger. That
no input spends an OP_RETURN output is not needed. -/
theorem addTxs_valid (L : Ledger) (txs : List Transaction)
    (hall : ∀ tx, tx ∈ txs ↔ L.T.lookup tx.txid = some tx) (hord : ParentsFirst txs) :
    ∃ s, Validator.empty.addTxs txs = .ok s ∧ (s.valid : Set Txid) = SlpValid L.T := by
  obtain ⟨s, hrun, -, hvalid⟩ := addTxs_settled L hall hord
  exact ⟨s, hrun, hvalid⟩

/-- The ledger of a GENESIS and a SEND of its tokens. -/
def sampleLedger : Ledger :=
  .ofList [sampleGenesis, sampleSend]
    (by simp [sampleGenesis_hydrated, sampleSend_hydrated]) (by decide) (by decide) (by decide)
    (by decide)

theorem mem_sampleLedger (tx : Transaction) :
    tx ∈ [sampleGenesis, sampleSend] ↔ sampleLedger.T.lookup tx.txid = some tx :=
  Ledger.mem_ofList

theorem addTxs_valid_sample :
    ∃ s, Validator.empty.addTxs [sampleGenesis, sampleSend] = .ok s ∧
      (s.valid : Set Txid) = SlpValid sampleLedger.T :=
  addTxs_valid sampleLedger _ mem_sampleLedger (by decide)

end Validator
end SlpGraphSearch
