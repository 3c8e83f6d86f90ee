import SlpGraphSearch.Library.Run
import SlpGraphSearch.Server
import SlpGraphSearch.ValidatorSpec

/-!
# What the handlers do

One lemma for each loop of the handlers. The loop over transactions judges the
unknown ones and lists those it accepts; the grouping files exactly the accepted
ones under their tokens; and the token graphs gain exactly those.
-/
namespace SlpGraphSearch
open Library Transaction

/-! ## Judging -/

/-- The verdict of a known transaction is never touched again. -/
def Validator.Held (v : Validator) : Prop := ∀ x ∈ v.valid, x ∈ v.transactionMap

theorem Validator.Held.empty : Validator.empty.Held := fun x h => by
  simp [Validator.empty] at h

namespace Server

/-- A validator before and after it was offered `txs`, of which it accepted `l`. -/
structure Judged (v v' : Validator) (txs l : List Transaction) : Prop where
  valid_iff : ∀ x, x ∈ v'.valid ↔ x ∈ v.valid ∨ ∃ tx ∈ l, tx.txid = x
  known_iff : ∀ x, x ∈ v'.transactionMap ↔ x ∈ v.transactionMap ∨
    ∃ tx ∈ txs, tx.txid = x ∧ tx.slp.type ≠ .invalid
  accepted : ∀ tx ∈ l, tx ∈ txs ∧ tx.txid ∉ v.transactionMap ∧ tx.slp.type ≠ .invalid
  held : v.Held → v'.Held

theorem Judged.refl (v : Validator) : Judged v v [] [] where
  valid_iff x := by simp
  known_iff x := by simp
  accepted tx h := absurd h List.not_mem_nil
  held := id

theorem Judged.trans {v₁ v₂ v₃ : Validator} {txs txs' l l' : List Transaction}
    (h : Judged v₁ v₂ txs l) (h' : Judged v₂ v₃ txs' l') :
    Judged v₁ v₃ (txs ++ txs') (l ++ l') where
  valid_iff x := by
    rw [h'.valid_iff, h.valid_iff, or_assoc]
    simp [or_and_right, exists_or]
  known_iff x := by
    rw [h'.known_iff, h.known_iff, or_assoc]
    simp [or_and_right, exists_or]
  accepted tx hl := by
    rcases List.mem_append.mp hl with hl | hl
    · obtain ⟨h₁, h₂⟩ := h.accepted tx hl
      exact ⟨List.mem_append_left _ h₁, h₂⟩
    · obtain ⟨h₁, h₂, h₃⟩ := h'.accepted tx hl
      exact ⟨List.mem_append_right _ h₁, fun hx => h₂ ((h.known_iff _).mpr (.inl hx)), h₃⟩
  held hv := h'.held (h.held hv)

/-- An accepted transaction was unknown, so it was not valid before. -/
theorem Judged.not_mem_valid {v v' : Validator} {txs l : List Transaction}
    (h : Judged v v' txs l) (hv : v.Held) {tx : Transaction} (hl : tx ∈ l) :
    tx.txid ∉ v.valid := fun hx => (h.accepted tx hl).2.1 (hv _ hx)

/-- One `add_tx` of an unknown transaction. -/
theorem judged_addTx {v v' : Validator} {tx : Transaction} {trusted b : Bool}
    (hx : tx.txid ∉ v.transactionMap) (h : v.addTx tx trusted = .ok (b, v')) :
    Judged v v' [tx] (if b then [tx] else []) := by
  have hmem : ∀ x, x ∈ (v.offered tx).transactionMap ↔ x ∈ v.transactionMap ∨ tx.txid = x := by
    intro x
    rw [Validator.offered, KeyedMap.mem_emplace, or_comm, eq_comm]
  rcases Validator.addTx_unknown hx h with ⟨ht, rfl, rfl⟩ | ⟨ht, rfl, rfl⟩ | ⟨ht, rfl, rfl⟩
  · exact ⟨by simp, by simp [ht], by simp, id⟩
  · exact ⟨by simp [Validator.offered], by simp [hmem, ht], by simp,
      fun hv x hx => (hmem x).mpr (.inl (hv x hx))⟩
  · refine ⟨by simp [or_comm, eq_comm], by simp [hmem, ht], by simp [hx, ht], fun hv x hxv => ?_⟩
    rcases Finset.mem_insert.mp hxv with rfl | hxv
    · exact (hmem _).mpr (.inr rfl)
    · exact (hmem x).mpr (.inl (hv x hxv))

theorem judged_known {v : Validator} {tx : Transaction} (hx : tx.txid ∈ v.transactionMap) :
    Judged v v [tx] [] where
  valid_iff x := by simp
  known_iff x := by
    refine (or_iff_left_of_imp ?_).symm
    rintro ⟨t, ht, rfl, -⟩
    exact List.mem_singleton.mp ht ▸ hx
  accepted tx h := absurd h List.not_mem_nil
  held := id

/-- One round of the loop over transactions. -/
theorem judged_offerTx {v v' : Validator} {acc acc' : List Transaction} {tx : Transaction}
    {trusted : Bool} (h : offerTx trusted (v, acc) tx = .ok (v', acc')) :
    ∃ l, acc' = acc ++ l ∧ Judged v v' [tx] l := by
  unfold offerTx at h
  by_cases hx : tx.txid ∈ v.transactionMap
  · rw [if_pos (by simpa [Validator.has] using hx), Except.ok.injEq, Prod.mk.injEq] at h
    exact ⟨[], by simpa using h.2.symm, h.1 ▸ judged_known hx⟩
  · rw [if_neg (by simpa [Validator.has] using hx)] at h
    cases hadd : v.addTx tx trusted with
    | error e => simp [hadd, bind, Except.bind] at h
    | ok r =>
        obtain ⟨b, v₁⟩ := r
        simp only [hadd, bind, Except.bind, Except.ok.injEq, Prod.mk.injEq] at h
        obtain ⟨rfl, rfl⟩ := h
        refine ⟨if b then [tx] else [], ?_, judged_addTx hx hadd⟩
        cases b <;> simp

theorem judged_foldlM_offerTx {v v' : Validator} {acc acc' txs : List Transaction}
    {trusted : Bool} (h : txs.foldlM (offerTx trusted) (v, acc) = .ok (v', acc')) :
    ∃ l, acc' = acc ++ l ∧ Judged v v' txs l := by
  induction txs generalizing v acc with
  | nil =>
      rw [List.foldlM_nil] at h
      obtain ⟨rfl, rfl⟩ := Prod.mk.inj (Except.ok.inj h)
      exact ⟨[], (List.append_nil _).symm, .refl v⟩
  | cons tx txs ih =>
      rw [List.foldlM_cons] at h
      cases hstep : offerTx trusted (v, acc) tx with
      | error e => simp [hstep, bind, Except.bind] at h
      | ok r =>
          obtain ⟨v₁, acc₁⟩ := r
          simp only [hstep, bind, Except.bind] at h
          obtain ⟨l, rfl, h₁⟩ := judged_offerTx hstep
          obtain ⟨l', rfl, h₂⟩ := ih h
          exact ⟨l ++ l', List.append_assoc _ _ _, h₁.trans h₂⟩

theorem judged_offerTxs {s : Server} {v' : Validator} {txs l : List Transaction} {trusted : Bool}
    (h : s.offerTxs txs trusted = .ok (v', l)) : Judged s.validator v' txs l := by
  obtain ⟨l', hl, hj⟩ := judged_foldlM_offerTx h
  rw [List.nil_append] at hl
  exact hl ▸ hj

/-! ## Stored transactions -/

/-- One round of the loop stores its transaction, or nothing. -/
theorem stored_offerTx {v v' : Validator} {acc acc' : List Transaction} {tx : Transaction}
    {trusted : Bool} (h : offerTx trusted (v, acc) tx = .ok (v', acc')) {x : Txid}
    {t : Transaction} (ht : v'.transactionMap.lookup x = some t) :
    v.transactionMap.lookup x = some t ∨ t = tx ∧ tx.slp.type ≠ .invalid := by
  have hoffered : ∀ u, (v.offered tx).transactionMap.lookup x = some u →
      v.transactionMap.lookup x = some u ∨ u = tx :=
    fun u hu => (KeyedMap.lookup_emplace_cases hu).symm
  unfold offerTx at h
  by_cases hx : tx.txid ∈ v.transactionMap
  · rw [if_pos (by simpa [Validator.has] using hx), Except.ok.injEq, Prod.mk.injEq] at h
    exact .inl (h.1 ▸ ht)
  · rw [if_neg (by simpa [Validator.has] using hx), bind_eq_ok] at h
    obtain ⟨⟨b, v₁⟩, hadd, h⟩ := h
    rw [Except.ok.injEq, Prod.mk.injEq] at h
    obtain ⟨rfl, -⟩ := h
    rcases Validator.addTx_unknown hx hadd with ⟨-, -, rfl⟩ | ⟨hty, -, rfl⟩ | ⟨hty, -, rfl⟩
    · exact .inl ht
    · exact (hoffered t ht).imp_right fun h => ⟨h, hty⟩
    · exact (hoffered t ht).imp_right fun h => ⟨h, hty⟩

theorem stored_foldlM_offerTx {v v' : Validator} {acc acc' txs : List Transaction}
    {trusted : Bool} (h : txs.foldlM (offerTx trusted) (v, acc) = .ok (v', acc')) {x : Txid}
    {t : Transaction} (ht : v'.transactionMap.lookup x = some t) :
    v.transactionMap.lookup x = some t ∨ t ∈ txs ∧ t.slp.type ≠ .invalid := by
  induction txs generalizing v acc with
  | nil =>
      rw [List.foldlM_nil] at h
      exact .inl ((Prod.mk.inj (Except.ok.inj h)).1 ▸ ht)
  | cons tx txs ih =>
      rw [List.foldlM_cons, bind_eq_ok] at h
      obtain ⟨⟨v₁, acc₁⟩, hstep, h⟩ := h
      rcases ih h with ht | ⟨ht, hty⟩
      · rcases stored_offerTx hstep ht with ht | ⟨rfl, hty⟩
        · exact .inl ht
        · exact .inr ⟨List.mem_cons_self, hty⟩
      · exact .inr ⟨List.mem_cons_of_mem _ ht, hty⟩

/-! ## Grouping -/

/-- Filing a transaction adds it and nothing else, under its token. -/
theorem mem_pushValidTx (m : ValidTxs) (tx : Transaction) (t : Tokenid) (u : Transaction) :
    (∃ e ∈ pushValidTx m tx, e.1 = t ∧ u ∈ e.2) ↔
      (∃ e ∈ m, e.1 = t ∧ u ∈ e.2) ∨ tx.slp.tokenid = t ∧ u = tx := by
  induction m with
  | nil => simp [pushValidTx]
  | cons e m ih =>
      obtain ⟨tokenid, txs⟩ := e
      unfold pushValidTx
      split_ifs with ht
      · subst ht
        simp only [List.mem_cons, exists_eq_or_imp, List.mem_append, List.not_mem_nil, or_false]
        rw [and_or_left, or_right_comm]
      · simp only [List.mem_cons, exists_eq_or_imp, ih, or_assoc]

theorem mem_foldl_pushValidTx (m : ValidTxs) (txs : List Transaction) (t : Tokenid)
    (u : Transaction) : (∃ e ∈ txs.foldl pushValidTx m, e.1 = t ∧ u ∈ e.2) ↔
      (∃ e ∈ m, e.1 = t ∧ u ∈ e.2) ∨ u ∈ txs ∧ u.slp.tokenid = t := by
  induction txs generalizing m with
  | nil => simp
  | cons tx txs ih =>
      rw [List.foldl_cons, ih, mem_pushValidTx, or_assoc]
      refine or_congr_right ?_
      simp only [List.mem_cons]
      constructor
      · rintro (⟨ht, rfl⟩ | ⟨hu, ht⟩)
        · exact ⟨.inl rfl, ht⟩
        · exact ⟨.inr hu, ht⟩
      · rintro ⟨rfl | hu, ht⟩
        · exact .inl ⟨ht, rfl⟩
        · exact .inr ⟨hu, ht⟩

theorem keys_pushValidTx {m : ValidTxs} (h : (m.map Prod.fst).Nodup) (tx : Transaction) :
    ((pushValidTx m tx).map Prod.fst).Nodup ∧
      ∀ t, t ∈ (pushValidTx m tx).map Prod.fst → t ∈ m.map Prod.fst ∨ t = tx.slp.tokenid := by
  induction m with
  | nil => simp [pushValidTx]
  | cons e m ih =>
      obtain ⟨tokenid, txs⟩ := e
      rw [List.map_cons, List.nodup_cons] at h
      obtain ⟨hnodup, hkeys⟩ := ih h.2
      unfold pushValidTx
      split_ifs with ht
      · rw [List.map_cons, List.map_cons]
        exact ⟨List.nodup_cons.mpr h, fun t ht => .inl ht⟩
      · rw [List.map_cons, List.map_cons, List.nodup_cons]
        refine ⟨⟨fun hmem => ?_, hnodup⟩, fun t hmem => ?_⟩
        · exact (hkeys tokenid hmem).elim h.1 ht
        · rcases List.mem_cons.mp hmem with rfl | hmem
          · exact .inl List.mem_cons_self
          · exact (hkeys t hmem).imp_left (List.mem_cons_of_mem _)

theorem keys_foldl_pushValidTx {m : ValidTxs} (h : (m.map Prod.fst).Nodup)
    (txs : List Transaction) : ((txs.foldl pushValidTx m).map Prod.fst).Nodup := by
  induction txs generalizing m with
  | nil => exact h
  | cons tx txs ih => exact ih (keys_pushValidTx h tx).1

/-- Each token has one group. -/
theorem keys_validTxs (order : TokenOrder) (l : List Transaction) :
    ((order.permute (groupByToken l)).map Prod.fst).Nodup :=
  ((order.perm _).map Prod.fst).nodup_iff.mpr
    (keys_foldl_pushValidTx (m := []) List.nodup_nil l)

/-- In any order of iteration, `valid_txs` holds the accepted transactions, each
under its token. -/
theorem mem_validTxs (order : TokenOrder) (l : List Transaction) (t : Tokenid)
    (u : Transaction) :
    (∃ e ∈ order.permute (groupByToken l), e.1 = t ∧ u ∈ e.2) ↔ u ∈ l ∧ u.slp.tokenid = t := by
  simp only [order.mem]
  rw [groupByToken, mem_foldl_pushValidTx]
  simp

/-! ## Filling a token graph -/

/-- A token graph before and after the groups `m` were filed. A new node points
exactly to its parents in the token graph that results. -/
structure Filed (g g' : TxGraph) (m : ValidTxs) : Prop where
  wf : g'.Wf
  mem_iff : ∀ x, x ∈ g'.txidToToken ↔ x ∈ g.txidToToken ∨ ∃ e ∈ m, ∃ tx ∈ e.2, tx.txid = x
  old_token : ∀ x ∈ g.txidToToken, g'.txidToToken.lookup x = g.txidToToken.lookup x
  old_node : ∀ p, p.txid ∈ g.txidToToken → g'.deref p = g.deref p
  other_token : ∀ x t, t ∉ m.map Prod.fst →
    (g'.txidToToken.lookup x = some t ↔ g.txidToToken.lookup x = some t)
  new_node : ∀ x ∉ g.txidToToken, x ∈ g'.txidToToken → ∃ e ∈ m, ∃ tx ∈ e.2, tx.txid = x ∧
    g'.txidToToken.lookup x = some e.1 ∧
    g'.deref ⟨e.1, x⟩ = some ⟨(tx.inputs.map Outpoint.txid).filter fun i =>
      g'.txidToToken.lookup i = some e.1, tx.serialized⟩

theorem Filed.refl {g : TxGraph} (hg : g.Wf) : Filed g g [] where
  wf := hg
  mem_iff x := by simp
  old_token x _ := rfl
  old_node p _ := rfl
  other_token x t _ := Iff.rfl
  new_node x hx hx' := absurd hx' hx

/-- One call of `insert_token_data`. -/
theorem Filed.insert {g : TxGraph} (hg : g.Wf) (e : Tokenid × List Transaction)
    (hhyd : ∀ tx ∈ e.2, tx.Hydrated) : Filed g (g.insertTokenData e.1 e.2).2 [e] := by
  have h := hg.insertTokenData e.1 hhyd
  refine ⟨h.wf, by simpa using h.mem_iff, h.old_token, h.old_node, fun x t ht => ?_,
    fun x hx hx' => ?_⟩
  · by_cases hx : x ∈ g.txidToToken
    · rw [h.old_token x hx]
    · have hnone := Finmap.lookup_eq_none.mpr hx
      simp only [hnone, reduceCtorEq, iff_false]
      intro hl
      have hnew := h.new_token x hx (Finmap.mem_iff.mpr ⟨t, hl⟩)
      rw [hl, Option.some.injEq] at hnew
      simp [hnew] at ht
  · obtain ⟨tx, htx, hid, hnode⟩ := h.new_node x hx hx'
    exact ⟨e, List.mem_singleton.mpr rfl, tx, htx, hid, h.new_token x hx hx', hnode⟩

/-- Groups of different tokens do not disturb each other. -/
theorem Filed.trans {g₁ g₂ g₃ : TxGraph} {m m' : ValidTxs} (h : Filed g₁ g₂ m)
    (h' : Filed g₂ g₃ m') (hkeys : ∀ e ∈ m, e.1 ∉ m'.map Prod.fst) :
    Filed g₁ g₃ (m ++ m') where
  wf := h'.wf
  mem_iff x := by
    rw [h'.mem_iff, h.mem_iff, or_assoc]
    simp [or_and_right, exists_or]
  old_token x hx := by
    rw [h'.old_token x ((h.mem_iff x).mpr (.inl hx)), h.old_token x hx]
  old_node p hp := by
    rw [h'.old_node p ((h.mem_iff _).mpr (.inl hp)), h.old_node p hp]
  other_token x t ht := by
    rw [List.map_append, List.mem_append, not_or] at ht
    rw [h'.other_token x t ht.2, h.other_token x t ht.1]
  new_node x hx hx₃ := by
    by_cases hx₂ : x ∈ g₂.txidToToken
    · obtain ⟨e, he, tx, htx, hid, htoken, hnode⟩ := h.new_node x hx hx₂
      refine ⟨e, List.mem_append_left _ he, tx, htx, hid, ?_, ?_⟩
      · rw [h'.old_token x hx₂, htoken]
      · rw [h'.old_node ⟨e.1, x⟩ hx₂, hnode]
        simp only [h'.other_token _ e.1 (hkeys e he)]
    · obtain ⟨e, he, tx, htx, hnew⟩ := h'.new_node x hx₂ hx₃
      exact ⟨e, List.mem_append_right _ he, tx, htx, hnew⟩

theorem filed_insertValidTxs {g : TxGraph} (hg : g.Wf) {m : ValidTxs}
    (hkeys : (m.map Prod.fst).Nodup) (hhyd : ∀ e ∈ m, ∀ tx ∈ e.2, tx.Hydrated) :
    Filed g (insertValidTxs g m) m := by
  induction m generalizing g with
  | nil => exact .refl hg
  | cons e m ih =>
      rw [List.map_cons, List.nodup_cons] at hkeys
      have hfirst := Filed.insert hg e (hhyd e List.mem_cons_self)
      have hrest := ih hfirst.wf hkeys.2 fun e' he' => hhyd e' (List.mem_cons_of_mem _ he')
      exact hfirst.trans hrest fun e' he' => by
        rw [List.mem_singleton.mp he']
        exact hkeys.1

/-- The graph after the accepted transactions `l` were grouped and filed. -/
theorem filed_validTxs {g : TxGraph} (hg : g.Wf) (order : TokenOrder) {l : List Transaction}
    (hhyd : ∀ tx ∈ l, tx.Hydrated) :
    Filed g (insertValidTxs g (order.permute (groupByToken l))) (order.permute (groupByToken l)) :=
  filed_insertValidTxs hg (keys_validTxs order l) fun e he tx htx =>
    hhyd tx ((mem_validTxs order l e.1 tx).mp ⟨e, he, rfl, htx⟩).1

theorem mem_filed_validTxs {g : TxGraph} (hg : g.Wf) (order : TokenOrder) {l : List Transaction}
    (hhyd : ∀ tx ∈ l, tx.Hydrated) (x : Txid) :
    x ∈ (insertValidTxs g (order.permute (groupByToken l))).txidToToken ↔
      x ∈ g.txidToToken ∨ ∃ tx ∈ l, tx.txid = x := by
  rw [(filed_validTxs hg order hhyd).mem_iff]
  refine or_congr_right ⟨?_, ?_⟩
  · rintro ⟨e, he, tx, htx, hid⟩
    exact ⟨tx, ((mem_validTxs order l e.1 tx).mp ⟨e, he, rfl, htx⟩).1, hid⟩
  · rintro ⟨tx, htx, hid⟩
    obtain ⟨e, he, -, htx⟩ := (mem_validTxs order l tx.slp.tokenid tx).mpr ⟨htx, rfl⟩
    exact ⟨e, he, tx, htx, hid⟩

/-! ## Steps -/

def Event.trusted : Event → Bool
  | .block _ _ trusted => trusted
  | _ => false

/-- What a handler does to `bch`, given the transactions it accepted. -/
def bchStep (s : Server) (e : Event) (l : List Transaction) : Except Failure Bch :=
  if s.utxosync then
    match e with
    | .block _ txs _ => s.bch.processBlock txs true
    | .mempool order _ =>
        ((order.permute (groupByToken l)).flatMap Prod.snd).foldlM Bch.processMempoolTx s.bch
    | .rawtx tx => s.bch.processMempoolTx tx
  else .ok s.bch

/-- What a handler does to `g`. -/
def gStep (s : Server) (e : Event) (l : List Transaction) : TxGraph :=
  match e with
  | .block order _ _ => insertValidTxs s.g (order.permute (groupByToken l))
  | _ => s.g

/-- What a handler does to `mg`. -/
def mgStep (s : Server) (e : Event) (l : List Transaction) : TxGraph :=
  match e with
  | .block _ _ _ => s.mg
  | .mempool order _ => insertValidTxs s.mg.clear (order.permute (groupByToken l))
  | .rawtx _ => insertValidTxs s.mg (groupByToken l)

/-- The loop over one transaction, as `slpsync_bitcoind_process_tx` spells it out. -/
theorem offerTxs_singleton (s : Server) (tx : Transaction) : s.offerTxs [tx] false =
    if tx.slp.type = .invalid then .ok (s.validator, [])
    else if s.validator.has tx.txid then .ok (s.validator, [])
    else s.validator.addTx tx false >>= fun r => .ok (r.2, if r.1 then [tx] else []) := by
  have hrun : s.offerTxs [tx] false = offerTx false (s.validator, []) tx := by
    rw [offerTxs, List.foldlM_cons]
    cases offerTx false (s.validator, []) tx <;> rfl
  rw [hrun, offerTx]
  split_ifs with hhas ht ht
  · rfl
  · rfl
  · rw [Validator.addTx_invalid _ ht]
    rfl
  · rfl

/-- Every handler judges, files and stores, and fails if one of these fails. -/
theorem step_eq_ok {s s' : Server} {e : Event} : s.step e = .ok s' ↔
    ∃ v l bch, s.offerTxs e.txs e.trusted = .ok (v, l) ∧ s.bchStep e l = .ok bch ∧
      s' = ⟨s.utxosync, v, s.gStep e l, s.mgStep e l, bch⟩ := by
  cases e with
  | block order txs trusted =>
      simp only [step, slpsyncBitcoindProcessBlock, bind_eq_ok, Except.ok.injEq]
      constructor
      · rintro ⟨_, ⟨bch, hbch, ⟨v, l⟩, hoffer, rfl⟩, rfl⟩
        exact ⟨v, l, bch, hoffer, hbch, rfl⟩
      · rintro ⟨v, l, bch, hoffer, hbch, rfl⟩
        exact ⟨_, ⟨bch, hbch, (v, l), hoffer, rfl⟩, rfl⟩
  | mempool order txs =>
      simp only [step, slpsyncBitcoindProcessMempool, bind_eq_ok, Except.ok.injEq]
      constructor
      · rintro ⟨⟨v, l⟩, hoffer, bch, hbch, rfl⟩
        exact ⟨v, l, bch, hoffer, hbch, rfl⟩
      · rintro ⟨v, l, bch, hoffer, hbch, rfl⟩
        exact ⟨(v, l), hoffer, bch, hbch, rfl⟩
  | rawtx tx =>
      simp only [step, slpsyncBitcoindProcessTx, Event.txs, Event.trusted, offerTxs_singleton]
      by_cases hskip : tx.slp.type = .invalid ∨ s.validator.has tx.txid = true
      · have hskip' : ∀ {α : Type} (a b : α), (if tx.slp.type = .invalid then a
            else if s.validator.has tx.txid = true then a else b) = a := by
          intro α a b
          split_ifs <;> simp_all
        simp only [hskip', bind_eq_ok, Except.ok.injEq]
        constructor
        · rintro ⟨_, ⟨bch, hbch, rfl⟩, rfl⟩
          exact ⟨_, _, bch, rfl, hbch, rfl⟩
        · rintro ⟨v, l, bch, hoffer, hbch, rfl⟩
          obtain ⟨rfl, rfl⟩ := Prod.mk.inj hoffer
          exact ⟨_, ⟨bch, hbch, rfl⟩, rfl⟩
      · rw [not_or] at hskip
        simp only [if_neg hskip.1, if_neg hskip.2, bind_eq_ok, Except.ok.injEq]
        constructor
        · rintro ⟨_, ⟨bch, hbch, ⟨added, v⟩, hadd, hres⟩, rfl⟩
          refine ⟨v, if added then [tx] else [], bch, ⟨_, hadd, rfl⟩, hbch, ?_⟩
          cases added <;> simp at hres <;> subst hres <;> rfl
        · rintro ⟨_, _, bch, ⟨⟨added, v⟩, hadd, hres⟩, hbch, rfl⟩
          obtain ⟨rfl, rfl⟩ := Prod.mk.inj hres
          cases added
          · exact ⟨_, ⟨bch, hbch, _, hadd, rfl⟩, rfl⟩
          · exact ⟨_, ⟨bch, hbch, _, hadd, rfl⟩, rfl⟩

/-- The transactions of the blocks of a run. -/
def confirmedTxs (past : List Event) : List Transaction :=
  past.flatMap fun e => match e with
    | .block _ txs _ => txs
    | _ => []

theorem confirmedTxs_concat (past : List Event) (e : Event) :
    confirmedTxs (past ++ [e]) = confirmedTxs past ++ match e with
      | .block _ txs _ => txs
      | _ => [] := by
  simp [confirmedTxs]

theorem confirmedTxs_subset (past : List Event) :
    confirmedTxs past ⊆ past.flatMap Event.txs := by
  intro tx htx
  obtain ⟨e, he, htx⟩ := List.mem_flatMap.mp htx
  refine List.mem_flatMap.mpr ⟨e, he, ?_⟩
  cases e with
  | block order txs trusted => exact htx
  | mempool order txs => exact absurd htx List.not_mem_nil
  | rawtx tx => exact absurd htx List.not_mem_nil

/-- The validator stores SLP transactions of the events, under their ids. -/
structure Stored (past : List Event) (s : Server) : Prop where
  held : s.validator.Held
  source : ∀ {x t}, s.validator.transactionMap.lookup x = some t →
    t ∈ past.flatMap Event.txs ∧ t.slp.type ≠ .invalid

theorem stored_always (utxosync : Bool) (events : List Event) :
    Always Server.step Stored (.empty utxosync) events := by
  have hempty : Stored [] (.empty utxosync) :=
    ⟨Validator.Held.empty, fun h => by simp [Server.empty, Validator.empty] at h⟩
  refine Always.of_step hempty fun past e rest s₁ s₂ _ h _ hstep => ?_
  obtain ⟨v, l, bch, hoffer, -, rfl⟩ := step_eq_ok.mp hstep
  refine ⟨(judged_offerTxs hoffer).held h.held, fun {x t} ht => ?_⟩
  rw [List.flatMap_append, List.flatMap_singleton, List.mem_append]
  rcases stored_foldlM_offerTx hoffer ht with ht | ⟨ht, hty⟩
  · exact ⟨.inl (h.source ht).1, (h.source ht).2⟩
  · exact ⟨.inr ht, hty⟩

/-! ## Replies -/

theorem decoded_serialized {tx : Transaction} (h : tx.Hydrated) :
    decoded tx.serialized = .ok (some tx) := by
  obtain ⟨buf, h⟩ := h
  have hser := (hydrate_serialized h).2 []
  rw [List.append_nil] at hser
  simp [decoded, hser]

/-- A reply of raw transactions decodes to them. -/
theorem decodedAll_serialized {txs : List Transaction} (h : ∀ tx ∈ txs, tx.Hydrated) :
    decodedAll (txs.map Transaction.serialized) = .ok txs := by
  have hmapM : (txs.map Transaction.serialized).mapM decoded = .ok (txs.map some) := by
    induction txs with
    | nil => rfl
    | cons tx txs ih =>
        rw [List.map_cons, List.mapM_cons, decoded_serialized (h tx List.mem_cons_self),
          ih fun t ht => h t (List.mem_cons_of_mem _ ht)]
        rfl
  rw [decodedAll, hmapM]
  simp [bind, Except.bind, List.filterMap_map]

/-- Raw transactions are those of some list of transactions. -/
theorem exists_map_serialized {data : List Bytes}
    (h : ∀ d ∈ data, ∃ tx : Transaction, tx.Hydrated ∧ d = tx.serialized) :
    ∃ txs : List Transaction, (∀ tx ∈ txs, tx.Hydrated) ∧
      data = txs.map Transaction.serialized := by
  induction data with
  | nil => exact ⟨[], by simp, rfl⟩
  | cons d data ih =>
      obtain ⟨tx, htx, rfl⟩ := h d List.mem_cons_self
      obtain ⟨txs, htxs, rfl⟩ := ih fun d' hd' => h d' (List.mem_cons_of_mem _ hd')
      exact ⟨tx :: txs, List.forall_mem_cons.mpr ⟨htx, htxs⟩, rfl⟩

theorem decodedAll_ok {data : List Bytes}
    (h : ∀ d ∈ data, ∃ tx : Transaction, tx.Hydrated ∧ d = tx.serialized) :
    ∃ txs, decodedAll data = .ok txs := by
  obtain ⟨txs, hhyd, rfl⟩ := exists_map_serialized h
  exact ⟨txs, decodedAll_serialized hhyd⟩

end Server
end SlpGraphSearch
