import SlpGraphSearch.TokenOrder

/-!
# What the token store keeps track of

The outputs, the baton and the reverse index of every token against the transactions
that the token recorded, along any sequence of calls. No ledger is needed: the calls may
repeat, conflict or come in any order, as long as a txid determines its transaction.
-/
namespace SlpGraphSearch
open Library Transaction

/-- A map of decoded transactions. -/
def TransactionMap.Decoded (T : TransactionMap) : Prop :=
  ∀ {x p}, T.lookup x = some p → p.Hydrated

namespace Slpdb

/-! ## The invariant -/

/-- Everything the store files is filed for a recorded transaction. The index names the
token of each outpoint that a recorded transaction created, spent or not. A current baton
belongs to a token whose GENESIS has one, and is among its outputs if a MINT created it.
The transaction whose id a token has is its GENESIS. -/
structure Tracks (T : TransactionMap) (db : Slpdb) : Prop where
  recorded : ∀ {t x p}, (db.token t).transactions.lookup x = some p →
    T.lookup x = some p ∧ p.slp.tokenid = t
  opened : ∀ t ∈ db.tokens, t ∈ (db.token t).transactions
  utxo : ∀ {t o u}, (db.token t).utxos.lookup o = some u →
    ∃ p, (db.token t).transactions.lookup o.txid = some p ∧ p.tokenOutput o = some u
  index : ∀ {t o}, db.utxoToTokenid.lookup o = some t ↔
    ∃ p, (db.token t).transactions.lookup o.txid = some p ∧
      (p.tokenOutput o ≠ none ∨ p.batonOutput = some o)
  baton : ∀ {t o}, (db.token t).mintBatonOutpoint = some o →
    ∃ p, (db.token t).transactions.lookup o.txid = some p ∧ p.batonOutput = some o ∧
      (p.slp.type = .mint → o ∈ (db.token t).utxos)
  rooted : ∀ {t o}, (db.token t).mintBatonOutpoint = some o →
    ∃ g, (db.token t).transactions.lookup t = some g ∧ g.batonOutput ≠ none
  genesis : ∀ {t g}, (db.token t).transactions.lookup t = some g → g.slp.type = .genesis

variable {T : TransactionMap} {db db' : Slpdb} {tx : Transaction}

theorem Tracks.empty (T : TransactionMap) : Slpdb.empty.Tracks T := by
  constructor
  all_goals simp [Slpdb.empty, Slpdb.token, Finmap.lookup_empty, Finmap.notMem_empty]

/-! ## Recording -/

/-- The recorded transactions after one more. -/
theorem Tracks.transactions_iff (h : db.Tracks T) (htx : T.lookup tx.txid = some tx)
    (hrec : Records db (db.addTransaction tx) tx) {t : Tokenid} {x : Txid} {p : Transaction} :
    ((db.addTransaction tx).token t).transactions.lookup x = some p ↔
      p = tx ∧ x = tx.txid ∧ t = tx.slp.tokenid ∨
        (db.token t).transactions.lookup x = some p := by
  have hsource : ∀ {q}, ((db.addTransaction tx).token t).transactions.lookup x = some q →
      q = tx ∨ (db.token t).transactions.lookup x = some q := (addTransaction_names db tx).source
  constructor
  · intro hp
    cases hsource hp with
    | inr hold => exact .inr hold
    | inl heq =>
      subst heq
      have hx : x = p.txid := (KeyedMap.key_lookup hp).symm
      subst hx
      cases (hrec.transactions t p.txid).mp (KeyedMap.mem_iff.mpr ⟨p, hp⟩) with
      | inl hnew => exact .inl ⟨rfl, rfl, hnew.1⟩
      | inr hold =>
        obtain ⟨q, hq⟩ := KeyedMap.mem_iff.mp hold
        have hqp : q = p := Option.some.inj ((h.recorded hq).1.symm.trans htx)
        exact .inr (hqp ▸ hq)
  · intro hp
    have hmem : x ∈ ((db.addTransaction tx).token t).transactions := by
      apply (hrec.transactions t x).mpr
      cases hp with
      | inl hnew => exact .inl ⟨hnew.2.2, hnew.2.1⟩
      | inr hold => exact .inr (KeyedMap.mem_iff.mpr ⟨p, hold⟩)
    have hTp : T.lookup x = some p := by
      cases hp with
      | inl hnew => rw [hnew.2.1, htx, hnew.1]
      | inr hold => exact (h.recorded hold).1
    obtain ⟨q, hq⟩ := KeyedMap.mem_iff.mp hmem
    have hTq : T.lookup x = some q := by
      cases hsource hq with
      | inr hold => exact (h.recorded hold).1
      | inl heq => rw [← KeyedMap.key_lookup hq, heq, htx]
    rw [hq, Option.some.inj (hTq.symm.trans hTp)]

section

variable (h : db.Tracks T) (htx : T.lookup tx.txid = some tx)
  (hrec : Records db (db.addTransaction tx) tx)
include h htx hrec

theorem Tracks.transactions_self :
    ((db.addTransaction tx).token tx.slp.tokenid).transactions.lookup tx.txid = some tx :=
  (h.transactions_iff htx hrec).mpr (.inl ⟨rfl, rfl, rfl⟩)

theorem Tracks.transactions_mono {t : Tokenid} {x : Txid} {p : Transaction}
    (hp : (db.token t).transactions.lookup x = some p) :
    ((db.addTransaction tx).token t).transactions.lookup x = some p :=
  (h.transactions_iff htx hrec).mpr (.inr hp)

theorem Tracks.records_utxo {t : Tokenid} {o : Outpoint} {u : SlpOutput}
    (hu : ((db.addTransaction tx).token t).utxos.lookup o = some u) :
    ∃ p, ((db.addTransaction tx).token t).transactions.lookup o.txid = some p ∧
      p.tokenOutput o = some u := by
  rw [hrec.utxos] at hu
  cases Option.or_eq_some_iff.mp hu with
  | inl hold =>
    obtain ⟨p, hp, hpu⟩ := h.utxo hold
    exact ⟨p, h.transactions_mono htx hrec hp, hpu⟩
  | inr hnew =>
    obtain ⟨-, hnew⟩ := hnew
    split_ifs at hnew with ht
    subst ht
    exact ⟨tx, by rw [tokenOutput_txid hnew, h.transactions_self htx hrec], hnew⟩

theorem Tracks.records_index {t : Tokenid} {o : Outpoint} :
    (db.addTransaction tx).utxoToTokenid.lookup o = some t ↔
      ∃ p, ((db.addTransaction tx).token t).transactions.lookup o.txid = some p ∧
        (p.tokenOutput o ≠ none ∨ p.batonOutput = some o) := by
  rw [hrec.index]
  constructor
  · intro ht
    cases Option.or_eq_some_iff.mp ht with
    | inl hold =>
      obtain ⟨p, hp, hpo⟩ := h.index.mp hold
      exact ⟨p, h.transactions_mono htx hrec hp, hpo⟩
    | inr hnew =>
      obtain ⟨-, hnew⟩ := hnew
      split_ifs at hnew with ho
      have htoken : tx.slp.tokenid = t := Option.some.inj hnew
      subst htoken
      have hid : o.txid = tx.txid := by
        cases ho with
        | inl hout => exact by_contra fun hne => hout (tokenOutput_of_ne hne)
        | inr hbaton => exact batonOutput_txid hbaton
      exact ⟨tx, by rw [hid, h.transactions_self htx hrec], ho⟩
  · intro hex
    obtain ⟨p, hp, hpo⟩ := hex
    cases (h.transactions_iff htx hrec).mp hp with
    | inr hold => rw [h.index.mpr ⟨p, hold, hpo⟩, Option.some_or]
    | inl hnew =>
      obtain ⟨hptx, hid, htoken⟩ := hnew
      subst hptx
      rw [if_pos hpo, ← htoken]
      cases hl : db.utxoToTokenid.lookup o with
      | none => rfl
      | some t' =>
        -- the index can only name the token that `tx` itself names
        obtain ⟨q, hq, -⟩ := h.index.mp hl
        obtain ⟨hTq, hqt⟩ := h.recorded hq
        have hqp : q = p := Option.some.inj (hTq.symm.trans (hid ▸ htx))
        rw [Option.some_or, ← hqt, hqp, htoken]

theorem Tracks.records_baton {t : Tokenid} {o : Outpoint}
    (ho : ((db.addTransaction tx).token t).mintBatonOutpoint = some o) :
    ∃ p, ((db.addTransaction tx).token t).transactions.lookup o.txid = some p ∧
      p.batonOutput = some o ∧
      (p.slp.type = .mint → o ∈ ((db.addTransaction tx).token t).utxos) := by
  rw [hrec.baton] at ho
  have hcases : t = tx.slp.tokenid ∧ tx.batonOutput = some o ∨
      (db.token t).mintBatonOutpoint = some o := by
    split_ifs at ho with ht
    · exact (Option.or_eq_some_iff.mp ho).imp (fun hb => ⟨ht, hb⟩) fun hold => hold.2
    · exact .inr ho
  cases hcases with
  | inr hold =>
    obtain ⟨p, hp, hb, hheld⟩ := h.baton hold
    refine ⟨p, h.transactions_mono htx hrec hp, hb, ?_⟩
    intro hmint
    obtain ⟨u, hu⟩ := Finmap.mem_iff.mp (hheld hmint)
    exact Finmap.mem_iff.mpr ⟨u, by rw [hrec.utxos, hu, Option.some_or]⟩
  | inl hnew =>
    obtain ⟨ht, hb⟩ := hnew
    subst ht
    refine ⟨tx, by rw [batonOutput_txid hb, h.transactions_self htx hrec], hb, ?_⟩
    intro hmint
    obtain ⟨s, hs⟩ := SlpTransaction.type_eq_mint.mp hmint
    have hsome : tx.tokenOutput o ≠ none := by
      rw [tokenOutput_mint hs, if_pos hb]
      split_ifs <;> simp
    obtain ⟨u, hu⟩ := Option.ne_none_iff_exists'.mp hsome
    rw [Finmap.mem_iff, hrec.utxos, if_pos rfl, hu]
    cases (db.token tx.slp.tokenid).utxos.lookup o <;> simp

theorem Tracks.records_rooted (hhyd : tx.Hydrated) (hacc : db.Accepts tx) {t : Tokenid}
    {o : Outpoint} (ho : ((db.addTransaction tx).token t).mintBatonOutpoint = some o) :
    ∃ g, ((db.addTransaction tx).token t).transactions.lookup t = some g ∧
      g.batonOutput ≠ none := by
  have hkept : ∀ {o'}, (db.token t).mintBatonOutpoint = some o' →
      ∃ g, ((db.addTransaction tx).token t).transactions.lookup t = some g ∧
        g.batonOutput ≠ none := by
    intro o' hold
    obtain ⟨g, hg, hb⟩ := h.rooted hold
    exact ⟨g, h.transactions_mono htx hrec hg, hb⟩
  rw [hrec.baton] at ho
  split_ifs at ho with ht
  · cases Option.or_eq_some_iff.mp ho with
    | inr hold => exact hkept hold.2
    | inl hnew =>
      subst ht
      cases isAuthority_of_batonOutput hnew with
      | inl hgen =>
        have hself := h.transactions_self htx hrec
        rw [← hhyd.genesis_tokenid hgen] at hself
        exact ⟨tx, hself, by simp [hnew]⟩
      | inr hmint =>
        obtain ⟨s, hs⟩ := SlpTransaction.type_eq_mint.mp hmint
        simp only [Accepts, hs] at hacc
        obtain ⟨-, o', -, hcur⟩ := hacc
        exact hkept hcur
  · exact hkept ho

end

theorem Tracks.records (h : db.Tracks T) (hhyd : tx.Hydrated) (hacc : db.Accepts tx) :
    Records db (db.addTransaction tx) tx :=
  addTransaction_records hhyd (fun _ hmem => h.opened _ hmem) hacc

theorem Tracks.addTransaction (h : db.Tracks T) (hhyd : tx.Hydrated)
    (htx : T.lookup tx.txid = some tx) : (db.addTransaction tx).Tracks T := by
  by_cases hacc : db.Accepts tx
  swap
  · rw [addTransaction_dropped hacc]
    exact h
  have hrec := h.records hhyd hacc
  refine ⟨?_, ?_, h.records_utxo htx hrec, h.records_index htx hrec, h.records_baton htx hrec,
    h.records_rooted htx hrec hhyd hacc, ?_⟩
  · intro t x p hp
    cases (h.transactions_iff htx hrec).mp hp with
    | inl hnew => exact ⟨by rw [hnew.2.1, htx, hnew.1], by rw [hnew.1, hnew.2.2]⟩
    | inr hold => exact h.recorded hold
  · intro t ht
    apply (hrec.transactions t t).mpr
    cases (hrec.tokens t).mp ht with
    | inr hold => exact .inr (h.opened t hold)
    | inl heq =>
      subst heq
      cases hacc.known with
      | inl hgen => exact .inl ⟨rfl, hhyd.genesis_tokenid hgen⟩
      | inr hknown => exact .inr (h.opened _ hknown)
  · intro t g hg
    cases (h.transactions_iff htx hrec).mp hg with
    | inr hold => exact h.genesis hold
    | inl hnew =>
      obtain ⟨hgtx, hid, htoken⟩ := hnew
      subst hgtx
      cases hacc.known with
      | inl hgen => exact hgen
      | inr hknown =>
        -- the token was opened by the transaction of that id
        obtain ⟨g', hg'⟩ := KeyedMap.mem_iff.mp (h.opened _ hknown)
        rw [← htoken] at hg'
        have hgg : g' = g := Option.some.inj ((h.recorded hg').1.symm.trans (hid ▸ htx))
        exact hgg ▸ h.genesis hg'

/-! ## Spending -/

theorem token_of_spend {m : Outpoint} (h : db.spend m = .ok db') (t : Tokenid) :
    db'.token t = if db.utxoToTokenid.lookup m = some t then (db.token t).without m
      else db.token t := by
  unfold Slpdb.token
  rw [lookup_of_spend h]
  split_ifs with hm
  · cases db.tokens.lookup t with
    | none => simp [SlpToken.without, Finmap.notMem_empty]
    | some token => rfl
  · rfl

theorem without_utxos (token : SlpToken) (m o : Outpoint) :
    (token.without m).utxos.lookup o = if o = m then none else token.utxos.lookup o := by
  unfold SlpToken.without
  by_cases hm : m ∈ token.utxos
  · rw [if_neg (not_not.mpr hm), HashMap.lookup_erase]
  · rw [if_pos hm]
    by_cases ho : o = m
    · rw [if_pos ho, ho, Finmap.lookup_eq_none.mpr hm]
    · rw [if_neg ho]

theorem without_baton (token : SlpToken) (m : Outpoint) :
    (token.without m).mintBatonOutpoint =
      if m ∈ token.utxos ∧ token.mintBatonOutpoint = some m then none
      else token.mintBatonOutpoint := by
  unfold SlpToken.without
  by_cases hm : m ∈ token.utxos
  · simp [hm]
  · simp [hm]

theorem Tracks.spend (h : db.Tracks T) {m : Outpoint} (hs : db.spend m = .ok db') :
    db'.Tracks T := by
  have hspends := spend_spends hs
  have htx := hspends.transactions
  have hbaton : ∀ {t o}, (db'.token t).mintBatonOutpoint = some o →
      (db.token t).mintBatonOutpoint = some o := by
    intro t o ho
    cases hspends.baton t with
    | inl hsame => exact hsame ▸ ho
    | inr hreset => simp [hreset.2] at ho
  constructor
  · intro t x p hp
    exact h.recorded (htx t ▸ hp)
  · intro t ht
    rw [htx]
    exact h.opened t ((hspends.tokens t).mp ht)
  · intro t o u hu
    rw [hspends.utxos] at hu
    split_ifs at hu
    obtain ⟨p, hp, hpu⟩ := h.utxo hu
    exact ⟨p, by rw [htx, hp], hpu⟩
  · intro t o
    rw [hspends.index, htx]
    exact h.index
  · intro t o ho
    obtain ⟨p, hp, hb, hheld⟩ := h.baton (hbaton ho)
    refine ⟨p, by rw [htx, hp], hb, ?_⟩
    intro hmint
    have hin := hheld hmint
    rw [token_of_spend hs] at ho ⊢
    split_ifs at ho ⊢ with hm
    · -- an output of the token that is its baton is reset when it is spent
      rw [without_baton] at ho
      split_ifs at ho with hspent
      have hne : o ≠ m := by
        intro heq
        subst heq
        exact hspent ⟨hin, ho⟩
      obtain ⟨u, hu⟩ := Finmap.mem_iff.mp hin
      exact Finmap.mem_iff.mpr ⟨u, by rw [without_utxos, if_neg hne, hu]⟩
    · exact hin
  · intro t o ho
    obtain ⟨g, hg, hb⟩ := h.rooted (hbaton ho)
    exact ⟨g, by rw [htx, hg], hb⟩
  · intro t g hg
    exact h.genesis (htx t ▸ hg)

theorem foldl_without_transactions (l : List Outpoint) (token : SlpToken) :
    (l.foldl SlpToken.without token).transactions = token.transactions := by
  induction l generalizing token with
  | nil => rfl
  | cons m l ih =>
    rw [List.foldl_cons, ih]
    unfold SlpToken.without
    by_cases hm : m ∉ token.utxos
    · rw [if_pos hm]
    · rw [if_neg hm]

/-- Outputs and baton of a token after all the inputs of a block. -/
theorem foldl_without_utxos (l : List Outpoint) (token : SlpToken) (o : Outpoint) :
    (l.foldl SlpToken.without token).utxos.lookup o =
      if o ∈ l then none else token.utxos.lookup o := by
  induction l generalizing token with
  | nil => simp
  | cons m l ih =>
    rw [List.foldl_cons, ih, without_utxos]
    by_cases hl : o ∈ l
    · simp [hl]
    · simp [hl]

theorem foldl_without_baton (l : List Outpoint) (token : SlpToken) :
    (l.foldl SlpToken.without token).mintBatonOutpoint =
      if ∃ m ∈ l, m ∈ token.utxos ∧ token.mintBatonOutpoint = some m then none
      else token.mintBatonOutpoint := by
  induction l generalizing token with
  | nil => simp
  | cons m l ih =>
    rw [List.foldl_cons, ih, without_baton]
    have hmem : ∀ k, k ∈ (token.without m).utxos ↔ k ≠ m ∧ k ∈ token.utxos := by
      intro k
      rw [Finmap.mem_iff, without_utxos, Finmap.mem_iff]
      by_cases hk : k = m <;> simp [hk]
    simp only [hmem, List.mem_cons, exists_eq_or_imp]
    by_cases hm : m ∈ token.utxos ∧ token.mintBatonOutpoint = some m
    · simp [hm]
    · simp only [hm, if_false, false_or]
      congr 1
      apply propext
      apply exists_congr
      intro k
      apply and_congr_right
      intro hk
      constructor
      · exact fun hin => ⟨hin.1.2, hin.2⟩
      · intro hin
        refine ⟨⟨?_, hin.1⟩, hin.2⟩
        intro heq
        subst heq
        exact hm hin

/-! ## Batches -/

instance (db : Slpdb) (tx : Transaction) : Decidable (db.Accepts tx) :=
  match h : tx.slp.slpTx with
  | .genesis _ => decidable_of_iff (2 ≤ tx.outputs.length) (by simp only [Accepts, h])
  | .mint _ =>
      decidable_of_iff (tx.slp.tokenid ∈ db.tokens ∧
        ∃ o ∈ tx.inputs, (db.token tx.slp.tokenid).mintBatonOutpoint = some o)
        (by simp only [Accepts, h])
  | .send s =>
      decidable_of_iff (tx.slp.tokenid ∈ db.tokens ∧
        totalTokenOutputs s.amounts ≤ totalTokenInputs (db.token tx.slp.tokenid) tx.inputs)
        (by simp only [Accepts, h])
  | .invalid => isFalse (by simp [Accepts, h])

/-- The transactions that are recorded when the list is added in its order. -/
def accepted (db : Slpdb) : List Transaction → List Transaction
  | [] => []
  | tx :: txs =>
      if db.Accepts tx then tx :: (db.addTransaction tx).accepted txs else db.accepted txs

/-- The last baton that one of the transactions created for the token. -/
def lastBaton (t : Tokenid) (txs : List Transaction) : Option Outpoint :=
  (txs.filterMap fun p => if p.slp.tokenid = t then p.batonOutput else none).getLast?

theorem accepted_subset {txs : List Transaction} {p : Transaction} (hp : p ∈ db.accepted txs) :
    p ∈ txs := by
  induction txs generalizing db with
  | nil => simp [accepted] at hp
  | cons tx txs ih =>
    rw [accepted] at hp
    split_ifs at hp with hacc
    · cases List.mem_cons.mp hp with
      | inl heq => exact List.mem_cons.mpr (.inl heq)
      | inr htail => exact List.mem_cons_of_mem tx (ih htail)
    · exact List.mem_cons_of_mem tx (ih hp)

theorem lastBaton_cons (t : Tokenid) (tx : Transaction) (txs : List Transaction) :
    lastBaton t (tx :: txs) =
      (lastBaton t txs).or (if tx.slp.tokenid = t then tx.batonOutput else none) := by
  unfold lastBaton
  rw [List.filterMap_cons]
  cases (if tx.slp.tokenid = t then tx.batonOutput else none) with
  | none => simp
  | some o =>
    rw [List.getLast?_cons]
    cases (txs.filterMap fun p => if p.slp.tokenid = t then p.batonOutput else none).getLast? with
    | none => rfl
    | some o' => rfl

theorem lastBaton_eq_some {t : Tokenid} {txs : List Transaction} {o : Outpoint}
    (h : lastBaton t txs = some o) : ∃ p ∈ txs, p.slp.tokenid = t ∧ p.batonOutput = some o := by
  obtain ⟨p, hp, hpo⟩ := List.mem_filterMap.mp (List.mem_of_getLast? h)
  split_ifs at hpo with ht
  exact ⟨p, hp, ht, hpo⟩

theorem lastBaton_ne_none {t : Tokenid} {txs : List Transaction} {p : Transaction} (hp : p ∈ txs)
    (ht : p.slp.tokenid = t) (hb : p.batonOutput ≠ none) : lastBaton t txs ≠ none := by
  obtain ⟨o, ho⟩ := Option.ne_none_iff_exists'.mp hb
  rw [lastBaton, ne_eq, List.getLast?_eq_none_iff]
  apply List.ne_nil_of_mem
  exact List.mem_filterMap.mpr ⟨p, hp, by rw [if_pos ht, ho]⟩

/-- All the transactions of `acc` were added to their tokens. -/
structure RecordsAll (db db' : Slpdb) (acc : List Transaction) : Prop where
  transactions : ∀ {t x p}, (db'.token t).transactions.lookup x = some p ↔
    p ∈ acc ∧ x = p.txid ∧ t = p.slp.tokenid ∨ (db.token t).transactions.lookup x = some p
  utxos : ∀ {t o}, o ∈ (db'.token t).utxos ↔
    o ∈ (db.token t).utxos ∨ ∃ p ∈ acc, p.slp.tokenid = t ∧ p.tokenOutput o ≠ none
  baton : ∀ t, (db'.token t).mintBatonOutpoint =
    (lastBaton t acc).or (db.token t).mintBatonOutpoint

theorem RecordsAll.nil (db : Slpdb) : RecordsAll db db [] where
  transactions := by simp
  utxos := by simp
  baton t := by simp [lastBaton]

theorem RecordsAll.cons {db₁ : Slpdb} {acc : List Transaction} (h : db.Tracks T)
    (htx : T.lookup tx.txid = some tx) (hrec : Records db (db.addTransaction tx) tx)
    (hrest : RecordsAll (db.addTransaction tx) db₁ acc) : RecordsAll db db₁ (tx :: acc) where
  transactions := by
    intro t x p
    rw [hrest.transactions, h.transactions_iff htx hrec]
    constructor
    · intro hp
      rcases hp with ⟨hin, hkeys⟩ | ⟨heq, hx, ht⟩ | hold
      · exact .inl ⟨List.mem_cons_of_mem tx hin, hkeys⟩
      · subst heq
        exact .inl ⟨List.mem_cons_self, hx, ht⟩
      · exact .inr hold
    · intro hp
      rcases hp with ⟨hin, hkeys⟩ | hold
      · cases List.mem_cons.mp hin with
        | inl heq => exact .inr (.inl ⟨heq, heq ▸ hkeys.1, heq ▸ hkeys.2⟩)
        | inr htail => exact .inl ⟨htail, hkeys⟩
      · exact .inr (.inr hold)
  utxos := by
    intro t o
    rw [hrest.utxos]
    have hone : o ∈ ((db.addTransaction tx).token t).utxos ↔
        o ∈ (db.token t).utxos ∨ tx.slp.tokenid = t ∧ tx.tokenOutput o ≠ none := by
      rw [Finmap.mem_iff, Finmap.mem_iff, hrec.utxos]
      cases hl : (db.token t).utxos.lookup o with
      | some u => simp
      | none =>
        rw [Option.none_or]
        by_cases ht : t = tx.slp.tokenid
        · rw [if_pos ht]
          simp [ht, Option.ne_none_iff_exists']
        · simp [ht, Ne.symm ht]
    rw [hone]
    simp only [List.mem_cons, exists_eq_or_imp, or_assoc]
  baton := by
    intro t
    rw [hrest.baton, hrec.baton, lastBaton_cons, Option.or_assoc]
    by_cases ht : t = tx.slp.tokenid
    · simp [ht]
    · simp [ht, Ne.symm ht]

theorem Tracks.addTransactions {txs : List Transaction} (h : db.Tracks T)
    (hhyd : ∀ tx ∈ txs, tx.Hydrated) (htxs : ∀ tx ∈ txs, T.lookup tx.txid = some tx) :
    (txs.foldl Slpdb.addTransaction db).Tracks T ∧
      RecordsAll db (txs.foldl Slpdb.addTransaction db) (db.accepted txs) := by
  induction txs generalizing db with
  | nil => exact ⟨h, .nil db⟩
  | cons tx txs ih =>
    have htx := htxs tx List.mem_cons_self
    have hnext := h.addTransaction (hhyd tx List.mem_cons_self) htx
    have hrest := ih hnext (fun t ht => hhyd t (List.mem_cons_of_mem tx ht))
      fun t ht => htxs t (List.mem_cons_of_mem tx ht)
    rw [List.foldl_cons, accepted]
    split_ifs with hacc
    · exact ⟨hrest.1, .cons h htx (h.records (hhyd tx List.mem_cons_self) hacc) hrest.2⟩
    · rw [addTransaction_dropped hacc] at hrest ⊢
      exact hrest

/-- The baton of a token and its outputs when the transactions of `acc` are recorded and
the outpoints of `ins` spent after that. -/
structure Moves (db db' : Slpdb) (acc : List Transaction) (ins : List Outpoint) : Prop where
  transactions : ∀ {t x p}, (db'.token t).transactions.lookup x = some p ↔
    p ∈ acc ∧ x = p.txid ∧ t = p.slp.tokenid ∨ (db.token t).transactions.lookup x = some p
  utxos : ∀ {t o}, o ∈ (db'.token t).utxos ↔
    (o ∈ (db.token t).utxos ∨ ∃ p ∈ acc, p.slp.tokenid = t ∧ p.tokenOutput o ≠ none) ∧ o ∉ ins
  baton : ∀ {t o}, (db'.token t).mintBatonOutpoint = some o ↔
    (lastBaton t acc).or (db.token t).mintBatonOutpoint = some o ∧
      ¬ (o ∈ ins ∧ ∃ p, (db'.token t).transactions.lookup o.txid = some p ∧ p.slp.type = .mint)

theorem RecordsAll.moves {acc : List Transaction} (h : RecordsAll db db' acc) :
    Moves db db' acc [] where
  transactions := h.transactions
  utxos := by simp [h.utxos]
  baton := by simp [h.baton]

theorem Tracks.indexed_of_held (h : db.Tracks T) {t : Tokenid} {o : Outpoint}
    (ho : o ∈ (db.token t).utxos) : db.utxoToTokenid.lookup o = some t := by
  obtain ⟨u, hu⟩ := Finmap.mem_iff.mp ho
  obtain ⟨p, hp, hpu⟩ := h.utxo hu
  exact h.index.mpr ⟨p, hp, .inl (by simp [hpu])⟩

/-- The baton of a GENESIS is never among the outputs of its token. -/
theorem Tracks.baton_held_iff (h : db.Tracks T)
    (hT : T.Decoded) {t : Tokenid} {o : Outpoint}
    (ho : (db.token t).mintBatonOutpoint = some o) : o ∈ (db.token t).utxos ↔
      ∃ p, (db.token t).transactions.lookup o.txid = some p ∧ p.slp.type = .mint := by
  obtain ⟨p, hp, hb, hheld⟩ := h.baton ho
  constructor
  · intro hin
    refine ⟨p, hp, ?_⟩
    cases isAuthority_of_batonOutput hb with
    | inr hmint => exact hmint
    | inl hgen =>
      obtain ⟨s, hs⟩ := SlpTransaction.type_eq_genesis.mp hgen
      obtain ⟨u, hu⟩ := Finmap.mem_iff.mp hin
      obtain ⟨q, hq, hqu⟩ := h.utxo hu
      have hqp : q = p := Option.some.inj (hq.symm.trans hp)
      subst hqp
      rw [tokenOutput_genesis hs] at hqu
      split_ifs at hqu with hvout
      have h2 := (hT (h.recorded hp).1).two_le_baton hb
      rw [hvout] at h2
      exact absurd h2 (by simp)
  · intro hex
    obtain ⟨q, hq, hmint⟩ := hex
    have hqp : q = p := Option.some.inj (hq.symm.trans hp)
    exact hheld (hqp ▸ hmint)

theorem Tracks.spendInputs {inputs : List Outpoint} {b b' : Bch} {removed removed' : List Output}
    (h : b.slpdb.Tracks T)
    (hspend : inputs.foldlM Bch.spendInput (b, removed) = .ok (b', removed')) :
    b'.slpdb.Tracks T := by
  induction inputs generalizing b removed with
  | nil =>
    rw [List.foldlM_nil] at hspend
    rw [← (Prod.mk.inj (Except.ok.inj hspend)).1]
    exact h
  | cons m inputs ih =>
    rw [List.foldlM_cons, bind_eq_ok] at hspend
    obtain ⟨acc, hstep, hrest⟩ := hspend
    obtain ⟨slpdb, hm, hacc⟩ := spendInput_cases hstep
    subst hacc
    exact ih (h.spend hm) hrest

theorem token_of_spendInputs {inputs : List Outpoint} {b b' : Bch}
    {removed removed' : List Output}
    (h : inputs.foldlM Bch.spendInput (b, removed) = .ok (b', removed')) (t : Tokenid) :
    b'.slpdb.token t = (inputs.filter fun m => b.slpdb.utxoToTokenid.lookup m = some t).foldl
      SlpToken.without (b.slpdb.token t) := by
  have hempty : ∀ (l : List Outpoint) (token : SlpToken), token.utxos = ∅ →
      l.foldl SlpToken.without token = token := by
    intro l token htoken
    induction l with
    | nil => rfl
    | cons m l ih =>
      have hsame : token.without m = token := by
        simp [SlpToken.without, htoken, Finmap.notMem_empty]
      rw [List.foldl_cons, hsame, ih]
  unfold Slpdb.token
  rw [(slpdb_of_spendInputs h).2]
  cases b.slpdb.tokens.lookup t with
  | some token => rfl
  | none =>
    rw [Option.map_none, Option.getD_none, hempty]
    rfl

theorem RecordsAll.spendInputs {b b' : Bch} {acc : List Transaction} {ins : List Outpoint}
    {removed removed' : List Output} (hall : RecordsAll db b.slpdb acc) (h : b.slpdb.Tracks T)
    (hT : T.Decoded)
    (hspend : ins.foldlM Bch.spendInput (b, removed) = .ok (b', removed')) :
    Moves db b'.slpdb acc ins := by
  have htoken := token_of_spendInputs hspend
  have htx : ∀ t, (b'.slpdb.token t).transactions = (b.slpdb.token t).transactions := by
    intro t
    rw [htoken, foldl_without_transactions]
  constructor
  · intro t x p
    rw [htx, hall.transactions]
  · intro t o
    rw [← hall.utxos, Finmap.mem_iff, htoken, foldl_without_utxos]
    by_cases hin : o ∈ ins
    · simp only [hin, not_true_eq_false, and_false, iff_false, List.mem_filter, true_and,
        decide_eq_true_eq]
      split_ifs with hindex
      · simp
      · -- what the index does not name is not held
        intro hex
        exact hindex (h.indexed_of_held (Finmap.mem_iff.mpr hex))
    · simp [hin, Finmap.mem_iff]
  · intro t o
    have hspent : ∀ {o}, (b.slpdb.token t).mintBatonOutpoint = some o →
        ((∃ m ∈ ins.filter fun m => b.slpdb.utxoToTokenid.lookup m = some t,
          m ∈ (b.slpdb.token t).utxos ∧ (b.slpdb.token t).mintBatonOutpoint = some m) ↔
        o ∈ ins ∧ ∃ p, (b'.slpdb.token t).transactions.lookup o.txid = some p ∧
          p.slp.type = .mint) := by
      intro o ho
      rw [htx, ← h.baton_held_iff hT ho]
      constructor
      · intro hex
        obtain ⟨m, hm, hheld, hcur⟩ := hex
        have hmo : m = o := Option.some.inj (hcur.symm.trans ho)
        subst hmo
        exact ⟨(List.mem_filter.mp hm).1, hheld⟩
      · intro hin
        refine ⟨o, List.mem_filter.mpr ⟨hin.1, ?_⟩, hin.2, ho⟩
        simpa using h.indexed_of_held hin.2
    have hafter := congrArg SlpToken.mintBatonOutpoint (htoken t)
    rw [foldl_without_baton] at hafter
    rw [← hall.baton, hafter]
    constructor
    · intro ho
      split_ifs at ho with hreset
      exact ⟨ho, fun hmint => hreset ((hspent ho).mpr hmint)⟩
    · intro hin
      obtain ⟨ho, hmint⟩ := hin
      rw [if_neg fun hreset => hmint ((hspent ho).mp hreset)]
      exact ho

end Slpdb

/-! ## Steps -/

/-- What a call hands to the token store, in its order. -/
def BchEvent.offered : BchEvent → List Transaction
  | .block txs _ => slpOrder txs
  | .mempoolTx tx => [tx]

/-- What a call spends in the token store. -/
def BchEvent.spent : BchEvent → List Outpoint
  | .block txs _ => txs.flatMap Transaction.inputs
  | .mempoolTx _ => []

/-- What a call records in the token store. -/
def BchEvent.recorded (b : Bch) (e : BchEvent) : List Transaction :=
  b.slpdb.accepted e.offered

theorem slpOrder_eq {txs sorted : List Transaction}
    (h : topologicalSort (txs.filter fun tx => tx.slp.type ≠ .invalid) = .ok sorted) :
    slpOrder txs = sorted := by
  rw [slpOrder, h]

theorem mem_of_mem_slpOrder {txs : List Transaction} (hdet : TxidsDetermine txs) {tx : Transaction}
    (h : tx ∈ slpOrder txs) : tx ∈ txs := by
  have hfilter : TxidsDetermine (txs.filter fun tx => tx.slp.type ≠ .invalid) :=
    hdet.mono fun t ht => (List.mem_filter.mp ht).1
  obtain ⟨sorted, hsorted, -, hmem, -⟩ := topologicalSort_spec _ hfilter
  rw [slpOrder_eq hsorted] at h
  exact (List.mem_filter.mp ((hmem tx).mp h)).1

theorem BchEvent.mem_of_recorded {b : Bch} {e : BchEvent} (hdet : TxidsDetermine e.txs)
    {tx : Transaction} (h : tx ∈ e.recorded b) : tx ∈ e.txs := by
  have hoffered := Slpdb.accepted_subset h
  cases e with
  | block txs saveRollback => exact mem_of_mem_slpOrder hdet hoffered
  | mempoolTx t => exact hoffered

section

variable {T : TransactionMap} {b b' : Bch} {e : BchEvent}

theorem Bch.step_moves (h : b.slpdb.Tracks T) (hT : T.Decoded)
    (he : ∀ tx ∈ e.txs, T.lookup tx.txid = some tx) (hstep : b.step e = .ok b') :
    b'.slpdb.Tracks T ∧ Slpdb.Moves b.slpdb b'.slpdb (e.recorded b) e.spent := by
  have hdet : TxidsDetermine e.txs := by
    intro t ht u hu htu
    exact Option.some.inj ((he t ht).symm.trans (htu ▸ he u hu))
  cases e with
  | block txs saveRollback =>
    obtain ⟨sorted, b₁, removed, hsorted, hspend, hb'⟩ := processBlock_cases hstep
    have hslpdb : b'.slpdb = b₁.slpdb := by
      rw [hb']
      split_ifs
      · rfl
      · rfl
    have horder := slpOrder_eq hsorted
    have hin : ∀ tx ∈ sorted, T.lookup tx.txid = some tx :=
      fun tx htx => he tx (mem_of_mem_slpOrder hdet (horder ▸ htx))
    obtain ⟨hadded, hall⟩ := h.addTransactions (fun tx htx => hT (hin tx htx)) hin
    rw [hslpdb, BchEvent.recorded, BchEvent.offered, horder]
    exact ⟨hadded.spendInputs hspend, hall.spendInputs hadded hT hspend⟩
  | mempoolTx tx =>
    have htx := he tx List.mem_cons_self
    have hin : ∀ t ∈ [tx], T.lookup t.txid = some t := by simp [htx]
    obtain ⟨hadded, hall⟩ := h.addTransactions (fun t ht => hT (hin t ht)) hin
    rw [slpdb_of_processMempoolTx hstep]
    exact ⟨hadded, hall.moves⟩

end

/-! ## Runs -/

/-- A property of the token store holds throughout a run exactly if every step meets the
condition, when the two agree on each step by what it records and spends. -/
theorem Bch.always_iff_of_moves {events : List BchEvent}
    (hhyd : ∀ tx ∈ events.flatMap BchEvent.txs, tx.Hydrated)
    (hdet : TxidsDetermine (events.flatMap BchEvent.txs))
    {P : List BchEvent → Slpdb → Prop} {C : List BchEvent → Bch → BchEvent → Prop}
    (h₀ : P [] .empty)
    (hstep : ∀ {T : TransactionMap} {past e rest b b'}, events = past ++ e :: rest →
      past.foldlM Bch.step .empty = .ok b → T.Decoded → b.slpdb.Tracks T → b'.slpdb.Tracks T →
      Slpdb.Moves b.slpdb b'.slpdb (e.recorded b) e.spent → b.step e = .ok b' →
      (∀ tx ∈ e.recorded b, tx ∈ e.txs ∧ T.lookup tx.txid = some tx) →
      P past b.slpdb → (P (past ++ [e]) b'.slpdb ↔ C past b e)) :
    Always Bch.step (fun past s => P past s.slpdb) .empty events ↔
      EveryStep Bch.step C .empty events := by
  let T : TransactionMap := KeyedMap.ofList (events.flatMap BchEvent.txs)
  have hT : T.Decoded := by
    intro x p hp
    exact hhyd p ((KeyedMap.lookup_ofList hdet).mp hp).1
  have hin : ∀ e ∈ events, ∀ tx ∈ e.txs, T.lookup tx.txid = some tx := by
    intro e he tx htx
    exact (KeyedMap.lookup_ofList hdet).mpr ⟨List.mem_flatMap.mpr ⟨e, he, htx⟩, rfl⟩
  refine always_iff_everyStep_of_inv
    (I := fun past (s : Bch) => s.slpdb.Tracks T ∧ P past s.slpdb)
    ⟨Slpdb.Tracks.empty T, h₀⟩ (fun past s h => h.2) ?_
  intro past e rest s₁ s₂ hev h hs₁ hs₂
  have he : e ∈ events := by simp [hev]
  obtain ⟨htracks, hmoves⟩ := Bch.step_moves h.1 hT (hin e he) hs₂
  have hdetE : TxidsDetermine e.txs := hdet.mono fun t ht => List.mem_flatMap.mpr ⟨e, he, ht⟩
  have hrec : ∀ tx ∈ e.recorded s₁, tx ∈ e.txs ∧ T.lookup tx.txid = some tx := by
    intro tx htx
    have hmem := BchEvent.mem_of_recorded hdetE htx
    exact ⟨hmem, hin e he tx hmem⟩
  have hiff := hstep hev hs₁ hT h.1 htracks hmoves hs₂ hrec h.2
  exact ⟨hiff.mp, fun hC => ⟨htracks, hiff.mpr hC⟩⟩

end SlpGraphSearch
