import SlpGraphSearch.Library.Reorder
import SlpGraphSearch.SlpdbRun

/-!
# The order of the transactions of a block, in the token store

`process_block` hands the SLP transactions of a block to `slpdb` in a topological order.
Two such orders differ by swaps of neighbours that are not related by inputs, and almost
every such swap leaves the same store. The token id relates transactions that inputs do
not relate: a SEND of nothing is accepted once its token is open, and a repeated GENESIS
moves the baton back. Apart from these two the order does not matter.
-/
namespace SlpGraphSearch
open Library Transaction

/-- A token after an input spent the outpoint. -/
def SlpToken.without (token : SlpToken) (m : Outpoint) : SlpToken :=
  if m ∉ token.utxos then token
  else { token with
    utxos := Finmap.erase m token.utxos
    mintBatonOutpoint :=
      if token.mintBatonOutpoint = some m then none else token.mintBatonOutpoint }

namespace Slpdb

variable {L : Ledger} {db db' : Slpdb} {tx : Transaction}

/-! ## The store over a ledger -/

/-- What the store says about its tokens agrees with the ledger. -/
structure Keeps (L : Ledger) (db : Slpdb) : Prop where
  named : ∀ t, (db.token t).tokenid = t
  recorded : ∀ {t x p}, (db.token t).transactions.lookup x = some p → L.T.lookup x = some p
  opened : ∀ t ∈ db.tokens, t ∈ (db.token t).transactions
  baton : ∀ {t o}, (db.token t).mintBatonOutpoint = some o → o.txid ∈ L.T
  indexed : ∀ {t x p o}, (db.token t).transactions.lookup x = some p →
    p.tokenOutput o ≠ none ∨ p.batonOutput = some o → o ∈ db.utxoToTokenid

theorem Keeps.empty (L : Ledger) : Slpdb.empty.Keeps L := by
  constructor
  all_goals simp [Slpdb.empty, Slpdb.token, Finmap.lookup_empty, Finmap.notMem_empty]

/-- Two stores over one ledger are equal if they look alike. -/
theorem Keeps.ext (h : db.Keeps L) (h' : db'.Keeps L)
    (htokens : ∀ t, t ∈ db.tokens ↔ t ∈ db'.tokens)
    (htx : ∀ t x, x ∈ (db.token t).transactions ↔ x ∈ (db'.token t).transactions)
    (hutxos : ∀ t o, (db.token t).utxos.lookup o = (db'.token t).utxos.lookup o)
    (hbaton : ∀ t, (db.token t).mintBatonOutpoint = (db'.token t).mintBatonOutpoint)
    (hindex : ∀ o, db.utxoToTokenid.lookup o = db'.utxoToTokenid.lookup o) : db = db' := by
  have hlookup : ∀ t x,
      (db.token t).transactions.lookup x = (db'.token t).transactions.lookup x := by
    intro t x
    cases hl : (db.token t).transactions.lookup x with
    | none =>
        have hnot := mt (htx t x).mpr (KeyedMap.lookup_eq_none.mp hl)
        exact (KeyedMap.lookup_eq_none.mpr hnot).symm
    | some p =>
        obtain ⟨p', hp'⟩ := KeyedMap.mem_iff.mp ((htx t x).mp (KeyedMap.mem_iff.mpr ⟨p, hl⟩))
        rw [hp', Option.some.inj ((h.recorded hl).symm.trans (h'.recorded hp'))]
  have htoken : ∀ t, db.token t = db'.token t := by
    intro t
    rw [SlpToken.mk.injEq]
    exact ⟨(h.named t).trans (h'.named t).symm, KeyedMap.ext_lookup (hlookup t),
      Finmap.ext_lookup (hutxos t), hbaton t⟩
  have hmap : db.tokens = db'.tokens := by
    refine Finmap.ext_lookup fun t => ?_
    have ht := htoken t
    unfold Slpdb.token at ht
    have hsome := htokens t
    simp only [Finmap.mem_iff] at hsome
    cases hl : db.tokens.lookup t with
    | none =>
        cases hl' : db'.tokens.lookup t with
        | none => rfl
        | some token' => simp [hl, hl'] at hsome
    | some token =>
        cases hl' : db'.tokens.lookup t with
        | none => simp [hl, hl'] at hsome
        | some token' => rw [hl, hl', Option.getD_some, Option.getD_some] at ht; rw [ht]
  rw [Slpdb.mk.injEq]
  exact ⟨hmap, Finmap.ext_lookup hindex⟩

/-- Tokens keep their names, and only `tx` may be new among their transactions. -/
structure Names (db db' : Slpdb) (tx : Transaction) : Prop where
  tokenid : ∀ t, (db'.token t).tokenid = (db.token t).tokenid
  source : ∀ {t x p}, (db'.token t).transactions.lookup x = some p →
    p = tx ∨ (db.token t).transactions.lookup x = some p

theorem Names.refl (db : Slpdb) (tx : Transaction) : Names db db tx := ⟨fun _ => rfl, .inr⟩

theorem Names.insert {t : Tokenid} {token : SlpToken} {index : HashMap Outpoint Tokenid}
    (htokenid : token.tokenid = (db.token t).tokenid)
    (hsource : ∀ {x p}, token.transactions.lookup x = some p →
      p = tx ∨ (db.token t).transactions.lookup x = some p) :
    Names db ⟨Finmap.insert t token db.tokens, index⟩ tx where
  tokenid u := by
    rw [token_insert]
    split_ifs with hu
    · rw [htokenid, hu]
    · rfl
  source {u x p} hp := by
    rw [token_insert] at hp
    split_ifs at hp with hu
    · exact hu ▸ hsource hp
    · exact .inr hp

theorem addTransaction_names (db : Slpdb) (tx : Transaction) :
    Names db (db.addTransaction tx) tx := by
  unfold Slpdb.addTransaction
  cases hs : tx.slp.slpTx with
  | invalid => exact .refl db tx
  | genesis s =>
      have htoken : ((db.tokens.lookup tx.txid).getD (.ofGenesis tx)).tokenid =
          (db.token tx.txid).tokenid ∧
          ∀ {x p}, ((db.tokens.lookup tx.txid).getD (.ofGenesis tx)).transactions.lookup x =
            some p → p = tx ∨ (db.token tx.txid).transactions.lookup x = some p := by
        unfold Slpdb.token
        cases db.tokens.lookup tx.txid with
        | none => exact ⟨rfl, fun hp => KeyedMap.lookup_emplace_cases hp⟩
        | some token => exact ⟨rfl, .inr⟩
      simp only [addGenesis]
      split_ifs
      · exact .refl db tx
      · exact .insert htoken.1 htoken.2
      · exact .insert htoken.1 htoken.2
  | mint s =>
      simp only [addMint]
      split
      · exact .refl db tx
      · rename_i token htoken
        have hold := token_of_lookup htoken
        split
        · exact .refl db tx
        · split_ifs
          · exact .insert (by rw [hold]) (hold ▸ KeyedMap.lookup_emplace_cases)
          · exact .insert (by rw [hold]) (hold ▸ KeyedMap.lookup_emplace_cases)
          · exact .refl db tx
  | send s =>
      simp only [addSend]
      split
      · exact .refl db tx
      · rename_i token htoken
        have hold := token_of_lookup htoken
        split_ifs
        · exact .refl db tx
        · exact .insert (by rw [hold]) (hold ▸ KeyedMap.lookup_emplace_cases)

theorem Keeps.records (h : db.Keeps L) (htx : tx.Hydrated) (hacc : db.Accepts tx) :
    Records db (db.addTransaction tx) tx :=
  addTransaction_records htx (fun _ hmem => h.opened _ hmem) hacc

theorem Keeps.addTransaction (h : db.Keeps L) (htx : L.T.lookup tx.txid = some tx) :
    (db.addTransaction tx).Keeps L := by
  by_cases hacc : db.Accepts tx
  swap
  · rw [addTransaction_dropped hacc]
    exact h
  have hhyd := L.hydrated htx
  have hrec := h.records hhyd hacc
  have hnames := addTransaction_names db tx
  refine ⟨fun t => (hnames.tokenid t).trans (h.named t), fun {t x p} hp => ?_, fun t ht => ?_,
    fun {t o} ho => ?_, fun {t x p o} hp ho => ?_⟩
  · rcases hnames.source hp with rfl | hp
    · rwa [← KeyedMap.key_lookup hp]
    · exact h.recorded hp
  · rw [hrec.transactions]
    rcases (hrec.tokens t).mp ht with rfl | ht
    · rcases hacc.known with hg | hknown
      · exact .inl ⟨rfl, hhyd.genesis_tokenid hg⟩
      · exact .inr (h.opened _ hknown)
    · exact .inr (h.opened t ht)
  · rw [hrec.baton] at ho
    split_ifs at ho with ht
    · rcases Option.or_eq_some_iff.mp ho with hb | ⟨-, hb⟩
      · rw [batonOutput_txid hb]
        exact KeyedMap.mem_iff.mpr ⟨tx, htx⟩
      · exact h.baton hb
    · exact h.baton ho
  · rw [Finmap.mem_iff, hrec.index]
    rcases hnames.source hp with rfl | hp
    · rw [if_pos ho]
      cases db.utxoToTokenid.lookup o <;> simp
    · obtain ⟨t', ht'⟩ := Finmap.mem_iff.mp (h.indexed hp ho)
      exact ⟨t', by rw [ht', Option.some_or]⟩

theorem Keeps.addTransactions {txs : List Transaction} (h : db.Keeps L)
    (hmember : ∀ tx ∈ txs, L.T.lookup tx.txid = some tx) :
    (txs.foldl Slpdb.addTransaction db).Keeps L := by
  induction txs generalizing db with
  | nil => exact h
  | cons tx txs ih =>
      exact ih (h.addTransaction (hmember tx List.mem_cons_self)) fun t ht =>
        hmember t (List.mem_cons_of_mem _ ht)

/-! ## Swapping two transactions -/

theorem mem_tokens_of_baton {t : Tokenid} {o : Outpoint}
    (h : (db.token t).mintBatonOutpoint = some o) : t ∈ db.tokens := by
  by_contra hnot
  simp [Slpdb.token, Finmap.lookup_eq_none.mpr hnot] at h

theorem totalTokenInputs_congr {token token' : SlpToken} {inputs : List Outpoint}
    (h : ∀ o ∈ inputs, token'.utxos.lookup o = token.utxos.lookup o) :
    totalTokenInputs token' inputs = totalTokenInputs token inputs := by
  have hamounts : inputs.map (amountAt token') = inputs.map (amountAt token) :=
    List.map_congr_left fun o ho => by rw [amountAt, amountAt, h o ho]
  rw [totalTokenInputs_eq, totalTokenInputs_eq, hamounts]

/-- An unknown token has nothing to send. -/
theorem sendsNothing_of_unknown {c : Transaction} (hc : c.Hydrated) {s : SlpTransactionSend}
    (hs : c.slp.slpTx = .send s) (hnew : c.slp.tokenid ∉ db.tokens)
    (h : totalTokenOutputs s.amounts ≤ totalTokenInputs (db.token c.slp.tokenid) c.inputs) :
    c.SendsNothing := by
  rw [totalTokenOutputs_le_iff hc hs] at h
  have hzero : ∀ o ∈ c.inputs, amountAt (db.token c.slp.tokenid) o = 0 := fun o _ => by
    simp [amountAt, Slpdb.token, Finmap.lookup_eq_none.mpr hnew, Finmap.lookup_empty]
  rw [List.sum_eq_zero (List.forall_mem_map.mpr hzero)] at h
  exact ⟨s, hs, Nat.le_zero.mp h⟩

/-- `a` is a GENESIS that moves the baton of its token, and `c` is a MINT of the token
that spends the current one. -/
structure Repeats (db : Slpdb) (a c : Transaction) : Prop where
  genesis : a.slp.type = .genesis
  token : c.slp.tokenid = a.txid
  baton : a.batonOutput ≠ none
  mint : c.slp.type = .mint
  accepts : db.Accepts c

/-- A MINT spends the current baton before another transaction exactly if it does so
afterwards, unless that is a repeated GENESIS. -/
theorem Keeps.spends_baton_iff {a c : Transaction} (h : db.Keeps L)
    (ha : L.T.lookup a.txid = some a) (hc : L.T.lookup c.txid = some c) (hne : a.txid ≠ c.txid)
    (hparent : ∀ o ∈ c.inputs, o.txid ≠ a.txid) (hA : db.Accepts a) {s : SlpTransactionMint}
    (hs : c.slp.slpTx = .mint s) (hrep : ¬ db.Repeats a c) :
    (∃ o ∈ c.inputs, ((db.addTransaction a).token c.slp.tokenid).mintBatonOutpoint = some o) ↔
      ∃ o ∈ c.inputs, (db.token c.slp.tokenid).mintBatonOutpoint = some o := by
  have hhyd := L.hydrated ha
  rw [(h.records hhyd hA).baton]
  split_ifs with ht
  swap
  · exact Iff.rfl
  cases hb : a.batonOutput with
  | none => rw [Option.none_or]
  | some g =>
      rw [Option.some_or]
      refine iff_of_false ?_ ?_
      · rintro ⟨o, ho, hog⟩
        obtain rfl := Option.some.inj hog
        exact hparent g ho (batonOutput_txid hb)
      · rintro ⟨o, ho, hcur⟩
        by_cases hg : a.slp.type = .genesis
        · have hacc : db.Accepts c := by
            simp only [Accepts, hs]
            exact ⟨mem_tokens_of_baton hcur, o, ho, hcur⟩
          exact hrep ⟨hg, ht.trans (hhyd.genesis_tokenid hg), by simp [hb],
            SlpTransaction.type_eq_mint.mpr ⟨s, hs⟩, hacc⟩
        · have hin := hA.baton (fun h => absurd h hg) (by simp [hb]) (ht ▸ hcur)
          exact hne (L.spender_unique ha hc (h.baton hcur) hin ho)

/-- Acceptance of `c` does not depend on `a` if `c` does not spend from `a`, and neither
needs `a` to open its token nor loses the baton to it. -/
theorem Keeps.accepts_addTransaction_iff {a c : Transaction} (h : db.Keeps L)
    (ha : L.T.lookup a.txid = some a) (hc : L.T.lookup c.txid = some c) (hne : a.txid ≠ c.txid)
    (hparent : ∀ o ∈ c.inputs, o.txid ≠ a.txid)
    (hissued : a.slp.type = .genesis → c.slp.tokenid = a.txid → a.txid ∉ db.tokens →
      ¬ c.SendsNothing)
    (hrep : ¬ db.Repeats a c) : (db.addTransaction a).Accepts c ↔ db.Accepts c := by
  by_cases hA : db.Accepts a
  swap
  · rw [addTransaction_dropped hA]
  have hhyd := L.hydrated ha
  have hrec := h.records hhyd hA
  cases hs : c.slp.slpTx with
  | invalid => simp only [Accepts, hs]
  | genesis s => simp only [Accepts, hs]
  | mint s =>
      simp only [Accepts, hs, h.spends_baton_iff ha hc hne hparent hA hs hrep]
      refine and_congr_left fun hspent => ?_
      obtain ⟨o, -, hcur⟩ := hspent
      rw [hrec.tokens]
      exact or_iff_right_of_imp fun _ => mem_tokens_of_baton hcur
  | send s =>
      have hsame : totalTokenInputs ((db.addTransaction a).token c.slp.tokenid) c.inputs =
          totalTokenInputs (db.token c.slp.tokenid) c.inputs := by
        refine totalTokenInputs_congr fun o ho => ?_
        rw [hrec.utxos, tokenOutput_of_ne (hparent o ho), ite_self, Option.or_none]
      simp only [Accepts, hs, hsame]
      refine and_congr_left fun hsum => ?_
      rw [hrec.tokens]
      refine or_iff_right_of_imp fun ht => ?_
      by_contra hnew
      rcases hA.known with hg | hknown
      · have hid := ht.trans (hhyd.genesis_tokenid hg)
        exact hissued hg hid (hid ▸ hnew)
          (sendsNothing_of_unknown (L.hydrated hc) hs hnew hsum)
      · exact hnew (ht ▸ hknown)

/-- Two accepted transactions of a store can be swapped if the acceptance of one does not
depend on the other and at most one of them moves the baton of a token. -/
theorem Keeps.swap {a c : Transaction} (h : db.Keeps L) (ha : L.T.lookup a.txid = some a)
    (hc : L.T.lookup c.txid = some c) (hne : a.txid ≠ c.txid)
    (hac : (db.addTransaction a).Accepts c ↔ db.Accepts c)
    (hca : (db.addTransaction c).Accepts a ↔ db.Accepts a)
    (hbaton : db.Accepts a → db.Accepts c → a.slp.tokenid = c.slp.tokenid →
      a.batonOutput = none ∨ c.batonOutput = none) :
    (db.addTransaction a).addTransaction c = (db.addTransaction c).addTransaction a := by
  by_cases hA : db.Accepts a
  swap
  · rw [addTransaction_dropped hA, addTransaction_dropped (mt hca.mp hA)]
  by_cases hC : db.Accepts c
  swap
  · rw [addTransaction_dropped hC, addTransaction_dropped (mt hac.mp hC)]
  have hKa := h.addTransaction ha
  have hKc := h.addTransaction hc
  have hra := h.records (L.hydrated ha) hA
  have hrc := h.records (L.hydrated hc) hC
  have hrac := hKa.records (L.hydrated hc) (hac.mpr hC)
  have hrca := hKc.records (L.hydrated ha) (hca.mpr hA)
  refine (hKa.addTransaction hc).ext (hKc.addTransaction ha) (fun t => ?_) (fun t x => ?_)
    (fun t o => ?_) (fun t => ?_) fun o => ?_
  · rw [hrac.tokens, hra.tokens, hrca.tokens, hrc.tokens, or_left_comm]
  · rw [hrac.transactions, hra.transactions, hrca.transactions, hrc.transactions, or_left_comm]
  · rw [hrac.utxos, hra.utxos, hrca.utxos, hrc.utxos]
    by_cases ho : o.txid = a.txid
    · rw [tokenOutput_of_ne (p := c) fun h => hne (ho.symm.trans h)]
      simp
    · rw [tokenOutput_of_ne ho]
      simp
  · rw [hrac.baton, hra.baton, hrca.baton, hrc.baton]
    by_cases hta : t = a.slp.tokenid
    · by_cases htc : t = c.slp.tokenid
      · rcases hbaton hA hC (hta.symm.trans htc) with hnone | hnone <;> simp [hnone]
      · simp [htc]
    · simp [hta]
  · have hnot : ∀ {p : Transaction}, o.txid ≠ p.txid →
        ¬ (p.tokenOutput o ≠ none ∨ p.batonOutput = some o) := fun hp hor =>
      hor.elim (fun h => h (tokenOutput_of_ne hp)) fun h => hp (batonOutput_txid h)
    rw [hrac.index, hra.index, hrca.index, hrc.index]
    by_cases ho : o.txid = a.txid
    · rw [if_neg (hnot (p := c) fun h => hne (ho.symm.trans h))]
      simp
    · rw [if_neg (hnot ho)]
      simp

/-- Of two accepted transactions one leaves the baton of their token alone. -/
theorem Keeps.one_baton {a c : Transaction} (h : db.Keeps L)
    (ha : L.T.lookup a.txid = some a) (hc : L.T.lookup c.txid = some c) (hne : a.txid ≠ c.txid)
    (hac : ¬ db.Repeats a c) (hca : ¬ db.Repeats c a) (hA : db.Accepts a) (hC : db.Accepts c)
    (htoken : a.slp.tokenid = c.slp.tokenid) : a.batonOutput = none ∨ c.batonOutput = none := by
  by_contra hboth
  obtain ⟨hba, hbc⟩ := not_or.mp hboth
  obtain ⟨oa, hoa⟩ := Option.ne_none_iff_exists'.mp hba
  obtain ⟨oc, hoc⟩ := Option.ne_none_iff_exists'.mp hbc
  have hida := (L.hydrated ha).genesis_tokenid
  have hidc := (L.hydrated hc).genesis_tokenid
  rcases isAuthority_of_batonOutput hoa with hga | hma
  · rcases isAuthority_of_batonOutput hoc with hgc | hmc
    · exact hne (by rw [← hida hga, ← hidc hgc, htoken])
    · exact hac ⟨hga, htoken.symm.trans (hida hga), hba, hmc, hC⟩
  · rcases isAuthority_of_batonOutput hoc with hgc | hmc
    · exact hca ⟨hgc, htoken.trans (hidc hgc), hbc, hma, hA⟩
    · obtain ⟨sa, hsa⟩ := SlpTransaction.type_eq_mint.mp hma
      obtain ⟨sc, hsc⟩ := SlpTransaction.type_eq_mint.mp hmc
      simp only [Accepts, hsa] at hA
      simp only [Accepts, hsc] at hC
      obtain ⟨-, o, ho, hcur⟩ := hA
      obtain ⟨-, o', ho', hcur'⟩ := hC
      rw [htoken, hcur', Option.some.injEq] at hcur
      exact hne (L.spender_unique ha hc (h.baton hcur') (hcur ▸ ho) ho')

/-- Adding what a token has already changes nothing but its baton. -/
theorem Keeps.addTransaction_again {c : Transaction} (h : db.Keeps L)
    (hc : L.T.lookup c.txid = some c) (hC : db.Accepts c)
    (htx : c.txid ∈ (db.token c.slp.tokenid).transactions)
    (hout : ∀ o, c.tokenOutput o ≠ none → o ∈ (db.token c.slp.tokenid).utxos) :
    (∀ t, t ∈ (db.addTransaction c).tokens ↔ t ∈ db.tokens) ∧
    (∀ t x, x ∈ ((db.addTransaction c).token t).transactions ↔ x ∈ (db.token t).transactions) ∧
    (∀ t o, ((db.addTransaction c).token t).utxos.lookup o = (db.token t).utxos.lookup o) ∧
    ∀ o, (db.addTransaction c).utxoToTokenid.lookup o = db.utxoToTokenid.lookup o := by
  have hrec := h.records (L.hydrated hc) hC
  have hknown : c.slp.tokenid ∈ db.tokens := by
    by_contra hnot
    simp [Slpdb.token, Finmap.lookup_eq_none.mpr hnot] at htx
  obtain ⟨p, hp⟩ := KeyedMap.mem_iff.mp htx
  obtain rfl := Option.some.inj (hc.symm.trans (h.recorded hp))
  refine ⟨fun t => ?_, fun t x => ?_, fun t o => ?_, fun o => ?_⟩
  · rw [hrec.tokens]
    refine or_iff_right_of_imp ?_
    rintro rfl
    exact hknown
  · rw [hrec.transactions]
    refine or_iff_right_of_imp ?_
    rintro ⟨rfl, rfl⟩
    exact htx
  · rw [hrec.utxos]
    split_ifs with ht
    · subst ht
      cases ho : c.tokenOutput o with
      | none => rw [Option.or_none]
      | some u =>
          obtain ⟨w, hw⟩ := Finmap.mem_iff.mp (hout o (by simp [ho]))
          rw [hw, Option.some_or]
    · rw [Option.or_none]
  · rw [hrec.index]
    split_ifs with ho
    · obtain ⟨w, hw⟩ := Finmap.mem_iff.mp (h.indexed hp ho)
      rw [hw, Option.some_or]
    · rw [Option.or_none]

/-- A repeated GENESIS can be swapped with a MINT whose effects are all there already. -/
theorem Keeps.swap_repeated {a c : Transaction} (h : db.Keeps L)
    (ha : L.T.lookup a.txid = some a) (hc : L.T.lookup c.txid = some c)
    (hparent : ∀ o ∈ c.inputs, o.txid ≠ a.txid) (hrep : db.Repeats a c)
    (htx : c.txid ∈ (db.token c.slp.tokenid).transactions)
    (hout : ∀ o, c.tokenOutput o ≠ none → o ∈ (db.token c.slp.tokenid).utxos) :
    (db.addTransaction a).addTransaction c = (db.addTransaction c).addTransaction a := by
  obtain ⟨s, hs⟩ := SlpTransaction.type_eq_genesis.mp hrep.genesis
  obtain ⟨m, hm⟩ := SlpTransaction.type_eq_mint.mp hrep.mint
  obtain ⟨g, hg⟩ := Option.ne_none_iff_exists'.mp hrep.baton
  have hacc : ∀ db' : Slpdb, db'.Accepts a ↔ db.Accepts a := fun db' => by simp only [Accepts, hs]
  by_cases hA : db.Accepts a
  swap
  · rw [addTransaction_dropped hA, addTransaction_dropped (mt (hacc _).mp hA)]
  have hid : c.slp.tokenid = a.slp.tokenid :=
    hrep.token.trans ((L.hydrated ha).genesis_tokenid hrep.genesis).symm
  have hKc := h.addTransaction hc
  have hra := h.records (L.hydrated ha) hA
  have hrc := h.records (L.hydrated hc) hrep.accepts
  have hrca := hKc.records (L.hydrated ha) ((hacc _).mpr hA)
  -- After the GENESIS the baton is the first one again, which `c` does not spend.
  have hdropped : ¬ (db.addTransaction a).Accepts c := by
    simp only [Accepts, hm]
    rintro ⟨-, o, ho, hcur⟩
    rw [hra.baton, if_pos hid, hg, Option.some_or, Option.some.injEq] at hcur
    exact hparent o ho (hcur ▸ batonOutput_txid hg)
  rw [addTransaction_dropped hdropped]
  obtain ⟨htokens, htransactions, hutxos, hindex⟩ :=
    h.addTransaction_again hc hrep.accepts htx hout
  refine (h.addTransaction ha).ext (hKc.addTransaction ha) (fun t => ?_) (fun t x => ?_)
    (fun t o => ?_) (fun t => ?_) fun o => ?_
  · rw [hra.tokens, hrca.tokens, htokens]
  · rw [hra.transactions, hrca.transactions, htransactions]
  · rw [hra.utxos, hrca.utxos, hutxos]
  · rw [hra.baton, hrca.baton, hrc.baton, hid]
    split_ifs
    · rw [hg, Option.some_or, Option.some_or]
    · rfl
  · rw [hra.index, hrca.index, hindex]

/-! ## Spending -/

/-- An input takes its outpoint out of the token that the index names. -/
theorem lookup_of_spend {m : Outpoint} (h : db.spend m = .ok db') (t : Tokenid) :
    db'.tokens.lookup t = if db.utxoToTokenid.lookup m = some t then
      (db.tokens.lookup t).map (SlpToken.without · m) else db.tokens.lookup t := by
  unfold Slpdb.spend at h
  split at h
  · rename_i hm
    rw [← Except.ok.inj h, hm, if_neg (by simp)]
  · rename_i u hm
    split at h
    · simp at h
    · rename_i token htoken
      simp only [hm, Option.some.injEq]
      by_cases hmem : m ∉ token.utxos
      · rw [if_pos hmem] at h
        rw [← Except.ok.inj h]
        split_ifs with hu
        · rw [← hu, htoken, Option.map_some, SlpToken.without, if_pos hmem]
        · rfl
      · rw [if_neg hmem] at h
        rw [← Except.ok.inj h]
        simp only [HashMap.lookup_insert]
        by_cases hu : t = u
        · rw [if_pos hu, if_pos hu.symm, hu, htoken, Option.map_some, SlpToken.without,
            if_neg hmem]
        · rw [if_neg hu, if_neg fun h => hu h.symm]

theorem Keeps.spend (h : db.Keeps L) {m : Outpoint} (hs : db.spend m = .ok db') :
    db'.Keeps L := by
  have hspends := spend_spends hs
  refine ⟨fun t => ?_, fun {t x p} hp => ?_, fun t ht => ?_, fun {t o} ho => ?_,
    fun {t x p o} hp ho => ?_⟩
  · have hname := h.named t
    unfold Slpdb.token at hname ⊢
    rw [lookup_of_spend hs]
    split_ifs
    · cases hl : db.tokens.lookup t with
      | none => rfl
      | some token =>
          rw [hl] at hname
          rw [Option.map_some, Option.getD_some, SlpToken.without]
          split_ifs <;> exact hname
    · exact hname
  · exact h.recorded (hspends.transactions t ▸ hp)
  · rw [hspends.transactions]
    exact h.opened t ((hspends.tokens t).mp ht)
  · rcases hspends.baton t with hb | ⟨-, hb⟩
    · exact h.baton (hb ▸ ho)
    · simp [hb] at ho
  · rw [hspends.index]
    exact h.indexed (hspends.transactions t ▸ hp) ho

theorem without_comm (token : SlpToken) (m m' : Outpoint) :
    (token.without m).without m' = (token.without m').without m := by
  by_cases hne : m = m'
  · rw [hne]
  have hmem : ∀ {a c : Outpoint}, a ≠ c → (a ∈ Finmap.erase c token.utxos ↔ a ∈ token.utxos) :=
    fun hac => Finmap.mem_erase.trans (and_iff_right hac)
  by_cases hm : m ∈ token.utxos
  · by_cases hm' : m' ∈ token.utxos
    · have hbaton : ∀ a c : Outpoint, (if (if token.mintBatonOutpoint = some a then none
          else token.mintBatonOutpoint) = some c then none
          else if token.mintBatonOutpoint = some a then none else token.mintBatonOutpoint) =
          if token.mintBatonOutpoint = some a ∨ token.mintBatonOutpoint = some c then none
          else token.mintBatonOutpoint := by
        intro a c
        by_cases ha : token.mintBatonOutpoint = some a <;> simp [ha]
      simp only [SlpToken.without, hm, hm', hmem hne, hmem (Ne.symm hne), not_true, if_false,
        hbaton, Finmap.erase_erase, or_comm]
    · simp [SlpToken.without, hm, hm', hmem (Ne.symm hne)]
  · by_cases hm' : m' ∈ token.utxos
    · simp [SlpToken.without, hm, hm', hmem hne]
    · simp [SlpToken.without, hm, hm']

/-- The tokens after the inputs of a block. Each token loses what the index files under it. -/
theorem slpdb_of_spendInputs {inputs : List Outpoint} {b b' : Bch} {removed removed' : List Output}
    (h : inputs.foldlM Bch.spendInput (b, removed) = .ok (b', removed')) :
    b'.slpdb.utxoToTokenid = b.slpdb.utxoToTokenid ∧
      ∀ t, b'.slpdb.tokens.lookup t = (b.slpdb.tokens.lookup t).map fun token =>
        (inputs.filter fun m => b.slpdb.utxoToTokenid.lookup m = some t).foldl
          SlpToken.without token := by
  induction inputs generalizing b removed with
  | nil =>
      rw [List.foldlM_nil] at h
      rw [← (Prod.mk.inj (Except.ok.inj h)).1]
      exact ⟨rfl, fun t => by simp⟩
  | cons m inputs ih =>
      rw [List.foldlM_cons, bind_eq_ok] at h
      obtain ⟨acc, hstep, h⟩ := h
      obtain ⟨slpdb, hspend, rfl⟩ := spendInput_cases hstep
      obtain ⟨hindex, htokens⟩ := ih h
      have hsame := (spend_spends hspend).index
      refine ⟨hindex.trans hsame, fun t => ?_⟩
      rw [htokens, lookup_of_spend hspend, List.filter_cons]
      simp only [hsame, decide_eq_true_eq]
      split_ifs with hm
      · rw [Option.map_map]
        rfl
      · rfl

theorem Keeps.spendInputs {inputs : List Outpoint} {b b' : Bch} {removed removed' : List Output}
    (h : b.slpdb.Keeps L)
    (hrun : inputs.foldlM Bch.spendInput (b, removed) = .ok (b', removed')) :
    b'.slpdb.Keeps L := by
  induction inputs generalizing b removed with
  | nil =>
      rw [List.foldlM_nil] at hrun
      exact (Prod.mk.inj (Except.ok.inj hrun)).1 ▸ h
  | cons m inputs ih =>
      rw [List.foldlM_cons, bind_eq_ok] at hrun
      obtain ⟨acc, hstep, hrun⟩ := hrun
      obtain ⟨slpdb, hspend, rfl⟩ := spendInput_cases hstep
      exact ih (h.spend hspend) hrun

/-- The order of the inputs does not matter to the tokens. -/
theorem slpdb_of_spendInputs_perm {inputs inputs' : List Outpoint} (hp : inputs.Perm inputs')
    {b c b' c' : Bch} {removed removed' removed₁ removed₁' : List Output}
    (hb : inputs.foldlM Bch.spendInput (b, removed) = .ok (b', removed'))
    (hc : inputs'.foldlM Bch.spendInput (c, removed₁) = .ok (c', removed₁'))
    (h : b.slpdb = c.slpdb) : b'.slpdb = c'.slpdb := by
  obtain ⟨hindex, htokens⟩ := slpdb_of_spendInputs hb
  obtain ⟨hindex', htokens'⟩ := slpdb_of_spendInputs hc
  have hmap : b'.slpdb.tokens = c'.slpdb.tokens := by
    refine Finmap.ext_lookup fun t => ?_
    rw [htokens, htokens', h]
    congr 1
    funext token
    exact (hp.filter _).foldl_eq' (fun m _ m' _ token => without_comm token m m') token
  rw [Slpdb.mk.injEq]
  exact ⟨hmap, by rw [hindex, hindex', h]⟩

/-! ## The condition -/

/-- Neither of the two is an ancestor of the other among `txs`. -/
def Unrelated (txs : List Transaction) (t u : Transaction) : Prop :=
  ¬ Relation.TransGen (Parent (KeyedMap.ofList txs)) t.txid u.txid ∧
    ¬ Relation.TransGen (Parent (KeyedMap.ofList txs)) u.txid t.txid

/-- A MINT among `txs` that spends the current baton of its token, or the baton of a MINT
in line before it. -/
inductive InLine (db : Slpdb) (txs : List Transaction) : Transaction → Prop
  | current {t : Transaction} {o : Outpoint} (ht : t ∈ txs) (hmint : t.slp.type = .mint)
      (ho : o ∈ t.inputs) (hcur : (db.token t.slp.tokenid).mintBatonOutpoint = some o) :
      InLine db txs t
  | next {p t : Transaction} {o : Outpoint} (hp : InLine db txs p) (ht : t ∈ txs)
      (hmint : t.slp.type = .mint) (ho : o ∈ t.inputs) (htoken : p.slp.tokenid = t.slp.tokenid)
      (hb : p.batonOutput = some o) : InLine db txs t

theorem InLine.mint {db : Slpdb} {txs : List Transaction} {t : Transaction}
    (h : InLine db txs t) : t.slp.type = .mint := by
  cases h with
  | current _ hmint _ _ => exact hmint
  | next _ _ hmint _ _ _ => exact hmint

/-- The token has recorded the transaction and still holds its outputs. -/
structure Holding (db : Slpdb) (t : Transaction) : Prop where
  transactions : t.txid ∈ (db.token t.slp.tokenid).transactions
  utxos : ∀ o, t.tokenOutput o ≠ none → o ∈ (db.token t.slp.tokenid).utxos

/-- A GENESIS `g` and an unrelated transaction `t` of its token do not get in each
other's way. If `g` opens the token, `t` is no SEND of nothing. If `g` is repeated and
creates a baton, `t` is no MINT in line, unless the token has all of it already. -/
structure OrderFree (db : Slpdb) (txs : List Transaction) : Prop where
  opened : ∀ g ∈ txs, ∀ t ∈ txs, g.slp.type = .genesis → t.slp.tokenid = g.txid →
    Unrelated txs g t → g.txid ∉ db.tokens → ¬ t.SendsNothing
  repeated : ∀ g ∈ txs, ∀ t ∈ txs, g.slp.type = .genesis → t.slp.tokenid = g.txid →
    Unrelated txs g t → g.txid ∈ db.tokens → g.batonOutput ≠ none → db.InLine txs t →
      db.Holding t

/-! ## Any order of the block -/

/-- The store after the transactions `done` of a block were added. -/
structure Underway (L : Ledger) (db : Slpdb) (txs : List Transaction) (done : Set Transaction)
    (s : Slpdb) : Prop where
  keeps : s.Keeps L
  member : ∀ t ∈ done, L.T.lookup t.txid = some t
  tokens : ∀ t ∈ db.tokens, t ∈ s.tokens
  known : ∀ t ∈ s.tokens, t ∈ db.tokens ∨ ∃ g ∈ done, g.txid = t
  transactions : ∀ t x, x ∈ (db.token t).transactions → x ∈ (s.token t).transactions
  utxos : ∀ t o, o ∈ (db.token t).utxos → o ∈ (s.token t).utxos
  baton : ∀ {t o}, (s.token t).mintBatonOutpoint = some o → (∀ g ∈ done, g.txid ≠ t) →
    (db.token t).mintBatonOutpoint = some o ∨
      ∃ p, db.InLine txs p ∧ p.slp.tokenid = t ∧ p.batonOutput = some o

variable {txs : List Transaction} {done : Set Transaction} {s : Slpdb}

theorem Underway.refl (h : db.Keeps L) (txs : List Transaction) : Underway L db txs ∅ db where
  keeps := h
  member t ht := absurd ht (Set.notMem_empty t)
  tokens _ := id
  known _ := .inl
  transactions _ _ := id
  utxos _ _ := id
  baton ho _ := .inl ho

/-- What has not been added yet was known before the block if it is known. -/
theorem Underway.known_before (h : Underway L db txs done s) {g : Transaction}
    (hg : L.T.lookup g.txid = some g) (hnew : g ∉ done) :
    g.txid ∈ s.tokens ↔ g.txid ∈ db.tokens := by
  refine ⟨fun hmem => (h.known _ hmem).resolve_right ?_, h.tokens _⟩
  rintro ⟨g', hg', hid⟩
  have heq := h.member g' hg'
  rw [hid, hg, Option.some.injEq] at heq
  exact hnew (heq ▸ hg')

/-- A MINT that the store accepts is in line, as long as its GENESIS has not been added. -/
theorem Underway.inLine (h : Underway L db txs done s) {t : Transaction} (ht : t ∈ txs)
    (hmint : t.slp.type = .mint) (hacc : s.Accepts t)
    (hnew : ∀ g ∈ done, g.txid ≠ t.slp.tokenid) : db.InLine txs t := by
  obtain ⟨m, hm⟩ := SlpTransaction.type_eq_mint.mp hmint
  simp only [Accepts, hm] at hacc
  obtain ⟨-, o, ho, hcur⟩ := hacc
  rcases h.baton hcur hnew with hcur | ⟨p, hp, htoken, hb⟩
  · exact .current ht hmint ho hcur
  · exact .next hp ht hmint ho htoken hb

theorem Underway.step (h : Underway L db txs done s) {a : Transaction} (ha : a ∈ txs)
    (hL : L.T.lookup a.txid = some a) :
    Underway L db txs (insert a done) (s.addTransaction a) := by
  have hmember : ∀ t ∈ insert a done, L.T.lookup t.txid = some t := fun t ht =>
    ht.elim (fun heq => heq ▸ hL) (h.member t)
  by_cases hacc : s.Accepts a
  swap
  · rw [addTransaction_dropped hacc]
    exact
      { h with
        member := hmember
        known := fun t ht => (h.known t ht).imp_right fun ⟨g, hg, hid⟩ => ⟨g, .inr hg, hid⟩
        baton := fun ho hnew => h.baton ho fun g hg => hnew g (.inr hg) }
  have hid := (L.hydrated hL).genesis_tokenid
  have hrec := h.keeps.records (L.hydrated hL) hacc
  refine ⟨h.keeps.addTransaction hL, hmember, fun t ht => ?_, fun t ht => ?_, fun t x hx => ?_,
    fun t o ho => ?_, fun {t o} ho hnew => ?_⟩
  · exact (hrec.tokens t).mpr (.inr (h.tokens t ht))
  · have hold : t ∈ s.tokens → t ∈ db.tokens ∨ ∃ g ∈ insert a done, g.txid = t := fun ht =>
      (h.known t ht).imp_right fun ⟨g, hg, hgt⟩ => ⟨g, .inr hg, hgt⟩
    rcases (hrec.tokens t).mp ht with rfl | ht
    · rcases hacc.known with hg | hknown
      · exact .inr ⟨a, .inl rfl, (hid hg).symm⟩
      · exact hold hknown
    · exact hold ht
  · exact (hrec.transactions t x).mpr (.inr (h.transactions t x hx))
  · obtain ⟨u, hu⟩ := Finmap.mem_iff.mp (h.utxos t o ho)
    exact Finmap.mem_iff.mpr ⟨u, by rw [hrec.utxos, hu, Option.some_or]⟩
  · have hnew' : ∀ g ∈ done, g.txid ≠ t := fun g hg => hnew g (.inr hg)
    rw [hrec.baton] at ho
    split_ifs at ho with ht
    · rcases Option.or_eq_some_iff.mp ho with hb | ⟨-, ho⟩
      · rcases isAuthority_of_batonOutput hb with hg | hmint
        · exact absurd ((hid hg).symm.trans ht.symm) (hnew a (.inl rfl))
        · exact .inr ⟨a, h.inLine ha hmint hacc (ht ▸ hnew'), ht.symm, hb⟩
      · exact h.baton ho hnew'
    · exact h.baton ho hnew'

theorem Unrelated.symm {t u : Transaction} (h : Unrelated txs t u) : Unrelated txs u t :=
  ⟨h.2, h.1⟩

theorem Unrelated.not_spends (hmember : ∀ t ∈ txs, L.T.lookup t.txid = some t)
    {t u : Transaction} (h : Unrelated txs t u) (ht : t ∈ txs) (hu : u ∈ txs) :
    ∀ o ∈ u.inputs, o.txid ≠ t.txid := fun _ ho hot =>
  h.1 (.single (L.parent_of_spends hmember ht hu ho hot))

/-- A repeated GENESIS and a MINT in line can be swapped in an order-free block. -/
theorem Underway.swap_repeated (h : Underway L db txs done s) (hfree : db.OrderFree txs)
    (hmember : ∀ t ∈ txs, L.T.lookup t.txid = some t) {a c : Transaction} (ha : a ∈ txs)
    (hc : c ∈ txs) (hnew : a ∉ done) (hun : Unrelated txs a c) (hrep : s.Repeats a c) :
    (s.addTransaction a).addTransaction c = (s.addTransaction c).addTransaction a := by
  have hknown : a.txid ∈ s.tokens := by
    rw [← hrep.token]
    exact hrep.accepts.known.resolve_left (by simp [hrep.mint])
  have hline : db.InLine txs c := h.inLine hc hrep.mint hrep.accepts fun g hg hgt => by
    have heq := h.member g hg
    rw [hgt, hrep.token, hmember a ha, Option.some.injEq] at heq
    exact hnew (heq ▸ hg)
  have hhold := hfree.repeated a ha c hc hrep.genesis hrep.token hun
    ((h.known_before (hmember a ha) hnew).mp hknown) hrep.baton hline
  exact h.keeps.swap_repeated (hmember a ha) (hmember c hc) (hun.not_spends hmember ha hc) hrep
    (h.transactions _ _ hhold.transactions) fun o ho => h.utxos _ o (hhold.utxos o ho)

/-- Unrelated transactions of an order-free block can be swapped. -/
theorem Underway.swap (h : Underway L db txs done s) (hfree : db.OrderFree txs)
    (hmember : ∀ t ∈ txs, L.T.lookup t.txid = some t) {a c : Transaction} (ha : a ∈ txs)
    (hc : c ∈ txs) (hnewa : a ∉ done) (hnewc : c ∉ done) (hne : a ≠ c)
    (hun : Unrelated txs a c) :
    (s.addTransaction a).addTransaction c = (s.addTransaction c).addTransaction a := by
  by_cases hac : s.Repeats a c
  · exact h.swap_repeated hfree hmember ha hc hnewa hun hac
  by_cases hca : s.Repeats c a
  · exact (h.swap_repeated hfree hmember hc ha hnewc hun.symm hca).symm
  have hid : a.txid ≠ c.txid := fun heq => hne (L.txidsDetermine hmember a ha c hc heq)
  -- Neither opens the token for a SEND of nothing.
  have hopened : ∀ g ∈ txs, ∀ t ∈ txs, g ∉ done → Unrelated txs g t → g.slp.type = .genesis →
      t.slp.tokenid = g.txid → g.txid ∉ s.tokens → ¬ t.SendsNothing :=
    fun g hg t ht hnew hun htype htoken hunknown =>
      hfree.opened g hg t ht htype htoken hun fun hmem => hunknown (h.tokens _ hmem)
  refine h.keeps.swap (hmember a ha) (hmember c hc) hid ?_ ?_
    (h.keeps.one_baton (hmember a ha) (hmember c hc) hid hac hca)
  · exact h.keeps.accepts_addTransaction_iff (hmember a ha) (hmember c hc) hid
      (hun.not_spends hmember ha hc) (hopened a ha c hc hnewa hun) hac
  · exact h.keeps.accepts_addTransaction_iff (hmember c hc) (hmember a ha) hid.symm
      (hun.symm.not_spends hmember hc ha) (hopened c hc a ha hnewc hun.symm) hca

/-- A list of the same transactions has the same ancestors. -/
theorem ofList_congr {l : List Transaction} (hdet : TxidsDetermine txs)
    (hl : ∀ t, t ∈ l ↔ t ∈ txs) :
    (KeyedMap.ofList l : TransactionMap) = KeyedMap.ofList txs := by
  have hdet' : TxidsDetermine l := hdet.mono fun t ht => (hl t).mp ht
  refine KeyedMap.ext_lookup fun x => Option.ext fun t => ?_
  rw [KeyedMap.lookup_ofList hdet', KeyedMap.lookup_ofList hdet, hl]

/-- Listing the transactions of an order-free block with parents first leaves one and the
same store, whichever list that is. -/
theorem Keeps.foldl_addTransaction_eq (h : db.Keeps L) (hfree : db.OrderFree txs)
    (hmember : ∀ t ∈ txs, L.T.lookup t.txid = some t) {l l' : List Transaction}
    (hl : ∀ t, t ∈ l ↔ t ∈ txs) (hl' : ∀ t, t ∈ l' ↔ t ∈ txs)
    (hnodup : (l.map Transaction.txid).Nodup) (hnodup' : (l'.map Transaction.txid).Nodup)
    (hord : ParentsFirst l) (hord' : ParentsFirst l') :
    l.foldl Slpdb.addTransaction db = l'.foldl Slpdb.addTransaction db := by
  let r : Transaction → Transaction → Prop := fun t u =>
    Relation.TransGen (Parent (KeyedMap.ofList txs)) t.txid u.txid
  have hrespects : ∀ k : List Transaction, (∀ t, t ∈ k ↔ t ∈ txs) →
      (k.map Transaction.txid).Nodup → ParentsFirst k → Respects r k := by
    intro k hk hnodup hord
    have hpair := Ledger.pairwise_not_transGen hnodup
      (fun t ht => L.not_spends_self hmember ((hk t).mp ht)) hord
    rwa [ofList_congr (L.txidsDetermine hmember) hk] at hpair
  have hswap : Swappable Slpdb.addTransaction r {t | t ∈ txs} (Underway L db txs) :=
    { step := fun hs ha _ => hs.step ha (hmember _ ha)
      swap := fun hs ha hc hnewa hnewc hne hac hca =>
        hs.swap hfree hmember ha hc hnewa hnewc hne ⟨hac, hca⟩ }
  have hperm : l.Perm l' := (List.perm_ext_iff_of_nodup (.of_map _ hnodup)
    (.of_map _ hnodup')).mpr fun t => (hl t).trans (hl' t).symm
  exact hswap.foldl_eq hperm (hrespects l hl hnodup hord) (hrespects l' hl' hnodup' hord')
    (.of_map _ hnodup) (.refl h txs) fun t ht => ⟨(hl t).mp ht, Set.notMem_empty t⟩

end Slpdb
end SlpGraphSearch
