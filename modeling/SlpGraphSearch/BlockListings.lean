import SlpGraphSearch.TokenOrder

/-!
# The listings of a block

`topological_sort` keeps every list that has its parents first. So wherever inputs do not
relate two SLP transactions, the block decides which of them the token store sees first.
-/
namespace SlpGraphSearch
open Library Transaction

/-- `p` is an ancestor of `t` among `txs`. -/
def Ancestor (txs : List Transaction) (p t : Transaction) : Prop :=
  Relation.TransGen (Parent (KeyedMap.ofList txs)) p.txid t.txid

/-- Transactions of `txs`, each once and after its parents in `txs`. -/
structure Listing (txs l : List Transaction) : Prop where
  member : ∀ t ∈ l, t ∈ txs
  nodup : (l.map Transaction.txid).Nodup
  ordered : ParentsFirst l
  closed : ∀ t ∈ l, ∀ p ∈ txs, ∀ o ∈ t.inputs, o.txid = p.txid → p ∈ l

variable {L : Ledger} {txs l m : List Transaction} {t : Transaction}

namespace Listing

theorem nil (txs : List Transaction) : Listing txs [] where
  member := by simp
  nodup := List.nodup_nil
  ordered := .nil
  closed := by simp

/-- More transactions go behind a listing, if it has the parents that do not come along. -/
theorem extend (h : Listing txs l) (hmember : ∀ t ∈ txs, L.T.lookup t.txid = some t)
    {C : Transaction → Prop} (hC : ∀ t ∈ txs, C t → ∀ p ∈ txs, ∀ o ∈ t.inputs,
      o.txid = p.txid → C p ∨ p ∈ l) :
    ∃ m, Listing txs (l ++ m) ∧ ∀ t, t ∈ m ↔ t ∈ txs ∧ C t ∧ t ∉ l := by
  classical
  have hrest : ∀ t ∈ txs.filter fun t => C t ∧ t ∉ l, L.T.lookup t.txid = some t := fun t ht =>
    hmember t (List.mem_filter.mp ht).1
  obtain ⟨m, -, hnodup, hmem, hord⟩ := Ledger.topologicalSort_spec hrest
  have hm : ∀ t, t ∈ m ↔ t ∈ txs ∧ C t ∧ t ∉ l := fun t => by simp [hmem]
  have hin : ∀ t ∈ l ++ m, t ∈ txs := fun t ht =>
    (List.mem_append.mp ht).elim (h.member t) fun ht => ((hm t).mp ht).1
  refine ⟨m, ⟨hin, ?_, ?_, fun t ht p hp o ho hop => ?_⟩, hm⟩
  · rw [List.map_append]
    refine h.nodup.append hnodup fun x hx hx' => ?_
    obtain ⟨t, ht, rfl⟩ := List.mem_map.mp hx
    obtain ⟨u, hu, hut⟩ := List.mem_map.mp hx'
    obtain ⟨hutxs, -, hnew⟩ := (hm u).mp hu
    exact hnew (L.txidsDetermine hmember u hutxs t (h.member t ht) hut ▸ ht)
  · refine h.ordered.append hord fun a ha b hb o ho hob => ?_
    obtain ⟨hbtxs, -, hnew⟩ := (hm b).mp hb
    exact hnew (h.closed a ha b hbtxs o ho hob)
  · by_cases hpl : p ∈ l
    · exact List.mem_append_left _ hpl
    rcases List.mem_append.mp ht with ht | ht
    · exact absurd (h.closed t ht p hp o ho hop) hpl
    · obtain ⟨httxs, htC, -⟩ := (hm t).mp ht
      have hpC := (hC t httxs htC p hp o ho hop).resolve_right hpl
      exact List.mem_append_right _ ((hm p).mpr ⟨hp, hpC, hpl⟩)

/-- A listing goes on to the end. -/
theorem complete (h : Listing txs l) (hmember : ∀ t ∈ txs, L.T.lookup t.txid = some t) :
    ∃ m, Listing txs (l ++ m) ∧ ∀ t ∈ txs, t ∈ l ++ m := by
  obtain ⟨m, hm, hmem⟩ := h.extend hmember (C := fun _ => True) fun _ _ _ _ _ _ _ _ => .inl trivial
  refine ⟨m, hm, fun t ht => ?_⟩
  by_cases htl : t ∈ l
  · exact List.mem_append_left _ htl
  · exact List.mem_append_right _ ((hmem t).mpr ⟨ht, trivial, htl⟩)

/-- A transaction goes behind a listing that has all its ancestors. -/
theorem concat (h : Listing txs l) (hmember : ∀ t ∈ txs, L.T.lookup t.txid = some t)
    (ht : t ∈ txs) (hnew : t ∉ l) (hpar : ∀ p ∈ txs, Ancestor txs p t → p ∈ l) :
    Listing txs (l ++ [t]) := by
  have hparent : ∀ p ∈ txs, ∀ o ∈ t.inputs, o.txid = p.txid → p ∈ l := fun p hp o ho hop =>
    hpar p hp (.single (L.parent_of_spends hmember hp ht ho hop))
  refine ⟨fun u hu => ?_, ?_, ?_, fun u hu p hp o ho hop => ?_⟩
  · exact (List.mem_append.mp hu).elim (h.member u) fun hu => List.mem_singleton.mp hu ▸ ht
  · rw [List.map_append]
    refine h.nodup.append (List.nodup_singleton _) fun x hx hx' => ?_
    obtain ⟨u, hu, rfl⟩ := List.mem_map.mp hx
    exact hnew (L.txidsDetermine hmember u (h.member u hu) t ht (List.mem_singleton.mp hx') ▸ hu)
  · refine h.ordered.append (List.pairwise_singleton _ _) fun a ha b hb o ho hob => ?_
    obtain rfl := List.mem_singleton.mp hb
    exact hnew (h.closed a ha b ht o ho hob)
  · refine List.mem_append_left _ ?_
    rcases List.mem_append.mp hu with hu | hu
    · exact h.closed u hu p hp o ho hop
    · obtain rfl := List.mem_singleton.mp hu
      exact hparent p hp o ho hop

/-- A listing takes in the ancestors of a transaction. -/
theorem ancestors (h : Listing txs l) (hmember : ∀ t ∈ txs, L.T.lookup t.txid = some t)
    (t : Transaction) :
    ∃ k, Listing txs k ∧ ∀ p, p ∈ k ↔ p ∈ l ∨ p ∈ txs ∧ Ancestor txs p t := by
  obtain ⟨m, hm, hmem⟩ := h.extend hmember (C := fun p => Ancestor txs p t)
    fun u hu hut p hp o ho hop => .inl (.head (L.parent_of_spends hmember hp hu ho hop) hut)
  refine ⟨l ++ m, hm, fun p => ?_⟩
  rw [List.mem_append, hmem]
  tauto

theorem of_append (h : Listing txs (l ++ m)) : Listing txs l where
  member t ht := h.member t (List.mem_append_left _ ht)
  nodup := by
    have hn := h.nodup
    rw [List.map_append] at hn
    exact hn.of_append_left
  ordered := (List.pairwise_append.mp h.ordered).1
  closed t ht p hp o ho hop := by
    rcases List.mem_append.mp (h.closed t (List.mem_append_left _ ht) p hp o ho hop) with hpl | hpm
    · exact hpl
    · exact absurd hop ((List.pairwise_append.mp h.ordered).2.2 t ht p hpm o ho)

/-- What stands before a transaction has its parents. -/
theorem parents (h : Listing txs (l ++ t :: m))
    (hmember : ∀ t ∈ txs, L.T.lookup t.txid = some t) :
    ∀ p ∈ txs, ∀ o ∈ t.inputs, o.txid = p.txid → p ∈ l := by
  intro p hp o ho hop
  have hupto : Listing txs (l ++ [t]) :=
    of_append (m := m) (by rwa [List.append_assoc, List.singleton_append])
  have hlast : t ∈ l ++ [t] := List.mem_append_right _ (List.mem_singleton.mpr rfl)
  rcases List.mem_append.mp (hupto.closed t hlast p hp o ho hop) with hpl | hpt
  · exact hpl
  · obtain rfl := List.mem_singleton.mp hpt
    exact absurd hop (L.not_spends_self hmember hp o ho)

theorem notMem (h : Listing txs (l ++ t :: m)) : t ∉ l := fun hmem => by
  have hn := h.nodup
  rw [List.map_append, List.map_cons, List.nodup_middle] at hn
  exact hn.notMem (List.mem_append_left _ (List.mem_map_of_mem hmem))

end Listing

/-- A listing of all of `txs`. -/
structure Whole (txs l : List Transaction) : Prop extends Listing txs l where
  all : ∀ t ∈ txs, t ∈ l

/-- A transaction can stand right behind its ancestors. -/
theorem Whole.exists_early (hmember : ∀ t ∈ txs, L.T.lookup t.txid = some t) (ht : t ∈ txs) :
    ∃ l m, Whole txs (l ++ t :: m) ∧ ∀ p ∈ l, Ancestor txs p t := by
  obtain ⟨l, hl, hmem⟩ := (Listing.nil txs).ancestors hmember t
  simp only [List.not_mem_nil, false_or] at hmem
  have hnew : t ∉ l := fun h => (L.part txs hmember).acyclic _ ((hmem t).mp h).2
  obtain ⟨m, hm, hall⟩ := (hl.concat hmember ht hnew fun p hp hpt =>
    (hmem p).mpr ⟨hp, hpt⟩).complete hmember
  rw [List.append_assoc, List.singleton_append] at hm hall
  exact ⟨l, m, ⟨hm, hall⟩, fun p hp => ((hmem p).mp hp).2⟩

/-- A transaction can stand right behind one that it is not related to. -/
theorem Whole.exists_behind (hmember : ∀ t ∈ txs, L.T.lookup t.txid = some t)
    {g : Transaction} (hg : g ∈ txs) (ht : t ∈ txs) (hne : t ≠ g)
    (hgt : ¬ Ancestor txs g t) (htg : ¬ Ancestor txs t g) :
    ∃ l m, Whole txs (l ++ g :: t :: m) := by
  have hacyc : ∀ u, ¬ Ancestor txs u u := fun u => (L.part txs hmember).acyclic u.txid
  obtain ⟨k, hk, hkmem⟩ := (Listing.nil txs).ancestors hmember g
  obtain ⟨l, hl, hmem⟩ := hk.ancestors hmember t
  simp only [hkmem, List.not_mem_nil, false_or] at hmem
  have hgl : g ∉ l := fun h => ((hmem g).mp h).elim (fun h => hacyc g h.2) fun h => hgt h.2
  have htl : t ∉ l := fun h => ((hmem t).mp h).elim (fun h => htg h.2) fun h => hacyc t h.2
  have hfirst : Listing txs (l ++ [g]) := hl.concat hmember hg hgl fun p hp hpg =>
    (hmem p).mpr (.inl ⟨hp, hpg⟩)
  have hnext : Listing txs (l ++ [g] ++ [t]) := hfirst.concat hmember ht (by simp [htl, hne])
    fun p hp hpt => List.mem_append_left _ ((hmem p).mpr (.inr ⟨hp, hpt⟩))
  obtain ⟨m, hm, hall⟩ := hnext.complete hmember
  simp only [List.append_assoc, List.singleton_append] at hm hall
  exact ⟨l, m, hm, hall⟩

/-- A block can be listed such that the token store gets its SLP transactions in a given
order that has parents first. -/
theorem Whole.exists_slpOrder (hmember : ∀ tx ∈ txs, L.T.lookup tx.txid = some tx)
    (hl : Whole (txs.filter fun tx => tx.slp.type ≠ .invalid) l) :
    ∃ txs', txs.Perm txs' ∧ slpOrder txs' = l := by
  have hin : ∀ t ∈ l, t ∈ txs ∧ t.slp.type ≠ .invalid := fun t ht => by
    simpa using hl.member t ht
  obtain ⟨l', hl', hsub⟩ := List.subperm_of_subset hl.nodup.of_map fun t ht => (hin t ht).1
  obtain ⟨rest, hrest⟩ := hsub.exists_perm_append
  have hperm : txs.Perm (l ++ rest) := hrest.trans (hl'.append_right rest)
  refine ⟨l ++ rest, hperm, ?_⟩
  have hfilter : l.filter (fun tx => tx.slp.type ≠ .invalid) = l :=
    List.filter_eq_self.mpr fun t ht => by simpa using (hin t ht).2
  have hagain : ∀ t ∈ rest.filter fun tx => tx.slp.type ≠ .invalid, t ∈ l := fun t ht => by
    obtain ⟨htrest, hslp⟩ := List.mem_filter.mp ht
    exact hl.all t (List.mem_filter.mpr ⟨hperm.mem_iff.mpr (List.mem_append_right _ htrest), hslp⟩)
  have hsort := topologicalSort_parentsFirst hl.ordered
    (fun t ht => L.not_spends_self hmember (hin t ht).1) hl.nodup hagain
  rw [slpOrder, List.filter_append, hfilter, hsort]

/-! ## Adding a listing to the token store -/

namespace Slpdb

variable {db s : Slpdb} {done : Set Transaction}

theorem Underway.foldl (h : Underway L db txs done s)
    (hmember : ∀ t ∈ txs, L.T.lookup t.txid = some t) (hl : ∀ t ∈ l, t ∈ txs) :
    Underway L db txs (done ∪ {t | t ∈ l}) (l.foldl Slpdb.addTransaction s) := by
  induction l generalizing done s with
  | nil => simpa using h
  | cons a l ih =>
      have ha := hl a List.mem_cons_self
      have hrest := ih (h.step ha (hmember a ha)) fun t ht => hl t (List.mem_cons_of_mem _ ht)
      have hdone : insert a done ∪ {t | t ∈ l} = done ∪ {t | t ∈ a :: l} := by
        ext t
        simp only [Set.mem_union, Set.mem_insert_iff, Set.mem_ofPred_eq, List.mem_cons]
        tauto
      exact hdone ▸ hrest

/-- What was not added is left alone. -/
theorem Keeps.foldl_others (h : db.Keeps L) (hmember : ∀ t ∈ l, L.T.lookup t.txid = some t)
    {x : Txid} (hx : x ∉ l.map Transaction.txid) (u : Tokenid) :
    (x ∈ ((l.foldl Slpdb.addTransaction db).token u).transactions ↔
      x ∈ (db.token u).transactions) ∧
    ∀ o : Outpoint, o.txid = x → ((l.foldl Slpdb.addTransaction db).token u).utxos.lookup o =
      (db.token u).utxos.lookup o := by
  induction l generalizing db with
  | nil => exact ⟨.rfl, fun _ _ => rfl⟩
  | cons a l ih =>
      obtain ⟨hxa, hxl⟩ := not_or.mp (mt List.mem_cons.mpr hx)
      have ha := hmember a List.mem_cons_self
      obtain ⟨htransactions, hutxos⟩ := ih (h.addTransaction ha)
        (fun t ht => hmember t (List.mem_cons_of_mem _ ht)) hxl
      rw [List.foldl_cons, htransactions]
      by_cases hacc : db.Accepts a
      swap
      · rw [addTransaction_dropped hacc] at hutxos ⊢
        exact ⟨.rfl, hutxos⟩
      have hrec := h.records (L.hydrated ha) hacc
      refine ⟨?_, fun o ho => ?_⟩
      · rw [hrec.transactions]
        exact or_iff_right fun heq => hxa heq.2
      · rw [hutxos o ho, hrec.utxos, tokenOutput_of_ne fun hoa => hxa (ho.symm.trans hoa),
          ite_self, Option.or_none]

/-- A transaction that the token accepts is recorded in the end. -/
theorem Keeps.foldl_accepted (h : db.Keeps L)
    (hmember : ∀ u ∈ l ++ t :: m, L.T.lookup u.txid = some u)
    (hacc : (l.foldl Slpdb.addTransaction db).Accepts t) :
    ((l ++ t :: m).foldl Slpdb.addTransaction db).Holding t := by
  have hbefore : ∀ u ∈ l, L.T.lookup u.txid = some u := fun u hu =>
    hmember u (List.mem_append_left _ hu)
  have ht := hmember t (List.mem_append_right _ List.mem_cons_self)
  have hkeeps := h.addTransactions hbefore
  have hrec := hkeeps.records (L.hydrated ht) hacc
  have hafter := (Underway.refl (hkeeps.addTransaction ht) m).foldl
    (fun u hu => hmember u (List.mem_append_right _ (List.mem_cons_of_mem _ hu))) fun _ hu => hu
  rw [List.foldl_append, List.foldl_cons]
  refine ⟨hafter.transactions _ _ ((hrec.transactions _ _).mpr (.inl ⟨rfl, rfl⟩)), fun o ho => ?_⟩
  refine hafter.utxos _ o (Finmap.mem_iff.mpr ?_)
  obtain ⟨u, hu⟩ := Option.ne_none_iff_exists'.mp ho
  rw [hrec.utxos, if_pos rfl, hu]
  cases ((l.foldl Slpdb.addTransaction db).token t.slp.tokenid).utxos.lookup o <;> simp

/-- A transaction that the token drops was recorded before if it is in the end. -/
theorem Keeps.foldl_dropped (h : db.Keeps L)
    (hmember : ∀ u ∈ l ++ t :: m, L.T.lookup u.txid = some u)
    (hnodup : ((l ++ t :: m).map Transaction.txid).Nodup)
    (hdrop : ¬ (l.foldl Slpdb.addTransaction db).Accepts t) (u : Tokenid) :
    (t.txid ∈ (((l ++ t :: m).foldl Slpdb.addTransaction db).token u).transactions ↔
      t.txid ∈ (db.token u).transactions) ∧
    ∀ o : Outpoint, o.txid = t.txid →
      (((l ++ t :: m).foldl Slpdb.addTransaction db).token u).utxos.lookup o =
        (db.token u).utxos.lookup o := by
  rw [List.map_append, List.map_cons] at hnodup
  have hothers := h.foldl_others (l := l ++ m) (x := t.txid) (u := u)
    (fun p hp => hmember p ((List.mem_append.mp hp).elim (List.mem_append_left _) fun hp =>
      List.mem_append_right _ (List.mem_cons_of_mem _ hp)))
    (by rw [List.map_append]; exact (List.nodup_middle.mp hnodup).notMem)
  rwa [List.foldl_append, List.foldl_cons, addTransaction_dropped hdrop, ← List.foldl_append]

/-- The baton stays where it is until its spender comes. -/
theorem Keeps.foldl_baton (h : db.Keeps L) (hmember : ∀ u ∈ l, L.T.lookup u.txid = some u)
    (ht : L.T.lookup t.txid = some t) (hnew : t ∉ l) {u : Tokenid}
    (hgenesis : ∀ g ∈ l, g.txid ≠ u) {o : Outpoint} (ho : o ∈ t.inputs)
    (hcur : (db.token u).mintBatonOutpoint = some o) :
    ((l.foldl Slpdb.addTransaction db).token u).mintBatonOutpoint = some o := by
  induction l generalizing db with
  | nil => exact hcur
  | cons a l ih =>
      have ha := hmember a List.mem_cons_self
      have hne : a.txid ≠ t.txid := fun heq => by
        rw [heq, ht, Option.some.injEq] at ha
        exact hnew (ha ▸ List.mem_cons_self)
      refine ih (h.addTransaction ha) (fun p hp => hmember p (List.mem_cons_of_mem _ hp))
        (fun hmem => hnew (List.mem_cons_of_mem _ hmem))
        (fun g hg => hgenesis g (List.mem_cons_of_mem _ hg)) ?_
      by_cases hacc : db.Accepts a
      swap
      · rwa [addTransaction_dropped hacc]
      rw [(h.records (L.hydrated ha) hacc).baton]
      split_ifs with hu
      · subst hu
        have hg : ¬ a.slp.type = .genesis := fun hg =>
          hgenesis a List.mem_cons_self ((L.hydrated ha).genesis_tokenid hg).symm
        have hnone : a.batonOutput = none := by
          by_contra hb
          have hin := hacc.baton (fun hg' => absurd hg' hg) hb hcur
          exact hne (L.spender_unique ha ht (h.baton hcur) hin ho)
        rw [hnone, Option.none_or, hcur]
      · exact hcur

theorem InLine.member (h : db.InLine txs t) : t ∈ txs := by
  cases h with
  | current ht _ _ _ => exact ht
  | next _ ht _ _ _ _ => exact ht

/-- A MINT in line finds the baton that it spends, unless its GENESIS was added first. -/
theorem InLine.finds_baton (h : db.InLine txs t) (hk : db.Keeps L)
    (hmember : ∀ t ∈ txs, L.T.lookup t.txid = some t) (hl : Listing txs (l ++ t :: m))
    (hgenesis : ∀ g ∈ l, g.txid ≠ t.slp.tokenid) :
    ∃ o ∈ t.inputs, ((l.foldl Slpdb.addTransaction db).token t.slp.tokenid).mintBatonOutpoint =
      some o := by
  induction h generalizing l m with
  | @current t o ht hmint ho hcur =>
      have hbefore : ∀ u ∈ l, L.T.lookup u.txid = some u := fun u hu =>
        hmember u (hl.member u (List.mem_append_left _ hu))
      exact ⟨o, ho, hk.foldl_baton hbefore (hmember t ht) hl.notMem hgenesis ho hcur⟩
  | @next p t o hp ht hmint ho htoken hb ih =>
      -- The MINT before it in line stands before it in the listing.
      have hpl := hl.parents hmember p hp.member o ho (batonOutput_txid hb)
      obtain ⟨before, between, rfl⟩ := List.append_of_mem hpl
      have hnew := hl.notMem
      rw [List.append_assoc, List.cons_append] at hl
      have hp' := hmember p hp.member
      obtain ⟨o', ho', hcur⟩ := ih hl fun g hg => htoken ▸ hgenesis g (List.mem_append_left _ hg)
      have hbefore := hk.addTransactions fun u hu =>
        hmember u (hl.member u (List.mem_append_left _ hu))
      obtain ⟨s, hs⟩ := SlpTransaction.type_eq_mint.mp hp.mint
      have hacc : (before.foldl Slpdb.addTransaction db).Accepts p := by
        simp only [Accepts, hs]
        exact ⟨mem_tokens_of_baton hcur, o', ho', hcur⟩
      have hmoved : (((before.foldl Slpdb.addTransaction db).addTransaction p).token
          t.slp.tokenid).mintBatonOutpoint = some o := by
        rw [(hbefore.records (L.hydrated hp') hacc).baton, if_pos htoken.symm, hb, Option.some_or]
      rw [List.foldl_append, List.foldl_cons]
      exact ⟨o, ho, (hbefore.addTransaction hp').foldl_baton
        (fun u hu => hmember u (hl.member u (by simp [hu]))) (hmember t ht)
        (fun hmem => hnew (by simp [hmem])) (fun g hg => hgenesis g (by simp [hg])) ho hmoved⟩

/-! ## Transactions that depend on the order -/

/-- The token accepts the transaction in one listing of the block and drops it in another. -/
structure Disputed (db : Slpdb) (txs : List Transaction) (t : Transaction) : Prop where
  accepted : ∃ l m, Whole txs (l ++ t :: m) ∧ (l.foldl Slpdb.addTransaction db).Accepts t
  dropped : ∃ l m, Whole txs (l ++ t :: m) ∧ ¬ (l.foldl Slpdb.addTransaction db).Accepts t

variable {g : Transaction}

/-- A GENESIS behind a listing is recorded. -/
theorem Keeps.records_genesis (h : db.Keeps L) (hl : ∀ u ∈ l, L.T.lookup u.txid = some u)
    (hg : L.T.lookup g.txid = some g) (hgenesis : g.slp.type = .genesis)
    (houtputs : 2 ≤ g.outputs.length) :
    Records (l.foldl Slpdb.addTransaction db) ((l ++ [g]).foldl Slpdb.addTransaction db) g := by
  obtain ⟨s, hs⟩ := SlpTransaction.type_eq_genesis.mp hgenesis
  have hopens : (l.foldl Slpdb.addTransaction db).Accepts g := by
    simp only [Accepts, hs]
    exact houtputs
  rw [List.foldl_append, List.foldl_cons, List.foldl_nil]
  exact (h.addTransactions hl).records (L.hydrated hg) hopens

/-- A SEND of nothing is disputed if an unrelated GENESIS opens its token. -/
theorem Keeps.disputed_of_opened (h : db.Keeps L)
    (hmember : ∀ t ∈ txs, L.T.lookup t.txid = some t) (hg : g ∈ txs) (ht : t ∈ txs)
    (hgenesis : g.slp.type = .genesis) (houtputs : 2 ≤ g.outputs.length)
    (htoken : t.slp.tokenid = g.txid) (hun : Unrelated txs g t) (hnew : g.txid ∉ db.tokens)
    (hnothing : t.SendsNothing) : db.Disputed txs t := by
  obtain ⟨s, hs, hsum⟩ := hnothing
  obtain ⟨sg, hsg⟩ := SlpTransaction.type_eq_genesis.mp hgenesis
  have hne : t ≠ g := fun heq => by
    rw [← heq, hs] at hsg
    cases hsg
  constructor
  · obtain ⟨l, m, hl⟩ := Whole.exists_behind hmember hg ht hne hun.1 hun.2
    have hl' : Whole txs ((l ++ [g]) ++ t :: m) := by simpa using hl
    have hbefore : ∀ u ∈ l, L.T.lookup u.txid = some u := fun u hu =>
      hmember u (hl.member u (List.mem_append_left _ hu))
    have hrec := h.records_genesis hbefore (hmember g hg) hgenesis houtputs
    refine ⟨l ++ [g], m, hl', ?_⟩
    simp only [Accepts, hs]
    refine ⟨(hrec.tokens _).mpr (.inl ?_), ?_⟩
    · rw [htoken, (L.hydrated (hmember g hg)).genesis_tokenid hgenesis]
    · rw [totalTokenOutputs_le_iff (L.hydrated (hmember t ht)) hs, hsum]
      exact Nat.zero_le _
  · obtain ⟨l, m, hl, hanc⟩ := Whole.exists_early hmember ht
    refine ⟨l, m, hl, fun hacc => ?_⟩
    have hunder := (Underway.refl h txs).foldl hmember fun u hu =>
      hl.member u (List.mem_append_left _ hu)
    simp only [Accepts, hs, htoken] at hacc
    have hgl : g ∉ ∅ ∪ {u | u ∈ l} := by simpa using fun hmem => hun.1 (hanc g hmem)
    exact hnew ((hunder.known_before (hmember g hg) hgl).mp hacc.1)

/-- A MINT in line is disputed if an unrelated GENESIS moves the baton back. -/
theorem Keeps.disputed_of_repeated (h : db.Keeps L)
    (hmember : ∀ t ∈ txs, L.T.lookup t.txid = some t) (hg : g ∈ txs)
    (hgenesis : g.slp.type = .genesis) (houtputs : 2 ≤ g.outputs.length)
    (htoken : t.slp.tokenid = g.txid) (hun : Unrelated txs g t) (hbaton : g.batonOutput ≠ none)
    (hline : db.InLine txs t) : db.Disputed txs t := by
  obtain ⟨s, hs⟩ := SlpTransaction.type_eq_mint.mp hline.mint
  obtain ⟨sg, hsg⟩ := SlpTransaction.type_eq_genesis.mp hgenesis
  obtain ⟨o, ho⟩ := Option.ne_none_iff_exists'.mp hbaton
  have hne : t ≠ g := fun heq => by
    rw [← heq, hs] at hsg
    cases hsg
  constructor
  · obtain ⟨l, m, hl, hanc⟩ := Whole.exists_early hmember hline.member
    have hfinds := hline.finds_baton h hmember hl.toListing fun u hu hid => by
      have hu' := hl.member u (List.mem_append_left _ hu)
      have heq := L.txidsDetermine hmember u hu' g hg (hid.trans htoken)
      exact hun.1 (heq ▸ hanc u hu)
    obtain ⟨o', ho', hcur⟩ := hfinds
    refine ⟨l, m, hl, ?_⟩
    simp only [Accepts, hs]
    exact ⟨mem_tokens_of_baton hcur, o', ho', hcur⟩
  · obtain ⟨l, m, hl⟩ := Whole.exists_behind hmember hg hline.member hne hun.1 hun.2
    have hl' : Whole txs ((l ++ [g]) ++ t :: m) := by simpa using hl
    have hbefore : ∀ u ∈ l, L.T.lookup u.txid = some u := fun u hu =>
      hmember u (hl.member u (List.mem_append_left _ hu))
    have hrec := h.records_genesis hbefore (hmember g hg) hgenesis houtputs
    have hid := (L.hydrated (hmember g hg)).genesis_tokenid hgenesis
    refine ⟨l ++ [g], m, hl', ?_⟩
    simp only [Accepts, hs, hrec.baton, htoken, hid, if_true, ho, Option.some_or]
    rintro ⟨-, o', ho', hcur⟩
    obtain rfl := Option.some.inj hcur
    exact hun.not_spends hmember hg hline.member o ho' (batonOutput_txid ho)

end Slpdb
end SlpGraphSearch
