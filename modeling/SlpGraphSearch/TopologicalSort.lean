import SlpGraphSearch.Library.Postorder
import SlpGraphSearch.SlpRules
import SlpGraphSearch.TransactionEncoder

/-!
# Topological sorting

`topological_sort` visits the parents of a transaction before the transaction,
following the inputs whose ids are in the list.
-/
namespace SlpGraphSearch
open Library Transaction

/-- The graph that `topological_sort_internal` walks. -/
def inputGraph (transactions : TransactionMap) : DepGraph Txid Transaction where
  key := Transaction.txid
  deps tx := tx.inputs.map Outpoint.txid
  find := transactions.lookup

/-- `visited` is marked first, the transaction is pushed last, and the loop skips
visited ids and ids without a transaction. -/
def topologicalSortInternal (transactions : TransactionMap) (fuel : ℕ) (tx : Transaction)
    (st : Postorder Txid Transaction) : Option (Postorder Txid Transaction) :=
  (inputGraph transactions).visit fuel tx st

/-- One element of the list: sorted in unless it was visited. -/
def topologicalSortRoot (transactions : TransactionMap) (fuel : ℕ)
    (st : Postorder Txid Transaction) (tx : Transaction) : Option (Postorder Txid Transaction) :=
  if tx.txid ∈ st.visited then some st else topologicalSortInternal transactions fuel tx st

def topologicalSort (txList : List Transaction) : Except Failure (List Transaction) :=
  let transactions : TransactionMap := KeyedMap.ofList txList
  match txList.foldlM (topologicalSortRoot transactions (txList.length + 1)) ⟨∅, []⟩ with
  | none => .error .exhausted
  | some st => .ok st.stack

/-- No chain of inputs inside the list leads back to its start. -/
def AcyclicList (txs : List Transaction) : Prop :=
  ∀ x, ¬ Relation.TransGen (Parent (KeyedMap.ofList txs)) x x

theorem inputGraph_dep {transactions : TransactionMap} {x y : Txid} :
    (inputGraph transactions).Dep x y ↔ Parent transactions x y := by
  unfold DepGraph.Dep Parent inputGraph
  simp only [List.mem_map, KeyedMap.mem_iff]
  constructor
  · rintro ⟨t, ht, ho, hx⟩
    exact ⟨t, ht, hx, ho⟩
  · rintro ⟨t, ht, hx, ho⟩
    exact ⟨t, ht, ho, hx⟩

theorem topologicalSort_eq_ok {txs l : List Transaction} (h : topologicalSort txs = .ok l) :
    ∃ st, (inputGraph (KeyedMap.ofList txs)).sort (txs.length + 1) txs = some st ∧
      st.stack = l := by
  cases hst : txs.foldlM (topologicalSortRoot (KeyedMap.ofList txs) (txs.length + 1)) ⟨∅, []⟩ with
  | none =>
      rw [topologicalSort, hst] at h
      cases h
  | some st =>
      rw [topologicalSort, hst] at h
      exact ⟨st, hst, Except.ok.inj h⟩

/-- Nothing is made up and nothing comes twice, whether or not ids determine their
transactions. -/
theorem subset_of_topologicalSort {txs l : List Transaction} (h : topologicalSort txs = .ok l) :
    l ⊆ txs ∧ (l.map Transaction.txid).Nodup := by
  obtain ⟨st, hst, rfl⟩ := topologicalSort_eq_ok h
  have hfind : ∀ x y, (inputGraph (KeyedMap.ofList txs)).find x = some y → y ∈ txs := by
    intro x y hy
    rcases KeyedMap.lookup_foldl_emplace_cases hy with hy | ⟨-, hy⟩
    · simp at hy
    · exact List.mem_of_find?_eq_some hy
  refine ⟨DepGraph.sort_forall hfind (fun _ hx => hx) hst, ?_⟩
  exact DepGraph.sort_nodup (fun hy => KeyedMap.key_lookup hy) hst

/-- The result lists each transaction once, parents first if there is no cycle. -/
theorem topologicalSort_spec (txs : List Transaction) (hdet : TxidsDetermine txs) :
    ∃ l, topologicalSort txs = .ok l ∧ (l.map Transaction.txid).Nodup ∧
      (∀ t, t ∈ l ↔ t ∈ txs) ∧ (AcyclicList txs → ParentsFirst l) := by
  let G := inputGraph (KeyedMap.ofList txs)
  have hfind : ∀ {x t}, G.find x = some t ↔ t ∈ txs ∧ t.txid = x := KeyedMap.lookup_ofList hdet
  have hG : G.Keyed (txs.map Transaction.txid).toFinset :=
    { mem := fun h => by
        obtain ⟨ht, rfl⟩ := hfind.mp h
        exact List.mem_toFinset.mpr (List.mem_map_of_mem ht)
      key_eq := fun h => (hfind.mp h).2 }
  have hfuel : (txs.map Transaction.txid).toFinset.card < txs.length + 1 :=
    Nat.lt_succ_of_le ((List.toFinset_card_le _).trans_eq (List.length_map _))
  obtain ⟨st, hst, hext, hall, hord⟩ :=
    DepGraph.sort_spec hG (fun t ht => hfind.mpr ⟨ht, rfl⟩) hfuel
  have hmem : ∀ t, t ∈ st.stack ↔ t ∈ txs := by
    intro t
    constructor
    · exact fun ht => (hfind.mp (hext.found t ht)).1
    · intro ht
      obtain ⟨u, hu, hut⟩ := List.mem_map.mp (hall t ht)
      rwa [← hdet u (hfind.mp (hext.found u hu)).1 t ht hut]
  refine ⟨st.stack, ?_, hext.nodup, hmem, fun hacyc => ?_⟩
  · have hrun : txs.foldlM (topologicalSortRoot (KeyedMap.ofList txs) (txs.length + 1)) ⟨∅, []⟩ =
        some st := hst
    rw [topologicalSort, hrun]
  · have hordered := hord fun k hk => hacyc k (hk.lift id fun _ _ => inputGraph_dep.mp)
    refine (hordered.pairwise hext.nodup hext.found).imp fun {a b} hab o ho heq => hab ?_
    exact List.mem_map.mpr ⟨o, ho, heq⟩

/-- Positions in a parents-first list: what an element spends stands before it. -/
theorem ParentsFirst.lt_of_spends {l : List Transaction} (h : ParentsFirst l) {i j : ℕ}
    {t p : Transaction} (hi : l[i]? = some t) (hj : l[j]? = some p)
    (hself : ∀ o ∈ t.inputs, o.txid ≠ t.txid) {o : Outpoint} (ho : o ∈ t.inputs)
    (hp : p.txid = o.txid) : j < i := by
  have hpw := List.pairwise_iff_getElem.mp h
  have hil : i < l.length := (List.getElem?_eq_some_iff.mp hi).1
  have hjl : j < l.length := (List.getElem?_eq_some_iff.mp hj).1
  have hti : l[i] = t := (List.getElem?_eq_some_iff.mp hi).2
  have hpj : l[j] = p := (List.getElem?_eq_some_iff.mp hj).2
  by_contra hge
  have hle : i = j ∨ i < j := by omega
  cases hle with
  | inl heq =>
    subst heq
    have htp : t = p := hti.symm.trans hpj
    exact hself o ho (by rw [htp, hp])
  | inr hlt =>
    have hno := hpw i j hil hjl hlt
    rw [hti, hpj] at hno
    exact hno o ho hp.symm

theorem parent_of_input {txs : List Transaction} (hdet : TxidsDetermine txs) {t u : Transaction}
    (ht : t ∈ txs) (hu : u ∈ txs) {o : Outpoint} (ho : o ∈ u.inputs) (hot : o.txid = t.txid) :
    Parent (KeyedMap.ofList txs) t.txid u.txid := by
  have hlookup : ∀ {x}, x ∈ txs → (KeyedMap.ofList txs : TransactionMap).lookup x.txid = some x :=
    fun hx => (KeyedMap.lookup_ofList hdet).mpr ⟨hx, rfl⟩
  exact ⟨u, hlookup hu, KeyedMap.mem_iff.mpr ⟨t, hlookup ht⟩, o, ho, hot⟩

namespace AcyclicList

variable {txs l : List Transaction}

/-- No transaction of an acyclic list spends itself. -/
theorem not_self (hacyc : AcyclicList txs) (hdet : TxidsDetermine txs) {t : Transaction}
    (ht : t ∈ txs) : ∀ o ∈ t.inputs, o.txid ≠ t.txid := by
  intro o ho hself
  apply hacyc t.txid
  apply Relation.TransGen.single
  exact parent_of_input hdet ht ht ho hself

/-- Order and repetitions do not matter for cycles. -/
theorem of_mem_iff (hacyc : AcyclicList l) (hdet : TxidsDetermine txs)
    (hmem : ∀ t, t ∈ txs ↔ t ∈ l) : AcyclicList txs := by
  have hdetl : TxidsDetermine l := hdet.mono fun t ht => (hmem t).mpr ht
  have hparent : ∀ y z, Parent (KeyedMap.ofList txs) y z → Parent (KeyedMap.ofList l) y z := by
    intro y z h
    obtain ⟨t, ht, hy, o, ho, hoy⟩ := h
    obtain ⟨u, hu⟩ := KeyedMap.mem_iff.mp hy
    obtain ⟨htmem, rfl⟩ := (KeyedMap.lookup_ofList hdet).mp ht
    obtain ⟨humem, rfl⟩ := (KeyedMap.lookup_ofList hdet).mp hu
    exact parent_of_input hdetl ((hmem u).mp humem) ((hmem t).mp htmem) ho hoy
  intro x hcycle
  exact hacyc x (hcycle.lift id hparent)

end AcyclicList

/-- Whatever the order of the list and its repetitions, the sort ends with each txid once and
nothing else. Without a cycle each parent that is in the list stands before its child. -/
theorem topologicalSort_dependencyOrder (txs : List Transaction) (hdet : TxidsDetermine txs) :
    ∃ l, topologicalSort txs = .ok l ∧ (l.map Transaction.txid).Nodup ∧
      (∀ t, t ∈ l ↔ t ∈ txs) ∧
      (AcyclicList txs → ∀ (i : ℕ) (t : Transaction), l[i]? = some t → ∀ o ∈ t.inputs,
        o.txid ∈ txs.map Transaction.txid →
          ∃ j p, j < i ∧ l[j]? = some p ∧ p.txid = o.txid) := by
  obtain ⟨l, hsort, hnodup, hmem, hord⟩ := topologicalSort_spec txs hdet
  refine ⟨l, hsort, hnodup, hmem, ?_⟩
  intro hacyc i t hi o ho hin
  obtain ⟨p, hp, hpo⟩ := List.mem_map.mp hin
  obtain ⟨j, hj⟩ := List.mem_iff_getElem?.mp ((hmem p).mpr hp)
  have ht : t ∈ txs := (hmem t).mp (List.mem_of_getElem? hi)
  have hlt : j < i := (hord hacyc).lt_of_spends hi hj (hacyc.not_self hdet ht) ho hpo
  exact ⟨j, p, hlt, hj, hpo⟩

theorem topologicalSort_dependencyOrder_sample :
    ∃ l, topologicalSort [sampleSend, sampleGenesis, sampleSend] = .ok l ∧
      (l.map Transaction.txid).Nodup ∧ ∃ (i j : ℕ) (p : Transaction), j < i ∧
        l[i]? = some sampleSend ∧ l[j]? = some p ∧ p.txid = sampleGenesis.txid := by
  have hmem : ∀ t, t ∈ [sampleSend, sampleGenesis, sampleSend] ↔
      t ∈ [sampleGenesis, sampleSend] := by
    intro t
    simp only [List.mem_cons, List.not_mem_nil, or_false]
    grind
  have hboth : TxidsDetermine [sampleGenesis, sampleSend] := .of_nodup (by decide)
  have hdet : TxidsDetermine [sampleSend, sampleGenesis, sampleSend] :=
    hboth.mono fun t ht => (hmem t).mp ht
  have hacyc : AcyclicList [sampleGenesis, sampleSend] :=
    Ledger.acyclic_of_parentsFirst (by decide) (by decide) (by decide)
  obtain ⟨l, hsort, hnodup, hl, hord⟩ :=
    topologicalSort_dependencyOrder [sampleSend, sampleGenesis, sampleSend] hdet
  obtain ⟨i, hi⟩ := List.mem_iff_getElem?.mp ((hl sampleSend).mpr (by simp))
  obtain ⟨j, p, hlt, hj, hp⟩ := hord (hacyc.of_mem_iff hdet hmem) i sampleSend hi
    ⟨sampleGenesis.txid, 1⟩ (by decide) (by decide)
  exact ⟨l, hsort, hnodup, i, j, p, hlt, hi, hj, hp⟩

/-- A list that has its parents first already stays as it is, and repetitions after it are
left out. -/
theorem topologicalSort_parentsFirst {l rest : List Transaction} (hord : ParentsFirst l)
    (hself : ∀ t ∈ l, ∀ o ∈ t.inputs, o.txid ≠ t.txid) (hnodup : (l.map Transaction.txid).Nodup)
    (hrest : ∀ t ∈ rest, t ∈ l) : topologicalSort (l ++ rest) = .ok l := by
  let G := inputGraph (KeyedMap.ofList (l ++ rest))
  have hin : ∀ t ∈ l ++ rest, t ∈ l := fun t ht => (List.mem_append.mp ht).elim id (hrest t)
  have hdet : TxidsDetermine (l ++ rest) := (TxidsDetermine.of_nodup hnodup).mono hin
  have hordered : G.Ordered l := by
    intro pre y post heq k hk hz
    obtain ⟨z, hz⟩ := hz
    obtain ⟨hzmem, rfl⟩ := (KeyedMap.lookup_ofList hdet).mp hz
    obtain ⟨o, ho, hoz⟩ := List.mem_map.mp hk
    have hzl : z ∈ pre ++ y :: post := heq ▸ hin z hzmem
    have hlater := (List.pairwise_cons.mp (List.pairwise_append.mp (heq ▸ hord)).2.1).1
    rcases List.mem_append.mp hzl with hpre | hpost
    · exact List.mem_map_of_mem hpre
    · rcases List.mem_cons.mp hpost with rfl | hpost
      · exact absurd hoz (hself z (hin z hzmem) o ho)
      · exact absurd hoz (hlater z hpost o ho)
  have hsort : (l ++ rest).foldlM (topologicalSortRoot (KeyedMap.ofList (l ++ rest))
      ((l ++ rest).length + 1)) ⟨∅, []⟩ = some ⟨(l.map Transaction.txid).toFinset, l⟩ :=
    DepGraph.sort_ordered hordered hnodup fun t ht => List.mem_map_of_mem (hrest t ht)
  rw [topologicalSort, hsort]

end SlpGraphSearch
