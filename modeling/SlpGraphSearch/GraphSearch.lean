import SlpGraphSearch.Library.Run
import SlpGraphSearch.TransactionEncoder
import SlpGraphSearch.TxGraph

/-!
# Graph searches and ancestors

What the token graphs are for, stated on the inserted transactions: the parents of a
transaction inside its token, and its ancestors. A graph filled in batches links each
node to exactly these parents, as long as no parent comes in a later batch than its
child, so the searches follow ancestors and exclusion sets are closed under them.
-/
namespace SlpGraphSearch
open Library Transaction Relation

/-- `x` is spent by `y`, a transaction of the same token. -/
def TokenParent (T : TransactionMap) (x y : Txid) : Prop :=
  ∃ p t, T.lookup x = some p ∧ T.lookup y = some t ∧ p.slp.tokenid = t.slp.tokenid ∧
    ∃ o ∈ t.inputs, o.txid = x

theorem TokenParent.mono {T U : TransactionMap}
    (h : ∀ {x t}, T.lookup x = some t → U.lookup x = some t) {x y : Txid}
    (hxy : TokenParent T x y) : TokenParent U x y := by
  obtain ⟨p, t, hp, ht, hrest⟩ := hxy
  exact ⟨p, t, h hp, h ht, hrest⟩

/-- A proper ancestor inside the token. -/
def TokenAncestor (T : TransactionMap) (x y : Txid) : Prop := TransGen (TokenParent T) x y

namespace TxGraph

/-- Consecutive calls of `insert_token_data`. -/
def insertCalls (g : TxGraph) (calls : List (Tokenid × List Transaction)) : TxGraph :=
  calls.foldl (fun g call => (g.insertTokenData call.1 call.2).2) g

/-- The transactions of the calls; of those with one id, the first counts. -/
def insertedTxs (calls : List (Tokenid × List Transaction)) : TransactionMap :=
  .ofList (calls.flatMap Prod.snd)

/-- Each transaction is passed under its own token id. -/
def OwnToken (calls : List (Tokenid × List Transaction)) : Prop :=
  ∀ call ∈ calls, ∀ tx ∈ call.2, tx.slp.tokenid = call.1

instance (calls : List (Tokenid × List Transaction)) : Decidable (OwnToken calls) :=
  inferInstanceAs (Decidable (∀ call ∈ calls, ∀ tx ∈ call.2, tx.slp.tokenid = call.1))

/-- No parent comes in a later call than its child. -/
def ParentsFirst (calls : List (Tokenid × List Transaction)) : Prop :=
  ∀ before call after, calls = before ++ call :: after → ∀ tx ∈ call.2, ∀ x,
    TokenParent (insertedTxs calls) x tx.txid → x ∈ insertedTxs (before ++ [call])

/-- `build_exclusion_set` for each id, on one set. -/
def excludeAll (g : TxGraph) (exclude : List Txid) : Except Failure (Finset NodePtr) :=
  exclude.foldlM (fun seen x => do .ok (← g.buildExclusionSet x seen).2) ∅

/-! ## The first of equal ids -/

theorem insertNode_known (tokenid : Tokenid) {st : FirstPass} {x : Txid}
    (hx : x ∈ st.txidToToken) (tx : Transaction) :
    x ∈ (insertNode tokenid st tx).txidToToken ∧
      (insertNode tokenid st tx).graph.lookup x = st.graph.lookup x := by
  unfold insertNode
  split_ifs with htx
  · exact ⟨hx, rfl⟩
  · have hne : x ≠ tx.txid := fun heq => htx (heq ▸ hx)
    obtain ⟨t, ht⟩ := Finmap.mem_iff.mp hx
    refine ⟨Finmap.mem_iff.mpr ⟨t, ?_⟩, ?_⟩
    · rw [HashMap.lookup_emplace, if_neg hne, ht]
    · rw [HashMap.lookup_emplace, if_neg hne]

theorem foldl_insertNode_known {tokenid : Tokenid} {st : FirstPass} {x : Txid}
    (hx : x ∈ st.txidToToken) (txs : List Transaction) :
    (txs.foldl (insertNode tokenid) st).graph.lookup x = st.graph.lookup x := by
  induction txs generalizing st with
  | nil => rfl
  | cons tx txs ih =>
      obtain ⟨hx', hgraph⟩ := insertNode_known tokenid hx tx
      rw [List.foldl_cons, ih hx', hgraph]

/-- A new node holds the first transaction with its id. -/
theorem foldl_insertNode_new {tokenid : Tokenid} {st : FirstPass} {x : Txid}
    (hx : x ∉ st.txidToToken) (hgraph : x ∉ st.graph) (txs : List Transaction) :
    (txs.foldl (insertNode tokenid) st).graph.lookup x =
      (txs.find? fun tx => tx.txid = x).map fun tx => ⟨[], tx.serialized⟩ := by
  induction txs generalizing st with
  | nil => exact Finmap.lookup_eq_none.mpr hgraph
  | cons tx txs ih =>
      rw [List.foldl_cons, List.find?_cons]
      by_cases htx : tx.txid = x
      · subst htx
        have hst : insertNode tokenid st tx = _ := if_neg hx
        have hmem : tx.txid ∈ (insertNode tokenid st tx).txidToToken := by
          rw [hst]
          exact Finmap.mem_iff.mpr ⟨_, by rw [HashMap.lookup_emplace, if_pos rfl]⟩
        rw [foldl_insertNode_known hmem, hst, HashMap.lookup_emplace, if_pos rfl,
          Finmap.lookup_eq_none.mpr hgraph]
        simp
      · have hsplit : x ∉ (insertNode tokenid st tx).txidToToken ∧
            x ∉ (insertNode tokenid st tx).graph := by
          unfold insertNode
          split_ifs
          · exact ⟨hx, hgraph⟩
          · rw [← Finmap.lookup_eq_none, ← Finmap.lookup_eq_none]
            simp only [HashMap.lookup_emplace, if_neg (Ne.symm htx)]
            exact ⟨Finmap.lookup_eq_none.mpr hx, Finmap.lookup_eq_none.mpr hgraph⟩
        rw [ih hsplit.1 hsplit.2]
        simp [htx]

theorem txdata_foldl_linkNode (inputMap : HashMap Bytes (List Txid)) (latest : List Txid)
    (graph : HashMap Txid GraphNode) (x : Txid) :
    ((latest.foldl (linkNode inputMap) graph).lookup x).map GraphNode.txdata =
      (graph.lookup x).map GraphNode.txdata := by
  induction latest generalizing graph with
  | nil => rfl
  | cons y latest ih =>
      rw [List.foldl_cons, ih, lookup_linkNode]
      split_ifs
      · rw [Option.map_map]
        rfl
      · rfl

theorem Wf.graph_known {g : TxGraph} (hg : g.Wf) {tokenid : Tokenid} {x : Txid}
    (hx : x ∈ ((g.tokens.lookup tokenid).getD ⟨tokenid, ∅⟩).graph) : x ∈ g.txidToToken := by
  obtain ⟨node, hnode⟩ := Finmap.mem_iff.mp hx
  refine Finmap.mem_iff.mpr ⟨tokenid, (hg.token_iff x tokenid).mpr ⟨node, ?_⟩⟩
  cases htoken : g.tokens.lookup tokenid with
  | none => simp [htoken, Finmap.lookup_empty] at hnode
  | some token => simpa [deref, htoken] using hnode

/-- A new node links the inputs of the first transaction with its id. -/
theorem Wf.insertTokenData_first {g : TxGraph} (hg : g.Wf) (tokenid : Tokenid)
    {txs : List Transaction} (hhyd : ∀ tx ∈ txs, tx.Hydrated) {x : Txid}
    (hx : x ∉ g.txidToToken) {tx : Transaction}
    (htx : txs.find? (fun tx => tx.txid = x) = some tx) :
    (g.insertTokenData tokenid txs).2.deref ⟨tokenid, x⟩ =
      some ⟨(tx.inputs.map Outpoint.txid).filter fun i =>
        (g.insertTokenData tokenid txs).2.txidToToken.lookup i = some tokenid, tx.serialized⟩ := by
  have hins := hg.insertTokenData tokenid hhyd
  have htxmem := List.mem_of_find?_eq_some htx
  have hxid : tx.txid = x := by simpa using List.find?_some htx
  obtain ⟨u, hu, -, hnode⟩ :=
    hins.new_node x hx ((hins.mem_iff x).mpr (.inr ⟨tx, htxmem, hxid⟩))
  have hdata : ((g.insertTokenData tokenid txs).2.deref ⟨tokenid, x⟩).map GraphNode.txdata =
      some tx.serialized := by
    simp only [TxGraph.insertTokenData, deref, HashMap.lookup_insert, if_true, Option.bind_some]
    rw [txdata_foldl_linkNode, foldl_insertNode_new hx fun h => hx (hg.graph_known h), htx]
    rfl
  rw [hnode, Option.map_some, Option.some.injEq] at hdata
  rw [hnode, (hhyd u hu).eq_of_serialized (hhyd tx htxmem) hdata]

/-! ## Graphs of inserted transactions -/

/-- The graph holds the transactions of `T`, each under its token and linked to its
parents. -/
structure Represents (g : TxGraph) (T : TransactionMap) : Prop where
  wf : g.Wf
  mem_iff : ∀ x, x ∈ g.txidToToken ↔ x ∈ T
  token : ∀ {x t}, T.lookup x = some t → g.txidToToken.lookup x = some t.slp.tokenid
  node : ∀ {x t}, T.lookup x = some t → ∃ node, g.deref ⟨t.slp.tokenid, x⟩ = some node ∧
    node.txdata = t.serialized ∧ ∀ i, i ∈ node.inputs ↔ TokenParent T i x

theorem Represents.empty : TxGraph.empty.Represents ∅ where
  wf := Wf.empty
  mem_iff x := iff_of_false Finmap.notMem_empty (KeyedMap.notMem_empty x)
  token h := by simp at h
  node h := by simp at h

theorem Represents.insertTokenData {g : TxGraph} {T : TransactionMap} (h : g.Represents T)
    {tokenid : Tokenid} {txs : List Transaction} (hhyd : ∀ tx ∈ txs, tx.Hydrated)
    (hown : ∀ tx ∈ txs, tx.slp.tokenid = tokenid)
    (hpar : ∀ x ∈ T, ∀ i, TokenParent (txs.foldl KeyedMap.emplace T) i x → i ∈ T) :
    (g.insertTokenData tokenid txs).2.Represents (txs.foldl KeyedMap.emplace T) := by
  have hins := h.wf.insertTokenData tokenid hhyd
  set g' := (g.insertTokenData tokenid txs).2 with hg'
  set T' := txs.foldl KeyedMap.emplace T with hT'
  have hold : ∀ {x t}, T.lookup x = some t → T'.lookup x = some t := fun ht => by
    rw [hT', KeyedMap.lookup_foldl_emplace, ht, Option.some_or]
  have hcases : ∀ {x t}, T'.lookup x = some t → T.lookup x = some t ∨
      x ∉ T ∧ txs.find? (fun tx => tx.txid = x) = some t := KeyedMap.lookup_foldl_emplace_cases
  have hmem : ∀ x, x ∈ g'.txidToToken ↔ x ∈ T' := fun x => by
    rw [hins.mem_iff, h.mem_iff, hT', KeyedMap.mem_foldl_emplace]
  have htoken : ∀ {x t}, T'.lookup x = some t →
      g'.txidToToken.lookup x = some t.slp.tokenid := by
    intro x t ht
    rcases hcases ht with ht' | ⟨hx, ht'⟩
    · rw [hins.old_token x ((h.mem_iff x).mpr (KeyedMap.mem_iff.mpr ⟨t, ht'⟩)), h.token ht']
    · rw [hins.new_token x (fun hk => hx ((h.mem_iff x).mp hk))
        ((hmem x).mpr (KeyedMap.mem_iff.mpr ⟨t, ht⟩)),
        hown t (List.mem_of_find?_eq_some ht')]
  refine ⟨hins.wf, hmem, htoken, fun {x t} ht => ?_⟩
  rcases hcases ht with ht' | ⟨hx, ht'⟩
  · obtain ⟨node, hnode, hdata, hinputs⟩ := h.node ht'
    have hxT : x ∈ T := KeyedMap.mem_iff.mpr ⟨t, ht'⟩
    refine ⟨node, by rw [hins.old_node _ ((h.mem_iff x).mpr hxT), hnode], hdata, fun i => ?_⟩
    rw [hinputs]
    refine ⟨fun hi => hi.mono hold, fun hi => ?_⟩
    obtain ⟨q, hq⟩ := KeyedMap.mem_iff.mp (hpar x hxT i hi)
    obtain ⟨p, u, hp, hu, hrest⟩ := hi
    rw [hold hq, Option.some.injEq] at hp
    rw [ht, Option.some.injEq] at hu
    exact ⟨p, u, hp ▸ hq, hu ▸ ht', hrest⟩
  · have htid := hown t (List.mem_of_find?_eq_some ht')
    have hnode := h.wf.insertTokenData_first tokenid hhyd
      (fun hk => hx ((h.mem_iff x).mp hk)) ht'
    refine ⟨_, by rw [htid]; exact hnode, rfl, fun i => ?_⟩
    rw [List.mem_filter, decide_eq_true_eq, List.mem_map, ← hg']
    constructor
    · rintro ⟨⟨o, ho, rfl⟩, hi⟩
      obtain ⟨p, hp⟩ := KeyedMap.mem_iff.mp ((hmem o.txid).mp (Finmap.mem_iff.mpr ⟨_, hi⟩))
      rw [htoken hp, Option.some.injEq] at hi
      exact ⟨p, t, hp, ht, hi.trans htid.symm, o, ho, rfl⟩
    · rintro ⟨p, u, hp, hu, hsame, o, ho, rfl⟩
      rw [ht, Option.some.injEq] at hu
      subst hu
      exact ⟨⟨o, ho, rfl⟩, by rw [htoken hp, hsame, htid]⟩

theorem insertedTxs_append (before after : List (Tokenid × List Transaction)) :
    insertedTxs (before ++ after) = (after.flatMap Prod.snd).foldl KeyedMap.emplace
      (insertedTxs before) := by
  rw [insertedTxs, insertedTxs, KeyedMap.ofList, KeyedMap.ofList, List.flatMap_append,
    List.foldl_append]

theorem lookup_insertedTxs_append {before : List (Tokenid × List Transaction)} {x : Txid}
    {t : Transaction} (h : (insertedTxs before).lookup x = some t)
    (after : List (Tokenid × List Transaction)) :
    (insertedTxs (before ++ after)).lookup x = some t := by
  rw [insertedTxs_append, KeyedMap.lookup_foldl_emplace, h, Option.some_or]

theorem mem_insertedTxs {calls : List (Tokenid × List Transaction)} {x : Txid}
    (h : x ∈ insertedTxs calls) : ∃ call ∈ calls, ∃ tx ∈ call.2, tx.txid = x := by
  rw [insertedTxs, KeyedMap.ofList, KeyedMap.mem_foldl_emplace] at h
  obtain ⟨tx, htx, hid⟩ := h.resolve_left (KeyedMap.notMem_empty x)
  obtain ⟨call, hcall, htx⟩ := List.mem_flatMap.mp htx
  exact ⟨call, hcall, tx, htx, hid⟩

/-- A run of calls from the empty graph. -/
theorem represents_insertCalls {calls : List (Tokenid × List Transaction)}
    (hhyd : ∀ call ∈ calls, ∀ tx ∈ call.2, tx.Hydrated) (hown : OwnToken calls)
    (hpar : ParentsFirst calls) :
    (TxGraph.empty.insertCalls calls).Represents (insertedTxs calls) := by
  -- The parents of what a prefix inserted were inserted by that prefix.
  have hprefix : ∀ before after, calls = before ++ after →
      (TxGraph.empty.insertCalls before).Represents (insertedTxs before) := by
    intro before
    induction before using List.reverseRecOn with
    | nil => exact fun _ _ => Represents.empty
    | append_singleton before call ih =>
        intro after hcalls
        rw [List.append_assoc, List.singleton_append] at hcalls
        have hcall : call ∈ calls := by simp [hcalls]
        have hstep :=
          (ih (call :: after) hcalls).insertTokenData (hhyd call hcall) (hown call hcall)
        rw [insertCalls, List.foldl_append, insertedTxs_append]
        simp only [List.foldl_cons, List.foldl_nil, List.flatMap_cons, List.flatMap_nil,
          List.append_nil]
        refine hstep fun x hx i hi => ?_
        obtain ⟨call', hcall', tx, htx, rfl⟩ := mem_insertedTxs hx
        obtain ⟨before', after', rfl⟩ := List.append_of_mem hcall'
        have hi' : TokenParent (insertedTxs calls) i tx.txid := by
          refine hi.mono fun {y t} ht => ?_
          have hprefix :
              (insertedTxs ((before' ++ call' :: after') ++ [call])).lookup y = some t := by
            rw [insertedTxs_append]
            simpa only [List.flatMap_cons, List.flatMap_nil, List.append_nil] using ht
          have hfull := lookup_insertedTxs_append hprefix after
          rwa [List.append_assoc, List.singleton_append, ← hcalls] at hfull
        have hin := hpar before' call' (after' ++ call :: after)
          (by rw [hcalls, List.append_assoc, List.cons_append]) tx htx i hi'
        obtain ⟨t, ht⟩ := KeyedMap.mem_iff.mp hin
        have hlast := lookup_insertedTxs_append ht after'
        rw [List.append_assoc, List.singleton_append] at hlast
        exact KeyedMap.mem_iff.mpr ⟨t, hlast⟩
  exact hprefix calls [] (List.append_nil _).symm

/-! ## Links are parents -/

/-- The pointer to the node of a known transaction. -/
def Known (g : TxGraph) (p : NodePtr) : Prop := g.txidToToken.lookup p.txid = some p.tokenid

theorem Known.ext {g : TxGraph} {p q : NodePtr} (hp : g.Known p) (hq : g.Known q)
    (h : p.txid = q.txid) : p = q := by
  have htoken : some p.tokenid = some q.tokenid := by rw [← hp, ← hq, h]
  cases p
  cases q
  simp_all

variable {g : TxGraph} {T : TransactionMap}

theorem Represents.known_iff (h : g.Represents T) {p : NodePtr} :
    g.Known p ↔ ∃ t, T.lookup p.txid = some t ∧ t.slp.tokenid = p.tokenid := by
  constructor
  · intro hp
    obtain ⟨t, ht⟩ := KeyedMap.mem_iff.mp ((h.mem_iff _).mp (Finmap.mem_iff.mpr ⟨_, hp⟩))
    exact ⟨t, ht, Option.some.inj ((h.token ht).symm.trans hp)⟩
  · rintro ⟨t, ht, htoken⟩
    rw [Known, h.token ht, htoken]

/-- The links of a node lead to the parents. -/
theorem Represents.mem_nodeInputs (h : g.Represents T) {p q : NodePtr} (hp : g.Known p) :
    q ∈ g.nodeInputs p ↔ g.Known q ∧ TokenParent T q.txid p.txid := by
  obtain ⟨t, ht, htoken⟩ := h.known_iff.mp hp
  obtain ⟨node, hnode, -, hinputs⟩ := h.node ht
  rw [htoken] at hnode
  have hlinks : g.nodeInputs p = node.inputs.map fun i => ⟨p.tokenid, i⟩ := by
    rw [nodeInputs, hnode]
  rw [hlinks, List.mem_map]
  constructor
  · rintro ⟨i, hi, rfl⟩
    exact ⟨h.wf.linked hnode i hi, (hinputs i).mp hi⟩
  · rintro ⟨hq, hpar⟩
    refine ⟨q.txid, (hinputs _).mpr hpar, ?_⟩
    have hlinked := h.wf.linked hnode q.txid ((hinputs _).mpr hpar)
    exact Known.ext (g := g) hlinked hq rfl

/-- Following links leads to the ancestors. -/
theorem Represents.reach_iff (h : g.Represents T) {p q : NodePtr} (hp : g.Known p) :
    ReflTransGen (fun a b => b ∈ g.nodeInputs a) p q ↔
      g.Known q ∧ (q = p ∨ TokenAncestor T q.txid p.txid) := by
  constructor
  · intro hreach
    induction hreach with
    | refl => exact ⟨hp, .inl rfl⟩
    | tail _ hlink ih =>
        obtain ⟨hb, hrest⟩ := ih
        obtain ⟨hc, hpar⟩ := (h.mem_nodeInputs hb).mp hlink
        refine ⟨hc, .inr ?_⟩
        rcases hrest with rfl | hanc
        · exact .single hpar
        · exact .head hpar hanc
  · rintro ⟨hq, rfl | hanc⟩
    · exact .refl
    · obtain ⟨x, hx⟩ : ∃ x, x = q.txid := ⟨_, rfl⟩
      rw [← hx] at hanc
      induction hanc using TransGen.head_induction_on generalizing q with
      | single hpar => exact .single ((h.mem_nodeInputs hp).mpr ⟨hq, hx ▸ hpar⟩)
      | @head x y hpar _ ih =>
          obtain ⟨u, t, hu, ht, hrest⟩ := hpar
          have hb : g.Known ⟨t.slp.tokenid, y⟩ := h.known_iff.mpr ⟨t, ht, rfl⟩
          refine (ih hb rfl).tail ((h.mem_nodeInputs hb).mpr ⟨hq, ?_⟩)
          exact hx ▸ ⟨u, t, hu, ht, hrest⟩

/-! ## Exclusion sets -/

/-- The exclusion set of the ids `exclude`: those inserted and their ancestors. -/
def Excludes (g : TxGraph) (T : TransactionMap) (exclude : List Txid) (seen : Finset NodePtr) :
    Prop :=
  ∀ p, p ∈ seen ↔ g.Known p ∧
    ∃ e ∈ exclude, e ∈ T ∧ (p.txid = e ∨ TokenAncestor T p.txid e)

theorem Excludes.closed (h : g.Represents T) {exclude : List Txid} {seen : Finset NodePtr}
    (hseen : g.Excludes T exclude seen) : ∀ p ∈ seen, ∀ q ∈ g.nodeInputs p, q ∈ seen := by
  intro p hp q hq
  obtain ⟨hknown, e, he, heT, hanc⟩ := (hseen p).mp hp
  obtain ⟨hq', hpar⟩ := (h.mem_nodeInputs hknown).mp hq
  refine (hseen q).mpr ⟨hq', e, he, heT, .inr ?_⟩
  rcases hanc with rfl | hanc
  · exact .single hpar
  · exact .head hpar hanc

theorem Represents.ptr (h : g.Represents T) {x : Txid} {t : Transaction}
    (ht : T.lookup x = some t) : g.Known ⟨t.slp.tokenid, x⟩ ∧
      ∃ node, g.deref ⟨t.slp.tokenid, x⟩ = some node ∧ node.txdata = t.serialized := by
  obtain ⟨node, hnode, hdata, -⟩ := h.node ht
  exact ⟨h.known_iff.mpr ⟨t, ht, rfl⟩, node, hnode, hdata⟩

theorem Represents.notIndexed (h : g.Represents T) {x : Txid} (hx : x ∉ T) :
    g.txidToToken.lookup x = none :=
  Finmap.lookup_eq_none.mpr fun hk => hx ((h.mem_iff x).mp hk)

theorem Represents.buildExclusionSet (h : g.Represents T) {exclude : List Txid}
    {seen : Finset NodePtr} (hseen : g.Excludes T exclude seen) (x : Txid) :
    ∃ b seen', g.buildExclusionSet x seen = .ok (b, seen') ∧
      g.Excludes T (exclude ++ [x]) seen' := by
  have hsplit : ∀ p : NodePtr, (∃ e ∈ exclude ++ [x], e ∈ T ∧
      (p.txid = e ∨ TokenAncestor T p.txid e)) ↔
      (∃ e ∈ exclude, e ∈ T ∧ (p.txid = e ∨ TokenAncestor T p.txid e)) ∨
        x ∈ T ∧ (p.txid = x ∨ TokenAncestor T p.txid x) := fun p => by
    simp only [List.mem_append, List.mem_singleton, or_and_right, exists_or, exists_eq_left]
  cases ht : T.lookup x with
  | none =>
      have hx : x ∉ T := KeyedMap.lookup_eq_none.mp ht
      refine ⟨false, seen, by rw [TxGraph.buildExclusionSet, h.notIndexed hx], fun p => ?_⟩
      rw [hseen p, hsplit, or_iff_left fun hp => hx hp.1]
  | some t =>
      have hx : x ∈ T := KeyedMap.mem_iff.mpr ⟨t, ht⟩
      obtain ⟨hknown, node, hnode, -⟩ := h.ptr ht
      obtain ⟨s, hs, -, hsseen, -⟩ := h.wf.searchFrom_closed (hseen.closed h) ⟨t.slp.tokenid, x⟩
      refine ⟨true, s.seen, ?_, fun p => ?_⟩
      · rw [TxGraph.buildExclusionSet, h.token ht]
        simp only [hnode, hs, bind, Except.bind]
      · rw [hsseen, hseen p, h.reach_iff hknown, hsplit, ← and_or_left]
        refine and_congr_right fun hp => or_congr_right ?_
        rw [and_iff_right hx]
        refine or_congr_left ⟨fun heq => by rw [heq], fun heq => hp.ext hknown heq⟩

theorem Represents.excludeAll (h : g.Represents T) (exclude : List Txid) :
    ∃ seen, g.excludeAll exclude = .ok seen ∧ g.Excludes T exclude seen := by
  induction exclude using List.reverseRecOn with
  | nil => exact ⟨∅, rfl, fun p => by simp⟩
  | append_singleton exclude x ih =>
      obtain ⟨seen, hrun, hseen⟩ := ih
      obtain ⟨b, seen', hstep, hseen'⟩ := h.buildExclusionSet hseen x
      refine ⟨seen', foldlM_concat.mpr ⟨seen, hrun, ?_⟩, hseen'⟩
      simp only [hstep, bind, Except.bind]

/-! ## The search -/

/-- Different nodes hold different bytes. -/
theorem Wf.deref_inj (hg : g.Wf) {p q : NodePtr} {node node' : GraphNode}
    (hp : g.deref p = some node) (hq : g.deref q = some node') (h : node.txdata = node'.txdata) :
    p = q := by
  obtain ⟨t, ht, hpid, hdata⟩ := hg.decodes hp
  obtain ⟨u, hu, hqid, hdata'⟩ := hg.decodes hq
  obtain rfl := ht.eq_of_serialized hu (by rw [← hdata, ← hdata', h])
  exact Known.ext (g := g) ((hg.token_iff _ _).mpr ⟨node, hp⟩) ((hg.token_iff _ _).mpr ⟨node', hq⟩)
    (hpid.symm.trans hqid)

theorem Wf.nodup_txdata (hg : g.Wf) {ps : List NodePtr} (hps : ps.Nodup) :
    (g.txdata ps).Nodup := by
  rw [txdata, List.map_filterMap]
  refine hps.filterMap fun p q d hp hq => ?_
  obtain ⟨node, hnode, rfl⟩ := Option.map_eq_some_iff.mp hp
  obtain ⟨node', hnode', hd⟩ := Option.map_eq_some_iff.mp hq
  exact hg.deref_inj hnode hnode' hd.symm

theorem Represents.mem_txdata (h : g.Represents T) {ps : List NodePtr}
    (hps : ∀ p ∈ ps, g.Known p) {d : Bytes} :
    d ∈ g.txdata ps ↔ ∃ p ∈ ps, ∃ t, T.lookup p.txid = some t ∧ d = t.serialized := by
  have hnode : ∀ p ∈ ps, ∃ t node, T.lookup p.txid = some t ∧ g.deref p = some node ∧
      node.txdata = t.serialized := by
    intro p hp
    obtain ⟨t, ht, htoken⟩ := h.known_iff.mp (hps p hp)
    obtain ⟨-, node, hnode, hdata⟩ := h.ptr ht
    exact ⟨t, node, ht, by rw [← hnode, htoken], hdata⟩
  rw [txdata, List.map_filterMap, List.mem_filterMap]
  refine exists_congr fun p => and_congr_right fun hp => ?_
  obtain ⟨t, node, ht, hderef, hdata⟩ := hnode p hp
  simp only [hderef, ht, Option.map_some, Option.some.injEq, exists_eq_left', hdata, eq_comm]

/-- After any calls that pass each transaction under its own token id, and no parent in
a later call than its child, a search with exclusions returns the transaction and those
of its ancestors that are neither excluded nor ancestors of an excluded one. -/
theorem graphSearch_closure (calls : List (Tokenid × List Transaction))
    (hhyd : ∀ call ∈ calls, ∀ tx ∈ call.2, tx.Hydrated) (hown : OwnToken calls)
    (hpar : ParentsFirst calls) (x : Txid) (exclude : List Txid) :
    ∃ seen status data seen',
      (TxGraph.empty.insertCalls calls).excludeAll exclude = .ok seen ∧
      (TxGraph.empty.insertCalls calls).graphSearchPtr x seen = .ok ((status, data), seen') ∧
      (status = .notFound ↔ x ∉ insertedTxs calls) ∧ status ≠ .notInTokengraph ∧
      ∀ t, (insertedTxs calls).lookup x = some t → status = .ok ∧ data.Nodup ∧
        ∀ d, d ∈ data ↔ d = t.serialized ∨ ∃ y p, (insertedTxs calls).lookup y = some p ∧
          d = p.serialized ∧ TokenAncestor (insertedTxs calls) y x ∧
          ∀ e ∈ exclude, e ∈ insertedTxs calls →
            y ≠ e ∧ ¬ TokenAncestor (insertedTxs calls) y e := by
  have h := represents_insertCalls hhyd hown hpar
  obtain ⟨seen, hexcl, hseen⟩ := h.excludeAll exclude
  set g := TxGraph.empty.insertCalls calls
  set T := insertedTxs calls
  cases ht : T.lookup x with
  | none =>
      have hx : x ∉ T := KeyedMap.lookup_eq_none.mp ht
      exact ⟨seen, .notFound, [], seen, hexcl, by rw [graphSearchPtr, h.notIndexed hx],
        by simp [hx], by simp, by simp⟩
  | some t =>
      have hx : x ∈ T := KeyedMap.mem_iff.mpr ⟨t, ht⟩
      obtain ⟨hknown, node, hnode, -⟩ := h.ptr ht
      obtain ⟨s, hs, hnodup, -, hfound⟩ :=
        h.wf.searchFrom_closed (hseen.closed h) ⟨t.slp.tokenid, x⟩
      have hfoundKnown : ∀ p ∈ s.found, g.Known p := by
        intro p hp
        rcases (hfound p).mp hp with rfl | ⟨-, hreach⟩
        · exact hknown
        · exact ((h.reach_iff hknown).mp hreach).1
      refine ⟨seen, .ok, g.txdata s.found, s.seen, hexcl, ?_, by simp [hx], by simp, ?_⟩
      · rw [graphSearchPtr, h.token ht]
        simp only [hnode, hs, bind, Except.bind]
      · intro u hu
        obtain rfl := Option.some.inj hu
        refine ⟨rfl, h.wf.nodup_txdata hnodup, fun d => ?_⟩
        rw [h.mem_txdata hfoundKnown]
        constructor
        · rintro ⟨p, hp, q, hq, rfl⟩
          rcases (hfound p).mp hp with rfl | ⟨hfree, hreach⟩
          · exact .inl (by rw [Option.some.inj (hq.symm.trans ht)])
          · obtain ⟨hpk, rfl | hanc⟩ := (h.reach_iff hknown).mp hreach
            · exact .inl (by rw [Option.some.inj (hq.symm.trans ht)])
            · refine .inr ⟨p.txid, q, hq, rfl, hanc, fun e he heT => ?_⟩
              rw [hseen p] at hfree
              exact ⟨fun heq => hfree ⟨hpk, e, he, heT, .inl heq⟩,
                fun hanc' => hfree ⟨hpk, e, he, heT, .inr hanc'⟩⟩
        · rintro (rfl | ⟨y, p, hp, rfl, hanc, hfree⟩)
          · exact ⟨_, (hfound _).mpr (.inl rfl), t, ht, rfl⟩
          · have hyk : g.Known ⟨p.slp.tokenid, y⟩ := h.known_iff.mpr ⟨p, hp, rfl⟩
            refine ⟨_, (hfound _).mpr (.inr ⟨fun hy => ?_, (h.reach_iff hknown).mpr
              ⟨hyk, .inr hanc⟩⟩), p, hp, rfl⟩
            obtain ⟨-, e, he, heT, rfl | hanc'⟩ := (hseen _).mp hy
            · exact (hfree _ he heT).1 rfl
            · exact (hfree e he heT).2 hanc'

/-- A GENESIS and, in a later call, a SEND of its token. -/
def sampleCalls : List (Tokenid × List Transaction) :=
  [(sampleGenesis.txid, [sampleGenesis]), (sampleGenesis.txid, [sampleSend])]

theorem sampleCalls_parentsFirst : ParentsFirst sampleCalls := by
  have hroot : ∀ o ∈ sampleGenesis.inputs, (insertedTxs sampleCalls).lookup o.txid = none := by
    decide
  have hgenesis : (insertedTxs sampleCalls).lookup sampleGenesis.txid = some sampleGenesis := by
    decide
  intro before call after hcalls tx htx x hx
  obtain ⟨p, t, hp, ht, -, o, ho, rfl⟩ := hx
  rcases before with _ | ⟨first, before⟩
  · obtain ⟨rfl, -⟩ := List.cons.inj hcalls
    obtain rfl := List.mem_singleton.mp htx
    rw [hgenesis, Option.some.injEq] at ht
    subst ht
    rw [hroot o ho] at hp
    simp at hp
  · obtain ⟨rfl, hrest⟩ := List.cons.inj hcalls
    rcases before with _ | ⟨second, before⟩
    · obtain ⟨rfl, -⟩ := List.cons.inj hrest
      exact KeyedMap.mem_iff.mpr ⟨p, hp⟩
    · obtain ⟨-, hrest⟩ := List.cons.inj hrest
      exact absurd hrest.symm (by simp)

theorem graphSearch_closure_sample :
    ∃ seen status data seen',
      (TxGraph.empty.insertCalls sampleCalls).excludeAll [sampleGenesis.txid] = .ok seen ∧
      (TxGraph.empty.insertCalls sampleCalls).graphSearchPtr sampleSend.txid seen =
        .ok ((status, data), seen') ∧
      (status = .notFound ↔ sampleSend.txid ∉ insertedTxs sampleCalls) ∧
      status ≠ .notInTokengraph ∧
      ∀ t, (insertedTxs sampleCalls).lookup sampleSend.txid = some t →
        status = .ok ∧ data.Nodup ∧
        ∀ d, d ∈ data ↔ d = t.serialized ∨ ∃ y p, (insertedTxs sampleCalls).lookup y = some p ∧
          d = p.serialized ∧ TokenAncestor (insertedTxs sampleCalls) y sampleSend.txid ∧
          ∀ e ∈ [sampleGenesis.txid], e ∈ insertedTxs sampleCalls →
            y ≠ e ∧ ¬ TokenAncestor (insertedTxs sampleCalls) y e := by
  refine graphSearch_closure sampleCalls ?_ (by decide) sampleCalls_parentsFirst _ _
  simp [sampleCalls, sampleGenesis_hydrated, sampleSend_hydrated]

end TxGraph
end SlpGraphSearch
