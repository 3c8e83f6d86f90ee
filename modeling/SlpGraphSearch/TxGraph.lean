import SlpGraphSearch.Library.Worklist
import SlpGraphSearch.TransactionCodec

/-!
# The token graphs

`txgraph` keeps one graph per token id. A node holds a raw transaction and points
to the nodes of the same graph that its inputs spend from. Pointers are keys here:
nodes and tokens never move, and `clear` drops both maps at once.

Logging and locks are left out.
-/
namespace SlpGraphSearch
open Library Transaction

structure GraphNode where
  inputs : List Txid
  txdata : Bytes

structure TokenDetails where
  tokenid : Tokenid
  graph : HashMap Txid GraphNode

structure TxGraph where
  tokens : HashMap Tokenid TokenDetails
  txidToToken : HashMap Txid Tokenid

/-- A `graph_node*`. -/
structure NodePtr where
  tokenid : Tokenid
  txid : Txid
deriving DecidableEq

inductive GraphSearchStatus
  | ok
  | notFound
  | notInTokengraph
deriving DecidableEq

namespace TxGraph

def empty : TxGraph := ⟨∅, ∅⟩

def clear (_ : TxGraph) : TxGraph := ⟨∅, ∅⟩

/-! ## Insertion -/

/-- The locals of the first pass. -/
structure FirstPass where
  graph : HashMap Txid GraphNode
  txidToToken : HashMap Txid Tokenid
  inputMap : HashMap Bytes (List Txid)
  latest : List Txid
  ret : ℕ

/-- One transaction of the first pass. -/
def insertNode (tokenid : Tokenid) (st : FirstPass) (tx : Transaction) : FirstPass :=
  if tx.txid ∈ st.txidToToken then st
  else
    { graph := st.graph.emplace tx.txid ⟨[], tx.serialized⟩
      txidToToken := st.txidToToken.emplace tx.txid tokenid
      inputMap := st.inputMap.emplace tx.serialized (tx.inputs.map Outpoint.txid)
      latest := st.latest ++ [tx.txid]
      ret := st.ret + 1 }

/-- One node of the second pass. -/
def linkNode (inputMap : HashMap Bytes (List Txid)) (graph : HashMap Txid GraphNode)
    (txid : Txid) : HashMap Txid GraphNode :=
  match graph.lookup txid with
  | none => graph
  | some node =>
      let inputs := ((inputMap.lookup node.txdata).getD []).filter fun i => i ∈ graph
      Finmap.insert txid { node with inputs := node.inputs ++ inputs } graph

def insertTokenData (g : TxGraph) (tokenid : Tokenid) (txs : List Transaction) :
    ℕ × TxGraph :=
  let token := (g.tokens.lookup tokenid).getD ⟨tokenid, ∅⟩
  let st := txs.foldl (insertNode tokenid) ⟨token.graph, g.txidToToken, ∅, [], 0⟩
  let graph := st.latest.foldl (linkNode st.inputMap) st.graph
  (st.ret, ⟨Finmap.insert tokenid { token with graph := graph } g.tokens, st.txidToToken⟩)

/-! ## Search -/

/-- `*node`. -/
def deref (g : TxGraph) (p : NodePtr) : Option GraphNode :=
  (g.tokens.lookup p.tokenid).bind fun token => token.graph.lookup p.txid

/-- The pointers stored in a node. -/
def nodeInputs (g : TxGraph) (p : NodePtr) : List NodePtr :=
  match g.deref p with
  | none => []
  | some node => node.inputs.map fun i => ⟨p.tokenid, i⟩

/-- The loop shared by the two searches, bounded by the number of transactions. -/
def searchFrom (g : TxGraph) (seen : Finset NodePtr) (p : NodePtr) :
    Except Failure (Search NodePtr) :=
  match Search.run g.nodeInputs (g.txidToToken.keys.card + 2) (Search.start seen p) with
  | none => .error .exhausted
  | some s => .ok s

def buildExclusionSet (g : TxGraph) (lookupTxid : Txid) (seen : Finset NodePtr) :
    Except Failure (Bool × Finset NodePtr) :=
  match g.txidToToken.lookup lookupTxid with
  | none => .ok (false, seen)
  | some tokenid =>
      match g.deref ⟨tokenid, lookupTxid⟩ with
      | none => .ok (false, seen)
      | some _ => do
          let s ← g.searchFrom seen ⟨tokenid, lookupTxid⟩
          .ok (true, s.seen)

/-- The raw transactions behind pointers. -/
def txdata (g : TxGraph) (ps : List NodePtr) : List Bytes :=
  (ps.filterMap g.deref).map GraphNode.txdata

/-- `graph_search__ptr`, with the grown exclusion set. -/
def graphSearchPtr (g : TxGraph) (lookupTxid : Txid) (seen : Finset NodePtr) :
    Except Failure ((GraphSearchStatus × List Bytes) × Finset NodePtr) :=
  match g.txidToToken.lookup lookupTxid with
  | none => .ok ((.notFound, []), seen)
  | some tokenid =>
      match g.deref ⟨tokenid, lookupTxid⟩ with
      | none => .ok ((.notInTokengraph, []), seen)
      | some _ => do
          let s ← g.searchFrom seen ⟨tokenid, lookupTxid⟩
          .ok ((.ok, g.txdata s.found), s.seen)

/-! ## The first pass -/

/-- The first pass over `txs`, started from a graph and an index. -/
structure FirstPass.Filled (tokenid : Tokenid) (graph : HashMap Txid GraphNode)
    (known : HashMap Txid Tokenid) (txs : List Transaction) (st : FirstPass) : Prop where
  token_iff : ∀ x t, st.txidToToken.lookup x = some t ↔
    known.lookup x = some t ∨ x ∉ known ∧ t = tokenid ∧ ∃ tx ∈ txs, tx.txid = x
  latest_iff : ∀ x, x ∈ st.latest ↔ x ∉ known ∧ ∃ tx ∈ txs, tx.txid = x
  nodup : st.latest.Nodup
  old : ∀ x ∉ st.latest, st.graph.lookup x = graph.lookup x
  new : ∀ x ∈ st.latest, ∃ tx ∈ txs, tx.txid = x ∧
    st.graph.lookup x = some ⟨[], tx.serialized⟩ ∧
    st.inputMap.lookup tx.serialized = some (tx.inputs.map Outpoint.txid)
  source : ∀ b inputs, st.inputMap.lookup b = some inputs →
    ∃ tx ∈ txs, tx.serialized = b ∧ inputs = tx.inputs.map Outpoint.txid

theorem FirstPass.Filled.start (tokenid : Tokenid) (graph : HashMap Txid GraphNode)
    (known : HashMap Txid Tokenid) :
    Filled tokenid graph known [] ⟨graph, known, ∅, [], 0⟩ where
  token_iff x t := by simp
  latest_iff x := by simp
  nodup := List.nodup_nil
  old x _ := rfl
  new x hx := absurd hx List.not_mem_nil
  source b inputs h := by simp [Finmap.lookup_empty] at h

theorem FirstPass.Filled.mem_iff {tokenid : Tokenid} {graph : HashMap Txid GraphNode}
    {known : HashMap Txid Tokenid} {txs : List Transaction} {st : FirstPass}
    (h : Filled tokenid graph known txs st) (x : Txid) :
    x ∈ st.txidToToken ↔ x ∈ known ∨ ∃ tx ∈ txs, tx.txid = x := by
  rw [Finmap.mem_iff, Finmap.mem_iff]
  simp only [h.token_iff]
  by_cases hx : x ∈ known
  · obtain ⟨t, ht⟩ := Finmap.mem_iff.mp hx
    simp [hx, ht]
  · have hnone := Finmap.lookup_eq_none.mpr hx
    simp [hx, hnone]

theorem exists_txid_append {txs : List Transaction} {tx : Transaction} {x : Txid} :
    (∃ t ∈ txs ++ [tx], t.txid = x) ↔ (∃ t ∈ txs, t.txid = x) ∨ tx.txid = x := by
  simp [or_and_right, exists_or]

/-- The first pass skips a known transaction. -/
theorem FirstPass.Filled.skip {tokenid : Tokenid} {graph : HashMap Txid GraphNode}
    {known : HashMap Txid Tokenid} {txs : List Transaction} {st : FirstPass}
    (h : Filled tokenid graph known txs st) {tx : Transaction}
    (hmem : tx.txid ∈ st.txidToToken) : Filled tokenid graph known (txs ++ [tx]) st := by
  have hknown := (h.mem_iff tx.txid).mp hmem
  have hold : ∀ x, x ∉ known → tx.txid = x → ∃ t ∈ txs, t.txid = x := by
    rintro x hx rfl
    exact hknown.resolve_left hx
  refine ⟨fun x t => ?_, fun x => ?_, h.nodup, h.old, fun x hx => ?_, fun b inputs hb => ?_⟩
  · rw [h.token_iff, exists_txid_append]
    exact or_congr_right (and_congr_right fun hx => and_congr_right fun _ =>
      (or_iff_left_of_imp (hold x hx)).symm)
  · rw [h.latest_iff, exists_txid_append]
    exact and_congr_right fun hx => (or_iff_left_of_imp (hold x hx)).symm
  · obtain ⟨t, ht, hrest⟩ := h.new x hx
    exact ⟨t, List.mem_append_left _ ht, hrest⟩
  · obtain ⟨t, ht, hrest⟩ := h.source b inputs hb
    exact ⟨t, List.mem_append_left _ ht, hrest⟩

/-- One more transaction of the first pass. -/
theorem FirstPass.Filled.insertNode {tokenid : Tokenid} {graph : HashMap Txid GraphNode}
    {known : HashMap Txid Tokenid} {txs : List Transaction} {st : FirstPass}
    (h : Filled tokenid graph known txs st) (hfree : ∀ x ∈ graph, x ∈ known)
    (hhyd : ∀ tx ∈ txs, tx.Hydrated) {tx : Transaction} (htx : tx.Hydrated) :
    Filled tokenid graph known (txs ++ [tx]) (insertNode tokenid st tx) := by
  unfold TxGraph.insertNode
  split_ifs with hmem
  · exact h.skip hmem
  · rw [h.mem_iff, not_or] at hmem
    obtain ⟨hk, hnew⟩ := hmem
    have hlatest : tx.txid ∉ st.latest := fun hx => hnew ((h.latest_iff _).mp hx).2
    have hgraph : st.graph.lookup tx.txid = none := by
      rw [h.old _ hlatest]
      exact Finmap.lookup_eq_none.mpr fun hx => hk (hfree _ hx)
    have hinputs : (st.inputMap.lookup tx.serialized).getD (tx.inputs.map Outpoint.txid) =
        tx.inputs.map Outpoint.txid := by
      cases hb : st.inputMap.lookup tx.serialized with
      | none => rfl
      | some inputs =>
          obtain ⟨t, ht, hser, rfl⟩ := h.source _ _ hb
          rw [(hhyd t ht).eq_of_serialized htx hser]
          rfl
    refine ⟨fun x t => ?_, fun x => ?_, ?_, fun x hx => ?_, fun x hx => ?_, fun b inputs hb => ?_⟩
    · simp only [HashMap.lookup_emplace, exists_txid_append]
      split_ifs with hx
      · subst hx
        have hnone : st.txidToToken.lookup tx.txid = none :=
          Finmap.lookup_eq_none.mpr fun hx => ((h.mem_iff _).mp hx).elim hk hnew
        have hnone' : known.lookup tx.txid = none := Finmap.lookup_eq_none.mpr hk
        simp [hnone, hnone', hk, eq_comm]
      · rw [h.token_iff, or_iff_left (Ne.symm hx)]
    · rw [List.mem_append, List.mem_singleton, h.latest_iff, exists_txid_append]
      constructor
      · rintro (hx | rfl)
        · exact ⟨hx.1, .inl hx.2⟩
        · exact ⟨hk, .inr rfl⟩
      · rintro ⟨hx, hx' | rfl⟩
        · exact .inl ⟨hx, hx'⟩
        · exact .inr rfl
    · exact List.nodup_append.mpr ⟨h.nodup, List.nodup_singleton _, fun a ha b hb hab =>
        hlatest (List.mem_singleton.mp hb ▸ hab ▸ ha)⟩
    · simp only [List.mem_append, List.mem_singleton, not_or] at hx
      rw [HashMap.lookup_emplace, if_neg hx.2, h.old x hx.1]
    · simp only [List.mem_append, List.mem_singleton] at hx
      rcases hx with hx | rfl
      · obtain ⟨t, ht, rfl, hnode, hin⟩ := h.new x hx
        have hne : t.txid ≠ tx.txid := fun heq => hlatest (heq ▸ hx)
        refine ⟨t, List.mem_append_left _ ht, rfl, ?_, ?_⟩
        · simp only [HashMap.lookup_emplace, if_neg hne, hnode]
        · simp only [HashMap.lookup_emplace]
          split_ifs with hb
          · rw [← hb, hin, Option.getD_some]
          · exact hin
      · refine ⟨tx, by simp, rfl, ?_, ?_⟩
        · simp only [HashMap.lookup_emplace, if_true, hgraph, Option.getD_none]
        · simp only [HashMap.lookup_emplace, if_true, hinputs]
    · simp only [HashMap.lookup_emplace, hinputs] at hb
      split_ifs at hb with hser
      · exact ⟨tx, by simp, hser.symm, (Option.some.inj hb).symm⟩
      · obtain ⟨t, ht, hrest⟩ := h.source b inputs hb
        exact ⟨t, List.mem_append_left _ ht, hrest⟩

theorem FirstPass.Filled.foldl {tokenid : Tokenid} {graph : HashMap Txid GraphNode}
    {known : HashMap Txid Tokenid} {seen txs : List Transaction} {st : FirstPass}
    (h : Filled tokenid graph known seen st) (hfree : ∀ x ∈ graph, x ∈ known)
    (hseen : ∀ tx ∈ seen, tx.Hydrated) (hhyd : ∀ tx ∈ txs, tx.Hydrated) :
    Filled tokenid graph known (seen ++ txs) (txs.foldl (TxGraph.insertNode tokenid) st) := by
  induction txs generalizing seen st with
  | nil => simpa using h
  | cons tx txs ih =>
      have htx := hhyd tx List.mem_cons_self
      rw [List.foldl_cons, List.append_cons]
      exact ih (h.insertNode hfree hseen htx)
        (fun t ht => (List.mem_append.mp ht).elim (hseen t)
          fun ht => List.mem_singleton.mp ht ▸ htx)
        fun t ht => hhyd t (List.mem_cons_of_mem _ ht)

/-! ## The second pass -/

theorem mem_linkNode (inputMap : HashMap Bytes (List Txid)) (graph : HashMap Txid GraphNode)
    (txid x : Txid) : x ∈ linkNode inputMap graph txid ↔ x ∈ graph := by
  unfold linkNode
  split
  · rfl
  · rename_i node hnode
    rw [Finmap.mem_insert]
    exact or_iff_right_of_imp fun hx => hx ▸ Finmap.mem_iff.mpr ⟨node, hnode⟩

theorem lookup_linkNode (inputMap : HashMap Bytes (List Txid)) (graph : HashMap Txid GraphNode)
    (txid x : Txid) : (linkNode inputMap graph txid).lookup x =
      if x = txid then (graph.lookup x).map fun node =>
        { node with inputs := node.inputs ++
            ((inputMap.lookup node.txdata).getD []).filter fun i => i ∈ graph }
      else graph.lookup x := by
  unfold linkNode
  split
  · rename_i hnone
    split_ifs with hx
    · rw [hx, hnone, Option.map_none]
    · rfl
  · rename_i node hnode
    rw [HashMap.lookup_insert]
    split_ifs with hx
    · rw [hx, hnode, Option.map_some]
    · rfl

/-- The second pass links every new node once. -/
theorem lookup_foldl_linkNode {inputMap : HashMap Bytes (List Txid)} {latest : List Txid}
    (hnodup : latest.Nodup) (graph : HashMap Txid GraphNode) (x : Txid) :
    (latest.foldl (linkNode inputMap) graph).lookup x =
      if x ∈ latest then (graph.lookup x).map fun node =>
        { node with inputs := node.inputs ++
            ((inputMap.lookup node.txdata).getD []).filter fun i => i ∈ graph }
      else graph.lookup x := by
  induction latest generalizing graph with
  | nil => rfl
  | cons y latest ih =>
      obtain ⟨hy, hnodup⟩ := List.nodup_cons.mp hnodup
      rw [List.foldl_cons, ih hnodup, lookup_linkNode]
      simp only [mem_linkNode, List.mem_cons]
      by_cases hx : x = y
      · subst hx
        simp [hy]
      · simp [hx]

/-! ## Well-formed graphs -/

/-- The index and the token graphs agree, links stay inside a token, and nodes
hold raw transactions. -/
structure Wf (g : TxGraph) : Prop where
  token_iff : ∀ x t, g.txidToToken.lookup x = some t ↔ ∃ node, g.deref ⟨t, x⟩ = some node
  linked : ∀ {p node}, g.deref p = some node →
    ∀ i ∈ node.inputs, g.txidToToken.lookup i = some p.tokenid
  decodes : ∀ {p node}, g.deref p = some node →
    ∃ tx : Transaction, tx.Hydrated ∧ tx.txid = p.txid ∧ node.txdata = tx.serialized

theorem Wf.empty : TxGraph.empty.Wf where
  token_iff x t := by simp [TxGraph.empty, deref, Finmap.lookup_empty]
  linked h := by simp [TxGraph.empty, deref, Finmap.lookup_empty] at h
  decodes h := by simp [TxGraph.empty, deref, Finmap.lookup_empty] at h

/-- What an insertion does to a well-formed graph. -/
structure Inserted (g g' : TxGraph) (tokenid : Tokenid) (txs : List Transaction) : Prop where
  wf : g'.Wf
  mem_iff : ∀ x, x ∈ g'.txidToToken ↔ x ∈ g.txidToToken ∨ ∃ tx ∈ txs, tx.txid = x
  old_token : ∀ x ∈ g.txidToToken, g'.txidToToken.lookup x = g.txidToToken.lookup x
  old_node : ∀ p, p.txid ∈ g.txidToToken → g'.deref p = g.deref p
  new_token : ∀ x ∉ g.txidToToken, x ∈ g'.txidToToken → g'.txidToToken.lookup x = some tokenid
  new_node : ∀ x ∉ g.txidToToken, x ∈ g'.txidToToken → ∃ tx ∈ txs, tx.txid = x ∧
    g'.deref ⟨tokenid, x⟩ = some ⟨(tx.inputs.map Outpoint.txid).filter fun i =>
      g'.txidToToken.lookup i = some tokenid, tx.serialized⟩

/-- Both passes of an insertion: the nodes of the ids in `latest` are new, and the others
are as they were. -/
structure Relinked (g g' : TxGraph) (tokenid : Tokenid) (txs : List Transaction)
    (latest : List Txid) : Prop where
  token_iff : ∀ x t, g'.txidToToken.lookup x = some t ↔ g.txidToToken.lookup x = some t ∨
    x ∉ g.txidToToken ∧ t = tokenid ∧ ∃ tx ∈ txs, tx.txid = x
  mem_iff : ∀ x, x ∈ g'.txidToToken ↔ x ∈ g.txidToToken ∨ ∃ tx ∈ txs, tx.txid = x
  latest_iff : ∀ x, x ∈ latest ↔ x ∉ g.txidToToken ∧ ∃ tx ∈ txs, tx.txid = x
  old : ∀ p, p.txid ∉ latest → g'.deref p = g.deref p
  new : ∀ x ∈ latest, ∃ tx ∈ txs, tx.txid = x ∧
    g'.deref ⟨tokenid, x⟩ = some ⟨(tx.inputs.map Outpoint.txid).filter fun i =>
      g'.txidToToken.lookup i = some tokenid, tx.serialized⟩
  other : ∀ x ∈ latest, ∀ t, t ≠ tokenid → g'.deref ⟨t, x⟩ = none

theorem Wf.relinked {g : TxGraph} (hg : g.Wf) (tokenid : Tokenid) {txs : List Transaction}
    (hhyd : ∀ tx ∈ txs, tx.Hydrated) :
    ∃ latest, Relinked g (g.insertTokenData tokenid txs).2 tokenid txs latest := by
  let graph := ((g.tokens.lookup tokenid).getD ⟨tokenid, ∅⟩).graph
  have hgraph : ∀ x, graph.lookup x = g.deref ⟨tokenid, x⟩ := by
    intro x
    simp only [graph, deref]
    cases g.tokens.lookup tokenid <;> simp [Finmap.lookup_empty]
  have hfree : ∀ x ∈ graph, x ∈ g.txidToToken := by
    intro x hx
    obtain ⟨node, hnode⟩ := Finmap.mem_iff.mp hx
    exact Finmap.mem_iff.mpr ⟨tokenid, (hg.token_iff x tokenid).mpr ⟨node, hgraph x ▸ hnode⟩⟩
  have hst := (FirstPass.Filled.start tokenid graph g.txidToToken).foldl hfree
    (fun tx h => absurd h List.not_mem_nil) hhyd
  set st := txs.foldl (insertNode tokenid) ⟨graph, g.txidToToken, ∅, [], 0⟩ with hst_def
  rw [List.nil_append] at hst
  set graph' := st.latest.foldl (linkNode st.inputMap) st.graph with hgraphdef
  set g' := (g.insertTokenData tokenid txs).2 with hgdef
  have htoken : g'.txidToToken = st.txidToToken := rfl
  have hderef : ∀ p, g'.deref p =
      if p.tokenid = tokenid then graph'.lookup p.txid else g.deref p := by
    intro p
    simp only [hgdef, deref, TxGraph.insertTokenData, HashMap.lookup_insert]
    split_ifs <;> rfl
  have hmem : ∀ x, x ∈ st.graph ↔ g'.txidToToken.lookup x = some tokenid := by
    intro x
    rw [htoken, hst.token_iff]
    by_cases hx : x ∈ st.latest
    · obtain ⟨tx, -, -, hnode, -⟩ := hst.new x hx
      exact iff_of_true (Finmap.mem_iff.mpr ⟨_, hnode⟩)
        (.inr ⟨((hst.latest_iff x).mp hx).1, rfl, ((hst.latest_iff x).mp hx).2⟩)
    · rw [Finmap.mem_iff, hst.old x hx, hgraph, ← hg.token_iff]
      refine (or_iff_left ?_).symm
      rintro ⟨hk, -, hnew⟩
      exact hx ((hst.latest_iff x).mpr ⟨hk, hnew⟩)
  refine ⟨st.latest, hst.token_iff, hst.mem_iff, hst.latest_iff, fun p hx => ?_, fun x hx => ?_,
    fun x hx t ht => ?_⟩
  · rw [hderef]
    split_ifs with ht
    · obtain ⟨t, x⟩ := p
      obtain rfl : t = tokenid := ht
      rw [hgraphdef, lookup_foldl_linkNode hst.nodup, if_neg hx, hst.old x hx, hgraph]
    · rfl
  · obtain ⟨tx, htx, hid, hnode, hin⟩ := hst.new x hx
    refine ⟨tx, htx, hid, ?_⟩
    rw [hderef, if_pos rfl, hgraphdef, lookup_foldl_linkNode hst.nodup, if_pos hx, hnode]
    simp only [Option.map_some, hin, Option.getD_some, List.nil_append, hmem]
  · rw [hderef, if_neg ht]
    by_contra hne
    obtain ⟨node, hnode⟩ := Option.ne_none_iff_exists'.mp hne
    exact ((hst.latest_iff x).mp hx).1
      (Finmap.mem_iff.mpr ⟨t, (hg.token_iff x t).mpr ⟨node, hnode⟩⟩)

section Relinked

variable {g g' : TxGraph} {tokenid : Tokenid} {txs : List Transaction} {latest : List Txid}

/-- A new node belongs to the token, with links inside it. -/
theorem Relinked.of_latest (h : Relinked g g' tokenid txs latest) {p : NodePtr} {node : GraphNode}
    (hp : g'.deref p = some node) (hx : p.txid ∈ latest) : ∃ tx ∈ txs, tx.txid = p.txid ∧
      node = ⟨(tx.inputs.map Outpoint.txid).filter fun i =>
        g'.txidToToken.lookup i = some p.tokenid, tx.serialized⟩ := by
  obtain ⟨t, x⟩ := p
  obtain rfl : t = tokenid := by
    by_contra ht
    rw [h.other x hx t ht] at hp
    simp at hp
  obtain ⟨tx, htx, hid, hnode⟩ := h.new x hx
  exact ⟨tx, htx, hid, Option.some.inj (hp.symm.trans hnode)⟩

theorem Relinked.wf (h : Relinked g g' tokenid txs latest) (hg : g.Wf)
    (hhyd : ∀ tx ∈ txs, tx.Hydrated) : g'.Wf := by
  refine ⟨fun x t => ?_, fun {p node} hp i hi => ?_, fun {p node} hp => ?_⟩
  · rw [h.token_iff]
    by_cases hx : x ∈ latest
    · obtain ⟨hk, hex⟩ := (h.latest_iff x).mp hx
      have hnone := Finmap.lookup_eq_none.mpr hk
      by_cases ht : t = tokenid
      · subst ht
        obtain ⟨tx, -, -, hnode⟩ := h.new x hx
        exact iff_of_true (.inr ⟨hk, rfl, hex⟩) ⟨_, hnode⟩
      · simp [hnone, ht, h.other x hx t ht]
    · rw [h.old ⟨t, x⟩ hx, ← hg.token_iff]
      refine or_iff_left ?_
      rintro ⟨hk, -, hex⟩
      exact hx ((h.latest_iff x).mpr ⟨hk, hex⟩)
  · by_cases hx : p.txid ∈ latest
    · obtain ⟨tx, -, -, rfl⟩ := h.of_latest hp hx
      simpa using (List.mem_filter.mp hi).2
    · rw [h.old p hx] at hp
      rw [h.token_iff]
      exact .inl (hg.linked hp i hi)
  · by_cases hx : p.txid ∈ latest
    · obtain ⟨tx, htx, hid, rfl⟩ := h.of_latest hp hx
      exact ⟨tx, hhyd tx htx, hid, rfl⟩
    · rw [h.old p hx] at hp
      exact hg.decodes hp

end Relinked

theorem Wf.insertTokenData {g : TxGraph} (hg : g.Wf) (tokenid : Tokenid)
    {txs : List Transaction} (hhyd : ∀ tx ∈ txs, tx.Hydrated) :
    Inserted g (g.insertTokenData tokenid txs).2 tokenid txs := by
  obtain ⟨latest, h⟩ := hg.relinked tokenid hhyd
  refine ⟨h.wf hg hhyd, h.mem_iff, fun x hx => ?_, fun p hp => ?_, fun x hx hx' => ?_,
    fun x hx hx' => ?_⟩
  · obtain ⟨t, ht⟩ := Finmap.mem_iff.mp hx
    rw [ht, h.token_iff]
    exact .inl ht
  · exact h.old p fun hl => ((h.latest_iff _).mp hl).1 hp
  · rw [h.token_iff]
    exact .inr ⟨hx, rfl, ((h.mem_iff x).mp hx').resolve_left hx⟩
  · exact h.new x ((h.latest_iff x).mpr ⟨hx, ((h.mem_iff x).mp hx').resolve_left hx⟩)

/-! ## Searches over well-formed graphs -/

theorem Wf.mem_nodeInputs {g : TxGraph} (hg : g.Wf) {p q : NodePtr} (h : q ∈ g.nodeInputs p) :
    q.tokenid = p.tokenid ∧ g.txidToToken.lookup q.txid = some q.tokenid := by
  unfold nodeInputs at h
  cases hp : g.deref p with
  | none => simp [hp] at h
  | some node =>
      simp only [hp] at h
      obtain ⟨i, hi, rfl⟩ := List.mem_map.mp h
      exact ⟨rfl, hg.linked hp i hi⟩

/-- Links never leave the graph of a token. -/
theorem Wf.token_of_reachable {g : TxGraph} (hg : g.Wf) {p q : NodePtr}
    (hp : g.txidToToken.lookup p.txid = some p.tokenid)
    (h : Relation.ReflTransGen (fun a b => b ∈ g.nodeInputs a) p q) :
    q.tokenid = p.tokenid ∧ g.txidToToken.lookup q.txid = some q.tokenid := by
  induction h with
  | refl => exact ⟨rfl, hp⟩
  | tail _ hqr ih =>
      obtain ⟨htoken, hlookup⟩ := hg.mem_nodeInputs hqr
      exact ⟨htoken.trans ih.1, hlookup⟩

/-- Every link leads into a set that the bound of the searches covers. -/
theorem Wf.nodeInputs_bounded {g : TxGraph} (hg : g.Wf) : ∃ U : Finset NodePtr,
    (∀ p, ∀ q ∈ g.nodeInputs p, q ∈ U) ∧ U.card + 1 < g.txidToToken.keys.card + 2 := by
  refine ⟨g.txidToToken.keys.image fun x => ⟨(g.txidToToken.lookup x).getD .zero, x⟩,
    fun p q hq => ?_, ?_⟩
  · have hlookup := (hg.mem_nodeInputs hq).2
    refine Finset.mem_image.mpr ⟨q.txid, Finmap.mem_keys.mpr (Finmap.mem_iff.mpr ⟨_, hlookup⟩), ?_⟩
    rw [hlookup, Option.getD_some]
  · exact Nat.lt_succ_of_le (Nat.succ_le_succ Finset.card_image_le)

/-- The search loop ends, and what it finds is closed up to the exclusions. -/
theorem Wf.searchFrom_spec {g : TxGraph} (hg : g.Wf) (seen : Finset NodePtr) (p : NodePtr) :
    ∃ s, g.searchFrom seen p = .ok s ∧ (∀ q, q ∈ s.seen ↔ q ∈ seen ∨ q ∈ s.found) ∧
      p ∈ s.found ∧
      (∀ q ∈ s.found, Relation.ReflTransGen (fun a b => b ∈ g.nodeInputs a) p q) ∧
      ∀ q ∈ s.found, ∀ r ∈ g.nodeInputs q, r ∈ seen ∨ r ∈ s.found := by
  obtain ⟨U, hU, hcard⟩ := hg.nodeInputs_bounded
  obtain ⟨s, hrun, hspec⟩ := Search.run_start hU seen p hcard
  exact ⟨s, by rw [searchFrom, hrun], hspec⟩

/-- Behind exclusions that are closed under links a search is exact. -/
theorem Wf.searchFrom_closed {g : TxGraph} (hg : g.Wf) {seen : Finset NodePtr}
    (hclosed : ∀ p ∈ seen, ∀ q ∈ g.nodeInputs p, q ∈ seen) (p : NodePtr) :
    ∃ s, g.searchFrom seen p = .ok s ∧ s.found.Nodup ∧
      (∀ q, q ∈ s.seen ↔
        q ∈ seen ∨ Relation.ReflTransGen (fun a b => b ∈ g.nodeInputs a) p q) ∧
      ∀ q, q ∈ s.found ↔ q = p ∨
        q ∉ seen ∧ Relation.ReflTransGen (fun a b => b ∈ g.nodeInputs a) p q := by
  obtain ⟨U, hU, hcard⟩ := hg.nodeInputs_bounded
  obtain ⟨s, hrun, hspec⟩ := Search.run_start_closed hU hclosed p hcard
  exact ⟨s, by rw [searchFrom, hrun], hspec⟩

theorem Wf.buildExclusionSet_ok {g : TxGraph} (hg : g.Wf) (x : Txid) (seen : Finset NodePtr) :
    ∃ r, g.buildExclusionSet x seen = .ok r := by
  unfold buildExclusionSet
  cases hx : g.txidToToken.lookup x with
  | none => exact ⟨_, rfl⟩
  | some t =>
      obtain ⟨node, hnode⟩ := (hg.token_iff x t).mp hx
      obtain ⟨s, hs, -⟩ := hg.searchFrom_spec seen ⟨t, x⟩
      simp only [hnode, hs, bind, Except.bind]
      exact ⟨_, rfl⟩

/-- Replies consist of raw transactions. -/
theorem Wf.mem_txdata {g : TxGraph} (hg : g.Wf) {ps : List NodePtr} {d : Bytes}
    (hd : d ∈ g.txdata ps) : ∃ tx : Transaction, tx.Hydrated ∧ d = tx.serialized := by
  obtain ⟨node, hnode, rfl⟩ := List.mem_map.mp hd
  obtain ⟨p, -, hp⟩ := List.mem_filterMap.mp hnode
  obtain ⟨tx, htx, -, hdata⟩ := hg.decodes hp
  exact ⟨tx, htx, hdata⟩

/-- A search never ends with NOT_IN_TOKENGRAPH, and finds every known transaction. -/
theorem Wf.graphSearchPtr_status {g : TxGraph} (hg : g.Wf) (x : Txid) (seen : Finset NodePtr) :
    ∃ status data seen', g.graphSearchPtr x seen = .ok ((status, data), seen') ∧
      (status = if x ∈ g.txidToToken then .ok else .notFound) ∧
      ∀ d ∈ data, ∃ tx : Transaction, tx.Hydrated ∧ d = tx.serialized := by
  unfold graphSearchPtr
  cases hx : g.txidToToken.lookup x with
  | none =>
      exact ⟨_, _, _, rfl, (if_neg (Finmap.lookup_eq_none.mp hx)).symm, by simp⟩
  | some t =>
      obtain ⟨node, hnode⟩ := (hg.token_iff x t).mp hx
      obtain ⟨s, hs, -⟩ := hg.searchFrom_spec seen ⟨t, x⟩
      simp only [hnode, hs, bind, Except.bind]
      exact ⟨_, _, _, rfl, (if_pos (Finmap.mem_iff.mpr ⟨t, hx⟩)).symm, fun d => hg.mem_txdata⟩

end TxGraph
end SlpGraphSearch
