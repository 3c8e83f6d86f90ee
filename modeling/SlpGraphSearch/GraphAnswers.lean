import SlpGraphSearch.MempoolReplies
import SlpGraphSearch.VerdictHistory

/-!
# What graph searches answer

A token graph holds copies of what the validator stored when it accepted a transaction.
The copies stay faithful: every entry of every reply is the raw form of a stored valid
transaction, and a chain of inputs leads to it from the transaction that was asked for.
-/
namespace SlpGraphSearch
open Library Transaction Relation

/-! ## Backed graphs -/

namespace Validator

/-- The stored valid transaction `x` has an input from `y`. -/
def Spends (v : Validator) (x y : Txid) : Prop :=
  ∃ tx, v.view x = some tx ∧ ∃ o ∈ tx.inputs, o.txid = y

theorem Extends.spends {v v' : Validator} (h : v.Extends v') {x y : Txid} (hxy : v.Spends x y) :
    v'.Spends x y := by
  obtain ⟨tx, htx, hinput⟩ := hxy
  exact ⟨tx, h.view htx, hinput⟩

end Validator

namespace TxGraph

/-- Every node stands for a stored valid transaction of its token and points to inputs. -/
structure Backed (g : TxGraph) (v : Validator) : Prop where
  wf : g.Wf
  node : ∀ p node, g.deref p = some node → ∃ tx, v.view p.txid = some tx ∧
    tx.slp.tokenid = p.tokenid ∧ node.txdata = tx.serialized ∧
      ∀ i ∈ node.inputs, i ∈ tx.inputs.map Outpoint.txid

variable {g : TxGraph} {v v' : Validator}

theorem Backed.empty (v : Validator) : TxGraph.empty.Backed v where
  wf := .empty
  node p node h := by simp [TxGraph.empty, deref, Finmap.lookup_empty] at h

theorem Backed.mono (h : g.Backed v) (hext : v.Extends v') : g.Backed v' where
  wf := h.wf
  node p node hp := by
    obtain ⟨tx, htx, hrest⟩ := h.node p node hp
    exact ⟨tx, hext.view htx, hrest⟩

/-- Filing accepted transactions leaves the graph backed. -/
theorem Backed.filed (h : g.Backed v) (order : TokenOrder) {l : List Transaction}
    (hl : ∀ tx ∈ l, tx.Hydrated ∧ v.view tx.txid = some tx) :
    (Server.insertValidTxs g (order.permute (Server.groupByToken l))).Backed v := by
  have hfiled := Server.filed_validTxs h.wf order fun tx htx => (hl tx htx).1
  refine ⟨hfiled.wf, fun p node hp => ?_⟩
  by_cases hold : p.txid ∈ g.txidToToken
  · rw [hfiled.old_node p hold] at hp
    exact h.node p node hp
  · have hknown := hfiled.wf.known_iff.mpr ⟨node, hp⟩
    obtain ⟨e, he, tx, htx, hid, htoken, hnode⟩ := hfiled.new_node p.txid hold (mem_of_known hknown)
    obtain ⟨hmem, htokenid⟩ := (Server.mem_validTxs order l e.1 tx).mp ⟨e, he, rfl, htx⟩
    have hp' : p.tokenid = e.1 := Option.some.inj (hknown.symm.trans htoken)
    rw [← hp', hp, Option.some.injEq] at hnode
    refine ⟨tx, hid ▸ (hl tx hmem).2, htokenid.trans hp'.symm, ?_, ?_⟩
    · rw [hnode]
    · intro i hi
      rw [hnode] at hi
      exact List.mem_of_mem_filter hi

theorem Backed.stores (h : g.Backed v) {y : Txid} {d : Bytes} (hd : g.Stores y d) :
    ∃ tx, v.view y = some tx ∧ d = tx.serialized := by
  obtain ⟨p, node, -, rfl, hnode, rfl⟩ := hd
  obtain ⟨tx, htx, -, hser, -⟩ := h.node p node hnode
  exact ⟨tx, htx, hser⟩

/-- Links of the graph are inputs. -/
theorem Backed.above (h : g.Backed v) {x y : Txid} (hxy : g.Above y x) :
    ReflTransGen v.Spends x y := by
  obtain ⟨p, q, -, -, rfl, rfl, hreach⟩ := hxy
  refine hreach.lift NodePtr.txid fun a b hab => ?_
  unfold nodeInputs at hab
  cases ha : g.deref a with
  | none => simp [ha] at hab
  | some node =>
    simp only [ha] at hab
    obtain ⟨i, hi, rfl⟩ := List.mem_map.mp hab
    obtain ⟨tx, htx, -, -, hinputs⟩ := h.node a node ha
    obtain ⟨o, ho, hoi⟩ := List.mem_map.mp (hinputs i hi)
    exact ⟨tx, htx, o, ho, hoi⟩

end TxGraph

/-! ## Servers -/

namespace Server

/-- What the loop over transactions lists is stored and valid at its end. -/
theorem view_of_offerTxs {s : Server} {v : Validator} {txs l : List Transaction} {trusted : Bool}
    (h : s.offerTxs txs trusted = .ok (v, l)) : ∀ tx ∈ l, v.view tx.txid = some tx := by
  refine foldlM_inv (I := fun acc => ∀ tx ∈ acc.2, acc.1.view tx.txid = some tx) ?_
    (fun tx htx => absurd htx List.not_mem_nil) h
  intro acc tx _ acc' hacc hstep
  have hext := extends_offerTx hstep
  unfold offerTx at hstep
  by_cases hx : tx.txid ∈ acc.1.transactionMap
  · rw [if_pos (by simpa [Validator.has] using hx)] at hstep
    exact Except.ok.inj hstep ▸ hacc
  · rw [if_neg (by simpa [Validator.has] using hx), bind_eq_ok] at hstep
    obtain ⟨⟨b, v₁⟩, hadd, hstep⟩ := hstep
    rw [← Except.ok.inj hstep] at hext ⊢
    intro u hu
    cases b with
    | false => exact hext.view (hacc u hu)
    | true =>
      rcases List.mem_append.mp hu with hu | hu
      · exact hext.view (hacc u hu)
      · rw [List.mem_singleton.mp hu]
        rcases Validator.addTx_unknown hx hadd with ⟨-, hb, -⟩ | ⟨-, hb, -⟩ | ⟨-, -, rfl⟩
        · cases hb
        · cases hb
        · refine Validator.view_eq_some.mpr ⟨Finset.mem_insert_self _ _, ?_⟩
          rw [Validator.offered, KeyedMap.lookup_emplace, if_pos rfl,
            KeyedMap.lookup_eq_none.mpr hx]
          rfl

/-- Both graphs are backed by the validator. -/
structure Mirrored (s : Server) : Prop where
  apart : s.Apart
  hydrated : s.validator.StoredHydrated
  g : s.g.Backed s.validator
  mg : s.mg.Backed s.validator

theorem Mirrored.empty (utxosync : Bool) : (Server.empty utxosync).Mirrored :=
  ⟨.empty utxosync, (sincere_empty utxosync).hydrated, .empty _, .empty _⟩

theorem Mirrored.step {s s' : Server} {e : Event} (h : s.Mirrored)
    (hhyd : ∀ tx ∈ e.txs, tx.Hydrated) (hstep : s.step e = .ok s') : s'.Mirrored := by
  have hext := extends_step hstep
  refine ⟨h.apart.step hhyd hstep, storedHydrated_step h.hydrated hhyd hstep, ?_, ?_⟩
  all_goals
    obtain ⟨v, l, bch, hoffer, -, rfl⟩ := step_eq_ok.mp hstep
    have hl : ∀ tx ∈ l, tx.Hydrated ∧ v.view tx.txid = some tx := fun tx htx =>
      ⟨hhyd tx ((judged_offerTxs hoffer).accepted tx htx).1, view_of_offerTxs hoffer tx htx⟩
  · cases e with
    | block order txs trusted => exact (h.g.mono hext).filed order hl
    | mempool order txs => exact h.g.mono hext
    | rawtx tx => exact h.g.mono hext
  · cases e with
    | block order txs trusted => exact h.mg.mono hext
    | mempool order txs => exact (TxGraph.Backed.empty v).filed order hl
    | rawtx tx => exact (h.mg.mono hext).filed (.insertion _) hl

/-- A raw transaction that the validator stores as valid, behind `x` by a chain of inputs. -/
def Ancestral (v : Validator) (x : Txid) (d : Bytes) : Prop :=
  ∃ tx, v.view tx.txid = some tx ∧ d = tx.serialized ∧ ReflTransGen v.Spends x tx.txid

theorem ancestral_of_stores {g : TxGraph} {v : Validator} (h : g.Backed v) {x y : Txid}
    {d : Bytes} (hd : g.Stores y d) (hxy : ReflTransGen v.Spends x y) : Ancestral v x d := by
  obtain ⟨tx, htx, hser⟩ := h.stores hd
  have hid : tx.txid = y := KeyedMap.key_lookup (Validator.view_eq_some.mp htx).2
  exact ⟨tx, hid ▸ htx, hser, hid ▸ hxy⟩

theorem Mirrored.spends {s : Server} (h : s.Mirrored) {x y : Txid} (hxy : s.SpendsFrom x y) :
    s.validator.Spends x y := by
  obtain ⟨t, ht, hstores, o, ho, rfl⟩ := hxy
  obtain ⟨tx, htx, hser⟩ := h.mg.stores hstores
  have htxHyd := (h.hydrated _ _ (Validator.view_eq_some.mp htx).2).1
  exact ⟨tx, htx, o, ht.eq_of_serialized htxHyd hser ▸ ho, rfl⟩

/-- A reply for `x` has nothing but `x` and ancestors, and it has `x` unless it is refused. -/
theorem Mirrored.reply {s : Server} (h : s.Mirrored) (order : SetOrder NodePtr)
    (limit : ℕ) (exclude : List Txid) {x : Txid} {status : GraphSearchStatus} {data : List Bytes}
    (hreply : s.graphSearch order limit exclude x = .ok (status, data)) :
    (∀ d ∈ data, Ancestral s.validator x d) ∧
      (status = .ok → ∃ tx, s.validator.view x = some tx ∧ tx.serialized ∈ data) := by
  by_cases hmg : x ∈ s.mg.txidToToken
  · obtain ⟨found, overlap, hsearch, -, -, hfound, hoverlap⟩ :=
      h.apart.graphSearch_mempool order limit exclude hmg
    rw [hsearch, Except.ok.injEq, Prod.mk.injEq] at hreply
    obtain ⟨rfl, rfl⟩ := hreply
    constructor
    · intro d hd
      rcases List.mem_append.mp hd with hd | hd
      · obtain ⟨-, -, hd⟩ := List.mem_flatMap.mp hd
        obtain ⟨y, hstores, habove⟩ := (hfound d).mp hd
        exact ancestral_of_stores h.mg hstores (h.mg.above habove)
      · obtain ⟨y, hstores, w, z, hw, hspends, hy⟩ := (hoverlap d).mp hd
        have hchain := ((h.mg.above hw).tail (h.spends hspends)).trans (h.g.above hy)
        exact ancestral_of_stores h.g hstores hchain
    · intro _
      obtain ⟨d, hd⟩ := h.mg.wf.exists_stores hmg
      obtain ⟨tx, htx, hser⟩ := h.mg.stores hd
      have hmem : d ∈ found := (hfound d).mpr ⟨x, hd, TxGraph.above_refl hmg⟩
      exact ⟨tx, htx, hser ▸ List.mem_append_left _ (List.mem_flatMap.mpr ⟨d, hmem, hmem⟩)⟩
  · by_cases hg : x ∈ s.g.txidToToken
    · obtain ⟨data', hsearch, hdata⟩ :=
        graphSearch_confirmed h.g.wf order limit exclude hg hmg
      rw [hsearch, Except.ok.injEq, Prod.mk.injEq] at hreply
      obtain ⟨rfl, rfl⟩ := hreply
      constructor
      · intro d hd
        obtain ⟨y, hstores, habove, -⟩ := (hdata d).mp hd
        exact ancestral_of_stores h.g hstores (h.g.above habove)
      · intro _
        obtain ⟨d, hd⟩ := h.g.wf.exists_stores hg
        obtain ⟨tx, htx, hser⟩ := h.g.stores hd
        exact ⟨tx, htx, hser ▸ (hdata d).mpr ⟨x, hd, TxGraph.above_refl hg, .inl rfl⟩⟩
    · obtain ⟨seen, hexcl, -⟩ := exclusionSet_honoured h.g.wf limit exclude
      have hnone : ∀ {g : TxGraph} (seen : Finset NodePtr), x ∉ g.txidToToken →
          g.graphSearchPtr x seen = .ok ((.notFound, []), seen) := by
        intro g seen hx
        rw [TxGraph.graphSearchPtr, Finmap.lookup_eq_none.mpr hx]
      simp only [graphSearch, hexcl, hnone _ hmg, hnone _ hg, bind, Except.bind, reduceCtorEq,
        if_false, Except.ok.injEq, Prod.mk.injEq] at hreply
      obtain ⟨rfl, rfl⟩ := hreply
      exact ⟨fun d hd => absurd hd List.not_mem_nil, fun h => by cases h⟩

/-- In every run, whatever is trusted in it, a graph search answers with the transaction and
ancestors of it, all as they are stored, and all of them valid; without trusted blocks they
are derivable by the SLP rules. -/
theorem run_graphSearch_ancestral (utxosync : Bool) {events : List Event}
    (hhyd : ∀ e ∈ events, ∀ tx ∈ e.txs, tx.Hydrated) :
    Always Server.step (fun past s => ∀ order limit exclude x status data,
      s.graphSearch order limit exclude x = .ok (status, data) →
        (∀ d ∈ data, Ancestral s.validator x d) ∧
        (status = .ok → ∃ tx, s.validator.view x = some tx ∧ tx.serialized ∈ data) ∧
        ((∀ e ∈ past, e.trusted = false) → ∀ d ∈ data, ∃ tx : Transaction,
          d = tx.serialized ∧ tx.txid ∈ SlpValid s.validator.transactionMap))
      (.empty utxosync) events := by
  intro past rest hev s hs order limit exclude x status data hreply
  have hpast : ∀ e ∈ past, ∀ tx ∈ e.txs, tx.Hydrated := fun e he =>
    hhyd e (hev ▸ List.mem_append_left _ he)
  have hmirrored : s.Mirrored := by
    refine foldlM_inv (I := Mirrored) ?_ (.empty utxosync) hs
    intro s₁ e he s₂ hs₁ hstep
    exact hs₁.step (hpast e he) hstep
  obtain ⟨hdata, hself⟩ := hmirrored.reply order limit exclude hreply
  refine ⟨hdata, hself, fun huntrusted d hd => ?_⟩
  obtain ⟨tx, htx, hser, -⟩ := hdata d hd
  have hsincere := (sincere_empty utxosync).run hpast huntrusted hs
  exact ⟨tx, hser, hsincere.derived _ (Validator.view_eq_some.mp htx).1⟩

theorem run_graphSearch_ancestral_sample : ∃ s,
    chainedEvents.foldlM Server.step (.empty false) = .ok s ∧
      ∀ order limit exclude x status data,
        s.graphSearch order limit exclude x = .ok (status, data) →
          ∀ d ∈ data, Ancestral s.validator x d := by
  have hrun : ∃ s, chainedEvents.foldlM Server.step (.empty false) = .ok s ∧ True := by
    decide +kernel
  obtain ⟨s, hs, -⟩ := hrun
  refine ⟨s, hs, fun order limit exclude x status data hreply => ?_⟩
  exact (run_graphSearch_ancestral false chainedEvents_hydrated chainedEvents []
    (List.append_nil _).symm s hs order limit exclude x status data hreply).1

end Server

/-! ## Answers over time -/

namespace TxGraph

/-- Every node of `g` is in `g'` as it was. -/
structure Grows (g g' : TxGraph) : Prop where
  token : ∀ x ∈ g.txidToToken, g'.txidToToken.lookup x = g.txidToToken.lookup x
  node : ∀ p, p.txid ∈ g.txidToToken → g'.deref p = g.deref p

variable {g g' g'' : TxGraph}

theorem Grows.refl (g : TxGraph) : g.Grows g := ⟨fun _ _ => rfl, fun _ _ => rfl⟩

theorem Grows.mem (h : g.Grows g') {x : Txid} (hx : x ∈ g.txidToToken) : x ∈ g'.txidToToken := by
  obtain ⟨t, ht⟩ := Finmap.mem_iff.mp hx
  exact Finmap.mem_iff.mpr ⟨t, (h.token x hx).trans ht⟩

theorem Grows.trans (h : g.Grows g') (h' : g'.Grows g'') : g.Grows g'' where
  token x hx := (h'.token x (h.mem hx)).trans (h.token x hx)
  node p hp := (h'.node p (h.mem hp)).trans (h.node p hp)

theorem Grows.known (h : g.Grows g') {p : NodePtr} (hp : g.Known p) : g'.Known p :=
  (h.token p.txid (mem_of_known hp)).trans hp

theorem Grows.nodeInputs (h : g.Grows g') {p : NodePtr} (hp : g.Known p) :
    g'.nodeInputs p = g.nodeInputs p := by
  unfold TxGraph.nodeInputs
  rw [h.node p (mem_of_known hp)]

/-- Old nodes point to old nodes only, so what was added is out of reach. -/
theorem Grows.reach_iff (h : g.Grows g') (hg : g.Wf) {p q : NodePtr} (hp : g.Known p) :
    ReflTransGen (fun a b => b ∈ g'.nodeInputs a) p q ↔
      ReflTransGen (fun a b => b ∈ g.nodeInputs a) p q := by
  constructor
  · intro hreach
    induction hreach with
    | refl => exact .refl
    | tail _ hstep ih =>
        rw [h.nodeInputs (hg.known_of_reach hp ih)] at hstep
        exact ih.tail hstep
  · intro hreach
    induction hreach with
    | refl => exact .refl
    | tail hreach hstep ih =>
        rw [← h.nodeInputs (hg.known_of_reach hp hreach)] at hstep
        exact ih.tail hstep

theorem Grows.above_iff (h : g.Grows g') (hg : g.Wf) {x y : Txid} (hx : x ∈ g.txidToToken) :
    g'.Above y x ↔ g.Above y x := by
  obtain ⟨p, hp, rfl⟩ := exists_known hx
  constructor
  · intro habove
    obtain ⟨q, hq, rfl⟩ := exists_known habove.mem.2
    have hreach := (h.reach_iff hg hp).mp ((TxGraph.above_iff (h.known hp) hq).mp habove)
    exact (TxGraph.above_iff hp (hg.known_of_reach hp hreach)).mpr hreach
  · intro habove
    obtain ⟨q, hq, rfl⟩ := exists_known habove.mem.2
    have hreach := (h.reach_iff hg hp).mpr ((TxGraph.above_iff hp hq).mp habove)
    exact (TxGraph.above_iff (h.known hp) (h.known hq)).mpr hreach

theorem Grows.stores (h : g.Grows g') {y : Txid} {d : Bytes} (hd : g.Stores y d) :
    g'.Stores y d := by
  obtain ⟨p, node, hp, rfl, hnode, rfl⟩ := hd
  exact ⟨p, node, h.known hp, rfl, (h.node p (mem_of_known hp)).trans hnode, rfl⟩

/-- A search from an old node runs as it did, step by step. -/
theorem Grows.searchFrom (h : g.Grows g') (hg : g.Wf) {p : NodePtr} (hp : g.Known p)
    (seen : Finset NodePtr) : g'.searchFrom seen p = g.searchFrom seen p := by
  have hkeys : g.txidToToken.keys ⊆ g'.txidToToken.keys := fun x hx =>
    Finmap.mem_keys.mpr (h.mem (Finmap.mem_keys.mp hx))
  have hfuel := Nat.add_le_add_right (Finset.card_le_card hkeys) 2
  obtain ⟨s, hs, -⟩ := hg.searchFrom_spec seen p
  have hrun : Search.run g.nodeInputs (g.txidToToken.keys.card + 2) (Search.start seen p) =
      some s := by
    unfold TxGraph.searchFrom at hs
    split at hs
    · simp at hs
    · rename_i s' hrun
      rw [hrun, Except.ok.inj hs]
  have hrun' : Search.run g'.nodeInputs (g'.txidToToken.keys.card + 2) (Search.start seen p) =
      some s := by
    have hroot : ∀ q ∈ (Search.start seen p).stack, g.Known q := by
      intro q hq
      rw [List.mem_singleton.mp hq]
      exact hp
    rw [Search.run_congr (P := g.Known) (fun q hq => h.nodeInputs hq)
      (fun q _ r hr => (hg.mem_nodeInputs hr).2) _ hroot]
    exact Search.run_mono hfuel hrun
  rw [TxGraph.searchFrom, TxGraph.searchFrom, hrun, hrun']

theorem Grows.buildExclusionSet (h : g.Grows g') (hg : g.Wf) {x : Txid}
    (hx : x ∈ g.txidToToken) (seen : Finset NodePtr) :
    g'.buildExclusionSet x seen = g.buildExclusionSet x seen := by
  obtain ⟨t, ht⟩ := Finmap.mem_iff.mp hx
  have hknown : g.Known ⟨t, x⟩ := ht
  rw [TxGraph.buildExclusionSet, TxGraph.buildExclusionSet, h.token x hx, ht]
  simp only [h.node ⟨t, x⟩ hx, h.searchFrom hg hknown]

theorem Grows.graphSearchPtr (h : g.Grows g') (hg : g.Wf) {x : Txid} (hx : x ∈ g.txidToToken)
    (seen : Finset NodePtr) : g'.graphSearchPtr x seen = g.graphSearchPtr x seen := by
  obtain ⟨t, ht⟩ := Finmap.mem_iff.mp hx
  have hknown : g.Known ⟨t, x⟩ := ht
  obtain ⟨node, hnode⟩ := hg.known_iff.mp hknown
  obtain ⟨s, hs, -, -, hreach, -⟩ := hg.searchFrom_spec seen ⟨t, x⟩
  have hdata : g'.txdata s.found = g.txdata s.found := by
    unfold TxGraph.txdata
    rw [List.filterMap_congr fun q hq =>
      h.node q (mem_of_known (hg.known_of_reach hknown (hreach q hq)))]
  rw [TxGraph.graphSearchPtr, TxGraph.graphSearchPtr, h.token x hx, ht]
  simp only [h.node ⟨t, x⟩ hx, hnode, h.searchFrom hg hknown, hs, bind, Except.bind, hdata]

end TxGraph

namespace Server
open TxGraph

theorem grows_step {s s' : Server} {e : Event} (h : s.Apart) (hhyd : ∀ tx ∈ e.txs, tx.Hydrated)
    (hstep : s.step e = .ok s') : s.g.Grows s'.g := by
  obtain ⟨v, l, bch, hoffer, -, rfl⟩ := step_eq_ok.mp hstep
  cases e with
  | block order txs trusted =>
      have hl : ∀ tx ∈ l, tx.Hydrated := fun tx htx =>
        hhyd tx ((judged_offerTxs hoffer).accepted tx htx).1
      have hfiled := filed_validTxs h.g order hl
      exact ⟨hfiled.old_token, hfiled.old_node⟩
  | mempool order txs => exact .refl s.g
  | rawtx tx => exact .refl s.g

theorem grows_run {events : List Event} {s s' : Server} (h : s.Apart)
    (hhyd : ∀ e ∈ events, ∀ tx ∈ e.txs, tx.Hydrated)
    (hrun : events.foldlM Server.step s = .ok s') : s'.Apart ∧ s.g.Grows s'.g := by
  refine foldlM_inv (I := fun s₁ => s₁.Apart ∧ s.g.Grows s₁.g) ?_ ⟨h, .refl s.g⟩ hrun
  intro s₁ e he s₂ hs₁ hstep
  exact ⟨hs₁.1.step (hhyd e he) hstep, hs₁.2.trans (grows_step hs₁.1 (hhyd e he) hstep)⟩

/-- Exclusions that were known are collected as they were. -/
theorem exclusionSet_grows {s s' : Server} (hg : s.g.Wf) (h : s.g.Grows s'.g) (limit : ℕ)
    {exclude : List Txid} (hexclude : ∀ e ∈ honoured limit exclude, e ∈ s.g.txidToToken) :
    s'.exclusionSet limit exclude = s.exclusionSet limit exclude := by
  have hfold : ∀ (l : List Txid) (seen : Finset NodePtr), (∀ e ∈ l, e ∈ s.g.txidToToken) →
      l.foldlM (fun seen x => do .ok (← s'.g.buildExclusionSet x seen).2) seen =
        l.foldlM (m := Except Failure)
          (fun seen x => do .ok (← s.g.buildExclusionSet x seen).2) seen := by
    intro l
    induction l with
    | nil => exact fun _ _ => rfl
    | cons x l ih =>
        intro seen hl
        rw [List.foldlM_cons, List.foldlM_cons, h.buildExclusionSet hg (hl x List.mem_cons_self)]
        exact congrArg _ (funext fun seen' => ih seen' fun e he => hl e (List.mem_cons_of_mem _ he))
  exact hfold (honoured limit exclude) ∅ hexclude

/-- The answer for a confirmed transaction is final: it is the same, to the order of its
entries, in every later state. Exclusions that the server learns about afterwards can only
take away what they and their ancestors hold. -/
theorem run_graphSearch_final (utxosync : Bool) {past more : List Event} {s s' : Server}
    (hs : past.foldlM Server.step (.empty utxosync) = .ok s)
    (hs' : more.foldlM Server.step s = .ok s')
    (hhyd : ∀ e ∈ past ++ more, ∀ tx ∈ e.txs, tx.Hydrated) (order order' : SetOrder NodePtr)
    (limit : ℕ) (exclude : List Txid) {x : Txid} (hx : x ∈ s.g.txidToToken) :
    ((∀ e ∈ honoured limit exclude, e ∈ s.g.txidToToken) →
      s'.graphSearch order' limit exclude x = s.graphSearch order limit exclude x) ∧
    ∃ data data', s.graphSearch order limit exclude x = .ok (.ok, data) ∧
      s'.graphSearch order' limit exclude x = .ok (.ok, data') ∧ data' ⊆ data ∧
      ∀ d ∈ data, d ∉ data' → ∃ y, y ≠ x ∧ s.g.Stores y d ∧
        ∃ e ∈ honoured limit exclude, e ∉ s.g.txidToToken ∧ s'.g.Above y e := by
  have hapart : s.Apart := (grows_run (.empty utxosync)
    (fun e he => hhyd e (List.mem_append_left _ he)) hs).1
  obtain ⟨hapart', hgrows⟩ := grows_run hapart
    (fun e he => hhyd e (List.mem_append_right _ he)) hs'
  have hmg : x ∉ s.mg.txidToToken := fun h => hapart.disjoint x h hx
  have hmg' : x ∉ s'.mg.txidToToken := fun h => hapart'.disjoint x h (hgrows.mem hx)
  constructor
  · intro hexclude
    have hnone : ∀ {mg : TxGraph}, x ∉ mg.txidToToken →
        mg.graphSearchPtr x ∅ = .ok ((.notFound, []), ∅) := by
      intro mg hmg
      rw [TxGraph.graphSearchPtr, Finmap.lookup_eq_none.mpr hmg]
    simp only [graphSearch, exclusionSet_grows hapart.g hgrows limit hexclude, hnone hmg,
      hnone hmg', hgrows.graphSearchPtr hapart.g hx, bind, Except.bind, reduceCtorEq, if_false]
  · obtain ⟨data, hsearch, hdata⟩ := graphSearch_confirmed hapart.g order limit exclude hx hmg
    obtain ⟨data', hsearch', hdata'⟩ :=
      graphSearch_confirmed hapart'.g order' limit exclude (hgrows.mem hx) hmg'
    have hmem : ∀ d y, s'.g.Stores y d → s'.g.Above y x → s.g.Stores y d ∧ s.g.Above y x := by
      intro d y hd habove
      have hold := (hgrows.above_iff hapart.g hx).mp habove
      obtain ⟨d₁, hd₁⟩ := hapart.g.exists_stores hold.mem.2
      exact ⟨(hgrows.stores hd₁).unique hd ▸ hd₁, hold⟩
    refine ⟨data, data', hsearch, hsearch', fun d hd => ?_, fun d hd hd' => ?_⟩
    · obtain ⟨y, hstores, habove, hfree⟩ := (hdata' d).mp hd
      obtain ⟨hstores, habove⟩ := hmem d y hstores habove
      refine (hdata d).mpr ⟨y, hstores, habove, hfree.imp_right fun hfree e he hye => ?_⟩
      exact hfree e he ((hgrows.above_iff hapart.g hye.mem.1).mpr hye)
    · obtain ⟨y, hstores, habove, hfree⟩ := (hdata d).mp hd
      have habove' := (hgrows.above_iff hapart.g hx).mpr habove
      have hlost : ¬ (y = x ∨ ∀ e ∈ honoured limit exclude, ¬ s'.g.Above y e) := fun hfree' =>
        hd' ((hdata' d).mpr ⟨y, hgrows.stores hstores, habove', hfree'⟩)
      push Not at hlost
      obtain ⟨hyx, e, he, hye⟩ := hlost
      refine ⟨y, hyx, hstores, e, he, fun hknown => ?_, hye⟩
      exact (hfree.resolve_left hyx) e he ((hgrows.above_iff hapart.g hknown).mp hye)

/-- A block with a GENESIS, and one with a SEND of its token. -/
def confirmingEvents : List Event :=
  [.block (.insertion _) [sampleGenesis] false, .block (.insertion _) [sampleSend] false]

theorem run_graphSearch_final_sample : ∃ s s',
    (confirmingEvents.take 1).foldlM Server.step (.empty false) = .ok s ∧
      (confirmingEvents.drop 1).foldlM Server.step s = .ok s' ∧
      ∀ order order', s'.graphSearch order' 5 [sampleGenesis.txid] sampleGenesis.txid =
        s.graphSearch order 5 [sampleGenesis.txid] sampleGenesis.txid := by
  have hrun : ∃ s, (confirmingEvents.take 1).foldlM Server.step (.empty false) = .ok s ∧
      sampleGenesis.txid ∈ s.g.txidToToken ∧
      ∃ s', (confirmingEvents.drop 1).foldlM Server.step s = .ok s' ∧ True := by
    decide +kernel
  obtain ⟨s, hs, hx, s', hs', -⟩ := hrun
  have hhyd : ∀ e ∈ confirmingEvents, ∀ tx ∈ e.txs, tx.Hydrated := by
    simp [confirmingEvents, Event.txs, sampleGenesis_hydrated, sampleSend_hydrated]
  refine ⟨s, s', hs, hs', fun order order' => ?_⟩
  have hfinal := run_graphSearch_final false hs hs'
    (by rwa [List.take_append_drop]) order order' 5 [sampleGenesis.txid] hx
  refine hfinal.1 fun e he => ?_
  have hmem : e ∈ [sampleGenesis.txid] := he
  exact List.mem_singleton.mp hmem ▸ hx

end Server
end SlpGraphSearch
