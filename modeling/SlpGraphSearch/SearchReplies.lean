import SlpGraphSearch.GraphSearch
import SlpGraphSearch.Searchable

/-!
# Replies of graph searches

What `GraphSearch` answers in terms of the two token graphs alone: which nodes are
reached from which, and which raw transactions they hold. A search behind the ancestors
of excluded ids returns the transaction and the ancestors that are not excluded. The
exclusion loop ends after its first round when there are as many exclusions as the limit
allows, and the mempool branch consults no exclusion at all and repeats its entries.
-/
namespace SlpGraphSearch
open Library Transaction Relation

namespace TxGraph

/-- `y` is `x` or one of its ancestors: its node is reached from that of `x`. -/
def Above (g : TxGraph) (y x : Txid) : Prop :=
  ∃ p q, g.Known p ∧ g.Known q ∧ p.txid = x ∧ q.txid = y ∧
    ReflTransGen (fun a b => b ∈ g.nodeInputs a) p q

/-- The node of `y` holds the raw transaction `d`. -/
def Stores (g : TxGraph) (y : Txid) (d : Bytes) : Prop :=
  ∃ p node, g.Known p ∧ p.txid = y ∧ g.deref p = some node ∧ node.txdata = d

/-- The pointers that `build_exclusion_set` collects for the ids `exclude`. -/
def ExclusionSet (g : TxGraph) (exclude : List Txid) (seen : Finset NodePtr) : Prop :=
  ∀ p, p ∈ seen ↔ g.Known p ∧ ∃ e ∈ exclude, g.Above p.txid e

variable {g : TxGraph}

theorem insertCalls_wf {calls : List (Tokenid × List Transaction)}
    (hhyd : ∀ call ∈ calls, ∀ tx ∈ call.2, tx.Hydrated) : (TxGraph.empty.insertCalls calls).Wf := by
  have hrun : ∀ {g : TxGraph}, g.Wf → (g.insertCalls calls).Wf := by
    induction calls with
    | nil => exact fun hg => hg
    | cons call calls ih =>
        intro g hg
        have hfirst := (hg.insertTokenData call.1 (hhyd call List.mem_cons_self)).wf
        exact ih (fun c hc => hhyd c (List.mem_cons_of_mem _ hc)) hfirst
  exact hrun Wf.empty

/-! ## Nodes -/

theorem mem_of_known {p : NodePtr} (hp : g.Known p) : p.txid ∈ g.txidToToken :=
  Finmap.mem_iff.mpr ⟨p.tokenid, hp⟩

theorem exists_known {x : Txid} (hx : x ∈ g.txidToToken) : ∃ p, g.Known p ∧ p.txid = x := by
  obtain ⟨t, ht⟩ := Finmap.mem_iff.mp hx
  exact ⟨⟨t, x⟩, ht, rfl⟩

theorem Wf.known_iff (hg : g.Wf) {p : NodePtr} : g.Known p ↔ ∃ node, g.deref p = some node :=
  hg.token_iff p.txid p.tokenid

/-- Only known nodes are reached. -/
theorem Wf.known_of_reach (hg : g.Wf) {p q : NodePtr} (hp : g.Known p)
    (h : ReflTransGen (fun a b => b ∈ g.nodeInputs a) p q) : g.Known q :=
  (hg.token_of_reachable hp h).2

theorem above_iff {p q : NodePtr} (hp : g.Known p) (hq : g.Known q) :
    g.Above q.txid p.txid ↔ ReflTransGen (fun a b => b ∈ g.nodeInputs a) p q := by
  constructor
  · rintro ⟨p', q', hp', hq', hpid, hqid, hreach⟩
    rwa [hp'.ext hp hpid, hq'.ext hq hqid] at hreach
  · exact fun hreach => ⟨p, q, hp, hq, rfl, rfl, hreach⟩

theorem Above.mem {x y : Txid} (h : g.Above y x) : x ∈ g.txidToToken ∧ y ∈ g.txidToToken := by
  obtain ⟨p, q, hp, hq, rfl, rfl, -⟩ := h
  exact ⟨mem_of_known hp, mem_of_known hq⟩

theorem above_refl {x : Txid} (hx : x ∈ g.txidToToken) : g.Above x x := by
  obtain ⟨p, hp, rfl⟩ := exists_known hx
  exact (above_iff hp hp).mpr .refl

theorem Above.trans {x y z : Txid} (hzy : g.Above z y) (hyx : g.Above y x) : g.Above z x := by
  obtain ⟨p, q, hp, hq, rfl, rfl, hreach⟩ := hyx
  obtain ⟨q', r, hq', hr, hqid, rfl, hreach'⟩ := hzy
  rw [hq'.ext hq hqid] at hreach'
  exact (above_iff hp hr).mpr (hreach.trans hreach')

theorem Wf.exists_stores (hg : g.Wf) {x : Txid} (hx : x ∈ g.txidToToken) : ∃ d, g.Stores x d := by
  obtain ⟨p, hp, rfl⟩ := exists_known hx
  obtain ⟨node, hnode⟩ := hg.known_iff.mp hp
  exact ⟨node.txdata, p, node, hp, rfl, hnode, rfl⟩

/-- What a node holds is the raw transaction with its id. -/
theorem Wf.stores_iff (hg : g.Wf) {tx : Transaction} (htx : tx.Hydrated) {y : Txid} :
    g.Stores y tx.serialized ↔ y = tx.txid ∧ g.Stores tx.txid tx.serialized := by
  refine ⟨fun h => ?_, fun h => h.1 ▸ h.2⟩
  have hid : y = tx.txid := by
    obtain ⟨p, node, hp, rfl, hnode, hdata⟩ := h
    obtain ⟨u, hu, hid, hdata'⟩ := hg.decodes hnode
    rw [← hid, hu.eq_of_serialized htx (hdata' ▸ hdata)]
  exact ⟨hid, hid ▸ h⟩

theorem Wf.stores_hydrated (hg : g.Wf) {y : Txid} {d : Bytes} (h : g.Stores y d) :
    ∃ tx : Transaction, tx.Hydrated ∧ tx.txid = y ∧ d = tx.serialized := by
  obtain ⟨p, node, hp, rfl, hnode, rfl⟩ := h
  exact hg.decodes hnode

theorem Stores.unique {y : Txid} {d d' : Bytes} (h : g.Stores y d) (h' : g.Stores y d') :
    d = d' := by
  obtain ⟨p, node, hp, rfl, hnode, rfl⟩ := h
  obtain ⟨q, node', hq, hid, hnode', rfl⟩ := h'
  rw [hq.ext hp hid, hnode, Option.some.injEq] at hnode'
  rw [hnode']

theorem Stores.mem {y : Txid} {d : Bytes} (h : g.Stores y d) : y ∈ g.txidToToken := by
  obtain ⟨p, node, hp, rfl, -⟩ := h
  exact mem_of_known hp

theorem mem_txdata_iff {ps : List NodePtr} (hps : ∀ p ∈ ps, g.Known p) {d : Bytes} :
    d ∈ g.txdata ps ↔ ∃ p ∈ ps, g.Stores p.txid d := by
  rw [txdata, List.map_filterMap, List.mem_filterMap]
  refine exists_congr fun p => and_congr_right fun hp => ?_
  rw [Option.map_eq_some_iff]
  constructor
  · rintro ⟨node, hnode, hd⟩
    exact ⟨p, node, hps p hp, rfl, hnode, hd⟩
  · rintro ⟨q, node, hq, hid, hnode, hd⟩
    rw [hq.ext (hps p hp) hid] at hnode
    exact ⟨node, hnode, hd⟩

/-! ## Searches -/

theorem ExclusionSet.closed (hg : g.Wf) {exclude : List Txid} {seen : Finset NodePtr}
    (h : g.ExclusionSet exclude seen) : ∀ p ∈ seen, ∀ q ∈ g.nodeInputs p, q ∈ seen := by
  intro p hp q hq
  obtain ⟨hknown, e, he, habove⟩ := (h p).mp hp
  have hqk : g.Known q := hg.known_of_reach hknown (.single hq)
  exact (h q).mpr ⟨hqk, e, he, ((above_iff hknown hqk).mpr (.single hq)).trans habove⟩

theorem Wf.exclusionSet_concat (hg : g.Wf) {exclude : List Txid} {seen : Finset NodePtr}
    (h : g.ExclusionSet exclude seen) (x : Txid) :
    ∃ b seen', g.buildExclusionSet x seen = .ok (b, seen') ∧
      g.ExclusionSet (exclude ++ [x]) seen' := by
  have hsplit : ∀ y, (∃ e ∈ exclude ++ [x], g.Above y e) ↔
      (∃ e ∈ exclude, g.Above y e) ∨ g.Above y x := fun y => by
    simp only [List.mem_append, List.mem_singleton, or_and_right, exists_or, exists_eq_left]
  cases ht : g.txidToToken.lookup x with
  | none =>
      have hx : x ∉ g.txidToToken := Finmap.lookup_eq_none.mp ht
      refine ⟨false, seen, by rw [buildExclusionSet, ht], fun p => ?_⟩
      rw [h p, hsplit, or_iff_left fun habove => hx habove.mem.1]
  | some t =>
      have hknown : g.Known ⟨t, x⟩ := ht
      obtain ⟨node, hnode⟩ := hg.known_iff.mp hknown
      obtain ⟨s, hs, -, hseen, -⟩ := hg.searchFrom_closed (h.closed hg) ⟨t, x⟩
      refine ⟨true, s.seen, ?_, fun p => ?_⟩
      · rw [buildExclusionSet, ht]
        simp only [hnode, hs, bind, Except.bind]
      · rw [hseen, h p, hsplit, and_or_left]
        refine or_congr_right ⟨fun hreach => ?_, fun h => (above_iff hknown h.1).mp h.2⟩
        have hp := hg.known_of_reach hknown hreach
        exact ⟨hp, (above_iff hknown hp).mpr hreach⟩

theorem Wf.exclusionSet_foldlM (hg : g.Wf) (exclude : List Txid) :
    ∃ seen, exclude.foldlM (fun seen x => do .ok (← g.buildExclusionSet x seen).2) ∅ =
      Except.ok seen ∧ g.ExclusionSet exclude seen := by
  induction exclude using List.reverseRecOn with
  | nil => exact ⟨∅, rfl, fun p => by simp⟩
  | append_singleton exclude x ih =>
      obtain ⟨seen, hrun, hseen⟩ := ih
      obtain ⟨b, seen', hstep, hseen'⟩ := hg.exclusionSet_concat hseen x
      refine ⟨seen', foldlM_concat.mpr ⟨seen, hrun, ?_⟩, hseen'⟩
      simp only [hstep, bind, Except.bind]

/-- A search returns the transaction and its ancestors that are not excluded. -/
theorem Wf.graphSearchPtr_above (hg : g.Wf) {x : Txid} (hx : x ∈ g.txidToToken)
    {exclude : List Txid} {seen : Finset NodePtr} (hseen : g.ExclusionSet exclude seen) :
    ∃ data seen', g.graphSearchPtr x seen = .ok ((.ok, data), seen') ∧ data.Nodup ∧
      ∀ d, d ∈ data ↔ ∃ y, g.Stores y d ∧ g.Above y x ∧
        (y = x ∨ ∀ e ∈ exclude, ¬ g.Above y e) := by
  obtain ⟨t, ht⟩ := Finmap.mem_iff.mp hx
  have hknown : g.Known ⟨t, x⟩ := ht
  obtain ⟨node, hnode⟩ := hg.known_iff.mp hknown
  obtain ⟨s, hs, hnodup, -, hfound⟩ := hg.searchFrom_closed (hseen.closed hg) ⟨t, x⟩
  have hfoundKnown : ∀ p ∈ s.found, g.Known p := by
    intro p hp
    rcases (hfound p).mp hp with rfl | ⟨-, hreach⟩
    · exact hknown
    · exact hg.known_of_reach hknown hreach
  refine ⟨g.txdata s.found, s.seen, ?_, hg.nodup_txdata hnodup, fun d => ?_⟩
  · rw [graphSearchPtr, ht]
    simp only [hnode, hs, bind, Except.bind]
  · rw [mem_txdata_iff hfoundKnown]
    constructor
    · rintro ⟨p, hp, hd⟩
      refine ⟨p.txid, hd, ?_⟩
      rcases (hfound p).mp hp with rfl | ⟨hfree, hreach⟩
      · exact ⟨above_refl hx, .inl rfl⟩
      · refine ⟨(above_iff hknown (hfoundKnown p hp)).mpr hreach, .inr fun e he habove => ?_⟩
        exact hfree ((hseen p).mpr ⟨hfoundKnown p hp, e, he, habove⟩)
    · rintro ⟨y, hd, habove, hfree⟩
      obtain ⟨p, hp, rfl⟩ := exists_known habove.mem.2
      refine ⟨p, (hfound p).mpr ?_, hd⟩
      rcases hfree with hpx | hfree
      · exact .inl (hp.ext hknown hpx)
      · refine .inr ⟨fun hmem => ?_, (above_iff hknown hp).mp habove⟩
        obtain ⟨-, e, he, hexcl⟩ := (hseen p).mp hmem
        exact hfree e he hexcl

end TxGraph

namespace Server
open TxGraph

/-- The exclusions that the loop of `GraphSearch` reaches. -/
def honoured (limit : ℕ) (exclude : List Txid) : List Txid :=
  if limit ≤ exclude.length then exclude.take 1 else exclude

theorem exclusionSet_honoured {s : Server} (hg : s.g.Wf) (limit : ℕ) (exclude : List Txid) :
    ∃ seen, s.exclusionSet limit exclude = .ok seen ∧
      s.g.ExclusionSet (honoured limit exclude) seen :=
  hg.exclusionSet_foldlM (honoured limit exclude)

/-! ## Confirmed transactions -/

/-- The reply for a transaction of `g` that is not in `mg`. -/
theorem graphSearch_confirmed {s : Server} (hg : s.g.Wf) (order : SetOrder NodePtr) (limit : ℕ)
    (exclude : List Txid) {x : Txid} (hx : x ∈ s.g.txidToToken) (hmg : x ∉ s.mg.txidToToken) :
    ∃ data, s.graphSearch order limit exclude x = .ok (.ok, data) ∧
      ∀ d, d ∈ data ↔ ∃ y, s.g.Stores y d ∧ s.g.Above y x ∧
        (y = x ∨ ∀ e ∈ honoured limit exclude, ¬ s.g.Above y e) := by
  obtain ⟨seen, hexcl, hseen⟩ := exclusionSet_honoured hg limit exclude
  obtain ⟨data, seen', hsearch, -, hdata⟩ := hg.graphSearchPtr_above hx hseen
  have hmem : s.mg.graphSearchPtr x ∅ = .ok ((.notFound, []), ∅) := by
    rw [graphSearchPtr, Finmap.lookup_eq_none.mpr hmg]
  refine ⟨data, ?_, hdata⟩
  simp only [graphSearch, hexcl, hmem, hsearch, bind, Except.bind, reduceCtorEq, if_false]

/-- The reply for `x` leaves out each proper ancestor of `x` that is one of the first
`limit` exclusions or an ancestor of one of them. -/
def OmitsExcluded (s : Server) (order : SetOrder NodePtr) (limit : ℕ) (exclude : List Txid)
    (x : Txid) : Prop :=
  ∃ data, s.graphSearch order limit exclude x = .ok (.ok, data) ∧
    ∀ y, y ≠ x → s.g.Above y x →
      (∃ e ∈ exclude.take (min exclude.length limit), s.g.Above y e) →
      ∀ d, s.g.Stores y d → d ∉ data

/-- Over any graph, exclusions are honoured up to the limit exactly if there are fewer
of them than the limit, or if what the first `limit` of them exclude from the reply is
already excluded by the first one. -/
theorem graphSearch_omitsExcluded_iff (calls : List (Tokenid × List Transaction))
    (hhyd : ∀ call ∈ calls, ∀ tx ∈ call.2, tx.Hydrated) (s : Server)
    (hs : s.g = TxGraph.empty.insertCalls calls) (order : SetOrder NodePtr) (limit : ℕ)
    (exclude : List Txid) (x : Txid) (hx : x ∈ s.g.txidToToken) (hmg : x ∉ s.mg.txidToToken) :
    s.OmitsExcluded order limit exclude x ↔ exclude.length < limit ∨
      ∀ y, y ≠ x → s.g.Above y x → (∃ e ∈ exclude.take limit, s.g.Above y e) →
        ∃ e ∈ exclude.take 1, s.g.Above y e := by
  have hg : s.g.Wf := hs ▸ insertCalls_wf hhyd
  obtain ⟨data, hreply, hdata⟩ := graphSearch_confirmed hg order limit exclude hx hmg
  have htake : exclude.take (min exclude.length limit) = exclude.take limit := by
    rw [← List.take_take, List.take_of_length_le (List.length_take_le' _ _)]
  -- A proper ancestor is left out exactly if an exclusion that the loop reaches is below it.
  have homit : ∀ y, y ≠ x → s.g.Above y x → ((∀ d, s.g.Stores y d → d ∉ data) ↔
      ∃ e ∈ honoured limit exclude, s.g.Above y e) := by
    intro y hyx habove
    constructor
    · intro hfree
      obtain ⟨d, hd⟩ := hg.exists_stores habove.mem.2
      by_contra hnone
      push Not at hnone
      exact hfree d hd ((hdata d).mpr ⟨y, hd, habove, .inr hnone⟩)
    · rintro ⟨e, he, hye⟩ d hd hmem
      obtain ⟨z, hz, -, hfree⟩ := (hdata d).mp hmem
      obtain ⟨tx, htx, rfl, rfl⟩ := hg.stores_hydrated hd
      obtain ⟨rfl, -⟩ := (hg.stores_iff htx).mp hz
      exact hfree.elim hyx fun hfree => hfree e he hye
  have hiff : s.OmitsExcluded order limit exclude x ↔ ∀ y, y ≠ x → s.g.Above y x →
      (∃ e ∈ exclude.take limit, s.g.Above y e) →
        ∃ e ∈ honoured limit exclude, s.g.Above y e := by
    unfold OmitsExcluded
    rw [htake, hreply]
    constructor
    · rintro ⟨data', hdata', h⟩ y hyx habove hexcl
      obtain rfl := (Prod.mk.inj (Except.ok.inj hdata')).2
      exact (homit y hyx habove).mp (h y hyx habove hexcl)
    · exact fun h => ⟨data, rfl, fun y hyx habove hexcl =>
        (homit y hyx habove).mpr (h y hyx habove hexcl)⟩
  rw [hiff]
  by_cases hlt : exclude.length < limit
  · rw [honoured, if_neg (Nat.not_le.mpr hlt), List.take_of_length_le hlt.le]
    exact iff_of_true (fun y _ _ hexcl => hexcl) (.inl hlt)
  · rw [honoured, if_pos (Nat.not_lt.mp hlt), or_iff_right hlt]

/-- The graph of a GENESIS and a SEND of its token. -/
def sampleGraph : Server := { Server.empty false with g := TxGraph.empty.insertCalls sampleCalls }

theorem sampleGraph_above : sampleGraph.g.Above sampleGenesis.txid sampleSend.txid := by
  have hlink : sampleGraph.g.txidToToken.lookup sampleGenesis.txid = some sampleGenesis.txid ∧
      sampleGraph.g.txidToToken.lookup sampleSend.txid = some sampleGenesis.txid ∧
      (⟨sampleGenesis.txid, sampleGenesis.txid⟩ : NodePtr) ∈
        sampleGraph.g.nodeInputs ⟨sampleGenesis.txid, sampleSend.txid⟩ := by decide +kernel
  obtain ⟨hgenesis, hsend, hmem⟩ := hlink
  exact ⟨⟨_, _⟩, ⟨_, _⟩, hsend, hgenesis, rfl, rfl, .single hmem⟩

theorem graphSearch_omitsExcluded_iff_sample :
    sampleGraph.OmitsExcluded (.some _) 2 [sampleGenesis.txid] sampleSend.txid ↔
      [sampleGenesis.txid].length < 2 ∨ ∀ y, y ≠ sampleSend.txid →
        sampleGraph.g.Above y sampleSend.txid →
        (∃ e ∈ [sampleGenesis.txid].take 2, sampleGraph.g.Above y e) →
          ∃ e ∈ [sampleGenesis.txid].take 1, sampleGraph.g.Above y e :=
  graphSearch_omitsExcluded_iff sampleCalls
    (by simp [sampleCalls, sampleGenesis_hydrated, sampleSend_hydrated]) sampleGraph rfl (.some _)
    2 _ _ sampleGraph_above.mem.1 Finmap.notMem_empty

/-- With two exclusions and a limit of two the second one is not looked at: the GENESIS
is sent although it was excluded. -/
theorem second_exclusion_ignored :
    ¬ sampleGraph.OmitsExcluded (.some _) 2 [.zero, sampleGenesis.txid] sampleSend.txid := by
  have hhyd : ∀ call ∈ sampleCalls, ∀ tx ∈ call.2, tx.Hydrated := by
    simp [sampleCalls, sampleGenesis_hydrated, sampleSend_hydrated]
  have habove := sampleGraph_above
  obtain ⟨data, hreply, hdata⟩ := graphSearch_confirmed (insertCalls_wf hhyd) (.some _) 2
    [.zero, sampleGenesis.txid] habove.mem.1 Finmap.notMem_empty
  obtain ⟨d, hd⟩ := (insertCalls_wf hhyd).exists_stores habove.mem.2
  have hzero : Bhash.zero ∉ sampleGraph.g.txidToToken := by decide +kernel
  rintro ⟨data', hreply', homit⟩
  rw [hreply, Except.ok.injEq, Prod.mk.injEq] at hreply'
  obtain rfl := hreply'.2
  refine homit sampleGenesis.txid (by decide) habove
    ⟨sampleGenesis.txid, by simp, above_refl habove.mem.2⟩ d hd
    ((hdata d).mpr ⟨_, hd, habove, .inr fun e he hexcl => hzero ?_⟩)
  obtain rfl : e = .zero := by simpa [honoured] using he
  exact hexcl.mem.1

end Server
end SlpGraphSearch
