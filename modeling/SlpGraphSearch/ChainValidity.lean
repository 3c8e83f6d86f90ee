import SlpGraphSearch.BlockSync
import SlpGraphSearch.LedgerChain
import SlpGraphSearch.ServerRun

/-!
# The validator along a chain

Blocks are offered to the validator sorted, so every verdict is final: after each
block the validator holds exactly the SLP-valid transactions of the blocks so far. What
is written to the cache for a block are the valid ones that it did not know yet.
-/
namespace SlpGraphSearch
open Library Transaction

namespace Server

/-- What `main` writes to the cache for a block: the transactions that the validator
newly accepts, sorted again. -/
def cachedForm (v : Validator) (block : List Transaction) :
    Except Failure (Validator × List Transaction) := do
  let txs ← topologicalSort block
  let (v, validTxs) ← txs.foldlM (offerTx false) (v, [])
  .ok (v, ← topologicalSort validTxs)

/-- The cached forms of a chain of blocks. -/
def cachedForms : Validator → List (List Transaction) → Except Failure (List (List Transaction))
  | _, [] => .ok []
  | v, block :: blocks => do
      let (v, cached) ← cachedForm v block
      .ok (cached :: (← cachedForms v blocks))

/-- The RPC loop collects the transactions of the cached form. -/
theorem cachedForm_of_rpcBlock {s s' : Server} {order : TokenOrder}
    {block validTxs cached : List Transaction} (h : s.rpcBlock order block = .ok (s', validTxs))
    (hc : topologicalSort validTxs = .ok cached) :
    cachedForm s.validator block = .ok (s'.validator, cached) := by
  simp only [rpcBlock, slpsyncBitcoindProcessBlock, utxosyncBlock, bind_eq_ok] at h
  obtain ⟨txs, hsort, ⟨s₁, l⟩, ⟨bch, -, ⟨v, l'⟩, hoffer, hs₁⟩, s₂, ⟨bch', -, hs₂⟩, hr⟩ := h
  obtain ⟨rfl, rfl⟩ := Prod.mk.inj (Except.ok.inj hs₁)
  obtain rfl := Except.ok.inj hs₂
  obtain ⟨rfl, rfl⟩ := Prod.mk.inj (Except.ok.inj hr)
  have hfold : txs.foldlM (offerTx false) (s.validator, []) = .ok (v, l') := hoffer
  simp only [cachedForm, hsort, hfold, hc, bind, Except.bind]

end Server

namespace Validator

/-- The verdicts on the ids `P` are final, and nothing else is known. -/
structure Synced (L : Ledger) (P : Set Txid) (v : Validator) : Prop where
  consistent : v.Consistent L
  settled : (slpRules L.T).Settled v.valid P
  known : ∀ x ∈ v.transactionMap, x ∈ P

variable {L : Ledger} {P : Set Txid} {v : Validator} {tx : Transaction} {txs : List Transaction}

theorem Synced.empty (L : Ledger) : Synced L ∅ .empty where
  consistent := .empty L
  settled := by simpa [Validator.empty] using Rules.Settled.empty
  known x h := by simp [Validator.empty] at h

theorem Synced.mem_valid_iff (h : v.Synced L P) {x : Txid} :
    x ∈ v.valid ↔ x ∈ P ∧ x ∈ SlpValid L.T :=
  ⟨fun hx => ⟨h.known x (h.consistent.held hx), h.settled.sound hx⟩,
    fun hx => h.settled.complete x hx.1 hx.2⟩

/-- A transaction whose valid parents are in `P` is judged by SLP validity. -/
theorem Synced.addTx (h : v.Synced L P) (htx : L.T.lookup tx.txid = some tx)
    (hpar : ∀ y, Parent L.T y tx.txid → y ∈ SlpValid L.T → y ∈ P)
    (hnew : tx.txid ∉ v.transactionMap) :
    ∃ b v', v.addTx tx false = .ok (b, v') ∧ v'.Synced L (insert tx.txid P) ∧
      (∀ x, x ∈ v'.transactionMap ↔
        x ∈ v.transactionMap ∨ x = tx.txid ∧ tx.slp.type ≠ .invalid) ∧
      (b = true ↔ tx.txid ∈ SlpValid L.T) := by
  obtain ⟨b, v', hadd, hv', hmap, hvalid, hb⟩ := h.consistent.addTx htx
  have hholds := h.settled.holds_iff (slpRules_dependsOn L.T) hpar
  have hset := h.settled.visit (slpRules_dependsOn L.T) hpar (W := v'.valid) fun y => by
    rw [Finset.mem_coe, hvalid, Finset.mem_coe, slpRules_holds htx]
  rw [slpRules_holds htx] at hholds
  refine ⟨b, v', hadd, ⟨hv', hset, fun x hx => ?_⟩, hmap, ?_⟩
  · rcases (hmap x).mp hx with hx | ⟨rfl, -⟩
    · exact .inr (h.known x hx)
    · exact .inl rfl
  · rw [hb]
    exact (and_iff_right hnew).trans hholds

/-- One round of the loop over a block. -/
theorem Synced.offerTx (h : v.Synced L P) (htx : L.T.lookup tx.txid = some tx)
    (hpar : ∀ y, Parent L.T y tx.txid → y ∈ SlpValid L.T → y ∈ P) (acc : List Transaction) :
    ∃ v' l, Server.offerTx false (v, acc) tx = .ok (v', acc ++ l) ∧
      v'.Synced L (insert tx.txid P) ∧
      (∀ x, x ∈ v'.transactionMap ↔
        x ∈ v.transactionMap ∨ x = tx.txid ∧ tx.slp.type ≠ .invalid) ∧
      ∀ u, u ∈ l ↔ u = tx ∧ tx.txid ∉ v.transactionMap ∧ tx.txid ∈ SlpValid L.T := by
  unfold Server.offerTx
  by_cases hx : tx.txid ∈ v.transactionMap
  · rw [if_pos (by simpa [has] using hx)]
    refine ⟨v, [], by rw [List.append_nil], ?_, fun x => ?_, fun u => by simp [hx]⟩
    · rw [Set.insert_eq_of_mem (h.known _ hx)]
      exact h
    · exact (or_iff_left_of_imp fun hx' => hx'.1 ▸ hx).symm
  · rw [if_neg (by simpa [has] using hx)]
    obtain ⟨b, v', hadd, hv', hmap, hb⟩ := h.addTx htx hpar hx
    refine ⟨v', if b then [tx] else [], ?_, hv', hmap, fun u => ?_⟩
    · rw [hadd]
      cases b <;> simp [bind, Except.bind]
    · cases b with
      | true => simp [hx, hb.mp rfl]
      | false => simp [mt hb.mpr (by simp)]

/-- The loop over sorted transactions lists the valid ones among the unknown. -/
theorem Synced.offerTxs (h : v.Synced L P) (hmem : ∀ tx ∈ txs, L.T.lookup tx.txid = some tx)
    (hord : ParentsFirst txs) (hnodup : (txs.map Transaction.txid).Nodup)
    (hpar : ParentsIn L P txs) (acc : List Transaction) :
    ∃ v' l, txs.foldlM (Server.offerTx false) (v, acc) = .ok (v', acc ++ l) ∧
      v'.Synced L (P ∪ {x | ∃ tx ∈ txs, tx.txid = x}) ∧
      (∀ x, x ∈ v'.transactionMap ↔
        x ∈ v.transactionMap ∨ ∃ tx ∈ txs, tx.txid = x ∧ tx.slp.type ≠ .invalid) ∧
      ∀ tx, tx ∈ l ↔ tx ∈ txs ∧ tx.txid ∉ v.transactionMap ∧ tx.txid ∈ SlpValid L.T := by
  induction txs generalizing v P acc with
  | nil => exact ⟨v, [], by simp [pure, Except.pure], by simpa using h, by simp, by simp⟩
  | cons tx rest ih =>
      have htx := hmem tx List.mem_cons_self
      obtain ⟨hfirst, hrest⟩ := List.pairwise_cons.mp hord
      rw [List.map_cons, List.nodup_cons] at hnodup
      obtain ⟨v₁, l₁, hstep, h₁, hmap₁, hl₁⟩ := h.offerTx htx (fun _ => hpar.head htx hfirst) acc
      obtain ⟨v', l, hrun, h', hmap', hl⟩ := ih h₁
        (fun t ht => hmem t (List.mem_cons_of_mem _ ht)) hrest hnodup.2 hpar.tail (acc ++ l₁)
      refine ⟨v', l₁ ++ l, ?_, ?_, fun x => ?_, fun t => ?_⟩
      · rw [List.foldlM_cons, hstep, ← List.append_assoc]
        exact hrun
      · rwa [← insert_union_ids]
      · rw [hmap', hmap₁, or_assoc]
        simp only [List.mem_cons, exists_eq_or_imp]
        rw [eq_comm (a := x)]
      · rw [List.mem_append, hl₁, hl, List.mem_cons, or_and_right]
        refine or_congr ?_ ?_
        · constructor
          · rintro ⟨rfl, hrest⟩
            exact ⟨rfl, hrest⟩
          · rintro ⟨rfl, hrest⟩
            exact ⟨rfl, hrest⟩
        · refine and_congr_right fun ht => and_congr_left fun _ => not_congr ?_
          rw [hmap₁]
          exact or_iff_left fun hx => hnodup.1 (hx.1 ▸ List.mem_map_of_mem ht)

/-- The cached form of a block lists its valid transactions. -/
structure CachedForm (L : Ledger) (block cached : List Transaction) : Prop where
  mem_iff : ∀ tx, tx ∈ cached ↔ tx ∈ block ∧ tx.txid ∈ SlpValid L.T
  nodup : (cached.map Transaction.txid).Nodup
  parentsFirst : ParentsFirst cached

theorem Synced.cachedForm (h : v.Synced L P) (hmem : ∀ tx ∈ txs, L.T.lookup tx.txid = some tx)
    (hpar : ParentsIn L P txs) (hnew : ∀ tx ∈ txs, tx.txid ∉ P) :
    ∃ v' cached, Server.cachedForm v txs = .ok (v', cached) ∧
      v'.Synced L (P ∪ {x | ∃ tx ∈ txs, tx.txid = x}) ∧ CachedForm L txs cached := by
  obtain ⟨sorted, hsort, hnodup, hsorted, hord⟩ := Ledger.topologicalSort_spec hmem
  obtain ⟨v', l, hrun, h', -, hl⟩ := h.offerTxs (fun tx htx => hmem tx ((hsorted tx).mp htx)) hord
    hnodup (hpar.congr hsorted) []
  have hlmem : ∀ tx, tx ∈ l ↔ tx ∈ txs ∧ tx.txid ∈ SlpValid L.T := by
    intro tx
    rw [hl, hsorted]
    refine and_congr_right fun htx => and_iff_right fun hk => hnew tx htx (h.known _ hk)
  have hlookup : ∀ tx ∈ l, L.T.lookup tx.txid = some tx := fun tx htx =>
    hmem tx ((hlmem tx).mp htx).1
  obtain ⟨cached, hcache, hcnodup, hcmem, hcord⟩ := Ledger.topologicalSort_spec hlookup
  refine ⟨v', cached, ?_, ?_, fun tx => (hcmem tx).trans (hlmem tx), hcnodup, hcord⟩
  · rw [List.nil_append] at hrun
    simp only [Server.cachedForm, hsort, hrun, hcache, bind, Except.bind]
  · simpa only [hsorted] using h'

/-- The valid parents of the first block are not in a later one. -/
theorem ParentsIn.headBlock {block : List Transaction} {blocks : List (List Transaction)}
    (h : ParentsIn L P (block :: blocks).flatten) (hchain : L.Chain (block :: blocks)) :
    ParentsIn L P block := by
  intro tx htx y hy hyv
  rcases h tx (List.mem_append_left _ htx) y hy hyv with hyP | ⟨u, hu, rfl⟩
  · exact .inl hyP
  · rcases List.mem_append.mp hu with hu | hu
    · exact .inr ⟨u, hu, rfl⟩
    · obtain ⟨t, ht, -, o, ho, hou⟩ := hy
      rw [hchain.head tx htx, Option.some.injEq] at ht
      subst ht
      exact absurd hou (hchain.head_parents htx hu o ho)

theorem ParentsIn.tailBlocks {block : List Transaction} {blocks : List (List Transaction)}
    (h : ParentsIn L P (block :: blocks).flatten) :
    ParentsIn L (P ∪ {x | ∃ tx ∈ block, tx.txid = x}) blocks.flatten := by
  intro tx htx y hy hyv
  rcases h tx (List.mem_append_right _ htx) y hy hyv with hyP | ⟨u, hu, rfl⟩
  · exact .inl (.inl hyP)
  · rcases List.mem_append.mp hu with hu | hu
    · exact .inl (.inr ⟨u, hu, rfl⟩)
    · exact .inr ⟨u, hu, rfl⟩

/-- The cached forms of a chain, whatever was processed before it. -/
theorem Synced.cachedForms {blocks : List (List Transaction)} (h : v.Synced L P)
    (hchain : L.Chain blocks) (hpar : ParentsIn L P blocks.flatten)
    (hnew : ∀ tx ∈ blocks.flatten, tx.txid ∉ P) :
    ∃ cached, Server.cachedForms v blocks = .ok cached ∧
      List.Forall₂ (CachedForm L) blocks cached := by
  induction blocks generalizing v P with
  | nil => exact ⟨[], rfl, .nil⟩
  | cons block blocks ih =>
      obtain ⟨v₁, c, hc, h₁, hform⟩ := h.cachedForm hchain.head (hpar.headBlock hchain)
        fun tx htx => hnew tx (List.mem_append_left _ htx)
      have hnewRest : ∀ tx ∈ blocks.flatten, tx.txid ∉ P ∪ {x | ∃ tx ∈ block, tx.txid = x} := by
        rintro tx htx (hx | ⟨u, hu, hux⟩)
        · exact hnew tx (List.mem_append_right _ htx) hx
        · exact hchain.head_ne hu htx hux
      obtain ⟨cs, hcs, hforms⟩ := ih h₁ hchain.tail hpar.tailBlocks hnewRest
      refine ⟨c :: cs, ?_, hforms.cons hform⟩
      simp only [Server.cachedForms, hc, hcs, bind, Except.bind]

end Validator

namespace Ledger
open Validator

variable {L : Ledger} {blocks cached : List (List Transaction)}

theorem mem_flatten_cachedForms (h : List.Forall₂ (CachedForm L) blocks cached)
    {tx : Transaction} :
    tx ∈ cached.flatten ↔ tx ∈ blocks.flatten ∧ tx.txid ∈ SlpValid L.T := by
  induction h with
  | nil => simp
  | cons hform _ ih =>
      rw [List.flatten_cons, List.mem_append, hform.mem_iff, ih, List.flatten_cons,
        List.mem_append, or_and_right]

/-- The cached forms are a chain of their own. -/
theorem Chain.cachedForms (hchain : L.Chain blocks)
    (h : List.Forall₂ (CachedForm L) blocks cached) : L.Chain cached := by
  induction h with
  | nil => exact hchain
  | cons hform hforms ih =>
      have hin : ∀ {tx}, tx ∈ List.flatten _ → tx ∈ List.flatten _ := fun htx =>
        ((mem_flatten_cachedForms hforms).mp htx).1
      refine Chain.cons (fun tx htx => hchain.head tx ((hform.mem_iff tx).mp htx).1) hform.nodup
        (ih hchain.tail) (fun t ht u hu => ?_) fun t ht u hu => ?_
      · exact hchain.head_ne ((hform.mem_iff t).mp ht).1 (hin hu)
      · exact hchain.head_parents ((hform.mem_iff t).mp ht).1 (hin hu)

/-- A chain that is the whole ledger, from an empty validator. -/
theorem Chain.cachedForms_ok (hchain : L.Chain blocks)
    (hall : ∀ x tx, L.T.lookup x = some tx → tx ∈ blocks.flatten) :
    ∃ cached, Server.cachedForms .empty blocks = .ok cached ∧
      List.Forall₂ (CachedForm L) blocks cached := by
  refine (Synced.empty L).cachedForms hchain (fun tx _ y ⟨_, _, hy, _⟩ _ => ?_) (by simp)
  obtain ⟨u, hu⟩ := KeyedMap.mem_iff.mp hy
  exact .inr ⟨u, hall _ u hu, KeyedMap.key_lookup hu⟩

end Ledger

/-! ## A sample chain -/

/-- A block with a GENESIS and a block with its SEND. -/
def sampleBlocks : List (List Transaction) := [[sampleGenesis], [sampleSend]]

theorem sampleBlocks_chain : Validator.sampleLedger.Chain sampleBlocks where
  member := fun tx htx => (Validator.mem_sampleLedger tx).mp htx
  nodup := by decide
  parents := by decide

theorem sampleBlocks_whole (x : Txid) (tx : Transaction)
    (h : Validator.sampleLedger.T.lookup x = some tx) : tx ∈ sampleBlocks.flatten :=
  (Validator.mem_sampleLedger tx).mpr (KeyedMap.key_lookup h ▸ h)

theorem sampleBlocks_ingestible {tx : Transaction} (h : tx ∈ sampleBlocks.flatten) :
    Ingestible tx := by
  have hcases : tx = sampleGenesis ∨ tx = sampleSend := by simpa [sampleBlocks] using h
  rcases hcases with rfl | rfl
  · exact ⟨sampleGenesis_hydrated, by decide⟩
  · exact ⟨sampleSend_hydrated, by decide⟩

end SlpGraphSearch
