import SlpGraphSearch.TopologicalSort

/-!
# Chains of blocks

A ledger cut into blocks, as a node would hand them over: every transaction stands in
one block, and none in a block before those of its parents. Inside a block the order
is open; whoever needs one sorts it.
-/
namespace SlpGraphSearch
open Library Transaction

/-- Blocks over a ledger. -/
structure Ledger.Chain (L : Ledger) (blocks : List (List Transaction)) : Prop where
  member : ∀ tx ∈ blocks.flatten, L.T.lookup tx.txid = some tx
  nodup : (blocks.flatten.map Transaction.txid).Nodup
  parents : blocks.Pairwise fun a b => ∀ tx ∈ a, ∀ p ∈ b, ∀ o ∈ tx.inputs, o.txid ≠ p.txid

/-- The SLP transactions of a block in the order in which `process_block` hands them
to the token store. -/
def slpOrder (txs : List Transaction) : List Transaction :=
  match topologicalSort (txs.filter fun tx => tx.slp.type ≠ .invalid) with
  | .ok sorted => sorted
  | .error _ => []

/-- The SLP transactions of a chain in that order. -/
def chainOrder (blocks : List (List Transaction)) : List Transaction :=
  blocks.flatMap slpOrder

theorem ParentsFirst.append {as bs : List Transaction} (ha : ParentsFirst as)
    (hb : ParentsFirst bs) (hab : ∀ a ∈ as, ∀ b ∈ bs, ∀ o ∈ a.inputs, o.txid ≠ b.txid) :
    ParentsFirst (as ++ bs) := List.pairwise_append.mpr ⟨ha, hb, hab⟩

namespace Ledger

variable {L : Ledger} {blocks : List (List Transaction)} {txs block : List Transaction}

/-- Sorting members of a ledger lists each of them once, parents first. -/
theorem topologicalSort_spec (h : ∀ tx ∈ txs, L.T.lookup tx.txid = some tx) :
    ∃ l, topologicalSort txs = .ok l ∧ (l.map Transaction.txid).Nodup ∧
      (∀ tx, tx ∈ l ↔ tx ∈ txs) ∧ ParentsFirst l := by
  obtain ⟨l, hl, hnodup, hmem, hord⟩ :=
    SlpGraphSearch.topologicalSort_spec txs (L.txidsDetermine h)
  exact ⟨l, hl, hnodup, hmem, hord (L.part txs h).acyclic⟩

theorem slpOrder_spec (h : ∀ tx ∈ txs, L.T.lookup tx.txid = some tx) :
    topologicalSort (txs.filter fun tx => tx.slp.type ≠ .invalid) = .ok (slpOrder txs) ∧
      ((slpOrder txs).map Transaction.txid).Nodup ∧
      (∀ tx, tx ∈ slpOrder txs ↔ tx ∈ txs ∧ tx.slp.type ≠ .invalid) ∧
      ParentsFirst (slpOrder txs) := by
  have hfilter : ∀ tx ∈ txs.filter fun tx => tx.slp.type ≠ .invalid,
      L.T.lookup tx.txid = some tx := fun tx htx => h tx (List.mem_filter.mp htx).1
  obtain ⟨l, hl, hnodup, hmem, hord⟩ := topologicalSort_spec hfilter
  have horder : slpOrder txs = l := by rw [slpOrder, hl]
  refine horder ▸ ⟨hl, hnodup, fun tx => ?_, hord⟩
  simp [hmem]

theorem Chain.head (h : L.Chain (block :: blocks)) :
    ∀ tx ∈ block, L.T.lookup tx.txid = some tx := fun tx htx =>
  h.member tx (List.mem_append_left _ htx)

theorem Chain.tail (h : L.Chain (block :: blocks)) : L.Chain blocks where
  member tx htx := h.member tx (List.mem_append_right _ htx)
  nodup := by
    have hn := h.nodup
    rw [List.flatten_cons, List.map_append] at hn
    exact hn.of_append_right
  parents := (List.pairwise_cons.mp h.parents).2

theorem Chain.cons (hmem : ∀ tx ∈ block, L.T.lookup tx.txid = some tx)
    (hnodup : (block.map Transaction.txid).Nodup) (h : L.Chain blocks)
    (hne : ∀ t ∈ block, ∀ u ∈ blocks.flatten, t.txid ≠ u.txid)
    (hpar : ∀ t ∈ block, ∀ u ∈ blocks.flatten, ∀ o ∈ t.inputs, o.txid ≠ u.txid) :
    L.Chain (block :: blocks) where
  member tx htx := (List.mem_append.mp htx).elim (hmem tx) (h.member tx)
  nodup := by
    rw [List.flatten_cons, List.map_append]
    refine List.nodup_append.mpr ⟨hnodup, h.nodup, ?_⟩
    simp only [List.mem_map, forall_exists_index, and_imp]
    rintro _ t ht rfl _ u hu rfl
    exact hne t ht u hu
  parents := List.pairwise_cons.mpr ⟨fun b hb t ht u hu =>
    hpar t ht u (List.mem_flatten.mpr ⟨b, hb, hu⟩), h.parents⟩

/-- No transaction of a later block has an id of the first. -/
theorem Chain.head_ne (h : L.Chain (block :: blocks)) {t u : Transaction} (ht : t ∈ block)
    (hu : u ∈ blocks.flatten) : t.txid ≠ u.txid := by
  have hn := h.nodup
  rw [List.flatten_cons, List.map_append] at hn
  exact (List.nodup_append.mp hn).2.2 _ (List.mem_map_of_mem ht) _ (List.mem_map_of_mem hu)

theorem Chain.head_parents (h : L.Chain (block :: blocks)) {t u : Transaction} (ht : t ∈ block)
    (hu : u ∈ blocks.flatten) : ∀ o ∈ t.inputs, o.txid ≠ u.txid := by
  obtain ⟨b, hb, hub⟩ := List.mem_flatten.mp hu
  exact (List.pairwise_cons.mp h.parents).1 b hb t ht u hub

theorem Chain.mem_chainOrder (h : L.Chain blocks) {tx : Transaction} :
    tx ∈ chainOrder blocks ↔ tx ∈ blocks.flatten ∧ tx.slp.type ≠ .invalid := by
  induction blocks with
  | nil => simp [chainOrder]
  | cons block blocks ih =>
      obtain ⟨-, -, hmem, -⟩ := slpOrder_spec h.head
      rw [chainOrder, List.flatMap_cons, List.mem_append, hmem, List.flatten_cons,
        List.mem_append, ← chainOrder, ih h.tail, or_and_right]

theorem Chain.nodup_chainOrder (h : L.Chain blocks) :
    ((chainOrder blocks).map Transaction.txid).Nodup := by
  induction blocks with
  | nil => simp [chainOrder]
  | cons block blocks ih =>
      obtain ⟨-, hnodup, hmem, -⟩ := slpOrder_spec h.head
      rw [chainOrder, List.flatMap_cons, List.map_append, ← chainOrder]
      refine List.nodup_append.mpr ⟨hnodup, ih h.tail, ?_⟩
      simp only [List.mem_map, forall_exists_index, and_imp]
      rintro _ t ht rfl _ u hu rfl
      exact h.head_ne ((hmem t).mp ht).1 (h.tail.mem_chainOrder.mp hu).1

theorem Chain.parentsFirst_chainOrder (h : L.Chain blocks) : ParentsFirst (chainOrder blocks) := by
  induction blocks with
  | nil => exact List.Pairwise.nil
  | cons block blocks ih =>
      obtain ⟨-, -, hmem, hord⟩ := slpOrder_spec h.head
      rw [chainOrder, List.flatMap_cons, ← chainOrder]
      exact hord.append (ih h.tail) fun t ht u hu =>
        h.head_parents ((hmem t).mp ht).1 (h.tail.mem_chainOrder.mp hu).1

end Ledger
end SlpGraphSearch
