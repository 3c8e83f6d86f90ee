import SlpGraphSearch.CacheSync
import SlpGraphSearch.ChainValidity

/-!
# The two loops of a start

The loop over the cache takes what it reads on trust, the RPC loop judges. Over a chain
both run through. The first brings the validator to the valid transactions of the files
it read; the second makes every verdict final and writes, for each block, its valid
transactions that the validator did not know when the loop began.
-/
namespace SlpGraphSearch
open Library Transaction

/-! ## Blocks by height -/

/-- The ids of the transactions from height `lo` up to, but not at, height `hi`. -/
def idsBetween (blocks : List Block) (lo hi : ℕ) : Set Txid :=
  {x | ∃ height block, lo ≤ height ∧ height < hi ∧ blocks[height]? = some block ∧
    ∃ tx ∈ block.txs, tx.txid = x}

theorem idsBetween_self (blocks : List Block) (lo : ℕ) : idsBetween blocks lo lo = ∅ := by
  ext x
  simp only [idsBetween, Set.mem_ofPred_eq, Set.mem_empty_iff_false, iff_false]
  rintro ⟨height, block, hge, hlt, -⟩
  omega

theorem idsBetween_cons {blocks : List Block} {block : Block} {lo hi : ℕ}
    (hb : blocks[lo]? = some block) (hlt : lo < hi) :
    idsBetween blocks lo hi =
      {x | ∃ tx ∈ block.txs, tx.txid = x} ∪ idsBetween blocks (lo + 1) hi := by
  ext x
  simp only [idsBetween, Set.mem_union, Set.mem_ofPred_eq]
  constructor
  · rintro ⟨height, block', hge, hle, hb', htx⟩
    rcases Nat.eq_or_lt_of_le hge with rfl | hgt
    · rw [hb, Option.some.injEq] at hb'
      exact .inl (hb' ▸ htx)
    · exact .inr ⟨height, block', hgt, hle, hb', htx⟩
  · rintro (htx | ⟨height, block', hge, hle, hb', htx⟩)
    · exact ⟨lo, block, le_rfl, hlt, hb, htx⟩
    · exact ⟨height, block', by omega, hle, hb', htx⟩

theorem mem_idsBetween_iff {blocks : List Block} {lo hi : ℕ} {x : Txid} :
    x ∈ idsBetween blocks lo hi ↔
      ∃ block ∈ (blocks.take hi).drop lo, ∃ tx ∈ block.txs, tx.txid = x := by
  constructor
  · rintro ⟨height, block, hge, hlt, hb, htx⟩
    refine ⟨block, List.mem_iff_getElem?.mpr ⟨height - lo, ?_⟩, htx⟩
    rw [List.getElem?_drop, List.getElem?_take, if_pos (by omega), Nat.add_sub_cancel' hge, hb]
  · rintro ⟨block, hblock, htx⟩
    obtain ⟨i, hi'⟩ := List.mem_iff_getElem?.mp hblock
    rw [List.getElem?_drop, List.getElem?_take] at hi'
    split_ifs at hi' with hlt
    exact ⟨lo + i, block, by omega, hlt, hi', htx⟩

namespace Ledger

variable {L : Ledger} {blockLists : List (List Transaction)}

theorem Chain.sublist (h : L.Chain blockLists) {part : List (List Transaction)}
    (hs : part.Sublist blockLists) : L.Chain part where
  member tx htx := h.member tx (hs.flatten.subset htx)
  nodup := (hs.flatten.map Transaction.txid).nodup h.nodup
  parents := h.parents.sublist hs

/-- An id stands in one block only. -/
theorem Chain.index_unique (h : L.Chain blockLists) {i j : ℕ} {a b : List Transaction}
    (ha : blockLists[i]? = some a) (hb : blockLists[j]? = some b) {t u : Transaction} (ht : t ∈ a)
    (hu : u ∈ b) (hx : t.txid = u.txid) : i = j := by
  have hdisjoint : (blockLists.map (List.map Transaction.txid)).Pairwise List.Disjoint := by
    have hn := h.nodup
    rw [List.map_flatten] at hn
    exact (List.nodup_flatten.mp hn).2
  have hlt : ∀ {i j : ℕ} {a b : List Transaction} {t u : Transaction},
      blockLists[i]? = some a → blockLists[j]? = some b → t ∈ a → u ∈ b → t.txid = u.txid →
      ¬ i < j := by
    intro i j a b t u ha hb ht hu hx hij
    obtain ⟨hi, rfl⟩ := List.getElem?_eq_some_iff.mp ha
    obtain ⟨hj, rfl⟩ := List.getElem?_eq_some_iff.mp hb
    have hd := List.pairwise_iff_getElem.mp (List.pairwise_map.mp hdisjoint) i j hi hj hij
    exact hd (List.mem_map_of_mem ht) (hx ▸ List.mem_map_of_mem hu)
  exact Nat.le_antisymm (Nat.le_of_not_lt (hlt hb ha hu ht hx.symm))
    (Nat.le_of_not_lt (hlt ha hb ht hu hx))

/-- No parent stands in a later block. -/
theorem Chain.parent_index_le (h : L.Chain blockLists) {i j : ℕ} {a b : List Transaction}
    (ha : blockLists[i]? = some a) (hb : blockLists[j]? = some b) {t u : Transaction} (ht : t ∈ a)
    (hu : u ∈ b) {o : Outpoint} (ho : o ∈ t.inputs) (hx : o.txid = u.txid) : j ≤ i := by
  by_contra hij
  obtain ⟨hi, rfl⟩ := List.getElem?_eq_some_iff.mp ha
  obtain ⟨hj, rfl⟩ := List.getElem?_eq_some_iff.mp hb
  exact List.pairwise_iff_getElem.mp h.parents i j hi hj (Nat.lt_of_not_le hij) t ht u hu o ho hx

/-- The ledger of a chain of decoded blocks from a height on. -/
structure ChainFrom (L : Ledger) (height : ℕ) (blocks : List Block) : Prop where
  decoded : ∀ block ∈ blocks, ∃ buf, Block.hydrate buf false = .ok block
  chain : L.Chain ((blocks.drop height).map Block.txs)
  whole : ∀ x tx, L.T.lookup x = some tx → tx ∈ ((blocks.drop height).map Block.txs).flatten

section ChainFrom

variable {first height : ℕ} {blocks : List Block} {block : Block} {tx : Transaction}

theorem ChainFrom.index (hb : blocks[height]? = some block) (hh : first ≤ height) :
    ((blocks.drop first).map Block.txs)[height - first]? = some block.txs := by
  rw [List.getElem?_map, List.getElem?_drop, Nat.add_sub_cancel' hh, hb]
  rfl

theorem ChainFrom.member (h : L.ChainFrom first blocks) (hb : blocks[height]? = some block)
    (hh : first ≤ height) (htx : tx ∈ block.txs) : L.T.lookup tx.txid = some tx :=
  h.chain.member tx
    (List.mem_flatten.mpr ⟨_, List.mem_of_getElem? (ChainFrom.index hb hh), htx⟩)

theorem ChainFrom.height_unique (h : L.ChainFrom first blocks) {height' : ℕ} {block' : Block}
    {u : Transaction} (hb : blocks[height]? = some block) (hh : first ≤ height)
    (hb' : blocks[height']? = some block') (hh' : first ≤ height') (htx : tx ∈ block.txs)
    (hu : u ∈ block'.txs) (hx : tx.txid = u.txid) : height = height' := by
  have heq := h.chain.index_unique (ChainFrom.index hb hh) (ChainFrom.index hb' hh') htx hu hx
  omega

/-- The parents that the ledger knows stand at the same height or below. -/
theorem ChainFrom.parent (h : L.ChainFrom first blocks) (hb : blocks[height]? = some block)
    (hh : first ≤ height) (htx : tx ∈ block.txs) {y : Txid} (hy : Parent L.T y tx.txid) :
    y ∈ idsBetween blocks first (height + 1) := by
  obtain ⟨t, ht, hyT, o, ho, hoy⟩ := hy
  rw [h.member hb hh htx, Option.some.injEq] at ht
  subst ht
  obtain ⟨u, hu⟩ := KeyedMap.mem_iff.mp hyT
  obtain ⟨txs, htxs, hutxs⟩ := List.mem_flatten.mp (h.whole y u hu)
  obtain ⟨i, hi⟩ := List.mem_iff_getElem?.mp htxs
  have huy := KeyedMap.key_lookup hu
  have hle := h.chain.parent_index_le (ChainFrom.index hb hh) hi htx hutxs ho (hoy.trans huy.symm)
  rw [List.getElem?_map, List.getElem?_drop] at hi
  obtain ⟨block', hb', rfl⟩ := Option.map_eq_some_iff.mp hi
  exact ⟨first + i, block', by omega, by omega, hb', u, hutxs, huy⟩

/-- The valid parents of a stretch of blocks, if those below it are in `P`. -/
theorem ChainFrom.parentsIn (h : L.ChainFrom first blocks) {lo hi : ℕ} (hlo : first ≤ lo)
    {P : Set Txid} (hP : ∀ y ∈ idsBetween blocks first lo, y ∈ SlpValid L.T → y ∈ P) :
    Validator.ParentsIn L P ((((blocks.take hi).drop lo).map Block.txs).flatten) := by
  intro tx htx y hy hyv
  obtain ⟨_, htxs, htx⟩ := List.mem_flatten.mp htx
  obtain ⟨block, hblock, rfl⟩ := List.mem_map.mp htxs
  obtain ⟨i, hi'⟩ := List.mem_iff_getElem?.mp hblock
  rw [List.getElem?_drop, List.getElem?_take] at hi'
  split_ifs at hi' with hlt
  obtain ⟨height, block', hge, hle, hb', u, hu, rfl⟩ := h.parent hi' (by omega) htx hy
  by_cases hbelow : height < lo
  · exact .inl (hP _ ⟨height, block', hge, hbelow, hb', u, hu, rfl⟩ hyv)
  · obtain ⟨b, hb, u', hu', hx⟩ := mem_idsBetween_iff.mp
      (⟨height, block', by omega, by omega, hb', u, hu, rfl⟩ : u.txid ∈ idsBetween blocks lo hi)
    exact .inr ⟨u', List.mem_flatten.mpr ⟨_, List.mem_map_of_mem hb, hu'⟩, hx⟩

end ChainFrom

end Ledger

/-! ## The loop over the cache -/

/-- A validator that took the transactions with the ids in `Q` on trust, and no others. -/
structure Validator.Trusting (L : Ledger) (Q : Set Txid) (v : Validator) : Prop where
  known : ∀ {x t}, v.transactionMap.lookup x = some t → L.T.lookup x = some t
  mem_map : ∀ x, x ∈ v.transactionMap ↔ x ∈ Q
  mem_valid : ∀ x, x ∈ v.valid ↔ x ∈ Q

namespace Validator

variable {L : Ledger} {P Q : Set Txid} {v : Validator} {tx : Transaction}

theorem Trusting.empty (L : Ledger) : Trusting L ∅ .empty where
  known h := by simp [Validator.empty] at h
  mem_map x := by simp [Validator.empty]
  mem_valid x := by simp [Validator.empty]

theorem Trusting.offerTx (h : v.Trusting L Q) (htx : L.T.lookup tx.txid = some tx)
    (ht : tx.slp.type ≠ .invalid) (acc : List Transaction) :
    ∃ v' acc', Server.offerTx true (v, acc) tx = .ok (v', acc') ∧
      v'.Trusting L (insert tx.txid Q) := by
  unfold Server.offerTx
  by_cases hx : tx.txid ∈ v.transactionMap
  · rw [if_pos (by simpa [has] using hx), Set.insert_eq_of_mem ((h.mem_map _).mp hx)]
    exact ⟨v, acc, rfl, h⟩
  · rw [if_neg (by simpa [has] using hx), addTx_trusted v ht]
    refine ⟨_, _, rfl, fun {x t} hl => ?_, fun x => ?_, fun x => ?_⟩
    · simp only [offered, KeyedMap.lookup_emplace] at hl
      split_ifs at hl with hxt
      · subst hxt
        rw [KeyedMap.lookup_eq_none.mpr hx, Option.getD_none, Option.some.injEq] at hl
        exact hl ▸ htx
      · exact h.known hl
    · rw [offered, KeyedMap.mem_emplace, h.mem_map]
      exact Iff.rfl
    · rw [Finset.mem_insert, h.mem_valid]
      exact Iff.rfl

theorem Trusting.offerTxs {txs : List Transaction} (h : v.Trusting L Q)
    (hmem : ∀ tx ∈ txs, L.T.lookup tx.txid = some tx ∧ tx.slp.type ≠ .invalid)
    (acc : List Transaction) :
    ∃ v' acc', txs.foldlM (Server.offerTx true) (v, acc) = .ok (v', acc') ∧
      v'.Trusting L (Q ∪ {x | ∃ tx ∈ txs, tx.txid = x}) := by
  induction txs generalizing v Q acc with
  | nil => exact ⟨v, acc, rfl, by simpa using h⟩
  | cons tx txs ih =>
      obtain ⟨htx, ht⟩ := hmem tx List.mem_cons_self
      obtain ⟨v₁, acc₁, hstep, h₁⟩ := h.offerTx htx ht acc
      obtain ⟨v', acc', hrun, h'⟩ := ih h₁ (fun t ht => hmem t (List.mem_cons_of_mem _ ht)) acc₁
      refine ⟨v', acc', by rw [List.foldlM_cons, hstep]; exact hrun, ?_⟩
      rwa [← insert_union_ids]

/-- Trust in the valid ones of `P` is a final verdict on `P`, if no valid parent of them is
elsewhere. -/
theorem Trusting.synced (h : v.Trusting L Q) (hQ : ∀ x, x ∈ Q ↔ x ∈ P ∧ x ∈ SlpValid L.T)
    (hpar : ∀ x ∈ Q, ∀ y, Parent L.T y x → y ∈ SlpValid L.T → y ∈ P) : v.Synced L P where
  consistent :=
    { known := h.known
      held := fun hx => (h.mem_map _).mpr ((h.mem_valid _).mp hx)
      justified := by
        intro x hx
        have hxQ := (h.mem_valid x).mp hx
        refine slpRules_dependsOn L.T (fun y hy => ?_)
          (L.slpValid_justified x ((hQ x).mp hxQ).2)
        rw [Finset.mem_coe, h.mem_valid, hQ]
        exact ⟨fun hyv => ⟨hpar x hxQ y hy hyv, hyv⟩, And.right⟩ }
  settled :=
    { sound := fun x hx => ((hQ x).mp ((h.mem_valid x).mp hx)).2
      complete := fun x hxP hxv => (h.mem_valid x).mpr ((hQ x).mpr ⟨hxP, hxv⟩) }
  known x hx := ((hQ x).mp ((h.mem_map x).mp hx)).1

end Validator
/-- A file whose block is a cached form of the block at its height, for each height from
`lo` up to, but not at, `hi`. -/
def Cache.Exact (L : Ledger) (blocks : List Block) (cache : Cache) (lo hi : ℕ) : Prop :=
  ∀ height block, lo ≤ height → height < hi → blocks[height]? = some block →
    ∃ txs, cache.lookup height = some ({ block with txs := txs }).serialize ∧
      Validator.CachedForm L block.txs txs

/-- A cached copy with part of the transactions of a decoded block is read back. -/
theorem hydrate_cached {block : Block} {buf : Bytes} {txs : List Transaction}
    (h : Block.hydrate buf false = .ok block) (hhyd : ∀ tx ∈ txs, tx.Hydrated)
    (hnodup : (txs.map Transaction.txid).Nodup) (hsub : ∀ tx ∈ txs, tx ∈ block.txs) :
    ∃ cblk, Block.hydrate ({ block with txs := txs }).serialize false = .ok cblk ∧
      cblk.txs = txs := by
  have hlen : txs.length < 2 ^ 64 :=
    ((List.Nodup.of_map _ hnodup).subperm hsub).length_le.trans_lt (Block.length_txs_of_hydrate h)
  have hread := Block.hydrate_serialize (b := { block with txs := txs }) hhyd hlen []
  rw [List.append_nil] at hread
  exact ⟨_, hread, rfl⟩

namespace Server

variable {L : Ledger} {P Q : Set Txid} {s : Server} {first lo hi : ℕ} {blocks : List Block}
  {cache : Cache}

/-- `bch.process_block` under `utxosync`. -/
theorem syncBlock_ok {b : Bch} (hi : b.slpdb.Indexed) {utxosync : Bool} {txs : List Transaction}
    (hing : utxosync = true → ∀ tx ∈ txs, Ingestible tx)
    (hmem : ∀ tx ∈ txs, L.T.lookup tx.txid = some tx) :
    ∃ b', (if utxosync then b.processBlock txs true else .ok b) = .ok b' ∧ b'.slpdb.Indexed := by
  split_ifs with hu
  · exact processBlock_ok hi (hing hu) (L.txidsDetermine hmem) true
  · exact ⟨b, rfl, hi⟩

theorem replayBlock_ok (hv : s.validator.Trusting L Q) (hi : s.bch.slpdb.Indexed)
    {txs : List Transaction} (hing : s.utxosync = true → ∀ tx ∈ txs, Ingestible tx)
    (hmem : ∀ tx ∈ txs, L.T.lookup tx.txid = some tx ∧ tx.slp.type ≠ .invalid)
    (order : TokenOrder) :
    ∃ s', s.replayBlock order txs = .ok s' ∧ s'.utxosync = s.utxosync ∧ s'.bch.slpdb.Indexed ∧
      s'.validator.Trusting L (Q ∪ {x | ∃ tx ∈ txs, tx.txid = x}) := by
  obtain ⟨b, hb, hib⟩ := syncBlock_ok (L := L) hi hing fun tx htx => (hmem tx htx).1
  obtain ⟨b', hb', hib'⟩ := syncBlock_ok (L := L) hib hing fun tx htx => (hmem tx htx).1
  obtain ⟨v, l, hoffer, hv'⟩ := hv.offerTxs hmem []
  have hoffer' : s.offerTxs txs true = .ok (v, l) := hoffer
  refine ⟨{ s with
    bch := b'
    validator := v
    g := insertValidTxs s.g (order.permute (groupByToken l)) }, ?_, rfl, hib', hv'⟩
  simp only [replayBlock, slpsyncBitcoindProcessBlock, utxosyncBlock, hb, hoffer', bind,
    Except.bind, hb']

/-- Over exact files the loop reads all of them and leaves the height of the last. -/
theorem replayCache_ok (hchain : L.ChainFrom first blocks) (hfirst : first ≤ lo) (hlo : lo ≤ hi)
    (hhi : lo < hi → hi ≤ blocks.length) (hfiles : cache.Exact L blocks lo hi)
    (hend : cache.lookup hi = none) (hv : s.validator.Trusting L Q) (hi' : s.bch.slpdb.Indexed)
    (hing : s.utxosync = true → ∀ block ∈ blocks, ∀ tx ∈ block.txs, Ingestible tx)
    (order : ℕ → TokenOrder) (fuel : ℕ) (hfuel : hi - lo < fuel) :
    ∃ s', replayCache order cache fuel lo s = .ok (some ((hi : ℤ) - 1, s')) ∧
      s'.utxosync = s.utxosync ∧ s'.bch.slpdb.Indexed ∧
      s'.validator.Trusting L (Q ∪ (idsBetween blocks lo hi ∩ SlpValid L.T)) := by
  induction fuel generalizing lo s Q with
  | zero => omega
  | succ fuel ih =>
      unfold replayCache
      by_cases heq : lo = hi
      · subst heq
        rw [hend]
        refine ⟨s, rfl, rfl, hi', ?_⟩
        rwa [idsBetween_self, Set.empty_inter, Set.union_empty]
      · have hlt : lo < hi := by omega
        obtain ⟨block, hb⟩ : ∃ block, blocks[lo]? = some block :=
          ⟨_, List.getElem?_eq_getElem (hlt.trans_le (hhi hlt))⟩
        obtain ⟨txs, hfile, hform⟩ := hfiles lo block le_rfl hlt hb
        have hmem : ∀ tx ∈ txs, L.T.lookup tx.txid = some tx ∧ tx.slp.type ≠ .invalid := by
          intro tx htx
          obtain ⟨htx, hvalid⟩ := (hform.mem_iff tx).mp htx
          have hl := hchain.member hb hfirst htx
          exact ⟨hl, fun ht => not_slpRule_invalid ht ((slpRules_holds hl).mp
            (L.slpValid_justified _ hvalid))⟩
        obtain ⟨buf, hbuf⟩ := hchain.decoded block (List.mem_of_getElem? hb)
        obtain ⟨cblk, hread, hcblk⟩ := hydrate_cached hbuf
          (fun tx htx => L.hydrated (hmem tx htx).1) hform.nodup
          fun tx htx => ((hform.mem_iff tx).mp htx).1
        obtain ⟨s₁, hstep, hsync, hi₁, hv₁⟩ := replayBlock_ok hv hi' (fun hu tx htx =>
          hing hu block (List.mem_of_getElem? hb) tx ((hform.mem_iff tx).mp htx).1) hmem (order lo)
        obtain ⟨s', hrun, hsync', hi'', hv'⟩ := ih (Nat.le_succ_of_le hfirst) hlt
          (fun _ => hhi hlt) (fun height block' hge => hfiles height block' (by omega)) hv₁ hi₁
          (fun hu => hing (hsync ▸ hu)) (by omega)
        refine ⟨s', ?_, hsync'.trans hsync, hi'', ?_⟩
        · simp only [hfile, decodedBlock, hread, bind, Except.bind, hcblk, hstep]
          exact hrun
        · have hcached : {x | ∃ tx ∈ block.txs, tx.txid = x} ∩ SlpValid L.T =
              {x | ∃ tx ∈ txs, tx.txid = x} := by
            ext x
            constructor
            · rintro ⟨⟨tx, htx, rfl⟩, hvalid⟩
              exact ⟨tx, (hform.mem_iff tx).mpr ⟨htx, hvalid⟩, rfl⟩
            · rintro ⟨tx, htx, rfl⟩
              obtain ⟨htx, hvalid⟩ := (hform.mem_iff tx).mp htx
              exact ⟨⟨tx, htx, rfl⟩, hvalid⟩
          rwa [idsBetween_cons hb hlt, Set.union_inter_distrib_right, hcached, ← Set.union_assoc]

/-! ## The RPC loop -/

/-- A server whose verdicts on the ids `P` are final. -/
structure SyncedTo (L : Ledger) (P : Set Txid) (s : Server) : Prop where
  validator : s.validator.Synced L P
  indexed : s.bch.slpdb.Indexed

/-- One round. What the validator newly accepts are the valid ones that it did not know. -/
theorem SyncedTo.rpcBlock (h : s.SyncedTo L P) {txs : List Transaction}
    (hmem : ∀ tx ∈ txs, L.T.lookup tx.txid = some tx) (hpar : Validator.ParentsIn L P txs)
    (hing : s.utxosync = true → ∀ tx ∈ txs, Ingestible tx) (order : TokenOrder) :
    ∃ s' validTxs, s.rpcBlock order txs = .ok (s', validTxs) ∧ s'.utxosync = s.utxosync ∧
      s'.SyncedTo L (P ∪ {x | ∃ tx ∈ txs, tx.txid = x}) ∧
      (∀ x, x ∈ s'.validator.transactionMap ↔ x ∈ s.validator.transactionMap ∨
        ∃ tx ∈ txs, tx.txid = x ∧ tx.slp.type ≠ .invalid) ∧
      ∀ tx, tx ∈ validTxs ↔
        tx ∈ txs ∧ tx.txid ∉ s.validator.transactionMap ∧ tx.txid ∈ SlpValid L.T := by
  obtain ⟨sorted, hsort, hnodup, hsorted, hord⟩ := Ledger.topologicalSort_spec hmem
  have hmem' : ∀ tx ∈ sorted, L.T.lookup tx.txid = some tx := fun tx htx =>
    hmem tx ((hsorted tx).mp htx)
  have hing' : s.utxosync = true → ∀ tx ∈ sorted, Ingestible tx := fun hu tx htx =>
    hing hu tx ((hsorted tx).mp htx)
  obtain ⟨b, hb, hib⟩ := syncBlock_ok h.indexed hing' hmem'
  obtain ⟨b', hb', hib'⟩ := syncBlock_ok hib hing' hmem'
  obtain ⟨v, l, hoffer, hv, hmap, hl⟩ := h.validator.offerTxs hmem' hord hnodup
    (hpar.congr hsorted) []
  have hoffer' : s.offerTxs sorted false = .ok (v, l) := hoffer
  refine ⟨{ s with
    bch := b'
    validator := v
    g := insertValidTxs s.g (order.permute (groupByToken l)) }, l, ?_, rfl, ⟨?_, hib'⟩, ?_, ?_⟩
  · simp only [Server.rpcBlock, slpsyncBitcoindProcessBlock, utxosyncBlock, hsort, hb, hoffer',
      bind, Except.bind, hb']
  · simpa only [hsorted] using hv
  · simpa only [hsorted] using hmap
  · simpa only [hsorted] using hl

/-- The whole loop. A file is written for every block, and no other is touched. -/
theorem SyncedTo.rpcLoop {bs : List Block} (h : s.SyncedTo L P) (cache : Cache) (height : ℕ)
    (hchain : L.Chain (bs.map Block.txs))
    (hpar : Validator.ParentsIn L P (bs.map Block.txs).flatten)
    (hing : s.utxosync = true → ∀ block ∈ bs, ∀ tx ∈ block.txs, Ingestible tx)
    (order : ℕ → TokenOrder) :
    ∃ s' cache', rpcLoop order height bs s cache = .ok (s', cache') ∧
      s'.SyncedTo L (P ∪ {x | ∃ block ∈ bs, ∃ tx ∈ block.txs, tx.txid = x}) ∧
      (∀ i block, bs[i]? = some block → ∃ txs,
        cache'.lookup (height + i) = some ({ block with txs := txs }).serialize ∧
        (txs.map Transaction.txid).Nodup ∧ ParentsFirst txs ∧
        ∀ tx, tx ∈ txs ↔ tx ∈ block.txs ∧ tx.txid ∉ s.validator.transactionMap ∧
          tx.txid ∈ SlpValid L.T) ∧
      ∀ k, k < height ∨ height + bs.length ≤ k → cache'.lookup k = cache.lookup k := by
  induction bs generalizing s P height cache with
  | nil => exact ⟨s, cache, rfl, by simpa using h, by simp, fun _ _ => rfl⟩
  | cons block bs ih =>
      rw [List.map_cons] at hchain hpar
      obtain ⟨s₁, validTxs, hstep, hsync, h₁, hmap, hvalid⟩ := h.rpcBlock hchain.head
        (hpar.headBlock hchain) (fun hu => hing hu block List.mem_cons_self) (order height)
      have hlookup : ∀ tx ∈ validTxs, L.T.lookup tx.txid = some tx := fun tx htx =>
        hchain.head tx ((hvalid tx).mp htx).1
      obtain ⟨txs, hsort, hnodup, hmem, hord⟩ := Ledger.topologicalSort_spec hlookup
      obtain ⟨s', cache', hrun, h', hfiles, hother⟩ := ih h₁
        (cacheSlpBlock cache { block with txs := txs } height) (height + 1) hchain.tail
        hpar.tailBlocks
        fun hu block' hb' => hing (hsync ▸ hu) block' (List.mem_cons_of_mem _ hb')
      refine ⟨s', cache', ?_, ?_, ?_, ?_⟩
      · simp only [Server.rpcLoop, hstep, hsort, bind, Except.bind]
        exact hrun
      · convert h' using 1
        ext x
        simp only [Set.mem_union, Set.mem_ofPred_eq, List.mem_cons, exists_eq_or_imp, or_assoc]
      · rintro (_ | i) block' hb'
        · rw [List.getElem?_cons_zero, Option.some.injEq] at hb'
          subst hb'
          refine ⟨txs, ?_, hnodup, hord, fun tx => (hmem tx).trans (hvalid tx)⟩
          rw [Nat.add_zero, hother _ (.inl (Nat.lt_succ_self height)), cacheSlpBlock,
            HashMap.lookup_insert, if_pos rfl]
        · rw [List.getElem?_cons_succ] at hb'
          obtain ⟨txs', hfile, hnodup', hord', hmem'⟩ := hfiles i block' hb'
          have hlater : ∀ tx ∈ block'.txs, tx ∈ (bs.map Block.txs).flatten := fun tx htx =>
            List.mem_flatten.mpr ⟨_, List.mem_map_of_mem (List.mem_of_getElem? hb'), htx⟩
          refine ⟨txs', by rw [← hfile]; congr 1; omega, hnodup', hord', fun tx => ?_⟩
          rw [hmem', hmap]
          refine and_congr_right fun htx => and_congr_left fun _ => not_congr ?_
          exact or_iff_left fun ⟨u, hu, hux, _⟩ => hchain.head_ne hu (hlater tx htx) hux
      · intro k hk
        rw [List.length_cons] at hk
        rw [hother k (by omega), cacheSlpBlock, HashMap.lookup_insert, if_neg (by omega)]

end Server
end SlpGraphSearch
