import Mathlib.Order.Interval.Finset.Nat
import SlpGraphSearch.CacheLoops
import SlpGraphSearch.Library.Run

/-!
# The cache across restarts

A replay leaves the height of the last cached block, and the RPC loop starts there. It
processes that block a second time, finds nothing new in it and overwrites its file with
an empty block. Without a cache the loop starts one below the configured height for
the same reason, so a fresh synchronization knows a block that no replay reads.

The cache stays faithful exactly as long as neither block has a valid transaction.
-/
namespace SlpGraphSearch
open Library Transaction

/-- The files from the configured height to the tip decode to the transactions of their
blocks that a fresh synchronization finds valid, and a replay finds the same ones valid. -/
def Faithful (utxosync : Bool) (blockHeight : ℕ) (e : Start) (cache : Cache) : Prop :=
  ∃ fresh freshCache, Server.start utxosync blockHeight e ∅ = .ok (some (fresh, freshCache)) ∧
    (∀ height block, blockHeight ≤ height → e.chain[height]? = some block →
      ∃ blkData cblk, cache.lookup height = some blkData ∧
        Block.hydrate blkData false = .ok cblk ∧ cblk.txs.Nodup ∧
        ∀ tx, tx ∈ cblk.txs ↔ tx ∈ block.txs ∧ tx.txid ∈ fresh.validator.valid) ∧
    ∃ height s, Server.replayCache e.cacheOrder cache (cache.keys.card + 1) blockHeight
        (.empty utxosync) = .ok (some (height, s)) ∧
      s.validator.valid = fresh.validator.valid

/-- The number of blocks at the last start. -/
def lastLength (past : List Start) : ℕ := (past.getLast?.map fun e => e.chain.length).getD 0

/-- No transaction at the height is valid. -/
def NoneValid (L : Ledger) (blocks : List Block) (height : ℕ) : Prop :=
  ∀ block, blocks[height]? = some block → ∀ tx ∈ block.txs, tx.txid ∉ SlpValid L.T

/-- A start that reaches the configured height needs a block below that height, without
valid transactions, and if the chain grew from `n` blocks, which reached it too, also
the tip that it had. -/
def Harmless (L : Ledger) (blockHeight n : ℕ) (e : Start) : Prop :=
  blockHeight < e.chain.length → 0 < blockHeight ∧ NoneValid L e.chain (blockHeight - 1) ∧
    (blockHeight < n → n < e.chain.length → NoneValid L e.chain (n - 1))

/-- The cache after starts of which the last had `n` blocks, none of them harmful. -/
structure Kept (L : Ledger) (blocks : List Block) (blockHeight n : ℕ) (cache : Cache) : Prop where
  below : blockHeight < n → NoneValid L blocks (blockHeight - 1)
  files : cache.Exact L blocks blockHeight n
  ends : ∀ height, max n blockHeight ≤ height → cache.lookup height = none

variable {L : Ledger} {blocks : List Block} {utxosync : Bool} {blockHeight n : ℕ} {cache : Cache}

theorem Kept.empty (L : Ledger) (blocks : List Block) (blockHeight : ℕ) :
    Kept L blocks blockHeight 0 ∅ where
  below h := absurd h (Nat.not_lt_zero _)
  files _ _ _ h := absurd h (Nat.not_lt_zero _)
  ends height _ := Finmap.lookup_empty height

theorem Cache.Exact.card_le (h : cache.Exact L blocks blockHeight n)
    (hn : blockHeight < n → n ≤ blocks.length) : n - blockHeight ≤ cache.keys.card := by
  rw [← Nat.card_Ico]
  refine Finset.card_le_card fun height hheight => ?_
  rw [Finset.mem_Ico] at hheight
  obtain ⟨txs, hfile, -⟩ := h height _ hheight.1 hheight.2
    (List.getElem?_eq_getElem (hheight.2.trans_le (hn (hheight.1.trans_lt hheight.2))))
  exact Finmap.mem_keys.mpr (Finmap.mem_iff.mpr ⟨_, hfile⟩)

/-- A replay of exact files takes their transactions, and leaves the last height. -/
theorem Cache.Exact.replay (hchain : L.ChainFrom (blockHeight - 1) blocks)
    (hing : utxosync = true → ∀ block ∈ blocks, ∀ tx ∈ block.txs, Ingestible tx)
    (hn : blockHeight < n → n ≤ blocks.length) (hfiles : cache.Exact L blocks blockHeight n)
    (hend : cache.lookup (max n blockHeight) = none) (order : ℕ → TokenOrder) :
    ∃ s, Server.replayCache order cache (cache.keys.card + 1) blockHeight (.empty utxosync) =
        .ok (some (((max n blockHeight : ℕ) : ℤ) - 1, s)) ∧
      s.utxosync = utxosync ∧ s.bch.slpdb.Indexed ∧ s.validator.Trusting L
        (idsBetween blocks blockHeight (max n blockHeight) ∩ SlpValid L.T) := by
  have hcard := hfiles.card_le hn
  have hrun := Server.replayCache_ok (s := .empty utxosync) (Q := ∅) hchain (Nat.sub_le _ 1)
    (Nat.le_max_right n blockHeight) (fun h => ?_)
    (fun height block hge hlt => hfiles height block hge (by omega)) hend (.empty L)
    Slpdb.Indexed.empty hing order (cache.keys.card + 1) (by omega)
  · rwa [Set.empty_union] at hrun
  · have hlt : blockHeight < n := by omega
    rw [Nat.max_eq_left hlt.le]
    exact hn hlt

/-- What a start finds after the replay. -/
theorem Kept.replay (h : Kept L blocks blockHeight n cache)
    (hchain : L.ChainFrom (blockHeight - 1) blocks) (hpos : 0 < blockHeight)
    (hing : utxosync = true → ∀ block ∈ blocks, ∀ tx ∈ block.txs, Ingestible tx)
    (hn : n ≤ blocks.length) (order : ℕ → TokenOrder) :
    ∃ s, Server.replayCache order cache (cache.keys.card + 1) blockHeight (.empty utxosync) =
        .ok (some (((max n blockHeight : ℕ) : ℤ) - 1, s)) ∧
      s.utxosync = utxosync ∧ s.SyncedTo L (idsBetween blocks blockHeight (max n blockHeight)) ∧
      s.validator.Trusting L
        (idsBetween blocks blockHeight (max n blockHeight) ∩ SlpValid L.T) := by
  obtain ⟨s, hrun, hsync, hi, htrust⟩ := h.files.replay hchain hing (fun _ => hn)
    (h.ends _ le_rfl) order
  refine ⟨s, hrun, hsync, ⟨htrust.synced (fun _ => Iff.rfl) fun x hx y hy hyv => ?_, hi⟩, htrust⟩
  obtain ⟨⟨height, block, hge, hlt, hb, tx, htx, rfl⟩, -⟩ := hx
  obtain ⟨height', block', hge', hlt', hb', u, hu, rfl⟩ := hchain.parent hb (by omega) htx hy
  have hne : height' ≠ blockHeight - 1 := by
    rintro rfl
    exact h.below (by omega) block' hb' u hu hyv
  exact ⟨height', block', by omega, by omega, hb', u, hu, rfl⟩

/-- A tip that the replay reaches leaves nothing to fetch. -/
theorem Kept.start_idle {e : Start} (h : Kept L blocks blockHeight n cache)
    (hchain : L.ChainFrom (blockHeight - 1) blocks) (hpos : 0 < blockHeight)
    (hing : utxosync = true → ∀ block ∈ blocks, ∀ tx ∈ block.txs, Ingestible tx)
    (hn : n ≤ blocks.length) (htip : e.chain.length ≤ max n blockHeight) :
    ∃ s, Server.start utxosync blockHeight e cache = .ok (some (s, cache)) ∧
      s.validator.Trusting L
        (idsBetween blocks blockHeight (max n blockHeight) ∩ SlpValid L.T) := by
  obtain ⟨s, hrun, -, -, htrust⟩ := h.replay hchain hpos hing hn e.cacheOrder
  refine ⟨s, ?_, htrust⟩
  simp only [Server.start, hrun, bind, Except.bind]
  by_cases hbest : ((max n blockHeight : ℕ) : ℤ) - 1 = (e.chain.length : ℤ) - 1
  · rw [if_pos hbest]
  · have hdrop : e.chain.drop (((max n blockHeight : ℕ) : ℤ) - 1).toNat = [] :=
      List.drop_eq_nil_of_le (by omega)
    rw [if_neg hbest, if_neg (by omega), hdrop]
    rfl

/-- What a start that fetches blocks up to `m` does to the cache. Its files are those of the
last replayed block and of the blocks above. -/
structure Fetched (L : Ledger) (blocks : List Block) (blockHeight n m : ℕ)
    (cache cache' : Cache) : Prop where
  files : ∀ height block, max n blockHeight - 1 ≤ height → height < m →
    blocks[height]? = some block → ∃ txs,
      cache'.lookup height = some ({ block with txs := txs }).serialize ∧
      (txs.map Transaction.txid).Nodup ∧ ParentsFirst txs ∧
      ∀ tx, tx ∈ txs ↔ tx ∈ block.txs ∧
        tx.txid ∉ idsBetween blocks blockHeight (max n blockHeight) ∧ tx.txid ∈ SlpValid L.T
  others : ∀ height, height < max n blockHeight - 1 ∨ m ≤ height →
    cache'.lookup height = cache.lookup height

/-- Otherwise the last replayed block is fetched again, with those above it. -/
theorem Kept.start_fetch {e : Start} (h : Kept L blocks blockHeight n cache)
    (hchain : L.ChainFrom (blockHeight - 1) blocks) (hpos : 0 < blockHeight)
    (hing : utxosync = true → ∀ block ∈ blocks, ∀ tx ∈ block.txs, Ingestible tx)
    (hpre : e.chain <+: blocks) (htip : max n blockHeight < e.chain.length) :
    ∃ s cache', Server.start utxosync blockHeight e cache = .ok (some (s, cache')) ∧
      (∀ x, x ∈ s.validator.valid ↔ (x ∈ idsBetween blocks blockHeight (max n blockHeight) ∨
        x ∈ idsBetween blocks (max n blockHeight - 1) e.chain.length) ∧ x ∈ SlpValid L.T) ∧
      Fetched L blocks blockHeight n e.chain.length cache cache' := by
  have hn : n ≤ blocks.length := (le_max_left _ _).trans (htip.le.trans hpre.length_le)
  obtain ⟨s, hrun, hsync, hsynced, htrust⟩ := h.replay hchain hpos hing hn e.cacheOrder
  have htake : e.chain = blocks.take e.chain.length := List.prefix_iff_eq_take.mp hpre
  have hdrop : (e.chain.drop (max n blockHeight - 1)) =
      (blocks.take e.chain.length).drop (max n blockHeight - 1) := by
    rw [← htake]
  have hsub : ((e.chain.drop (max n blockHeight - 1)).map Block.txs).Sublist
      ((blocks.drop (blockHeight - 1)).map Block.txs) :=
    ((hpre.sublist.drop (max n blockHeight - 1)).trans
      (List.drop_sublist_drop_left blocks (by omega))).map Block.txs
  have hpar : Validator.ParentsIn L (idsBetween blocks blockHeight (max n blockHeight))
      ((e.chain.drop (max n blockHeight - 1)).map Block.txs).flatten := by
    rw [hdrop]
    refine hchain.parentsIn (by omega) fun y hy hyv => ?_
    obtain ⟨height, block, hge, hlt, hb, tx, htx, rfl⟩ := hy
    have hne : height ≠ blockHeight - 1 := by
      rintro rfl
      exact h.below (by omega) block hb tx htx hyv
    exact ⟨height, block, by omega, by omega, hb, tx, htx, rfl⟩
  obtain ⟨s', cache', hloop, hs', hfiles, hother⟩ := hsynced.rpcLoop cache
    (max n blockHeight - 1) (hchain.chain.sublist hsub) hpar
    (fun hu block hb => hing (hsync ▸ hu) block (hpre.subset (List.mem_of_mem_drop hb)))
    e.rpcOrder
  refine ⟨s', cache', ?_, fun x => ?_, fun height block hge hlt hb => ?_, fun height hh => ?_⟩
  · have hnat : (((max n blockHeight : ℕ) : ℤ) - 1).toNat = max n blockHeight - 1 := by omega
    simp only [Server.start, hrun, bind, Except.bind]
    rw [if_neg (by omega), if_neg (by omega), hnat, hloop]
  · rw [hs'.validator.mem_valid_iff, Set.mem_union, Set.mem_ofPred_eq, hdrop,
      ← mem_idsBetween_iff]
  · obtain ⟨txs, hfile, hnodup, hord, hmem⟩ := hfiles (height - (max n blockHeight - 1)) block (by
      rw [hdrop, List.getElem?_drop, List.getElem?_take, Nat.add_sub_cancel' hge, if_pos hlt, hb])
    rw [Nat.add_sub_cancel' hge] at hfile
    refine ⟨txs, hfile, hnodup, hord, fun tx => ?_⟩
    rw [hmem, htrust.mem_map, Set.mem_inter_iff]
    tauto
  · exact hother height (by rw [List.length_drop]; omega)

/-! ## One start -/

section Step

variable {e : Start}

theorem getElem?_of_part {part : List Block} (hpre : part <+: blocks) (height : ℕ)
    (block : Block) :
    part[height]? = some block ↔ height < part.length ∧ blocks[height]? = some block := by
  rw [List.prefix_iff_eq_take.mp hpre, List.getElem?_take, List.length_take,
    Nat.min_eq_left hpre.length_le]
  split_ifs with h <;> simp [h]

theorem noneValid_of_part {part : List Block} (hpre : part <+: blocks) {height : ℕ}
    (hh : height < part.length) : NoneValid L part height ↔ NoneValid L blocks height := by
  refine forall_congr' fun block => ?_
  rw [getElem?_of_part hpre, and_iff_right hh]

/-- A fresh synchronization. -/
theorem start_fresh (hchain : L.ChainFrom (blockHeight - 1) blocks) (hpos : 0 < blockHeight)
    (hing : utxosync = true → ∀ block ∈ blocks, ∀ tx ∈ block.txs, Ingestible tx)
    (hpre : e.chain <+: blocks) :
    ∃ fresh freshCache, Server.start utxosync blockHeight e ∅ = .ok (some (fresh, freshCache)) ∧
      ∀ x, x ∈ fresh.validator.valid ↔ blockHeight < e.chain.length ∧
        x ∈ idsBetween blocks (blockHeight - 1) e.chain.length ∧ x ∈ SlpValid L.T := by
  have hkept := Kept.empty L blocks blockHeight
  rcases Nat.lt_or_ge blockHeight e.chain.length with hlt | hge
  · obtain ⟨s, cache', hstart, hvalid, -⟩ := hkept.start_fetch hchain hpos hing hpre
      (by rwa [Nat.zero_max])
    refine ⟨s, cache', hstart, fun x => ?_⟩
    rw [hvalid, Nat.zero_max, idsBetween_self, and_iff_right hlt]
    simp
  · obtain ⟨s, hstart, htrust⟩ := hkept.start_idle hchain hpos hing (Nat.zero_le _) (e := e)
      (by rwa [Nat.zero_max])
    refine ⟨s, ∅, hstart, fun x => ?_⟩
    rw [htrust.mem_valid, Nat.zero_max, idsBetween_self]
    simp [hge]

/-- A cache that was kept is faithful. -/
theorem Kept.faithful (h : Kept L blocks blockHeight e.chain.length cache)
    (hchain : L.ChainFrom (blockHeight - 1) blocks) (hpos : 0 < blockHeight)
    (hing : utxosync = true → ∀ block ∈ blocks, ∀ tx ∈ block.txs, Ingestible tx)
    (hpre : e.chain <+: blocks) : Faithful utxosync blockHeight e cache := by
  obtain ⟨fresh, freshCache, hfresh, hvalid⟩ := start_fresh hchain hpos hing hpre
  obtain ⟨s, hrun, -, -, htrust⟩ := h.files.replay hchain hing (fun _ => hpre.length_le)
    (h.ends _ le_rfl) e.cacheOrder
  refine ⟨fresh, freshCache, hfresh, fun height block hge hb => ?_, _, s, hrun, ?_⟩
  · obtain ⟨hlt, hb⟩ := (getElem?_of_part hpre height block).mp hb
    obtain ⟨txs, hfile, hform⟩ := h.files height block hge hlt hb
    obtain ⟨buf, hbuf⟩ := hchain.decoded block (List.mem_of_getElem? hb)
    obtain ⟨cblk, hread, rfl⟩ := hydrate_cached hbuf (fun tx htx => L.hydrated
      (hchain.member hb (by omega) ((hform.mem_iff tx).mp htx).1)) hform.nodup
      fun tx htx => ((hform.mem_iff tx).mp htx).1
    refine ⟨_, cblk, hfile, hread, hform.nodup.of_map, fun tx => ?_⟩
    rw [hform.mem_iff, hvalid]
    refine and_congr_right fun htx => ?_
    rw [and_iff_right (hge.trans_lt hlt),
      and_iff_right ⟨height, block, by omega, hlt, hb, tx, htx, rfl⟩]
  · ext x
    rw [htrust.mem_valid, hvalid, Set.mem_inter_iff]
    constructor
    · rintro ⟨⟨height, block, hge, hlt, hb, tx, htx, rfl⟩, hx⟩
      exact ⟨by omega, ⟨height, block, by omega, by omega, hb, tx, htx, rfl⟩, hx⟩
    · rintro ⟨hlt, ⟨height, block, hge, hle, hb, tx, htx, rfl⟩, hx⟩
      have hne : height ≠ blockHeight - 1 := by
        rintro rfl
        exact h.below hlt block hb tx htx hx
      exact ⟨⟨height, block, by omega, by omega, hb, tx, htx, rfl⟩, hx⟩

/-- If nothing was fetched the start was harmless, and the cache is kept. -/
theorem Kept.idle (h : Kept L blocks blockHeight n cache) (hpos : 0 < blockHeight)
    (hpre : e.chain <+: blocks) (hext : n ≤ e.chain.length)
    (htip : e.chain.length ≤ max n blockHeight) :
    Harmless L blockHeight n e ∧ Kept L blocks blockHeight e.chain.length cache := by
  rcases Nat.lt_or_ge blockHeight n with hlt | hge
  · obtain rfl : n = e.chain.length := by omega
    exact ⟨fun _ => ⟨hpos, (noneValid_of_part hpre (by omega)).mpr (h.below hlt),
      fun _ hgrow => absurd hgrow (Nat.lt_irrefl _)⟩, h⟩
  · refine ⟨fun hlt => by omega, fun hlt => by omega, fun height block hle hlt => by omega,
      fun height hh => h.ends height (by omega)⟩

/-- Above the replayed heights the new files are exact. -/
theorem Fetched.exact {m : ℕ} {cache' : Cache} (hf : Fetched L blocks blockHeight n m cache cache')
    (hchain : L.ChainFrom (blockHeight - 1) blocks) :
    cache'.Exact L blocks (max n blockHeight) m := by
  intro height block hge hlt hb
  obtain ⟨txs, hfile, hnodup, hord, hmem⟩ := hf.files height block (by omega) hlt hb
  refine ⟨txs, hfile, fun tx => ?_, hnodup, hord⟩
  rw [hmem]
  refine and_congr_right fun htx => and_iff_right ?_
  rintro ⟨height', block', hge', hlt', hb', u, hu, hx⟩
  have heq := hchain.height_unique hb (by omega) hb' (by omega) htx hu hx.symm
  omega

/-- The last replayed block is written without its valid transactions, which is harmless
if it has none. -/
theorem Fetched.kept (h : Kept L blocks blockHeight n cache) {cache' : Cache}
    (hf : Fetched L blocks blockHeight n e.chain.length cache cache')
    (hchain : L.ChainFrom (blockHeight - 1) blocks) (hpos : 0 < blockHeight)
    (hpre : e.chain <+: blocks) (htip : max n blockHeight < e.chain.length)
    (hharm : Harmless L blockHeight n e) :
    Kept L blocks blockHeight e.chain.length cache' := by
  obtain ⟨-, hbelow, htipvalid⟩ := hharm (by omega)
  refine ⟨fun _ => (noneValid_of_part hpre (by omega)).mp hbelow,
    fun height block hge hlt hb => ?_, fun height hh => ?_⟩
  · rcases Nat.lt_or_ge height (max n blockHeight) with hlow | hhigh
    · rcases Nat.lt_or_ge height (max n blockHeight - 1) with hlower | hlast
      · rw [hf.others height (.inl hlower)]
        exact h.files height block hge (by omega) hb
      · obtain ⟨txs, hfile, hnodup, hord, hmem⟩ := hf.files height block hlast hlt hb
        obtain rfl : height = n - 1 := by omega
        have hnone := (noneValid_of_part hpre (by omega)).mp (htipvalid (by omega) (by omega))
        refine ⟨txs, hfile, fun tx => ?_, hnodup, hord⟩
        rw [hmem]
        exact and_congr_right fun htx => ⟨And.right, fun hx => absurd hx (hnone block hb tx htx)⟩
    · exact hf.exact hchain height block hhigh hlt hb
  · rw [hf.others height (.inr (by omega))]
    exact h.ends height (by omega)

/-- A replay does not see the block below the configured height, and no start sees again
what the last replayed block lost. -/
theorem Fetched.harmless (h : Kept L blocks blockHeight n cache) {cache' : Cache}
    (hf : Fetched L blocks blockHeight n e.chain.length cache cache')
    (hchain : L.ChainFrom (blockHeight - 1) blocks) (hpos : 0 < blockHeight)
    (hing : utxosync = true → ∀ block ∈ blocks, ∀ tx ∈ block.txs, Ingestible tx)
    (hpre : e.chain <+: blocks) (htip : max n blockHeight < e.chain.length)
    (hfaith : Faithful utxosync blockHeight e cache') : Harmless L blockHeight n e := by
  intro hlt
  obtain ⟨fresh, freshCache, hfresh, hfiles, _, s, hrun, hsame⟩ := hfaith
  obtain ⟨fresh', _, hfresh', hvalid⟩ := start_fresh hchain hpos hing hpre
  rw [hfresh, Except.ok.injEq, Option.some.injEq, Prod.mk.injEq] at hfresh'
  obtain ⟨rfl, -⟩ := hfresh'
  have hmem : ∀ {height block tx}, blockHeight - 1 ≤ height → height < e.chain.length →
      blocks[height]? = some block → tx ∈ block.txs → tx.txid ∈ SlpValid L.T →
      tx.txid ∈ fresh.validator.valid := fun hge hle hb htx hx =>
    (hvalid _).mpr ⟨hlt, ⟨_, _, hge, hle, hb, _, htx, rfl⟩, hx⟩
  refine ⟨hpos, ?_, fun hn hgrow => ?_⟩
  · rw [noneValid_of_part hpre (by omega)]
    rcases Nat.lt_or_ge blockHeight n with hn | hn
    · exact h.below hn
    · intro block hb tx htx hx
      have hexact := hf.exact hchain
      rw [Nat.max_eq_right hn] at hexact
      obtain ⟨s', hrun', -, -, htrust⟩ := hexact.replay hchain hing (fun _ => hpre.length_le)
        ((hf.others _ (.inr (by omega))).trans (h.ends _ (by omega))) e.cacheOrder
      rw [hrun, Except.ok.injEq, Option.some.injEq, Prod.mk.injEq] at hrun'
      obtain ⟨-, rfl⟩ := hrun'
      have hx' := hmem le_rfl (by omega) hb htx hx
      rw [← hsame, htrust.mem_valid] at hx'
      obtain ⟨⟨height, block', hge, -, hb', u, hu, hux⟩, -⟩ := hx'
      have heq := hchain.height_unique hb le_rfl hb' (by omega) htx hu hux.symm
      omega
  · rw [noneValid_of_part hpre (by omega)]
    intro block hb tx htx hx
    obtain ⟨txs, hfile, hnodup, -, htxs⟩ := hf.files (n - 1) block (by omega) (by omega) hb
    obtain ⟨buf, hbuf⟩ := hchain.decoded block (List.mem_of_getElem? hb)
    obtain ⟨cblk, hread, rfl⟩ := hydrate_cached hbuf (fun tx htx => L.hydrated
      (hchain.member hb (by omega) ((htxs tx).mp htx).1)) hnodup fun tx htx => ((htxs tx).mp htx).1
    obtain ⟨blkData, cblk', hfile', hread', -, hcblk⟩ := hfiles (n - 1) block (by omega)
      ((getElem?_of_part hpre _ _).mpr ⟨by omega, hb⟩)
    rw [hfile, Option.some.injEq] at hfile'
    subst hfile'
    rw [hread, Except.ok.injEq] at hread'
    subst hread'
    have htx' := (hcblk tx).mpr ⟨htx, hmem (by omega) (by omega) hb htx hx⟩
    exact ((htxs tx).mp htx').2.1 ⟨n - 1, block, by omega, by omega, hb, tx, htx, rfl⟩

/-- One start. It is faithful only if it is harmless, and then the cache is kept. -/
theorem Kept.step (h : Kept L blocks blockHeight n cache)
    (hchain : L.ChainFrom (blockHeight - 1) blocks) (hpos : 0 < blockHeight)
    (hing : utxosync = true → ∀ block ∈ blocks, ∀ tx ∈ block.txs, Ingestible tx)
    (hpre : e.chain <+: blocks) (hext : n ≤ e.chain.length) :
    ∃ cache', cache.step utxosync blockHeight e = .ok cache' ∧
      (Harmless L blockHeight n e → Kept L blocks blockHeight e.chain.length cache') ∧
      (Faithful utxosync blockHeight e cache' → Harmless L blockHeight n e) := by
  rcases Nat.lt_or_ge (max n blockHeight) e.chain.length with htip | htip
  · obtain ⟨s, cache', hstart, -, hf⟩ := h.start_fetch hchain hpos hing hpre htip
    exact ⟨cache', by simp only [Cache.step, hstart, bind, Except.bind],
      hf.kept h hchain hpos hpre htip, hf.harmless h hchain hpos hing hpre htip⟩
  · obtain ⟨s, hstart, -⟩ := h.start_idle hchain hpos hing (hext.trans hpre.length_le) htip
    obtain ⟨hharm, hkept⟩ := h.idle hpos hpre hext htip
    exact ⟨cache, by simp only [Cache.step, hstart, bind, Except.bind], fun _ => hkept,
      fun _ => hharm⟩

end Step

/-! ## Sequences of starts -/

theorem lastLength_concat (past : List Start) (e : Start) :
    lastLength (past ++ [e]) = e.chain.length := by
  simp [lastLength]

theorem lastLength_le {starts past rest : List Start} {e : Start}
    (hext : starts.IsChain fun e e' => e.chain <+: e'.chain) (hev : starts = past ++ e :: rest) :
    lastLength past ≤ e.chain.length := by
  cases hlast : past.getLast? with
  | none => simp [lastLength, hlast]
  | some e' =>
      rw [hev] at hext
      have hgrow := (List.isChain_append.mp hext).2.2 e' hlast e (by simp)
      simpa [lastLength, hlast] using hgrow.length_le

/-- From a configured height of 0 a start finds the counter negative and fetches nothing. -/
theorem start_zero (utxosync : Bool) (e : Start) :
    Server.start utxosync 0 e ∅ = .ok (some (.empty utxosync, ∅)) := by
  have hreplay : Server.replayCache e.cacheOrder ∅ ((∅ : Cache).keys.card + 1) 0
      (.empty utxosync) = .ok (some (-1, .empty utxosync)) := rfl
  simp only [Server.start, hreplay, bind, Except.bind]
  split_ifs with hbest hneg
  · rfl
  · rfl
  · exact absurd (by decide) hneg

theorem faithful_zero_iff {utxosync : Bool} {e : Start} :
    Faithful utxosync 0 e ∅ ↔ e.chain = [] := by
  constructor
  · rintro ⟨fresh, freshCache, -, hfiles, -⟩
    by_contra hne
    obtain ⟨block, blocks, hblocks⟩ := List.exists_cons_of_ne_nil hne
    obtain ⟨blkData, cblk, hfile, -⟩ := hfiles 0 block le_rfl (by rw [hblocks]; rfl)
    simp [Finmap.lookup_empty] at hfile
  · intro hnil
    exact ⟨_, _, start_zero utxosync e, fun height block _ hb => by simp [hnil] at hb, _, _, rfl,
      rfl⟩

/-- Then no cache comes into being, so only an empty chain is cached. -/
theorem starts_faithful_zero (L : Ledger) (utxosync : Bool) (starts : List Start) :
    (Always (Cache.step utxosync 0)
        (fun past cache => ∀ e ∈ past.getLast?, Faithful utxosync 0 e cache) ∅ starts ↔
      EveryStep (Cache.step utxosync 0)
        (fun past _ e => Harmless L 0 (lastLength past) e) ∅ starts) ∧
    ∃ cache, starts.foldlM (Cache.step utxosync 0) ∅ = .ok cache := by
  have hstep : ∀ e, Cache.step utxosync 0 ∅ e = .ok ∅ := fun e => by
    simp only [Cache.step, start_zero, bind, Except.bind]
  have hharm : ∀ n e, Harmless L 0 n e ↔ e.chain = [] := by
    intro n e
    rw [Harmless, ← List.length_eq_zero_iff]
    constructor
    · intro h
      by_contra hne
      exact absurd (h (Nat.pos_of_ne_zero hne)).1 (lt_irrefl 0)
    · exact fun h hlt => absurd hlt (by omega)
  constructor
  · refine always_iff_everyStep_of_inv
      (I := fun past cache => cache = ∅ ∧ ∀ e ∈ past.getLast?, e.chain = [])
      ⟨rfl, by simp⟩ (fun past cache hI e he => hI.1 ▸ faithful_zero_iff.mpr (hI.2 e he))
      fun past e rest cache cache' _ hI _ hcache' => ?_
    rw [hI.1, hstep, Except.ok.injEq] at hcache'
    subst hcache'
    rw [hharm]
    refine ⟨fun hP => faithful_zero_iff.mp (hP e (by simp)), fun hC => ⟨rfl, fun e' he' => ?_⟩⟩
    rw [List.getLast?_concat, Option.mem_some_iff] at he'
    exact he' ▸ hC
  · refine ⟨∅, ?_⟩
    induction starts with
    | nil => rfl
    | cons e starts ih =>
        rw [List.foldlM_cons, hstep]
        exact ih

/-- For any starts, each on an extension of the chain before it: the cache is faithful
after every one of them exactly if all of them are harmless, and then they all get
through. -/
theorem starts_faithful_iff (L : Ledger) {blocks : List Block} {utxosync : Bool}
    {blockHeight : ℕ} (hchain : L.ChainFrom (blockHeight - 1) blocks)
    (hing : utxosync = true → ∀ block ∈ blocks, ∀ tx ∈ block.txs, Ingestible tx)
    {starts : List Start} (hpre : ∀ e ∈ starts, e.chain <+: blocks)
    (hext : starts.IsChain fun e e' => e.chain <+: e'.chain) :
    (Always (Cache.step utxosync blockHeight)
        (fun past cache => ∀ e ∈ past.getLast?, Faithful utxosync blockHeight e cache) ∅ starts ↔
      EveryStep (Cache.step utxosync blockHeight)
        (fun past _ e => Harmless L blockHeight (lastLength past) e) ∅ starts) ∧
    (EveryStep (Cache.step utxosync blockHeight)
        (fun past _ e => Harmless L blockHeight (lastLength past) e) ∅ starts →
      ∃ cache, starts.foldlM (Cache.step utxosync blockHeight) ∅ = .ok cache) := by
  rcases Nat.eq_zero_or_pos blockHeight with rfl | hpos
  · exact (starts_faithful_zero L utxosync starts).imp_right fun hrun _ => hrun
  have hin : ∀ past e rest, starts = past ++ e :: rest → e.chain <+: blocks :=
    fun past e rest hev => hpre e (by simp [hev])
  have hstep : ∀ past e rest cache, starts = past ++ e :: rest →
      Kept L blocks blockHeight (lastLength past) cache →
      ∃ cache', cache.step utxosync blockHeight e = .ok cache' ∧
        (Harmless L blockHeight (lastLength past) e →
          Kept L blocks blockHeight (lastLength (past ++ [e])) cache') ∧
        (Faithful utxosync blockHeight e cache' → Harmless L blockHeight (lastLength past) e) :=
    fun past e rest cache hev hkept => lastLength_concat past e ▸
      hkept.step hchain hpos hing (hin past e rest hev) (lastLength_le hext hev)
  constructor
  · refine always_iff_everyStep_of_inv
      (I := fun past cache => Kept L blocks blockHeight (lastLength past) cache ∧
        ∀ e ∈ past.getLast?, e.chain <+: blocks)
      ⟨Kept.empty L blocks blockHeight, by simp⟩ (fun past cache hI e he => ?_)
      fun past e rest cache cache' hev hI _ hcache' => ?_
    · have hlast : lastLength past = e.chain.length := by
        rw [lastLength, Option.mem_def.mp he]
        rfl
      exact (hlast ▸ hI.1).faithful hchain hpos hing (hI.2 e he)
    · obtain ⟨cache₂, hcache₂, hkept, hharm⟩ := hstep past e rest cache hev hI.1
      rw [hcache', Except.ok.injEq] at hcache₂
      subst hcache₂
      refine ⟨fun hP => hharm (hP e (by simp)), fun hC => ⟨hkept hC, fun e' he' => ?_⟩⟩
      rw [List.getLast?_concat, Option.mem_some_iff] at he'
      exact he' ▸ hin past e rest hev
  · intro hevery
    refine hevery.run_ok (I := fun past cache => Kept L blocks blockHeight (lastLength past) cache)
      (Kept.empty L blocks blockHeight) fun past e rest cache hev hkept _ => ?_
    obtain ⟨cache', hcache', hnext, -⟩ := hstep past e rest cache hev hkept
    exact ⟨cache', hcache', hnext⟩

def restartBlock (txs : List Transaction) : Block :=
  Block.hashed ⟨.zero, 2, .zero, .zero, 0, 0, 0, txs⟩

/-- Blocks of a chain that brings the whole ledger. -/
theorem restart_chainFrom {txss : List (List Transaction)}
    (hchain : Validator.sampleLedger.Chain txss) (hlen : ∀ txs ∈ txss, txs.length < 2 ^ 64)
    (hwhole : ∀ tx ∈ [sampleGenesis, sampleSend], tx ∈ txss.flatten) :
    Validator.sampleLedger.ChainFrom 0 (txss.map restartBlock) := by
  have htxs : (txss.map restartBlock).map Block.txs = txss := by
    rw [List.map_map]
    exact List.map_id txss
  refine ⟨fun block hblock => ?_, by rwa [List.drop_zero, htxs], fun x tx h => ?_⟩
  · obtain ⟨txs, hin, rfl⟩ := List.mem_map.mp hblock
    have hhyd : ∀ tx ∈ txs, tx.Hydrated := fun tx htx =>
      Ledger.hydrated _ (hchain.member tx (List.mem_flatten.mpr ⟨txs, hin, htx⟩))
    exact ⟨_, Block.hydrate_serialize (b := ⟨.zero, 2, .zero, .zero, 0, 0, 0, txs⟩) hhyd
      (hlen txs hin) []⟩
  · rw [List.drop_zero, htxs]
    exact hwhole tx ((Validator.mem_sampleLedger tx).mpr (KeyedMap.key_lookup h ▸ h))

/-- A GENESIS, an empty block on top of it and a block with the SEND. -/
def quietBlocks : List Block := [[], [sampleGenesis], [], [sampleSend]].map restartBlock

/-- A start when the node has the first `n` of these blocks. -/
def quietAt (n : ℕ) : Start :=
  ⟨quietBlocks.take n, fun _ => .insertion _, fun _ => .insertion _⟩

/-- The tip of the first start is the empty block. -/
theorem starts_faithful_iff_sample :
    Always (Cache.step true 1)
      (fun past cache => ∀ e ∈ past.getLast?, Faithful true 1 e cache) ∅ [quietAt 3, quietAt 4] ∧
    ∃ cache, [quietAt 3, quietAt 4].foldlM (Cache.step true 1) ∅ = .ok cache := by
  have hmem : ∀ tx, tx ∈ [[], [sampleGenesis], [], [sampleSend]].flatten →
      tx ∈ [sampleGenesis, sampleSend] := by simp
  have hchain : Validator.sampleLedger.ChainFrom (1 - 1) quietBlocks :=
    restart_chainFrom ⟨fun tx htx => (Validator.mem_sampleLedger tx).mp (hmem tx htx),
      by decide, by decide⟩ (by decide) (by simp)
  have hing : true = true → ∀ block ∈ quietBlocks, ∀ tx ∈ block.txs, Ingestible tx := by
    intro _ block hblock tx htx
    obtain ⟨txs, hin, rfl⟩ := List.mem_map.mp hblock
    refine sampleBlocks_ingestible ?_
    exact hmem tx (List.mem_flatten.mpr ⟨txs, hin, htx⟩)
  have hpre : ∀ e ∈ [quietAt 3, quietAt 4], e.chain <+: quietBlocks := fun e he => by
    rcases List.mem_pair.mp he with rfl | rfl
    · exact List.take_prefix 3 quietBlocks
    · exact List.take_prefix 4 quietBlocks
  have hext : [quietAt 3, quietAt 4].IsChain fun e e' => e.chain <+: e'.chain := by
    rw [List.isChain_pair]
    exact List.take_prefix_take_left (by omega)
  have hquiet : ∀ e ∈ [quietAt 3, quietAt 4], ∀ n, n = 0 ∨ n = 3 →
      Harmless Validator.sampleLedger 1 n e := by
    intro e he n hn _
    have hnone : ∀ height, height = 0 ∨ height = 2 →
        NoneValid Validator.sampleLedger e.chain height := by
      intro height hheight block hblock tx htx
      have hb : quietBlocks[height]? = some block :=
        ((getElem?_of_part (hpre e he) height block).mp hblock).2
      rcases hheight with rfl | rfl
      · obtain rfl : restartBlock [] = block := Option.some.inj hb
        exact absurd htx List.not_mem_nil
      · obtain rfl : restartBlock [] = block := Option.some.inj hb
        exact absurd htx List.not_mem_nil
    refine ⟨by decide, hnone 0 (.inl rfl), fun hlow _ => hnone (n - 1) ?_⟩
    omega
  obtain ⟨hiff, hok⟩ := starts_faithful_iff _ hchain hing hpre hext
  have hevery : EveryStep (Cache.step true 1)
      (fun past _ e => Harmless Validator.sampleLedger 1 (lastLength past) e) ∅
      [quietAt 3, quietAt 4] := by
    intro past e rest hev _ _ _ _
    refine hquiet e (hev ▸ List.mem_append_right _ List.mem_cons_self) _ ?_
    match past, hev with
    | [], _ => exact .inl rfl
    | [e₁], hev =>
        obtain ⟨rfl, -⟩ := List.cons.inj hev
        exact .inr rfl
    | e₁ :: e₂ :: past, hev =>
        have hlength := congrArg List.length hev
        simp at hlength
  exact ⟨hiff.mpr hevery, hok hevery⟩

/-- An empty block, a block with a GENESIS and a block with its SEND. -/
def restartBlocks : List Block := [[], [sampleGenesis], [sampleSend]].map restartBlock

/-- A start when the node has the first `n` blocks. -/
def restartAt (n : ℕ) : Start :=
  ⟨restartBlocks.take n, fun _ => .insertion _, fun _ => .insertion _⟩

theorem restartBlocks_chainFrom : Validator.sampleLedger.ChainFrom 0 restartBlocks :=
  restart_chainFrom ⟨fun tx htx => (Validator.mem_sampleLedger tx).mp (by simpa using htx),
    by decide, by decide⟩ (by decide) (by simp)

theorem restartAt_isChain :
    [restartAt 2, restartAt 3].IsChain fun e e' => e.chain <+: e'.chain := by
  rw [List.isChain_pair]
  exact List.take_prefix_take_left (by omega)

/-- The second start fetches the block with the GENESIS again and empties its file. -/
theorem second_start_not_faithful :
    Validator.sampleLedger.ChainFrom 0 restartBlocks ∧
      ([restartAt 2, restartAt 3].IsChain fun e e' => e.chain <+: e'.chain) ∧
      ∃ cache, [restartAt 2, restartAt 3].foldlM (Cache.step false 1) ∅ = .ok cache ∧
        ¬ Faithful false 1 (restartAt 3) cache := by
  have hfresh : ∃ r, Server.start false 1 (restartAt 3) ∅ = .ok r ∧
      ∃ state ∈ r, sampleGenesis.txid ∈ state.1.validator.valid := by decide +kernel
  have hrun : ∃ cache, [restartAt 2, restartAt 3].foldlM (Cache.step false 1) ∅ = .ok cache ∧
      ∃ blkData ∈ cache.lookup 1, ∃ cblk, Block.hydrate blkData false = .ok cblk ∧
        cblk.txs = [] := by decide +kernel
  obtain ⟨_, hstart, ⟨fresh, freshCache⟩, rfl, hvalid⟩ := hfresh
  obtain ⟨cache, hcache, blkData, hfile, cblk, hread, hempty⟩ := hrun
  refine ⟨restartBlocks_chainFrom, restartAt_isChain, cache, hcache, ?_⟩
  rintro ⟨fresh', _, hstart', hfiles, -⟩
  rw [hstart, Except.ok.injEq, Option.some.injEq, Prod.mk.injEq] at hstart'
  obtain ⟨rfl, -⟩ := hstart'
  obtain ⟨blkData', cblk', hfile', hread', -, hmem⟩ := hfiles 1 (restartBlock [sampleGenesis])
    le_rfl rfl
  rw [Option.mem_def.mp hfile, Option.some.injEq] at hfile'
  rw [← hfile', hread, Except.ok.injEq] at hread'
  have hin := (hmem sampleGenesis).mpr ⟨List.mem_singleton.mpr rfl, hvalid⟩
  rw [← hread', hempty] at hin
  exact List.not_mem_nil hin

end SlpGraphSearch
