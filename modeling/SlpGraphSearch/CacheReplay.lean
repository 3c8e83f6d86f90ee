import SlpGraphSearch.ChainValidity
import SlpGraphSearch.SlpdbRun

/-!
# Replaying cached blocks

The cache keeps the SLP-valid transactions of each block and drops the others, so what a
replay misses is what the dropped transactions did: the token outputs they left, the
outputs of kept transactions they spent, and, in the token store, what it recorded
only because it had seen them.
-/
namespace SlpGraphSearch
open Library Transaction

/-- The outpoint maps and the outputs of every token agree. -/
def SameUtxos (b b' : Bch) : Prop :=
  b.utxodb.outpointMap = b'.utxodb.outpointMap ∧
    ∀ tokenid, (b.slpdb.token tokenid).utxos = (b'.slpdb.token tokenid).utxos

/-- An input of some transaction of the blocks. -/
def SpentIn (blocks : List (List Transaction)) (o : Outpoint) : Prop :=
  o ∈ blocks.flatten.flatMap Transaction.inputs

/-- The token store records the transaction along the blocks, by its rule. -/
def RecordedIn (L : Ledger) (blocks : List (List Transaction)) (tx : Transaction) : Prop :=
  tx.txid ∈ slpdbRecorded L.T (chainOrder blocks)

/-- An outpoint of the transaction that one of the stores may hold: a spendable token
output, or an output that the token store recorded along the blocks. -/
def Tracked (L : Ledger) (blocks : List (List Transaction)) (tx : Transaction) (o : Outpoint) :
    Prop :=
  (∃ out ∈ spendable tx, out.outpoint = o) ∨ RecordedIn L blocks tx ∧ tx.tokenOutput o ≠ none

/-- The dropped transactions leave no trace. Whatever tracked output they have is spent
in the chain, they spend no tracked output of a kept one, and a kept one with an unspent
token output is recorded with them exactly if it is recorded without them. -/
structure DropsNothing (L : Ledger) (blocks cached : List (List Transaction)) : Prop where
  leave : ∀ tx ∈ blocks.flatten, tx.txid ∉ SlpValid L.T → ∀ o, Tracked L blocks tx o →
    SpentIn blocks o
  take : ∀ tx ∈ blocks.flatten, tx.txid ∈ SlpValid L.T → ∀ o, Tracked L cached tx o →
    SpentIn blocks o → SpentIn cached o
  record : ∀ tx ∈ blocks.flatten, tx.txid ∈ SlpValid L.T → ∀ o, tx.tokenOutput o ≠ none →
    ¬ SpentIn blocks o → (RecordedIn L blocks tx ↔ RecordedIn L cached tx)

/-! ## Both stores after a chain -/

variable {L : Ledger}

/-- Blocks confirm the spendable token outputs of the chain that it does not spend. -/
theorem mem_foldl_confirmBlock {blocks : List (List Transaction)} (h : L.Chain blocks)
    {S : Finset Output} {out : Output} :
    out ∈ blocks.foldl confirmBlock S ↔
      (out ∈ S ∨ ∃ tx ∈ blocks.flatten, out ∈ spendable tx) ∧ ¬ SpentIn blocks out.outpoint := by
  induction blocks generalizing S with
  | nil => simp [SpentIn]
  | cons block blocks ih =>
      have hlater : ∀ tx ∈ blocks.flatten, out ∈ spendable tx →
          out.outpoint ∉ block.flatMap Transaction.inputs := by
        intro tx htx hout hin
        obtain ⟨t, ht, ho⟩ := List.mem_flatMap.mp hin
        exact h.head_parents ht htx _ ho
          (outpoint_txid_of_spendable (L.hydrated (h.tail.member tx htx)) hout)
      rw [List.foldl_cons, ih h.tail, confirmBlock, Finset.mem_filter, Finset.mem_union,
        List.mem_toFinset, List.mem_flatMap]
      simp only [SpentIn, List.flatten_cons, List.flatMap_append, List.mem_append, not_or]
      constructor
      · rintro ⟨⟨hS | ⟨tx, htx, hout⟩, hb⟩ | ⟨tx, htx, hout⟩, hrest⟩
        · exact ⟨.inl hS, hb, hrest⟩
        · exact ⟨.inr ⟨tx, .inl htx, hout⟩, hb, hrest⟩
        · exact ⟨.inr ⟨tx, .inr htx, hout⟩, hlater tx htx hout, hrest⟩
      · rintro ⟨hS | ⟨tx, htx | htx, hout⟩, hb, hrest⟩
        · exact ⟨.inl ⟨.inl hS, hb⟩, hrest⟩
        · exact ⟨.inl ⟨.inr ⟨tx, htx, hout⟩, hb⟩, hrest⟩
        · exact ⟨.inr ⟨tx, htx, hout⟩, hrest⟩

/-- Both stores after a chain of decoded blocks. -/
structure AfterChain (L : Ledger) (blocks : List (List Transaction)) (b : Bch) : Prop where
  outpoints : ∀ o out, b.utxodb.outpointMap.lookup o = some out ↔
    (∃ tx ∈ blocks.flatten, out ∈ spendable tx) ∧ out.outpoint = o ∧ ¬ SpentIn blocks o
  tokens : ∀ t o u, (b.slpdb.token t).utxos.lookup o = some u ↔ ¬ SpentIn blocks o ∧
    ∃ tx, RecordedIn L blocks tx ∧ L.T.lookup tx.txid = some tx ∧ tx.slp.tokenid = t ∧
      tx.tokenOutput o = some u

theorem processBlocks_events (calls : List (List Transaction × Bool)) (b : Bch) :
    b.processBlocks calls = (calls.map fun c => BchEvent.block c.1 c.2).foldlM Bch.step b := by
  rw [List.foldlM_map]
  rfl

theorem foldl_confirmEvent (calls : List (List Transaction × Bool)) (S : Finset Output) :
    (calls.map fun c => BchEvent.block c.1 c.2).foldl confirmEvent S =
      (calls.map Prod.fst).foldl confirmBlock S := by
  rw [List.foldl_map, List.foldl_map]
  rfl

theorem processBlocks_afterChain {calls : List (List Transaction × Bool)}
    (hchain : L.Chain (calls.map Prod.fst))
    (hing : ∀ tx ∈ (calls.map Prod.fst).flatten, Ingestible tx) :
    ∃ b, Bch.empty.processBlocks calls = .ok b ∧ AfterChain L (calls.map Prod.fst) b := by
  obtain ⟨b, spent, hb, hspent, hholds⟩ := Slpdb.processBlocks_holds hchain hing
  have hall : ∀ e ∈ calls.map fun c => BchEvent.block c.1 c.2, ∀ tx ∈ e.txs,
      tx ∈ (calls.map Prod.fst).flatten := by
    intro e he tx htx
    obtain ⟨c, hc, rfl⟩ := List.mem_map.mp he
    exact List.mem_flatten.mpr ⟨c.1, List.mem_map_of_mem hc, htx⟩
  obtain ⟨b', hrun, hconf⟩ := ConfirmedAt.run hing (L.txidsDetermine hchain.member) hall
    (b := .empty) ConfirmedAt.empty Slpdb.Indexed.empty (by simp)
  rw [← processBlocks_events, hb, Except.ok.injEq] at hrun
  subst hrun
  rw [foldl_confirmEvent] at hconf
  refine ⟨b, hb, fun o out => ?_, fun t o u => ?_⟩
  · rw [hconf.lookup_iff, mem_foldl_confirmBlock hchain]
    constructor
    · rintro ⟨⟨hS | hout, hs⟩, rfl⟩
      · exact absurd hS (Finset.notMem_empty _)
      · exact ⟨hout, rfl, hs⟩
    · rintro ⟨hout, rfl, hs⟩
      exact ⟨⟨.inr hout, hs⟩, rfl⟩
  · rw [hholds.utxos, hspent]
    refine and_congr_right fun _ => ⟨?_, ?_⟩
    · rintro ⟨p, hp, ht, hu⟩
      obtain ⟨hx, hl⟩ := restrict_eq_some.mp hp
      rw [tokenOutput_txid hu] at hx hl
      exact ⟨p, hx, hl, ht, hu⟩
    · rintro ⟨p, hx, hl, ht, hu⟩
      exact ⟨p, tokenOutput_txid hu ▸ restrict_eq_some.mpr ⟨hx, hl⟩, ht, hu⟩

/-! ## Full blocks against their cached forms -/

section Forms

variable {blocks cached : List (List Transaction)} {b b' : Bch} {tx : Transaction} {o : Outpoint}

theorem spentIn_of_cached (hform : List.Forall₂ (Validator.CachedForm L) blocks cached)
    (h : SpentIn cached o) : SpentIn blocks o := by
  obtain ⟨t, ht, ho⟩ := List.mem_flatMap.mp h
  exact List.mem_flatMap.mpr ⟨t, ((Ledger.mem_flatten_cachedForms hform).mp ht).1, ho⟩

/-- Along the cached forms only valid transactions are recorded. -/
theorem slpValid_of_recordedIn (hchain : L.Chain blocks)
    (hform : List.Forall₂ (Validator.CachedForm L) blocks cached) (h : RecordedIn L cached tx) :
    tx.txid ∈ SlpValid L.T := by
  obtain ⟨u, hu, hux⟩ := Slpdb.slpdbRecorded_subset h
  have hu' := ((hchain.cachedForms hform).mem_chainOrder.mp hu).1
  exact hux ▸ ((Ledger.mem_flatten_cachedForms hform).mp hu').2

theorem recordedIn_of_txid {u : Transaction} (h : RecordedIn L blocks u)
    (hu : u.txid = tx.txid) : RecordedIn L blocks tx := by
  rwa [RecordedIn, ← hu]

/-- Two transactions with a token output at one outpoint have one id. -/
theorem txid_eq_of_tokenOutput {u : Transaction} {a c : SlpOutput} (h : tx.tokenOutput o = some a)
    (hu : u.tokenOutput o = some c) : u.txid = tx.txid :=
  (tokenOutput_txid hu).symm.trans (tokenOutput_txid h)

theorem AfterChain.dropsNothing (hchain : L.Chain blocks)
    (hform : List.Forall₂ (Validator.CachedForm L) blocks cached) (h : AfterChain L blocks b)
    (h' : AfterChain L cached b') (hsame : SameUtxos b b') : DropsNothing L blocks cached := by
  have hcached := @Ledger.mem_flatten_cachedForms L blocks cached hform
  refine ⟨fun tx htx hv o ho => ?_, fun tx htx hv o ho hs => ?_, fun tx htx hv o hne hs => ?_⟩
  · by_contra hs
    rcases ho with ⟨out, hout, rfl⟩ | ⟨hrec, hne⟩
    · have hl := (h.outpoints _ out).mpr ⟨⟨tx, htx, hout⟩, rfl, hs⟩
      rw [hsame.1, h'.outpoints] at hl
      obtain ⟨⟨u, hu, hout'⟩, -⟩ := hl
      obtain ⟨hu, huv⟩ := hcached.mp hu
      have huid := outpoint_txid_of_spendable (L.hydrated (hchain.member u hu)) hout'
      rw [outpoint_txid_of_spendable (L.hydrated (hchain.member tx htx)) hout] at huid
      exact hv (huid ▸ huv)
    · obtain ⟨a, ha⟩ := Option.ne_none_iff_exists'.mp hne
      have hl := (h.tokens _ o a).mpr ⟨hs, tx, hrec, hchain.member tx htx, rfl, ha⟩
      rw [hsame.2, h'.tokens] at hl
      obtain ⟨-, u, hurec, -, -, hu⟩ := hl
      exact hv (txid_eq_of_tokenOutput ha hu ▸ slpValid_of_recordedIn hchain hform hurec)
  · by_contra hs'
    rcases ho with ⟨out, hout, rfl⟩ | ⟨hrec, hne⟩
    · have hl := (h'.outpoints _ out).mpr ⟨⟨tx, hcached.mpr ⟨htx, hv⟩, hout⟩, rfl, hs'⟩
      rw [← hsame.1, h.outpoints] at hl
      exact hl.2.2 hs
    · obtain ⟨a, ha⟩ := Option.ne_none_iff_exists'.mp hne
      have hl := (h'.tokens _ o a).mpr ⟨hs', tx, hrec, hchain.member tx htx, rfl, ha⟩
      rw [← hsame.2, h.tokens] at hl
      exact hl.1 hs
  · obtain ⟨a, ha⟩ := Option.ne_none_iff_exists'.mp hne
    have hs' : ¬ SpentIn cached o := mt (spentIn_of_cached hform) hs
    constructor
    · intro hrec
      have hl := (h.tokens _ o a).mpr ⟨hs, tx, hrec, hchain.member tx htx, rfl, ha⟩
      rw [hsame.2, h'.tokens] at hl
      obtain ⟨-, u, hurec, -, -, hu⟩ := hl
      exact recordedIn_of_txid hurec (txid_eq_of_tokenOutput ha hu)
    · intro hrec
      have hl := (h'.tokens _ o a).mpr ⟨hs', tx, hrec, hchain.member tx htx, rfl, ha⟩
      rw [← hsame.2, h.tokens] at hl
      obtain ⟨-, u, hurec, -, -, hu⟩ := hl
      exact recordedIn_of_txid hurec (txid_eq_of_tokenOutput ha hu)

theorem AfterChain.sameUtxos (hchain : L.Chain blocks)
    (hform : List.Forall₂ (Validator.CachedForm L) blocks cached) (h : AfterChain L blocks b)
    (h' : AfterChain L cached b') (hdrop : DropsNothing L blocks cached) : SameUtxos b b' := by
  have hcached := @Ledger.mem_flatten_cachedForms L blocks cached hform
  have hmem : ∀ {bs tx}, L.Chain bs → RecordedIn L bs tx → L.T.lookup tx.txid = some tx →
      tx ∈ bs.flatten := by
    intro bs tx hbs hrec hl
    obtain ⟨u, hu, hux⟩ := Slpdb.slpdbRecorded_subset hrec
    have hu' := (hbs.mem_chainOrder.mp hu).1
    have hul := hbs.member u hu'
    rw [hux, hl, Option.some.injEq] at hul
    exact hul ▸ hu'
  refine ⟨KeyedMap.ext_lookup fun o => Option.ext fun out => ?_,
    fun t => Finmap.ext_lookup fun o => Option.ext fun a => ?_⟩
  · rw [h.outpoints, h'.outpoints]
    constructor
    · rintro ⟨⟨tx, htx, hout⟩, rfl, hs⟩
      have hv : tx.txid ∈ SlpValid L.T := by
        by_contra hv
        exact hs (hdrop.leave tx htx hv _ (.inl ⟨out, hout, rfl⟩))
      exact ⟨⟨tx, hcached.mpr ⟨htx, hv⟩, hout⟩, rfl, mt (spentIn_of_cached hform) hs⟩
    · rintro ⟨⟨tx, htx, hout⟩, rfl, hs⟩
      obtain ⟨htx, hv⟩ := hcached.mp htx
      exact ⟨⟨tx, htx, hout⟩, rfl, mt (hdrop.take tx htx hv _ (.inl ⟨out, hout, rfl⟩)) hs⟩
  · rw [h.tokens, h'.tokens]
    constructor
    · rintro ⟨hs, tx, hrec, hl, ht, ha⟩
      have htx := hmem hchain hrec hl
      have hne : tx.tokenOutput o ≠ none := by simp [ha]
      have hv : tx.txid ∈ SlpValid L.T := by
        by_contra hv
        exact hs (hdrop.leave tx htx hv o (.inr ⟨hrec, hne⟩))
      exact ⟨mt (spentIn_of_cached hform) hs, tx, (hdrop.record tx htx hv o hne hs).mp hrec, hl,
        ht, ha⟩
    · rintro ⟨hs, tx, hrec, hl, ht, ha⟩
      obtain ⟨htx, hv⟩ := hcached.mp (hmem (hchain.cachedForms hform) hrec hl)
      have hne : tx.tokenOutput o ≠ none := by simp [ha]
      have hs' : ¬ SpentIn blocks o := mt (hdrop.take tx htx hv o (.inr ⟨hrec, hne⟩)) hs
      exact ⟨hs', tx, (hdrop.record tx htx hv o hne hs').mpr hrec, hl, ht, ha⟩

end Forms

/-- The blocks of a ledger have cached forms, `process_block` takes both, and it makes the
same UTXO state of them exactly if the dropped transactions leave no trace. -/
theorem processBlocks_cachedForms_iff (L : Ledger) {blocks : List (List Transaction)}
    (hchain : L.Chain blocks) (hall : ∀ x tx, L.T.lookup x = some tx → tx ∈ blocks.flatten)
    (hing : ∀ tx ∈ blocks.flatten, Ingestible tx) :
    ∃ cached, Server.cachedForms .empty blocks = .ok cached ∧
      ∀ calls calls' : List (List Transaction × Bool), calls.map Prod.fst = blocks →
        calls'.map Prod.fst = cached →
        ∃ b b', Bch.empty.processBlocks calls = .ok b ∧ Bch.empty.processBlocks calls' = .ok b' ∧
          (SameUtxos b b' ↔ DropsNothing L blocks cached) := by
  obtain ⟨cached, hrun, hform⟩ := hchain.cachedForms_ok hall
  refine ⟨cached, hrun, ?_⟩
  rintro calls calls' rfl rfl
  obtain ⟨b, hb, h⟩ := processBlocks_afterChain hchain hing
  obtain ⟨b', hb', h'⟩ := processBlocks_afterChain (hchain.cachedForms hform) fun tx htx =>
    hing tx ((Ledger.mem_flatten_cachedForms hform).mp htx).1
  exact ⟨b, b', hb, hb', h.dropsNothing hchain hform h', h.sameUtxos hchain hform h'⟩

theorem processBlocks_cachedForms_iff_sample :
    ∃ cached, Server.cachedForms .empty sampleBlocks = .ok cached ∧
      ∀ calls calls' : List (List Transaction × Bool), calls.map Prod.fst = sampleBlocks →
        calls'.map Prod.fst = cached →
        ∃ b b', Bch.empty.processBlocks calls = .ok b ∧ Bch.empty.processBlocks calls' = .ok b' ∧
          (SameUtxos b b' ↔ DropsNothing Validator.sampleLedger sampleBlocks cached) :=
  processBlocks_cachedForms_iff _ sampleBlocks_chain sampleBlocks_whole
    fun _ => sampleBlocks_ingestible

/-- A block with a GENESIS and a block that burns its tokens. -/
def burntBlocks : List (List Transaction) := [[sampleGenesis], [sampleBurn]]

def burntLedger : Ledger :=
  .ofList [sampleGenesis, sampleBurn]
    (by simp [sampleGenesis_hydrated, sampleBurn_hydrated]) (by decide) (by decide) (by decide)
    (by decide)

theorem burntBlocks_chain : burntLedger.Chain burntBlocks where
  member tx htx := Ledger.mem_ofList.mp htx
  nodup := by decide
  parents := by decide

theorem burntBlocks_ingestible {tx : Transaction} (h : tx ∈ burntBlocks.flatten) :
    Ingestible tx := by
  have hcases : tx = sampleGenesis ∨ tx = sampleBurn := by simpa [burntBlocks] using h
  rcases hcases with rfl | rfl
  · exact ⟨sampleGenesis_hydrated, by decide⟩
  · exact ⟨sampleBurn_hydrated, by decide⟩

/-- The burn is not in the cached form of its block, so a replay brings the burnt tokens
back. -/
theorem processBlocks_cachedForms_differ :
    burntLedger.Chain burntBlocks ∧ (∀ tx ∈ burntBlocks.flatten, Ingestible tx) ∧
      Server.cachedForms .empty burntBlocks = .ok [[sampleGenesis], []] ∧
      ∃ b b', Bch.empty.processBlocks [([sampleGenesis], true), ([sampleBurn], true)] = .ok b ∧
        Bch.empty.processBlocks [([sampleGenesis], true), ([], true)] = .ok b' ∧
        ¬ SameUtxos b b' := by
  have hcached : ∃ cached, Server.cachedForms .empty burntBlocks = .ok cached ∧
      cached = [[sampleGenesis], []] := by decide +kernel
  have hfull : ∃ b, Bch.empty.processBlocks [([sampleGenesis], true), ([sampleBurn], true)] =
      .ok b ∧ b.utxodb.outpointMap.lookup ⟨sampleGenesis.txid, 1⟩ = none := by decide +kernel
  have hreplay : ∃ b, Bch.empty.processBlocks [([sampleGenesis], true), ([], true)] = .ok b ∧
      b.utxodb.outpointMap.lookup ⟨sampleGenesis.txid, 1⟩ ≠ none := by decide +kernel
  obtain ⟨_, hcached, rfl⟩ := hcached
  obtain ⟨b, hb, hnone⟩ := hfull
  obtain ⟨b', hb', hsome⟩ := hreplay
  exact ⟨burntBlocks_chain, fun _ => burntBlocks_ingestible, hcached, b, b', hb, hb',
    fun hsame => hsome (hsame.1 ▸ hnone)⟩

end SlpGraphSearch
