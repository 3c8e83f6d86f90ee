import SlpGraphSearch.TransactionEncoder
import SlpGraphSearch.TokenGenesis

/-!
# Verdicts on MINTs in partial graphs

The state of a validator after any calls that a client or a replay can make: trusted and
untrusted transactions, ids marked as valid, entries removed. Ancestors may be missing
there. A valid loaded parent is enough for a SEND; `check_mint` asks a MINT parent for a
parent of its own, so its answer also depends on what is loaded one generation up.
-/
namespace SlpGraphSearch
open Library Transaction

namespace Validator

/-! ## Calls -/

inductive Event
  | addTx (tx : Transaction) (trusted : Bool)
  | addValidTxid (txid : Txid)
  | removeTx (txid : Txid)

def step (s : Validator) : Event → Except Failure Validator
  | .addTx tx trusted => do .ok (← s.addTx tx trusted).2
  | .addValidTxid txid => .ok (s.addValidTxid txid).2
  | .removeTx txid => .ok (s.removeTx txid).2

/-! ## The law of the direct parents -/

/-- A MINT without a verdict of its own that spends one baton at most. -/
structure OpenMint (s : Validator) (tx : Transaction) : Prop where
  mint : tx.slp.type = .mint
  fresh : tx.txid ∉ s.valid
  single : ∀ o ∈ tx.inputs, ∀ r ∈ tx.inputs, ∀ p q, SpendsBaton s.view tx o p →
    SpendsBaton s.view tx r q → o = r

/-- The call returns, and says whether an input spends the baton of a parent that is valid
and loaded. -/
def DirectVerdict (s : Validator) (tx : Transaction) : Prop :=
  ∃ b, s.validateTx (s.valid.card + 2) tx = .ok b ∧
    (b = true ↔ ∃ o ∈ tx.inputs, ∃ p, SpendsBaton s.view tx o p)

variable {s s' : Validator} {tx : Transaction} {b : Bool}

theorem OpenMint.oneParent (h : s.OpenMint tx) : s.OneParent tx := by
  intro o ho r hr p q hp hq
  have hor : o = r := h.single o ho r hr p q hp hq
  subst hor
  exact Option.some.inj (hp.1.symm.trans hq.1)

/-- The verdict of one state on one MINT. -/
theorem OpenMint.directVerdict_iff (h : s.OpenMint tx) :
    s.DirectVerdict tx ↔ s.ParentsStand tx := by
  unfold DirectVerdict
  rw [validateTx_mint s _ h.mint h.fresh]
  exact h.oneParent.checkMint_iff

/-! ## Untrusted runs -/

/-- Among the transactions no MINT spends the batons of two authorities of its token. -/
def SingleBatons (txs : List Transaction) : Prop :=
  ∀ t ∈ txs, t.slp.type = .mint → ∀ p ∈ txs, ∀ q ∈ txs, p.SameToken t → q.SameToken t →
    p.IsAuthority → q.IsAuthority → p.mintBatonOutpoint ∈ t.inputs →
      q.mintBatonOutpoint ∈ t.inputs → p.txid = q.txid

/-- What a run of untrusted `add_tx` calls keeps: the stored transactions are those of the
run, and the rules of the valid ones hold. -/
structure Earned (txs : List Transaction) (s : Validator) : Prop where
  hydrated : s.StoredHydrated
  member : ∀ x t, s.transactionMap.lookup x = some t → t ∈ txs
  ruled : s.Ruled

theorem Earned.empty (txs : List Transaction) : Earned txs .empty where
  hydrated x t h := by simp [Validator.empty] at h
  member x t h := by simp [Validator.empty] at h
  ruled := .empty

theorem Earned.addTx {txs : List Transaction} (h : Earned txs s) (htx : tx ∈ txs)
    (hhyd : tx.Hydrated) (hadd : s.addTx tx false = .ok (b, s')) : Earned txs s' where
  hydrated := h.hydrated.addTx hhyd hadd
  ruled := h.ruled.addTx h.hydrated hhyd hadd
  member := by
    have hoffered : ∀ x t, (s.offered tx).transactionMap.lookup x = some t → t ∈ txs := by
      intro x t hl
      cases KeyedMap.lookup_emplace_cases hl with
      | inl hnew => exact hnew ▸ htx
      | inr hold => exact h.member x t hold
    cases addTx_cases h.hydrated hhyd hadd with
    | inl hignored => exact hignored.2 ▸ h.member
    | inr hstored =>
      cases hstored.2 with
      | inl hrejected => exact hrejected ▸ hoffered
      | inr haccepted => exact haccepted.1 ▸ hoffered

/-- Behind a valid MINT of such a run stands the one holder that it was accepted for. -/
theorem Earned.parentsStand {txs : List Transaction} (h : Earned txs s)
    (hsingle : SingleBatons txs) (tx : Transaction) : s.ParentsStand tx := by
  intro o ho p hp
  apply hp.2.2.1.imp_right
  intro hmint
  obtain ⟨hx, hl⟩ := view_eq_some.mp hp.1
  obtain ⟨t, ht, hrule⟩ := h.ruled o.txid hx
  have htp : t = p := Option.some.inj (ht.symm.trans hl)
  subst htp
  have hmem : ∀ {r : Outpoint} {g : Transaction}, SpendsBaton s.view t r g → g ∈ txs := fun hg =>
    h.member _ _ (view_eq_some.mp hg.1).2
  obtain ⟨r, hr, g, hg⟩ := (slpRule_mint hmint).mp hrule
  refine ⟨g.txid, ⟨r, hr, g, hg⟩, ?_⟩
  intro r' hr' g' hg'
  exact hsingle t (h.member _ _ hl) hmint g' (hmem hg') g (hmem hg) hg'.2.1 hg.2.1 hg'.2.2.1
    hg.2.2.1 (hg'.2.2.2 ▸ hr') (hg.2.2.2 ▸ hr)

theorem always_earned {txs : List Transaction} (hhyd : ∀ tx ∈ txs, tx.Hydrated) :
    Always step (fun _ s => Earned txs s) .empty (txs.map fun tx => .addTx tx false) := by
  refine Always.of_step (P := fun _ s => Earned txs s) (Earned.empty txs) ?_
  intro past e rest s₁ s₂ hev hearned hs₁ hstep
  have he : e ∈ txs.map fun tx => Event.addTx tx false := by simp [hev]
  obtain ⟨tx, htx, heq⟩ := List.mem_map.mp he
  subst heq
  obtain ⟨r, hr, hs₂⟩ := bind_eq_ok.mp hstep
  exact Except.ok.inj hs₂ ▸ hearned.addTx htx (hhyd tx htx) hr

/-! ## Every run -/

/-- In every state of every run the verdict on a MINT follows its direct parents exactly
if each parent that is a MINT has one holder behind it in the view. Runs of untrusted
`add_tx` calls meet the condition throughout, as long as no MINT spends two batons. -/
theorem run_directVerdict (events : List Event) :
    Always step (fun _ s => ∀ tx, s.OpenMint tx → (s.DirectVerdict tx ↔ s.ParentsStand tx))
      .empty events ∧
    ∀ txs, events = (txs.map fun tx => .addTx tx false) → (∀ tx ∈ txs, tx.Hydrated) →
      SingleBatons txs →
      Always step (fun _ s => ∀ tx, s.OpenMint tx → s.DirectVerdict tx) .empty events := by
  constructor
  · intro past rest hev s hs tx hopen
    exact hopen.directVerdict_iff
  · intro txs hevents hhyd hsingle past rest hev s hs tx hopen
    subst hevents
    have hearned := always_earned hhyd past rest hev s hs
    exact hopen.directVerdict_iff.mpr (hearned.parentsStand hsingle tx)

theorem run_directVerdict_sample :
    ∃ s, [Event.addTx sampleGenesis false].foldlM step .empty = .ok s ∧
      s.OpenMint sampleMint ∧ s.DirectVerdict sampleMint := by
  have hrun : ∃ s, [Event.addTx sampleGenesis false].foldlM step .empty = .ok s ∧
      sampleMint.txid ∉ s.valid := by decide +kernel
  obtain ⟨s, hs, hfresh⟩ := hrun
  have hopen : s.OpenMint sampleMint :=
    { mint := by decide
      fresh := hfresh
      single := by
        intro o ho r hr p q hp hq
        exact (List.mem_singleton.mp ho).trans (List.mem_singleton.mp hr).symm }
  have hsingle : SingleBatons [sampleGenesis] := by
    intro t ht hmint
    have htg : t = sampleGenesis := List.mem_singleton.mp ht
    subst htg
    exact absurd hmint (by decide)
  have halways := (run_directVerdict [Event.addTx sampleGenesis false]).2 [sampleGenesis] rfl
    (by simp [sampleGenesis_hydrated]) hsingle
  exact ⟨s, hs, hopen, halways [Event.addTx sampleGenesis false] [] rfl s hs sampleMint hopen⟩

/-- A MINT that ends the baton of `sampleMint`. -/
def sampleLastMint : Transaction :=
  let txid : Txid := ⟨
    [0xE9, 0xA6, 0xFF, 0xA0, 0x3A, 0x2C, 0xA2, 0xBE, 0x0A, 0x3A, 0x8D, 0xAB, 0xF1, 0x45, 0x3E,
     0x7C, 0x8D, 0x61, 0xE6, 0x2E, 0xA6, 0xCE, 0x1E, 0x49, 0xA0, 0xDF, 0xD2, 0x5E, 0x02, 0xA2,
     0x95, 0xD2], rfl⟩
  encoded txid [⟨sampleMint.txid, 2⟩]
    [opReturn (mintPayloads 1 sampleGenesis.txid [] 5), [0x51], [0x52]]
    ⟨sampleGenesis.txid, 1, .mint ⟨false, 0, 5⟩⟩

theorem sampleLastMint_hydrated : sampleLastMint.Hydrated :=
  hydrated_encoded (by decide) (by decide) (by decide) (by decide +kernel) (by decide +kernel)

/-- A trusted MINT is valid and loaded and its GENESIS is not: the MINT that spends its
baton is refused. -/
theorem directVerdict_fails :
    sampleMint.Hydrated ∧ sampleLastMint.Hydrated ∧
      ∃ s, [Event.addTx sampleMint true].foldlM step .empty = .ok s ∧
        s.OpenMint sampleLastMint ∧ ¬ s.DirectVerdict sampleLastMint := by
  have hrun : ∃ s, [Event.addTx sampleMint true].foldlM step .empty = .ok s ∧
      sampleLastMint.txid ∉ s.valid ∧ sampleMint.txid ∈ s.valid ∧
      s.transactionMap.lookup sampleMint.txid = some sampleMint ∧
      s.validateTx (s.valid.card + 2) sampleLastMint = .ok false := by decide +kernel
  obtain ⟨s, hs, hfresh, hvalid, hlookup, hverdict⟩ := hrun
  refine ⟨sampleMint_hydrated, sampleLastMint_hydrated, s, hs, ?_, ?_⟩
  · exact
      { mint := by decide
        fresh := hfresh
        single := by
          intro o ho r hr p q hp hq
          exact (List.mem_singleton.mp ho).trans (List.mem_singleton.mp hr).symm }
  · intro h
    obtain ⟨b, hb, hiff⟩ := h
    have hbaton : SpendsBaton s.view sampleLastMint ⟨sampleMint.txid, 2⟩ sampleMint :=
      ⟨view_eq_some.mpr ⟨hvalid, hlookup⟩, by decide, .inr (by decide), by decide⟩
    have hbtrue : b = true := hiff.mpr ⟨⟨sampleMint.txid, 2⟩, by decide, sampleMint, hbaton⟩
    rw [hverdict, hbtrue] at hb
    exact absurd (Except.ok.inj hb) (by decide)

end Validator
end SlpGraphSearch
