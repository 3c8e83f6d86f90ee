import SlpGraphSearch.Library.Run
import SlpGraphSearch.ValidatorRun

/-!
# The GENESIS of a valid transaction

Whether a validator that holds a transaction as valid also holds the valid
GENESIS of its token. GENESIS and MINT transactions always bring it along, and so
does a SEND of a positive amount. A SEND of nothing is accepted without any
input, whatever token id it names.
-/
namespace SlpGraphSearch
open Library Transaction

namespace Validator

/-- The GENESIS of the transaction's token is held as valid, under the token id
and with the same token type. -/
def HasGenesis (s : Validator) (t : Transaction) : Prop :=
  ∃ g, s.view t.slp.tokenid = some g ∧ g.slp.type = .genesis ∧
    g.slp.tokenType = t.slp.tokenType

/-- Every valid transaction has its GENESIS. -/
def GenesisHeld (s : Validator) : Prop :=
  ∀ x ∈ s.valid, ∃ t, s.transactionMap.lookup x = some t ∧ s.HasGenesis t

/-- `add_tx` of `tx` does not judge a SEND of nothing whose GENESIS is missing. -/
def Grounded (s : Validator) (tx : Transaction) : Prop :=
  ∀ send, tx.slp.type ≠ .invalid → (s.stored tx).slp.slpTx = .send send →
    (send.amounts.map UInt64.toNat).sum = 0 → tx.txid ∉ s.valid → s.HasGenesis (s.stored tx)

/-- Every stored transaction was decoded and has an SLP type. -/
def StoredHydrated (s : Validator) : Prop :=
  ∀ x t, s.transactionMap.lookup x = some t → t.Hydrated ∧ t.slp.type ≠ .invalid

variable {s s' : Validator} {tx : Transaction} {b : Bool}

theorem stored_eq (hs : s.StoredHydrated) (hx : tx.Hydrated) (ht : tx.slp.type ≠ .invalid) :
    (s.stored tx).txid = tx.txid ∧ (s.stored tx).Hydrated ∧ (s.stored tx).slp.type ≠ .invalid ∧
      (s.offered tx).transactionMap.lookup tx.txid = some (s.stored tx) := by
  unfold stored offered
  rw [KeyedMap.lookup_emplace, if_pos rfl]
  cases hl : s.transactionMap.lookup tx.txid with
  | none => exact ⟨rfl, hx, ht, rfl⟩
  | some u => exact ⟨KeyedMap.key_lookup hl, (hs _ _ hl).1, (hs _ _ hl).2, rfl⟩

theorem StoredHydrated.offered (hs : s.StoredHydrated) (hx : tx.Hydrated)
    (ht : tx.slp.type ≠ .invalid) : (s.offered tx).StoredHydrated := by
  intro x t hl
  by_cases hxt : x = tx.txid
  · obtain ⟨-, hhyd, htype, hstored⟩ := stored_eq hs hx ht
    rw [hxt, hstored, Option.some.injEq] at hl
    exact hl ▸ ⟨hhyd, htype⟩
  · rw [Validator.offered, KeyedMap.lookup_emplace, if_neg hxt] at hl
    exact hs x t hl

/-- What `add_tx` can do, over any validator: nothing to a transaction without an
SLP type; store it; or store it and accept it, by its rule. -/
theorem addTx_cases (hs : s.StoredHydrated) (hx : tx.Hydrated)
    (h : s.addTx tx false = .ok (b, s')) :
    tx.slp.type = .invalid ∧ s' = s ∨
    tx.slp.type ≠ .invalid ∧ (s' = s.offered tx ∨
      s' = { s.offered tx with valid := insert tx.txid s.valid } ∧
        (tx.txid ∈ s.valid ∨ SlpRule (s.offered tx).view (s.stored tx))) := by
  by_cases ht : tx.slp.type = .invalid
  · rw [addTx_invalid s ht, Except.ok.injEq, Prod.mk.injEq] at h
    exact .inl ⟨ht, h.2.symm⟩
  · refine .inr ⟨ht, ?_⟩
    obtain ⟨hid, hhyd, htype, -⟩ := stored_eq hs hx ht
    obtain ⟨verdict, hv, -, hs'⟩ := addTx_verdict ht h
    cases verdict with
    | false => exact .inl hs'
    | true =>
        refine .inr ⟨hs', ?_⟩
        by_cases hxv : tx.txid ∈ s.valid
        · exact .inl hxv
        · exact .inr (validateTx_sound hhyd htype (hid ▸ hxv) hv)

theorem StoredHydrated.addTx (hs : s.StoredHydrated) (hx : tx.Hydrated)
    (h : s.addTx tx false = .ok (b, s')) : s'.StoredHydrated := by
  rcases addTx_cases hs hx h with ⟨-, rfl⟩ | ⟨ht, rfl | ⟨rfl, -⟩⟩
  · exact hs
  · exact hs.offered hx ht
  · exact fun x t hl => hs.offered hx ht x t hl

/-- A transaction once stored stays, and so does a verdict. -/
theorem view_offered {x : Txid} {p : Transaction} (h : s.view x = some p) :
    (s.offered tx).view x = some p := by
  obtain ⟨hx, hl⟩ := view_eq_some.mp h
  refine view_eq_some.mpr ⟨hx, ?_⟩
  rw [offered, KeyedMap.lookup_emplace]
  split_ifs with hxt
  · rw [hl, Option.getD_some]
  · exact hl

theorem view_accept {x y : Txid} {p : Transaction} (h : s.view x = some p) :
    ({ s with valid := insert y s.valid } : Validator).view x = some p := by
  obtain ⟨hx, hl⟩ := view_eq_some.mp h
  exact view_eq_some.mpr ⟨Finset.mem_insert_of_mem hx, hl⟩

theorem HasGenesis.mono {t : Transaction} (h : s.HasGenesis t)
    (hmono : ∀ x p, s.view x = some p → s'.view x = some p) : s'.HasGenesis t := by
  obtain ⟨g, hg, hrest⟩ := h
  exact ⟨g, hmono _ _ hg, hrest⟩

/-- Unless it is a SEND of nothing, a transaction whose rule holds is a GENESIS or
has one. -/
theorem hasGenesis_of_rule {t : Transaction} (h : s.GenesisHeld) (ht : t.Hydrated)
    (hr : SlpRule s.view t) (hz : ¬ t.SendsNothing) :
    t.slp.type = .genesis ∧ t.slp.tokenid = t.txid ∨ s.HasGenesis t := by
  rcases hr.sameToken_parent with hgen | hsend | ⟨o, -, p, hp, hsame, -⟩
  · exact .inl ⟨hgen, ht.genesis_tokenid hgen⟩
  · exact absurd hsend hz
  · obtain ⟨hx, hl⟩ := view_eq_some.mp hp
    obtain ⟨q, hq, g, hg, hgen, hty⟩ := h o.txid hx
    obtain rfl := Option.some.inj (hl.symm.trans hq)
    exact .inr ⟨g, hsame.1 ▸ hg, hgen, hty.trans hsame.2⟩

theorem GenesisHeld.offered (h : s.GenesisHeld) (tx : Transaction) :
    (s.offered tx).GenesisHeld := by
  intro x hx
  obtain ⟨t, ht, hgen⟩ := h x hx
  have hview : s.view x = some t := view_eq_some.mpr ⟨hx, ht⟩
  exact ⟨t, (view_eq_some.mp (view_offered hview)).2, hgen.mono fun _ _ => view_offered⟩

/-- One `add_tx` keeps the GENESIS of every valid transaction, if it is grounded. -/
theorem GenesisHeld.addTx (h : s.GenesisHeld) (hs : s.StoredHydrated) (hx : tx.Hydrated)
    (hg : s.Grounded tx) (hadd : s.addTx tx false = .ok (b, s')) : s'.GenesisHeld := by
  rcases addTx_cases hs hx hadd with ⟨-, rfl⟩ | ⟨ht, rfl | ⟨rfl, haccept⟩⟩
  · exact h
  · exact h.offered tx
  · intro x hxv
    rcases Finset.mem_insert.mp hxv with rfl | hxv
    · obtain ⟨hid, hhyd, -, hstored⟩ := stored_eq hs hx ht
      refine ⟨_, hstored, ?_⟩
      by_cases hvalid : tx.txid ∈ s.valid
      · obtain ⟨t, hl, hgen⟩ := h.offered tx _ hvalid
        rw [hstored, Option.some.injEq] at hl
        subst hl
        exact hgen.mono fun _ _ => view_accept
      · have hrule := haccept.resolve_left hvalid
        by_cases hzero : (s.stored tx).SendsNothing
        · obtain ⟨send, hsend, hsum⟩ := hzero
          exact (hg send ht hsend hsum hvalid).mono fun _ _ hp => view_accept (view_offered hp)
        · rcases hasGenesis_of_rule (h.offered tx) hhyd hrule hzero with ⟨hgen, htok⟩ | hgen
          · refine ⟨_, view_eq_some.mpr ⟨?_, ?_⟩, hgen, rfl⟩
            · rw [htok, hid]
              exact Finset.mem_insert_self _ _
            · rw [htok, hid]
              exact hstored
          · exact hgen.mono fun _ _ => view_accept
    · obtain ⟨t, hl, hgen⟩ := h.offered tx x hxv
      exact ⟨t, hl, hgen.mono fun _ _ => view_accept⟩

/-! ## Verdicts and rules -/

/-- Every valid id is loaded, and the rule of its transaction holds in the view. -/
def Ruled (s : Validator) : Prop :=
  ∀ x ∈ s.valid, ∃ t, s.transactionMap.lookup x = some t ∧ SlpRule s.view t

theorem Ruled.empty : Validator.empty.Ruled := fun x h => by simp [Validator.empty] at h

theorem Ruled.offered (h : s.Ruled) (tx : Transaction) : (s.offered tx).Ruled := by
  intro x hx
  obtain ⟨t, hl, hrule⟩ := h x hx
  have hview : s.view x = some t := view_eq_some.mpr ⟨hx, hl⟩
  exact ⟨t, (view_eq_some.mp (view_offered hview)).2, hrule.mono fun _ _ _ => view_offered⟩

theorem Ruled.accept {y : Txid} {t : Transaction} (h : s.Ruled)
    (hl : s.transactionMap.lookup y = some t) (hrule : y ∈ s.valid ∨ SlpRule s.view t) :
    ({ s with valid := insert y s.valid } : Validator).Ruled := by
  have hold : ∀ x ∈ s.valid, ∃ t, s.transactionMap.lookup x = some t ∧
      SlpRule ({ s with valid := insert y s.valid } : Validator).view t := by
    intro x hx
    obtain ⟨u, hu, hr⟩ := h x hx
    exact ⟨u, hu, hr.mono fun _ _ _ => view_accept⟩
  intro x hx
  cases Finset.mem_insert.mp hx with
  | inr hx => exact hold x hx
  | inl heq =>
    subst heq
    cases hrule with
    | inl hvalid => exact hold x hvalid
    | inr hrule => exact ⟨t, hl, hrule.mono fun _ _ _ => view_accept⟩

/-- An untrusted `add_tx` accepts by the rule, and no rule is broken later. -/
theorem Ruled.addTx (h : s.Ruled) (hs : s.StoredHydrated) (hx : tx.Hydrated)
    (hadd : s.addTx tx false = .ok (b, s')) : s'.Ruled := by
  cases addTx_cases hs hx hadd with
  | inl hignored => exact hignored.2 ▸ h
  | inr hstored =>
    obtain ⟨ht, hcases⟩ := hstored
    cases hcases with
    | inl hrejected => exact hrejected ▸ h.offered tx
    | inr haccepted =>
      rw [haccepted.1]
      exact (h.offered tx).accept (stored_eq hs hx ht).2.2.2 haccepted.2

/-- A SEND of nothing is always accepted, so it must have been grounded. -/
theorem grounded_of_genesisHeld (hs : s.StoredHydrated) (hx : tx.Hydrated)
    (h : ∀ b s', s.addTx tx false = .ok (b, s') → s'.GenesisHeld) : s.Grounded tx := by
  intro send ht hsend hsum hvalid
  obtain ⟨hid, hhyd, htype, hstored⟩ := stored_eq hs hx ht
  have hsendType : (s.stored tx).slp.type = .send :=
    SlpTransaction.type_eq_send.mpr ⟨send, hsend⟩
  obtain ⟨verdict, hverdict, hiff⟩ := validateTx_eq (s.offered tx) s.valid.card hhyd htype
    (hid ▸ hvalid) (by simp [hsendType])
  have hrule : SlpRule (s.offered tx).view (s.stored tx) := by
    simp only [SlpRule, hsend, hsum]
    exact Nat.zero_le _
  have hadd := addTx_eq s ht
  rw [hverdict, hiff.mpr hrule] at hadd
  obtain ⟨t, hl, g, hg, hgen, hty⟩ := h _ _ hadd tx.txid (Finset.mem_insert_self _ _)
  have hlt : some t = some (s.stored tx) := hl.symm.trans hstored
  rw [Option.some.injEq] at hlt
  subst hlt
  obtain ⟨hgv, hgl⟩ := view_eq_some.mp hg
  have hne : (s.stored tx).slp.tokenid ≠ tx.txid := by
    intro heq
    rw [heq] at hgl
    have hself : some g = some (s.stored tx) := hgl.symm.trans hstored
    rw [Option.some.injEq] at hself
    rw [hself, hsendType] at hgen
    simp at hgen
  have hgl' : s.transactionMap.lookup (s.stored tx).slp.tokenid = some g := by
    rwa [if_pos rfl, Validator.offered, KeyedMap.lookup_emplace, if_neg hne] at hgl
  exact ⟨g, view_eq_some.mpr ⟨Finset.mem_of_mem_insert_of_ne hgv hne, hgl'⟩, hgen, hty⟩

/-- Every transaction of the run is grounded when it is added. -/
def RunGrounded (s : Validator) (txs : List Transaction) : Prop :=
  ∀ before tx after s', txs = before ++ tx :: after → s.addTxs before = .ok s' → s'.Grounded tx

/-- Every state of the run has the GENESIS of every valid transaction. -/
def RunGenesisHeld (s : Validator) (txs : List Transaction) : Prop :=
  ∀ before after s', txs = before ++ after → s.addTxs before = .ok s' → s'.GenesisHeld

theorem addTxs_storedHydrated {txs : List Transaction} (hx : ∀ tx ∈ txs, tx.Hydrated)
    (hs : s.StoredHydrated) (h : s.addTxs txs = .ok s') : s'.StoredHydrated := by
  induction txs generalizing s with
  | nil =>
      obtain rfl : s = s' := Except.ok.inj h
      exact hs
  | cons tx rest ih =>
      rw [addTxs, List.foldlM_cons] at h
      cases hadd : s.addTx tx false with
      | error e => simp [hadd, bind, Except.bind] at h
      | ok r =>
          have hs₁ := hs.addTx (hx tx List.mem_cons_self) hadd
          simp only [hadd, bind, Except.bind] at h
          exact ih (fun t ht => hx t (List.mem_cons_of_mem _ ht)) hs₁ h

/-- One more transaction at the end of a run. -/
theorem addTxs_concat {txs : List Transaction} :
    s.addTxs (txs ++ [tx]) = .ok s' ↔
      ∃ s₁ b, s.addTxs txs = .ok s₁ ∧ s₁.addTx tx false = .ok (b, s') := by
  rw [addTxs, foldlM_concat]
  refine exists_congr fun s₁ => ?_
  simp only [bind_eq_ok, Prod.exists, Except.ok.injEq, exists_eq_right, exists_and_left]
  rfl

/-- A run from the empty validator keeps the GENESIS of every valid transaction in
every state exactly when no SEND of nothing is judged before its GENESIS is valid. -/
theorem runGenesisHeld_iff (txs : List Transaction) (hx : ∀ tx ∈ txs, tx.Hydrated) :
    Validator.empty.RunGenesisHeld txs ↔ Validator.empty.RunGrounded txs := by
  have hempty : Validator.empty.StoredHydrated := fun x t hl => by simp [Validator.empty] at hl
  constructor
  · rintro h before tx after s rfl hrun
    have hs := addTxs_storedHydrated (fun t ht => hx t (List.mem_append_left _ ht)) hempty hrun
    refine grounded_of_genesisHeld hs (hx tx (by simp)) fun b s' hadd => ?_
    exact h (before ++ [tx]) after s' (by simp) (addTxs_concat.mpr ⟨s, b, hrun, hadd⟩)
  · intro h before
    -- The last transaction of the prefix is the step; the state before it is held.
    induction before using List.reverseRecOn with
    | nil =>
        rintro after s - hrun
        obtain rfl : Validator.empty = s := Except.ok.inj hrun
        exact fun x hxv => by simp [Validator.empty] at hxv
    | append_singleton before tx ih =>
        rintro after s' rfl hrun
        obtain ⟨s, b, hbefore, hadd⟩ := addTxs_concat.mp hrun
        have hs := addTxs_storedHydrated
          (fun t ht => hx t (List.mem_append_left _ (List.mem_append_left _ ht))) hempty hbefore
        have hheld := ih (tx :: after) s (by simp) hbefore
        exact hheld.addTx hs (hx tx (by simp)) (h before tx after s (by simp) hbefore) hadd

theorem runGenesisHeld_iff_sample :
    Validator.empty.RunGenesisHeld [sampleGenesis, sampleSend] ↔
      Validator.empty.RunGrounded [sampleGenesis, sampleSend] :=
  runGenesisHeld_iff _ (by simp [sampleGenesis_hydrated, sampleSend_hydrated])

/-- A SEND of nothing for a token id that no transaction has. -/
def zeroSend : Transaction :=
  let txid : Txid := ⟨
    [0xB7, 0x6D, 0x91, 0x0A, 0x1C, 0x20, 0x6E, 0xEB, 0x77, 0x21, 0x8D, 0x47, 0x02, 0x75, 0xC6,
     0x2B, 0x96, 0x85, 0x6B, 0x2D, 0xE1, 0x0D, 0x52, 0x59, 0xF3, 0x59, 0x8A, 0x3A, 0x78, 0x8B,
     0x2C, 0xAB], rfl⟩
  let tokenid : Tokenid := ⟨List.replicate 32 0x33, rfl⟩
  encoded txid [⟨.zero, 1⟩] [opReturn (sendPayloads 1 tokenid [0]), [0x53]]
    ⟨tokenid, 1, .send ⟨[0]⟩⟩

theorem zeroSend_hydrated : zeroSend.Hydrated :=
  hydrated_encoded (by decide) (by decide) (by decide) (by decide +kernel) (by decide +kernel)

/-- Added alone it is valid, and nothing is stored under its token id. -/
theorem genesisHeld_fails :
    ∃ s, Validator.empty.addTxs [zeroSend] = .ok s ∧ zeroSend.Hydrated ∧
      ParentsFirst [zeroSend] ∧ zeroSend.txid ∈ s.valid ∧
      s.transactionMap.lookup zeroSend.slp.tokenid = none ∧ ¬ s.GenesisHeld := by
  have hrun : (Validator.empty.addTxs [zeroSend]).toOption.any (fun s =>
      decide (zeroSend.txid ∈ s.valid) && (s.transactionMap.lookup zeroSend.slp.tokenid).isNone
      && (s.transactionMap.lookup zeroSend.txid = some zeroSend)) = true := by decide +kernel
  cases h : Validator.empty.addTxs [zeroSend] with
  | error e => simp [h, Except.toOption] at hrun
  | ok s =>
      simp only [h, Except.toOption, Option.any_some, Bool.and_eq_true, decide_eq_true_eq,
        Option.isNone_iff_eq_none] at hrun
      obtain ⟨⟨hvalid, hnone⟩, hstored⟩ := hrun
      refine ⟨s, rfl, zeroSend_hydrated, by decide, hvalid, hnone, fun hheld => ?_⟩
      obtain ⟨t, ht, g, hg, -⟩ := hheld _ hvalid
      rw [hstored, Option.some.injEq] at ht
      subst ht
      rw [(view_eq_some.mp hg).2] at hnone
      simp at hnone

end Validator
end SlpGraphSearch
