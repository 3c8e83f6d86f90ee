import SlpGraphSearch.Library.Derivation
import SlpGraphSearch.TransactionCodec
import Mathlib.Algebra.BigOperators.Group.List.Basic
import Mathlib.Algebra.Order.BigOperators.Group.List
import Mathlib.Logic.Relation
import Mathlib.Data.Fintype.Card

/-!
# SLP validity

What the validator is for, stated without it: the rule of each transaction kind
over the valid transactions its inputs spend, and the least set of transactions
closed under the rules.

A ledger is a finite set of decoded transactions without cycles and without
double spends of its own outputs. Its baton holders form a single line, so no
transaction spends the batons of two of them.
-/
namespace SlpGraphSearch
open Library

/-- The valid transactions by id. -/
abbrev ValidView := Txid → Option Transaction

namespace Transaction

/-- Both belong to the pair of a token id and a token type. -/
def SameToken (p t : Transaction) : Prop :=
  p.slp.tokenid = t.slp.tokenid ∧ p.slp.tokenType = t.slp.tokenType

instance (p t : Transaction) : Decidable (p.SameToken t) := by
  unfold SameToken
  infer_instance

/-- GENESIS and MINT transactions can hold the baton. -/
def IsAuthority (p : Transaction) : Prop := p.slp.type = .genesis ∨ p.slp.type = .mint

theorem IsAuthority.ne_invalid {p : Transaction} (h : p.IsAuthority) :
    p.slp.type ≠ .invalid := by
  rcases h with h | h
  all_goals simp [h]

/-- A SEND of a total of zero, the one kind of transaction whose rule asks for nothing. -/
def SendsNothing (t : Transaction) : Prop :=
  ∃ send, t.slp.slpTx = .send send ∧ (send.amounts.map UInt64.toNat).sum = 0

theorem SendsNothing.outputSlpAmount {t : Transaction} (h : t.SendsNothing) (vout : ℕ) :
    t.outputSlpAmount vout = 0 := by
  obtain ⟨send, hsend, hsum⟩ := h
  have hzero : ∀ n ∈ send.amounts, n = 0 := fun n hn =>
    UInt64.toNat_inj.mp (List.sum_eq_zero_iff.mp hsum _ (List.mem_map_of_mem hn))
  unfold Transaction.outputSlpAmount
  simp only [hsend]
  split_ifs
  · rw [List.getD_eq_getElem?_getD]
    cases hi : send.amounts[vout - 1]? with
    | none => rfl
    | some n => exact hzero n (List.mem_of_getElem? hi)
  · rfl

theorem SendsNothing.not_isAuthority {t : Transaction} (h : t.SendsNothing) :
    ¬ t.IsAuthority := by
  obtain ⟨send, hsend, -⟩ := h
  simp [IsAuthority, SlpTransaction.type_eq_send.mpr ⟨send, hsend⟩]

end Transaction

open Transaction

/-- What an input contributes to a SEND: the amount of the output it spends, if
that is an output of a valid transaction of the same token. -/
def credit (prev : ValidView) (t : Transaction) (o : Outpoint) : ℕ :=
  match prev o.txid with
  | none => 0
  | some p => if p.SameToken t then (p.outputSlpAmount o.vout.toNat).toNat else 0

/-- A valid baton holder of the same token whose baton the input spends. -/
def SpendsBaton (prev : ValidView) (t : Transaction) (o : Outpoint) (p : Transaction) : Prop :=
  prev o.txid = some p ∧ p.SameToken t ∧ p.IsAuthority ∧ o = p.mintBatonOutpoint

theorem SpendsBaton.of_sameToken {prev : ValidView} {t u p : Transaction} {o : Outpoint}
    (h : SpendsBaton prev t o p) (htu : t.SameToken u) : SpendsBaton prev u o p :=
  ⟨h.1, ⟨h.2.1.1.trans htu.1, h.2.1.2.trans htu.2⟩, h.2.2⟩

/-- The rule of a transaction over the valid transactions. -/
def SlpRule (prev : ValidView) (t : Transaction) : Prop :=
  match t.slp.slpTx with
  | .genesis _ => t.slp.tokenType = 0x41 → ∃ o p, t.inputs.head? = some o ∧
      prev o.txid = some p ∧ p.slp.tokenType = 0x81 ∧
      1 ≤ (p.outputSlpAmount o.vout.toNat).toNat
  | .mint _ => ∃ o ∈ t.inputs, ∃ p, SpendsBaton prev t o p
  | .send s => (s.amounts.map UInt64.toNat).sum ≤ (t.inputs.map (credit prev t)).sum
  | .invalid => False

theorem not_slpRule_invalid {prev : ValidView} {t : Transaction}
    (h : t.slp.type = .invalid) : ¬ SlpRule prev t := by
  simp only [SlpRule, SlpTransaction.type_eq_invalid.mp h, not_false_eq_true]

/-- Only the views of the spent transactions matter. -/
theorem SlpRule.congr {prev prev' : ValidView} {t : Transaction}
    (h : ∀ o ∈ t.inputs, prev o.txid = prev' o.txid) : SlpRule prev t ↔ SlpRule prev' t := by
  unfold SlpRule
  split
  · constructor
    · intro hr h41
      obtain ⟨o, p, ho, hp, hrest⟩ := hr h41
      exact ⟨o, p, ho, h o (List.mem_of_mem_head? ho) ▸ hp, hrest⟩
    · intro hr h41
      obtain ⟨o, p, ho, hp, hrest⟩ := hr h41
      exact ⟨o, p, ho, h o (List.mem_of_mem_head? ho) ▸ hp, hrest⟩
  · constructor
    · rintro ⟨o, ho, p, hp, hrest⟩
      exact ⟨o, ho, p, h o ho ▸ hp, hrest⟩
    · rintro ⟨o, ho, p, hp, hrest⟩
      exact ⟨o, ho, p, h o ho ▸ hp, hrest⟩
  · have hsum : t.inputs.map (credit prev t) = t.inputs.map (credit prev' t) :=
      List.map_congr_left fun o ho => by rw [credit, credit, h o ho]
    rw [hsum]
  · rfl

/-- More valid transactions never break a rule. -/
theorem SlpRule.mono {prev prev' : ValidView} {t : Transaction}
    (h : ∀ o ∈ t.inputs, ∀ p, prev o.txid = some p → prev' o.txid = some p)
    (hr : SlpRule prev t) : SlpRule prev' t := by
  unfold SlpRule at hr ⊢
  split at hr
  · intro h41
    obtain ⟨o, p, ho, hp, hrest⟩ := hr h41
    exact ⟨o, p, ho, h o (List.mem_of_mem_head? ho) p hp, hrest⟩
  · obtain ⟨o, ho, p, hp, hrest⟩ := hr
    exact ⟨o, ho, p, h o ho p hp, hrest⟩
  · refine hr.trans (List.sum_le_sum fun o ho => ?_)
    cases hp : prev o.txid with
    | none => simp [credit, hp]
    | some p => rw [credit, credit, hp, h o ho p hp]
  · exact hr

theorem Transaction.SendsNothing.slpRule {prev : ValidView} {t : Transaction} (h : t.SendsNothing) :
    SlpRule prev t := by
  obtain ⟨send, hsend, hsum⟩ := h
  simp only [SlpRule, hsend, hsum]
  exact Nat.zero_le _

/-- Apart from GENESIS and SENDs of nothing, a rule leads to a valid transaction of
the same token that is no SEND of nothing itself. -/
theorem SlpRule.sameToken_parent {prev : ValidView} {t : Transaction} (hr : SlpRule prev t) :
    t.slp.type = .genesis ∨ t.SendsNothing ∨
      ∃ o ∈ t.inputs, ∃ p, prev o.txid = some p ∧ p.SameToken t ∧ ¬ p.SendsNothing := by
  unfold SlpRule at hr
  split at hr
  · rename_i g hg
    exact .inl (SlpTransaction.type_eq_genesis.mpr ⟨g, hg⟩)
  · obtain ⟨o, ho, p, hp, hsame, ha, -⟩ := hr
    exact .inr (.inr ⟨o, ho, p, hp, hsame, fun hz => hz.not_isAuthority ha⟩)
  · rename_i send hsend
    by_cases hsum : (send.amounts.map UInt64.toNat).sum = 0
    · exact .inr (.inl ⟨send, hsend, hsum⟩)
    · obtain ⟨n, hn, hne⟩ : ∃ n ∈ t.inputs.map (credit prev t), n ≠ 0 := by
        by_contra! hall
        have := List.sum_eq_zero hall
        omega
      obtain ⟨o, ho, rfl⟩ := List.mem_map.mp hn
      unfold credit at hne
      split at hne
      · exact absurd rfl hne
      · rename_i p hp
        split_ifs at hne with hsame
        · exact .inr (.inr ⟨o, ho, p, hp, hsame, fun hz => hne (by
            rw [hz.outputSlpAmount, UInt64.toNat_zero])⟩)
        · exact absurd rfl hne
  · exact absurd hr not_false

/-- A child GENESIS is the only transaction whose rule looks beyond its token. -/
theorem SlpRule.of_sameToken {prev prev' : ValidView} {t : Transaction}
    (hchild : t.slp.type = .genesis → t.slp.tokenType ≠ 0x41)
    (h : ∀ o ∈ t.inputs, ∀ p, prev o.txid = some p → p.SameToken t → prev' o.txid = some p)
    (hr : SlpRule prev t) : SlpRule prev' t := by
  unfold SlpRule at hr ⊢
  split at hr
  · rename_i g hg
    exact fun h41 => absurd h41 (hchild (SlpTransaction.type_eq_genesis.mpr ⟨g, hg⟩))
  · obtain ⟨o, ho, p, hp, hsame, hrest⟩ := hr
    exact ⟨o, ho, p, h o ho p hp hsame, hsame, hrest⟩
  · refine hr.trans (List.sum_le_sum fun o ho => ?_)
    cases hp : prev o.txid with
    | none => simp [credit, hp]
    | some p =>
        by_cases hsame : p.SameToken t
        · rw [credit, credit, hp, h o ho p hp hsame]
        · simp [credit, hp, hsame]
  · exact hr

open Classical in
/-- The transactions of `T` whose ids lie in `V`. -/
noncomputable def restrict (T : TransactionMap) (V : Set Txid) : ValidView := fun x =>
  if x ∈ V then T.lookup x else none

theorem restrict_eq_some {T : TransactionMap} {V : Set Txid} {x : Txid} {p : Transaction} :
    restrict T V x = some p ↔ x ∈ V ∧ T.lookup x = some p := by
  unfold restrict
  split_ifs with h <;> simp [h]

theorem restrict_mono {T : TransactionMap} {V W : Set Txid} (h : V ⊆ W) {x : Txid}
    {p : Transaction} (hp : restrict T V x = some p) : restrict T W x = some p := by
  rw [restrict_eq_some] at hp ⊢
  exact ⟨h hp.1, hp.2⟩

/-- The rules of the transactions of `T` as a rule system on ids. -/
def slpRules (T : TransactionMap) : Rules Txid where
  holds V x := ∃ t, T.lookup x = some t ∧ SlpRule (restrict T V) t
  mono h := by
    rintro ⟨t, ht, hr⟩
    exact ⟨t, ht, hr.mono fun _ _ _ hp => restrict_mono h hp⟩

theorem slpRules_holds {T : TransactionMap} {V : Set Txid} {t : Transaction}
    (ht : T.lookup t.txid = some t) :
    (slpRules T).holds V t.txid ↔ SlpRule (restrict T V) t := by
  constructor
  · rintro ⟨u, hu, hr⟩
    rw [ht, Option.some.injEq] at hu
    exact hu ▸ hr
  · exact fun hr => ⟨t, ht, hr⟩

/-- SLP validity over `T`: the least predicate closed under the rules. -/
def SlpValid (T : TransactionMap) : Set Txid := (slpRules T).derivable

/-- `x` is spent by the transaction `y`. -/
def Parent (T : TransactionMap) (x y : Txid) : Prop :=
  ∃ t, T.lookup y = some t ∧ x ∈ T ∧ ∃ o ∈ t.inputs, o.txid = x

theorem slpRules_dependsOn (T : TransactionMap) : (slpRules T).DependsOn (Parent T) := by
  rintro V W x h ⟨t, ht, hr⟩
  refine ⟨t, ht, (SlpRule.congr fun o ho => ?_).mp hr⟩
  by_cases hT : o.txid ∈ T
  · have hVW := h o.txid ⟨t, ht, hT, o, ho, rfl⟩
    by_cases hV : o.txid ∈ V
    · simp [restrict, hV, hVW.mp hV]
    · simp [restrict, hV, mt hVW.mpr hV]
  · have hnone := KeyedMap.lookup_eq_none.mpr hT
    simp [restrict, hnone]

/-! ## Ledgers -/

/-- A finite set of decoded transactions, as a chain and its mempool would hold
them: no cycles, and no output of a member is spent twice. -/
structure Ledger where
  T : TransactionMap
  hydrated : ∀ {x t}, T.lookup x = some t → t.Hydrated
  acyclic : ∀ x, ¬ Relation.TransGen (Parent T) x x
  spender_unique : ∀ {x y t u} {o : Outpoint}, T.lookup x = some t → T.lookup y = some u →
    o.txid ∈ T → o ∈ t.inputs → o ∈ u.inputs → x = y
  spent_once : ∀ {x t} {o : Outpoint}, T.lookup x = some t → o.txid ∈ T → t.inputs.count o ≤ 1

/-- Parents come before children. -/
def ParentsFirst (txs : List Transaction) : Prop :=
  txs.Pairwise fun a b => ∀ o ∈ a.inputs, o.txid ≠ b.txid

instance (txs : List Transaction) : Decidable (ParentsFirst txs) :=
  inferInstanceAs (Decidable (txs.Pairwise _))

namespace Ledger

theorem lookup_ofList_txid {txs : List Transaction} (hid : (txs.map Transaction.txid).Nodup)
    {x : Txid} {t : Transaction} :
    (KeyedMap.ofList txs : TransactionMap).lookup x = some t ↔ t ∈ txs ∧ t.txid = x :=
  KeyedMap.lookup_ofList fun _ hv _ hw => List.inj_on_of_nodup_map hid hv hw

theorem idxOf_txid {txs : List Transaction} (hid : (txs.map Transaction.txid).Nodup) {i : ℕ}
    (hi : i < txs.length) : (txs.map Transaction.txid).idxOf txs[i].txid = i := by
  have h := hid.idxOf_getElem i (by simpa using hi)
  rwa [List.getElem_map] at h

/-- In a list with parents first, ancestors have smaller positions. -/
theorem idxOf_lt_of_transGen {txs : List Transaction} (hid : (txs.map Transaction.txid).Nodup)
    (hself : ∀ t ∈ txs, ∀ o ∈ t.inputs, o.txid ≠ t.txid) (hord : ParentsFirst txs) {x y : Txid}
    (h : Relation.TransGen (Parent (KeyedMap.ofList txs)) x y) :
    (txs.map Transaction.txid).idxOf x < (txs.map Transaction.txid).idxOf y := by
  have hrank : ∀ x y, Parent (KeyedMap.ofList txs) x y →
      (txs.map Transaction.txid).idxOf x < (txs.map Transaction.txid).idxOf y := by
    rintro x y ⟨t, ht, hx, o, ho, rfl⟩
    obtain ⟨u, hu⟩ := KeyedMap.mem_iff.mp hx
    obtain ⟨htmem, rfl⟩ := (lookup_ofList_txid hid).mp ht
    obtain ⟨humem, hux⟩ := (lookup_ofList_txid hid).mp hu
    obtain ⟨i, hi, rfl⟩ := List.mem_iff_getElem.mp htmem
    obtain ⟨j, hj, rfl⟩ := List.mem_iff_getElem.mp humem
    rw [← hux, idxOf_txid hid hi, idxOf_txid hid hj]
    rcases Nat.lt_trichotomy i j with hij | rfl | hij
    · exact absurd hux.symm (List.pairwise_iff_getElem.mp hord i j hi hj hij o ho)
    · exact absurd hux.symm (hself _ htmem o ho)
    · exact hij
  have hlt := h.lift (txs.map Transaction.txid).idxOf hrank
  rwa [Relation.transGen_eq_self] at hlt

/-- Listing transactions parents first shows that there is no cycle. -/
theorem acyclic_of_parentsFirst {txs : List Transaction} (hid : (txs.map Transaction.txid).Nodup)
    (hself : ∀ t ∈ txs, ∀ o ∈ t.inputs, o.txid ≠ t.txid) (hord : ParentsFirst txs) (x : Txid) :
    ¬ Relation.TransGen (Parent (KeyedMap.ofList txs)) x x :=
  fun hcycle => lt_irrefl _ (idxOf_lt_of_transGen hid hself hord hcycle)

/-- Nothing comes after a descendant of it. -/
theorem pairwise_not_transGen {txs : List Transaction} (hid : (txs.map Transaction.txid).Nodup)
    (hself : ∀ t ∈ txs, ∀ o ∈ t.inputs, o.txid ≠ t.txid) (hord : ParentsFirst txs) :
    txs.Pairwise fun a c =>
      ¬ Relation.TransGen (Parent (KeyedMap.ofList txs)) c.txid a.txid := by
  refine List.pairwise_iff_getElem.mpr fun i j hi hj hij hanc => ?_
  have hlt := idxOf_lt_of_transGen hid hself hord hanc
  rw [idxOf_txid hid hi, idxOf_txid hid hj] at hlt
  omega

/-- The ledger of a list without repeated ids and without double spends. -/
def ofList (txs : List Transaction) (hhyd : ∀ t ∈ txs, t.Hydrated)
    (hid : (txs.map Transaction.txid).Nodup)
    (hself : ∀ t ∈ txs, ∀ o ∈ t.inputs, o.txid ≠ t.txid) (hord : ParentsFirst txs)
    (hspend : (txs.flatMap Transaction.inputs).Nodup) : Ledger where
  T := KeyedMap.ofList txs
  hydrated ht := hhyd _ ((lookup_ofList_txid hid).mp ht).1
  acyclic := acyclic_of_parentsFirst hid hself hord
  spender_unique := by
    intro x y t u o ht hu _ hot hou
    obtain ⟨htmem, rfl⟩ := (lookup_ofList_txid hid).mp ht
    obtain ⟨humem, rfl⟩ := (lookup_ofList_txid hid).mp hu
    by_contra hne
    have hsymm : Std.Symm (Function.onFun List.Disjoint Transaction.inputs) :=
      ⟨fun _ _ h => h.symm⟩
    exact (List.nodup_flatMap.mp hspend).2.forall htmem humem (fun h => hne (h ▸ rfl)) hot hou
  spent_once := by
    intro x t o ht _
    have htmem := ((lookup_ofList_txid hid).mp ht).1
    exact List.nodup_iff_count_le_one.mp ((List.nodup_flatMap.mp hspend).1 t htmem) o

theorem mem_ofList {txs : List Transaction} {hhyd : ∀ t ∈ txs, t.Hydrated}
    {hid : (txs.map Transaction.txid).Nodup} {hself : ∀ t ∈ txs, ∀ o ∈ t.inputs, o.txid ≠ t.txid}
    {hord : ParentsFirst txs} {hspend : (txs.flatMap Transaction.inputs).Nodup}
    {tx : Transaction} :
    tx ∈ txs ↔ (ofList txs hhyd hid hself hord hspend).T.lookup tx.txid = some tx := by
  rw [ofList, lookup_ofList_txid hid]
  exact (and_iff_left rfl).symm

variable (L : Ledger)

theorem wellFounded : WellFounded (Parent L.T) :=
  wellFounded_of_acyclic L.T.finite_mem (fun ⟨_, _, hx, _⟩ => hx) L.acyclic

/-- A set of ids whose members satisfy their rules over the set itself. -/
def Justified (V : Set Txid) : Prop := ∀ x ∈ V, (slpRules L.T).holds V x

theorem slpValid_justified : L.Justified (SlpValid L.T) :=
  fun _ hx => (slpRules L.T).mem_derivable.mp hx

theorem Justified.subset_slpValid {V : Set Txid} (h : L.Justified V) : V ⊆ SlpValid L.T :=
  Rules.subset_derivable (slpRules_dependsOn L.T) L.wellFounded h

/-! ### Parts of a ledger -/

theorem txidsDetermine {txs : List Transaction} (h : ∀ tx ∈ txs, L.T.lookup tx.txid = some tx) :
    TxidsDetermine txs := by
  intro t ht u hu htu
  have hl := h t ht
  rw [htu, h u hu, Option.some.injEq] at hl
  exact hl.symm

/-- The ledger of some of the members. -/
def part (txs : List Transaction) (h : ∀ tx ∈ txs, L.T.lookup tx.txid = some tx) : Ledger :=
  have hsub : ∀ {x t}, (KeyedMap.ofList txs : TransactionMap).lookup x = some t →
      L.T.lookup x = some t := fun ht => by
    obtain ⟨hmem, rfl⟩ := (KeyedMap.lookup_ofList (L.txidsDetermine h)).mp ht
    exact h _ hmem
  have hmem : ∀ {x}, x ∈ (KeyedMap.ofList txs : TransactionMap) → x ∈ L.T := fun hx => by
    obtain ⟨t, ht⟩ := KeyedMap.mem_iff.mp hx
    exact KeyedMap.mem_iff.mpr ⟨t, hsub ht⟩
  { T := KeyedMap.ofList txs
    hydrated := fun ht => L.hydrated (hsub ht)
    acyclic := fun x hcycle => L.acyclic x
      (hcycle.lift id fun _ _ ⟨t, ht, hx, ho⟩ => ⟨t, hsub ht, hmem hx, ho⟩)
    spender_unique := fun ht hu ho => L.spender_unique (hsub ht) (hsub hu) (hmem ho)
    spent_once := fun ht ho => L.spent_once (hsub ht) (hmem ho) }

theorem lookup_part {txs : List Transaction} (h : ∀ tx ∈ txs, L.T.lookup tx.txid = some tx)
    {x : Txid} {t : Transaction} : (L.part txs h).T.lookup x = some t ↔ t ∈ txs ∧ t.txid = x :=
  KeyedMap.lookup_ofList (L.txidsDetermine h)

theorem parent_of_spends {txs : List Transaction}
    (h : ∀ tx ∈ txs, L.T.lookup tx.txid = some tx) {p t : Transaction} (hp : p ∈ txs)
    (ht : t ∈ txs) {o : Outpoint} (ho : o ∈ t.inputs) (hop : o.txid = p.txid) :
    Parent (KeyedMap.ofList txs) p.txid t.txid :=
  ⟨t, (L.lookup_part h).mpr ⟨ht, rfl⟩, KeyedMap.mem_iff.mpr ⟨p, (L.lookup_part h).mpr ⟨hp, rfl⟩⟩,
    o, ho, hop⟩

theorem not_spends_self {txs : List Transaction}
    (h : ∀ tx ∈ txs, L.T.lookup tx.txid = some tx) {t : Transaction} (ht : t ∈ txs) :
    ∀ o ∈ t.inputs, o.txid ≠ t.txid := fun _ ho hot =>
  (L.part txs h).acyclic t.txid (.single (L.parent_of_spends h ht ht ho hot))

variable {L} {V : Set Txid}

/-- Whatever is justified and no SEND of nothing has the GENESIS of its token. -/
theorem Justified.genesis (h : L.Justified V) {x : Txid} {t : Transaction}
    (ht : restrict L.T V x = some t) (hsend : ¬ t.SendsNothing) :
    ∃ g, restrict L.T V t.slp.tokenid = some g ∧ g.slp.type = .genesis ∧ g.SameToken t := by
  induction x using L.wellFounded.induction generalizing t with
  | _ x ih =>
      obtain ⟨hxV, htT⟩ := restrict_eq_some.mp ht
      obtain ⟨u, hu, hr⟩ := h x hxV
      obtain rfl := Option.some.inj (htT.symm.trans hu)
      rcases hr.sameToken_parent with hgen | hz | ⟨o, ho, p, hp, hsame, hpz⟩
      · have hid : t.slp.tokenid = x := by
          rw [← KeyedMap.key_lookup htT]
          exact (L.hydrated htT).genesis_tokenid hgen
        exact ⟨t, hid ▸ ht, hgen, rfl, rfl⟩
      · exact absurd hz hsend
      · have hpar : Parent L.T o.txid x :=
          ⟨t, htT, KeyedMap.mem_iff.mpr ⟨p, (restrict_eq_some.mp hp).2⟩, o, ho, rfl⟩
        obtain ⟨g, hg, hgen, hgp⟩ := ih o.txid hpar hp hpz
        exact ⟨g, hsame.1 ▸ hg, hgen, hgp.1.trans hsame.1, hgp.2.trans hsame.2⟩

/-! ### The line of baton holders -/

/-- The MINT `y` takes over the baton that `x` holds. -/
def Passes (L : Ledger) (V : Set Txid) (x y : Txid) : Prop :=
  ∃ p q o, restrict L.T V x = some p ∧ L.T.lookup y = some q ∧ o ∈ q.inputs ∧
    o = p.mintBatonOutpoint

theorem Passes.parent {x y : Txid} (h : L.Passes V x y) : Parent L.T x y := by
  obtain ⟨p, q, o, hp, hq, ho, rfl⟩ := h
  obtain ⟨-, hp⟩ := restrict_eq_some.mp hp
  exact ⟨q, hq, KeyedMap.mem_iff.mpr ⟨p, hp⟩, _, ho, by
    rw [mintBatonOutpoint_txid, KeyedMap.key_lookup hp]⟩

theorem passes_rightUnique : Relator.RightUnique (L.Passes V) := by
  rintro x y z ⟨p, q, o, hp, hq, ho, rfl⟩ ⟨p', q', o', hp', hq', ho', rfl⟩
  rw [hp, Option.some.injEq] at hp'
  subst hp'
  have hmem : p.mintBatonOutpoint.txid ∈ L.T := by
    obtain ⟨-, hp⟩ := restrict_eq_some.mp hp
    exact KeyedMap.mem_iff.mpr ⟨p, by rwa [mintBatonOutpoint_txid, KeyedMap.key_lookup hp]⟩
  exact L.spender_unique hq hq' hmem ho ho'

/-- Every baton holder descends from the GENESIS of its token. -/
theorem Justified.genesis_passes (h : L.Justified V) {x : Txid} {p : Transaction}
    (hp : restrict L.T V x = some p) (ha : p.IsAuthority) :
    Relation.ReflTransGen (L.Passes V) p.slp.tokenid x := by
  induction x using L.wellFounded.induction generalizing p with
  | _ x ih =>
      obtain ⟨hxV, hpT⟩ := restrict_eq_some.mp hp
      obtain ⟨t, ht, hr⟩ := h x hxV
      rw [hpT, Option.some.injEq] at ht
      subst ht
      unfold SlpRule at hr
      split at hr
      · rename_i s hs
        rw [((L.hydrated hpT).genesis hs).1, KeyedMap.key_lookup hpT]
      · obtain ⟨o, ho, q, hq, hsame, hqa, hbaton⟩ := hr
        have hpass : L.Passes V o.txid x := ⟨q, p, o, hq, hpT, ho, hbaton⟩
        rw [← hsame.1]
        exact (ih o.txid hpass.parent hq hqa).tail hpass
      · rename_i s hs
        simp [IsAuthority, SlpTransaction.type_eq_send.mpr ⟨s, hs⟩] at ha
      · exact absurd hr not_false

/-- No transaction of a ledger spends the batons of two holders of one token. -/
theorem Justified.baton_unique (h : L.Justified V) {t p q : Transaction} {o r : Outpoint}
    (ht : L.T.lookup t.txid = some t) (ho : o ∈ t.inputs) (hr : r ∈ t.inputs)
    (hp : SpendsBaton (restrict L.T V) t o p) (hq : SpendsBaton (restrict L.T V) t r q) :
    p = q := by
  -- Of two holders on the line, the transaction behind the first is `t` itself.
  have hline : ∀ {o r : Outpoint} {p q : Transaction}, o ∈ t.inputs → r ∈ t.inputs →
      SpendsBaton (restrict L.T V) t o p → SpendsBaton (restrict L.T V) t r q →
      Relation.ReflTransGen (L.Passes V) o.txid r.txid → p = q := by
    intro o r p q ho hr hp hq hreach
    rcases hreach.cases_head with heq | ⟨y, hoy, hyr⟩
    · exact Option.some.inj (hp.1.symm.trans (heq ▸ hq.1))
    · have hpass : L.Passes V o.txid t.txid := ⟨p, t, o, hp.1, ht, ho, hp.2.2.2⟩
      have hrt : L.Passes V r.txid t.txid := ⟨q, t, r, hq.1, ht, hr, hq.2.2.2⟩
      obtain rfl : y = t.txid := passes_rightUnique hoy hpass
      have hup := hyr.lift id fun _ _ => Passes.parent
      exact absurd (Relation.TransGen.tail' hup hrt.parent) (L.acyclic _)
  have h₁ := h.genesis_passes hp.1 hp.2.2.1
  have h₂ := h.genesis_passes hq.1 hq.2.2.1
  rw [hp.2.1.1] at h₁
  rw [hq.2.1.1] at h₂
  rcases Relation.ReflTransGen.total_of_right_unique passes_rightUnique h₁ h₂ with hor | hro
  · exact hline ho hr hp hq hor
  · exact (hline hr ho hq hp hro).symm

end Ledger
end SlpGraphSearch
