import SlpGraphSearch.LedgerChain
import SlpGraphSearch.TokenTracks

/-!
# Live batons

The baton of a token moves with every GENESIS and MINT that creates one, and leaves when
it is spent. The block's input loop only resets a baton that it also finds among the
outputs of the token. There are the batons of MINTs; the baton of a GENESIS is not.
-/
namespace SlpGraphSearch
open Library Transaction

instance (p : Transaction) : Decidable p.IsAuthority :=
  inferInstanceAs (Decidable (p.slp.type = .genesis ∨ p.slp.type = .mint))

namespace Slpdb

variable {T : TransactionMap} {db db' : Slpdb} {tx : Transaction} {t : Tokenid}

/-! ## The last authority -/

/-- The last GENESIS or MINT of the token among the transactions. -/
def lastAuthority (t : Tokenid) (txs : List Transaction) : Option Transaction :=
  (txs.filter fun p => p.IsAuthority ∧ p.slp.tokenid = t).getLast?

theorem lastAuthority_append (t : Tokenid) (txs rest : List Transaction) :
    lastAuthority t (txs ++ rest) = (lastAuthority t rest).or (lastAuthority t txs) := by
  unfold lastAuthority
  rw [List.filter_append, List.getLast?_append]

theorem lastAuthority_cons (t : Tokenid) (tx : Transaction) (txs : List Transaction) :
    lastAuthority t (tx :: txs) = (lastAuthority t txs).or
      (if tx.IsAuthority ∧ tx.slp.tokenid = t then some tx else none) := by
  have happend := lastAuthority_append t [tx] txs
  rw [List.singleton_append] at happend
  rw [happend]
  congr 1
  unfold lastAuthority
  by_cases hp : tx.IsAuthority ∧ tx.slp.tokenid = t
  · simp [hp]
  · simp [hp]

theorem lastAuthority_eq_some {txs : List Transaction} {p : Transaction}
    (h : lastAuthority t txs = some p) : p ∈ txs ∧ p.IsAuthority ∧ p.slp.tokenid = t := by
  have hp := List.mem_filter.mp (List.mem_of_getLast? h)
  rw [decide_eq_true_eq] at hp
  exact hp

theorem lastBaton_of_lastAuthority_eq_none {txs : List Transaction}
    (h : lastAuthority t txs = none) : lastBaton t txs = none := by
  by_contra hb
  obtain ⟨o, ho⟩ := Option.ne_none_iff_exists'.mp hb
  obtain ⟨p, hp, ht, hpo⟩ := lastBaton_eq_some ho
  rw [lastAuthority, List.getLast?_eq_none_iff, List.filter_eq_nil_iff] at h
  apply h p hp
  rw [decide_eq_true_eq]
  exact ⟨isAuthority_of_batonOutput hpo, ht⟩

theorem lastBaton_of_lastAuthority {txs : List Transaction} {p : Transaction} {o : Outpoint}
    (h : lastAuthority t txs = some p) (ho : p.batonOutput = some o) :
    lastBaton t txs = some o := by
  induction txs with
  | nil => simp [lastAuthority] at h
  | cons tx txs ih =>
    rw [lastAuthority_cons] at h
    rw [lastBaton_cons]
    cases hrest : lastAuthority t txs with
    | some q =>
      rw [hrest, Option.some_or] at h
      rw [ih (hrest.trans h), Option.some_or]
    | none =>
      rw [hrest, Option.none_or] at h
      split_ifs at h with htx
      have heq : tx = p := Option.some.inj h
      rw [lastBaton_of_lastAuthority_eq_none hrest, Option.none_or, if_pos htx.2, heq, ho]

/-- Where the last authority creates no baton, it spends the one that is left. -/
theorem Tracks.spends_of_lastAuthority {txs : List Transaction} (h : db.Tracks T)
    (hT : T.Decoded) (htxs : ∀ tx ∈ db.accepted txs, T.lookup tx.txid = some tx)
    {p : Transaction} {o : Outpoint} (hlast : lastAuthority t (db.accepted txs) = some p)
    (hb : p.batonOutput = none)
    (ho : (lastBaton t (db.accepted txs)).or (db.token t).mintBatonOutpoint = some o) :
    o ∈ p.inputs := by
  induction txs generalizing db with
  | nil => simp [accepted, lastAuthority] at hlast
  | cons tx txs ih =>
    rw [accepted] at htxs hlast ho
    split_ifs at htxs hlast ho with hacc
    swap
    · exact ih h htxs hlast ho
    have htx := htxs tx List.mem_cons_self
    have hrest : ∀ u ∈ (db.addTransaction tx).accepted txs, T.lookup u.txid = some u :=
      fun u hu => htxs u (List.mem_cons_of_mem tx hu)
    have hrec := h.records (hT htx) hacc
    rw [lastAuthority_cons] at hlast
    rw [lastBaton_cons, Option.or_assoc] at ho
    have hbaton : ((db.addTransaction tx).token t).mintBatonOutpoint =
        (if tx.slp.tokenid = t then tx.batonOutput else none).or
          (db.token t).mintBatonOutpoint := by
      rw [hrec.baton]
      by_cases ht : t = tx.slp.tokenid
      · simp [ht]
      · simp [ht, Ne.symm ht]
    rw [← hbaton] at ho
    cases hnext : lastAuthority t ((db.addTransaction tx).accepted txs) with
    | some q =>
      rw [hnext, Option.some_or] at hlast
      exact ih (h.addTransaction (hT htx) htx) hrest (hnext.trans hlast) ho
    | none =>
      -- `tx` is the last authority, so the baton is the one it met
      rw [hnext, Option.none_or] at hlast
      split_ifs at hlast with hauth
      have hp : tx = p := Option.some.inj hlast
      subst hp
      obtain ⟨hauth, ht⟩ := hauth
      subst ht
      rw [lastBaton_of_lastAuthority_eq_none hnext, Option.none_or, hbaton, if_pos rfl, hb,
        Option.none_or] at ho
      cases hauth with
      | inl hgen =>
        obtain ⟨g, hg, hgb⟩ := h.rooted ho
        have hself : T.lookup tx.slp.tokenid = some tx := by
          rw [(hT htx).genesis_tokenid hgen, htx]
        have hgt : g = tx := Option.some.inj ((h.recorded hg).1.symm.trans hself)
        rw [hgt] at hgb
        exact absurd hb hgb
      | inr hmint =>
        obtain ⟨s, hs⟩ := SlpTransaction.type_eq_mint.mp hmint
        simp only [Accepts, hs] at hacc
        obtain ⟨-, o', ho', hcur⟩ := hacc
        have hoo : o' = o := Option.some.inj (hcur.symm.trans ho)
        exact hoo ▸ ho'

end Slpdb

/-! ## Runs -/

/-- What a run records in the token store, in order. -/
def Bch.recorded (b : Bch) : List BchEvent → List Transaction
  | [] => []
  | e :: events =>
      e.recorded b ++ match b.step e with
        | .ok b' => b'.recorded events
        | .error _ => []

theorem Bch.recorded_concat {past : List BchEvent} {e : BchEvent} {b b' : Bch}
    (h : past.foldlM Bch.step b = .ok b') :
    b.recorded (past ++ [e]) = b.recorded past ++ e.recorded b' := by
  induction past generalizing b with
  | nil =>
    rw [List.foldlM_nil] at h
    rw [List.nil_append, recorded, recorded, List.nil_append, ← Except.ok.inj h]
    cases b.step e with
    | ok b₁ => exact List.append_nil _
    | error f => exact List.append_nil _
  | cons e₀ past ih =>
    rw [List.foldlM_cons, bind_eq_ok] at h
    obtain ⟨b₁, hstep, hrest⟩ := h
    simp only [List.cons_append, recorded, hstep, ih hrest, List.append_assoc]

/-- The calls of `process_block` as a run. -/
def blockEvents (calls : List (List Transaction × Bool)) : List BchEvent :=
  calls.map fun call => .block call.1 call.2

/-- The baton of every token is the one that the last recorded GENESIS or MINT of the token
created, and no transaction spends it. -/
def Slpdb.BatonsLive (past : List BchEvent) (db : Slpdb) : Prop :=
  ∀ t o, (db.token t).mintBatonOutpoint = some o ↔
    (∃ p, lastAuthority t (Bch.empty.recorded past) = some p ∧ p.batonOutput = some o) ∧
      ∀ tx ∈ past.flatMap BchEvent.txs, o ∉ tx.inputs

/-- The baton of a token when the transactions of the call are recorded and nothing is
spent yet. -/
def BchEvent.baton (b : Bch) (e : BchEvent) (t : Tokenid) : Option Outpoint :=
  (Slpdb.lastBaton t (e.recorded b)).or (b.slpdb.token t).mintBatonOutpoint

/-- The call does not spend a baton that the GENESIS of the token created. -/
def BchEvent.KeepsRootBatons (b : Bch) (e : BchEvent) : Prop :=
  ∀ t o, e.baton b t = some o → o ∈ e.spent → o.txid ≠ t

/-- A baton spent by earlier calls is spent again. -/
def BchEvent.RespendsBatons (past : List BchEvent) (b : Bch) (e : BchEvent) : Prop :=
  ∀ t o, e.baton b t = some o → o ∈ past.flatMap BchEvent.spent → o ∈ e.spent

namespace Slpdb

variable {T : TransactionMap} {past : List BchEvent} {e : BchEvent} {b : Bch} {db' : Slpdb}

theorem Tracks.isMint_iff {db : Slpdb} (h : db.Tracks T) (hT : T.Decoded) {t : Tokenid}
    {x : Txid} {p : Transaction} (hp : (db.token t).transactions.lookup x = some p)
    (hauth : p.IsAuthority) : p.slp.type = .mint ↔ x ≠ t := by
  constructor
  · intro hmint hx
    rw [h.genesis (hx ▸ hp)] at hmint
    exact absurd hmint (by decide)
  · intro hx
    apply hauth.resolve_left
    intro hgen
    have hid : p.txid = x := KeyedMap.key_lookup hp
    have htoken := (hT (h.recorded hp).1).genesis_tokenid hgen
    rw [(h.recorded hp).2] at htoken
    exact hx (hid.symm.trans htoken.symm)

/-- What is left of the baton once the inputs are spent. -/
theorem Moves.baton_iff (hmoves : b.slpdb.Moves db' (e.recorded b) e.spent)
    (htracks : b.slpdb.Tracks T) (htracks' : db'.Tracks T) (hT : T.Decoded) {t : Tokenid}
    {o : Outpoint} : (db'.token t).mintBatonOutpoint = some o ↔
      e.baton b t = some o ∧ (o ∈ e.spent → o.txid = t) := by
  rw [hmoves.baton]
  apply and_congr_right
  intro ho
  have hcreator : ∃ p, (db'.token t).transactions.lookup o.txid = some p ∧
      p.batonOutput = some o := by
    cases Option.or_eq_some_iff.mp ho with
    | inl hnew =>
      obtain ⟨p, hp, htoken, hbaton⟩ := lastBaton_eq_some hnew
      exact ⟨p, hmoves.transactions.mpr (.inl ⟨hp, batonOutput_txid hbaton, htoken.symm⟩), hbaton⟩
    | inr hold =>
      obtain ⟨p, hp, hbaton, -⟩ := htracks.baton hold.2
      exact ⟨p, hmoves.transactions.mpr (.inr hp), hbaton⟩
  obtain ⟨p, hp, hbaton⟩ := hcreator
  have hmint := htracks'.isMint_iff hT hp (isAuthority_of_batonOutput hbaton)
  constructor
  · intro hnot hspent
    by_contra hne
    exact hnot ⟨hspent, p, hp, hmint.mpr hne⟩
  · intro hroot hreset
    obtain ⟨hspent, q, hq, hqmint⟩ := hreset
    have hqp : q = p := Option.some.inj (hq.symm.trans hp)
    exact hmint.mp (hqp ▸ hqmint) (hroot hspent)

/-- What the tokens should have as their batons is what the block finds there. -/
theorem BatonsLive.next (h : b.slpdb.BatonsLive past) (htracks : b.slpdb.Tracks T)
    (hT : T.Decoded) (hrun : past.foldlM Bch.step .empty = .ok b)
    (hrec : ∀ tx ∈ e.recorded b, T.lookup tx.txid = some tx) {t : Tokenid} {o : Outpoint}
    (hpast : ∀ tx ∈ past.flatMap BchEvent.txs, o ∉ tx.inputs)
    (hnew : ∀ tx ∈ e.recorded b, o ∉ tx.inputs) :
    (∃ p, lastAuthority t (Bch.empty.recorded (past ++ [e])) = some p ∧ p.batonOutput = some o) ↔
      e.baton b t = some o := by
  rw [Bch.recorded_concat hrun, lastAuthority_append]
  cases hlast : lastAuthority t (e.recorded b) with
  | none =>
    rw [Option.none_or, BchEvent.baton, lastBaton_of_lastAuthority_eq_none hlast, Option.none_or, h]
    exact (and_iff_left hpast).symm
  | some p =>
    have hbaton : ∀ {o'}, p.batonOutput = some o' → e.baton b t = some o' := by
      intro o' ho'
      rw [BchEvent.baton, lastBaton_of_lastAuthority hlast ho', Option.some_or]
    rw [Option.some_or]
    constructor
    · intro hex
      obtain ⟨q, hq, hqo⟩ := hex
      exact hbaton (Option.some.inj hq ▸ hqo)
    · intro ho
      refine ⟨p, rfl, ?_⟩
      cases hp : p.batonOutput with
      | some o' => rw [← ho, hbaton hp]
      | none =>
        have hinput := htracks.spends_of_lastAuthority hT hrec hlast hp ho
        exact absurd hinput (hnew p (lastAuthority_eq_some hlast).1)

theorem mem_spent_of_block {calls : List (List Transaction × Bool)} {events : List BchEvent}
    (hsub : events ⊆ blockEvents calls) {o : Outpoint} :
    o ∈ events.flatMap BchEvent.spent ↔ ∃ tx ∈ events.flatMap BchEvent.txs, o ∈ tx.inputs := by
  have hone : ∀ e ∈ events, e.spent = e.txs.flatMap Transaction.inputs := by
    intro e he
    obtain ⟨call, -, hcall⟩ := List.mem_map.mp (hsub he)
    rw [← hcall]
    rfl
  rw [← List.mem_flatMap (f := Transaction.inputs), List.flatMap_assoc, List.mem_flatMap,
    List.mem_flatMap]
  exact exists_congr fun e => and_congr_right fun he => by rw [hone e he]

theorem Moves.batonsLive_iff (hmoves : b.slpdb.Moves db' (e.recorded b) e.spent)
    (htracks : b.slpdb.Tracks T) (htracks' : db'.Tracks T) (hT : T.Decoded)
    (hrun : past.foldlM Bch.step .empty = .ok b)
    (hrec : ∀ tx ∈ e.recorded b, tx ∈ e.txs ∧ T.lookup tx.txid = some tx)
    {calls : List (List Transaction × Bool)} (hsub : past ++ [e] ⊆ blockEvents calls)
    (h : b.slpdb.BatonsLive past) :
    db'.BatonsLive (past ++ [e]) ↔ e.KeepsRootBatons b ∧ e.RespendsBatons past b := by
  have hpast : ∀ {o}, (∀ tx ∈ past.flatMap BchEvent.txs, o ∉ tx.inputs) ↔
      o ∉ past.flatMap BchEvent.spent := by
    intro o
    rw [mem_spent_of_block fun e' he' => hsub (List.mem_append_left [e] he')]
    simp only [not_exists, not_and]
  have hthis : ∀ {o}, (∀ tx ∈ e.txs, o ∉ tx.inputs) ↔ o ∉ e.spent := by
    intro o
    have hone : o ∈ [e].flatMap BchEvent.spent ↔ ∃ tx ∈ [e].flatMap BchEvent.txs, o ∈ tx.inputs :=
      mem_spent_of_block fun e' he' => hsub (List.mem_append_right past he')
    rw [List.flatMap_singleton, List.flatMap_singleton] at hone
    rw [hone]
    simp only [not_exists, not_and]
  have hall : ∀ {o}, (∀ tx ∈ (past ++ [e]).flatMap BchEvent.txs, o ∉ tx.inputs) ↔
      o ∉ past.flatMap BchEvent.spent ∧ o ∉ e.spent := by
    intro o
    rw [List.flatMap_append, List.flatMap_singleton, ← hpast, ← hthis]
    simp only [List.mem_append, or_imp, forall_and]
  have hnext : ∀ {t o}, o ∉ past.flatMap BchEvent.spent → o ∉ e.spent →
      ((∃ p, lastAuthority t (Bch.empty.recorded (past ++ [e])) = some p ∧
        p.batonOutput = some o) ↔ e.baton b t = some o) := by
    intro t o hunspent hspent
    exact h.next htracks hT hrun (fun tx htx => (hrec tx htx).2) (hpast.mpr hunspent)
      fun tx htx => hthis.mpr hspent tx (hrec tx htx).1
  have hbaton : ∀ {t o}, (db'.token t).mintBatonOutpoint = some o ↔
      e.baton b t = some o ∧ (o ∈ e.spent → o.txid = t) :=
    hmoves.baton_iff htracks htracks' hT
  constructor
  · intro h'
    constructor
    · intro t o ho hspent hroot
      have hcur := hbaton.mpr ⟨ho, fun _ => hroot⟩
      exact (hall.mp ((h' t o).mp hcur).2).2 hspent
    · intro t o ho hold
      by_contra hspent
      have hcur := hbaton.mpr ⟨ho, fun hin => absurd hin hspent⟩
      exact (hall.mp ((h' t o).mp hcur).2).1 hold
  · intro hkeeps t o
    obtain ⟨hroot, hrespends⟩ := hkeeps
    rw [hbaton, hall]
    constructor
    · intro hcur
      obtain ⟨ho, hspent⟩ := hcur
      have hthis : o ∉ e.spent := fun hin => hroot t o ho hin (hspent hin)
      have hold : o ∉ past.flatMap BchEvent.spent := fun hin => hthis (hrespends t o ho hin)
      exact ⟨(hnext hold hthis).mpr ho, hold, hthis⟩
    · intro hlive
      obtain ⟨hex, hold, hthis⟩ := hlive
      exact ⟨(hnext hold hthis).mp hex, fun hin => absurd hin hthis⟩

/-- In a chain nothing is spent before the block that creates it. -/
theorem BatonsLive.respendsBatons (h : b.slpdb.BatonsLive past) {L : Ledger}
    {calls : List (List Transaction × Bool)} (hchain : L.Chain (calls.map Prod.fst))
    {rest : List BchEvent} (hev : blockEvents calls = past ++ e :: rest)
    (hrec : ∀ tx ∈ e.recorded b, tx ∈ e.txs) : e.RespendsBatons past b := by
  intro t o ho hold
  have hsub : past ⊆ blockEvents calls := by simp [hev]
  obtain ⟨tx, htx, hin⟩ := (mem_spent_of_block hsub).mp hold
  cases Option.or_eq_some_iff.mp ho with
  | inr hcur => exact absurd hin (((h t o).mp hcur.2).2 tx htx)
  | inl hnew =>
    obtain ⟨p, hp, -, hbaton⟩ := lastBaton_eq_some hnew
    obtain ⟨e', he', htx⟩ := List.mem_flatMap.mp htx
    have hblocks : calls.map Prod.fst =
        past.map BchEvent.txs ++ e.txs :: rest.map BchEvent.txs := by
      rw [← List.map_cons, ← List.map_append, ← hev, blockEvents, List.map_map]
      rfl
    have hparents := hchain.parents
    rw [hblocks, List.pairwise_append] at hparents
    have hlate := hparents.2.2 e'.txs (List.mem_map_of_mem he') e.txs List.mem_cons_self
    exact absurd (batonOutput_txid hbaton) (hlate tx htx p (hrec p hp) o hin)

end Slpdb

/-- Over blocks the batons are live throughout exactly if no block spends the baton of a
GENESIS that nothing moved on, and no block brings back a spent baton. In a chain, where
each transaction stands once and after its parents, only the first can go wrong. -/
theorem Bch.run_batonsLive_iff {calls : List (List Transaction × Bool)}
    (hhyd : ∀ tx ∈ (blockEvents calls).flatMap BchEvent.txs, tx.Hydrated)
    (hdet : TxidsDetermine ((blockEvents calls).flatMap BchEvent.txs)) :
    (Always Bch.step (fun past s => s.slpdb.BatonsLive past) .empty (blockEvents calls) ↔
      EveryStep Bch.step (fun past s e => e.KeepsRootBatons s ∧ e.RespendsBatons past s) .empty
        (blockEvents calls)) ∧
    ∀ L : Ledger, L.Chain (calls.map Prod.fst) →
      (Always Bch.step (fun past s => s.slpdb.BatonsLive past) .empty (blockEvents calls) ↔
        EveryStep Bch.step (fun _ s e => e.KeepsRootBatons s) .empty (blockEvents calls)) := by
  have hempty : Slpdb.empty.BatonsLive [] := by
    intro t o
    simp [Slpdb.empty, Slpdb.token, Bch.recorded, Slpdb.lastAuthority]
  constructor
  · refine Bch.always_iff_of_moves hhyd hdet (P := fun past db => db.BatonsLive past) hempty ?_
    intro T past e rest b b' hev hrun hT htracks htracks' hmoves hstep hrec h
    have hsub : past ++ [e] ⊆ blockEvents calls := by simp [hev]
    exact hmoves.batonsLive_iff htracks htracks' hT hrun hrec hsub h
  · intro L hchain
    refine Bch.always_iff_of_moves hhyd hdet (P := fun past db => db.BatonsLive past) hempty ?_
    intro T past e rest b b' hev hrun hT htracks htracks' hmoves hstep hrec h
    have hsub : past ++ [e] ⊆ blockEvents calls := by simp [hev]
    rw [hmoves.batonsLive_iff htracks htracks' hT hrun hrec hsub h]
    exact and_iff_left (h.respendsBatons hchain hev fun tx htx => (hrec tx htx).1)

/-- A GENESIS, a MINT that moves its baton and a SEND of its quantity. -/
def movedLedger : Ledger :=
  .ofList [sampleGenesis, sampleMint, sampleSend]
    (by simp [sampleGenesis_hydrated, sampleMint_hydrated, sampleSend_hydrated]) (by decide)
    (by decide) (by decide) (by decide)

def movedCalls : List (List Transaction × Bool) :=
  [([sampleGenesis], true), ([sampleMint], true), ([sampleSend], true)]

theorem Bch.run_batonsLive_iff_sample :
    movedLedger.Chain (movedCalls.map Prod.fst) ∧
    Always Bch.step (fun past s => s.slpdb.BatonsLive past) .empty (blockEvents movedCalls) ∧
    EveryStep Bch.step (fun past s e => e.KeepsRootBatons s ∧ e.RespendsBatons past s) .empty
      (blockEvents movedCalls) := by
  have hhyd : ∀ tx ∈ (blockEvents movedCalls).flatMap BchEvent.txs, tx.Hydrated := by
    simp [blockEvents, movedCalls, BchEvent.txs, sampleGenesis_hydrated, sampleMint_hydrated,
      sampleSend_hydrated]
  have hdet : TxidsDetermine ((blockEvents movedCalls).flatMap BchEvent.txs) :=
    .of_nodup (by decide)
  have hchain : movedLedger.Chain (movedCalls.map Prod.fst) :=
    ⟨fun tx htx => Ledger.mem_ofList.mp htx, by decide, by decide⟩
  have hkeeps : EveryStep Bch.step (fun _ s e => e.KeepsRootBatons s) .empty
      (blockEvents movedCalls) := by
    have hrun : ∀ n < 3, ∃ s₁, ((blockEvents movedCalls).take n).foldlM Bch.step .empty = .ok s₁ ∧
        ∀ e ∈ (blockEvents movedCalls)[n]?, ∀ o ∈ e.spent, e.baton s₁ o.txid ≠ some o := by
      decide +kernel
    refine .of_take fun n hn => ?_
    obtain ⟨s₁, hs₁, hbaton⟩ := hrun n hn
    refine ⟨s₁, hs₁, fun e he t o ho hspent hroot => ?_⟩
    exact hbaton e he o hspent (hroot ▸ ho)
  obtain ⟨hiff, hchains⟩ := Bch.run_batonsLive_iff hhyd hdet
  have halways := (hchains movedLedger hchain).mpr hkeeps
  exact ⟨hchain, halways, hiff.mp halways⟩

/-- A transaction without SLP data that spends the baton of `sampleGenesis`. -/
def sampleBatonBurn : Transaction :=
  let txid : Txid := ⟨
    [0xF9, 0xED, 0x63, 0x50, 0xA3, 0x47, 0x23, 0x63, 0x6A, 0xD6, 0x88, 0x7E, 0xB5, 0x8B, 0xC4,
     0x2E, 0xB4, 0x24, 0x35, 0x04, 0xD6, 0x1A, 0x98, 0x87, 0x22, 0xF7, 0x1F, 0xDE, 0x6D, 0x58,
     0x05, 0x6A], rfl⟩
  encoded txid [⟨sampleGenesis.txid, 2⟩] [[0x54]] .empty

theorem sampleBatonBurn_hydrated : sampleBatonBurn.Hydrated :=
  hydrated_encoded (by decide) (by decide) (by decide) (by decide +kernel) (by decide +kernel)

/-- A GENESIS and the transaction that burns its baton. -/
def batonBurnLedger : Ledger :=
  .ofList [sampleGenesis, sampleBatonBurn]
    (by simp [sampleGenesis_hydrated, sampleBatonBurn_hydrated]) (by decide) (by decide)
    (by decide) (by decide)

/-- The store keeps the burnt baton of a GENESIS. -/
theorem Bch.batonsLive_fails :
    batonBurnLedger.Chain [[sampleGenesis], [sampleBatonBurn]] ∧
    ¬ Always Bch.step (fun past s => s.slpdb.BatonsLive past) .empty
      (blockEvents [([sampleGenesis], false), ([sampleBatonBurn], false)]) := by
  constructor
  · exact ⟨fun tx htx => Ledger.mem_ofList.mp htx, by decide, by decide⟩
  · intro h
    have hrun : ∃ s, (blockEvents [([sampleGenesis], false), ([sampleBatonBurn], false)]).foldlM
        Bch.step .empty = .ok s ∧ (s.slpdb.token sampleGenesis.txid).mintBatonOutpoint =
          some ⟨sampleGenesis.txid, 2⟩ := by decide +kernel
    obtain ⟨s, hs, hcur⟩ := hrun
    obtain ⟨-, hunspent⟩ := (h _ [] (List.append_nil _).symm s hs _ _).mp hcur
    exact hunspent sampleBatonBurn (by decide) (by decide)

end SlpGraphSearch
