import SlpGraphSearch.ServerRun

/-!
# Arrival order and confirmed verdicts

Which runs end with every SLP-valid transaction of their blocks accepted. The
handlers skip whatever the validator knows, rejected transactions included, so the
verdict on a transaction is the one it got when it was first handed over: those of
blocks are all accepted exactly if each of them could be judged by then.
-/
namespace SlpGraphSearch
open Library Transaction

namespace Server

/-- Every transaction of a block that is SLP-valid on the ledger is in `valid`. -/
def ConfirmedAccepted (L : Ledger) (past : List Event) (s : Server) : Prop :=
  ∀ tx ∈ confirmedTxs past, tx.txid ∈ SlpValid L.T → tx.txid ∈ s.validator.valid

/-- If the transaction is new to the validator, SLP-valid on the ledger and in `C`,
then its rule holds over the transactions that are valid so far. -/
def Timely (L : Ledger) (C : List Transaction) (v : Validator) (tx : Transaction) : Prop :=
  tx ∈ C → tx.txid ∉ v.transactionMap → tx.txid ∈ SlpValid L.T →
    SlpRule (restrict L.T v.valid) tx

variable {L : Ledger}

theorem type_of_slpValid {tx : Transaction} (htx : L.T.lookup tx.txid = some tx)
    (h : tx.txid ∈ SlpValid L.T) : tx.slp.type ≠ .invalid := by
  intro ht
  rw [SlpValid, Rules.mem_derivable, slpRules_holds htx] at h
  exact not_slpRule_invalid ht h

/-- What is judged at one point of a run keeps that verdict to the end. -/
theorem mem_valid_of_split {pre post : List Transaction} {tx : Transaction} {v v' : Validator}
    (hmem : ∀ t ∈ pre ++ tx :: post, L.T.lookup t.txid = some t)
    (hv : pre.foldlM judge .empty = .ok v)
    (hv' : (pre ++ tx :: post).foldlM judge .empty = .ok v')
    (hnew : tx.txid ∉ v.transactionMap) (ht : tx.slp.type ≠ .invalid) :
    tx.txid ∈ v'.valid ↔ SlpRule (restrict L.T v.valid) tx := by
  have htx := hmem tx (by simp)
  obtain ⟨v₀, hv₀, hcons, -⟩ := foldlM_judge_spec _ (Validator.Consistent.empty L)
    fun t ht => hmem t (List.mem_append_left _ ht)
  obtain rfl := Except.ok.inj (hv₀.symm.trans hv)
  obtain ⟨v₁, hstep, h₁, hmap₁, hvalid₁⟩ := judge_spec hcons htx
  obtain ⟨v₂, hrun, -, -, hstay⟩ := foldlM_judge_spec _ h₁
    fun t ht => hmem t (List.mem_append_right _ (List.mem_cons_of_mem _ ht))
  have hall : (pre ++ tx :: post).foldlM judge .empty = .ok v₂ := by
    rw [List.foldlM_append, bind_eq_ok]
    exact ⟨_, hv, by rw [List.foldlM_cons, hstep]; exact hrun⟩
  obtain rfl := Except.ok.inj (hall.symm.trans hv')
  rw [hstay _ ((hmap₁ _).mpr (.inr ⟨rfl, ht⟩)), hvalid₁]
  constructor
  · rintro (hx | hx)
    · exact absurd (hcons.held hx) hnew
    · exact hx.2.2
  · exact fun hr => .inr ⟨rfl, hnew, hr⟩

/-- Throughout a run of the server over a ledger that gets through, every SLP-valid
transaction of a processed block is accepted exactly if each SLP-valid transaction of
the run's blocks satisfied its rule, over the transactions that were valid by then, when
it was first handed to the validator. A run does get through, with `utxosync` if every
GENESIS and MINT has the outputs that `slp_outputs` indexes. -/
theorem run_confirmedAccepted_iff (L : Ledger) (utxosync : Bool) {events : List Event}
    (hmember : ∀ e ∈ events, ∀ tx ∈ e.txs, L.T.lookup tx.txid = some tx)
    (huntrusted : ∀ e ∈ events, e.trusted = false) :
    ((utxosync = true → ∀ e ∈ events, ∀ tx ∈ e.txs, Ingestible tx) →
      ∃ s, events.foldlM Server.step (.empty utxosync) = .ok s) ∧
    ∀ s, events.foldlM Server.step (.empty utxosync) = .ok s →
      (Always Server.step (ConfirmedAccepted L) (.empty utxosync) events ↔
        EveryStep judge (fun _ => Timely L (confirmedTxs events)) .empty
          (events.flatMap Event.txs)) := by
  have hmem : ∀ {past rest}, events = past ++ rest → ∀ t ∈ past.flatMap Event.txs,
      L.T.lookup t.txid = some t := by
    intro past rest hev t ht
    obtain ⟨e, hpast, ht⟩ := List.mem_flatMap.mp ht
    exact hmember e (hev ▸ List.mem_append_left _ hpast) t ht
  have hjudge : ∀ {past rest s}, events = past ++ rest →
      past.foldlM Server.step (.empty utxosync) = .ok s →
      (past.flatMap Event.txs).foldlM judge .empty = .ok s.validator := by
    intro past rest s hev hs
    exact run_judge (fun e hpast => huntrusted e (hev ▸ List.mem_append_left _ hpast)) hs
  refine ⟨fun hing => ?_, fun s hs => ⟨?_, ?_⟩⟩
  · obtain ⟨s, hs, -⟩ := (Fed.empty L utxosync).run fun e he =>
      ⟨hmember e he, huntrusted e he, fun hu => hing hu e he⟩
    exact ⟨s, hs⟩
  · intro h pre tx post hsplit v v₁ hv _ hconf hnew hvalid
    have hall := hmem (List.append_nil events).symm
    have hfinal := h events [] (List.append_nil events).symm s hs tx hconf hvalid
    have hrun := hjudge (List.append_nil events).symm hs
    have ht := type_of_slpValid (hall tx (by simp [hsplit])) hvalid
    rw [hsplit] at hall hrun
    exact (mem_valid_of_split hall hv hrun hnew ht).mp hfinal
  · intro h past rest hev s₁ hs₁ tx hconf hvalid
    have hconf' : tx ∈ confirmedTxs events := by
      rw [hev, confirmedTxs, List.flatMap_append]
      exact List.mem_append_left _ hconf
    have hpast := hmem hev
    obtain ⟨pre, mid, hsplit, hfirst⟩ := List.eq_append_cons_of_mem (confirmedTxs_subset past hconf)
    have hrun := hjudge hev hs₁
    rw [hsplit] at hpast hrun
    have htx := hpast tx (by simp)
    have ht := type_of_slpValid htx hvalid
    obtain ⟨v, hv, hcons, hmap, -⟩ := foldlM_judge_spec _ (Validator.Consistent.empty L)
      fun t ht => hpast t (List.mem_append_left _ ht)
    obtain ⟨v₁, hstep, -⟩ := judge_spec hcons htx
    have hnew : tx.txid ∉ v.transactionMap := by
      rw [hmap]
      rintro (hx | ⟨t, htpre, hid, -⟩)
      · simp [Validator.empty] at hx
      · have hl := hpast t (List.mem_append_left _ htpre)
        rw [← hid, htx, Option.some.injEq] at hl
        exact hfirst (hl ▸ htpre)
    refine (mem_valid_of_split hpast hv hrun hnew ht).mpr ?_
    have hJ : events.flatMap Event.txs = pre ++ tx :: (mid ++ rest.flatMap Event.txs) := by
      rw [hev, List.flatMap_append, hsplit, List.append_assoc]
      rfl
    exact h pre tx _ hJ v v₁ hv hstep hconf' hnew hvalid

/-- A GENESIS in a block, its SEND from the mempool of the node, and a block with the SEND,
which is known and valid by then. -/
def timelyEvents : List Event :=
  [.block (.insertion _) [sampleGenesis] false, .mempool (.insertion _) [sampleSend],
    .block (.insertion _) [sampleSend] false]

theorem run_confirmedAccepted_iff_sample :
    (∃ s, timelyEvents.foldlM Server.step (.empty true) = .ok s) ∧
    Always Server.step (ConfirmedAccepted Validator.sampleLedger) (.empty true) timelyEvents ∧
    EveryStep judge (fun _ => Timely Validator.sampleLedger (confirmedTxs timelyEvents)) .empty
      (timelyEvents.flatMap Event.txs) := by
  have htxs : ∀ e ∈ timelyEvents, ∀ tx ∈ e.txs, tx ∈ [sampleGenesis, sampleSend] := by
    simp [timelyEvents, Event.txs]
  have hing : ∀ tx ∈ [sampleGenesis, sampleSend], Ingestible tx := fun tx htx => by
    rcases List.mem_pair.mp htx with rfl | rfl
    · exact ⟨sampleGenesis_hydrated, by decide⟩
    · exact ⟨sampleSend_hydrated, by decide⟩
  have hmember : ∀ e ∈ timelyEvents, ∀ tx ∈ e.txs,
      Validator.sampleLedger.T.lookup tx.txid = some tx := fun e he tx htx =>
    (Validator.mem_sampleLedger tx).mp (htxs e he tx htx)
  obtain ⟨hok, hiff⟩ := run_confirmedAccepted_iff _ true hmember (by decide)
  obtain ⟨s, hs⟩ := hok fun _ e he tx htx => hing tx (htxs e he tx htx)
  have halways : Always Server.step (ConfirmedAccepted Validator.sampleLedger) (.empty true)
      timelyEvents := by
    refine .of_inits fun past hpast => ?_
    have hvalid : ∀ past ∈ timelyEvents.inits, ∃ s₁,
        past.foldlM Server.step (.empty true) = .ok s₁ ∧
          ∀ tx ∈ confirmedTxs past, tx.txid ∈ s₁.validator.valid := by decide +kernel
    obtain ⟨s₁, hs₁, hconf⟩ := hvalid past hpast
    exact ⟨s₁, hs₁, fun tx htx _ => hconf tx htx⟩
  exact ⟨⟨s, hs⟩, halways, (hiff s hs).mp halways⟩

/-- A SEND that arrives before its GENESIS, and the block of both. -/
def earlyEvents : List Event :=
  [.rawtx sampleSend, .block (.insertion _) [sampleGenesis, sampleSend] false]

theorem sampleSend_slpValid : sampleSend.txid ∈ SlpValid Validator.sampleLedger.T := by
  obtain ⟨v, hv, hcons, -⟩ := foldlM_judge_spec [sampleGenesis, sampleSend]
    (Validator.Consistent.empty Validator.sampleLedger)
    fun tx htx => (Validator.mem_sampleLedger tx).mp htx
  have hrun : ∃ v, [sampleGenesis, sampleSend].foldlM judge .empty = .ok v ∧
      sampleSend.txid ∈ v.valid := by decide +kernel
  obtain ⟨v', hv', hvalid⟩ := hrun
  rw [hv, Except.ok.injEq] at hv'
  exact hcons.justified.subset_slpValid _ (hv' ▸ hvalid)

/-- The SEND is judged without its GENESIS and rejected, and the block skips it. -/
theorem confirmedAccepted_fails :
    ¬ Always Server.step (ConfirmedAccepted Validator.sampleLedger) (.empty false)
      earlyEvents := by
  intro h
  have hrun : ∃ s, earlyEvents.foldlM Server.step (.empty false) = .ok s ∧
      sampleSend.txid ∉ s.validator.valid := by decide +kernel
  obtain ⟨s, hs, hinvalid⟩ := hrun
  exact hinvalid (h earlyEvents [] (by simp) s hs sampleSend
    (by simp [confirmedTxs, earlyEvents]) sampleSend_slpValid)

end Server
end SlpGraphSearch
