import SlpGraphSearch.SearchReplies

/-!
# Replies for mempool transactions

The branch of `GraphSearch` for a transaction of `mg`. The reply repeats the result of
the search in `mg` once for each of its entries and adds what lies in `g` above the
inputs that are not in the result; the exclusions play no part. The graphs of a running
server are disjoint, since every transaction is judged, and filed, at most once.
-/
namespace SlpGraphSearch
open Library Transaction Relation

/-- A list repeated once for each of its entries has no repeated entry only if it has
one entry at most. -/
theorem nodup_flatMap_self_iff {α : Type*} {l : List α} (hl : l.Nodup) :
    (l.flatMap fun _ => l).Nodup ↔ ∀ a ∈ l, ∀ b ∈ l, a = b := by
  rcases l with _ | ⟨a, _ | ⟨b, l⟩⟩
  · simp
  · simp
  · refine iff_of_false (fun h => ?_) fun h => ?_
    · rw [List.flatMap_cons, List.flatMap_cons] at h
      exact (List.nodup_append.mp h).2.2 a List.mem_cons_self a
        (List.mem_append_left _ List.mem_cons_self) rfl
    · have hab := h a List.mem_cons_self b (List.mem_cons_of_mem _ List.mem_cons_self)
      exact (List.nodup_cons.mp hl).1 (hab ▸ List.mem_cons_self)

namespace Server
open TxGraph

/-! ## Disjoint graphs -/

/-- Both graphs hold accepted transactions, and no transaction is in both. -/
structure Apart (s : Server) : Prop where
  held : s.validator.Held
  g : s.g.Wf
  mg : s.mg.Wf
  g_valid : ∀ x ∈ s.g.txidToToken, x ∈ s.validator.valid
  mg_valid : ∀ x ∈ s.mg.txidToToken, x ∈ s.validator.valid
  disjoint : ∀ x ∈ s.mg.txidToToken, x ∉ s.g.txidToToken

theorem Apart.empty (utxosync : Bool) : (Server.empty utxosync).Apart where
  held := Validator.Held.empty
  g := TxGraph.Wf.empty
  mg := TxGraph.Wf.empty
  g_valid _ h := absurd h Finmap.notMem_empty
  mg_valid _ h := absurd h Finmap.notMem_empty
  disjoint _ h := absurd h Finmap.notMem_empty

/-- What is filed now was not valid before, so it is in neither graph. -/
theorem Apart.step {s s' : Server} {e : Event} (h : s.Apart) (hhyd : ∀ tx ∈ e.txs, tx.Hydrated)
    (hstep : s.step e = .ok s') : s'.Apart := by
  obtain ⟨v, l, bch, hoffer, -, rfl⟩ := step_eq_ok.mp hstep
  have hj := judged_offerTxs hoffer
  have hl : ∀ tx ∈ l, tx.Hydrated := fun tx htx => hhyd tx (hj.accepted tx htx).1
  have hold : ∀ x ∈ s.validator.valid, x ∈ v.valid := fun x hx => (hj.valid_iff x).mpr (.inl hx)
  have hnew : ∀ x, (∃ tx ∈ l, tx.txid = x) → x ∈ v.valid := fun x hx =>
    (hj.valid_iff x).mpr (.inr hx)
  have hfresh : ∀ x, (∃ tx ∈ l, tx.txid = x) → x ∉ s.validator.valid := by
    rintro x ⟨tx, htx, rfl⟩
    exact hj.not_mem_valid h.held htx
  cases e with
  | block order txs trusted =>
      have hmem := mem_filed_validTxs h.g order hl
      refine ⟨hj.held h.held, (filed_validTxs h.g order hl).wf, h.mg, fun x hx => ?_,
        fun x hx => hold x (h.mg_valid x hx), fun x hx hx' => ?_⟩
      · exact ((hmem x).mp hx).elim (fun hx => hold x (h.g_valid x hx)) (hnew x)
      · exact ((hmem x).mp hx').elim (h.disjoint x hx) fun hl => hfresh x hl (h.mg_valid x hx)
  | mempool order txs =>
      have hmem := mem_filed_validTxs TxGraph.Wf.empty order hl
      have hmg : ∀ x ∈ (insertValidTxs .empty (order.permute (groupByToken l))).txidToToken,
          ∃ tx ∈ l, tx.txid = x := fun x hx =>
        ((hmem x).mp hx).resolve_left Finmap.notMem_empty
      exact ⟨hj.held h.held, h.g, (filed_validTxs TxGraph.Wf.empty order hl).wf,
        fun x hx => hold x (h.g_valid x hx), fun x hx => hnew x (hmg x hx),
        fun x hx hx' => hfresh x (hmg x hx) (h.g_valid x hx')⟩
  | rawtx tx =>
      have hmem := mem_filed_validTxs h.mg (.insertion _) hl
      refine ⟨hj.held h.held, h.g, (filed_validTxs h.mg (.insertion _) hl).wf,
        fun x hx => hold x (h.g_valid x hx), fun x hx => ?_, fun x hx hx' => ?_⟩
      · exact ((hmem x).mp hx).elim (fun hx => hold x (h.mg_valid x hx)) (hnew x)
      · exact ((hmem x).mp hx).elim (fun hx => h.disjoint x hx hx') fun hl =>
          hfresh x hl (h.g_valid x hx')

theorem always_apart {events : List Event} (hhyd : ∀ e ∈ events, ∀ tx ∈ e.txs, tx.Hydrated)
    (utxosync : Bool) : Always Server.step (fun _ => Apart) (.empty utxosync) events :=
  Always.of_step (Apart.empty utxosync) fun past e rest s₁ s₂ hev h _ hstep =>
    h.step (hhyd e (by simp [hev])) hstep

/-! ## The two graphs together -/

/-- `w` is a transaction of `mg` with an input from `z`. -/
def SpendsFrom (s : Server) (w z : Txid) : Prop :=
  ∃ t : Transaction, t.Hydrated ∧ s.mg.Stores w t.serialized ∧ ∃ o ∈ t.inputs, o.txid = z

/-- In `g`, `y` is an input, or an ancestor of an input, of `x` or of one of its
ancestors in `mg`. -/
def AboveInputs (s : Server) (y x : Txid) : Prop :=
  ∃ w z, s.mg.Above w x ∧ s.SpendsFrom w z ∧ s.g.Above y z

/-- `y` is `e` or one of its ancestors in `g` and `mg`. -/
def InClosure (s : Server) (y e : Txid) : Prop :=
  s.g.Above y e ∨ s.mg.Above y e ∨ s.AboveInputs y e

/-- What the search has to return for `x` without exclusions: raw transactions of `mg`
and of `g`. -/
def Lists (s : Server) (x y : Txid) (d : Bytes) : Prop :=
  s.mg.Stores y d ∧ s.mg.Above y x ∨ s.g.Stores y d ∧ s.AboveInputs y x

/-- The reply for `x` has no repeated entry and holds `x`, its ancestors in `mg` and what
is above their inputs in `g`, except for the excluded ids and their ancestors. -/
def RepliesExactly (s : Server) (order : SetOrder NodePtr) (limit : ℕ) (exclude : List Txid)
    (x : Txid) : Prop :=
  ∃ data, s.graphSearch order limit exclude x = .ok (.ok, data) ∧ data.Nodup ∧
    ∀ d, d ∈ data ↔ ∃ y, s.Lists x y d ∧ ∀ e ∈ honoured limit exclude, ¬ s.InClosure y e

theorem Apart.lists_unique {s : Server} (h : s.Apart) {x y z : Txid} {d : Bytes}
    (hy : s.Lists x y d) (hz : s.Lists x z d) : y = z := by
  have hstored : ∀ w, s.Lists x w d → ∃ t : Transaction, t.Hydrated ∧ t.txid = w ∧
      d = t.serialized := fun w hw =>
    hw.elim (fun hw => h.mg.stores_hydrated hw.1) fun hw => h.g.stores_hydrated hw.1
  obtain ⟨t, ht, rfl, hd⟩ := hstored y hy
  obtain ⟨u, hu, rfl, hd'⟩ := hstored z hz
  rw [ht.eq_of_serialized hu (hd ▸ hd')]

/-- The reply for a transaction of `mg`. -/
theorem Apart.graphSearch_mempool {s : Server} (h : s.Apart) (order : SetOrder NodePtr)
    (limit : ℕ) (exclude : List Txid) {x : Txid} (hx : x ∈ s.mg.txidToToken) :
    ∃ found overlap : List Bytes, s.graphSearch order limit exclude x =
        .ok (.ok, (found.flatMap fun _ => found) ++ overlap) ∧
      found.Nodup ∧ overlap.Nodup ∧
      (∀ d, d ∈ found ↔ ∃ y, s.mg.Stores y d ∧ s.mg.Above y x) ∧
      ∀ d, d ∈ overlap ↔ ∃ y, s.g.Stores y d ∧ s.AboveInputs y x := by
  obtain ⟨seen, hexcl, -⟩ := exclusionSet_honoured h.g limit exclude
  have hnone : s.mg.ExclusionSet [] ∅ := fun p => by simp
  obtain ⟨found, seen', hsearch, hnodup, hfound⟩ := h.mg.graphSearchPtr_above hx hnone
  have hfound : ∀ d, d ∈ found ↔ ∃ y, s.mg.Stores y d ∧ s.mg.Above y x := by
    simpa using hfound
  obtain ⟨txs, hhyd, rfl⟩ := exists_map_serialized fun d hd => by
    obtain ⟨y, hy, -⟩ := (hfound d).mp hd
    obtain ⟨tx, htx, -, hser⟩ := h.mg.stores_hydrated hy
    exact ⟨tx, htx, hser⟩
  have hfoundTx : ∀ t ∈ txs, s.mg.Stores t.txid t.serialized ∧ s.mg.Above t.txid x := by
    intro t ht
    obtain ⟨y, hy, habove⟩ := (hfound _).mp (List.mem_map_of_mem ht)
    obtain ⟨rfl, hstores⟩ := (h.mg.stores_iff (hhyd t ht)).mp hy
    exact ⟨hstores, habove⟩
  set unaccounted := ((txs.flatMap Transaction.inputs).filter fun o =>
    o.txid ∉ txs.map Transaction.txid).map Outpoint.txid with hunaccounted
  obtain ⟨overlap, hoverlap, hset⟩ := h.g.exclusionSet_foldlM unaccounted
  rw [hunaccounted, List.foldlM_map] at hoverlap
  refine ⟨txs.map Transaction.serialized, s.g.txdata (order.list overlap), ?_, hnodup,
    h.g.nodup_txdata (order.nodup overlap), hfound, fun d => ?_⟩
  · simp only [graphSearch, bind_eq_ok]
    refine ⟨seen, hexcl, _, hsearch, ?_⟩
    simp only [if_true, bind_eq_ok]
    exact ⟨txs, decodedAll_serialized hhyd, overlap, hoverlap, rfl⟩
  -- An input in `g` is not in `mg`, so the search in `mg` did not find it.
  have hinputs : ∀ y, s.AboveInputs y x ↔ ∃ z ∈ unaccounted, s.g.Above y z := by
    intro y
    rw [hunaccounted]
    simp only [List.mem_map, List.mem_filter, List.mem_flatMap, decide_eq_true_eq]
    constructor
    · rintro ⟨w, z, hw, ⟨t, ht, hstores, o, ho, rfl⟩, habove⟩
      obtain ⟨u, hu, hser⟩ := List.mem_map.mp ((hfound _).mpr ⟨w, hstores, hw⟩)
      obtain rfl := (hhyd u hu).eq_of_serialized ht hser
      refine ⟨o.txid, ⟨o, ⟨⟨u, hu, ho⟩, ?_⟩, rfl⟩, habove⟩
      rintro ⟨v, hv, hid⟩
      exact h.disjoint _ (hid ▸ (hfoundTx v hv).1.mem) habove.mem.1
    · rintro ⟨z, ⟨o, ⟨⟨t, ht, ho⟩, -⟩, rfl⟩, habove⟩
      obtain ⟨hstores, hw⟩ := hfoundTx t ht
      exact ⟨t.txid, o.txid, hw, ⟨t, hhyd t ht, hstores, o, ho, rfl⟩, habove⟩
  have hknown : ∀ p ∈ order.list overlap, s.g.Known p := fun p hp =>
    ((hset p).mp (order.mem_list.mp hp)).1
  rw [mem_txdata_iff hknown]
  constructor
  · rintro ⟨p, hp, hd⟩
    exact ⟨p.txid, hd, (hinputs _).mpr ((hset p).mp (order.mem_list.mp hp)).2⟩
  · rintro ⟨y, hd, habove⟩
    obtain ⟨p, hp, rfl⟩ := exists_known hd.mem
    exact ⟨p, order.mem_list.mpr ((hset p).mpr ⟨hp, (hinputs _).mp habove⟩), hd⟩

/-- The reply repeats nothing exactly if `x` has no ancestor in `mg`. -/
theorem Apart.nodup_reply_iff {s : Server} (h : s.Apart) {x : Txid} (hx : x ∈ s.mg.txidToToken)
    {found overlap : List Bytes} (hfoundNodup : found.Nodup) (hoverlapNodup : overlap.Nodup)
    (hfound : ∀ d, d ∈ found ↔ ∃ y, s.mg.Stores y d ∧ s.mg.Above y x)
    (hoverlap : ∀ d, d ∈ overlap ↔ ∃ y, s.g.Stores y d ∧ s.AboveInputs y x) :
    ((found.flatMap fun _ => found) ++ overlap).Nodup ↔ ∀ y, s.mg.Above y x → y = x := by
  have hdisj : ∀ d ∈ found.flatMap fun _ => found, ∀ d' ∈ overlap, d ≠ d' := by
    rintro d hd _ hd' rfl
    obtain ⟨-, -, hd⟩ := List.mem_flatMap.mp hd
    obtain ⟨y, hy, -⟩ := (hfound d).mp hd
    obtain ⟨z, hz, -⟩ := (hoverlap d).mp hd'
    obtain ⟨t, ht, rfl, rfl⟩ := h.mg.stores_hydrated hy
    obtain ⟨rfl, -⟩ := (h.g.stores_iff ht).mp hz
    exact h.disjoint _ hy.mem hz.mem
  rw [List.nodup_append, nodup_flatMap_self_iff hfoundNodup]
  constructor
  · rintro ⟨hsame, -, -⟩ y hy
    obtain ⟨d, hd⟩ := h.mg.exists_stores hy.mem.2
    obtain ⟨d', hd'⟩ := h.mg.exists_stores hx
    have hone : d = d' := hsame _ ((hfound d).mpr ⟨y, hd, hy⟩) _
      ((hfound d').mpr ⟨x, hd', above_refl hx⟩)
    obtain ⟨t, ht, rfl, rfl⟩ := h.mg.stores_hydrated hd
    exact ((h.mg.stores_iff ht).mp (hone ▸ hd')).1.symm
  · intro hroot
    refine ⟨fun d hd d' hd' => ?_, hoverlapNodup, hdisj⟩
    obtain ⟨y, hy, hyx⟩ := (hfound d).mp hd
    obtain ⟨z, hz, hzx⟩ := (hfound d').mp hd'
    rw [hroot y hyx] at hy
    rw [hroot z hzx] at hz
    exact hy.unique hz

/-- The reply for `x` is exact exactly if `x` has no ancestor in `mg` and the ancestors
of the honoured exclusions miss `x` and everything above its inputs. -/
theorem Apart.repliesExactly_iff {s : Server} (h : s.Apart) (order : SetOrder NodePtr)
    (limit : ℕ) (exclude : List Txid) {x : Txid} (hx : x ∈ s.mg.txidToToken) :
    s.RepliesExactly order limit exclude x ↔ (∀ y, s.mg.Above y x → y = x) ∧
      ∀ y, y = x ∨ s.AboveInputs y x → ∀ e ∈ honoured limit exclude, ¬ s.InClosure y e := by
  obtain ⟨found, overlap, hreply, hn, hn', hfound, hoverlap⟩ :=
    h.graphSearch_mempool order limit exclude hx
  have hnodup := h.nodup_reply_iff hx hn hn' hfound hoverlap
  have hmem : ∀ d, d ∈ (found.flatMap fun _ => found) ++ overlap ↔ ∃ y, s.Lists x y d := by
    intro d
    have hcopies : d ∈ (found.flatMap fun _ => found) ↔ d ∈ found := by
      rw [List.mem_flatMap]
      exact ⟨fun hd => hd.choose_spec.2, fun hd => ⟨d, hd, hd⟩⟩
    rw [List.mem_append, hcopies, hfound, hoverlap, ← exists_or]
    rfl
  have hiff : s.RepliesExactly order limit exclude x ↔ (∀ y, s.mg.Above y x → y = x) ∧
      ∀ d y, s.Lists x y d → ∃ z, s.Lists x z d ∧
        ∀ e ∈ honoured limit exclude, ¬ s.InClosure z e := by
    rw [← hnodup, RepliesExactly, hreply]
    constructor
    · rintro ⟨data, hdata, hnodup, hexact⟩
      obtain rfl := (Prod.mk.inj (Except.ok.inj hdata)).2
      exact ⟨hnodup, fun d y hd => (hexact d).mp ((hmem d).mpr ⟨y, hd⟩)⟩
    · rintro ⟨hnodup, hfree⟩
      exact ⟨_, rfl, hnodup, fun d => (hmem d).trans
        ⟨fun hd => hd.elim (hfree d), fun hd => hd.imp fun y hd => hd.1⟩⟩
  rw [hiff]
  refine and_congr_right fun hroot => ⟨fun hfree y hy => ?_, fun hfree d y hd => ⟨y, hd, ?_⟩⟩
  · obtain ⟨d, hd⟩ : ∃ d, s.Lists x y d := by
      rcases hy with rfl | hy
      · obtain ⟨d, hd⟩ := h.mg.exists_stores hx
        exact ⟨d, .inl ⟨hd, above_refl hx⟩⟩
      · obtain ⟨w, z, hw, hwz, habove⟩ := hy
        obtain ⟨d, hd⟩ := h.g.exists_stores habove.mem.2
        exact ⟨d, .inr ⟨hd, w, z, hw, hwz, habove⟩⟩
    obtain ⟨z, hz, hfree⟩ := hfree d y hd
    rwa [h.lists_unique hd hz]
  · exact hfree y (hd.imp (fun hd => hroot y hd.2) fun hd => hd.2)

/-- In every state of every run, the reply for a transaction of `mg` has no repeated
entry and the contents asked for exactly if the transaction has no ancestor in `mg` and
no honoured exclusion is below it or below something above its inputs in `g`. -/
theorem run_repliesExactly_iff (utxosync : Bool) {events : List Event}
    (hhyd : ∀ e ∈ events, ∀ tx ∈ e.txs, tx.Hydrated) :
    Always Server.step (fun _ s => ∀ (order : SetOrder NodePtr) limit exclude x,
      x ∈ s.mg.txidToToken → (s.RepliesExactly order limit exclude x ↔
        (∀ y, s.mg.Above y x → y = x) ∧
          ∀ y, y = x ∨ s.AboveInputs y x → ∀ e ∈ honoured limit exclude, ¬ s.InClosure y e))
      (.empty utxosync) events :=
  fun past rest hev s hs order limit exclude _ hx =>
    (always_apart hhyd utxosync past rest hev s hs).repliesExactly_iff order limit exclude hx

/-- A GENESIS and a SEND of its token, both from the mempool. -/
def chainedEvents : List Event := [.rawtx sampleGenesis, .rawtx sampleSend]

theorem chainedEvents_hydrated : ∀ e ∈ chainedEvents, ∀ tx ∈ e.txs, tx.Hydrated := by
  simp [chainedEvents, Event.txs, sampleGenesis_hydrated, sampleSend_hydrated]

theorem run_repliesExactly_iff_sample :
    Always Server.step (fun _ s => ∀ (order : SetOrder NodePtr) limit exclude x,
      x ∈ s.mg.txidToToken → (s.RepliesExactly order limit exclude x ↔
        (∀ y, s.mg.Above y x → y = x) ∧
          ∀ y, y = x ∨ s.AboveInputs y x → ∀ e ∈ honoured limit exclude, ¬ s.InClosure y e))
      (.empty false) chainedEvents :=
  run_repliesExactly_iff false chainedEvents_hydrated

/-- The reply for the SEND consists of both transactions, twice. -/
theorem mempool_reply_repeats :
    ¬ Always Server.step (fun _ s => ∀ (order : SetOrder NodePtr) limit exclude x,
      x ∈ s.mg.txidToToken → s.RepliesExactly order limit exclude x)
      (.empty false) chainedEvents := by
  intro h
  have hrun : ∃ s, chainedEvents.foldlM Server.step (.empty false) = .ok s ∧
      s.mg.txidToToken.lookup sampleGenesis.txid = some sampleGenesis.txid ∧
      s.mg.txidToToken.lookup sampleSend.txid = some sampleGenesis.txid ∧
      (⟨sampleGenesis.txid, sampleGenesis.txid⟩ : NodePtr) ∈
        s.mg.nodeInputs ⟨sampleGenesis.txid, sampleSend.txid⟩ := by decide +kernel
  obtain ⟨s, hs, hgenesis, hsend, hlink⟩ := hrun
  have habove : s.mg.Above sampleGenesis.txid sampleSend.txid :=
    ⟨⟨_, _⟩, ⟨_, _⟩, hsend, hgenesis, rfl, rfl, .single hlink⟩
  have happart := always_apart chainedEvents_hydrated false chainedEvents [] (by simp) s hs
  have hexact := h chainedEvents [] (by simp) s hs (.some _) 1 [] _ habove.mem.1
  rw [happart.repliesExactly_iff (.some _) 1 [] habove.mem.1] at hexact
  exact absurd (hexact.1 _ habove) (by decide)

end Server
end SlpGraphSearch
