import Mathlib.Data.Int.Basic
import Mathlib.Data.List.Range
import Mathlib.Tactic.Linarith

/-!
# Retries of the RPC loop

The heights that `main` walks through while it fetches blocks over the RPC interface,
under any pattern of failed requests. An error path decrements the height, although
nothing was counted yet for the block that failed, and returns to `retry_loop2`, so each
failure sets the loop back by one block.

`current_block_height` is an `int`, and the tests compare it with an unsigned number of
the same width. `slpsync_bitcoind_process_block` always succeeds, so its error path is
left out.
-/
namespace SlpGraphSearch

/-- How one round of the loop body goes: it hands its block over, or one of its requests
fails. -/
inductive Round
  | fetched
  | noBlockHash
  | noRawBlock
  | notHydrated
deriving DecidableEq

/-- The counter, the heights given to `get_block_hash` and those of the blocks given to
`slpsync_bitcoind_process_block`. -/
structure RpcSync where
  currentBlockHeight : ℤ
  requested : List ℤ
  handed : List ℤ

/-- The result of an operation on a 32-bit `int`, which wraps around. -/
def wrapInt (n : ℤ) : ℤ := (n + 2147483648) % 4294967296 - 2147483648

/-- An `int` as a comparison with an unsigned number sees it. -/
def asUint32 (n : ℤ) : ℤ := n % 4294967296

namespace RpcSync

/-- The loop body and the step of the counter after it. -/
def round (s : RpcSync) : Round → RpcSync
  | .fetched => ⟨wrapInt (s.currentBlockHeight + 1), s.requested ++ [s.currentBlockHeight],
      s.handed ++ [s.currentBlockHeight]⟩
  | .noBlockHash | .noRawBlock | .notHydrated =>
      ⟨wrapInt (s.currentBlockHeight - 1), s.requested ++ [s.currentBlockHeight], s.handed⟩

/-- The loop from the test of `for` on. Rounds that the pattern does not mention go well;
without a result the fuel was too little. -/
def loop (bestBlockHeight : UInt32) : ℕ → List Round → RpcSync → Option RpcSync
  | 0, _, _ => none
  | fuel + 1, pattern, s =>
      if asUint32 s.currentBlockHeight ≤ bestBlockHeight.toNat then
        let next := s.round (pattern.headD .fetched)
        -- Only the error paths go back to the test of `retry_loop2`.
        if pattern.headD .fetched ≠ .fetched ∧
            asUint32 next.currentBlockHeight = bestBlockHeight.toNat then some next
        else loop bestBlockHeight fuel pattern.tail next
      else some { s with currentBlockHeight := wrapInt (s.currentBlockHeight - 1) }

/-- The part of `main` behind `retry_loop2`. -/
def run (bestBlockHeight : UInt32) (fuel : ℕ) (pattern : List Round) (start : Int32) :
    Option RpcSync :=
  if asUint32 start.toInt = bestBlockHeight.toNat then some ⟨start.toInt, [], []⟩
  else loop bestBlockHeight fuel pattern ⟨start.toInt, [], []⟩

end RpcSync

/-- The `n` heights from `start` on. -/
def heightsFrom (start : ℤ) (n : ℕ) : List ℤ := (List.range n).map fun i : ℕ => start + i

/-- The number of heights from `start` to the best one. -/
def heightCount (start : Int32) (best : UInt32) : ℕ := (best.toNat - start.toInt + 1).toNat

/-- The loop ends at the best height after it handed over every height from `start` on
once and in order, and asked for nothing below. -/
def SyncsExactly (start : Int32) (best : UInt32) (pattern : List Round) : Prop :=
  ∃ fuel s, RpcSync.run best fuel pattern start = some s ∧
    s.handed = heightsFrom start.toInt (heightCount start best) ∧
    (∀ height ∈ s.requested, start.toInt ≤ height) ∧ s.currentBlockHeight = best.toNat

/-! ## Heights -/

theorem wrapInt_of_int {n : ℤ} (h : -2147483648 ≤ n) (h' : n < 2147483648) : wrapInt n = n := by
  unfold wrapInt
  omega

theorem wrapInt_lt (n : ℤ) : wrapInt n < 2147483648 := by
  unfold wrapInt
  omega

theorem wrapInt_pred (n : ℤ) : wrapInt (wrapInt n - 1) = wrapInt (n - 1) := by
  unfold wrapInt
  omega

theorem asUint32_wrapInt {n : ℤ} (h : 0 ≤ n) (h' : n < 4294967296) : asUint32 (wrapInt n) = n := by
  unfold asUint32 wrapInt
  omega

/-- A negative height looks larger than every height of a chain. -/
theorem asUint32_of_neg {n : ℤ} (h : -2147483648 ≤ n) (h' : n < 0) :
    2147483648 ≤ asUint32 n := by
  unfold asUint32
  omega

theorem heightsFrom_succ (start : ℤ) (n : ℕ) :
    heightsFrom start (n + 1) = heightsFrom start n ++ [start + n] := by
  simp [heightsFrom, List.range_succ]

theorem length_heightsFrom (start : ℤ) (n : ℕ) : (heightsFrom start n).length = n := by
  simp [heightsFrom]

/-- Only the next height continues a list of consecutive heights. -/
theorem eq_of_heightsFrom_isPrefix {start height : ℤ} {m n : ℕ}
    (h : heightsFrom start m ++ [height] <+: heightsFrom start n) : height = start + m := by
  have hlast : (heightsFrom start n)[m]? = some height := by
    obtain ⟨rest, hrest⟩ := h
    rw [← hrest, List.append_assoc, List.getElem?_append_right (length_heightsFrom start m).le,
      length_heightsFrom, Nat.sub_self]
    rfl
  rw [heightsFrom, List.getElem?_map, Option.map_eq_some_iff] at hlast
  obtain ⟨i, hi, rfl⟩ := hlast
  rw [(List.getElem?_eq_some_iff.mp hi).2.symm, List.getElem_range]

theorem add_heightCount {start : Int32} {best : UInt32} (h : start.toInt < best.toNat) :
    start.toInt + heightCount start best = best.toNat + 1 := by
  unfold heightCount
  omega

/-! ## Runs without a failure -/

namespace RpcSync

theorem head_of_fetched {pattern : List Round} {n : ℕ}
    (h : ∀ r ∈ pattern.take (n + 1), r = .fetched) :
    pattern.headD .fetched = .fetched ∧ ∀ r ∈ pattern.tail.take n, r = .fetched := by
  cases pattern with
  | nil => simp
  | cons r pattern =>
      rw [List.take_succ_cons, List.forall_mem_cons] at h
      exact h

/-- From a height that was reached in order, `n` good rounds complete the chain. -/
theorem loop_fetched {best : UInt32} (hbest : best.toNat < 2147483648) {start : ℤ}
    (hstart : 0 ≤ start) (n : ℕ) {m : ℕ} (hn : start + m + n = best.toNat + 1)
    {pattern : List Round} (h : ∀ r ∈ pattern.take n, r = .fetched) {requested : List ℤ}
    (hreq : ∀ height ∈ requested, start ≤ height) :
    ∃ s, loop best (n + 1) pattern ⟨wrapInt (start + m), requested, heightsFrom start m⟩ =
        some s ∧
      s.handed = heightsFrom start (m + n) ∧ (∀ height ∈ s.requested, start ≤ height) ∧
      s.currentBlockHeight = best.toNat := by
  induction n generalizing m pattern requested with
  | zero =>
      have hgt : ¬ asUint32 (wrapInt (start + m)) ≤ best.toNat := by
        rw [asUint32_wrapInt (by omega) (by omega)]
        omega
      have hlast : wrapInt (wrapInt (start + m) - 1) = best.toNat := by
        rw [wrapInt_pred, wrapInt_of_int (by omega) (by omega)]
        omega
      exact ⟨_, by rw [loop, if_neg hgt], rfl, hreq, hlast⟩
  | succ n ih =>
      obtain ⟨hhead, htail⟩ := head_of_fetched h
      have hle : asUint32 (start + m) ≤ best.toNat := by
        unfold asUint32
        omega
      have hreq' : ∀ height ∈ requested ++ [start + (m : ℤ)], start ≤ height := by
        intro height hheight
        rcases List.mem_append.mp hheight with hheight | hheight
        · exact hreq height hheight
        · rw [List.mem_singleton.mp hheight]
          omega
      obtain ⟨s, hs, hhanded, hrest⟩ := ih (m := m + 1) (by push_cast; omega) htail hreq'
      refine ⟨s, ?_, by rw [hhanded, Nat.add_right_comm, Nat.add_assoc], hrest⟩
      rw [wrapInt_of_int (by omega) (by omega), loop, if_pos hle, hhead]
      simp only [ne_eq, not_true_eq_false, false_and, if_false, round]
      rw [← heightsFrom_succ, ← hs]
      push_cast
      rw [add_assoc]

/-! ## Runs with a failure -/

/-- A result that lost, repeated or reordered a height, or asked for one below the start. -/
def Wrong (start : Int32) (best : UInt32) (s : RpcSync) : Prop :=
  (∃ height ∈ s.requested, height < start.toInt) ∨
    s.handed ≠ heightsFrom start.toInt (heightCount start best)

/-- A state from which the result can only be wrong. After a failure the counter is
below the next height to hand over. -/
def OffTrack (start : Int32) (best : UInt32) (s : RpcSync) : Prop :=
  (∃ height ∈ s.requested, height < start.toInt) ∨
    ¬ s.handed <+: heightsFrom start.toInt (heightCount start best) ∨
    ∃ m < heightCount start best, s.handed = heightsFrom start.toInt m ∧
      s.currentBlockHeight < start.toInt + m

variable {start : Int32} {best : UInt32} {s r : RpcSync}

theorem OffTrack.wrong (h : s.OffTrack start best) : s.Wrong start best := by
  rcases h with hbelow | hhanded | ⟨m, hm, hhanded, -⟩
  · exact .inl hbelow
  · exact .inr fun heq => hhanded (heq ▸ List.prefix_rfl)
  · refine .inr fun heq => ?_
    have hlen := congrArg List.length (hhanded.symm.trans heq)
    rw [length_heightsFrom, length_heightsFrom] at hlen
    omega

theorem OffTrack.round (hstart : 0 ≤ start.toInt) (hlt : start.toInt < best.toNat)
    (hbest : best.toNat < 2147483648) (h : s.OffTrack start best) (outcome : Round) :
    (s.round outcome).OffTrack start best := by
  have hcount := add_heightCount hlt
  have hreq : s.currentBlockHeight ∈ (s.round outcome).requested := by
    cases outcome <;> simp [RpcSync.round]
  have hgrow : s.requested ⊆ (s.round outcome).requested ∧
      s.handed <+: (s.round outcome).handed := by
    cases outcome <;> simp [RpcSync.round]
  rcases h with ⟨height, hmem, hbelow⟩ | hhanded | ⟨m, hm, hhanded, hheight⟩
  · exact .inl ⟨height, hgrow.1 hmem, hbelow⟩
  · exact .inr (.inl fun hpre => hhanded (hgrow.2.trans hpre))
  · rcases lt_or_ge s.currentBlockHeight start.toInt with hbelow | hge
    · exact .inl ⟨_, hreq, hbelow⟩
    · have hdown : wrapInt (s.currentBlockHeight - 1) < start.toInt + m := by
        rw [wrapInt_of_int (by omega) (by omega)]
        omega
      cases outcome with
      | fetched =>
          refine .inr (.inl fun hpre => ?_)
          simp only [RpcSync.round, hhanded] at hpre
          exact absurd (eq_of_heightsFrom_isPrefix hpre) hheight.ne
      | noBlockHash => exact .inr (.inr ⟨m, hm, hhanded, hdown⟩)
      | noRawBlock => exact .inr (.inr ⟨m, hm, hhanded, hdown⟩)
      | notHydrated => exact .inr (.inr ⟨m, hm, hhanded, hdown⟩)

theorem OffTrack.loop (hstart : 0 ≤ start.toInt) (hlt : start.toInt < best.toNat)
    (hbest : best.toNat < 2147483648) {fuel : ℕ} {pattern : List Round}
    (h : s.OffTrack start best) (hrun : RpcSync.loop best fuel pattern s = some r) :
    r.Wrong start best := by
  induction fuel generalizing s pattern with
  | zero => simp [RpcSync.loop] at hrun
  | succ fuel ih =>
      have hnext := h.round hstart hlt hbest (pattern.headD .fetched)
      rw [RpcSync.loop] at hrun
      dsimp only at hrun
      split_ifs at hrun
      · exact Option.some.inj hrun ▸ hnext.wrong
      · exact ih hnext hrun
      · obtain rfl := Option.some.inj hrun
        exact h.wrong

/-- A loop that was on track all the time met no failure. -/
theorem fetched_of_loop (hstart : 0 ≤ start.toInt) (hlt : start.toInt < best.toNat)
    (hbest : best.toNat < 2147483648) (n : ℕ) {m fuel : ℕ}
    (hn : start.toInt + m + n = best.toNat + 1) {pattern : List Round}
    (hheight : s.currentBlockHeight = wrapInt (start.toInt + m))
    (hhanded : s.handed = heightsFrom start.toInt m)
    (hrun : RpcSync.loop best fuel pattern s = some r) (hr : ¬ r.Wrong start best) :
    ∀ outcome ∈ pattern.take n, outcome = .fetched := by
  induction n generalizing m fuel pattern s with
  | zero => simp
  | succ n ih =>
      have hcount := add_heightCount hlt
      cases pattern with
      | nil => simp
      | cons outcome pattern =>
          cases fuel with
          | zero => simp [RpcSync.loop] at hrun
          | succ fuel =>
              rw [wrapInt_of_int (by omega) (by omega)] at hheight
              have hle : asUint32 s.currentBlockHeight ≤ best.toNat := by
                rw [hheight]
                unfold asUint32
                omega
              rw [RpcSync.loop, if_pos hle] at hrun
              dsimp only at hrun
              by_cases hgood : outcome = .fetched
              · subst hgood
                simp only [List.headD_cons, ne_eq, not_true_eq_false, false_and, if_false,
                  List.tail_cons] at hrun
                rw [List.take_succ_cons, List.forall_mem_cons]
                refine ⟨rfl, ih (m := m + 1) (by push_cast; omega) ?_ ?_ hrun⟩
                · simp only [RpcSync.round, hheight]
                  push_cast
                  rw [add_assoc]
                · simp only [RpcSync.round, hheight, hhanded, heightsFrom_succ]
              · have hoff : (s.round outcome).OffTrack start best := by
                  have hdown : wrapInt (s.currentBlockHeight - 1) < start.toInt + m := by
                    rw [hheight, wrapInt_of_int (by omega) (by omega)]
                    omega
                  refine .inr (.inr ⟨m, by omega, ?_⟩)
                  cases outcome with
                  | fetched => exact absurd rfl hgood
                  | noBlockHash => exact ⟨hhanded, hdown⟩
                  | noRawBlock => exact ⟨hhanded, hdown⟩
                  | notHydrated => exact ⟨hhanded, hdown⟩
                refine absurd ?_ hr
                rw [List.headD_cons, List.tail_cons] at hrun
                split_ifs at hrun with hretry
                · exact Option.some.inj hrun ▸ hoff.wrong
                · exact hoff.loop hstart hlt hbest hrun

theorem loop_height_lt {fuel : ℕ} {pattern : List Round}
    (hrun : RpcSync.loop best fuel pattern s = some r) : r.currentBlockHeight < 2147483648 := by
  induction fuel generalizing s pattern with
  | zero => simp [RpcSync.loop] at hrun
  | succ fuel ih =>
      rw [RpcSync.loop] at hrun
      dsimp only at hrun
      split_ifs at hrun
      · obtain rfl := Option.some.inj hrun
        cases pattern.headD .fetched <;> exact wrapInt_lt _
      · exact ih hrun
      · obtain rfl := Option.some.inj hrun
        exact wrapInt_lt _

end RpcSync

open RpcSync

variable {start : Int32} {best : UInt32} {pattern : List Round}

theorem SyncsExactly.fits (h : SyncsExactly start best pattern) (hlt : start.toInt < best.toNat) :
    0 ≤ start.toInt ∧ best.toNat < 2147483648 := by
  obtain ⟨fuel, s, hrun, hhanded, -, hheight⟩ := h
  unfold RpcSync.run at hrun
  have hmin := start.le_toInt
  have hmax := start.toInt_lt
  have hbest : best.toNat < 2147483648 := by
    split_ifs at hrun
    · obtain rfl := Option.some.inj hrun
      simp only at hheight
      omega
    · have hlast := loop_height_lt hrun
      omega
  refine ⟨?_, hbest⟩
  by_contra hneg
  have hbig := asUint32_of_neg (n := start.toInt) (by omega) (by omega)
  have hempty : s.handed = [] := by
    rw [if_neg (by omega)] at hrun
    cases fuel with
    | zero => simp [RpcSync.loop] at hrun
    | succ fuel =>
        rw [RpcSync.loop, if_neg (by simp only; omega)] at hrun
        rw [← Option.some.inj hrun]
  have hlen := congrArg List.length (hhanded.symm.trans hempty)
  have hcount := add_heightCount hlt
  rw [length_heightsFrom, List.length_nil] at hlen
  omega

theorem SyncsExactly.fetched (h : SyncsExactly start best pattern)
    (hlt : start.toInt < best.toNat) :
    ∀ outcome ∈ pattern.take (heightCount start best), outcome = .fetched := by
  obtain ⟨hstart, hbest⟩ := h.fits hlt
  obtain ⟨fuel, s, hrun, hhanded, hreq, hheight⟩ := h
  have hmax := start.toInt_lt
  unfold RpcSync.run at hrun
  rw [if_neg (by unfold asUint32; omega)] at hrun
  refine fetched_of_loop hstart hlt hbest (heightCount start best) (m := 0)
    (by rw [Nat.cast_zero, add_zero, add_heightCount hlt]) ?_ rfl hrun ?_
  · rw [Nat.cast_zero, add_zero, wrapInt_of_int (by omega) (by omega)]
  · rintro (⟨height, hmem, hbelow⟩ | hne)
    · exact absurd (hreq height hmem) (Int.not_le.mpr hbelow)
    · exact hne hhanded

/-- For any start height below the best one and any pattern of failures: the loop hands
over every height once and in order exactly if no request fails while it does so, and
both heights are numbers that the counter can hold. -/
theorem syncsExactly_iff (start : Int32) (best : UInt32) (hlt : start.toInt < best.toNat)
    (pattern : List Round) : SyncsExactly start best pattern ↔
      0 ≤ start.toInt ∧ best.toNat < 2 ^ 31 ∧
        ∀ outcome ∈ pattern.take (heightCount start best), outcome = .fetched := by
  refine ⟨fun h => ⟨(h.fits hlt).1, (h.fits hlt).2, h.fetched hlt⟩, ?_⟩
  rintro ⟨hstart, hbest, hfetched⟩
  have hmax := start.toInt_lt
  have hnone : ∀ height ∈ ([] : List ℤ), start.toInt ≤ height := by simp
  obtain ⟨s, hs, hrest⟩ := loop_fetched hbest hstart (heightCount start best) (m := 0)
    (by rw [Nat.cast_zero, add_zero, add_heightCount hlt]) hfetched hnone
  rw [Nat.cast_zero, add_zero, wrapInt_of_int (by omega) (by omega)] at hs
  rw [Nat.zero_add] at hrest
  refine ⟨heightCount start best + 1, s, ?_, hrest⟩
  unfold RpcSync.run
  rw [if_neg (by unfold asUint32; omega)]
  exact hs

theorem syncsExactly_iff_sample : SyncsExactly 1 3 [.fetched, .fetched, .fetched] ↔
    0 ≤ (1 : Int32).toInt ∧ (3 : UInt32).toNat < 2 ^ 31 ∧
      ∀ outcome ∈ [Round.fetched, .fetched, .fetched].take (heightCount 1 3),
        outcome = .fetched :=
  syncsExactly_iff 1 3 (by decide) _

/-- One failed request for the first block, and the loop asks for the block below. -/
theorem failure_goes_back : ¬ SyncsExactly 1 2 [.noBlockHash] := fun h =>
  absurd (h.fetched (by decide) .noBlockHash (by decide)) (by decide)

end SlpGraphSearch
