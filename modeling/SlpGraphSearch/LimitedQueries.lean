import SlpGraphSearch.UtxoView
import Mathlib.Data.Set.Card

/-!
# Queries with a limit

How much of an address a query with a limit lists. The loop over the confirmed bucket tests
the limit after it pushed an output, and only then. The test in front of the mempool bucket
and the tests behind the pushes make one list of both buckets, cut at the limit, as long as
the limit is not zero.
-/
namespace SlpGraphSearch
open Library Transaction

namespace Utxodb

/-- Confirmed and not spent in the mempool. -/
def VisibleConfirmed (db : Utxodb) (script : Scriptpubkey) (u : Output) : Prop :=
  bucketLookup db.scriptpubkeyToOutput script u.outpoint = some u ∧
    u.outpoint ∉ db.mempoolSpentConfirmedOutpoints

def VisibleMempool (db : Utxodb) (script : Scriptpubkey) (u : Output) : Prop :=
  bucketLookup db.mempoolScriptpubkeyToOutput script u.outpoint = some u

def Visible (db : Utxodb) (script : Scriptpubkey) (u : Output) : Prop :=
  db.VisibleConfirmed script u ∨ db.VisibleMempool script u

/-- Outputs are the same if their outpoints are. -/
def BucketsDisjoint (db : Utxodb) (script : Scriptpubkey) : Prop :=
  ∀ k, bucketLookup db.scriptpubkeyToOutput script k = none ∨
    bucketLookup db.mempoolScriptpubkeyToOutput script k = none

/-- As many different visible outputs as there are, but no more than the limit. -/
structure ExactUpTo (db : Utxodb) (script : Scriptpubkey) (limit : ℕ) (ret : List Output) :
    Prop where
  distinct : (ret.map Output.outpoint).Nodup
  visible : ∀ u ∈ ret, db.Visible script u
  count : ret.length = min limit {u | db.Visible script u}.ncard
  complete : {u | db.Visible script u}.ncard ≤ limit → ∀ u, db.Visible script u → u ∈ ret

variable {db : Utxodb} {order : KeyedOrder Output.outpoint} {script : Scriptpubkey} {limit : ℕ}

/-! ## What is visible -/

theorem mem_visibleConfirmed (order : KeyedOrder Output.outpoint) {u : Output} :
    (u ∈ (bucketOutputs db.scriptpubkeyToOutput order script).filter fun u =>
      u.outpoint ∉ db.mempoolSpentConfirmedOutpoints) ↔ db.VisibleConfirmed script u := by
  rw [List.mem_filter, mem_bucketOutputs, decide_eq_true_eq, VisibleConfirmed]

theorem mem_countedOutputs {u : Output} :
    u ∈ db.countedOutputs order script ↔ db.Visible script u := by
  rw [countedOutputs, List.mem_append, mem_visibleConfirmed order, mem_bucketOutputs, Visible,
    VisibleMempool]

theorem nodup_outpoints_bucketOutputs (idx : HashMap Scriptpubkey OutpointMap)
    (order : KeyedOrder Output.outpoint) (script : Scriptpubkey) :
    ((bucketOutputs idx order script).map Output.outpoint).Nodup := by
  apply (nodup_bucketOutputs idx order script).map_on
  intro u hu w hw huw
  have hu := mem_bucketOutputs.mp hu
  have hw := mem_bucketOutputs.mp hw
  rw [huw, hw] at hu
  exact (Option.some.inj hu).symm

theorem BucketsDisjoint.nodup_outpoints (h : db.BucketsDisjoint script) :
    ((db.countedOutputs order script).map Output.outpoint).Nodup := by
  rw [countedOutputs, List.map_append, List.nodup_append]
  refine ⟨?_, nodup_outpoints_bucketOutputs _ _ _, ?_⟩
  · exact (nodup_outpoints_bucketOutputs _ _ _).sublist (List.filter_sublist.map _)
  · intro k hk k' hk' heq
    obtain ⟨u, hu, hku⟩ := List.mem_map.mp hk
    obtain ⟨w, hw, hkw⟩ := List.mem_map.mp hk'
    have hu := ((mem_visibleConfirmed order).mp hu).1
    have hw := mem_bucketOutputs.mp hw
    rw [hku] at hu
    rw [hkw, ← heq] at hw
    cases h k with
    | inl hnone => rw [hnone] at hu; cases hu
    | inr hnone => rw [hnone] at hw; cases hw

theorem setOf_visible (db : Utxodb) (order : KeyedOrder Output.outpoint) (script : Scriptpubkey) :
    {u | db.Visible script u} = (db.countedOutputs order script).toFinset := by
  ext u
  rw [Set.mem_ofPred_eq, Finset.mem_coe, List.mem_toFinset, mem_countedOutputs]

theorem BucketsDisjoint.ncard_visible (h : db.BucketsDisjoint script)
    (order : KeyedOrder Output.outpoint) :
    {u | db.Visible script u}.ncard = (db.countedOutputs order script).length := by
  rw [setOf_visible db order, Set.ncard_coe_finset, List.toFinset_card_of_nodup h.nodup_outpoints.of_map]

/-- A front part of the list of visible outputs. -/
theorem BucketsDisjoint.exactUpTo_take (h : db.BucketsDisjoint script)
    (order : KeyedOrder Output.outpoint) (limit : ℕ) :
    db.ExactUpTo script limit ((db.countedOutputs order script).take limit) where
  distinct := by
    rw [List.map_take]
    exact h.nodup_outpoints.sublist (List.take_sublist _ _)
  visible := by
    intro u hu
    exact mem_countedOutputs.mp (List.mem_of_mem_take hu)
  count := by rw [List.length_take, h.ncard_visible order]
  complete := by
    intro hall u hu
    rw [h.ncard_visible order] at hall
    rw [List.take_of_length_le hall]
    exact mem_countedOutputs.mpr hu

/-! ## The two loops -/

theorem getOutputsByScriptpubkey_take (hlimit : limit ≠ 0) :
    db.getOutputsByScriptpubkey order script limit =
      (db.countedOutputs order script).take limit := by
  rw [getOutputsByScriptpubkey_cases, countedOutputs]
  generalize (bucketOutputs db.scriptpubkeyToOutput order script).filter
    (fun u => u.outpoint ∉ db.mempoolSpentConfirmedOutpoints) = confirmed
  have hfirst : pushUpTo limit [] confirmed = confirmed.take limit := by
    rw [pushUpTo_take (Nat.pos_of_ne_zero hlimit)]
    rfl
  simp only [hfirst, List.length_take]
  cases Nat.lt_or_ge confirmed.length limit with
  | inl hroom =>
    rw [if_pos (by omega), List.take_of_length_le hroom.le, pushUpTo_take hroom,
      List.take_append, List.take_of_length_le hroom.le]
  | inr hfull => rw [if_neg (by omega), List.take_append_of_le_length hfull]

/-- The first loop never meets the limit zero, and the second one does not start. -/
theorem getOutputsByScriptpubkey_zero : db.getOutputsByScriptpubkey order script 0 =
    (bucketOutputs db.scriptpubkeyToOutput order script).filter fun u =>
      u.outpoint ∉ db.mempoolSpentConfirmedOutpoints := by
  rw [getOutputsByScriptpubkey_cases]
  simp only [Nat.not_lt_zero, if_false]
  exact pushUpTo_past (Nat.zero_le _)

theorem not_exactUpTo_zero {u : Output} (hu : db.VisibleConfirmed script u) :
    ¬ db.ExactUpTo script 0 (db.getOutputsByScriptpubkey order script 0) := by
  intro hexact
  have hcount := hexact.count
  rw [Nat.zero_min, getOutputsByScriptpubkey_zero] at hcount
  have hmem := (mem_visibleConfirmed order).mpr hu
  rw [List.length_eq_zero_iff.mp hcount] at hmem
  exact List.not_mem_nil hmem

/-- A query is exact unless its limit is zero and there is a confirmed output to list. -/
theorem getOutputsByScriptpubkey_exact_iff (db : Utxodb) (order : KeyedOrder Output.outpoint)
    (script : Scriptpubkey) (h : db.BucketsDisjoint script) (limit : UInt32) :
    db.ExactUpTo script limit.toNat (db.getOutputsByScriptpubkey order script limit.toNat) ↔
      limit ≠ 0 ∨ ∀ u, ¬ db.VisibleConfirmed script u := by
  by_cases hlimit : limit = 0
  · rw [hlimit, UInt32.toNat_zero, or_iff_right (not_not.mpr rfl)]
    constructor
    · intro hexact u hu
      exact not_exactUpTo_zero hu hexact
    · intro hnone
      have hnil : (bucketOutputs db.scriptpubkeyToOutput order script).filter
          (fun u => u.outpoint ∉ db.mempoolSpentConfirmedOutpoints) = [] :=
        List.eq_nil_iff_forall_not_mem.mpr fun u hu => hnone u ((mem_visibleConfirmed order).mp hu)
      rw [getOutputsByScriptpubkey_zero, hnil]
      exact h.exactUpTo_take order 0
  · have hnat : limit.toNat ≠ 0 := fun hzero => hlimit (UInt32.toNat_inj.mp hzero)
    rw [getOutputsByScriptpubkey_take hnat]
    exact iff_of_true (h.exactUpTo_take order _) (.inl hlimit)

/-- A GENESIS and a MINT in a block, and the SEND of the quantity of the GENESIS in the
mempool. They all pay to one script. -/
def bothBuckets : List BchEvent :=
  [.block [sampleGenesis, sampleMint] true, .mempoolTx sampleSend]

/-- The limits fall on the last confirmed output and on the first one of the mempool. -/
theorem getOutputsByScriptpubkey_exact_sample :
    ∃ b, bothBuckets.foldlM Bch.step .empty = .ok b ∧
      (∃ u, u.prevTxId = sampleMint.txid ∧ b.utxodb.VisibleConfirmed [0x51] u) ∧
      (∃ u, u.prevTxId = sampleSend.txid ∧ b.utxodb.VisibleMempool [0x51] u) ∧
      b.utxodb.ExactUpTo [0x51] 1 (b.utxodb.getOutputsByScriptpubkey (.some _) [0x51] 1) ∧
      b.utxodb.ExactUpTo [0x51] 2 (b.utxodb.getOutputsByScriptpubkey (.some _) [0x51] 2) := by
  have hrun : ∃ b, bothBuckets.foldlM Bch.step .empty = .ok b ∧
      (∃ u ∈ sampleMint.outputs, u.prevTxId = sampleMint.txid ∧
        bucketLookup b.utxodb.scriptpubkeyToOutput [0x51] u.outpoint = some u ∧
          u.outpoint ∉ b.utxodb.mempoolSpentConfirmedOutpoints) ∧
      (∃ u ∈ sampleSend.outputs, u.prevTxId = sampleSend.txid ∧
        bucketLookup b.utxodb.mempoolScriptpubkeyToOutput [0x51] u.outpoint = some u) ∧
      ∃ bucket ∈ b.utxodb.scriptpubkeyToOutput.lookup [0x51], ∀ k ∈ bucket.toMap.keys,
        bucketLookup b.utxodb.mempoolScriptpubkeyToOutput [0x51] k = none := by
    decide +kernel
  obtain ⟨b, hb, ⟨u, -, hu⟩, ⟨w, -, hw⟩, bucket, hbucket, hnone⟩ := hrun
  have hdisjoint : b.utxodb.BucketsDisjoint [0x51] := by
    intro k
    by_cases hk : k ∈ bucket
    · exact .inr (hnone k (Finmap.mem_keys.mpr hk))
    · left
      rw [bucketLookup, Option.mem_def.mp hbucket, Option.bind_some]
      exact Finmap.lookup_eq_none.mpr hk
  have hexact : ∀ limit : UInt32, limit ≠ 0 → b.utxodb.ExactUpTo [0x51] limit.toNat
      (b.utxodb.getOutputsByScriptpubkey (.some _) [0x51] limit.toNat) := fun limit hlimit =>
    (getOutputsByScriptpubkey_exact_iff b.utxodb (.some _) [0x51] hdisjoint limit).mpr
      (.inl hlimit)
  exact ⟨b, hb, ⟨u, hu⟩, ⟨w, hw⟩, hexact 1 (by decide), hexact 2 (by decide)⟩

theorem bucketsDisjoint_addOutput (m : Output) (script : Scriptpubkey) :
    (Utxodb.empty.addOutput m).BucketsDisjoint script := fun _ => .inr rfl

theorem visibleConfirmed_addOutput (m : Output) :
    (Utxodb.empty.addOutput m).VisibleConfirmed m.scriptpubkey m := by
  constructor
  · rw [addOutput, bucketLookup_insertBucket, if_pos ⟨rfl, rfl⟩]
    rfl
  · exact Finset.notMem_empty _

/-- An output of a block, with the script of a hash of zeros. -/
def paidOutput : Output :=
  ⟨.zero, 1, 546, [0x76, 0xA9, 20] ++ List.replicate 20 0 ++ [0x88, 0xAC]⟩

/-- The limit zero returns the confirmed output. -/
theorem getOutputsByScriptpubkey_inexact :
    ¬ ∀ (db : Utxodb) (order : KeyedOrder Output.outpoint) (script : Scriptpubkey),
      db.BucketsDisjoint script → ∀ limit : UInt32,
        db.ExactUpTo script limit.toNat
          (db.getOutputsByScriptpubkey order script limit.toNat) := by
  intro h
  exact not_exactUpTo_zero (visibleConfirmed_addOutput paidOutput)
    (h _ (.some _) paidOutput.scriptpubkey (bucketsDisjoint_addOutput paidOutput _) 0)

end Utxodb
end SlpGraphSearch
