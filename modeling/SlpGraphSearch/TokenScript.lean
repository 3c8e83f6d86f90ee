import Mathlib.Algebra.Order.BigOperators.Group.Finset
import Mathlib.Data.BitVec
import SlpGraphSearch.Bytes
import SlpGraphSearch.Library.ByteMemory

/-!
# The token script

`tokentype1` of the script interpreter, a program for a 64-bit RISC-V machine. It finds
the data attached to the inputs, the balances that the message gives and the data of the
outputs at fixed addresses, checks that the inputs cover the given balances and hands
these to the outputs. The body of `tokentype2` is the same.

The addresses are a parameter: the source has them apart in a comment and equal in the
code. The array of the given balances lies on the stack, which the three regions are taken
not to meet: it is outside of this memory. A signed overflow is undefined, and so is the
result then. The offset of a given balance is converted to `int`, so the balances from number
`2 ^ 28` on are read at wrapped offsets, up to 2 GiB in front of the message.
-/
namespace SlpGraphSearch.TokenScript
open Library

abbrev Address := BitVec 64

abbrev Memory := Address → UInt8

/-- The constants `MEM_LOC_INPUTS`, `MEM_LOC_USER` and `MEM_LOC_OUTPUTS`. -/
structure Layout where
  inputs : Address
  user : Address
  outputs : Address

/-- The constants of the source. -/
def memLoc : Layout := ⟨0x7fff54a82e48, 0x7fff54a82e48, 0x7fff54a82e48⟩

def utxoMdataSize : ℤ := 64

/-! ## Access to the memory -/

/-- The addresses of `n` bytes from `a` on. -/
def bytesAt (a : Address) (n : ℕ) : List Address :=
  (List.range n).map fun i => a + BitVec.ofNat 64 i

def readU32 (m : Memory) (a : Address) : UInt32 := UInt32.ofNat (leValue (load m (bytesAt a 4)))

def readU64 (m : Memory) (a : Address) : UInt64 := UInt64.ofNat (leValue (load m (bytesAt a 8)))

def writeU64 (m : Memory) (a : Address) (data : UInt64) : Memory :=
  store m (bytesAt a 8) (leBytes 8 data.toNat)

/-- The conversion of an unsigned number to `int`. -/
def toInt (n : ℕ) : ℤ :=
  if n % 2 ^ 32 < 2 ^ 31 then (n : ℤ) % 2 ^ 32 else (n : ℤ) % 2 ^ 32 - 2 ^ 32

/-- `UTXO_MDATA_SIZE * idx`, a product of two numbers of type `int`. -/
def mdataOffset (idx : ℤ) : Option ℤ :=
  if -2 ^ 31 ≤ utxoMdataSize * idx ∧ utxoMdataSize * idx < 2 ^ 31 then some (utxoMdataSize * idx)
  else none

variable (L : Layout) (m : Memory)

def inputsSize : UInt32 := readU32 m L.inputs

def readInputData (idx offset : ℤ) : Option UInt64 := do
  let mdata ← mdataOffset idx
  some (readU64 m (L.inputs + 4 + BitVec.ofInt 64 mdata + BitVec.ofInt 64 offset))

def userDataSize : UInt32 := readU32 m L.user

def readUserData (offset : ℤ) : UInt64 := readU64 m (L.user + 4 + BitVec.ofInt 64 offset)

def outputsSize : UInt32 := readU32 m L.outputs

def writeOutputData (idx offset : ℤ) (data : UInt64) : Option Memory := do
  let mdata ← mdataOffset idx
  some (writeU64 m (L.outputs + 4 + BitVec.ofInt 64 mdata + BitVec.ofInt 64 offset) data)

/-! ## The program -/

/-- The first loop, with the sum of type `__uint128_t`. -/
def sumInputs (n : ℕ) : Option (BitVec 128) :=
  (List.range n).foldlM (fun balance i => do
    let amount ← readInputData L m (toInt i) 0
    some (balance + BitVec.ofNat 128 amount.toNat)) 0

/-- The second loop, with the array and the sum. -/
def readGiven (n : ℕ) : List UInt64 × BitVec 128 :=
  (List.range n).foldl (fun acc i =>
    let amount := readUserData L m (toInt (8 * i))
    (acc.1 ++ [amount], acc.2 + BitVec.ofNat 128 amount.toNat)) ([], 0)

/-- The third loop. -/
def writeOutputs (given : List UInt64) (n : ℕ) : Option Memory :=
  (List.range n).foldlM (fun m i => do
    let amount ← given[i]?
    writeOutputData L m (toInt i) 0 amount) m

/-- The exit code, and the memory that is left. -/
def main : Option (ℕ × Memory) := do
  let udataLen := (userDataSize L m).toNat
  if udataLen % 8 ≠ 0 then some (1, m)
  else
    let givenBalancesSize := udataLen / 8
    if (outputsSize L m).toNat < givenBalancesSize then some (1, m)
    else do
      let inputBalance ← sumInputs L m (inputsSize L m).toNat
      let (givenBalances, outputBalance) := readGiven L m givenBalancesSize
      if inputBalance < outputBalance then some (1, m)
      else do
        let m ← writeOutputs L m givenBalances givenBalancesSize
        some (0, m)

/-! ## What it reads and writes -/

/-- The balance attached to an input. -/
def inputBalance (i : ℕ) : UInt64 := readU64 m (L.inputs + 4 + BitVec.ofNat 64 (64 * i))

/-- A balance of the message. Offsets from `2 ^ 31` on come out negative. -/
def givenBalance (i : ℕ) : UInt64 := readUserData L m (toInt (8 * i))

/-- The bytes of a balance of the message. -/
def userCell (i : ℕ) : List Address := bytesAt (L.user + 4 + BitVec.ofNat 64 (8 * i)) 8

/-- The bytes of the balance attached to an output. -/
def outputCell (i : ℕ) : List Address := bytesAt (L.outputs + 4 + BitVec.ofNat 64 (64 * i)) 8

/-- The number of balances given. -/
def givenSize : ℕ := (userDataSize L m).toNat / 8

/-- Whole balances are given, and no more than there are outputs. -/
def Fits : Prop := 8 ∣ (userDataSize L m).toNat ∧ givenSize L m ≤ (outputsSize L m).toNat

/-- The exact sum of the inputs is at least that of the given balances. -/
def Covered : Prop :=
  ∑ i ∈ Finset.range (givenSize L m), (givenBalance L m i).toNat ≤
    ∑ i ∈ Finset.range (inputsSize L m).toNat, (inputBalance L m i).toNat

theorem toInt_of_lt {n : ℕ} (h : n < 2 ^ 31) : toInt n = n := by
  rw [toInt, if_pos (by omega)]
  omega

theorem mdataOffset_of_lt {i : ℕ} (h : i < 2 ^ 25) : mdataOffset (toInt i) = some (64 * (i : ℤ)) := by
  rw [toInt_of_lt (by omega), mdataOffset, utxoMdataSize, if_pos (by omega)]

theorem mdataOffset_overflow {i : ℕ} (h : i = 2 ^ 25) : mdataOffset (toInt i) = none := by
  rw [toInt_of_lt (by omega), mdataOffset, utxoMdataSize, if_neg (by omega)]

/-- As long as its offset is positive, a balance is read where the message has it. -/
theorem leBytes_givenBalance {i : ℕ} (h : i < 2 ^ 28) :
    leBytes 8 (givenBalance L m i).toNat = load m (userCell L i) := by
  have hlen : (load m (userCell L i)).length = 8 := by simp [load, userCell, bytesAt]
  have hlt : leValue (load m (userCell L i)) < 2 ^ 64 := by
    simpa [hlen] using leValue_lt (load m (userCell L i))
  rw [givenBalance, toInt_of_lt (by omega), readUserData, BitVec.ofInt_natCast, readU64, ← userCell,
    UInt64.toNat_ofNat', Nat.mod_eq_of_lt hlt]
  exact hlen ▸ leBytes_leValue (load m (userCell L i))

theorem readInputData_of_lt {i : ℕ} (h : i < 2 ^ 25) :
    readInputData L m (toInt i) 0 = some (inputBalance L m i) := by
  have hoffset : BitVec.ofInt 64 (64 * i) = BitVec.ofNat 64 (64 * i) := by
    exact_mod_cast BitVec.ofInt_natCast (w := 64) (64 * i)
  simp [readInputData, mdataOffset_of_lt h, inputBalance, hoffset]

theorem writeOutputData_of_lt {i : ℕ} (h : i < 2 ^ 25) (data : UInt64) :
    writeOutputData L m (toInt i) 0 data = some (store m (outputCell L i) (leBytes 8 data.toNat)) := by
  have hoffset : BitVec.ofInt 64 (64 * i) = BitVec.ofNat 64 (64 * i) := by
    exact_mod_cast BitVec.ofInt_natCast (w := 64) (64 * i)
  simp [writeOutputData, mdataOffset_of_lt h, writeU64, outputCell, hoffset]

/-! ## The loops -/

theorem foldlM_range_some {α : Type} {f : α → ℕ → Option α} {g : α → ℕ → α} {n : ℕ}
    (h : ∀ i < n, ∀ a, f a i = some (g a i)) (a : α) :
    (List.range n).foldlM f a = some ((List.range n).foldl g a) := by
  induction n with
  | zero => rfl
  | succ n ih =>
      rw [List.range_succ, List.foldlM_append, ih fun i hi => h i (Nat.lt_succ_of_lt hi)]
      simp [h n n.lt_succ_self]

theorem foldlM_range_none {α : Type} {f : α → ℕ → Option α} {n i : ℕ} (hi : i < n)
    (h : ∀ a, f a i = none) (a : α) : (List.range n).foldlM f a = none := by
  obtain ⟨r, rfl⟩ : ∃ r, n = i + 1 + r := ⟨n - (i + 1), by omega⟩
  rw [List.range_add, List.range_succ, List.foldlM_append, List.foldlM_append]
  cases (List.range i).foldlM f a with
  | none => rfl
  | some b => simp [h b]

theorem foldl_sum (f : ℕ → UInt64) (n : ℕ) :
    (List.range n).foldl (fun balance i => balance + BitVec.ofNat 128 (f i).toNat) 0 =
      BitVec.ofNat 128 (∑ i ∈ Finset.range n, (f i).toNat) := by
  induction n with
  | zero => rfl
  | succ n ih =>
      rw [List.range_succ, List.foldl_append, ih, Finset.sum_range_succ, BitVec.ofNat_add]
      rfl

/-- No sum over the numbers of a 32-bit counter wraps around. -/
theorem sum_lt (f : ℕ → UInt64) {n : ℕ} (hn : n < 2 ^ 32) :
    ∑ i ∈ Finset.range n, (f i).toNat < 2 ^ 128 := by
  have hle : ∑ i ∈ Finset.range n, (f i).toNat ≤ n * 2 ^ 64 := by
    have hterm : ∀ i ∈ Finset.range n, (f i).toNat ≤ 2 ^ 64 := fun i _ => (f i).toNat_lt.le
    simpa using Finset.sum_le_card_nsmul _ _ _ hterm
  omega

theorem sumInputs_eq {n : ℕ} (h : n ≤ 2 ^ 25) : sumInputs L m n =
    some (BitVec.ofNat 128 (∑ i ∈ Finset.range n, (inputBalance L m i).toNat)) := by
  rw [← foldl_sum]
  refine foldlM_range_some (fun i hi balance => ?_) 0
  rw [readInputData_of_lt L m (by omega)]
  rfl

theorem sumInputs_overflow {n : ℕ} (h : 2 ^ 25 < n) : sumInputs L m n = none := by
  refine foldlM_range_none h (fun balance => ?_) 0
  simp only [readInputData, mdataOffset_overflow rfl, bind, Option.bind]

theorem readGiven_eq (n : ℕ) : readGiven L m n = ((List.range n).map (givenBalance L m),
    BitVec.ofNat 128 (∑ i ∈ Finset.range n, (givenBalance L m i).toNat)) := by
  rw [← foldl_sum]
  induction n with
  | zero => rfl
  | succ n ih =>
      rw [readGiven] at ih ⊢
      simp only [List.range_succ, List.foldl_append, ih, List.foldl_cons, List.foldl_nil,
        List.map_append, List.map_cons, List.map_nil, givenBalance]

theorem writeOutputs_eq (f : ℕ → UInt64) {n : ℕ} (h : n ≤ 2 ^ 25) :
    writeOutputs L m ((List.range n).map f) n =
      some (storeAll m (outputCell L) (fun i => leBytes 8 (f i).toNat) n) := by
  refine foldlM_range_some (fun i hi m => ?_) m
  have hget : ((List.range n).map f)[i]? = some (f i) := by simp [hi]
  simp only [hget, bind, Option.bind, writeOutputData_of_lt L m (show i < 2 ^ 25 by omega)]

theorem writeOutputs_overflow (given : List UInt64) {n : ℕ} (h : 2 ^ 25 < n) :
    writeOutputs L m given n = none := by
  refine foldlM_range_none h (fun m => ?_) m
  cases given[2 ^ 25]? with
  | none => rfl
  | some amount => simp only [writeOutputData, mdataOffset_overflow rfl, bind, Option.bind]

/-! ## The cells of the outputs -/

theorem mem_outputCell {i : ℕ} {a : Address} : a ∈ outputCell L i ↔
    ∃ j < 8, a = L.outputs + 4 + BitVec.ofNat 64 (64 * i + j) := by
  simp only [outputCell, bytesAt, List.mem_map, List.mem_range, BitVec.ofNat_add, add_assoc]
  exact exists_congr fun j => and_congr_right fun _ => eq_comm

theorem offset_inj {x y : ℕ} (hx : x < 2 ^ 64) (hy : y < 2 ^ 64) {a : Address}
    (h : a + BitVec.ofNat 64 x = a + BitVec.ofNat 64 y) : x = y := by
  have hnat := congrArg BitVec.toNat (add_left_cancel h)
  rwa [BitVec.toNat_ofNat, BitVec.toNat_ofNat, Nat.mod_eq_of_lt hx, Nat.mod_eq_of_lt hy] at hnat

theorem nodup_outputCell (i : ℕ) : (outputCell L i).Nodup := by
  refine List.Nodup.map_on (fun i hi j hj hij => ?_) List.nodup_range
  rw [List.mem_range] at hi hj
  exact offset_inj (by omega) (by omega) hij

theorem length_outputCell (i : ℕ) : (outputCell L i).length = 8 := by
  simp [outputCell, bytesAt]

/-- The address space is large enough for the cells not to wrap onto each other. -/
theorem outputCell_apart {i j : ℕ} (hi : i < 2 ^ 25) (hij : j < i) :
    ∀ a ∈ outputCell L j, a ∉ outputCell L i := by
  intro a ha hmem
  obtain ⟨r, hr, rfl⟩ := (mem_outputCell L).mp ha
  obtain ⟨t, ht, heq⟩ := (mem_outputCell L).mp hmem
  have hsame := offset_inj (by omega) (by omega) heq
  omega

/-! ## The result -/

theorem main_of_not_fits (h : ¬ Fits L m) : main L m = some (1, m) := by
  unfold main
  by_cases hdvd : (userDataSize L m).toNat % 8 = 0
  · have hsize : (outputsSize L m).toNat < (userDataSize L m).toNat / 8 := by
      by_contra hle
      exact h ⟨Nat.dvd_of_mod_eq_zero hdvd, Nat.not_lt.mp hle⟩
    simp only [hdvd, ne_eq, not_true_eq_false, if_false, if_pos hsize]
  · simp only [ne_eq, hdvd, not_false_eq_true, if_true]

theorem main_of_fits (h : Fits L m) : main L m =
    (sumInputs L m (inputsSize L m).toNat).bind fun inputBalance =>
      if inputBalance < (readGiven L m (givenSize L m)).2 then some (1, m)
      else (writeOutputs L m (readGiven L m (givenSize L m)).1 (givenSize L m)).bind
        fun m => some (0, m) := by
  have hdvd : ¬ (userDataSize L m).toNat % 8 ≠ 0 := not_not.mpr (Nat.mod_eq_zero_of_dvd h.1)
  have hsize : ¬ (outputsSize L m).toNat < (userDataSize L m).toNat / 8 := Nat.not_lt.mpr h.2
  simp only [main, if_neg hdvd, if_neg hsize, bind]
  rfl

/-- The comparison of the two sums is that of the exact sums. -/
theorem sum_lt_sum_iff :
    BitVec.ofNat 128 (∑ i ∈ Finset.range (inputsSize L m).toNat, (inputBalance L m i).toNat) <
      BitVec.ofNat 128 (∑ i ∈ Finset.range (givenSize L m), (givenBalance L m i).toNat) ↔
    ¬ Covered L m := by
  have hinputs := sum_lt (inputBalance L m) (inputsSize L m).toNat_lt
  have hsize : givenSize L m < 2 ^ 32 :=
    (Nat.div_le_self _ 8).trans_lt (userDataSize L m).toNat_lt
  have hgiven := sum_lt (givenBalance L m) hsize
  rw [BitVec.lt_def, BitVec.toNat_ofNat, BitVec.toNat_ofNat, Nat.mod_eq_of_lt hinputs,
    Nat.mod_eq_of_lt hgiven, Covered, not_le]

section Fits

variable {L m} (h : Fits L m)
include h

theorem main_of_many_inputs (hinputs : 2 ^ 25 < (inputsSize L m).toNat) : main L m = none := by
  rw [main_of_fits L m h, sumInputs_overflow L m hinputs, Option.bind_none]

theorem main_of_not_covered (hinputs : (inputsSize L m).toNat ≤ 2 ^ 25) (hc : ¬ Covered L m) :
    main L m = some (1, m) := by
  rw [main_of_fits L m h, sumInputs_eq L m hinputs, readGiven_eq, Option.bind_some,
    if_pos ((sum_lt_sum_iff L m).mpr hc)]

theorem main_of_covered (hinputs : (inputsSize L m).toNat ≤ 2 ^ 25) (hc : Covered L m)
    (hgiven : givenSize L m ≤ 2 ^ 25) : main L m = some (0, storeAll m (outputCell L)
      (fun i => leBytes 8 (givenBalance L m i).toNat) (givenSize L m)) := by
  rw [main_of_fits L m h, sumInputs_eq L m hinputs, readGiven_eq, Option.bind_some,
    if_neg fun hlt => (sum_lt_sum_iff L m).mp hlt hc, writeOutputs_eq L m _ hgiven,
    Option.bind_some]

theorem main_of_many_given (hinputs : (inputsSize L m).toNat ≤ 2 ^ 25) (hc : Covered L m)
    (hgiven : 2 ^ 25 < givenSize L m) : main L m = none := by
  rw [main_of_fits L m h, sumInputs_eq L m hinputs, readGiven_eq, Option.bind_some,
    if_neg fun hlt => (sum_lt_sum_iff L m).mp hlt hc, writeOutputs_overflow L m _ hgiven,
    Option.bind_none]

end Fits

/-- On every memory and with every layout, overlapping or not, the program does one of
three things. It refuses and changes nothing if the message does not fit or is not
covered. It hands on exactly the given balances, and changes no other byte, if they are
covered. It is undefined only with more than `2 ^ 25` inputs or balances. -/
theorem main_iff (m' : Memory) :
    (main L m = some (1, m') ↔
      m' = m ∧ (Fits L m → (inputsSize L m).toNat ≤ 2 ^ 25 ∧ ¬ Covered L m)) ∧
    (main L m = some (0, m') ↔
      Fits L m ∧ Covered L m ∧ (inputsSize L m).toNat ≤ 2 ^ 25 ∧ givenSize L m ≤ 2 ^ 25 ∧
        (∀ i < givenSize L m, load m' (outputCell L i) = load m (userCell L i)) ∧
        ∀ a, (∀ i < givenSize L m, a ∉ outputCell L i) → m' a = m a) ∧
    (main L m = none ↔ Fits L m ∧
      (2 ^ 25 < (inputsSize L m).toNat ∨ Covered L m ∧ 2 ^ 25 < givenSize L m)) := by
  by_cases hfits : Fits L m
  · rcases Nat.lt_or_ge (2 ^ 25) (inputsSize L m).toNat with hinputs | hinputs
    · have hmany : ¬ (inputsSize L m).toNat ≤ 2 ^ 25 := Nat.not_le.mpr hinputs
      rw [main_of_many_inputs hfits hinputs]
      simp only [reduceCtorEq, hfits, hmany, hinputs, false_and, and_false, true_or,
        forall_const, and_self]
    · have hfew : ¬ 2 ^ 25 < (inputsSize L m).toNat := Nat.not_lt.mpr hinputs
      by_cases hc : Covered L m
      · rcases Nat.lt_or_ge (2 ^ 25) (givenSize L m) with hgiven | hgiven
        · have hmany : ¬ givenSize L m ≤ 2 ^ 25 := Nat.not_le.mpr hgiven
          rw [main_of_many_given hfits hinputs hc hgiven]
          simp only [reduceCtorEq, hfits, hinputs, hc, hgiven, hmany, false_and, and_false,
            not_true_eq_false, or_true, forall_const, and_self]
        · have hfewGiven : ¬ 2 ^ 25 < givenSize L m := Nat.not_lt.mpr hgiven
          rw [main_of_covered hfits hinputs hc hgiven]
          have hcells : m' = storeAll m (outputCell L)
              (fun i => leBytes 8 (givenBalance L m i).toNat) (givenSize L m) ↔
              (∀ i < givenSize L m, load m' (outputCell L i) = load m (userCell L i)) ∧
                ∀ a, (∀ i < givenSize L m, a ∉ outputCell L i) → m' a = m a := by
            rw [eq_storeAll_iff (fun i _ => nodup_outputCell L i)
              (fun i _ => (length_outputCell L i).trans (length_leBytes 8 _).symm)
              fun i hi j hij => outputCell_apart L (by omega) hij]
            refine and_congr_left fun _ => forall₂_congr fun i hi => ?_
            rw [leBytes_givenBalance L m (by omega)]
          simp only [Option.some.injEq, Prod.mk.injEq, reduceCtorEq, zero_ne_one, hfits, hinputs,
            hc, hgiven, hfew, hfewGiven, false_and, and_false, not_true_eq_false, or_self,
            true_and, and_true, forall_const, ← hcells]
          exact eq_comm
      · rw [main_of_not_covered hfits hinputs hc]
        simp only [Option.some.injEq, Prod.mk.injEq, reduceCtorEq, one_ne_zero, hfits, hinputs,
          hc, hfew, false_and, and_false, not_false_eq_true, or_self, true_and, and_true,
          forall_const, and_self, iff_self]
        exact eq_comm
  · rw [main_of_not_fits L m hfits]
    simp only [Option.some.injEq, Prod.mk.injEq, reduceCtorEq, one_ne_zero, hfits, false_and,
      IsEmpty.forall_iff, true_and, and_true, and_self, iff_self]
    exact eq_comm

/-- Without inputs, balances and outputs there is nothing to refuse. -/
example : (main memLoc fun _ => 0).map Prod.fst = some 0 := by decide

end SlpGraphSearch.TokenScript
