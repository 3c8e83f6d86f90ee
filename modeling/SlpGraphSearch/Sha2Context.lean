import SlpGraphSearch.Library.BlockFold
import SlpGraphSearch.Library.Digits
import SlpGraphSearch.Library.Run
import SlpGraphSearch.Transaction

/-!
# The context of SHA-256

The interface of the vendored `sha2.cpp`: a context takes a message in pieces. Its buffer
keeps what is too short for a block, and its two lengths count in 32 bits. What is copied
outside the buffer or read outside a message counts as a failure, and so does a block index
whose offset exceeds an `int`.
-/
namespace SlpGraphSearch
open Library

namespace Sha2

/-! ## The model -/

/-- `ctx->block`. -/
abbrev Buffer := { block : Bytes // block.length = 128 }

/-- `sha256_ctx`. -/
structure Context where
  totLen : UInt32
  len : UInt32
  block : Buffer
  h : List UInt32

/-- The buffer with `bytes` from position `i` on. -/
def Buffer.copy (block : Buffer) (i : ℕ) (bytes : Bytes) : Except Failure Buffer :=
  if h : i + bytes.length ≤ 128 then
    .ok ⟨block.val.take i ++ bytes ++ block.val.drop (i + bytes.length), by
      rw [List.length_append, List.length_append, List.length_take, List.length_drop,
        block.property]
      omega⟩
  else .error .outOfBounds

/-- `n` bytes of a message from position `i` on. -/
def readBytes (message : Bytes) (i n : ℕ) : Except Failure Bytes :=
  if i + n ≤ message.length then .ok ((message.drop i).take n) else .error .outOfBounds

def transfLoop : ℕ → List UInt32 → Bytes → Except Failure (List UInt32)
  | 0, h, _ => .ok h
  | n + 1, h, message => do transfLoop n (transf h (← readBytes message 0 64)) (message.drop 64)

/-- The offset of a block is computed as an `int`. -/
def sha256Transf (h : List UInt32) (message : Bytes) (blockNb : UInt32) :
    Except Failure (List UInt32) :=
  if 2 ^ 25 < blockNb.toNat then .error .outOfBounds else transfLoop blockNb.toNat h message

/-- The buffer starts out as whatever is in memory. -/
def sha256Init (block : Buffer) : Context := ⟨0, 0, block, h0⟩

def sha256Update (ctx : Context) (message : Bytes) (len : UInt32) : Except Failure Context := do
  let tmpLen := 64 - ctx.len
  let remLen := if len < tmpLen then len else tmpLen
  let block ← ctx.block.copy ctx.len.toNat (← readBytes message 0 remLen.toNat)
  if ctx.len + len < 64 then .ok { ctx with len := ctx.len + len, block := block }
  else do
    let newLen := len - remLen
    let blockNb := newLen / 64
    let shiftedMessage := message.drop remLen.toNat
    let h ← sha256Transf ctx.h block.val 1
    let h ← sha256Transf h shiftedMessage blockNb
    let remLen := newLen % 64
    let block ← block.copy 0 (← readBytes shiftedMessage (blockNb <<< 6).toNat remLen.toNat)
    .ok ⟨ctx.totLen + ((blockNb + 1) <<< 6), remLen, block, h⟩

def sha256Final (ctx : Context) : Except Failure Bytes := do
  let blockNb : UInt32 := 1 + (if 64 - 9 < ctx.len % 64 then 1 else 0)
  let pmLen := blockNb <<< 6
  let lenB := (ctx.totLen + ctx.len) <<< 3
  let block ← ctx.block.copy ctx.len.toNat (List.replicate (pmLen - ctx.len).toNat 0)
  let block ← block.copy ctx.len.toNat [0x80]
  let block ← block.copy (pmLen - 4).toNat (unpack lenB)
  .ok ((← sha256Transf ctx.h block.val blockNb).flatMap unpack)

/-- The calls for a message in pieces. Each length is converted to `unsigned int`. -/
def sha256Pieces (block : Buffer) (pieces : List Bytes) : Except Failure Bytes := do
  sha256Final (← pieces.foldlM
    (fun ctx piece => sha256Update ctx piece (UInt32.ofNat piece.length)) (sha256Init block))

/-! ## Padding in the standard -/

/-- The message, a bit, as few zeros as possible, and the bit length in 64 bits. -/
def standardPad (m : Bytes) : Bytes :=
  m ++ 0x80 :: (List.replicate ((119 - m.length % 64) % 64) 0 ++
    (toDigits 8 8 (8 * m.length)).map UInt8.ofNat)

/-! ## Loops and buffers -/

theorem blocks_eq (n : ℕ) (h : List UInt32) (m : Bytes) :
    blocks n h m = foldBlocks transf 64 n h m := by
  induction n generalizing h m with
  | zero => rfl
  | succ n ih => rw [blocks, foldBlocks, ih]

theorem transfLoop_ok {n : ℕ} (h : List UInt32) {m : Bytes} (hm : 64 * n ≤ m.length) :
    transfLoop n h m = .ok (foldBlocks transf 64 n h m) := by
  induction n generalizing h m with
  | zero => rfl
  | succ n ih =>
      have hread : readBytes m 0 64 = .ok (m.take 64) := by
        rw [readBytes, if_pos (by omega), List.drop_zero]
      have hrest : 64 * n ≤ (m.drop 64).length := by
        rw [List.length_drop]
        omega
      simp only [transfLoop, hread, bind, Except.bind, ih _ hrest]
      rfl

theorem sha256Transf_ok (h : List UInt32) {m : Bytes} {blockNb : UInt32}
    (hm : 64 * blockNb.toNat ≤ m.length) (hnb : blockNb.toNat ≤ 2 ^ 25) :
    sha256Transf h m blockNb = .ok (foldBlocks transf 64 blockNb.toNat h m) := by
  rw [sha256Transf, if_neg (by omega), transfLoop_ok h hm]

theorem readBytes_ok {m : Bytes} {i n : ℕ} (h : i + n ≤ m.length) :
    readBytes m i n = .ok ((m.drop i).take n) := if_pos h

/-- What is copied follows what was in front of it. -/
theorem Buffer.copy_ok (block : Buffer) (i : ℕ) (bytes : Bytes) (h : i + bytes.length ≤ 128) :
    ∃ block' : Buffer, block.copy i bytes = .ok block' ∧
      block'.val = block.val.take i ++ bytes ++ block.val.drop (i + bytes.length) :=
  ⟨_, dif_pos h, rfl⟩

/-- A copy over bytes that are as many leaves what is around them. -/
theorem Buffer.copy_over {block : Buffer} {front old back bytes : Bytes}
    (hval : block.val = front ++ (old ++ back)) (hlen : bytes.length = old.length) :
    ∃ block' : Buffer, block.copy front.length bytes = .ok block' ∧
      block'.val = front ++ (bytes ++ back) := by
  have hsize : front.length + (old.length + back.length) = 128 := by
    rw [← block.property, hval, List.length_append, List.length_append]
  obtain ⟨block', hcopy, hval'⟩ := Buffer.copy_ok block front.length bytes (by omega)
  have hbehind : block.val.drop (front.length + bytes.length) = back := by
    rw [hval, hlen, ← List.drop_drop, List.drop_left, List.drop_left]
  refine ⟨block', hcopy, ?_⟩
  rw [hval', hbehind, hval, List.take_left, List.append_assoc]

theorem toNat_shiftLeft_six {x : UInt32} (hx : x.toNat < 2 ^ 26) :
    (x <<< 6).toNat = 64 * x.toNat := by
  rw [UInt32.toNat_shiftLeft, Nat.shiftLeft_eq]
  change x.toNat * 64 % 2 ^ 32 = 64 * x.toNat
  omega

/-! ## Updates -/

/-- The context has taken in the message `m`. -/
structure Represents (ctx : Context) (m : Bytes) : Prop where
  consumed : Consumed transf 64 h0 m ctx.h (ctx.block.val.take ctx.len.toNat)
  len : ctx.len.toNat = m.length % 64
  totLen : ctx.totLen = UInt32.ofNat (64 * (m.length / 64))

theorem Represents.init (block : Buffer) : Represents (sha256Init block) [] where
  consumed := .nil h0
  len := rfl
  totLen := rfl

variable {ctx : Context} {m : Bytes}

theorem Represents.len_lt (h : Represents ctx m) : ctx.len.toNat < 64 :=
  h.len ▸ Nat.mod_lt _ (by decide)

theorem Represents.length_take (h : Represents ctx m) :
    (ctx.block.val.take ctx.len.toNat).length = ctx.len.toNat := by
  rw [h.consumed.length_rest, h.len]

theorem Represents.toNat_tmpLen (h : Represents ctx m) :
    (64 - ctx.len).toNat = 64 - ctx.len.toNat := by
  have hr := h.len_lt
  rw [UInt32.toNat_sub_of_le _ _ (UInt32.le_iff_toNat_le.mpr (by change _ ≤ 64; omega))]
  rfl

theorem Represents.toNat_sum (h : Represents ctx m) (len : UInt32) (hlen : len.toNat ≤ 2 ^ 31) :
    (ctx.len + len).toNat = ctx.len.toNat + len.toNat := by
  have hr := h.len_lt
  rw [UInt32.toNat_add]
  omega

/-- A piece that fills no block waits in the buffer. -/
theorem Represents.update_short (h : Represents ctx m) {piece : Bytes} {len : UInt32}
    (hlen : len.toNat = piece.length) (hshort : ctx.len.toNat + piece.length < 64) :
    ∃ ctx', sha256Update ctx piece len = .ok ctx' ∧ Represents ctx' (m ++ piece) := by
  have hmod := h.len
  have hsum := h.toNat_sum len (by omega)
  rw [hlen] at hsum
  have hrem : (if len < 64 - ctx.len then len else 64 - ctx.len) = len := by
    rw [if_pos]
    rw [UInt32.lt_iff_toNat_lt, h.toNat_tmpLen, hlen]
    omega
  have hread : readBytes piece 0 len.toNat = .ok piece := by
    rw [hlen, readBytes_ok (by omega), List.drop_zero, List.take_length]
  obtain ⟨block, hcopy, hblock⟩ := Buffer.copy_ok ctx.block ctx.len.toNat piece (by omega)
  refine ⟨{ ctx with len := ctx.len + len, block := block }, ?_, ?_, ?_, ?_⟩
  · simp only [sha256Update, hrem, hread, hcopy, bind, Except.bind]
    rw [if_pos (UInt32.lt_iff_toNat_lt.mpr (hsum ▸ hshort))]
  · have htake : block.val.take (ctx.len + len).toNat =
        ctx.block.val.take ctx.len.toNat ++ piece := by
      rw [hblock, hsum]
      refine List.take_left' ?_
      rw [List.length_append, h.length_take]
    simp only [htake]
    exact h.consumed.append_short (by rw [h.length_take]; omega)
  · simp only [hsum, List.length_append]
    omega
  · simp only [h.totLen, List.length_append]
    congr 2
    omega

/-- The counters of the blocks and of the rest, for `n` bytes behind the buffer. -/
theorem toNat_counters {newLen : UInt32} {n : ℕ} (hnew : newLen.toNat = n) (hn : n ≤ 2 ^ 31) :
    (newLen / 64).toNat = n / 64 ∧ (newLen % 64).toNat = n % 64 ∧
      ((newLen / 64) <<< 6).toNat = 64 * (n / 64) ∧
      (newLen / 64 + 1) <<< 6 = UInt32.ofNat (64 * (n / 64 + 1)) := by
  have hblockNb : (newLen / 64).toNat = n / 64 := by
    rw [UInt32.toNat_div, hnew]
    rfl
  refine ⟨hblockNb, ?_, ?_, ?_⟩
  · rw [UInt32.toNat_mod, hnew]
    rfl
  · rw [toNat_shiftLeft_six (by omega), hblockNb]
  · have hsucc : (newLen / 64 + 1).toNat = n / 64 + 1 := by
      rw [UInt32.toNat_add, hblockNb]
      change (n / 64 + 1) % 2 ^ 32 = n / 64 + 1
      omega
    apply UInt32.toNat_inj.mp
    rw [toNat_shiftLeft_six (by omega), hsucc, UInt32.toNat_ofNat']
    omega

/-- The block in the buffer is completed and consumed. -/
theorem Represents.fill (h : Represents ctx m) {front : Bytes}
    (hfront : ctx.len.toNat + front.length = 64) :
    ∃ block, ctx.block.copy ctx.len.toNat front = .ok block ∧
      sha256Transf ctx.h block.val 1 =
        .ok (transf ctx.h (ctx.block.val.take ctx.len.toNat ++ front)) := by
  obtain ⟨block, hcopy, hblock⟩ := Buffer.copy_ok ctx.block ctx.len.toNat front (by omega)
  have hfull : block.val.take 64 = ctx.block.val.take ctx.len.toNat ++ front := by
    rw [hblock]
    refine List.take_left' ?_
    rw [List.length_append, h.length_take, hfront]
  refine ⟨block, hcopy, ?_⟩
  rw [sha256Transf_ok ctx.h (by rw [block.property]; decide) (by decide), ← hfull]
  rfl

/-- A longer piece fills the block in the buffer first, and its end goes to the buffer. -/
theorem Represents.update_long (h : Represents ctx m) {piece : Bytes} {len : UInt32}
    (hlen : len.toNat = piece.length) (hlong : 64 ≤ ctx.len.toNat + piece.length)
    (hp : piece.length ≤ 2 ^ 31) :
    ∃ ctx', sha256Update ctx piece len = .ok ctx' ∧ Represents ctx' (m ++ piece) := by
  have hr := h.len_lt
  have hmod := h.len
  have hsum := h.toNat_sum len (by omega)
  obtain ⟨t, ht⟩ : ∃ t, t = 64 - ctx.len.toNat := ⟨_, rfl⟩
  obtain ⟨k, hk⟩ : ∃ k, k = (piece.length - t) / 64 := ⟨_, rfl⟩
  obtain ⟨rem, hremEq⟩ : ∃ rem, rem = if len < 64 - ctx.len then len else 64 - ctx.len :=
    ⟨_, rfl⟩
  have hrem : rem.toNat = t := by
    rw [hremEq]
    split_ifs with hlt
    · rw [UInt32.lt_iff_toNat_lt, h.toNat_tmpLen] at hlt
      omega
    · rw [h.toNat_tmpLen, ht]
  have hnew : (len - rem).toNat = piece.length - t := by
    rw [UInt32.toNat_sub_of_le _ _ (UInt32.le_iff_toNat_le.mpr (by omega)), hlen, hrem]
  obtain ⟨hblockNb, hrest, hoffset, hadd⟩ := toNat_counters hnew (by omega)
  rw [← hk] at hblockNb hoffset hadd
  have htlen : (piece.take t).length = t := by
    rw [List.length_take]
    omega
  have hread : readBytes piece 0 rem.toNat = .ok (piece.take t) := by
    rw [hrem, readBytes_ok (by omega), List.drop_zero]
  have hfront : ctx.len.toNat + (piece.take t).length = 64 := by omega
  obtain ⟨block, hcopy, hone⟩ := h.fill hfront
  have hmany : ∀ state, sha256Transf state (piece.drop t) ((len - rem) / 64) =
      .ok (foldBlocks transf 64 k state (piece.drop t)) := by
    intro state
    rw [sha256Transf_ok state (by rw [hblockNb, List.length_drop]; omega) (by omega), hblockNb]
  -- What is left fits into the buffer.
  have hread' : readBytes (piece.drop t) (((len - rem) / 64) <<< 6).toNat
      ((len - rem) % 64).toNat = .ok (piece.drop (t + 64 * k)) := by
    rw [hoffset, hrest, readBytes_ok (by rw [List.length_drop]; omega), List.drop_drop,
      List.take_of_length_le (by rw [List.length_drop]; omega)]
  obtain ⟨block', hcopy', hblock'⟩ := Buffer.copy_ok block 0 (piece.drop (t + 64 * k))
    (by rw [List.length_drop]; omega)
  refine ⟨⟨ctx.totLen + (((len - rem) / 64 + 1) <<< 6), (len - rem) % 64, block',
    foldBlocks transf 64 k (transf ctx.h (ctx.block.val.take ctx.len.toNat ++ piece.take t))
      (piece.drop t)⟩, ?_, ?_, ?_, ?_⟩
  · have hlt : ¬ ctx.len + len < 64 := by
      rw [UInt32.lt_iff_toNat_lt, hsum, hlen]
      exact Nat.not_lt.mpr hlong
    simp only [sha256Update, ← hremEq, hread, hcopy, bind, Except.bind, if_neg hlt, hone]
    simp only [hrem, hmany, hread', hcopy']
  · have hwaiting : block'.val.take ((len - rem) % 64).toNat = piece.drop (t + 64 * k) := by
      rw [hblock', List.take_zero, List.nil_append]
      refine List.take_left' ?_
      rw [hrest, List.length_drop]
      omega
    have hlong' := h.consumed.append_long (m := piece) (by decide)
      (by rw [h.length_take]; exact hlong)
    rw [h.length_take, ← ht, ← hk] at hlong'
    simp only [hwaiting]
    exact hlong'
  · simp only [hrest, List.length_append]
    omega
  · have hblocks : (m ++ piece).length / 64 = m.length / 64 + (k + 1) := by
      rw [List.length_append]
      omega
    simp only [h.totLen, hblocks, hadd, Nat.mul_add, UInt32.ofNat_add]

/-! ## The digest -/

/-- What `sha256_final` appends to a message. -/
def padding (m : Bytes) : Bytes :=
  0x80 :: (List.replicate (64 * (if 64 - 9 < m.length % 64 then 2 else 1) - m.length % 64 - 5) 0 ++
    unpack (UInt32.ofNat (8 * m.length)))

theorem pad_eq (m : Bytes) : pad m = m ++ padding m := rfl

theorem length_padding (m : Bytes) : (padding m).length =
    64 * (if 64 - 9 < m.length % 64 then 2 else 1) - m.length % 64 := by
  rw [padding, List.length_cons, List.length_append, List.length_replicate]
  change _ + 4 + 1 = _
  split_ifs
  · omega
  · omega

/-- Zeros, a bit behind the message and the length at the end make up the padding. -/
theorem Represents.final_copies (h : Represents ctx m) {nb : ℕ}
    (hnb : nb = if 64 - 9 < m.length % 64 then 2 else 1) :
    ∃ b₁ b₂ b₃ : Buffer,
      ctx.block.copy ctx.len.toNat (List.replicate (64 * nb - ctx.len.toNat) 0) = .ok b₁ ∧
      b₁.copy ctx.len.toNat [0x80] = .ok b₂ ∧
      b₂.copy (64 * nb - 4) (unpack (UInt32.ofNat (8 * m.length))) = .ok b₃ ∧
      b₃.val.take (64 * nb) = ctx.block.val.take ctx.len.toNat ++ padding m := by
  have hr := h.len_lt
  have hmod := h.len
  have hroom : ctx.len.toNat + 9 ≤ 64 * nb ∧ nb ≤ 2 := by
    rw [hnb]
    split_ifs
    · omega
    · omega
  obtain ⟨z, hz⟩ : ∃ z, z = 64 * nb - ctx.len.toNat - 5 := ⟨_, rfl⟩
  have hzeros : List.replicate (64 * nb - ctx.len.toNat) (0 : UInt8) =
      [0] ++ (List.replicate z 0 ++ List.replicate 4 0) := by
    rw [← List.replicate_add, List.singleton_append, ← List.replicate_succ]
    congr 1
    omega
  have hpadding : padding m =
      0x80 :: (List.replicate z 0 ++ unpack (UInt32.ofNat (8 * m.length))) := by
    rw [padding, ← hnb, ← hmod, hz]
  obtain ⟨rest, hrest⟩ : ∃ rest, rest = ctx.block.val.take ctx.len.toNat := ⟨_, rfl⟩
  have hrestLen : rest.length = ctx.len.toNat := hrest ▸ h.length_take
  obtain ⟨old, hold⟩ : ∃ old, old = (ctx.block.val.drop ctx.len.toNat).take
      (64 * nb - ctx.len.toNat) := ⟨_, rfl⟩
  obtain ⟨back, hback⟩ : ∃ back, back = (ctx.block.val.drop ctx.len.toNat).drop
      (64 * nb - ctx.len.toNat) := ⟨_, rfl⟩
  have hblock : ctx.block.val = rest ++ (old ++ back) := by
    rw [hrest, hold, hback, List.take_append_drop, List.take_append_drop]
  have holdLen : old.length = 64 * nb - ctx.len.toNat := by
    rw [hold, List.length_take, List.length_drop, ctx.block.property]
    omega
  -- The zeros go over the old content, the bit over the first zero, the length over the last.
  obtain ⟨b₁, hb₁, hv₁⟩ := Buffer.copy_over hblock
    ((List.length_replicate (a := (0 : UInt8))).trans holdLen.symm)
  have hfirst : b₁.val = rest ++ ([0] ++ (List.replicate z 0 ++ (List.replicate 4 0 ++ back))) := by
    rw [hv₁, hzeros, List.append_assoc, List.append_assoc]
  have hbit : ([0x80] : Bytes).length = ([0] : Bytes).length := rfl
  obtain ⟨b₂, hb₂, hv₂⟩ := Buffer.copy_over hfirst hbit
  have hsecond : b₂.val = (rest ++ 0x80 :: List.replicate z 0) ++ (List.replicate 4 0 ++ back) := by
    rw [hv₂, List.singleton_append, List.append_assoc, List.cons_append]
  have hfront : (rest ++ 0x80 :: List.replicate z 0).length = 64 * nb - 4 := by
    rw [List.length_append, hrestLen, List.length_cons, List.length_replicate]
    omega
  have hfour : (unpack (UInt32.ofNat (8 * m.length))).length =
      (List.replicate 4 (0 : UInt8)).length := rfl
  obtain ⟨b₃, hb₃, hv₃⟩ := Buffer.copy_over hsecond hfour
  rw [hrestLen] at hb₁ hb₂
  rw [hfront] at hb₃
  refine ⟨b₁, b₂, b₃, hb₁, hb₂, hb₃, ?_⟩
  rw [hv₃, hpadding, ← hrest, ← List.append_assoc]
  refine (List.take_left' ?_).trans (List.append_assoc _ _ _)
  rw [List.length_append, hfront]
  change _ + 4 = _
  omega

theorem Represents.bits (h : Represents ctx m) :
    (ctx.totLen + ctx.len) <<< 3 = UInt32.ofNat (8 * m.length) := by
  have hmod := h.len
  apply UInt32.toNat_inj.mp
  rw [UInt32.toNat_shiftLeft, Nat.shiftLeft_eq, UInt32.toNat_add, h.totLen, UInt32.toNat_ofNat',
    UInt32.toNat_ofNat']
  change _ * 8 % 2 ^ 32 = _
  omega

/-- The digest of what the context has taken in. -/
theorem Represents.final (h : Represents ctx m) : sha256Final ctx = .ok (digest m) := by
  have hmod := h.len
  have hr := h.len_lt
  obtain ⟨nb, hnb⟩ : ∃ nb, nb = if 64 - 9 < m.length % 64 then 2 else 1 := ⟨_, rfl⟩
  have htwo : nb = 1 ∨ nb = 2 := by
    rw [hnb]
    split_ifs
    · exact .inr rfl
    · exact .inl rfl
  have hblockNb : (1 + (if 64 - 9 < ctx.len % 64 then 1 else 0) : UInt32) = UInt32.ofNat nb := by
    have hlt : (64 - 9 < ctx.len % 64) ↔ 64 - 9 < m.length % 64 := by
      rw [UInt32.lt_iff_toNat_lt, UInt32.toNat_mod, hmod]
      change 55 < m.length % 64 % 64 ↔ _
      omega
    rw [hnb]
    by_cases hlong : 64 - 9 < m.length % 64
    · rw [if_pos hlong, if_pos (hlt.mpr hlong)]
      rfl
    · rw [if_neg hlong, if_neg (mt hlt.mp hlong)]
      rfl
  have hpm : (UInt32.ofNat nb <<< 6).toNat = 64 * nb := by
    rcases htwo with rfl | rfl
    · rfl
    · rfl
  have hgap : (UInt32.ofNat nb <<< 6 - ctx.len).toNat = 64 * nb - ctx.len.toNat := by
    rw [UInt32.toNat_sub_of_le _ _ (UInt32.le_iff_toNat_le.mpr (by omega)), hpm]
  have hend : (UInt32.ofNat nb <<< 6 - 4).toNat = 64 * nb - 4 := by
    rcases htwo with rfl | rfl
    · rfl
    · rfl
  obtain ⟨b₁, b₂, b₃, hb₁, hb₂, hb₃, hblocks⟩ := h.final_copies hnb
  have hnbNat : (UInt32.ofNat nb).toNat = nb := by
    rcases htwo with rfl | rfl
    · rfl
    · rfl
  have htransf : sha256Transf ctx.h b₃.val (UInt32.ofNat nb) =
      .ok (foldBlocks transf 64 nb ctx.h (ctx.block.val.take ctx.len.toNat ++ padding m)) := by
    rw [sha256Transf_ok ctx.h (by rw [hnbNat, b₃.property]; omega) (by omega), hnbNat, ← hblocks]
    conv_lhs => rw [← List.take_append_drop (64 * nb) b₃.val]
    rw [foldBlocks_append]
    rw [List.length_take, b₃.property]
    omega
  have hdigest : foldBlocks transf 64 nb ctx.h (ctx.block.val.take ctx.len.toNat ++ padding m) =
      blocks ((pad m).length / 64) h0 (pad m) := by
    have hcount : (pad m).length / 64 = m.length / 64 + nb := by
      rw [pad_eq, List.length_append, length_padding, ← hnb]
      omega
    rw [blocks_eq, hcount, foldBlocks_add, pad_eq, h.consumed.drop_append,
      foldBlocks_append transf 64 h0 (l := m) (Nat.mul_div_le _ _), ← h.consumed.state]
  simp only [sha256Final, hblockNb, hgap, hend, h.bits, hb₁, hb₂, hb₃, htransf, bind,
    Except.bind, hdigest]
  rfl

/-! ## The padding of the standard -/

theorem unpack_eq (x : UInt32) : unpack x = (toDigits 8 4 x.toNat).map UInt8.ofNat := by
  have hbyte : ∀ y : UInt32, y.toUInt8 = UInt8.ofNat (y.toNat % 2 ^ 8) := by
    intro y
    apply UInt8.toNat_inj.mp
    rw [UInt32.toNat_toUInt8, UInt8.toNat_ofNat', Nat.mod_mod]
  have hshift : ∀ k < 32, (x >>> UInt32.ofNat k).toNat = x.toNat / 2 ^ k := by
    intro k hk
    rw [UInt32.toNat_shiftRight, Nat.shiftRight_eq_div_pow, UInt32.toNat_ofNat']
    congr 2
    omega
  have hdigits : toDigits 8 4 x.toNat = [x.toNat / 2 ^ 24 % 2 ^ 8, x.toNat / 2 ^ 16 % 2 ^ 8,
      x.toNat / 2 ^ 8 % 2 ^ 8, x.toNat % 2 ^ 8] := by
    rw [toDigits_succ, toDigits_succ, toDigits_succ, toDigits_succ]
    simp [toDigits]
  rw [hdigits, ← hshift 24 (by decide), ← hshift 16 (by decide), ← hshift 8 (by decide), unpack]
  simp only [hbyte]
  rfl

/-- Only zero has no other digits than zeros. -/
theorem map_toDigits_eq_zeros_iff {n v : ℕ} (hv : v < 2 ^ (8 * n)) :
    (toDigits 8 n v).map UInt8.ofNat = List.replicate n 0 ↔ v = 0 := by
  have hback : ((toDigits 8 n v).map UInt8.ofNat).map UInt8.toNat = toDigits 8 n v := by
    rw [List.map_map]
    refine (List.map_congr_left fun d hd => ?_).trans (List.map_id _)
    rw [Function.comp_apply, UInt8.toNat_ofNat']
    exact Nat.mod_eq_of_lt (lt_of_mem_toDigits hd)
  have hvalue := ofDigits_toDigits 8 n v
  rw [Nat.mod_eq_of_lt hv] at hvalue
  have hzeros : ∀ k : ℕ, ofDigits 8 (List.replicate k 0) = 0 := by
    intro k
    induction k with
    | zero => rfl
    | succ k ih => rw [List.replicate_succ', ofDigits_concat, ih]; rfl
  constructor
  · intro h
    rw [h, List.map_replicate] at hback
    rw [← hvalue, ← hback]
    exact hzeros n
  · intro h
    have hlist : toDigits 8 n v = List.replicate n 0 := by
      have hround : toDigits 8 (List.replicate n 0).length (ofDigits 8 (List.replicate n 0)) =
          List.replicate n 0 :=
        toDigits_ofDigits fun d hd => by rw [List.eq_of_mem_replicate hd]; decide
      rw [List.length_replicate, hzeros] at hround
      rw [h, hround]
    rw [hlist, List.map_replicate]
    rfl

/-- The code writes half of the length field of the standard, so it pads as the standard does up
to half a gigabyte and not from there on. -/
theorem pad_eq_standardPad_iff {m : Bytes} (hm : m.length < 2 ^ 61) :
    pad m = standardPad m ↔ m.length < 2 ^ 29 := by
  obtain ⟨z, hz⟩ : ∃ z, z = (119 - m.length % 64) % 64 := ⟨_, rfl⟩
  have hzeros : 64 * (if 64 - 9 < m.length % 64 then 2 else 1) - m.length % 64 - 5 = z + 4 := by
    split_ifs
    · omega
    · omega
  have hlow : (UInt32.ofNat (8 * m.length)).toNat = 8 * m.length % 2 ^ (8 * 4) :=
    UInt32.toNat_ofNat'
  have hfield : toDigits 8 8 (8 * m.length) =
      toDigits 8 4 (8 * m.length / 2 ^ (8 * 4)) ++ toDigits 8 4 (8 * m.length) :=
    toDigits_add 8 4 4 _
  have htail : toDigits 8 4 (8 * m.length % 2 ^ (8 * 4)) = toDigits 8 4 (8 * m.length) := by
    have hround : toDigits 8 (toDigits 8 4 (8 * m.length)).length
        (ofDigits 8 (toDigits 8 4 (8 * m.length))) = toDigits 8 4 (8 * m.length) :=
      toDigits_ofDigits fun d hd => lt_of_mem_toDigits hd
    rwa [length_toDigits, ofDigits_toDigits] at hround
  rw [pad_eq, padding, standardPad, hzeros, ← hz, List.replicate_add, unpack_eq, hlow, htail,
    hfield, List.map_append, List.append_assoc, List.append_cancel_left_eq, List.cons.injEq,
    List.append_cancel_left_eq, List.append_cancel_right_eq, and_iff_right rfl, eq_comm,
    map_toDigits_eq_zeros_iff (by omega)]
  omega

theorem pad_eq_standardPad_iff_sample : pad [0x61, 0x62, 0x63] = standardPad [0x61, 0x62, 0x63] :=
  (pad_eq_standardPad_iff (by decide)).mpr (by decide)

/-- However a message is cut into pieces of up to `2 ^ 31` bytes, and whatever the buffer holds at
first, the calls stay inside their buffers and return the digest of the whole message. -/
theorem sha256Pieces_eq (block : Buffer) {pieces : List Bytes}
    (hpieces : ∀ piece ∈ pieces, piece.length ≤ 2 ^ 31) :
    sha256Pieces block pieces = .ok (digest pieces.flatten) := by
  have hrun : ∀ {ctx : Context} {m : Bytes}, Represents ctx m →
      ∃ ctx', pieces.foldlM (fun ctx piece =>
        sha256Update ctx piece (UInt32.ofNat piece.length)) ctx = .ok ctx' ∧
          Represents ctx' (m ++ pieces.flatten) := by
    induction pieces with
    | nil =>
        intro ctx m h
        exact ⟨ctx, rfl, by rwa [List.flatten_nil, List.append_nil]⟩
    | cons piece pieces ih =>
        intro ctx m h
        have hp := hpieces piece List.mem_cons_self
        have hlen : (UInt32.ofNat piece.length).toNat = piece.length := by
          rw [UInt32.toNat_ofNat']
          omega
        obtain ⟨ctx₁, hstep, h₁⟩ : ∃ ctx₁,
            sha256Update ctx piece (UInt32.ofNat piece.length) = .ok ctx₁ ∧
              Represents ctx₁ (m ++ piece) := by
          by_cases hshort : ctx.len.toNat + piece.length < 64
          · exact h.update_short hlen hshort
          · exact h.update_long hlen (Nat.not_lt.mp hshort) hp
        obtain ⟨ctx', hrest, h'⟩ := ih (fun p hmem => hpieces p (List.mem_cons_of_mem _ hmem)) h₁
        refine ⟨ctx', ?_, ?_⟩
        · rw [List.foldlM_cons, hstep]
          exact hrest
        · rwa [List.flatten_cons, ← List.append_assoc]
  obtain ⟨ctx, hctx, h⟩ := hrun (.init block)
  rw [List.nil_append] at h
  simp only [sha256Pieces, hctx, bind, Except.bind, h.final]

theorem sha256Pieces_eq_sample :
    sha256Pieces ⟨List.replicate 128 0xFF, List.length_replicate⟩ [[0x61], [], [0x62, 0x63]] =
      .ok (digest [0x61, 0x62, 0x63]) :=
  sha256Pieces_eq _ (by decide)

end Sha2
end SlpGraphSearch
