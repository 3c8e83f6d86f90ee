import SlpGraphSearch.SlpTransaction
import Mathlib.Data.Option.Basic

/-!
# The SLP grammar and the parser's exactness

The grammar of an SLP output script in its own terms: pushes of any encoding,
whose payloads form one of the three records. The parser accepts exactly the
scripts of this grammar, decodes what the grammar says, and never reads outside
the script.

The tokenizer alone is not exact: a `PUSHDATA` whose length bytes end the script
is refused although it pushes an empty payload. No record ends in an empty
payload, so the difference never reaches an accepted script.
-/
namespace SlpGraphSearch
open Library Cursor SlpTransaction

/-- The unsigned value of big-endian bytes. -/
def beValue (bs : Bytes) : ℕ := leValue bs.reverse

/-- An opcode and its length bytes announcing a payload of `n` bytes. -/
inductive PushHeader : Bytes → ℕ → Prop
  | direct (cnt : UInt8) : 0x01 ≤ cnt → cnt ≤ 0x4B → PushHeader [cnt] cnt.toNat
  | pushdata1 (l : Bytes) : l.length = 1 → PushHeader (0x4C :: l) (leValue l)
  | pushdata2 (l : Bytes) : l.length = 2 → PushHeader (0x4D :: l) (leValue l)
  | pushdata4 (l : Bytes) : l.length = 4 → PushHeader (0x4E :: l) (leValue l)

/-- A script made of pushes only, with its payloads. -/
inductive Pushes : Bytes → List Bytes → Prop
  | nil : Pushes [] []
  | cons {h p s : Bytes} {ps : List Bytes} :
      PushHeader h p.length → Pushes s ps → Pushes (h ++ (p ++ s)) (p :: ps)

/-- A 1- or 2-byte big-endian token type. -/
def TypeField (b : Bytes) (t : UInt16) : Prop :=
  (b.length = 1 ∨ b.length = 2) ∧ beValue b = t.toNat ∧ (t = 0x01 ∨ t = 0x41 ∨ t = 0x81)

/-- An absent baton, or one byte of at least 2. -/
def BatonField (b : Bytes) : Prop :=
  b = [] ∨ b.length = 1 ∧ 2 ≤ beValue b

/-- The payload lists of the three records and the transaction each decodes to.
The token id of a GENESIS is not in the script and stays `tokenid₀`. -/
inductive SlpRecord (tokenid₀ : Tokenid) : List Bytes → SlpTransaction → Prop
  | genesis {ty ticker name uri hash baton qty : Bytes} {dec : UInt8} {t : UInt16} :
      TypeField ty t → hash.length = 0 ∨ hash.length = 32 → dec ≤ 9 → BatonField baton →
      qty.length = 8 → (t = 0x41 → dec = 0 ∧ baton = [] ∧ beValue qty = 1) →
      SlpRecord tokenid₀
        [lokadId, ty, genesisStr, ticker, name, uri, hash, [dec], baton, qty]
        ⟨tokenid₀, t, .genesis ⟨ticker, name, uri, hash, dec.toUInt32, !baton.isEmpty,
          UInt32.ofNat (beValue baton), UInt64.ofNat (beValue qty)⟩⟩
  | mint {ty id baton qty : Bytes} {t : UInt16} {tokenid : Tokenid} :
      TypeField ty t → t ≠ 0x41 → tokenid.v = id.reverse → BatonField baton →
      qty.length = 8 →
      SlpRecord tokenid₀ [lokadId, ty, mintStr, id, baton, qty]
        ⟨tokenid, t, .mint ⟨!baton.isEmpty, UInt32.ofNat (beValue baton),
          UInt64.ofNat (beValue qty)⟩⟩
  | send {ty id : Bytes} {qtys : List Bytes} {t : UInt16} {tokenid : Tokenid} :
      TypeField ty t → tokenid.v = id.reverse → 1 ≤ qtys.length → qtys.length ≤ 19 →
      (∀ q ∈ qtys, q.length = 8) →
      SlpRecord tokenid₀ (lokadId :: ty :: sendStr :: id :: qtys)
        ⟨tokenid, t, .send ⟨qtys.map fun q => UInt64.ofNat (beValue q)⟩⟩

/-- `0x6A` followed by the pushes of a record. -/
def SlpScript (tokenid₀ : Tokenid) (s : Bytes) (t : SlpTransaction) : Prop :=
  ∃ body payloads, s = 0x6A :: body ∧ Pushes body payloads ∧ SlpRecord tokenid₀ payloads t

/-! ## The tokenizer -/

private theorem extract_ok {n : ℕ} {it : Bytes} (h : n ≤ it.length) {α : Type}
    (f : Bytes → α) :
    (do let b ← take n; pure (f b) : Cursor α) it = .ok (f (it.take n), it.drop n) := by
  simp [take_ok h, Except.bind]

private theorem leValue_take_lt {n : ℕ} {it : Bytes} (h : n ≤ it.length) :
    leValue (it.take n) < 256 ^ n := by
  have hv := leValue_lt (it.take n)
  rwa [List.length_take, Nat.min_eq_left h] at hv

/-- Each of the three length extractions reads the value of its bytes. -/
theorem extractU8_ok (it : Bytes) (h : 1 ≤ it.length) :
    ∃ n : UInt8, extractU8 it = .ok (n, it.drop 1) ∧ n.toNat = leValue (it.take 1) := by
  have hv := leValue_take_lt h
  refine ⟨_, extract_ok h _, ?_⟩
  rw [UInt8.toNat_ofNat']
  omega

theorem extractU16_ok (it : Bytes) (h : 2 ≤ it.length) :
    ∃ n : UInt16, extractU16 it = .ok (n, it.drop 2) ∧ n.toNat = leValue (it.take 2) := by
  have hv := leValue_take_lt h
  refine ⟨_, extract_ok h _, ?_⟩
  rw [UInt16.toNat_ofNat']
  omega

theorem extractU32_ok (it : Bytes) (h : 4 ≤ it.length) :
    ∃ n : UInt32, extractU32 it = .ok (n, it.drop 4) ∧ n.toNat = leValue (it.take 4) := by
  have hv := leValue_take_lt h
  refine ⟨_, extract_ok h _, ?_⟩
  rw [UInt32.toNat_ofNat']
  omega

/-- One step of the tokenizer either gives up in place or reads the header of a
push. -/
theorem extractPushdata_spec (it : Bytes) :
    extractPushdata it = .ok (none, it) ∨
      ∃ h len rest, it = h ++ rest ∧ PushHeader h len ∧
        extractPushdata it = .ok (some len, rest) := by
  cases it with
  | nil => exact .inl rfl
  | cons cnt next =>
      simp only [extractPushdata, reduceCtorEq, if_false]
      rw [extractU8_cons]
      simp only [Except.bind, bind]
      split_ifs with h₁ h₂ h₃ h₄ h₅ h₆ h₇ h₈
      · exact .inl rfl
      · refine .inr ⟨[cnt], cnt.toNat, next, rfl, .direct cnt ?_ ?_, rfl⟩
        · have := h₁.1
          simp only [UInt8.lt_iff_toNat_lt, UInt8.le_iff_toNat_le] at this ⊢
          exact this
        · have := h₁.2
          simp only [UInt8.lt_iff_toNat_lt, UInt8.le_iff_toNat_le] at this ⊢
          exact Nat.le_of_lt_succ this
      · exact .inl rfl
      · obtain ⟨n, hn, hv⟩ := extractU8_ok next (by omega)
        refine .inr ⟨cnt :: next.take 1, n.toNat, next.drop 1, ?_, ?_, by rw [hn]⟩
        · rw [List.cons_append, List.take_append_drop]
        · rw [h₃, hv]
          exact .pushdata1 _ (by rw [List.length_take]; omega)
      · exact .inl rfl
      · obtain ⟨n, hn, hv⟩ := extractU16_ok next (by omega)
        refine .inr ⟨cnt :: next.take 2, n.toNat, next.drop 2, ?_, ?_, by rw [hn]⟩
        · rw [List.cons_append, List.take_append_drop]
        · rw [h₅, hv]
          exact .pushdata2 _ (by rw [List.length_take]; omega)
      · exact .inl rfl
      · obtain ⟨n, hn, hv⟩ := extractU32_ok next (by omega)
        refine .inr ⟨cnt :: next.take 4, n.toNat, next.drop 4, ?_, ?_, by rw [hn]⟩
        · rw [List.cons_append, List.take_append_drop]
        · rw [h₇, hv]
          exact .pushdata4 _ (by rw [List.length_take]; omega)
      · exact .inl rfl

/-- Conversely a header is read whenever its payload fits and something follows
it; only an empty payload at the end of the script is missed. -/
theorem extractPushdata_header {h : Bytes} {len : ℕ} (hh : PushHeader h len) {rest : Bytes}
    (hlen : len ≤ rest.length) (hrest : rest ≠ []) :
    extractPushdata (h ++ rest) = .ok (some len, rest) := by
  have hpos : 0 < rest.length := List.length_pos_of_ne_nil hrest
  cases hh with
  | direct cnt h₁ h₂ =>
      have hc : 0x00 < cnt ∧ cnt < 0x4C := by
        simp only [UInt8.lt_iff_toNat_lt, UInt8.le_iff_toNat_le] at h₁ h₂ ⊢
        exact ⟨h₁, Nat.lt_succ_of_le h₂⟩
      have hn : ¬ rest.length < cnt.toNat := by omega
      simp [extractPushdata, extractU8_cons, Except.bind, bind, hc, hn]
  | pushdata1 l hl =>
      obtain ⟨n, hn, hv⟩ := extractU8_ok (l ++ rest) (by simp [hl])
      rw [← hl, List.take_left] at hv
      rw [← hl, List.drop_left] at hn
      have h' : ¬ (l ++ rest).length ≤ 1 := by
        simp only [List.length_append]
        omega
      simp only [List.length_append] at h'
      simp [extractPushdata, extractU8_cons, Except.bind, bind, h', hn, hv]
  | pushdata2 l hl =>
      obtain ⟨n, hn, hv⟩ := extractU16_ok (l ++ rest) (by simp [hl])
      rw [← hl, List.take_left] at hv
      rw [← hl, List.drop_left] at hn
      have h' : ¬ (l ++ rest).length ≤ 2 := by
        simp only [List.length_append]
        omega
      simp only [List.length_append] at h'
      simp [extractPushdata, extractU8_cons, Except.bind, bind, h', hn, hv]
  | pushdata4 l hl =>
      obtain ⟨n, hn, hv⟩ := extractU32_ok (l ++ rest) (by simp [hl])
      rw [← hl, List.take_left] at hv
      rw [← hl, List.drop_left] at hn
      have h' : ¬ (l ++ rest).length ≤ 4 := by
        simp only [List.length_append]
        omega
      simp only [List.length_append] at h'
      simp [extractPushdata, extractU8_cons, Except.bind, bind, h', hn, hv]

theorem PushHeader.length_pos {h : Bytes} {len : ℕ} (hh : PushHeader h len) :
    0 < h.length := by
  cases hh <;> simp

theorem extractString_ok {len : ℕ} {it : Bytes} (h : len ≤ it.length) :
    extractString len it = .ok (some (it.take len), it.drop len) := by
  rw [extractString, if_neg (by omega), take_ok h]
  rfl

theorem extractString_short {len : ℕ} {it : Bytes} (h : it.length < len) :
    extractString len it = .ok (none, it) := if_pos h

/-- With a bound above the remaining length the chunk loop ends by itself: it
refuses, or it returns the payloads of the pushes it consumed. -/
theorem extractChunks_spec (fuel : ℕ) (chunks : List Bytes) (it : Bytes)
    (hfuel : it.length < fuel) :
    extractChunks fuel chunks it = .error .refuse ∨
      ∃ s ps rest, it = s ++ rest ∧ Pushes s ps ∧
        extractChunks fuel chunks it = .ok (chunks ++ ps, rest) ∧
        (chunks = [] → ∀ p ∈ ps.head?, p = lokadId) := by
  induction fuel generalizing chunks it with
  | zero => omega
  | succ fuel ih =>
      rw [extractChunks]
      rcases extractPushdata_spec it with he | ⟨h, len, next, rfl, hh, he⟩
      · exact .inr ⟨[], [], it, rfl, .nil, by simp [he, bind, Except.bind], by simp⟩
      · simp only [he, bind, Except.bind]
        rcases Nat.lt_or_ge next.length len with hl | hl
        · exact .inl (by simp [extractString_short hl])
        · simp only [extractString_ok hl]
          split_ifs with hc
          · exact .inl rfl
          · have hpos := hh.length_pos
            have hlt : (next.drop len).length < fuel := by
              simp only [List.length_append, List.length_drop] at hfuel ⊢
              omega
            have htake : (next.take len).length = len := by
              rw [List.length_take, Nat.min_eq_left hl]
            rcases ih (chunks ++ [next.take len]) _ hlt with hr | ⟨s, ps, rest, hs, hp, hr, -⟩
            · exact .inl hr
            · refine .inr ⟨h ++ (next.take len ++ s), next.take len :: ps, rest, ?_, ?_, ?_, ?_⟩
              · rw [List.append_assoc, List.append_assoc, ← hs, List.take_append_drop]
              · exact .cons (by rwa [htake]) hp
              · rw [hr, List.append_assoc]
                rfl
              · rintro rfl p hp'
                simp only [List.head?_cons, Option.mem_def, Option.some.injEq] at hp'
                subst hp'
                by_contra hne
                exact hc ⟨rfl, hne⟩

/-- The chunk loop reads a whole script of pushes, provided the last payload is
not empty and the first is the lokad id. -/
theorem extractChunks_pushes {s : Bytes} {ps : List Bytes} (hp : Pushes s ps) (fuel : ℕ)
    (chunks : List Bytes) (hfuel : s.length < fuel) (hlast : ∀ p ∈ ps.getLast?, p ≠ [])
    (hfirst : chunks = [] → ∀ p ∈ ps.head?, p = lokadId) :
    extractChunks fuel chunks s = .ok (chunks ++ ps, []) := by
  induction hp generalizing fuel chunks with
  | nil =>
      cases fuel with
      | zero => omega
      | succ fuel => simp [extractChunks, extractPushdata, bind, Except.bind]
  | @cons h p s ps hh hps ih =>
      cases fuel with
      | zero => omega
      | succ fuel =>
          have hne : p ++ s ≠ [] := by
            cases hps with
            | nil =>
                have := hlast p (by simp)
                simpa using this
            | cons hh' _ =>
                intro he
                have h₁ := congrArg List.length he
                have h₂ := hh'.length_pos
                simp only [List.length_append, List.length_nil] at h₁
                omega
          have hlen : p.length ≤ (p ++ s).length := by simp
          have hpos := hh.length_pos
          have hlt : s.length < fuel := by
            simp only [List.length_append] at hfuel
            omega
          have hfst : ¬ ((chunks ++ [p]).length = 1 ∧ p ≠ lokadId) := by
            rintro ⟨h₁, h₂⟩
            have hnil : chunks = [] := by
              rw [List.length_append, List.length_singleton] at h₁
              exact List.eq_nil_of_length_eq_zero (by omega)
            exact h₂ (hfirst hnil p (by simp))
          have hl : ∀ q ∈ ps.getLast?, q ≠ [] := by
            intro q hq
            apply hlast q
            cases ps with
            | nil => simp at hq
            | cons a as => simpa [List.getLast?_cons_cons] using hq
          rw [extractChunks]
          simp only [extractPushdata_header hh hlen hne, bind, Except.bind,
            extractString_ok hlen, List.take_left, List.drop_left, hfst, if_false]
          rw [ih fuel (chunks ++ [p]) hlt hl (by simp)]
          simp

theorem Pushes.length_le {s : Bytes} {ps : List Bytes} (hp : Pushes s ps) :
    (ps.map fun p => p.length + 1).sum ≤ s.length := by
  induction hp with
  | nil => simp
  | cons hh _ ih =>
      have := hh.length_pos
      simp only [List.map_cons, List.sum_cons, List.length_append]
      omega

/-- Every record has at least nine bytes of pushes, starts with the lokad id and
ends in an 8-byte payload. -/
theorem SlpRecord.shape {tokenid₀ : Tokenid} {ps : List Bytes} {t : SlpTransaction}
    (h : SlpRecord tokenid₀ ps t) :
    9 ≤ (ps.map fun p => p.length + 1).sum ∧ ps.head? = some lokadId ∧
      ∀ p ∈ ps.getLast?, p.length = 8 := by
  have hlokad : lokadId.length = 4 := rfl
  cases h with
  | genesis hty hhash hdec hbaton hqty hchild =>
      refine ⟨?_, rfl, ?_⟩
      · simp only [List.map_cons, List.sum_cons, hlokad]
        omega
      · intro p hp
        obtain rfl := Option.some.inj hp
        exact hqty
  | mint hty hne hid hbaton hqty =>
      refine ⟨?_, rfl, ?_⟩
      · simp only [List.map_cons, List.sum_cons, hlokad]
        omega
      · intro p hp
        obtain rfl := Option.some.inj hp
        exact hqty
  | @send ty id qtys t tokenid hty hid h₁ h₂ h₈ =>
      refine ⟨by simp [lokadId, sendStr]; omega, rfl, ?_⟩
      intro p hp
      have hne : qtys ≠ [] := List.ne_nil_of_length_pos h₁
      obtain ⟨q, qs, rfl⟩ := List.exists_cons_of_ne_nil hne
      simp only [List.getLast?_cons_cons] at hp
      exact h₈ p (List.mem_of_getLast? hp)

/-- Splitting a script into chunks ends in a list or in a refusal. -/
theorem parseChunks_total (s : Bytes) :
    parseChunks s = .error .refuse ∨ ∃ ps body, s = 0x6A :: body ∧ Pushes body ps ∧
      parseChunks s = .ok ps ∧ ∀ p ∈ ps.head?, p = lokadId := by
  cases s with
  | nil => exact .inl rfl
  | cons b it =>
      simp only [parseChunks, reduceCtorEq, if_false]
      rw [extractU8_cons]
      simp only [bind, Except.bind]
      split_ifs with h₁ h₂
      · exact .inl rfl
      · exact .inl rfl
      · rcases extractChunks_spec (b :: it).length [] it (by simp) with
          hr | ⟨s, ps, rest, rfl, hp, hr, hf⟩
        · exact .inl (by rw [hr])
        · rw [hr]
          simp only [List.nil_append]
          split_ifs with h₃
          · exact .inl rfl
          · simp only [ne_eq, not_not] at h₁ h₃
            subst h₁ h₃
            exact .inr ⟨ps, s, by simp, hp, rfl, hf rfl⟩

theorem parseChunks_record {tokenid₀ : Tokenid} {body : Bytes} {ps : List Bytes}
    {t : SlpTransaction} (hp : Pushes body ps) (ht : SlpRecord tokenid₀ ps t) :
    parseChunks (0x6A :: body) = .ok ps := by
  obtain ⟨h₁, h₂, h₃⟩ := ht.shape
  have hlen := hp.length_le
  have h₁₀ : ¬ (0x6A :: body).length < 10 := by
    simp only [List.length_cons]
    omega
  have hch := extractChunks_pushes hp ((0x6A : UInt8) :: body).length [] (by simp)
    (fun p hp' he => by simpa [he] using h₃ p hp') (by simp [h₂])
  simp only [parseChunks, reduceCtorEq, if_false]
  rw [extractU8_cons]
  simp only [bind, Except.bind, ne_eq, not_true_eq_false, if_false, h₁₀, hch, List.nil_append]

/-! ## The records -/

theorem stringToNumber_eq {s : Bytes} (h : s.length = 1 ∨ s.length = 2 ∨ s.length = 8) :
    stringToNumber s = some (UInt64.ofNat (leValue s)) := by
  unfold stringToNumber
  rw [if_pos (by tauto)]

theorem parseQty_iff {s : Bytes} {n : UInt64} :
    parseQty s = some n ↔ s.length = 8 ∧ n = UInt64.ofNat (beValue s) := by
  unfold parseQty
  split_ifs with h
  · simp only [false_iff, not_and]
    exact fun h' => absurd h' h
  · rw [not_not] at h
    rw [stringToNumber_eq (by simp [h])]
    simp only [Option.some.injEq, h, true_and, beValue]
    exact eq_comm

theorem parseTokenid_iff {s : Bytes} {t : Tokenid} :
    parseTokenid s = some t ↔ t.v = s.reverse := by
  unfold parseTokenid
  split_ifs with h
  · simp only [Option.some.injEq]
    constructor
    · rintro rfl
      rfl
    · exact fun ht => Bhash.ext_v ht.symm
  · simp only [false_iff]
    intro ht
    exact h (ht ▸ t.size_eq)

theorem parseMintBatonVout_iff {s : Bytes} {r : Bool × UInt32} :
    parseMintBatonVout s = some r ↔
      BatonField s ∧ r = (!s.isEmpty, UInt32.ofNat (beValue s)) := by
  match s with
  | [] => simp [parseMintBatonVout, BatonField, beValue, leValue, eq_comm]
  | [b] =>
      have hb := b.toNat_lt
      have hn : stringToNumber [b] = some (UInt64.ofNat b.toNat) := by
        rw [stringToNumber_eq (by simp)]
        simp [leValue]
      have hv : (UInt64.ofNat b.toNat).toUInt32 = UInt32.ofNat b.toNat := by
        apply UInt32.toNat_inj.mp
        simp only [UInt64.toNat_toUInt32, UInt64.toNat_ofNat', UInt32.toNat_ofNat']
        omega
      have hlt : ¬ UInt32.ofNat b.toNat < 2 ↔ 2 ≤ b.toNat := by
        rw [UInt32.lt_iff_toNat_lt, UInt32.toNat_ofNat']
        simp only [UInt32.reduceToNat]
        omega
      simp only [parseMintBatonVout, List.length_singleton, Nat.not_ofNat_le_one, if_false,
        ne_eq, reduceCtorEq, not_false_eq_true, if_true, hn, Option.bind_eq_bind,
        Option.bind_some, hv, BatonField, beValue, List.reverse_singleton, leValue,
        List.isEmpty_cons, Bool.not_false, mul_zero, add_zero, false_or, true_and,
        Option.bind_eq_some_iff, Option.guard_eq_some', exists_const, hlt, Option.pure_def,
        Option.some.injEq]
      rw [eq_comm (a := r)]
  | a :: b :: s => simp [parseMintBatonVout, BatonField]

theorem parseTokenType_iff {chunks : List Bytes} {t : UInt16} {cit : ChunkIt} :
    parseTokenType chunks = some (t, cit) ↔
      ∃ c ty, chunks = c :: ty :: cit.1 :: cit.2 ∧ TypeField ty t := by
  match chunks with
  | [] => simp [parseTokenType]
  | [c] => simp [parseTokenType, checkNext]
  | [c, ty] => simp [parseTokenType, checkNext]
  | c :: ty :: a :: rest =>
      obtain ⟨c₁, c₂⟩ := cit
      have hval : (ty.length = 1 ∨ ty.length = 2) →
          (UInt64.ofNat (beValue ty)).toUInt16.toNat = beValue ty := by
        intro h
        have hv := leValue_lt ty.reverse
        rw [List.length_reverse] at hv
        have h₂ : leValue ty.reverse < 2 ^ 16 := by
          rcases h with h | h <;> rw [h] at hv <;> omega
        simp only [UInt64.toNat_toUInt16, UInt64.toNat_ofNat', beValue]
        omega
      simp only [parseTokenType, checkNext, Option.bind_eq_bind, Option.bind_some,
        Option.bind_eq_some_iff, Option.guard_eq_some', exists_const, List.length_reverse,
        Option.pure_def, Option.some.injEq, Prod.mk.injEq, List.cons.injEq]
      constructor
      · rintro ⟨hl, n, hn, ht, rfl, rfl, rfl⟩
        rw [stringToNumber_eq (by rw [List.length_reverse]; tauto), Option.some.injEq] at hn
        subst hn
        exact ⟨c, ty, ⟨rfl, rfl, rfl, rfl⟩, hl, (hval hl).symm, ht⟩
      · rintro ⟨c', ty', ⟨rfl, rfl, rfl, rfl⟩, hl, hb, ht⟩
        have hteq : (UInt64.ofNat (beValue ty)).toUInt16 = t := by
          apply UInt16.toNat_inj.mp
          rw [hval hl, hb]
        exact ⟨hl, _, stringToNumber_eq (by rw [List.length_reverse]; tauto),
          hteq.symm ▸ ht, hteq, rfl, rfl⟩

theorem parseDecimals_iff {s : Bytes} {n : UInt64} :
    (s.length = 1 ∧ stringToNumber s = some n ∧ n ≤ 9) ↔
      ∃ dec : UInt8, s = [dec] ∧ dec ≤ 9 ∧ n = dec.toUInt64 := by
  constructor
  · rintro ⟨hl, hn, h9⟩
    obtain ⟨d, rfl⟩ := List.length_eq_one_iff.mp hl
    rw [stringToNumber_eq (by simp), Option.some.injEq] at hn
    subst hn
    have hv : UInt64.ofNat (leValue [d]) = d.toUInt64 := by simp [leValue]
    rw [hv] at h9 ⊢
    refine ⟨d, rfl, ?_, rfl⟩
    rw [UInt64.le_iff_toNat_le, UInt8.toNat_toUInt64] at h9
    rw [UInt8.le_iff_toNat_le]
    exact h9
  · rintro ⟨d, rfl, h9, rfl⟩
    refine ⟨rfl, ?_, ?_⟩
    · rw [stringToNumber_eq (by simp)]
      simp [leValue]
    · rw [UInt8.le_iff_toNat_le] at h9
      rw [UInt64.le_iff_toNat_le, UInt8.toNat_toUInt64]
      exact h9

/-- The parser's form of the NFT child restrictions on decoded fields. -/
theorem child_restrictions {dec : UInt8} {baton qty : Bytes} (hb : BatonField baton)
    (hq : qty.length = 8) :
    (dec.toUInt64 = 0 ∧ UInt32.ofNat (beValue baton) = 0 ∧ UInt64.ofNat (beValue qty) = 1) ↔
      dec = 0 ∧ baton = [] ∧ beValue qty = 1 := by
  have h₁ : dec.toUInt64 = 0 ↔ dec = 0 := by
    rw [← UInt64.toNat_inj, ← UInt8.toNat_inj, UInt8.toNat_toUInt64]
    rfl
  have h₂ : UInt32.ofNat (beValue baton) = 0 ↔ baton = [] := by
    rcases hb with rfl | ⟨hl, h2⟩
    · simp [beValue, leValue]
    · obtain ⟨b, rfl⟩ := List.length_eq_one_iff.mp hl
      have hb := b.toNat_lt
      simp only [beValue, List.reverse_singleton, leValue, mul_zero, add_zero] at h2 ⊢
      rw [← UInt32.toNat_inj, UInt32.toNat_ofNat']
      simp only [UInt32.toNat_zero, reduceCtorEq, iff_false]
      omega
  have h₃ : UInt64.ofNat (beValue qty) = 1 ↔ beValue qty = 1 := by
    have hv := leValue_lt qty.reverse
    rw [List.length_reverse, hq] at hv
    rw [← UInt64.toNat_inj, UInt64.toNat_ofNat', beValue]
    simp only [UInt64.toNat_one]
    omega
  rw [h₁, h₂, h₃]

/-- A parser that starts with a guard succeeds only if the guard does. -/
theorem of_guard_bind {β : Type} {p : Prop} [Decidable p] {k : Unit → Option β} {b : β}
    (h : (guard p >>= k) = some b) : p := by
  by_contra hp
  simp [guard, hp] at h

theorem parseGenesis_iff {t : UInt16} {c ty a : Bytes} {rest : List Bytes}
    {s : SlpTransactionGenesis} :
    parseGenesis t (c :: ty :: a :: rest) (a, rest) = some s ↔
      ∃ ticker name uri hash dec baton qty,
        rest = [ticker, name, uri, hash, [dec], baton, qty] ∧
        (hash.length = 0 ∨ hash.length = 32) ∧ dec ≤ 9 ∧ BatonField baton ∧
        qty.length = 8 ∧ (t = 0x41 → dec = 0 ∧ baton = [] ∧ beValue qty = 1) ∧
        s = ⟨ticker, name, uri, hash, dec.toUInt32, !baton.isEmpty,
          UInt32.ofNat (beValue baton), UInt64.ofNat (beValue qty)⟩ := by
  by_cases hlen : rest.length = 7
  · match rest, hlen with
    | [ticker, name, uri, hash, d, baton, qty], _ =>
        simp only [parseGenesis, checkNext, Option.bind_eq_bind, Option.bind_some,
          Option.bind_eq_some_iff, Option.guard_eq_some', exists_const, List.length_cons,
          List.length_nil, Nat.reduceAdd, true_and, Option.pure_def, Option.some.injEq,
          parseQty_iff, parseMintBatonVout_iff, Prod.exists, Prod.mk.injEq, List.cons.injEq,
          and_true]
        constructor
        · rintro ⟨hh, hd₁, n, hn, h9, f, v, ⟨hb, rfl, rfl⟩, q, ⟨hq, rfl⟩, hc, rfl⟩
          obtain ⟨dec, rfl, hd, rfl⟩ := parseDecimals_iff.mp ⟨hd₁, hn, h9⟩
          refine ⟨ticker, name, uri, hash, dec, baton, qty, ⟨rfl, rfl, rfl, rfl, rfl, rfl, rfl⟩,
            hh, hd, hb, hq, ?_, by simp⟩
          exact fun ht => (child_restrictions hb hq).mp (hc ht)
        · rintro ⟨_, _, _, _, dec, _, _, ⟨rfl, rfl, rfl, rfl, rfl, rfl, rfl⟩, hh, hd, hb, hq, hc,
            rfl⟩
          obtain ⟨hd₁, hn, h9⟩ := parseDecimals_iff.mpr ⟨dec, rfl, hd, rfl⟩
          exact ⟨hh, hd₁, _, hn, h9, _, _, ⟨hb, rfl, rfl⟩, _, ⟨hq, rfl⟩,
            fun ht => (child_restrictions hb hq).mpr (hc ht), by simp⟩
  · constructor
    · intro h
      unfold parseGenesis at h
      have h10 := of_guard_bind h
      simp only [List.length_cons] at h10
      omega
    · rintro ⟨_, _, _, _, _, _, _, rfl, -⟩
      exact absurd rfl hlen

theorem parseMint_iff {t : UInt16} {c ty a : Bytes} {rest : List Bytes}
    {r : Tokenid × SlpTransactionMint} :
    parseMint t (c :: ty :: a :: rest) (a, rest) = some r ↔
      ∃ id baton qty, rest = [id, baton, qty] ∧ t ≠ 0x41 ∧ r.1.v = id.reverse ∧
        BatonField baton ∧ qty.length = 8 ∧
        r.2 = ⟨!baton.isEmpty, UInt32.ofNat (beValue baton), UInt64.ofNat (beValue qty)⟩ := by
  obtain ⟨tokenid, m⟩ := r
  by_cases hlen : rest.length = 3
  · match rest, hlen with
    | [id, baton, qty], _ =>
        have hle : BatonField baton → UInt32.ofNat (beValue baton) ≤ 0xFF := by
          rintro (rfl | ⟨hl, -⟩)
          · simp [beValue, leValue]
          · obtain ⟨b, rfl⟩ := List.length_eq_one_iff.mp hl
            have hb := b.toNat_lt
            rw [UInt32.le_iff_toNat_le, UInt32.toNat_ofNat']
            simp only [beValue, List.reverse_singleton, leValue, mul_zero, add_zero,
              UInt32.reduceToNat]
            omega
        simp only [parseMint, checkNext, Option.bind_eq_bind, Option.bind_some,
          Option.bind_eq_some_iff, Option.guard_eq_some', exists_const, List.length_cons,
          List.length_nil, Nat.reduceAdd, true_and, Option.pure_def, Option.some.injEq,
          parseQty_iff, parseMintBatonVout_iff, parseTokenid_iff, Prod.exists, Prod.mk.injEq,
          List.cons.injEq, and_true]
        constructor
        · rintro ⟨ht, i, hi, f, v, ⟨hb, rfl, rfl⟩, -, q, ⟨hq, rfl⟩, rfl, rfl⟩
          exact ⟨id, baton, qty, ⟨rfl, rfl, rfl⟩, ht, hi, hb, hq, rfl⟩
        · rintro ⟨_, _, _, ⟨rfl, rfl, rfl⟩, ht, hi, hb, hq, rfl⟩
          exact ⟨ht, _, hi, _, _, ⟨hb, rfl, rfl⟩, hle hb, _, ⟨hq, rfl⟩, rfl, rfl⟩
  · constructor
    · intro h
      simp only [parseMint, Option.bind_eq_bind, Option.bind_eq_some_iff,
        Option.guard_eq_some', List.length_cons] at h
      obtain ⟨-, -, -, h6, -⟩ := h
      omega
    · rintro ⟨_, _, _, rfl, -⟩
      exact absurd rfl hlen

theorem mapM_parseQty_iff {qtys : List Bytes} {ns : List UInt64} :
    qtys.mapM parseQty = some ns ↔
      (∀ q ∈ qtys, q.length = 8) ∧ ns = qtys.map fun q => UInt64.ofNat (beValue q) := by
  induction qtys generalizing ns with
  | nil => simp [eq_comm]
  | cons q qs ih =>
      simp only [List.mapM_cons, Option.bind_eq_bind, Option.bind_eq_some_iff, parseQty_iff, ih,
        Option.pure_def, Option.some.injEq, List.forall_mem_cons, List.map_cons]
      constructor
      · rintro ⟨n, ⟨hq, rfl⟩, ns, ⟨hqs, rfl⟩, rfl⟩
        exact ⟨⟨hq, hqs⟩, rfl⟩
      · rintro ⟨⟨hq, hqs⟩, rfl⟩
        exact ⟨_, ⟨hq, rfl⟩, _, ⟨hqs, rfl⟩, rfl⟩

theorem parseSend_iff {c ty a : Bytes} {rest : List Bytes}
    {r : Tokenid × SlpTransactionSend} :
    parseSend (c :: ty :: a :: rest) (a, rest) = some r ↔
      ∃ id qtys, rest = id :: qtys ∧ r.1.v = id.reverse ∧ 1 ≤ qtys.length ∧
        qtys.length ≤ 19 ∧ (∀ q ∈ qtys, q.length = 8) ∧
        r.2 = ⟨qtys.map fun q => UInt64.ofNat (beValue q)⟩ := by
  obtain ⟨tokenid, m⟩ := r
  match rest with
  | [] => simp [parseSend, checkNext]
  | [id] => simp [parseSend, checkNext]
  | id :: q :: qs =>
      simp only [parseSend, checkNext, Option.bind_eq_bind, Option.bind_some,
        Option.bind_eq_some_iff, Option.guard_eq_some', exists_const, Option.pure_def,
        Option.some.injEq, parseTokenid_iff, mapM_parseQty_iff, Prod.mk.injEq,
        List.cons.injEq]
      constructor
      · rintro ⟨-, i, hi, ns, ⟨h8, rfl⟩, h0, h19, rfl, rfl⟩
        rw [List.length_map] at h19
        exact ⟨id, q :: qs, ⟨rfl, rfl⟩, hi, by simp, h19, h8, rfl⟩
      · rintro ⟨_, _, ⟨rfl, rfl⟩, hi, -, h19, h8, rfl⟩
        exact ⟨by simp, _, hi, _, ⟨h8, rfl⟩, by simp, by rwa [List.length_map], rfl, rfl⟩

/-- The record parsers together accept exactly the records of the grammar. -/
theorem parseAction_iff (this : SlpTransaction) {ps : List Bytes} {t : SlpTransaction}
    (hfirst : ∀ p ∈ ps.head?, p = lokadId) :
    (∃ tokenType cit, parseTokenType ps = some (tokenType, cit) ∧
      parseAction { this with tokenType := tokenType } ps cit = some t) ↔
      SlpRecord this.tokenid ps t := by
  constructor
  · rintro ⟨tokenType, ⟨a, rest⟩, hty, hact⟩
    obtain ⟨c, ty, rfl, htf⟩ := parseTokenType_iff.mp hty
    obtain rfl : c = lokadId := hfirst c rfl
    simp only [parseAction] at hact
    split_ifs at hact with h₁ h₂ h₃
    · simp only [Option.map_eq_some_iff, parseGenesis_iff] at hact
      obtain ⟨_, ⟨_, _, _, _, _, _, _, rfl, hh, hd, hb, hq, hc, rfl⟩, rfl⟩ := hact
      obtain rfl : a = genesisStr := h₁
      exact .genesis htf hh hd hb hq hc
    · simp only [Option.map_eq_some_iff, parseMint_iff] at hact
      obtain ⟨⟨_, _⟩, ⟨_, _, _, rfl, ht, hi, hb, hq, rfl⟩, rfl⟩ := hact
      obtain rfl : a = mintStr := h₂
      exact .mint htf ht hi hb hq
    · simp only [Option.map_eq_some_iff, parseSend_iff] at hact
      obtain ⟨⟨_, _⟩, ⟨_, _, rfl, hi, hp, h19, h8, rfl⟩, rfl⟩ := hact
      obtain rfl : a = sendStr := h₃
      exact .send htf hi hp h19 h8
  · rintro h
    cases h with
    | @genesis ty ticker name uri hash baton qty dec tt hty hh hd hb hq hc =>
        refine ⟨tt, (genesisStr, _), parseTokenType_iff.mpr ⟨_, ty, rfl, hty⟩, ?_⟩
        simp only [parseAction, if_true, Option.map_eq_some_iff, parseGenesis_iff]
        exact ⟨_, ⟨ticker, name, uri, hash, dec, baton, qty, rfl, hh, hd, hb, hq, hc, rfl⟩, rfl⟩
    | @mint ty id baton qty tt tokenid hty ht hi hb hq =>
        refine ⟨tt, (mintStr, _), parseTokenType_iff.mpr ⟨_, ty, rfl, hty⟩, ?_⟩
        have hne : mintStr ≠ genesisStr := by decide
        simp only [parseAction, hne, if_false, if_true, Option.map_eq_some_iff, parseMint_iff]
        exact ⟨(tokenid, _), ⟨id, baton, qty, rfl, ht, hi, hb, hq, rfl⟩, rfl⟩
    | @send ty id qtys tt tokenid hty hi hp h19 h8 =>
        refine ⟨tt, (sendStr, _), parseTokenType_iff.mpr ⟨_, ty, rfl, hty⟩, ?_⟩
        have hne₁ : sendStr ≠ genesisStr := by decide
        have hne₂ : sendStr ≠ mintStr := by decide
        simp only [parseAction, hne₁, hne₂, if_false, if_true, Option.map_eq_some_iff,
          parseSend_iff]
        exact ⟨(tokenid, _), ⟨id, qtys, rfl, hi, hp, h19, h8, rfl⟩, rfl⟩

theorem SlpScript.parseChunks {tokenid₀ : Tokenid} {s : Bytes} {t : SlpTransaction}
    (h : SlpScript tokenid₀ s t) :
    ∃ ps, parseChunks s = .ok ps ∧ SlpRecord tokenid₀ ps t := by
  obtain ⟨body, ps, rfl, hp, ht⟩ := h
  exact ⟨ps, parseChunks_record hp ht, ht⟩

/-- Once the chunks are known, hydration succeeds exactly on a record. -/
theorem hydrate_chunks (this : SlpTransaction) {s : Bytes} {ps : List Bytes}
    (hs : parseChunks s = .ok ps) (hfirst : ∀ p ∈ ps.head?, p = lokadId) :
    (∃ t, SlpRecord this.tokenid ps t ∧ hydrate this s = .ok (t, true)) ∨
      (∀ t, ¬ SlpRecord this.tokenid ps t) ∧
        ∃ t, hydrate this s = .ok (t, false) ∧ t.type = .invalid := by
  simp only [hydrate, hs]
  cases hty : parseTokenType ps with
  | none =>
      refine .inr ⟨fun t ht => ?_, _, rfl, rfl⟩
      obtain ⟨_, _, h, -⟩ := (parseAction_iff this hfirst).mpr ht
      simp [hty] at h
  | some r =>
      obtain ⟨tokenType, cit⟩ := r
      simp only
      cases hact : parseAction { this with tokenType := tokenType } ps cit with
      | none =>
          refine .inr ⟨fun t ht => ?_, _, rfl, rfl⟩
          obtain ⟨_, _, h₁, h₂⟩ := (parseAction_iff this hfirst).mpr ht
          rw [hty, Option.some.injEq, Prod.mk.injEq] at h₁
          obtain ⟨rfl, rfl⟩ := h₁
          simp [hact] at h₂
      | some t =>
          exact .inl ⟨t, (parseAction_iff this hfirst).mp ⟨_, _, hty, hact⟩, rfl⟩

/-- The parser always ends with a verdict. -/
theorem hydrate_total (this : SlpTransaction) (s : Bytes) :
    ∃ t b, hydrate this s = .ok (t, b) := by
  rcases parseChunks_total s with hr | ⟨ps, _, -, -, hs, hfirst⟩
  · simp only [hydrate, hr]
    exact ⟨_, _, rfl⟩
  · rcases hydrate_chunks this hs hfirst with ⟨t, -, h⟩ | ⟨-, t, h, -⟩
    · exact ⟨t, true, h⟩
    · exact ⟨t, false, h⟩

/-- A transaction that leaves the parser with a type is a record of the grammar. -/
theorem hydrate_record (this : SlpTransaction) {s : Bytes} {t : SlpTransaction} {b : Bool}
    (h : hydrate this s = .ok (t, b)) (ht : t.type ≠ .invalid) :
    ∃ ps, SlpRecord this.tokenid ps t := by
  rcases parseChunks_total s with hr | ⟨ps, _, -, -, hs, hfirst⟩
  · simp only [hydrate, hr, Except.ok.injEq, Prod.mk.injEq] at h
    obtain ⟨rfl, -⟩ := h
    exact absurd rfl ht
  · rcases hydrate_chunks this hs hfirst with ⟨t', ht', h'⟩ | ⟨-, t', h', hinv⟩
    · rw [h, Except.ok.injEq, Prod.mk.injEq] at h'
      exact ⟨ps, h'.1 ▸ ht'⟩
    · rw [h, Except.ok.injEq, Prod.mk.injEq] at h'
      exact absurd (h'.1 ▸ hinv) ht

/-- The parser accepts exactly the scripts of the grammar and decodes the one
transaction the grammar gives them; every other script leaves an invalid
transaction. No script makes it read outside the script or loop. -/
theorem hydrate_exact (this : SlpTransaction) (s : Bytes) :
    ∃ t accepted, hydrate this s = .ok (t, accepted) ∧
      (accepted = true ↔ ∃ t', SlpScript this.tokenid s t') ∧
      (∀ t', SlpScript this.tokenid s t' → t' = t) ∧
      (accepted = false → t.type = .invalid) := by
  rcases parseChunks_total s with hr | ⟨ps, body, rfl, hp, hs, hfirst⟩
  · have hno : ∀ t, ¬ SlpScript this.tokenid s t := by
      intro t ht
      obtain ⟨ps, h, -⟩ := ht.parseChunks
      simp [hr] at h
    refine ⟨{ this with slpTx := .invalid }, false, by simp [hydrate, hr], ?_, ?_, fun _ => rfl⟩
    · simp [hno]
    · exact fun t' ht' => absurd ht' (hno t')
  · have hrec : ∀ t', SlpScript this.tokenid (0x6A :: body) t' → SlpRecord this.tokenid ps t' := by
      intro t' ht'
      obtain ⟨ps', h, ht''⟩ := ht'.parseChunks
      rw [hs, Except.ok.injEq] at h
      exact h ▸ ht''
    rcases hydrate_chunks this hs hfirst with ⟨t, ht, h⟩ | ⟨hno, t, h, hinv⟩
    · refine ⟨t, true, h, ?_, ?_, by simp⟩
      · exact ⟨fun _ => ⟨t, body, ps, rfl, hp, ht⟩, fun _ => rfl⟩
      · intro t' ht'
        obtain ⟨_, _, h₁, h₂⟩ := (parseAction_iff this hfirst).mpr (hrec t' ht')
        obtain ⟨_, _, h₃, h₄⟩ := (parseAction_iff this hfirst).mpr ht
        rw [h₁, Option.some.injEq, Prod.mk.injEq] at h₃
        obtain ⟨rfl, rfl⟩ := h₃
        rw [h₂, Option.some.injEq] at h₄
        exact h₄
    · refine ⟨t, false, h, ?_, ?_, fun _ => hinv⟩
      · simp only [Bool.false_eq_true, false_iff, not_exists]
        exact fun t' ht' => hno t' (hrec t' ht')
      · exact fun t' ht' => absurd (hrec t' ht') (hno t')

end SlpGraphSearch
