import SlpGraphSearch.Bytes

/-!
# The vendored SHA-256

Transaction and block identifiers are double SHA-256 digests computed by the
vendored `sha2.cpp`. The digest is embedded as the code computes it: big-endian
packing, the message schedule extended from sixteen words, sixty-four rounds
for each block, and a final block that carries the bit length in its last four
bytes, reduced modulo `2 ^ 32` as `unsigned int` arithmetic does.

The digest makes concrete transactions and blocks computable. What is proved about
it is in the modules on the context of `sha2.cpp` and on the statements that the
oracle signs; elsewhere only its type matters.
-/
namespace SlpGraphSearch

namespace Sha2

def rotr (x : UInt32) (n : UInt32) : UInt32 := (x >>> n) ||| (x <<< (32 - n))
def ch (x y z : UInt32) : UInt32 := (x &&& y) ^^^ (~~~x &&& z)
def maj (x y z : UInt32) : UInt32 := (x &&& y) ^^^ (x &&& z) ^^^ (y &&& z)
def f1 (x : UInt32) : UInt32 := rotr x 2 ^^^ rotr x 13 ^^^ rotr x 22
def f2 (x : UInt32) : UInt32 := rotr x 6 ^^^ rotr x 11 ^^^ rotr x 25
def f3 (x : UInt32) : UInt32 := rotr x 7 ^^^ rotr x 18 ^^^ (x >>> 3)
def f4 (x : UInt32) : UInt32 := rotr x 17 ^^^ rotr x 19 ^^^ (x >>> 10)

def h0 : List UInt32 :=
  [0x6a09e667,0xbb67ae85,0x3c6ef372,0xa54ff53a,
   0x510e527f,0x9b05688c,0x1f83d9ab,0x5be0cd19]

def k : List UInt32 :=
  [0x428a2f98,0x71374491,0xb5c0fbcf,0xe9b5dba5,
   0x3956c25b,0x59f111f1,0x923f82a4,0xab1c5ed5,
   0xd807aa98,0x12835b01,0x243185be,0x550c7dc3,
   0x72be5d74,0x80deb1fe,0x9bdc06a7,0xc19bf174,
   0xe49b69c1,0xefbe4786,0x0fc19dc6,0x240ca1cc,
   0x2de92c6f,0x4a7484aa,0x5cb0a9dc,0x76f988da,
   0x983e5152,0xa831c66d,0xb00327c8,0xbf597fc7,
   0xc6e00bf3,0xd5a79147,0x06ca6351,0x14292967,
   0x27b70a85,0x2e1b2138,0x4d2c6dfc,0x53380d13,
   0x650a7354,0x766a0abb,0x81c2c92e,0x92722c85,
   0xa2bfe8a1,0xa81a664b,0xc24b8b70,0xc76c51a3,
   0xd192e819,0xd6990624,0xf40e3585,0x106aa070,
   0x19a4c116,0x1e376c08,0x2748774c,0x34b0bcb5,
   0x391c0cb3,0x4ed8aa4a,0x5b9cca4f,0x682e6ff3,
   0x748f82ee,0x78a5636f,0x84c87814,0x8cc70208,
   0x90befffa,0xa4506ceb,0xbef9a3f7,0xc67178f2]

/-- `PACK32` over a block: big-endian words. -/
def pack : List UInt8 → List UInt32
  | a::b::c::d::rest =>
      ((d.toUInt32 ||| (c.toUInt32 <<< 8) ||| (b.toUInt32 <<< 16) ||| (a.toUInt32 <<< 24))) ::
        pack rest
  | _ => []

/-- `UNPACK32`. -/
def unpack (x : UInt32) : List UInt8 :=
  [(x >>> 24).toUInt8,(x >>> 16).toUInt8,(x >>> 8).toUInt8,x.toUInt8]

/-- `SHA256_SCR`, with the words so far held most recent first. -/
def schedule : ℕ → List UInt32 → List UInt32
  | 0,w => w
  | n+1,w => schedule n
      ((f4 (w.getD 1 0)+w.getD 6 0+f3 (w.getD 14 0)+w.getD 15 0)::w)

structure Working where
  a : UInt32
  b : UInt32
  c : UInt32
  d : UInt32
  e : UInt32
  f : UInt32
  g : UInt32
  h : UInt32

def round (s : Working) (kw : UInt32 × UInt32) : Working :=
  let t1 := s.h+f2 s.e+ch s.e s.f s.g+kw.1+kw.2
  let t2 := f1 s.a+maj s.a s.b s.c
  ⟨t1+t2,s.a,s.b,s.c,s.d+t1,s.e,s.f,s.g⟩

/-- One iteration of `sha256_transf`. -/
def transf (h : List UInt32) (block : List UInt8) : List UInt32 :=
  let w := (schedule 48 (pack block).reverse).reverse
  let s := (k.zip w).foldl round
    ⟨h.getD 0 0,h.getD 1 0,h.getD 2 0,h.getD 3 0,h.getD 4 0,h.getD 5 0,h.getD 6 0,h.getD 7 0⟩
  List.zipWith (fun x y => x+y) h [s.a,s.b,s.c,s.d,s.e,s.f,s.g,s.h]

/-- The loop over `n` blocks of 64 bytes. -/
def blocks : ℕ → List UInt32 → List UInt8 → List UInt32
  | 0,h,_ => h
  | n+1,h,m => blocks n (transf h (m.take 64)) (m.drop 64)

/-- `sha256_final` pads the last block to one or two blocks. -/
def pad (m : List UInt8) : List UInt8 :=
  let r := m.length%64
  let blockNb := if 64-9 < r then 2 else 1
  m++0x80::(List.replicate (64*blockNb-r-5) 0++unpack (UInt32.ofNat (8*m.length)))

def digest (m : List UInt8) : List UInt8 :=
  (blocks ((pad m).length/64) h0 (pad m)).flatMap unpack

theorem transf_length {h : List UInt32} (hh : h.length = 8) (block : List UInt8) :
    (transf h block).length = 8 := by
  simp [transf, hh]

theorem blocks_length (n : ℕ) {h : List UInt32} (hh : h.length = 8) (m : List UInt8) :
    (blocks n h m).length = 8 := by
  induction n generalizing h m with
  | zero => exact hh
  | succ n ih => exact ih (transf_length hh _) _

theorem digest_length (m : List UInt8) : (digest m).length = 32 := by
  have h := blocks_length ((pad m).length/64) (h := h0) rfl (pad m)
  have hu : ∀ x ∈ blocks ((pad m).length/64) h0 (pad m), (unpack x).length = 4 := fun _ _ => rfl
  rw [digest, List.length_flatMap, List.map_congr_left hu]
  simp [h]

def sha256 (m : List UInt8) : Bhash := ⟨digest m,digest_length m⟩

/-- The digest of the digest, as every identifier is computed. -/
def sha256d (m : List UInt8) : Bhash := sha256 (sha256 m).v

end Sha2
end SlpGraphSearch
