import LuaCapsule.Text.Bytes

/-! The SHA-256 digest: padding to blocks of 64 bytes, the message schedule, and sixty-four
rounds a block. -/

namespace LuaCapsule.Sha256

def initial : Array UInt32 :=
  #[0x6a09e667, 0xbb67ae85, 0x3c6ef372, 0xa54ff53a, 0x510e527f, 0x9b05688c, 0x1f83d9ab, 0x5be0cd19]

def constants : Array UInt32 :=
  #[0x428a2f98, 0x71374491, 0xb5c0fbcf, 0xe9b5dba5, 0x3956c25b, 0x59f111f1, 0x923f82a4, 0xab1c5ed5,
    0xd807aa98, 0x12835b01, 0x243185be, 0x550c7dc3, 0x72be5d74, 0x80deb1fe, 0x9bdc06a7, 0xc19bf174,
    0xe49b69c1, 0xefbe4786, 0x0fc19dc6, 0x240ca1cc, 0x2de92c6f, 0x4a7484aa, 0x5cb0a9dc, 0x76f988da,
    0x983e5152, 0xa831c66d, 0xb00327c8, 0xbf597fc7, 0xc6e00bf3, 0xd5a79147, 0x06ca6351, 0x14292967,
    0x27b70a85, 0x2e1b2138, 0x4d2c6dfc, 0x53380d13, 0x650a7354, 0x766a0abb, 0x81c2c92e, 0x92722c85,
    0xa2bfe8a1, 0xa81a664b, 0xc24b8b70, 0xc76c51a3, 0xd192e819, 0xd6990624, 0xf40e3585, 0x106aa070,
    0x19a4c116, 0x1e376c08, 0x2748774c, 0x34b0bcb5, 0x391c0cb3, 0x4ed8aa4a, 0x5b9cca4f, 0x682e6ff3,
    0x748f82ee, 0x78a5636f, 0x84c87814, 0x8cc70208, 0x90befffa, 0xa4506ceb, 0xbef9a3f7, 0xc67178f2]

def rotate (x : UInt32) (n : UInt32) : UInt32 := (x >>> n) ||| (x <<< (32 - n))

/-- The low `count` bytes of a number, the most significant first. -/
def bigEndian (n : Nat) : Nat → List UInt8
  | 0 => []
  | count + 1 => (n >>> (8 * count)).toUInt8 :: bigEndian n count

/-- The message followed by a one bit, zeros, and its length in bits. -/
def pad (message : Bytes) : Bytes :=
  let zeros := (119 - message.size % 64) % 64
  message.push 0x80 ++ Bytes.ofList (List.replicate zeros 0 ++ bigEndian (8 * message.size) 8)

def wordAt (b : Bytes) (i : Nat) : UInt32 :=
  ((b.at0 i).toUInt32 <<< 24) ||| ((b.at0 (i + 1)).toUInt32 <<< 16)
    ||| ((b.at0 (i + 2)).toUInt32 <<< 8) ||| (b.at0 (i + 3)).toUInt32

/-- The sixty-four words of a block's schedule. -/
def schedule (block : Bytes) (start : Nat) : Array UInt32 :=
  let first := (Array.range 16).map fun i => wordAt block (start + 4 * i)
  (List.range 48).foldl (fun w i =>
    let x := w.getD (i + 1) 0
    let y := w.getD (i + 14) 0
    let s0 := rotate x 7 ^^^ rotate x 18 ^^^ (x >>> 3)
    let s1 := rotate y 17 ^^^ rotate y 19 ^^^ (y >>> 10)
    w.push (w.getD i 0 + s0 + w.getD (i + 9) 0 + s1)) first

/-- The working variables of the rounds. -/
structure Working where
  (a b c d e f g h : UInt32)

def round (s : Working) (k w : UInt32) : Working :=
  let s1 := rotate s.e 6 ^^^ rotate s.e 11 ^^^ rotate s.e 25
  let ch := (s.e &&& s.f) ^^^ (~~~s.e &&& s.g)
  let t1 := s.h + s1 + ch + k + w
  let s0 := rotate s.a 2 ^^^ rotate s.a 13 ^^^ rotate s.a 22
  let maj := (s.a &&& s.b) ^^^ (s.a &&& s.c) ^^^ (s.b &&& s.c)
  ⟨t1 + (s0 + maj), s.a, s.b, s.c, s.d + t1, s.e, s.f, s.g⟩

/-- One block folded into the hash. -/
def compress (hash : Array UInt32) (message : Bytes) (start : Nat) : Array UInt32 :=
  let w := schedule message start
  let s : Working := ⟨hash.getD 0 0, hash.getD 1 0, hash.getD 2 0, hash.getD 3 0,
    hash.getD 4 0, hash.getD 5 0, hash.getD 6 0, hash.getD 7 0⟩
  let r := (List.range 64).foldl (fun s i => round s (constants.getD i 0) (w.getD i 0)) s
  (hash.zip #[r.a, r.b, r.c, r.d, r.e, r.f, r.g, r.h]).map fun p => p.1 + p.2

/-- The digest, as 32 bytes. -/
def digest (message : Bytes) : Bytes :=
  let padded := pad message
  let hash := (List.range (padded.size / 64)).foldl (fun h i => compress h padded (64 * i)) initial
  Bytes.ofList (hash.toList.flatMap fun w => bigEndian w.toNat 4)

/-- The digest, as hexadecimal text. -/
def hex (message : Bytes) : String := (Bytes.toHex (digest message)).latin1

end LuaCapsule.Sha256
