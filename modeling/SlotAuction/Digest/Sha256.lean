import SlotAuction.Bytes

/-!
# Sha256 — the secure hash with 256 bits

The message is padded to blocks of 64 bytes.  Each block is worked into a state of eight words in 64
rounds, which take their words from a window of sixteen that slides along the schedule of the block.

* `Sha256.pad` — the padded message, whose length `length_pad_mod` gives;
* `sha256` — the digest of a message.
-/

namespace SlotAuction

/-- Thirty-two bytes. -/
abbrev Digest := Vector UInt8 32

namespace Sha256

/-! ## Padding -/

/-- A set bit, zeros up to the last eight bytes of a block, and the length in bits. -/
def pad (message : List UInt8) : List UInt8 :=
  -- Nine bytes go to the bit and the length.
  let zeros := (119 - message.length % 64) % 64
  message ++ 0x80 :: List.replicate zeros 0 ++ Bytes.bigEndian 8 (8 * message.length)

theorem length_pad_mod (message : List UInt8) : (pad message).length % 64 = 0 := by
  simp only [pad, List.length_append, List.length_cons, List.length_replicate,
    Bytes.length_bigEndian]
  omega

/-- Four bytes to a word, highest first. -/
def words : List UInt8 → List UInt32
  | a :: b :: c :: d :: rest =>
      (a.toUInt32 <<< 24 ||| b.toUInt32 <<< 16 ||| c.toUInt32 <<< 8 ||| d.toUInt32) :: words rest
  | _ => []

/-! ## Rounds -/

structure State where
  (a b c d e f g h : UInt32)
  deriving DecidableEq

namespace State

def initial : State :=
  ⟨0x6a09e667, 0xbb67ae85, 0x3c6ef372, 0xa54ff53a,
    0x510e527f, 0x9b05688c, 0x1f83d9ab, 0x5be0cd19⟩

def add (s t : State) : State :=
  ⟨s.a + t.a, s.b + t.b, s.c + t.c, s.d + t.d, s.e + t.e, s.f + t.f, s.g + t.g, s.h + t.h⟩

def toBytes (s : State) : List UInt8 :=
  [s.a, s.b, s.c, s.d, s.e, s.f, s.g, s.h].flatMap fun w => Bytes.bigEndian 4 w.toNat

theorem length_toBytes (s : State) : s.toBytes.length = 32 := by
  simp [toBytes]

end State

def rotateRight (w n : UInt32) : UInt32 :=
  w >>> n ||| w <<< (32 - n)

def round (s : State) (constant word : UInt32) : State :=
  let mixE := rotateRight s.e 6 ^^^ rotateRight s.e 11 ^^^ rotateRight s.e 25
  let choice := (s.e &&& s.f) ^^^ (~~~s.e &&& s.g)
  let first := s.h + mixE + choice + constant + word
  let mixA := rotateRight s.a 2 ^^^ rotateRight s.a 13 ^^^ rotateRight s.a 22
  let majority := (s.a &&& s.b) ^^^ (s.a &&& s.c) ^^^ (s.b &&& s.c)
  ⟨first + (mixA + majority), s.a, s.b, s.c, s.d + first, s.e, s.f, s.g⟩

/-- The word that enters the window when its first word leaves. -/
def nextWord (window : List UInt32) : UInt32 :=
  let early := window.getD 1 0
  let late := window.getD 14 0
  let mixEarly := rotateRight early 7 ^^^ rotateRight early 18 ^^^ early >>> 3
  let mixLate := rotateRight late 17 ^^^ rotateRight late 19 ^^^ late >>> 10
  window.getD 0 0 + mixEarly + window.getD 9 0 + mixLate

/-- One round for each constant, along the window. -/
def rounds : List UInt32 → List UInt32 → State → State
  | [], _, s => s
  | constant :: constants, window, s =>
      rounds constants (window.drop 1 ++ [nextWord window]) (round s constant (window.getD 0 0))

def constants : List UInt32 :=
  [
    0x428a2f98, 0x71374491, 0xb5c0fbcf, 0xe9b5dba5, 0x3956c25b, 0x59f111f1,
    0x923f82a4, 0xab1c5ed5, 0xd807aa98, 0x12835b01, 0x243185be, 0x550c7dc3,
    0x72be5d74, 0x80deb1fe, 0x9bdc06a7, 0xc19bf174, 0xe49b69c1, 0xefbe4786,
    0x0fc19dc6, 0x240ca1cc, 0x2de92c6f, 0x4a7484aa, 0x5cb0a9dc, 0x76f988da,
    0x983e5152, 0xa831c66d, 0xb00327c8, 0xbf597fc7, 0xc6e00bf3, 0xd5a79147,
    0x06ca6351, 0x14292967, 0x27b70a85, 0x2e1b2138, 0x4d2c6dfc, 0x53380d13,
    0x650a7354, 0x766a0abb, 0x81c2c92e, 0x92722c85, 0xa2bfe8a1, 0xa81a664b,
    0xc24b8b70, 0xc76c51a3, 0xd192e819, 0xd6990624, 0xf40e3585, 0x106aa070,
    0x19a4c116, 0x1e376c08, 0x2748774c, 0x34b0bcb5, 0x391c0cb3, 0x4ed8aa4a,
    0x5b9cca4f, 0x682e6ff3, 0x748f82ee, 0x78a5636f, 0x84c87814, 0x8cc70208,
    0x90befffa, 0xa4506ceb, 0xbef9a3f7, 0xc67178f2]

/-! ## The hash -/

/-- Works the first blocks of 64 bytes into a state. -/
def absorb : Nat → List UInt8 → State → State
  | 0, _, s => s
  | blocks + 1, bytes, s =>
      absorb blocks (bytes.drop 64) (s.add (rounds constants (words (bytes.take 64)) s))

def finalState (message : List UInt8) : State :=
  absorb ((pad message).length / 64) (pad message) .initial

end Sha256

def sha256 (message : List UInt8) : Digest :=
  ⟨(Sha256.finalState message).toBytes.toArray, Sha256.State.length_toBytes _⟩

end SlotAuction
