import SlotAuction.Outcome.Basic

/-!
# Outcome codec — 88 bytes

The seven words in eight bytes each, lowest first, and then the root.  Reading takes the fields one
after another and reports the first that is cut off, or else that bytes are left over.

* `Outcome.encode`, `Outcome.decode`;
* `length_encode` — there are always 88 bytes.
-/

namespace SlotAuction
namespace Outcome

/-- Why bytes are not the encoding of an outcome. -/
inductive DecodeError where
  /-- A field of so many bytes is cut off; these are left for it. -/
  | cutOff (size left : Nat)
  /-- There are more bytes than belong to an outcome. -/
  | leftOver (given : Nat)
  deriving DecidableEq

namespace DecodeError

def message : DecodeError → String
  | .cutOff size left =>
      "expected at least " ++ toString size ++ " byte(s) when decoding but provided only " ++
        toString left ++ " byte(s)"
  | .leftOver given =>
      toString given ++ " byte(s) given but only expected (up to) 88 byte(s)"

end DecodeError

/-! ## Writing -/

def encodeWord (word : UInt64) : List UInt8 :=
  Bytes.littleEndian 8 word.toNat

def encode (o : Outcome) : List UInt8 :=
  o.fields.flatMap encodeWord ++ o.root.toList

theorem length_encode (o : Outcome) : o.encode.length = 88 := by
  simp [encode, fields, encodeWord]

/-! ## Reading -/

/-- The first eight bytes as a word, and the bytes after them. -/
def takeWord (bytes : List UInt8) : Except DecodeError (UInt64 × List UInt8) :=
  if bytes.length < 8 then .error (.cutOff 8 bytes.length)
  else .ok (.ofNat (Bytes.ofLittleEndian (bytes.take 8)), bytes.drop 8)

/-- The first thirty-two bytes as a digest, and the bytes after them. -/
def takeDigest (bytes : List UInt8) : Except DecodeError (Digest × List UInt8) :=
  if h : (bytes.take 32).length = 32 then .ok (⟨(bytes.take 32).toArray, h⟩, bytes.drop 32)
  else .error (.cutOff 32 bytes.length)

def decode (bytes : List UInt8) : Except DecodeError Outcome := do
  let (placements, rest) ← takeWord bytes
  let (slotsRequested, rest) ← takeWord rest
  let (slotsFilled, rest) ← takeWord rest
  let (considered, rest) ← takeWord rest
  let (winners, rest) ← takeWord rest
  let (exchanged, rest) ← takeWord rest
  let (value, rest) ← takeWord rest
  let (root, rest) ← takeDigest rest
  if rest = [] then
    return { placements, slotsRequested, slotsFilled, considered, winners, exchanged,
             value := ⟨value⟩, root }
  else .error (.leftOver bytes.length)

end Outcome
end SlotAuction
