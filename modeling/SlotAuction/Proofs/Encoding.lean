import SlotAuction.Outcome.Codec

/-!
# Encoding — outcomes are the strings of 88 bytes

Reading an outcome takes seven words and a digest off the front.  Any eight bytes are a word and any
thirty-two are a digest, so only the number of bytes can be wrong, and the error says where they end.

* `Outcome.takeWords` — the words by number, `Outcome.decode_eq` — reading in terms of it;
* `Outcome.exists_words`, `Outcome.exists_encode` — enough bytes begin with the encoding of something;
* `Outcome.decode_encode_append`, `Outcome.decode_of_short` — what is read from bytes of any number;
* `Outcome.Cut` — the field in which bytes end;
* `Outcome.encoding_is_bijective` — the encodings are the strings of 88 bytes, and each other string is
  refused for its length.
-/

namespace SlotAuction
namespace Outcome

open scoped Arithmetic

/-! ## One field -/

section

variable {bytes : List UInt8}

theorem length_encodeWord (word : UInt64) : (encodeWord word).length = 8 :=
  Bytes.length_littleEndian ..

theorem takeWord_append (word : UInt64) (rest : List UInt8) :
    takeWord (encodeWord word ++ rest) = .ok (word, rest) := by
  have hlength : (encodeWord word).length = 8 := length_encodeWord word
  have hback : Bytes.ofLittleEndian (encodeWord word) = word.toNat := by
    rw [encodeWord, Bytes.ofLittleEndian_littleEndian]
    exact Nat.mod_eq_of_lt word.toNat_lt
  have henough : ¬ (encodeWord word ++ rest).length < 8 := by
    rw [List.length_append]
    omega
  rw [takeWord, if_neg henough, List.take_left' hlength, List.drop_left' hlength, hback,
    UInt64.ofNat_toNat]

theorem takeWord_of_short (h : bytes.length < 8) :
    takeWord bytes = .error (.cutOff 8 bytes.length) := by
  rw [takeWord, if_pos h]

/-- Any eight bytes are those of a word. -/
theorem exists_word (h : 8 ≤ bytes.length) : ∃ word rest, bytes = encodeWord word ++ rest := by
  refine ⟨.ofNat (Bytes.ofLittleEndian (bytes.take 8)), bytes.drop 8, ?_⟩
  have hlength : (bytes.take 8).length = 8 := by
    rw [List.length_take]
    omega
  have hsmall : Bytes.ofLittleEndian (bytes.take 8) < 2 ^ 64 := by
    have hlt := Bytes.ofLittleEndian_lt (bytes.take 8)
    rw [hlength] at hlt
    exact hlt
  have hword : encodeWord (.ofNat (Bytes.ofLittleEndian (bytes.take 8))) = bytes.take 8 := by
    calc encodeWord (.ofNat (Bytes.ofLittleEndian (bytes.take 8)))
        = Bytes.littleEndian 8 (Bytes.ofLittleEndian (bytes.take 8)) := by
          rw [encodeWord, UInt64.toNat_ofNat', Nat.mod_eq_of_lt hsmall]
      _ = Bytes.littleEndian (bytes.take 8).length (Bytes.ofLittleEndian (bytes.take 8)) := by
          rw [hlength]
      _ = bytes.take 8 := Bytes.littleEndian_ofLittleEndian _
  rw [hword, List.take_append_drop]

theorem takeDigest_append (digest : Digest) (rest : List UInt8) :
    takeDigest (digest.toList ++ rest) = .ok (digest, rest) := by
  have hlength : digest.toList.length = 32 := digest.length_toList
  have htake : (digest.toList ++ rest).take 32 = digest.toList := List.take_left' hlength
  have hbytes : ((digest.toList ++ rest).take 32).length = 32 := by
    rw [htake]
    exact hlength
  have hdigest : (⟨((digest.toList ++ rest).take 32).toArray, hbytes⟩ : Digest) = digest := by
    apply Vector.toList_inj.mp
    exact htake
  rw [takeDigest, dif_pos hbytes, hdigest, List.drop_left' hlength]

theorem takeDigest_of_short (h : bytes.length < 32) :
    takeDigest bytes = .error (.cutOff 32 bytes.length) := by
  have hlength : ¬ (bytes.take 32).length = 32 := by
    rw [List.length_take]
    omega
  rw [takeDigest, dif_neg hlength]

/-- Any thirty-two bytes are those of a digest. -/
theorem exists_digest (h : 32 ≤ bytes.length) :
    ∃ (digest : Digest) (rest : List UInt8), bytes = digest.toList ++ rest := by
  have hlength : (bytes.take 32).length = 32 := by
    rw [List.length_take]
    omega
  refine ⟨⟨(bytes.take 32).toArray, hlength⟩, bytes.drop 32, ?_⟩
  exact (List.take_append_drop 32 bytes).symm

end

/-! ## The words together -/

/-- So many words, and the bytes after them. -/
def takeWords : Nat → List UInt8 → Except DecodeError (List UInt64 × List UInt8)
  | 0, bytes => .ok ([], bytes)
  | n + 1, bytes => do
      let (word, rest) ← takeWord bytes
      let (words, rest) ← takeWords n rest
      return (word :: words, rest)

/-- The record with these words, in the order of `fields`. -/
def ofWords (words : List UInt64) (root : Digest) : Outcome where
  placements := words.getD 0 0
  slotsRequested := words.getD 1 0
  slotsFilled := words.getD 2 0
  considered := words.getD 3 0
  winners := words.getD 4 0
  exchanged := words.getD 5 0
  value := ⟨words.getD 6 0⟩
  root := root

theorem decode_eq (bytes : List UInt8) :
    decode bytes = (do
      let (words, rest) ← takeWords 7 bytes
      let (root, rest) ← takeDigest rest
      if rest = [] then return ofWords words root
      else Except.error (DecodeError.leftOver bytes.length)) := by
  simp only [decode, takeWords, bind_assoc, pure_bind]
  rfl

theorem ofWords_fields (o : Outcome) : ofWords o.fields o.root = o := rfl

theorem fields_ofWords {words : List UInt64} (h : words.length = 7) (root : Digest) :
    (ofWords words root).fields = words := by
  match words, h with
  | [_, _, _, _, _, _, _], _ => rfl

theorem length_encodeWords (words : List UInt64) :
    (words.flatMap encodeWord).length = 8 * words.length := by
  induction words with
  | nil => rfl
  | cons word words ih =>
      rw [List.flatMap_cons, List.length_append, List.length_cons, length_encodeWord, ih]
      omega

theorem takeWords_append (words : List UInt64) (rest : List UInt8) :
    takeWords words.length (words.flatMap encodeWord ++ rest) = .ok (words, rest) := by
  induction words with
  | nil => rfl
  | cons word words ih =>
      rw [List.flatMap_cons, List.append_assoc, List.length_cons, takeWords, takeWord_append]
      show (takeWords words.length _ >>= _) = _
      rw [ih]
      rfl

/-- Enough bytes begin with so many words. -/
theorem exists_words (n : Nat) {bytes : List UInt8} (h : 8 * n ≤ bytes.length) :
    ∃ (words : List UInt64) (rest : List UInt8),
      words.length = n ∧ bytes = words.flatMap encodeWord ++ rest := by
  induction n generalizing bytes with
  | zero => exact ⟨[], bytes, rfl, rfl⟩
  | succ n ih =>
      obtain ⟨word, later, rfl⟩ : ∃ word later, bytes = encodeWord word ++ later :=
        exists_word (by omega)
      rw [List.length_append, length_encodeWord] at h
      obtain ⟨words, rest, hlength, rfl⟩ := ih (by omega : 8 * n ≤ later.length)
      refine ⟨word :: words, rest, ?_, ?_⟩
      · rw [List.length_cons, hlength]
      · rw [List.flatMap_cons, List.append_assoc]

/-- With too few bytes for the words, the whole words are taken and the next one is cut off. -/
theorem takeWords_of_short (n : Nat) {bytes : List UInt8} (h : bytes.length < 8 * n) :
    takeWords n bytes = .error (.cutOff 8 (bytes.length % 8)) := by
  induction n generalizing bytes with
  | zero => omega
  | succ n ih =>
      -- Either the first word is cut off already, or a later one is, by as many bytes.
      rcases Nat.lt_or_ge bytes.length 8 with hshort | hlong
      · rw [takeWords, takeWord_of_short hshort, Nat.mod_eq_of_lt hshort]
        rfl
      · obtain ⟨word, later, rfl⟩ := exists_word hlong
        rw [List.length_append, length_encodeWord] at h ⊢
        have hlater : takeWords n later = .error (.cutOff 8 (later.length % 8)) :=
          ih (by omega)
        rw [takeWords, takeWord_append, Nat.add_mod_left]
        show (takeWords n later >>= _) = _
        rw [hlater]
        rfl

/-! ## The whole record -/

/-- Enough bytes begin with the encoding of a record. -/
theorem exists_encode {bytes : List UInt8} (h : 88 ≤ bytes.length) :
    ∃ (o : Outcome) (rest : List UInt8), bytes = o.encode ++ rest := by
  obtain ⟨words, later, hwords, rfl⟩ := exists_words 7 (by omega : 8 * 7 ≤ bytes.length)
  rw [List.length_append, length_encodeWords, hwords] at h
  obtain ⟨root, rest, rfl⟩ := exists_digest (by omega : 32 ≤ later.length)
  refine ⟨ofWords words root, rest, ?_⟩
  rw [encode, fields_ofWords hwords, List.append_assoc]
  rfl

/-- What follows an encoding is left over, if it is anything. -/
theorem decode_encode_append (o : Outcome) (rest : List UInt8) :
    decode (o.encode ++ rest) =
      if rest = [] then .ok o else .error (.leftOver (o.encode ++ rest).length) := by
  have hwords : takeWords 7 (o.encode ++ rest) = .ok (o.fields, o.root.toList ++ rest) := by
    rw [encode, List.append_assoc]
    exact takeWords_append o.fields _
  rw [decode_eq, hwords]
  show (takeDigest (o.root.toList ++ rest) >>= _) = _
  rw [takeDigest_append]
  show (if rest = [] then Except.ok (ofWords o.fields o.root) else Except.error _) = _
  rw [ofWords_fields]

theorem decode_encode (o : Outcome) : decode o.encode = .ok o := by
  have hrest := decode_encode_append o []
  rwa [List.append_nil, if_pos rfl] at hrest

theorem decode_of_long {bytes : List UInt8} (h : 88 < bytes.length) :
    decode bytes = .error (.leftOver bytes.length) := by
  obtain ⟨o, rest, rfl⟩ := exists_encode (Nat.le_of_lt h)
  have hrest : rest ≠ [] := by
    rintro rfl
    rw [List.append_nil, length_encode] at h
    omega
  rw [decode_encode_append, if_neg hrest]

/-- How many bytes each field of the encoding has. -/
def widths : List Nat :=
  List.replicate 7 8 ++ [32]

/-- So many bytes end within a field of this size, with these left for it: they make up the whole fields
before it, and less than it needs is left. -/
structure Cut (given size left : Nat) : Prop where
  field : ∃ whole later, widths = whole ++ size :: later ∧ given = whole.sum + left
  within : left < size

theorem cut_word {given : Nat} (h : given < 56) : Cut given 8 (given % 8) := by
  refine ⟨⟨List.replicate (given / 8) 8, List.replicate (6 - given / 8) 8 ++ [32], ?_, ?_⟩, ?_⟩
  · have hseven : given / 8 + (6 - given / 8 + 1) = 7 := by omega
    calc widths = List.replicate (given / 8 + (6 - given / 8 + 1)) 8 ++ [32] := by
          rw [hseven]
          rfl
      _ = (List.replicate (given / 8) 8 ++ 8 :: List.replicate (6 - given / 8) 8) ++ [32] := by
          rw [← List.replicate_append_replicate, List.replicate_succ]
      _ = List.replicate (given / 8) 8 ++ 8 :: (List.replicate (6 - given / 8) 8 ++ [32]) := by
          rw [List.append_assoc, List.cons_append]
  · rw [List.sum_replicate_nat]
    omega
  · omega

theorem cut_root {given : Nat} (h : 56 ≤ given) (hshort : given < 88) :
    Cut given 32 (given - 56) := by
  refine ⟨⟨List.replicate 7 8, [], rfl, ?_⟩, ?_⟩
  · rw [List.sum_replicate_nat]
    omega
  · omega

/-- Too few bytes are refused for the field in which they end. -/
theorem decode_of_short {bytes : List UInt8} (h : bytes.length < 88) :
    ∃ size left, Cut bytes.length size left ∧ decode bytes = .error (.cutOff size left) := by
  -- The seven words take 56 bytes: the string ends in one of them, or in the root.
  rcases Nat.lt_or_ge bytes.length 56 with hwords | hwords
  · refine ⟨8, bytes.length % 8, cut_word hwords, ?_⟩
    rw [decode_eq, takeWords_of_short 7 hwords]
    rfl
  · refine ⟨32, bytes.length - 56, cut_root hwords h, ?_⟩
    obtain ⟨words, later, hlength, rfl⟩ := exists_words 7 hwords
    rw [List.length_append, length_encodeWords, hlength] at h ⊢
    have hroot : takeDigest later = .error (.cutOff 32 later.length) :=
      takeDigest_of_short (by omega)
    have htake : takeWords 7 (words.flatMap encodeWord ++ later) = .ok (words, later) := by
      rw [← hlength]
      exact takeWords_append words later
    rw [decode_eq, htake, Nat.add_sub_cancel_left]
    show (takeDigest later >>= _) = _
    rw [hroot]
    rfl

/-- Every record has an encoding of 88 bytes and is read back from it; exactly the strings of 88 bytes are
read, and encoding what was read gives the string again.  A shorter string is refused with the size of
the first field that is cut off and the bytes left for it, a longer one with its length. -/
theorem encoding_is_bijective :
    (∀ o : Outcome, o.encode.length = 88 ∧ decode o.encode = .ok o) ∧
    ∀ bytes : List UInt8,
      ((∃ o, decode bytes = .ok o) ↔ bytes.length = 88) ∧
      (∀ o, decode bytes = .ok o → o.encode = bytes) ∧
      (bytes.length < 88 →
        ∃ size left, Cut bytes.length size left ∧ decode bytes = .error (.cutOff size left)) ∧
      (88 < bytes.length → decode bytes = .error (.leftOver bytes.length)) := by
  refine ⟨fun o => ⟨length_encode o, decode_encode o⟩, fun bytes => ?_⟩
  -- Both error cases are settled by length, so whatever is read comes from 88 bytes.
  have hexact : ∀ o, decode bytes = .ok o → bytes.length = 88 := by
    intro o hread
    rcases Nat.lt_trichotomy bytes.length 88 with hshort | hexact | hlong
    · obtain ⟨size, left, -, herror⟩ := decode_of_short hshort
      rw [herror] at hread
      cases hread
    · exact hexact
    · rw [decode_of_long hlong] at hread
      cases hread
  -- Of 88 bytes nothing follows the encoding that they begin with.
  have hencode : bytes.length = 88 → ∃ o : Outcome, bytes = o.encode := by
    intro hlength
    obtain ⟨o, rest, rfl⟩ := exists_encode (Nat.le_of_eq hlength.symm)
    have hrest : rest = [] := by
      rw [List.length_append, length_encode] at hlength
      exact List.eq_nil_of_length_eq_zero (by omega)
    exact ⟨o, by rw [hrest, List.append_nil]⟩
  refine ⟨⟨?_, ?_⟩, ?_, decode_of_short, decode_of_long⟩
  · rintro ⟨o, hread⟩
    exact hexact o hread
  · intro hlength
    obtain ⟨o, rfl⟩ := hencode hlength
    exact ⟨o, decode_encode o⟩
  · intro o hread
    obtain ⟨p, rfl⟩ := hencode (hexact o hread)
    rw [decode_encode] at hread
    cases hread
    rfl

end Outcome
end SlotAuction
