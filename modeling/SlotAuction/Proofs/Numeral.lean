import Mathlib.Data.List.TakeWhile
import Mathlib.Data.Rat.Floor
import SlotAuction.Proofs.DecimalText

/-!
# Numeral — numbers as they are written, and what they are worth

A numeral has a sign or none, a whole part, and a fraction if it has a point.  Underscores may stand among
the digits, but it starts with a digit, or with the point and a digit.  What it is worth is said by its
digits alone, without the reader.

* `Decimal.Numeral` — numerals, with their `text` and their exact `value`;
* `Decimal.Numeral.ofChars?_chars` — the reader takes a numeral apart into just these parts;
* `Decimal.Numeral.isSome_ofChars?_iff` — and it takes nothing else apart;
* `Decimal.Numeral.read?_text` — so reading a numeral is taking in its digits.
-/

namespace SlotAuction

open scoped Arithmetic

theorem Digit.toNat_toChar (d : Digit) : d.toChar.toNat = '0'.toNat + d.val := by
  revert d
  decide

/-- What reads as a digit is how that digit is written. -/
theorem Digit.toChar_of_ofChar? {c : Char} {d : Digit} (h : Digit.ofChar? c = some d) :
    d.toChar = c := by
  unfold Digit.ofChar? at h
  split at h
  · rename_i hrange
    cases h
    apply Char.toNat_inj.mp
    rw [toNat_toChar]
    exact Nat.add_sub_of_le hrange.1
  · cases h

namespace Decimal

/-! ## Characters of a numeral -/

def placeChar : Place → Char
  | none => '_'
  | some d => d.toChar

theorem place?_placeChar (p : Place) : place? (placeChar p) = some p := by
  cases p with
  | none => rfl
  | some d => exact place?_toChar d

theorem mapM_place?_map_placeChar (places : List Place) :
    (places.map placeChar).mapM place? = some places := by
  induction places with
  | nil => rfl
  | cons p places ih => simp [place?_placeChar, ih]

theorem placeChar_of_place? {c : Char} {p : Place} (h : place? c = some p) : placeChar p = c := by
  unfold place? at h
  split at h
  · rename_i hunderscore
    cases h
    exact hunderscore.symm
  · obtain ⟨d, hd, rfl⟩ := Option.map_eq_some_iff.mp h
    exact Digit.toChar_of_ofChar? hd

theorem map_placeChar_of_mapM_place? {cs : List Char} {places : List Place}
    (h : cs.mapM place? = some places) : places.map placeChar = cs := by
  induction cs generalizing places with
  | nil =>
      cases h
      rfl
  | cons c cs ih =>
      rw [List.mapM_cons] at h
      obtain ⟨p, hp, hrest⟩ := Option.bind_eq_some_iff.mp h
      obtain ⟨later, hlater, heq⟩ := Option.bind_eq_some_iff.mp hrest
      cases heq
      rw [List.map_cons, placeChar_of_place? hp, ih hlater]

theorem exists_later {places : List Place} {d : Digit} {rest : List Char}
    (h : places.map placeChar = d.toChar :: rest) : ∃ later, places = some d :: later := by
  cases places with
  | nil => cases h
  | cons p later =>
      have hfirst : place? (placeChar p) = place? d.toChar := congrArg place? (List.cons.inj h).1
      rw [place?_placeChar, place?_toChar] at hfirst
      exact ⟨later, by rw [Option.some.inj hfirst]⟩

/-- A place is written with no character that is none of a number. -/
theorem placeChar_ne (p : Place) {c : Char} (h : place? c = none) : placeChar p ≠ c := by
  intro heq
  rw [← heq, place?_placeChar] at h
  cases h

theorem no_point_in_places (places : List Place) :
    ∀ c ∈ places.map placeChar, decide (c ≠ '.') = true := by
  intro c hc
  obtain ⟨p, _, rfl⟩ := List.mem_map.mp hc
  exact decide_eq_true (placeChar_ne p rfl)

/-! ## Numerals -/

structure Numeral where
  /-- Whether the sign is a minus, if there is a sign. -/
  minus? : Option Bool
  whole : List Place
  /-- The places after the point, if there is a point. -/
  fraction? : Option (List Place)
  starts : (∃ d rest, whole = some d :: rest) ∨
    whole = [] ∧ ∃ d rest, fraction? = some (some d :: rest)

namespace Numeral

def signChars : Option Bool → List Char
  | none => []
  | some true => ['-']
  | some false => ['+']

def fractionChars : Option (List Place) → List Char
  | none => []
  | some places => '.' :: places.map placeChar

def unsigned (n : Numeral) : List Char :=
  n.whole.map placeChar ++ fractionChars n.fraction?

def chars (n : Numeral) : List Char :=
  signChars n.minus? ++ n.unsigned

def text (n : Numeral) : String :=
  String.ofList n.chars

def negative (n : Numeral) : Bool :=
  n.minus? == some true

def fraction (n : Numeral) : List Place :=
  n.fraction?.getD []

/-! ### What a numeral is worth -/

def digits (n : Numeral) : List Digit :=
  digitsOf n.whole ++ digitsOf n.fraction

/-- The exact number that the numeral writes: its digits as one number, over a power of ten for each digit
after the point, with its sign. -/
def value (n : Numeral) : ℚ :=
  (if n.negative then -1 else 1) * (Digit.number n.digits / 10 ^ (digitsOf n.fraction).length)

/-! ### Reading a numeral -/

def plain (n : Numeral) : Plain :=
  ⟨n.negative, n.whole, n.fraction⟩

theorem starts_unsigned (n : Numeral) : Plain.starts n.unsigned = true := by
  rcases n.starts with ⟨d, rest, hwhole⟩ | ⟨hwhole, d, rest, hfraction⟩
  · rw [unsigned, hwhole]
    exact Plain.starts_of_digit d _
  · rw [unsigned, hwhole, hfraction]
    show (Digit.ofChar? d.toChar).isSome = true
    rw [Digit.ofChar?_toChar]
    rfl

/-- Without a sign, the first character is a digit or the point. -/
theorem sign_unsigned (n : Numeral) : Plain.sign n.unsigned = (false, n.unsigned) := by
  rcases n.starts with ⟨d, rest, hwhole⟩ | ⟨hwhole, d, rest, hfraction⟩
  · rw [unsigned, hwhole]
    exact Plain.sign_of_digit d _
  · rw [unsigned, hwhole, hfraction]
    rfl

theorem sign_chars (n : Numeral) : Plain.sign n.chars = (n.negative, n.unsigned) := by
  unfold chars negative
  cases n.minus? with
  | none => exact n.sign_unsigned
  | some minus => cases minus <;> rfl

theorem takeWhile_unsigned (n : Numeral) :
    n.unsigned.takeWhile (· ≠ '.') = n.whole.map placeChar := by
  unfold unsigned
  rw [List.takeWhile_append_of_pos (no_point_in_places n.whole)]
  cases n.fraction? with
  | none => exact List.append_nil _
  | some places => simp [fractionChars]

theorem dropWhile_unsigned (n : Numeral) :
    (n.unsigned.dropWhile (· ≠ '.')).drop 1 = n.fraction.map placeChar := by
  unfold unsigned fraction
  rw [List.dropWhile_append_of_pos (no_point_in_places n.whole)]
  cases n.fraction? with
  | none => rfl
  | some places => simp [fractionChars]

theorem ofChars?_chars (n : Numeral) : Plain.ofChars? n.chars = some n.plain := by
  unfold Plain.ofChars?
  rw [sign_chars]
  simp only [starts_unsigned, if_true, takeWhile_unsigned, dropWhile_unsigned,
    mapM_place?_map_placeChar]
  rfl

/-! ### Numerals are all that is read -/

theorem exists_sign (cs : List Char) :
    ∃ minus? : Option Bool, cs = signChars minus? ++ (Plain.sign cs).2 ∧
      (minus? == some true) = (Plain.sign cs).1 := by
  unfold Plain.sign
  split
  · exact ⟨some true, rfl, rfl⟩
  · exact ⟨some false, rfl, rfl⟩
  · exact ⟨none, rfl, rfl⟩

theorem exists_fraction {body : List Char} {fraction : List Place}
    (h : ((body.dropWhile (· ≠ '.')).drop 1).mapM place? = some fraction) :
    ∃ fraction? : Option (List Place), body.dropWhile (· ≠ '.') = fractionChars fraction? ∧
      fraction?.getD [] = fraction := by
  cases htail : body.dropWhile (· ≠ '.') with
  | nil =>
      rw [htail] at h
      cases h
      exact ⟨none, rfl, rfl⟩
  | cons c tail =>
      have hpoint : c = '.' := by
        have hhead := List.head?_dropWhile_not (· ≠ '.') body
        rw [htail] at hhead
        simpa using hhead
      rw [htail] at h
      refine ⟨some fraction, ?_, rfl⟩
      rw [hpoint, fractionChars, map_placeChar_of_mapM_place? h]
      rfl

theorem exists_first {body : List Char} (h : Plain.starts body = true) :
    ∃ (d : Digit) (rest : List Char), body = d.toChar :: rest ∨ body = '.' :: d.toChar :: rest := by
  unfold Plain.starts at h
  split at h
  · rename_i c rest
    obtain ⟨d, hd⟩ := Option.isSome_iff_exists.mp h
    exact ⟨d, rest, Or.inr (by rw [Digit.toChar_of_ofChar? hd])⟩
  · rename_i c rest _
    obtain ⟨d, hd⟩ := Option.isSome_iff_exists.mp h
    exact ⟨d, rest, Or.inl (by rw [Digit.toChar_of_ofChar? hd])⟩
  · cases h

theorem starts_of_first {body : List Char} {whole : List Place} {fraction? : Option (List Place)}
    (hfirst : Plain.starts body = true) (hwhole : whole.map placeChar = body.takeWhile (· ≠ '.'))
    (hfraction : body.dropWhile (· ≠ '.') = fractionChars fraction?) :
    (∃ d rest, whole = some d :: rest) ∨
      whole = [] ∧ ∃ d rest, fraction? = some (some d :: rest) := by
  obtain ⟨d, rest, rfl | rfl⟩ := exists_first hfirst
  · have hdigit : decide (d.toChar ≠ '.') = true := decide_eq_true (d.toChar_ne rfl)
    rw [List.takeWhile_cons_of_pos (p := fun c => decide (c ≠ '.')) hdigit] at hwhole
    exact Or.inl ⟨d, exists_later hwhole⟩
  · have hpoint : ¬ decide ('.' ≠ '.') = true := by decide
    rw [List.takeWhile_cons_of_neg (p := fun c => decide (c ≠ '.')) hpoint] at hwhole
    rw [List.dropWhile_cons_of_neg (p := fun c => decide (c ≠ '.')) hpoint] at hfraction
    refine Or.inr ⟨List.map_eq_nil_iff.mp hwhole, ?_⟩
    cases fraction? with
    | none => cases hfraction
    | some places =>
        obtain ⟨later, rfl⟩ := exists_later (List.cons.inj hfraction).2.symm
        exact ⟨d, later, rfl⟩

/-- Characters that are taken apart write a numeral. -/
theorem exists_chars_of_ofChars? {cs : List Char} {p : Plain} (h : Plain.ofChars? cs = some p) :
    ∃ n : Numeral, n.chars = cs ∧ n.plain = p := by
  obtain ⟨minus?, hcs, hminus⟩ := exists_sign cs
  unfold Plain.ofChars? at h
  generalize Plain.sign cs = signed at hcs hminus h
  obtain ⟨negative, body⟩ := signed
  dsimp only at hcs hminus h
  split at h
  · rename_i hfirst
    split at h
    · rename_i whole fraction hwhole hplaces
      cases h
      obtain ⟨fraction?, hfraction, rfl⟩ := exists_fraction hplaces
      have hwhole' := map_placeChar_of_mapM_place? hwhole
      refine ⟨⟨minus?, whole, fraction?, starts_of_first hfirst hwhole' hfraction⟩, ?_, ?_⟩
      · rw [chars, unsigned, hcs]
        show signChars minus? ++ (whole.map placeChar ++ fractionChars fraction?) = _
        rw [hwhole', ← hfraction, List.takeWhile_append_dropWhile]
      · rw [plain, Numeral.negative, hminus]
        rfl
    · cases h
  · cases h

/-! ### Text of a numeral -/

/-- A text is taken apart as a plain number exactly if it writes a numeral. -/
theorem isSome_ofChars?_iff {text : String} :
    (Plain.ofChars? text.toList).isSome = true ↔ ∃ n : Numeral, n.text = text := by
  constructor
  · intro htaken
    obtain ⟨p, hp⟩ := Option.isSome_iff_exists.mp htaken
    obtain ⟨n, hchars, -⟩ := exists_chars_of_ofChars? hp
    exact ⟨n, by rw [Numeral.text, hchars, String.ofList_toList]⟩
  · rintro ⟨n, rfl⟩
    rw [Numeral.text, String.toList_ofList, ofChars?_chars]
    rfl

theorem eq_of_mem_chars {n : Numeral} {c : Char} (h : c ∈ n.chars) :
    c = '-' ∨ c = '+' ∨ c = '.' ∨ ∃ p, c = placeChar p := by
  have hplaces : ∀ places : List Place, c ∈ places.map placeChar → ∃ p, c = placeChar p := by
    intro places hc
    obtain ⟨p, _, heq⟩ := List.mem_map.mp hc
    exact ⟨p, heq.symm⟩
  unfold chars unsigned at h
  rcases List.mem_append.mp h with hsign | hunsigned
  · cases hminus : n.minus? with
    | none => simp [hminus, signChars] at hsign
    | some minus => cases minus <;> simp_all [signChars]
  · rcases List.mem_append.mp hunsigned with hwhole | hfraction
    · exact Or.inr (Or.inr (Or.inr (hplaces _ hwhole)))
    · cases hpoint : n.fraction? with
      | none => simp [hpoint, fractionChars] at hfraction
      | some places =>
          rw [hpoint] at hfraction
          rcases List.mem_cons.mp hfraction with hc | hplace
          · exact Or.inr (Or.inr (Or.inl hc))
          · exact Or.inr (Or.inr (Or.inr (hplaces _ hplace)))

/-- No character of a numeral announces a power of ten. -/
theorem ofScientificChars?_chars (n : Numeral) : ofScientificChars? n.chars = none := by
  have hunmarked : ∀ c ∈ n.chars, (!(decide (c = 'e') || decide (c = 'E'))) = true := by
    intro c hc
    rcases eq_of_mem_chars hc with rfl | rfl | rfl | ⟨p, rfl⟩
    · rfl
    · rfl
    · rfl
    · simp [placeChar_ne p (show place? 'e' = none from rfl),
        placeChar_ne p (show place? 'E' = none from rfl)]
  have hnone := List.dropWhile_eq_nil_iff.mpr hunmarked
  unfold ofScientificChars?
  simp only [hnone]

theorem read?_text (n : Numeral) : read? n.text = n.plain.toDecimal? := by
  have hplain : ofPlainChars? n.chars = n.plain.toDecimal? := by
    rw [ofPlainChars?, ofChars?_chars, Option.bind_some]
  unfold read? text
  rw [String.toList_ofList, ofChars?, hplain, ofScientificChars?_chars]
  cases n.plain.toDecimal? <;> rfl

end Numeral
end Decimal
end SlotAuction
