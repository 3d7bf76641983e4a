import SlotAuction.Amount

/-!
# DecimalText — what is written reads back

A decimal is written with the digits of its whole part and as many places as are needed.  The reader
takes in every one of them, so it comes to the same number with the zeros at the end left out.

* `Digit.exists_row` — the digits of a natural number, which write it;
* `Decimal.append_places` — the places of a fraction write it, up to zeros at the end;
* `Decimal.Trimmed` — the same number in fewer places;
* `Decimal.read?_render` — every decimal reads back trimmed;
* `Amount.parse?_render` — every amount reads back as it was;
* `Amount.amounts_survive_their_text` — so no two amounts have one text.
-/

namespace SlotAuction

open scoped Arithmetic

/-! ## Rows of digits -/

namespace Digit

theorem append_cons (start : Nat) (d : Digit) (digits : List Digit) :
    append start (d :: digits) = append (10 * start + d.val) digits :=
  rfl

theorem append_append (start : Nat) (front back : List Digit) :
    append start (front ++ back) = append (append start front) back :=
  List.foldl_append

/-- Further digits never make a number smaller. -/
theorem le_append (start : Nat) (digits : List Digit) : start ≤ append start digits := by
  induction digits generalizing start with
  | nil => exact Nat.le_refl start
  | cons d digits ih =>
      have hle := ih (10 * start + d.val)
      rw [append_cons]
      omega

/-- A natural number is written with a row of digits, which is not empty. -/
theorem exists_row (n : Nat) :
    ∃ digits : List Digit, digits ≠ [] ∧ Nat.toDigits 10 n = digits.map toChar ∧
      number digits = n := by
  induction n using Nat.strongRecOn with
  | ind n ih =>
      rw [Nat.toDigits_eq_if (by decide)]
      -- The last digit is the remainder, and those before it write the quotient.
      by_cases hsmall : n < 10
      · rw [if_pos hsmall]
        refine ⟨[⟨n, hsmall⟩], by simp, rfl, ?_⟩
        simp [number, append]
      · rw [if_neg hsmall]
        obtain ⟨digits, _, hdigits, hnumber⟩ := ih (n / 10) (by omega)
        refine ⟨digits ++ [⟨n % 10, by omega⟩], by simp, ?_, ?_⟩
        · rw [hdigits, List.map_append]
          rfl
        · have hlast : number (digits ++ [⟨n % 10, by omega⟩]) = 10 * number digits + n % 10 :=
            append_append 0 digits _
          rw [hlast, hnumber]
          omega

/-- The character of a digit is none that does not read as a digit. -/
theorem toChar_ne (d : Digit) {c : Char} (h : ofChar? c = none) : d.toChar ≠ c := by
  intro heq
  rw [← heq, ofChar?_toChar] at h
  cases h

end Digit

namespace Decimal

theorem place?_toChar (d : Digit) : place? d.toChar = some (some d) := by
  revert d
  decide

theorem mapM_place?_map_toChar (digits : List Digit) :
    (digits.map Digit.toChar).mapM place? = some (digits.map some) := by
  induction digits with
  | nil => rfl
  | cons d digits ih => simp [place?_toChar, ih]

theorem digitsOf_map_some (digits : List Digit) : digitsOf (digits.map some) = digits := by
  simp [digitsOf]

/-! ## Places -/

theorem length_places_le (scale rest : Nat) : (places scale rest).length ≤ scale := by
  induction scale generalizing rest with
  | zero => exact Nat.le_refl 0
  | succ scale ih =>
      unfold places
      split
      · exact Nat.zero_le _
      · exact Nat.succ_le_succ (ih _)

/-- The places of a fraction, written after a whole part, write the sum of both; zeros at the end
have been left out. -/
theorem append_places (whole : Nat) {scale rest : Nat} (h : rest < 10 ^ scale) :
    Digit.append whole (places scale rest) * 10 ^ (scale - (places scale rest).length) =
      whole * 10 ^ scale + rest := by
  induction scale generalizing whole rest with
  | zero =>
      have hzero : rest = 0 := by simpa using h
      simp [places, Digit.append, hzero]
  | succ scale ih =>
      unfold places
      by_cases hzero : rest = 0
      · -- No more places are written, and each that is left out would be a zero.
        rw [if_pos hzero, hzero]
        rfl
      · have hpos : 0 < 10 ^ scale := Nat.pow_pos (by decide)
        have hfirst : rest / 10 ^ scale < 10 := by
          rw [Nat.div_lt_iff_lt_mul hpos, ← Nat.pow_succ']
          exact h
        have hlater := ih (10 * whole + rest / 10 ^ scale) (Nat.mod_lt rest hpos)
        have hdigit : (Fin.ofNat 10 (rest / 10 ^ scale)).val = rest / 10 ^ scale :=
          Nat.mod_eq_of_lt hfirst
        rw [if_neg hzero, Digit.append_cons, List.length_cons, Nat.add_sub_add_right, hdigit, hlater]
        calc (10 * whole + rest / 10 ^ scale) * 10 ^ scale + rest % 10 ^ scale
            = 10 * whole * 10 ^ scale + (10 ^ scale * (rest / 10 ^ scale) + rest % 10 ^ scale) := by
              rw [Nat.add_mul, Nat.mul_comm (rest / 10 ^ scale), Nat.add_assoc]
          _ = whole * 10 ^ (scale + 1) + rest := by
              rw [Nat.div_add_mod, Nat.pow_succ', ← Nat.mul_assoc, Nat.mul_comm whole]

theorem append_places_div_mod (size scale : Nat) :
    Digit.append (size / 10 ^ scale) (places scale (size % 10 ^ scale)) *
        10 ^ (scale - (places scale (size % 10 ^ scale)).length) = size := by
  rw [append_places _ (Nat.mod_lt size (Nat.pow_pos (by decide))), Nat.mul_comm]
  exact Nat.div_add_mod size (10 ^ scale)

/-- Digits that fit are all taken in, whatever underscores are among them. -/
theorem Plain.takePlaces_of_few {places : List Place} {size scale : Nat}
    (hscale : scale + (digitsOf places).length ≤ maxScale)
    (hsize : Digit.append size (digitsOf places) < sizeBound) :
    takePlaces places size scale =
      some (Digit.append size (digitsOf places), scale + (digitsOf places).length) := by
  -- A number only grows with its digits, so the bound on the last size is one on each before it.
  induction places generalizing size scale with
  | nil => rfl
  | cons p rest ih =>
      cases p with
      | none =>
          have hdigits : digitsOf (none :: rest) = digitsOf rest := rfl
          rw [hdigits] at hscale hsize ⊢
          rw [takePlaces]
          by_cases hfull : scale = maxScale ∧ size / 10 < shortBound
          · -- All places are taken, so no digit is left that the underscore could cut off.
            have hnone : digitsOf rest = [] := List.length_eq_zero_iff.mp (by omega)
            rw [if_pos hfull, hnone]
            rfl
          · rw [if_neg hfull]
            exact ih hscale hsize
      | some d =>
          have hdigits : digitsOf (some d :: rest) = d :: digitsOf rest := rfl
          rw [hdigits] at hscale hsize ⊢
          rw [List.length_cons] at hscale
          rw [Digit.append_cons] at hsize
          have hfits : scale < maxScale ∧ 10 * size + d.val < sizeBound :=
            ⟨by omega, Nat.lt_of_le_of_lt (Digit.le_append _ _) hsize⟩
          rw [takePlaces, if_pos hfits, ih (by omega) hsize, Digit.append_cons, List.length_cons,
            Nat.add_assoc, Nat.add_comm 1]

/-! ## Written forms -/

/-- The whole part, and a point and the fraction if there is one. -/
def body (whole fraction : List Digit) : List Char :=
  match fraction with
  | [] => whole.map Digit.toChar
  | fraction => whole.map Digit.toChar ++ '.' :: fraction.map Digit.toChar

theorem exists_body (size scale : Nat) :
    ∃ whole : List Digit, whole ≠ [] ∧ Digit.number whole = size / 10 ^ scale ∧
      renderSize size scale = body whole (places scale (size % 10 ^ scale)) := by
  obtain ⟨whole, hwhole, hdigits, hnumber⟩ := Digit.exists_row (size / 10 ^ scale)
  refine ⟨whole, hwhole, hnumber, ?_⟩
  unfold renderSize body
  cases places scale (size % 10 ^ scale) with
  | nil => exact hdigits
  | cons d fraction => exact congrArg (· ++ '.' :: (d :: fraction).map Digit.toChar) hdigits

theorem no_point_in_row (digits : List Digit) :
    ∀ c ∈ digits.map Digit.toChar, decide (c ≠ '.') = true := by
  intro c hc
  obtain ⟨d, _, rfl⟩ := List.mem_map.mp hc
  exact decide_eq_true (d.toChar_ne rfl)

/-- The whole part ends before the point, or where there is none at the end. -/
theorem takeWhile_body (whole fraction : List Digit) :
    (body whole fraction).takeWhile (· ≠ '.') = whole.map Digit.toChar := by
  cases fraction with
  | nil =>
      have htake : (whole.map Digit.toChar ++ []).takeWhile (· ≠ '.') = whole.map Digit.toChar :=
        (List.takeWhile_append_of_pos (no_point_in_row whole)).trans (List.append_nil _)
      rwa [List.append_nil] at htake
  | cons d fraction =>
      unfold body
      rw [List.takeWhile_append_of_pos (no_point_in_row whole)]
      simp

theorem dropWhile_body (whole fraction : List Digit) :
    ((body whole fraction).dropWhile (· ≠ '.')).drop 1 = fraction.map Digit.toChar := by
  cases fraction with
  | nil =>
      have hdrop : (whole.map Digit.toChar ++ []).dropWhile (· ≠ '.') = [] :=
        List.dropWhile_append_of_pos (no_point_in_row whole)
      rw [List.append_nil] at hdrop
      exact congrArg (List.drop 1) hdrop
  | cons d fraction =>
      unfold body
      rw [List.dropWhile_append_of_pos (no_point_in_row whole)]
      simp

namespace Plain

theorem sign_of_digit (d : Digit) (cs : List Char) : sign (d.toChar :: cs) = (false, d.toChar :: cs) := by
  unfold sign
  split
  · rename_i heq
    exact absurd (List.cons.inj heq).1 (d.toChar_ne rfl)
  · rename_i heq
    exact absurd (List.cons.inj heq).1 (d.toChar_ne rfl)
  · rfl

theorem starts_of_digit (d : Digit) (cs : List Char) : starts (d.toChar :: cs) = true := by
  unfold starts
  split
  · rename_i heq
    exact absurd (List.cons.inj heq).1 (d.toChar_ne rfl)
  · rename_i heq
    rw [← (List.cons.inj heq).1, Digit.ofChar?_toChar]
    rfl
  · rename_i heq
    cases heq

theorem exists_body_eq_cons (d : Digit) (whole fraction : List Digit) :
    ∃ cs, body (d :: whole) fraction = d.toChar :: cs := by
  cases fraction with
  | nil => exact ⟨_, rfl⟩
  | cons e fraction => exact ⟨_, rfl⟩

/-- A written form is taken apart into its sign and its digits. -/
theorem ofChars?_body (negative : Bool) {whole fraction : List Digit} (hwhole : whole ≠ []) :
    ofChars? (if negative then '-' :: body whole fraction else body whole fraction) =
      some ⟨negative, whole.map some, fraction.map some⟩ := by
  obtain ⟨d, later, rfl⟩ := List.exists_cons_of_ne_nil hwhole
  obtain ⟨cs, hcs⟩ := exists_body_eq_cons d later fraction
  have hstarts : starts (body (d :: later) fraction) = true := by
    rw [hcs]
    exact starts_of_digit d cs
  -- A minus is taken off, and the first digit is no sign.
  have hsign : sign (if negative then '-' :: body (d :: later) fraction
      else body (d :: later) fraction) = (negative, body (d :: later) fraction) := by
    cases negative with
    | true => rfl
    | false =>
        rw [if_neg Bool.false_ne_true, hcs]
        exact sign_of_digit d cs
  unfold ofChars?
  rw [hsign]
  simp only [hstarts, if_true, takeWhile_body, dropWhile_body, mapM_place?_map_toChar]

/-- Digits that fit all count. -/
theorem exists_toDecimal? (p : Plain) (hscale : (digitsOf p.fraction).length ≤ maxScale)
    (hsize : Digit.append (Digit.number (digitsOf p.whole)) (digitsOf p.fraction) < sizeBound) :
    ∃ e, p.toDecimal? = some e ∧ e.negative = (p.negative && e.size != 0) ∧
      e.size = Digit.append (Digit.number (digitsOf p.whole)) (digitsOf p.fraction) ∧
        e.scale = (digitsOf p.fraction).length := by
  have hwhole : Digit.number (digitsOf p.whole) < sizeBound :=
    Nat.lt_of_le_of_lt (Digit.le_append _ _) hsize
  have hfew : 0 + (digitsOf p.fraction).length ≤ maxScale := by omega
  have hplaces := takePlaces_of_few hfew hsize
  refine ⟨⟨p.negative && Digit.append (Digit.number (digitsOf p.whole)) (digitsOf p.fraction) != 0,
    Digit.append (Digit.number (digitsOf p.whole)) (digitsOf p.fraction),
    (digitsOf p.fraction).length, hsize, hscale⟩, ?_, rfl, rfl, rfl⟩
  unfold toDecimal?
  simp only [hwhole, if_true, hplaces, Nat.zero_add]
  exact ofParts?_eq_some_iff.mpr ⟨rfl, rfl, rfl⟩

end Plain

/-! ## Reading back -/

/-- The same number in fewer places, those left out being zeros; zero has no sign. -/
structure Trimmed (d e : Decimal) : Prop where
  negative : e.negative = (d.negative && e.size != 0)
  scale_le : e.scale ≤ d.scale
  size : e.size * 10 ^ (d.scale - e.scale) = d.size

/-- Every decimal reads back, whatever its sign and its scale. -/
theorem read?_render (d : Decimal) : ∃ e, read? d.render = some e ∧ Trimmed d e := by
  obtain ⟨whole, hwhole, hnumber, hbody⟩ := exists_body d.size d.scale
  -- From here on it does not matter how the fraction was come by, only what it is worth.
  generalize hplaces : places d.scale (d.size % 10 ^ d.scale) = fraction at hbody
  have hvalue : Digit.append (Digit.number whole) fraction * 10 ^ (d.scale - fraction.length) =
      d.size := by
    rw [hnumber, ← hplaces]
    exact append_places_div_mod d.size d.scale
  have hscale : fraction.length ≤ d.scale := by
    rw [← hplaces]
    exact length_places_le ..
  -- What is read is no greater than the size that was written, so it fits.
  have hsize : Digit.append (Digit.number whole) fraction < sizeBound := by
    refine Nat.lt_of_le_of_lt ?_ d.size_lt
    rw [← hvalue]
    exact Nat.le_mul_of_pos_right _ (Nat.pow_pos (by decide))
  have hread := Plain.exists_toDecimal? ⟨d.negative, whole.map some, fraction.map some⟩
  simp only [digitsOf_map_some] at hread
  obtain ⟨e, he, hnegative, hesize, hescale⟩ := hread (Nat.le_trans hscale d.scale_le) hsize
  refine ⟨e, ?_, hnegative, ?_, ?_⟩
  · unfold read? render
    rw [String.toList_ofList, hbody, ofChars?, ofPlainChars?, Plain.ofChars?_body d.negative hwhole,
      Option.bind_some, he]
  · rw [hescale]
    exact hscale
  · rw [hesize, hescale]
    exact hvalue

end Decimal

/-! ## Amounts -/

namespace Amount

/-- Zeros at the end make no difference to the amount that is nearest. -/
theorem ofDecimal?_of_trimmed {d e : Decimal} (h : Decimal.Trimmed d e) (hpos : d.negative = false) :
    ofDecimal? e = ofDecimal? d := by
  have hnegative : e.negative = false := by
    rw [h.negative, hpos, Bool.false_and]
  have hscale : 10 ^ d.scale = 10 ^ e.scale * 10 ^ (d.scale - e.scale) := by
    rw [← Nat.pow_add, Nat.add_sub_cancel' h.scale_le]
  have hcount : Decimal.roundHalfEven (d.size * perUnit) (10 ^ d.scale) =
      Decimal.roundHalfEven (e.size * perUnit) (10 ^ e.scale) := by
    rw [← h.size, Nat.mul_right_comm, hscale]
    exact Decimal.roundHalfEven_mul_mul _ _ (Nat.pow_pos (by decide))
  unfold ofDecimal?
  rw [hnegative, hpos, hcount]

theorem ofDecimal?_toDecimal (a : Amount) : ofDecimal? a.toDecimal = some a := by
  have hcount : Decimal.roundHalfEven (a.toDecimal.size * perUnit) (10 ^ a.toDecimal.scale) =
      a.raw.toNat :=
    Decimal.roundHalfEven_mul a.raw.toNat perUnit (by decide)
  have hnegative : a.toDecimal.negative = false := rfl
  unfold ofDecimal?
  simp only [hnegative, hcount, Bool.false_eq_true, if_false, Word.toNat_le_limit, if_true,
    UInt64.ofNat_toNat]

theorem parse?_render (a : Amount) : parse? a.render = some a := by
  obtain ⟨e, hread, htrimmed⟩ := Decimal.read?_render a.toDecimal
  unfold parse? render
  rw [hread, Option.bind_some, ofDecimal?_of_trimmed htrimmed rfl, ofDecimal?_toDecimal]

/-- An amount reads back from its text, and is got back from its decimal; so no two amounts have one
text. -/
theorem amounts_survive_their_text :
    (∀ a : Amount, parse? a.render = some a ∧ ofDecimal? a.toDecimal = some a) ∧
      ∀ a b : Amount, a.render = b.render → a = b := by
  constructor
  · intro a
    exact ⟨parse?_render a, ofDecimal?_toDecimal a⟩
  · intro a b htext
    have hboth : some a = some b := by
      rw [← parse?_render a, htext, parse?_render b]
    exact Option.some.inj hboth

end Amount
end SlotAuction
