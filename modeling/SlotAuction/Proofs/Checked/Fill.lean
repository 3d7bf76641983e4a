import SlotAuction.Proofs.Checked.Tally
import SlotAuction.Proofs.Fill.Walk

/-!
# Checked fills — a walk whose numbers fit and whose positions exist

The walk counts down the open slots, counts up the slots of each placement, and tells where in the pool its
tail begins.  Here each of these numbers is checked.

* `Booking.ofBundleChecked`, `Ledger.offerChecked`, `Fill.walkChecked` — the walk with its checks;
* `Ledger.Accounts.offerChecked_eq` — a ledger that is right never fails an offer;
* `Fill.walkChecked_eq` — so no walk fails, if the slots of the pool are words.
-/

namespace SlotAuction

open Outcome (awardedSlots)

/-! ## Bookings -/

namespace Booking

/-- Counts the parts of each placement, and those of all placements. -/
def countPartsChecked (placements : List Placement) :
    List Candidate → Tally → UInt64 → Option (Tally × UInt64)
  | [], deltas, resolved => some (deltas, resolved)
  | part :: parts, deltas, resolved =>
      match Placement.locate placements part.placement with
      | some position => do
          let deltas ← Tally.incrementChecked deltas position 1
          let resolved ← Word.addChecked resolved 1
          countPartsChecked placements parts deltas resolved
      | none => countPartsChecked placements parts deltas resolved

def ofBundleChecked (placements : List Placement) (b : Bundle) (fills deltas : Tally) :
    Option Booking :=
  if b.count = 0 then some ⟨false, fills, deltas⟩
  else do
    let counted ← countPartsChecked placements b.parts (Tally.clearTo deltas placements.length) 0
    if counted.2 = b.count then
      let committed ← Tally.commitChecked fills counted.1 placements
      some ⟨committed.1, committed.2, counted.1⟩
    else some ⟨false, fills, counted.1⟩

variable {placements : List Placement}

theorem countPartsChecked_eq {parts : List Candidate} {deltas : Tally} {resolved : UInt64}
    (hdeltas : ∀ position,
      (Tally.get deltas position).toNat + hits placements parts position ≤ Word.limit)
    (hresolved : resolved.toNat + located placements parts ≤ Word.limit) :
    countPartsChecked placements parts deltas resolved =
      some (countParts placements parts deltas, resolved + .ofNat (located placements parts)) := by
  induction parts generalizing deltas resolved with
  | nil => simp [countPartsChecked, countParts, located]
  | cons part parts ih =>
      rw [located_cons] at hresolved ⊢
      unfold countPartsChecked countParts
      cases hfound : Placement.locate placements part.placement with
      | none =>
          rw [hfound] at hresolved
          exact ih (fun position => by simpa [hits_cons, hfound] using hdeltas position) hresolved
      | some position =>
          rw [hfound, Option.isSome_some, if_pos rfl] at hresolved
          have hone : (1 : UInt64).toNat = 1 := rfl
          have hadd : resolved.toNat + (1 : UInt64).toNat ≤ Word.limit := by omega
          have hincrement : (Tally.get deltas position).toNat + (1 : UInt64).toNat ≤ Word.limit := by
            have hhere := hdeltas position
            rw [hits_cons, hfound, if_pos rfl] at hhere
            omega
          -- The part moves from those to come to those counted.
          have hdeltas' : ∀ other, (Tally.get (Tally.increment deltas position 1) other).toNat +
              hits placements parts other ≤ Word.limit := by
            intro other
            have hother := hdeltas other
            rw [hits_cons, hfound] at hother
            rw [Tally.get_increment]
            by_cases hsame : other = position
            · rw [if_pos (congrArg some hsame.symm)] at hother
              rw [if_pos hsame, Word.toNat_add_of_le hincrement, ← hsame]
              omega
            · rw [if_neg hsame]
              omega
          have hresolved' : (resolved + 1).toNat + located placements parts ≤ Word.limit := by
            rw [Word.toNat_add_of_le hadd]
            omega
          dsimp only
          rw [Tally.incrementChecked_eq hincrement, Word.addChecked_eq hadd]
          show countPartsChecked placements parts _ _ = _
          rw [ih hdeltas' hresolved', Option.isSome_some, if_pos rfl, UInt64.add_assoc,
            UInt64.ofNat_add, UInt64.add_comm 1]
          rfl

theorem located_le_length (placements : List Placement) (parts : List Candidate) :
    located placements parts ≤ parts.length :=
  List.countP_le_length

section

variable {parts : List Candidate}

/-- From deltas that are cleared, no more is counted than there are parts. -/
theorem countPartsChecked_clearTo (hparts : parts.length ≤ Word.limit) (deltas : Tally) (size : Nat) :
    countPartsChecked placements parts (Tally.clearTo deltas size) 0 =
      some (countParts placements parts (Tally.clearTo deltas size),
        .ofNat (located placements parts)) := by
  have hlocated := (located_le_length placements parts).trans hparts
  have hdeltas : ∀ position, (Tally.get (Tally.clearTo deltas size) position).toNat +
      hits placements parts position ≤ Word.limit := by
    intro position
    rw [Tally.get_clearTo]
    exact (Nat.zero_add _).trans_le ((hits_le_located placements parts position).trans hlocated)
  have hresolved : (0 : UInt64).toNat + located placements parts ≤ Word.limit :=
    (Nat.zero_add _).trans_le hlocated
  rw [countPartsChecked_eq hdeltas hresolved, UInt64.zero_add]

theorem toNat_get_countParts_le (parts : List Candidate) (deltas : Tally) (size position : Nat) :
    (Tally.get (countParts placements parts (Tally.clearTo deltas size)) position).toNat ≤
      hits placements parts position := by
  rw [get_countParts, Tally.get_clearTo, UInt64.zero_add, UInt64.toNat_ofNat']
  exact Nat.mod_le ..

/-- Counted in words or not, the located parts are as many. -/
theorem ofNat_located_eq_iff (hparts : parts.length ≤ Word.limit) (count : UInt64) :
    UInt64.ofNat (located placements parts) = count ↔ located placements parts = count.toNat := by
  have hlocated := (located_le_length placements parts).trans hparts
  have hword : located placements parts < 2 ^ 64 := by
    unfold Word.limit at hlocated
    omega
  rw [← UInt64.toNat_inj, UInt64.toNat_ofNat', Nat.mod_eq_of_lt hword]

end

/-- Nothing wraps while a bundle is booked, if its parts are words and fit on the fills. -/
theorem ofBundleChecked_eq {b : Bundle} {fills : Tally} (hparts : b.parts.length ≤ Word.limit)
    (hsmall : ∀ position,
      (Tally.get fills position).toNat + hits placements b.parts position ≤ Word.limit)
    (deltas : Tally) :
    ofBundleChecked placements b fills deltas = some (ofBundle placements b fills deltas) := by
  unfold ofBundleChecked ofBundle
  by_cases hcount : b.count = 0
  · rw [if_pos hcount, if_pos hcount]
  · rw [if_neg hcount, if_neg hcount, countPartsChecked_clearTo hparts]
    show (if UInt64.ofNat (located placements b.parts) = b.count then _ else _) = _
    by_cases hall : located placements b.parts = b.count.toNat
    · have hfit : ∀ position, (Tally.get fills position).toNat +
          (Tally.get (countParts placements b.parts (Tally.clearTo deltas placements.length))
            position).toNat ≤ Word.limit := by
        intro position
        exact (Nat.add_le_add_left (toNat_get_countParts_le ..) _).trans (hsmall position)
      rw [if_pos ((ofNat_located_eq_iff hparts b.count).mpr hall), Tally.commitChecked_eq hfit]
      simp only [hall, if_true]
      rfl
    · rw [if_neg (mt (ofNat_located_eq_iff hparts b.count).mp hall)]
      simp only [hall, if_false]

end Booking

/-! ## Offers -/

namespace Ledger

def offerSingleChecked (ledger : Ledger) (placements : List Placement) (id : String) :
    Option (Bool × Ledger) :=
  match Placement.locate placements id with
  | none => some (false, ledger)
  | some position =>
      if Tally.hasRoom ledger.fills placements position then do
        let fills ← Tally.incrementChecked ledger.fills position 1
        let openSlots ← Word.subChecked ledger.openSlots 1
        some (true, { ledger with openSlots := openSlots, fills := fills })
      else some (false, ledger)

def offerBundleChecked (ledger : Ledger) (placements : List Placement) (b : Bundle) :
    Option (Bool × Ledger) :=
  if ledger.openSlots < b.count then some (false, { ledger with bundleSkipped := true })
  else do
    let booking ← Booking.ofBundleChecked placements b ledger.fills ledger.deltas
    let openSlots ←
      if booking.accepted then Word.subChecked ledger.openSlots b.count else some ledger.openSlots
    some (booking.accepted, { ledger with
      openSlots := openSlots
      fills := booking.fills
      deltas := booking.deltas })

def offerChecked (ledger : Ledger) (placements : List Placement) (c : Candidate) :
    Option (Bool × Ledger) :=
  match c.bundle? with
  | none => ledger.offerSingleChecked placements c.placement
  | some b => ledger.offerBundleChecked placements b

variable {placements : List Placement} {ledger : Ledger} {won : List Candidate} {c : Candidate}

/-- A count that is less than wanted has room for one more, and so has the count of open slots. -/
theorem offerSingleChecked_eq (hopen : ¬ ledger.openSlots < 1) (id : String) :
    ledger.offerSingleChecked placements id = some (ledger.offerSingle placements id) := by
  unfold offerSingleChecked offerSingle
  cases Placement.locate placements id with
  | none => rfl
  | some position =>
      dsimp only
      by_cases hroom : Tally.hasRoom ledger.fills placements position = true
      · have hfit : (Tally.get ledger.fills position).toNat + (1 : UInt64).toNat ≤ Word.limit := by
          unfold Tally.hasRoom at hroom
          split at hroom
          · rename_i p _
            have hless := UInt64.lt_iff_toNat_lt.mp (of_decide_eq_true hroom)
            exact Nat.le_trans hless (Word.toNat_le_limit p.wanted)
          · cases hroom
        rw [if_pos hroom, if_pos hroom, Tally.incrementChecked_eq hfit,
          Word.subChecked_eq (UInt64.not_lt.mp hopen)]
        rfl
      · rw [if_neg hroom, if_neg hroom]

theorem Accounts.offerBundleChecked_eq {b : Bundle} (h : Accounts placements ledger won)
    (hc : c.bundle? = some b) (hfew : (awardedSlots (won ++ [c])).length < 2 ^ 64) :
    ledger.offerBundleChecked placements b = some (ledger.offerBundle placements b) := by
  have hparts : b.parts.length ≤ Word.limit := by
    rw [awardedSlots_append, awardedSlots_singleton, Candidate.slots_of_bundle hc,
      List.length_append, List.length_map] at hfew
    unfold Word.limit
    omega
  have hsmall : ∀ position, (Tally.get ledger.fills position).toNat +
      Booking.hits placements b.parts position ≤ Word.limit :=
    fun position => Nat.le_pred_of_lt (h.small hc hfew position)
  unfold Ledger.offerBundleChecked Ledger.offerBundle
  by_cases hlarge : ledger.openSlots < b.count
  · rw [if_pos hlarge, if_pos hlarge]
  · rw [if_neg hlarge, if_neg hlarge, Booking.ofBundleChecked_eq hparts hsmall,
      Word.subChecked_eq (UInt64.not_lt.mp hlarge)]
    generalize Booking.ofBundle placements b ledger.fills ledger.deltas = booking
    obtain ⟨accepted, fills, deltas⟩ := booking
    cases accepted with
    | true => rfl
    | false => rfl

/-- A ledger that is right never fails an offer. -/
theorem Accounts.offerChecked_eq (h : Accounts placements ledger won)
    (hopen : ¬ ledger.openSlots < 1) (hfew : (awardedSlots (won ++ [c])).length < 2 ^ 64) :
    ledger.offerChecked placements c = some (ledger.offer placements c) := by
  unfold Ledger.offerChecked Ledger.offer
  cases hc : c.bundle? with
  | none => exact offerSingleChecked_eq hopen c.placement
  | some b => exact h.offerBundleChecked_eq hc hfew

end Ledger

/-! ## The walk -/

namespace Fill

/-- What a walk leaves, with the position of the pool at which its tail starts. -/
structure Indexed where
  winners : List Candidate
  tailStart? : Option Nat
  ledger : Ledger

/-- Walks on from a position of the pool. -/
def walkChecked (placements : List Placement) : List Candidate → Nat → Ledger → Option Indexed
  | [], _, ledger => some ⟨[], none, ledger⟩
  | c :: rest, index, ledger =>
      if ledger.openSlots < 1 then
        some ⟨[], if ledger.bundleSkipped then some index else none, ledger⟩
      else do
        let offered ← ledger.offerChecked placements c
        let later ← walkChecked placements rest (index + 1) offered.2
        some (if offered.1 then { later with winners := c :: later.winners } else later)

def ofPoolChecked (placements : List Placement) (pool : List Candidate) (fills deltas : Tally) :
    Option Indexed :=
  walkChecked placements pool 0 (Ledger.start placements fills deltas)

/-- The fill of a pool, of which `index` candidates come before those walked over, by positions. -/
def indexed (fill : Fill) (index : Nat) (pool : List Candidate) : Indexed where
  winners := fill.winners
  tailStart? := fill.tail?.map fun tail => index + (pool.length - tail.length)
  ledger := fill.ledger

variable {placements : List Placement} {ledger : Ledger} {won pool : List Candidate}

/-- Seen from the candidate before, the tail starts at the same position. -/
theorem map_tailStart (c : Candidate) (rest : List Candidate) (ledger : Ledger) (index : Nat) :
    (walk placements rest ledger).tail?.map (fun tail => index + ((c :: rest).length - tail.length)) =
      (walk placements rest ledger).tail?.map fun tail => index + 1 + (rest.length - tail.length) := by
  cases htail : (walk placements rest ledger).tail? with
  | none => rfl
  | some tail =>
      obtain ⟨before, rfl, _⟩ := walk_split placements rest ledger htail
      simp only [Option.map_some, List.length_cons, List.length_append]
      congr 1
      omega

/-- The run: no step fails, and the tail starts where the walk stops. -/
theorem walkChecked_eq (h : ledger.Accounts placements won)
    (hfew : (awardedSlots (won ++ pool)).length < 2 ^ 64) (index : Nat) :
    walkChecked placements pool index ledger =
      some ((walk placements pool ledger).indexed index pool) := by
  -- The ledger stays right about whoever has won, so `won` and the position go along.
  induction pool generalizing ledger won index with
  | nil => rfl
  | cons c rest ih =>
      unfold walkChecked
      by_cases hclosed : ledger.openSlots < 1
      · rw [if_pos hclosed, walk_of_closed hclosed, indexed]
        cases ledger.bundleSkipped with
        | true => simp
        | false => rfl
      · have hone := few_slots_of_mem (List.mem_cons_self ..) hfew
        have hnext := h.offer hclosed (c := c)
        rw [if_neg hclosed, h.offerChecked_eq hclosed hone, walk_of_open hclosed]
        cases hyes : (ledger.offer placements c).1 with
        | false =>
            rw [hyes] at hnext
            show (walkChecked placements rest (index + 1) _).bind _ = _
            rw [ih hnext (few_slots_of_cons hfew), Option.bind_some, hyes, indexed, indexed,
              if_neg Bool.false_ne_true]
            dsimp only
            rw [if_neg Bool.false_ne_true, map_tailStart]
        | true =>
            rw [hyes] at hnext
            show (walkChecked placements rest (index + 1) _).bind _ = _
            rw [ih hnext (by simpa using hfew), Option.bind_some, hyes, indexed, indexed,
              if_pos rfl]
            dsimp only
            rw [if_pos rfl, map_tailStart]

end Fill
end SlotAuction
