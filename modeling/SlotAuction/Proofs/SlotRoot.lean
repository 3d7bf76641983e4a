import SlotAuction.Proofs.SortedSlots
import SlotAuction.Proofs.TextOrder

/-!
# SlotRoot — what the root of an award tells

The root is a digest of the awarded slots.  It is the same whenever the slots are, for they have one
order only.  It tells different slots apart as long as no placement contains the character zero:
then the first zero byte of a record ends the placement, and eight bytes of the amount follow.  A
placement that contains it can take in a whole record.

* `Outcome.InByteOrder` — the order of the sort, told by bytes;
* `Outcome.equal_slots_have_equal_roots` — the root depends on the awarded slots only;
* `Outcome.flatMap_slotBytes_inj` — records without zeros in the placements read in one way;
* `Outcome.root_commits_to_slots` — so equal roots mean equal slots, or a collision;
* `Outcome.slotBytes_append` — two records that are one.
-/

namespace SlotAuction
namespace Outcome

open Candidate (Slot)

open scoped Arithmetic

/-! ## Equal slots -/

/-- By the bytes of the placement, then by amount. -/
def InByteOrder (a b : Slot) : Prop :=
  Bytes.ofText a.1 < Bytes.ofText b.1 ∨ Bytes.ofText a.1 = Bytes.ofText b.1 ∧ a.2 ≤ b.2

instance (a b : Slot) : Decidable (InByteOrder a b) :=
  inferInstanceAs (Decidable (_ ∨ _))

theorem inByteOrder_iff_slotLE (a b : Slot) : InByteOrder a b ↔ slotLE a b = true := by
  rw [InByteOrder, Bytes.ofText_lt_iff, Bytes.ofText_inj, slotLE_iff]

/-- What is hashed is the slots in order, whichever way they were brought into it. -/
theorem rootMessage_of_ordered {winners : List Candidate} {arranged : List Slot}
    (hperm : arranged.Perm (awardedSlots winners)) (hbytes : arranged.Pairwise InByteOrder) :
    rootMessage winners = arranged.flatMap slotBytes := by
  have hsorted : arranged.Pairwise fun a b => slotLE a b = true :=
    hbytes.imp fun {a b} hab => (inByteOrder_iff_slotLE a b).mp hab
  rw [rootMessage, eq_slotSort hperm hsorted]

/-- Two lists of winners with the same slots, in whatever order and whatever bundles, have one root.
It is the digest of the slots in order, whichever way they were brought into it. -/
theorem equal_slots_have_equal_roots {winners others : List Candidate}
    (h : (awardedSlots winners).Perm (awardedSlots others)) :
    slotRoot winners = slotRoot others ∧
      ∀ arranged : List Slot, arranged.Perm (awardedSlots others) →
        arranged.Pairwise InByteOrder → slotRoot winners = sha256 (arranged.flatMap slotBytes) := by
  refine ⟨slotRoot_perm h, ?_⟩
  intro arranged hperm hbytes
  rw [slotRoot_perm h, slotRoot, rootMessage_of_ordered hperm hbytes]

/-- A bundle and a partner's ad. -/
def Sample.grouped : List Candidate :=
  [.bundle "all" [.ad "all-1" "top" (.ofUnits 3) none, .ad "all-2" "side" (.ofUnits 2) none],
   .partnerAd "lone" "top" (.ofUnits 3) none]

/-- The same slots in other bundles, one of them a partner's that bids more than its parts. -/
def Sample.regrouped : List Candidate :=
  [.ad "first" "side" (.ofUnits 2) none,
   .partnerBundle "twice" "page" (.ofUnits 9)
     [.ad "twice-1" "top" (.ofUnits 3) none, .ad "twice-2" "top" (.ofUnits 3) none] none none]

/-- Their slots, the side before the top. -/
def Sample.groupedSlots : List Slot :=
  [("side", .ofUnits 2), ("top", .ofUnits 3), ("top", .ofUnits 3)]

theorem equal_slots_have_equal_roots_of_regrouped :
    (awardedSlots Sample.grouped).Perm (awardedSlots Sample.regrouped) ∧
      slotRoot Sample.grouped = slotRoot Sample.regrouped ∧
        slotRoot Sample.grouped = sha256 (Sample.groupedSlots.flatMap slotBytes) := by
  have hperm : (awardedSlots Sample.grouped).Perm (awardedSlots Sample.regrouped) := by decide
  obtain ⟨hequal, harranged⟩ := equal_slots_have_equal_roots hperm
  exact ⟨hperm, hequal, harranged Sample.groupedSlots (by decide) (by decide)⟩

/-! ## Records -/

/-- No placement contains the character zero. -/
def ZeroFree (slots : List Slot) : Prop :=
  ∀ slot ∈ slots, '\x00' ∉ slot.1.toList

theorem ZeroFree.perm {slots others : List Slot} (h : ZeroFree slots) (hperm : others.Perm slots) :
    ZeroFree others := by
  intro slot hslot
  exact h slot (hperm.mem_iff.mp hslot)

/-- An amount is got back from its eight bytes. -/
theorem littleEndian_inj {x y : Amount}
    (h : Bytes.littleEndian 8 x.raw.toNat = Bytes.littleEndian 8 y.raw.toNat) : x = y := by
  have hlt : ∀ a : Amount, a.raw.toNat < 256 ^ 8 := fun a => a.raw.toNat_lt
  apply Amount.eq_of_toNat_eq
  have hback := congrArg Bytes.ofLittleEndian h
  rwa [Bytes.ofLittleEndian_littleEndian, Bytes.ofLittleEndian_littleEndian,
    Nat.mod_eq_of_lt (hlt x), Nat.mod_eq_of_lt (hlt y)] at hback

/-- What comes before the first zero byte is determined, and so is what comes after it. -/
theorem append_zero_inj {front front' back back' : List UInt8} (hfront : 0 ∉ front)
    (hfront' : 0 ∉ front') (h : front ++ 0 :: back = front' ++ 0 :: back') :
    front = front' ∧ back = back' := by
  -- If one front were shorter, its zero would stand within the other.
  induction front generalizing front' with
  | nil =>
      cases front' with
      | nil => exact ⟨rfl, (List.cons.inj h).2⟩
      | cons b front' => exact absurd (List.cons.inj h).1 (List.ne_of_not_mem_cons hfront')
  | cons a front ih =>
      cases front' with
      | nil => exact absurd (List.cons.inj h).1.symm (List.ne_of_not_mem_cons hfront)
      | cons b front' =>
          obtain ⟨hhead, hlater⟩ := List.cons.inj h
          obtain ⟨rfl, rfl⟩ := ih (List.not_mem_of_not_mem_cons hfront)
            (List.not_mem_of_not_mem_cons hfront') hlater
          exact ⟨by rw [hhead], rfl⟩

/-- The record of a slot is read off the front: the first zero byte ends the placement, and eight
bytes follow. -/
theorem slotBytes_append_inj {a b : Slot} (ha : '\x00' ∉ a.1.toList) (hb : '\x00' ∉ b.1.toList)
    {back back' : List UInt8} (h : slotBytes a ++ back = slotBytes b ++ back') :
    a = b ∧ back = back' := by
  unfold slotBytes at h
  rw [List.append_assoc, List.append_assoc, List.cons_append, List.cons_append] at h
  obtain ⟨hname, hlater⟩ := append_zero_inj (mt Bytes.zero_mem_ofText.mp ha)
    (mt Bytes.zero_mem_ofText.mp hb) h
  obtain ⟨hamount, hback⟩ := List.append_inj hlater (by simp)
  exact ⟨Prod.ext (Bytes.ofText_inj.mp hname) (littleEndian_inj hamount), hback⟩

theorem slotBytes_append_ne_nil (slot : Slot) (back : List UInt8) : slotBytes slot ++ back ≠ [] := by
  simp [slotBytes]

/-- Records without zeros in the placements read in one way. -/
theorem flatMap_slotBytes_inj {slots others : List Slot} (hslots : ZeroFree slots)
    (hothers : ZeroFree others) (h : slots.flatMap slotBytes = others.flatMap slotBytes) :
    slots = others := by
  -- Induction on the slots: the first record of both lists is read off the front.
  induction slots generalizing others with
  | nil =>
      cases others with
      | nil => rfl
      | cons b others => exact absurd h.symm (slotBytes_append_ne_nil b _)
  | cons a slots ih =>
      cases others with
      | nil => exact absurd h (slotBytes_append_ne_nil a _)
      | cons b others =>
          rw [List.flatMap_cons, List.flatMap_cons] at h
          obtain ⟨rfl, hlater⟩ := slotBytes_append_inj (hslots a List.mem_cons_self)
            (hothers b List.mem_cons_self) h
          have htail : slots = others :=
            ih (fun slot hslot => hslots slot (List.mem_cons_of_mem _ hslot))
              (fun slot hslot => hothers slot (List.mem_cons_of_mem _ hslot)) hlater
          rw [htail]

/-! ## Equal roots -/

theorem rootMessage_inj {winners others : List Candidate} (hwinners : ZeroFree (awardedSlots winners))
    (hothers : ZeroFree (awardedSlots others)) (h : rootMessage winners = rootMessage others) :
    (awardedSlots winners).Perm (awardedSlots others) := by
  have hsorted : (awardedSlots winners).mergeSort slotLE = (awardedSlots others).mergeSort slotLE :=
    flatMap_slotBytes_inj (hwinners.perm (List.mergeSort_perm ..))
      (hothers.perm (List.mergeSort_perm ..)) h
  have hback : ((awardedSlots winners).mergeSort slotLE).Perm (awardedSlots others) := by
    rw [hsorted]
    exact List.mergeSort_perm ..
  exact (List.mergeSort_perm ..).symm.trans hback

/-- Two messages with one digest. -/
structure Collision (message other : List UInt8) : Prop where
  differ : message ≠ other
  agree : sha256 message = sha256 other

/-- As long as no placement contains the character zero, the same bytes are hashed for the same slots
only, so different slots share a root only through a collision of the digest. -/
theorem root_commits_to_slots {winners others : List Candidate}
    (hwinners : ZeroFree (awardedSlots winners)) (hothers : ZeroFree (awardedSlots others)) :
    (rootMessage winners = rootMessage others ↔
        (awardedSlots winners).Perm (awardedSlots others)) ∧
      (slotRoot winners = slotRoot others → (awardedSlots winners).Perm (awardedSlots others) ∨
        Collision (rootMessage winners) (rootMessage others)) := by
  constructor
  · exact ⟨rootMessage_inj hwinners hothers, rootMessage_perm⟩
  · -- Equal roots leave two cases: the messages are equal too, or they collide.
    intro hroot
    by_cases hmessage : rootMessage winners = rootMessage others
    · exact Or.inl (rootMessage_inj hwinners hothers hmessage)
    · exact Or.inr ⟨hmessage, hroot⟩

instance (slots : List Slot) : Decidable (ZeroFree slots) :=
  inferInstanceAs (Decidable (∀ slot ∈ slots, '\x00' ∉ slot.1.toList))

/-- The slots of `Sample.grouped` but for one amount. -/
def Sample.raised : List Candidate :=
  [.bundle "all" [.ad "all-1" "top" (.ofUnits 3) none, .ad "all-2" "side" (.ofUnits 2) none],
   .partnerAd "lone" "top" (.ofUnits 4) none]

theorem root_commits_to_slots_of_raised :
    ZeroFree (awardedSlots Sample.grouped) ∧ ZeroFree (awardedSlots Sample.raised) ∧
      rootMessage Sample.grouped ≠ rootMessage Sample.raised := by
  have hgrouped : ZeroFree (awardedSlots Sample.grouped) := by decide
  have hraised : ZeroFree (awardedSlots Sample.raised) := by decide
  refine ⟨hgrouped, hraised, ?_⟩
  intro hmessage
  have hperm := (root_commits_to_slots hgrouped hraised).1.mp hmessage
  exact absurd hperm (by decide)

/-! ## Placements that contain a zero -/

/-- Where the bytes of an amount are a text, the record of its slot and the next record are together
that of one slot. -/
theorem slotBytes_append {name text next : String} {amount last : Amount}
    (h : Bytes.ofText text = Bytes.littleEndian 8 amount.raw.toNat) :
    slotBytes (name, amount) ++ slotBytes (next, last) =
      slotBytes (name ++ "\x00" ++ text ++ next, last) := by
  have happend : ∀ front back : String,
      Bytes.ofText (front ++ back) = Bytes.ofText front ++ Bytes.ofText back := by
    intro front back
    simp [Bytes.ofText]
  have hzero : Bytes.ofText "\x00" = [0] := by decide
  simp only [slotBytes, happend, hzero, h]
  simp

/-- Two winners, the bytes of the first amount being the text `AAAAAAAA`. -/
def Sample.apart : List Candidate :=
  [.ad "first" "a" ⟨0x4141414141414141⟩ none, .ad "second" "c" ⟨7⟩ none]

/-- One winner, whose placement takes in the whole record of the first of those. -/
def Sample.joined : List Candidate :=
  [.ad "third" "a\x00AAAAAAAAc" ⟨7⟩ none]

/-- Different slots are hashed alike, so they share a root without any collision. -/
theorem joined_slots_share_root :
    ¬ (awardedSlots Sample.apart).Perm (awardedSlots Sample.joined) ∧
      rootMessage Sample.apart = rootMessage Sample.joined ∧
        slotRoot Sample.apart = slotRoot Sample.joined := by
  have hapart := rootMessage_of_ordered (List.Perm.refl (awardedSlots Sample.apart)) (by decide)
  have hjoined := rootMessage_of_ordered (List.Perm.refl (awardedSlots Sample.joined)) (by decide)
  have hmessage : rootMessage Sample.apart = rootMessage Sample.joined := by
    calc rootMessage Sample.apart
        = slotBytes ("a", ⟨0x4141414141414141⟩) ++ slotBytes ("c", ⟨7⟩) := hapart
      _ = slotBytes ("a" ++ "\x00" ++ "AAAAAAAA" ++ "c", ⟨7⟩) := slotBytes_append (by decide)
      _ = rootMessage Sample.joined := hjoined.symm
  exact ⟨by decide, hmessage, congrArg sha256 hmessage⟩

end Outcome
end SlotAuction
