import SlotAuction.Arithmetic

/-!
# Shuffle — uniform permutations from a source of random words

* `WordSource` — anything that yields 32-bit words one after another;
* `WordSource.drawBelow` — a number below a bound, each as likely as the other, by drawing again
  while the word falls into the part that would favour some numbers;
* `shuffle` — the last position is exchanged with a random one up to it, then the one before it,
  and so on; `shuffle_perm` says that nothing is lost and nothing added.
-/

namespace SlotAuction

open scoped Arithmetic

class WordSource (γ : Type) where
  next : γ → UInt32 × γ

namespace WordSource

variable {γ : Type} [WordSource γ]

/-! ## Numbers below a bound -/

/-- The greatest low half that is accepted: a bound shifted up to bit 31, less one. -/
def zone (bound : Nat) : Nat :=
  bound * 2 ^ (31 - bound.log2) - 1

/-- After so many refusals the word is taken as it is.  A word is refused with a chance below one
half, so this is never reached in practice; it makes the drawing end for every source. -/
def redrawLimit : Nat := 2 ^ (20 : Nat)

/-- The high half of the product of a word and the bound, once the low half is within the zone. -/
def drawBelowFrom (bound : Nat) : Nat → γ → Nat × γ
  | 0, source => ((next source).1.toNat * bound / 2 ^ (32 : Nat), (next source).2)
  | redraws + 1, source =>
      let drawn := next source
      let product := drawn.1.toNat * bound
      if product % 2 ^ (32 : Nat) ≤ zone bound then (product / 2 ^ (32 : Nat), drawn.2)
      else drawBelowFrom bound redraws drawn.2

def drawBelow (bound : Nat) (source : γ) : Nat × γ :=
  drawBelowFrom bound redrawLimit source

theorem drawBelowFrom_lt (bound : Nat) (pos : 0 < bound) (redraws : Nat) (source : γ) :
    (drawBelowFrom bound redraws source).1 < bound := by
  have below (word : UInt32) : word.toNat * bound / 2 ^ 32 < bound := by
    rw [Nat.div_lt_iff_lt_mul (by decide), Nat.mul_comm bound]
    exact Nat.mul_lt_mul_of_pos_right word.toNat_lt pos
  induction redraws generalizing source with
  | zero =>
      unfold drawBelowFrom
      exact below _
  | succ redraws ih =>
      unfold drawBelowFrom
      dsimp only
      split
      · exact below _
      · exact ih _

end WordSource

/-! ## Shuffling -/

section

variable {α γ : Type} [WordSource γ]

/-- Settles the positions from `last` down to the first but one. -/
def shuffleFrom : Nat → Array α → γ → Array α × γ
  | 0, items, source => (items, source)
  | last + 1, items, source =>
      let chosen := WordSource.drawBelow (last + 2) source
      shuffleFrom last (items.swapIfInBounds (last + 1) chosen.1) chosen.2

def shuffle (items : List α) (source : γ) : List α × γ :=
  let settled := shuffleFrom (items.length - 1) items.toArray source
  (settled.1.toList, settled.2)

theorem shuffleFrom_perm (last : Nat) (items : Array α) (source : γ) :
    (shuffleFrom last items source).1.toList.Perm items.toList := by
  induction last generalizing items source with
  | zero => exact .refl _
  | succ last ih =>
      unfold shuffleFrom
      refine (ih _ _).trans ?_
      unfold Array.swapIfInBounds
      split
      · split
        · exact (Array.swap_perm ..).toList
        · exact .refl _
      · exact .refl _

theorem shuffle_perm (items : List α) (source : γ) : (shuffle items source).1.Perm items :=
  shuffleFrom_perm ..

end

/-! ## A scripted source -/

/-- Yields the words of a script, then those of a mixing generator, and counts what it yields. -/
structure Scripted where
  script : List UInt32
  state : UInt64
  drawn : Nat

namespace Scripted

def start (script : List UInt32) (seed : UInt64) : Scripted := ⟨script, seed, 0⟩

/-- Scrambles the state of the mixing generator into an output. -/
def mix (state : UInt64) : UInt64 :=
  let z := (state ^^^ (state >>> 30)) * 0xBF58476D1CE4E5B9
  let z := (z ^^^ (z >>> 27)) * 0x94D049BB133111EB
  z ^^^ (z >>> 31)

def yield (s : Scripted) : UInt32 × Scripted :=
  match s.script with
  | word :: script => (word, ⟨script, s.state, s.drawn + 1⟩)
  | [] =>
      let state := s.state + 0x9E3779B97F4A7C15
      ((mix state >>> 32).toUInt32, ⟨[], state, s.drawn + 1⟩)

instance : WordSource Scripted := ⟨yield⟩

end Scripted
end SlotAuction
