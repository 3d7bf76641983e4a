import Mathlib.Data.List.Forall2
import SlotAuction.Scratch.Custody
import SlotAuction.Tally

/-!
# Leases — any number of them, under any limits, from one shelf

Borrowers take out leases, do with the buffers what they like, and give them back in any order.  The
shelf is a stack that they share: a buffer that came back under the limits of one lease goes out with
the next lease, whatever the limits of that one.

* `Custody.Act`, `Custody.after` — what borrowers do, and the custody after it;
* `Custody.returned` — for each idle buffer, the lease that it came back with;
* `Custody.Accounted` — the invariant: `Accounted.perform` for one act, `accounted_after` for a run;
* `Custody.leases_keep_to_limits` — leases start with nothing in their buffers, and the shelf keeps to
  the limits that the leases gave.
-/

namespace SlotAuction

/-! ## One lease, one return -/

namespace Shelf

variable {α : Type} {shelf : Shelf α}

theorem idle_lease (shelf : Shelf α) (limits : Limits) :
    (shelf.lease limits).2.idle = shelf.idle.tail := by
  rcases shelf with ⟨_ | ⟨buffer, rest⟩⟩
  · rfl
  · rfl

theorem limits_lease (shelf : Shelf α) (limits : Limits) :
    (shelf.lease limits).1.limits = limits := by
  rcases shelf with ⟨_ | ⟨buffer, rest⟩⟩
  · rfl
  · rfl

/-- A buffer that comes back is dropped, or it is emptied and put on top, as far as its lease allows. -/
theorem takeBack_cases [Cell α] (shelf : Shelf α) (lease : Lease α) :
    shelf.takeBack lease = shelf ∨
      shelf.takeBack lease = ⟨lease.buffer.clear :: shelf.idle⟩ ∧
        lease.buffer.clear.allotment ≤ lease.limits.maxRetained ∧
          shelf.idle.length < lease.limits.maxIdle := by
  unfold takeBack
  dsimp only
  by_cases hlarge : lease.limits.maxRetained < lease.buffer.clear.allotment
  · left
    rw [if_pos hlarge]
  · by_cases hroom : shelf.idle.length < lease.limits.maxIdle
    · right
      refine ⟨?_, Nat.le_of_not_lt hlarge, hroom⟩
      rw [if_neg hlarge, if_pos hroom]
    · left
      rw [if_neg hlarge, if_neg hroom]

end Shelf

namespace Custody

variable {α : Type}

/-! ## Acts -/

/-- What a borrower does; work on a buffer may do anything to it. -/
inductive Act (α : Type) where
  | lease (name : String) (limits : Limits)
  | alter (name : String) (change : Buffer α → Buffer α)
  | giveBack (name : String)

/-- The limits that the act gives, if it takes out a lease. -/
def Act.limits? : Act α → Option Limits
  | .lease _ limits => some limits
  | .alter _ _ => none
  | .giveBack _ => none

/-- The limits of all leases that were taken out. -/
def given (acts : List (Act α)) : List Limits :=
  acts.filterMap Act.limits?

/-- The most idle buffers that any of the limits allows. -/
def largestIdle (limits : List Limits) : Nat :=
  limits.foldr (fun l most => max l.maxIdle most) 0

theorem maxIdle_le_largestIdle {limits : List Limits} {l : Limits} (h : l ∈ limits) :
    l.maxIdle ≤ largestIdle limits := by
  induction limits with
  | nil => cases h
  | cons first rest ih =>
      have hcons : largestIdle (first :: rest) = max first.maxIdle (largestIdle rest) := rfl
      rcases List.mem_cons.mp h with rfl | hlater
      · omega
      · have := ih hlater
        omega

theorem largestIdle_le {limits : List Limits} {bound : Nat} (h : ∀ l ∈ limits, l.maxIdle ≤ bound) :
    largestIdle limits ≤ bound := by
  induction limits with
  | nil => exact Nat.zero_le bound
  | cons first rest ih =>
      have hfirst := h first (List.mem_cons_self ..)
      have hrest := ih fun l hl => h l (List.mem_cons_of_mem _ hl)
      exact Nat.max_le.mpr ⟨hfirst, hrest⟩

theorem largestIdle_mono {limits others : List Limits} (h : limits ⊆ others) :
    largestIdle limits ≤ largestIdle others :=
  largestIdle_le fun _ hl => maxIdle_le_largestIdle (h hl)

/-- A lease takes the topmost idle buffer, if there is one. -/
theorem idle_lease (c : Custody α) (name : String) (limits : Limits) :
    (c.lease name limits).idle = c.idle - 1 := by
  show (c.shelf.lease limits).2.idle.length = c.shelf.idle.length - 1
  rw [Shelf.idle_lease, List.length_tail]

theorem buffer?_lease (c : Custody α) (name : String) (limits : Limits) :
    (c.lease name limits).buffer? name = some (c.shelf.lease limits).1.buffer := by
  simp [buffer?, Custody.lease]

variable [Cell α]

def perform (c : Custody α) : Act α → Custody α
  | .lease name limits => c.lease name limits
  | .alter name change => c.alter name change
  | .giveBack name => c.giveBack name

/-- The custody after one act after another, at first with nothing idle and nothing held. -/
def after (acts : List (Act α)) : Custody α :=
  acts.foldl perform empty

/-- A return comes to nothing but the end of a lease, or it puts the buffer of that lease on top of the
shelf, emptied, as far as the lease allows. -/
theorem giveBack_cases (c : Custody α) (name : String) :
    (c.giveBack name).shelf = c.shelf ∨
      ∃ lease, c.held.lookup name = some lease ∧
        (c.giveBack name).shelf.idle = lease.buffer.clear :: c.shelf.idle ∧
          lease.buffer.clear.allotment ≤ lease.limits.maxRetained ∧
            c.idle < lease.limits.maxIdle := by
  unfold giveBack
  cases hheld : c.held.lookup name with
  | none => exact Or.inl rfl
  | some lease =>
      rcases c.shelf.takeBack_cases lease with hdropped | ⟨hkept, hretained, hroom⟩
      · exact Or.inl hdropped
      · right
        exact ⟨lease, rfl, congrArg Shelf.idle hkept, hretained, hroom⟩

theorem held_giveBack_subset (c : Custody α) (name : String) :
    (c.giveBack name).held ⊆ c.held := by
  unfold giveBack
  cases c.held.lookup name with
  | none => exact List.Subset.refl _
  | some lease => exact List.filter_subset_self _

/-- A return adds one idle buffer at most. -/
theorem idle_giveBack (c : Custody α) (name : String) :
    (c.giveBack name).idle = c.idle ∨ (c.giveBack name).idle = c.idle + 1 := by
  rcases c.giveBack_cases name with hsame | ⟨lease, _, hkept, _⟩
  · left
    rw [idle, hsame, idle]
  · right
    rw [idle, hkept, List.length_cons, idle]

/-! ## Where idle buffers come from -/

/-- A custody, and the leases that its idle buffers came back with, in the order of the shelf. -/
structure Traced (α : Type) where
  custody : Custody α
  returned : List (Lease α)

namespace Traced

/-- The custody performs the act.  A new lease takes the topmost idle buffer, and where a return makes
the shelf grow, it is the lease returned that is on top. -/
def perform (t : Traced α) (act : Act α) : Traced α where
  custody := t.custody.perform act
  returned :=
    match act with
    | .lease _ _ => t.returned.tail
    | .alter _ _ => t.returned
    | .giveBack name =>
        if t.custody.idle < (t.custody.giveBack name).idle then
          (t.custody.held.lookup name).toList ++ t.returned
        else t.returned

def after (acts : List (Act α)) : Traced α :=
  acts.foldl perform ⟨empty, []⟩

theorem custody_foldl (acts : List (Act α)) (t : Traced α) :
    (acts.foldl perform t).custody = acts.foldl Custody.perform t.custody := by
  induction acts generalizing t with
  | nil => rfl
  | cons act acts ih => exact ih (t.perform act)

/-- The trace has no influence on the custody. -/
theorem custody_after (acts : List (Act α)) : (after acts).custody = Custody.after acts :=
  custody_foldl acts ⟨empty, []⟩

end Traced

/-- For each idle buffer after the acts, the topmost first, the lease that it came back with. -/
def returned (acts : List (Act α)) : List (Lease α) :=
  (Traced.after acts).returned

/-- The buffer is the one that the lease brought back, emptied, and no larger than the lease allows. -/
structure CameBack (buffer : Buffer α) (lease : Lease α) : Prop where
  emptied : buffer = lease.buffer.clear
  retained : buffer.allotment ≤ lease.limits.maxRetained

/-! ## The invariant -/

/-- Idle buffers are empty and came back with leases that allow for them, the leases held have limits
that were given, and the shelf keeps to these. -/
structure Accounted (t : Traced α) (limits : List Limits) : Prop where
  clean : t.custody.shelf.Clean
  cameBack : List.Forall₂ CameBack t.custody.shelf.idle t.returned
  held : ∀ entry ∈ t.custody.held, entry.2.limits ∈ limits
  idle_le : t.custody.idle ≤ largestIdle limits

section

variable {t : Traced α} {limits : List Limits}

theorem accounted_empty : Accounted (⟨empty, []⟩ : Traced α) [] where
  clean := Shelf.clean_empty
  cameBack := List.Forall₂.nil
  held := by
    intro entry hentry
    cases hentry
  idle_le := Nat.le_refl 0

theorem Accounted.lease (h : Accounted t limits) (name : String) (l : Limits) :
    Accounted (t.perform (.lease name l)) (limits ++ [l]) where
  clean := (h.clean.lease l).2
  cameBack := by
    show List.Forall₂ CameBack (t.custody.shelf.lease l).2.idle t.returned.tail
    rw [Shelf.idle_lease, ← List.drop_one, ← List.drop_one]
    exact List.forall₂_drop 1 h.cameBack
  held := by
    intro entry hentry
    rcases List.mem_cons.mp hentry with rfl | hold
    · show (t.custody.shelf.lease l).1.limits ∈ limits ++ [l]
      rw [Shelf.limits_lease]
      exact List.mem_append_right _ (List.mem_singleton_self l)
    · exact List.mem_append_left _ (h.held entry hold)
  idle_le := by
    calc (t.custody.lease name l).idle
        = t.custody.idle - 1 := idle_lease t.custody name l
      _ ≤ t.custody.idle := Nat.sub_le _ _
      _ ≤ largestIdle limits := h.idle_le
      _ ≤ largestIdle (limits ++ [l]) := largestIdle_mono (List.subset_append_left limits [l])

/-- Work on a buffer that is held is the business of the borrower. -/
theorem Accounted.alter (h : Accounted t limits) (name : String) (change : Buffer α → Buffer α) :
    Accounted (t.perform (.alter name change)) limits where
  clean := h.clean
  cameBack := h.cameBack
  held := by
    intro entry hentry
    rcases List.mem_map.mp hentry with ⟨⟨other, lease⟩, hold, rfl⟩
    have hlimits := h.held (other, lease) hold
    by_cases hname : other = name
    · simpa [hname] using hlimits
    · simpa [hname] using hlimits
  idle_le := h.idle_le

theorem Accounted.limits_mem (h : Accounted t limits) {name : String} {lease : Lease α}
    (hheld : t.custody.held.lookup name = some lease) : lease.limits ∈ limits := by
  rcases List.lookup_eq_some_iff.mp hheld with ⟨before, after, hsplit, _⟩
  apply h.held (name, lease)
  rw [hsplit]
  exact List.mem_append_right _ (List.mem_cons_self ..)

theorem Accounted.giveBack (h : Accounted t limits) (name : String) :
    Accounted (t.perform (.giveBack name)) limits where
  clean := by
    show (t.custody.giveBack name).shelf.Clean
    unfold Custody.giveBack
    cases t.custody.held.lookup name with
    | none => exact h.clean
    | some lease => exact h.clean.takeBack lease
  cameBack := by
    show List.Forall₂ CameBack (t.custody.giveBack name).shelf.idle (if _ then _ else _)
    rcases t.custody.giveBack_cases name with hsame | ⟨lease, hheld, hkept, hretained, _⟩
    · -- Nothing is on top that was not there before.
      have hidle : ¬ t.custody.idle < (t.custody.giveBack name).idle := by
        rw [idle, idle, hsame]
        exact Nat.lt_irrefl _
      rw [if_neg hidle, hsame]
      exact h.cameBack
    · have hidle : t.custody.idle < (t.custody.giveBack name).idle := by
        rw [idle, idle, hkept]
        exact Nat.lt_succ_self _
      rw [if_pos hidle, hkept, hheld]
      exact List.Forall₂.cons ⟨rfl, hretained⟩ h.cameBack
  held := by
    intro entry hentry
    exact h.held entry (t.custody.held_giveBack_subset name hentry)
  idle_le := by
    show (t.custody.giveBack name).idle ≤ largestIdle limits
    rcases t.custody.giveBack_cases name with hsame | ⟨lease, hheld, hkept, _, hroom⟩
    · rw [idle, hsame]
      exact h.idle_le
    · calc (t.custody.giveBack name).idle
          = t.custody.idle + 1 := by rw [idle, hkept, List.length_cons, idle]
        _ ≤ lease.limits.maxIdle := hroom
        _ ≤ largestIdle limits := maxIdle_le_largestIdle (h.limits_mem hheld)

/-- The step of a run: an act keeps the account, with the limits that it gives. -/
theorem Accounted.perform (h : Accounted t limits) (act : Act α) :
    Accounted (t.perform act) (limits ++ given [act]) := by
  cases act with
  | lease name l => exact h.lease name l
  | alter name change =>
      have hnone : given [Act.alter name change] = [] := rfl
      rw [hnone, List.append_nil]
      exact h.alter name change
  | giveBack name =>
      have hnone : given [(Act.giveBack name : Act α)] = [] := rfl
      rw [hnone, List.append_nil]
      exact h.giveBack name

theorem Accounted.foldl (h : Accounted t limits) (acts : List (Act α)) :
    Accounted (acts.foldl Traced.perform t) (limits ++ given acts) := by
  induction acts generalizing t limits with
  | nil => simpa [given] using h
  | cons act acts ih =>
      have hgiven : given (act :: acts) = given [act] ++ given acts :=
        List.filterMap_append (l := [act])
      rw [hgiven, ← List.append_assoc]
      exact ih (h.perform act)

/-- The run: whatever borrowers do, the shelf stays accounted for. -/
theorem accounted_after (acts : List (Act α)) : Accounted (Traced.after acts) (given acts) := by
  have h := (accounted_empty (α := α)).foldl acts
  rwa [List.nil_append] at h

end

/-! ## Runs -/

/-- What holds after the acts: a lease taken out then has an empty buffer, whoever had it before; every
idle buffer is the one that a lease brought back, emptied and within the limit of that lease on its
size; there are no more idle buffers than the limits given so far allow; and leases and returns change
their number by one at most. -/
structure KeepsToLimits (acts : List (Act α)) : Prop where
  leased : ∀ name limits, ∃ buffer,
    ((after acts).lease name limits).buffer? name = some buffer ∧ buffer.cells = []
  idle_empty : ∀ buffer ∈ (after acts).shelf.idle, buffer.cells = []
  idle_cameBack : List.Forall₂ CameBack (after acts).shelf.idle (returned acts)
  idle_le : (after acts).idle ≤ largestIdle (given acts)
  idle_le_of_fixed : ∀ limits, (∀ l ∈ given acts, l = limits) → (after acts).idle ≤ limits.maxIdle
  idle_lease : ∀ name limits,
    ((after acts).lease name limits).idle + 1 = (after acts).idle ∨
      (after acts).idle = 0 ∧ ((after acts).lease name limits).idle = 0
  idle_giveBack : ∀ name,
    ((after acts).giveBack name).idle = (after acts).idle ∨
      ((after acts).giveBack name).idle = (after acts).idle + 1

theorem keepsToLimits_after (acts : List (Act α)) : KeepsToLimits acts := by
  have h : Accounted (Traced.after acts) (given acts) := accounted_after acts
  have hclean := h.clean
  have hcame := h.cameBack
  have hidle := h.idle_le
  rw [Traced.custody_after] at hclean hcame hidle
  refine ⟨fun name limits => ?_, hclean, hcame, hidle, ?_, fun name limits => ?_, idle_giveBack _⟩
  · refine ⟨((after acts).shelf.lease limits).1.buffer, ?_, (hclean.lease limits).1⟩
    exact buffer?_lease (after acts) name limits
  · intro limits hfixed
    apply Nat.le_trans hidle
    apply largestIdle_le
    intro l hl
    exact Nat.le_of_eq (congrArg Limits.maxIdle (hfixed l hl))
  · have hone := idle_lease (after acts) name limits
    omega

/-- Whatever borrowers do with a shelf of buffers of one kind, with any number of leases out at once, each
under limits of its own and given back in any order: leases start empty, and the shelf keeps to the
limits.  A tally that is leased has zero in total. -/
theorem leases_keep_to_limits :
    (∀ {α : Type} [Cell α] (acts : List (Act α)), KeepsToLimits acts) ∧
      ∀ (acts : List (Act UInt64)) (name : String) (limits : Limits), ∃ tally,
        ((after acts).lease name limits).buffer? name = some tally ∧ Tally.total tally = 0 := by
  constructor
  · intro α _ acts
    exact keepsToLimits_after acts
  · intro acts name limits
    rcases (keepsToLimits_after acts).leased name limits with ⟨tally, hleased, hempty⟩
    refine ⟨tally, hleased, ?_⟩
    rw [Tally.total, hempty]
    rfl

/-- Which buffers stay depends on who comes back first: `b` allows for one idle buffer, `a` for two. -/
example :
    (after [.lease "a" ⟨2, 8⟩, .lease "b" ⟨1, 8⟩, .giveBack "a", .giveBack "b"] :
        Custody Nat).idle = 1 ∧
      (after [.lease "a" ⟨2, 8⟩, .lease "b" ⟨1, 8⟩, .giveBack "b", .giveBack "a"] :
        Custody Nat).idle = 2 := by
  decide

end Custody
end SlotAuction
