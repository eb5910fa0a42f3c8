import Mathlib.Data.List.Sort
import Mathlib.Logic.Hydra
import Mathlib.Order.Basic

/-!
# Agendas

An agenda holds what is due at which time, and hands it out in the order of time. What is due at
the same time is handed out in the order it was entered, which the number of an appointment tells;
so the order is total and a run that works an agenda off is determined by what is entered.

A machine that takes the next appointment up to a deadline and enters only later ones comes to an
end (`wellFounded_worksOff`): the appointments up to the deadline shrink in the order in which one
of them may be replaced by any number of later ones.
-/

/-- Something that is due at a time. -/
structure Appointment (κ : Type*) where
  time : ℕ
  /-- The place in the order of entry. -/
  number : ℕ
  what : κ

namespace Appointment

variable {κ : Type*}

/-- Due earlier, or at the same time and entered no later. -/
def Before (a b : Appointment κ) : Prop := a.time < b.time ∨ a.time = b.time ∧ a.number ≤ b.number

instance decidableBefore : DecidableRel (Before (κ := κ)) := fun _ _ =>
  inferInstanceAs (Decidable (_ ∨ _))

theorem Before.time_le {a b : Appointment κ} (h : a.Before b) : a.time ≤ b.time :=
  h.elim le_of_lt fun h => h.1.le

instance before_total : Std.Total (Before (κ := κ)) := ⟨fun a b => by unfold Before; omega⟩

instance before_trans : IsTrans (Appointment κ) Before := ⟨fun a b c => by unfold Before; omega⟩

end Appointment

/-- Appointments in the order in which they are due. -/
structure Agenda (κ : Type*) where
  entries : List (Appointment κ)
  /-- How many have ever been entered. -/
  entered : ℕ
  sorted : entries.Pairwise Appointment.Before
  numbered : ∀ a ∈ entries, a.number ≤ entered
  distinct : (entries.map Appointment.number).Nodup

namespace Agenda

variable {κ : Type*}

/-- Nothing is due. -/
def empty : Agenda κ where
  entries := []
  entered := 0
  sorted := List.Pairwise.nil
  numbered := fun _ h => absurd h List.not_mem_nil
  distinct := List.nodup_nil

/-- The appointment that is entered next. -/
def appointment (A : Agenda κ) (time : ℕ) (what : κ) : Appointment κ := ⟨time, A.entered + 1, what⟩

theorem entries_perm (A : Agenda κ) (time : ℕ) (what : κ) :
    (A.entries.orderedInsert Appointment.Before (A.appointment time what)).Perm
      (A.appointment time what :: A.entries) :=
  List.perm_orderedInsert _ _ _

/-- Enters an appointment. -/
def enter (A : Agenda κ) (time : ℕ) (what : κ) : Agenda κ where
  entries := A.entries.orderedInsert Appointment.Before (A.appointment time what)
  entered := A.entered + 1
  sorted := A.sorted.orderedInsert _ _
  numbered := fun a h => by
    rcases List.mem_cons.mp ((A.entries_perm time what).mem_iff.mp h) with rfl | h
    · exact le_rfl
    · exact (A.numbered a h).trans (Nat.le_succ _)
  distinct := by
    refine (((A.entries_perm time what).map Appointment.number).nodup_iff).mpr
      (List.nodup_cons.mpr ⟨fun h => ?_, A.distinct⟩)
    obtain ⟨a, hmem, hnumber⟩ := List.mem_map.mp h
    have hle := A.numbered a hmem
    rw [hnumber] at hle
    exact absurd hle (Nat.not_succ_le_self _)

/-- Takes the next appointment. -/
def next (A : Agenda κ) : Option (Appointment κ × Agenda κ) :=
  match A with
  | ⟨[], _, _, _, _⟩ => none
  | ⟨a :: rest, entered, sorted, numbered, distinct⟩ => some (a,
      { entries := rest
        entered := entered
        sorted := sorted.of_cons
        numbered := fun b h => numbered b (List.mem_cons_of_mem a h)
        distinct := (List.nodup_cons.mp distinct).2 })

variable {A B : Agenda κ} {a : Appointment κ}

theorem enter_perm (A : Agenda κ) (time : ℕ) (what : κ) :
    (A.enter time what).entries.Perm (A.appointment time what :: A.entries) :=
  A.entries_perm time what

theorem mem_enter {time : ℕ} {what : κ} :
    a ∈ (A.enter time what).entries ↔ a = A.appointment time what ∨ a ∈ A.entries := by
  rw [(A.enter_perm time what).mem_iff, List.mem_cons]

theorem next_eq_none_iff : A.next = none ↔ A.entries = [] := by
  obtain ⟨entries, entered, hsorted, hnumbered, hdistinct⟩ := A
  cases entries with
  | nil => exact iff_of_true rfl rfl
  | cons a rest => exact iff_of_false nofun (List.cons_ne_nil _ _)

theorem entries_of_next (h : A.next = some (a, B)) :
    A.entries = a :: B.entries ∧ B.entered = A.entered := by
  obtain ⟨entries, entered, hsorted, hnumbered, hdistinct⟩ := A
  cases entries with
  | nil => exact nomatch h
  | cons first rest =>
    obtain ⟨rfl, rfl⟩ := Prod.mk.inj (Option.some.inj h)
    exact ⟨rfl, rfl⟩

/-- **The next appointment is before all others.** -/
theorem before_of_next (h : A.next = some (a, B)) : ∀ b ∈ B.entries, a.Before b := by
  have hsorted := A.sorted
  rw [(entries_of_next h).1] at hsorted
  exact (List.pairwise_cons.mp hsorted).1

theorem mem_of_next (h : A.next = some (a, B)) {b : Appointment κ} :
    b ∈ A.entries ↔ b = a ∨ b ∈ B.entries := by
  rw [(entries_of_next h).1, List.mem_cons]

/-! ### Working an agenda off -/

/-- One appointment up to the deadline is taken and later ones are entered. -/
def WorksOff (deadline : ℕ) (A B : Agenda κ) : Prop :=
  ∃ a rest new, A.entries.Perm (a :: rest) ∧ a.time ≤ deadline ∧ B.entries.Perm (new ++ rest) ∧
    ∀ b ∈ new, a.time < b.time

/-- How long before the deadline the appointments are. -/
def slack (deadline : ℕ) (entries : List (Appointment κ)) : Multiset ℕ :=
  ((entries.filter fun a => a.time ≤ deadline).map fun a => deadline - a.time : List ℕ)

theorem slack_perm (deadline : ℕ) {entries entries' : List (Appointment κ)}
    (h : entries.Perm entries') : slack deadline entries = slack deadline entries' :=
  Multiset.coe_eq_coe.mpr ((h.filter _).map _)

theorem slack_append (deadline : ℕ) (entries entries' : List (Appointment κ)) :
    slack deadline (entries ++ entries') = slack deadline entries + slack deadline entries' := by
  unfold slack
  rw [List.filter_append, List.map_append, Multiset.coe_add]

/-- A turn cuts one off and grows smaller ones. -/
theorem WorksOff.cutExpand {deadline : ℕ} (h : WorksOff deadline A B) :
    Relation.CutExpand (· < ·) (slack deadline B.entries) (slack deadline A.entries) := by
  obtain ⟨a, rest, new, hA, hdue, hB, hlater⟩ := h
  refine ⟨slack deadline new, deadline - a.time, ?_, ?_⟩
  · -- what is added is due later, so there is less time left to it
    intro t ht
    obtain ⟨b, hb, rfl⟩ := List.mem_map.mp (Multiset.mem_coe.mp ht)
    obtain ⟨hmem, hle⟩ := List.mem_filter.mp hb
    have hlt := hlater b hmem
    have hle := of_decide_eq_true hle
    omega
  · -- the entry taken out is the first that is due
    have hfirst : slack deadline (a :: rest) = {deadline - a.time} + slack deadline rest := by
      unfold slack
      rw [List.filter_cons, if_pos (decide_eq_true hdue), List.map_cons]
      rfl
    rw [slack_perm deadline hB, slack_perm deadline hA, slack_append, hfirst]
    ac_rfl

/-- **Work ends.** -/
theorem wellFounded_worksOff (deadline : ℕ) :
    WellFounded fun B A : Agenda κ => WorksOff deadline A B :=
  Subrelation.wf (fun h => WorksOff.cutExpand h)
    (InvImage.wf (fun A : Agenda κ => slack deadline A.entries) Nat.lt_wfRel.wf.cutExpand)

end Agenda
