import Mathlib.Data.List.Basic
import Mathlib.Tactic.Common

/-!
# Streams of frames

A reader takes one frame off the front of a stream, or finds the end of the stream, or fails.
A `Format` is a reader with the frames it accepts: it returns an item exactly when the stream
starts with the frame of that item and the item is a legal one.

`readAll` reads frame after frame until there is none. By `readAll_eq_iff` it returns the items
whose frames make up the stream as far as it can be read, and ends as the reader does on what is
left.
-/

namespace Framing

/-- A reader of frames of `β` in streams of `α`. -/
structure Format (α β ε : Type) where
  frame : β → List α
  Legal : β → Prop
  /-- One item and the rest of the stream, or nothing at its end. -/
  read : List α → Except ε (Option (β × List α))
  frame_ne_nil : ∀ {x}, Legal x → frame x ≠ []
  read_eq_some_iff : ∀ {stream : List α} {x : β} {rest : List α},
    read stream = .ok (some (x, rest)) ↔ Legal x ∧ stream = frame x ++ rest

namespace Format

variable {α β ε : Type} (F : Format α β ε)

/-- A frame is taken off the stream. -/
theorem length_lt_of_read {stream rest : List α} {x : β}
    (h : F.read stream = .ok (some (x, rest))) : rest.length < stream.length := by
  obtain ⟨hlegal, rfl⟩ := F.read_eq_some_iff.mp h
  have hpos := List.length_pos_of_ne_nil (F.frame_ne_nil hlegal)
  rw [List.length_append]
  omega

/-- Reads frame after frame: the items, and how the stream ends. -/
def readAll (stream : List α) : List β × Except ε Unit :=
  match _h : F.read stream with
  | .error e => ([], .error e)
  | .ok none => ([], .ok ())
  | .ok (some (x, rest)) => (x :: (readAll rest).1, (readAll rest).2)
termination_by stream.length
decreasing_by all_goals exact F.length_lt_of_read _h

variable {F}

theorem readAll_of_error {stream : List α} {e : ε} (h : F.read stream = .error e) :
    F.readAll stream = ([], .error e) := by
  rw [readAll]
  split <;> simp_all

theorem readAll_of_end {stream : List α} (h : F.read stream = .ok none) :
    F.readAll stream = ([], .ok ()) := by
  rw [readAll]
  split <;> simp_all

theorem readAll_of_some {stream rest : List α} {x : β}
    (h : F.read stream = .ok (some (x, rest))) :
    F.readAll stream = (x :: (F.readAll rest).1, (F.readAll rest).2) := by
  rw [readAll]
  split <;> simp_all

/-- Frames at the front of a stream are read. -/
theorem readAll_append {items : List β} (hlegal : ∀ x ∈ items, F.Legal x) (tail : List α) :
    F.readAll (items.flatMap F.frame ++ tail)
      = (items ++ (F.readAll tail).1, (F.readAll tail).2) := by
  induction items with
  | nil => rfl
  | cons x items ih =>
    rw [List.forall_mem_cons] at hlegal
    have hread : F.read (F.frame x ++ (items.flatMap F.frame ++ tail))
        = .ok (some (x, items.flatMap F.frame ++ tail)) :=
      F.read_eq_some_iff.mpr ⟨hlegal.1, rfl⟩
    rw [List.flatMap_cons, List.append_assoc, readAll_of_some hread, ih hlegal.2]
    rfl

/-- **What is read of a stream**: the items of its frames, up to a rest on which the reader
ends. -/
theorem readAll_eq_iff {stream : List α} {items : List β} {result : Except ε Unit} :
    F.readAll stream = (items, result) ↔ (∀ x ∈ items, F.Legal x) ∧
      ∃ tail, stream = items.flatMap F.frame ++ tail ∧
        F.read tail = result.map fun _ => none := by
  refine ⟨?_, ?_⟩
  · intro h
    -- by induction on what is left of the stream
    induction hlen : stream.length using Nat.strongRecOn generalizing stream items with
    | ind n ih =>
      subst hlen
      cases hread : F.read stream with
      | error e =>
        rw [readAll_of_error hread] at h
        cases h
        exact ⟨nofun, stream, rfl, hread⟩
      | ok found =>
        cases found with
        | none =>
          rw [readAll_of_end hread] at h
          cases h
          exact ⟨nofun, stream, rfl, hread⟩
        | some item =>
          obtain ⟨x, rest⟩ := item
          rw [readAll_of_some hread] at h
          cases h
          obtain ⟨hrest, tail, he, hend⟩ := ih _ (F.length_lt_of_read hread) rfl rfl
          obtain ⟨hx, hstream⟩ := F.read_eq_some_iff.mp hread
          refine ⟨List.forall_mem_cons.mpr ⟨hx, hrest⟩, tail, ?_, hend⟩
          rw [List.flatMap_cons, List.append_assoc, ← he, hstream]
  · rintro ⟨hlegal, tail, rfl, hend⟩
    -- no item is read from the tail, whichever way it ends
    have htail : F.readAll tail = ([], result) := by
      cases result with
      | error e => exact readAll_of_error hend
      | ok u => exact readAll_of_end hend
    rw [readAll_append hlegal, htail, List.append_nil]

/-- Where reading ends, no frame follows. -/
theorem not_frame_of_read {tail : List α} {result : Except ε Unit}
    (h : F.read tail = result.map fun _ => none) :
    ¬ ∃ x rest, F.Legal x ∧ tail = F.frame x ++ rest := by
  rintro ⟨x, rest, hframe⟩
  rw [F.read_eq_some_iff.mpr hframe] at h
  cases result with
  | error e => cases h
  | ok u => cases h

end Format

end Framing
