import Mathlib.Data.List.Nodup
import Mathlib.Data.List.Perm.Basic

/-!
# Reordering independent steps

A list of steps is executed from a state, and each step leaves a result. Two steps are independent
when, next to each other, they may change places: both orders lead to the same state and leave
each step the same result. `exec_eq_of_reordered` says that a list may be reordered as long as
only independent steps change places, however far apart they stand. It moves the step that comes
first in the new order to the front, past independent steps only, and goes on with the rest.

`Local` steps over a store of cells read and write their own cells only. Two of them are
independent when they have no cell in common (`Local.independent`).
-/

namespace Reorder

section Execution

variable {ι σ ρ : Type*} (run : ι → σ → ρ × σ)

/-- The results of a list of steps, and the state it leads to. -/
def exec : List ι → σ → List (ι × ρ) × σ
  | [], s => ([], s)
  | i :: steps, s =>
    ((i, (run i s).1) :: (exec steps (run i s).2).1, (exec steps (run i s).2).2)

/-- Next to each other, the two steps may change places. -/
structure Independent (i j : ι) : Prop where
  state : ∀ s, (run j (run i s).2).2 = (run i (run j s).2).2
  first : ∀ s, (run i (run j s).2).1 = (run i s).1
  second : ∀ s, (run j (run i s).2).1 = (run j s).1

variable {run}

/-- A step moves to the front past steps it is independent of. -/
theorem exec_front {i : ι} {before : List ι} (after : List ι)
    (h : ∀ j ∈ before, Independent run j i) (s : σ) :
    (exec run (before ++ i :: after) s).2 = (exec run (i :: (before ++ after)) s).2 ∧
      (exec run (before ++ i :: after) s).1.Perm (exec run (i :: (before ++ after)) s).1 := by
  induction before generalizing s with
  | nil => exact ⟨rfl, .refl _⟩
  -- `i` moves past the items in front of it one at a time
  | cons j before ih =>
    obtain ⟨hstate, hresults⟩ := ih (fun k hk => h k (List.mem_cons_of_mem j hk)) (run j s).2
    have hj := h j List.mem_cons_self
    change (exec run (before ++ i :: after) (run j s).2).2
      = (exec run (before ++ after) (run j (run i s).2).2).2 ∧
        ((j, (run j s).1) :: (exec run (before ++ i :: after) (run j s).2).1).Perm
          ((i, (run i s).1) :: (j, (run j (run i s).2).1)
            :: (exec run (before ++ after) (run j (run i s).2).2).1)
    rw [← hj.state, hj.first]
    refine ⟨hstate, ((hresults.cons _).trans (.swap _ _ _)).trans ?_⟩
    rw [hj.second]

/-- **Reordering.** When only independent steps change places, neither the state nor the result
of any step changes. -/
theorem exec_eq_of_reordered {steps steps' : List ι} (hperm : steps'.Perm steps)
    (hnodup : steps.Nodup)
    (h : ∀ i j, [i, j].Sublist steps → [j, i].Sublist steps' → Independent run i j) (s : σ) :
    (exec run steps' s).2 = (exec run steps s).2 ∧
      (exec run steps' s).1.Perm (exec run steps s).1 := by
  induction steps' generalizing steps s with
  | nil =>
    obtain rfl := List.perm_nil.mp hperm.symm
    exact ⟨rfl, .refl _⟩
  | cons i steps' ih =>
    obtain ⟨before, after, rfl⟩ := List.append_of_mem (hperm.mem_iff.mp List.mem_cons_self)
    have hrest : steps'.Perm (before ++ after) :=
      (List.perm_cons i).mp (hperm.trans List.perm_middle)
    have hnodup' := (List.perm_middle.nodup_iff.mp hnodup)
    -- what stood before the step comes after it in the new order
    have hfront : ∀ j ∈ before, Independent run j i := by
      intro j hj
      refine h j i ?_ ?_
      · exact (List.singleton_sublist.mpr hj).append
          (List.singleton_sublist.mpr List.mem_cons_self)
      · exact (List.singleton_sublist.mpr
          (hrest.mem_iff.mpr (List.mem_append_left after hj))).cons_cons i
    obtain ⟨hstate, hresults⟩ := exec_front after hfront s
    obtain ⟨hstate', hresults'⟩ := ih hrest (List.nodup_cons.mp hnodup').2 (fun j k hjk hkj => by
      refine h j k (hjk.trans ?_) (hkj.trans (List.sublist_cons_self i steps'))
      exact (List.sublist_cons_self i after).append_left before) (run i s).2
    exact ⟨hstate'.trans hstate.symm, (hresults'.cons _).trans hresults.symm⟩

end Execution

/-! ### Steps that own their cells -/

section Cells

variable {τ κ ν ρ : Type*} (cells : τ → List κ) (run : τ → (κ → ν) → ρ × (κ → ν))

/-- A step reads and writes its own cells only. -/
structure Local : Prop where
  writes : ∀ t s k, k ∉ cells t → (run t s).2 k = s k
  reads : ∀ t s s', (∀ k ∈ cells t, s k = s' k) →
    (run t s).1 = (run t s').1 ∧ ∀ k ∈ cells t, (run t s).2 k = (run t s').2 k

variable {cells run}

/-- Steps without a common cell are independent. -/
theorem Local.independent (h : Local cells run) {t u : τ} (hdisjoint : ∀ k ∈ cells t, k ∉ cells u) :
    Independent run t u := by
  have hu : ∀ s, ∀ k ∈ cells u, (run t s).2 k = s k := fun s k hk =>
    h.writes t s k fun hkt => hdisjoint k hkt hk
  have ht : ∀ s, ∀ k ∈ cells t, (run u s).2 k = s k := fun s k hk => h.writes u s k (hdisjoint k hk)
  refine ⟨fun s => funext fun k => ?_, fun s => (h.reads t _ s (ht s)).1,
    fun s => (h.reads u _ s (hu s)).1⟩
  by_cases hkt : k ∈ cells t
  · rw [h.writes u _ k (hdisjoint k hkt), (h.reads t _ s (ht s)).2 k hkt]
  · rw [h.writes t _ k hkt]
    by_cases hku : k ∈ cells u
    · exact (h.reads u _ s (hu s)).2 k hku
    · rw [h.writes u _ k hku, h.writes u _ k hku, h.writes t _ k hkt]

end Cells

end Reorder
