import Mathlib.Init

/-!
# Computations over a hidden state

A function that consults a cache returns the same value whatever the cache holds, as
long as the cache is truthful, and leaves a truthful cache behind. `Computes I x v` says
so of a stateful computation `x`: from every hidden state that satisfies the invariant
`I`, the result is `v` and `I` holds again. It is closed under the monad operations, so
an algorithm written over an arbitrary monad inherits it from its queries: what the cache
holds cannot be observed.
-/

namespace Memo

variable {σ α β : Type} {I : σ → Prop}

/-- From any hidden state satisfying `I`, `x` returns `v` and re-establishes `I`. -/
def Computes (I : σ → Prop) (x : StateM σ α) (v : α) : Prop :=
  ∀ s, I s → (x.run s).1 = v ∧ I (x.run s).2

theorem Computes.pure (v : α) : Computes I (Pure.pure v) v :=
  fun _ hs => ⟨rfl, hs⟩

theorem Computes.bind {x : StateM σ α} {f : α → StateM σ β} {v : α} {w : β}
    (hx : Computes I x v) (hf : Computes I (f v) w) : Computes I (x >>= f) w := by
  intro s hs
  obtain ⟨hv, hI⟩ := hx s hs
  have hstep : (x >>= f).run s = (f v).run (x.run s).2 := by
    rw [← hv]
    rfl
  rw [hstep]
  exact hf _ hI

theorem Computes.fst {x : StateM σ α} {v : α} (hx : Computes I x v) {s : σ} (hs : I s) :
    (x.run s).1 = v := (hx s hs).1

theorem Computes.snd {x : StateM σ α} {v : α} (hx : Computes I x v) {s : σ} (hs : I s) :
    I (x.run s).2 := (hx s hs).2

/-- In the identity monad, which runs an algorithm over the values themselves, binding
is application. -/
theorem id_bind (x : Id α) (f : α → Id β) : x >>= f = f x := rfl

end Memo
