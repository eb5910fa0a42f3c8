import Mathlib.Data.List.Basic

/-!
# Runs of a deterministic machine

A machine takes a call in a state to the next state. A run is a list of calls from a start
state. `Throughout` is what holds of every state a run visits, `Each` what holds of every
call of a run in the state it is made in. The rules are `throughout_of_step`, for an
invariant that every call keeps, `Each.throughout`, for one that legal calls keep, and
`throughout_iff_each`, for a property that a call keeps exactly when the call is good.
-/

namespace Runs

variable {σ κ : Type*} (step : σ → κ → σ)

/-- The state after a run. -/
def after (s : σ) (calls : List κ) : σ := calls.foldl step s

/-- `P` holds of every state of the run, the first and the last included. -/
def Throughout (P : σ → Prop) : σ → List κ → Prop
  | s, [] => P s
  | s, call :: calls => P s ∧ Throughout P (step s call) calls

/-- Every call of the run is good in the state it is made in. -/
def Each (good : σ → κ → Prop) : σ → List κ → Prop
  | _, [] => True
  | s, call :: calls => good s call ∧ Each good (step s call) calls

variable {step}

instance decidableEach {good : σ → κ → Prop} [hgood : ∀ s call, Decidable (good s call)] :
    ∀ (s : σ) (calls : List κ), Decidable (Each step good s calls)
  | _, [] => inferInstanceAs (Decidable True)
  | s, call :: calls => @instDecidableAnd _ _ (hgood s call) (decidableEach (step s call) calls)

theorem after_append (s : σ) (calls calls' : List κ) :
    after step s (calls ++ calls') = after step (after step s calls) calls' :=
  List.foldl_append

theorem after_concat (s : σ) (calls : List κ) (call : κ) :
    after step s (calls ++ [call]) = step (after step s calls) call :=
  after_append s calls [call]

theorem Throughout.head {P : σ → Prop} {s : σ} {calls : List κ}
    (h : Throughout step P s calls) : P s := by
  cases calls with
  | nil => exact h
  | cons call calls => exact h.1

theorem Throughout.last {P : σ → Prop} {s : σ} {calls : List κ}
    (h : Throughout step P s calls) : P (after step s calls) := by
  induction calls generalizing s with
  | nil => exact h
  | cons call calls ih => exact ih h.2

/-- Where every call is good, every call of a run is. -/
theorem each_of_forall {good : σ → κ → Prop} (h : ∀ s call, good s call) (s : σ)
    (calls : List κ) : Each step good s calls := by
  induction calls generalizing s with
  | nil => exact trivial
  | cons call calls ih => exact ⟨h s call, ih (step s call)⟩

/-- Where the calls of a run are good in every state, they are good in theirs. -/
theorem each_of_mem {good : σ → κ → Prop} {calls : List κ} (h : ∀ s, ∀ call ∈ calls, good s call)
    (s : σ) : Each step good s calls := by
  induction calls generalizing s with
  | nil => exact trivial
  | cons call calls ih =>
    exact ⟨h s call List.mem_cons_self,
      ih (fun s call hmem => h s call (List.mem_cons_of_mem _ hmem)) (step s call)⟩

theorem Each.and {good good' : σ → κ → Prop} {s : σ} {calls : List κ}
    (h : Each step good s calls) (h' : Each step good' s calls) :
    Each step (fun s call => good s call ∧ good' s call) s calls := by
  induction calls generalizing s with
  | nil => exact trivial
  | cons call calls ih => exact ⟨⟨h.1, h'.1⟩, ih h.2 h'.2⟩

/-- What is good may be told in another way. -/
theorem each_congr {good good' : σ → κ → Prop} (h : ∀ s call, good s call ↔ good' s call) {s : σ}
    {calls : List κ} : Each step good s calls ↔ Each step good' s calls := by
  induction calls generalizing s with
  | nil => exact Iff.rfl
  | cons call calls ih => exact and_congr (h s call) ih

/-- Under an invariant that every call keeps, good calls may be good in another way. -/
theorem Each.imp {I : σ → Prop} {good good' : σ → κ → Prop}
    (hI : ∀ s call, I s → I (step s call)) {s : σ} {calls : List κ}
    (himp : ∀ s, I s → ∀ call ∈ calls, good s call → good' s call) (hs : I s)
    (h : Each step good s calls) : Each step good' s calls := by
  induction calls generalizing s with
  | nil => exact trivial
  | cons call calls ih =>
    refine ⟨himp s hs call List.mem_cons_self h.1, ih ?_ (hI s call hs) h.2⟩
    exact fun s hs call hmem => himp s hs call (List.mem_cons_of_mem _ hmem)

theorem Each.mono {good good' : σ → κ → Prop} (h : ∀ s call, good s call → good' s call) {s : σ}
    {calls : List κ} (hgood : Each step good s calls) : Each step good' s calls :=
  hgood.imp (I := fun _ => True) (fun _ _ hs => hs) (fun s _ call _ => h s call) trivial

/-- A run in two parts. -/
theorem each_append {good : σ → κ → Prop} {s : σ} {calls calls' : List κ} :
    Each step good s (calls ++ calls') ↔
      Each step good s calls ∧ Each step good (after step s calls) calls' := by
  induction calls generalizing s with
  | nil => exact ⟨fun h => ⟨trivial, h⟩, And.right⟩
  | cons call calls ih => exact (and_congr_right fun _ => ih).trans and_assoc.symm

/-- An invariant that every call keeps holds throughout every run. -/
theorem throughout_of_step {I : σ → Prop} (hstep : ∀ s call, I s → I (step s call)) {s : σ}
    {calls : List κ} (hs : I s) : Throughout step I s calls := by
  induction calls generalizing s with
  | nil => exact hs
  | cons call calls ih => exact ⟨hs, ih (hstep s call hs)⟩

/-- An invariant that legal calls keep holds throughout a run of legal calls. -/
theorem Each.throughout {I : σ → Prop} {legal : σ → κ → Prop}
    (hstep : ∀ s call, I s → legal s call → I (step s call)) {s : σ} {calls : List κ}
    (hlegal : Each step legal s calls) (hs : I s) : Throughout step I s calls := by
  induction calls generalizing s with
  | nil => exact hs
  | cons call calls ih => exact ⟨hs, ih hlegal.2 (hstep s call hs hlegal.1)⟩

/-- A further property, which legal calls keep as long as an invariant holds, holds throughout as
well. -/
theorem Throughout.and_of_step {I P : σ → Prop} {legal : σ → κ → Prop}
    (hstep : ∀ s call, I s → P s → legal s call → P (step s call)) {s : σ} {calls : List κ}
    (hI : Throughout step I s calls) (hlegal : Each step legal s calls) (hs : P s) :
    Throughout step (fun s => I s ∧ P s) s calls := by
  induction calls generalizing s with
  | nil => exact ⟨hI, hs⟩
  | cons call calls ih =>
    exact ⟨⟨hI.1, hs⟩, ih hI.2 hlegal.2 (hstep s call hI.1 hs hlegal.1)⟩

/-- **What calls add up to.** A reflexive and transitive relation between a state and the one after
each call holds between a state and the one after a run. -/
theorem after_rel {I : σ → Prop} {R : σ → σ → Prop} (hrefl : ∀ s, R s s)
    (htrans : ∀ {s t u}, R s t → R t u → R s u) (hI : ∀ s call, I s → I (step s call))
    (hR : ∀ s call, I s → R s (step s call)) {s : σ} (hs : I s) (calls : List κ) :
    R s (after step s calls) := by
  induction calls generalizing s with
  | nil => exact hrefl s
  | cons call calls ih => exact htrans (hR s call hs) (ih (hI s call hs))

/-- What a property implies holds throughout where the property does. -/
theorem Throughout.imp {P Q : σ → Prop} (hPQ : ∀ s, P s → Q s) {s : σ} {calls : List κ}
    (h : Throughout step P s calls) : Throughout step Q s calls := by
  induction calls generalizing s with
  | nil => exact hPQ s h
  | cons call calls ih => exact ⟨hPQ s h.1, ih h.2⟩

/-- Where a property holds throughout that makes every call good, every call is. -/
theorem Throughout.each {P : σ → Prop} {good : σ → κ → Prop} (h : ∀ s call, P s → good s call)
    {s : σ} {calls : List κ} (hP : Throughout step P s calls) : Each step good s calls := by
  induction calls generalizing s with
  | nil => exact trivial
  | cons call calls ih => exact ⟨h s call hP.1, ih hP.2⟩

/-- **A property and the calls that keep it.** If, under an invariant `I`, a legal call keeps
`P` exactly when it is good, and such a call keeps `I`, then a run of legal calls has `P`
throughout exactly when each of its calls is good. -/
theorem throughout_iff_each {I P : σ → Prop} {legal good : σ → κ → Prop}
    (hI : ∀ s call, I s → P s → legal s call → good s call → I (step s call))
    (hP : ∀ s call, I s → P s → legal s call → (P (step s call) ↔ good s call))
    {s : σ} {calls : List κ} (hs : I s) (hPs : P s) (hlegal : Each step legal s calls) :
    Throughout step P s calls ↔ Each step good s calls := by
  -- call by call: the property holds on as long as the calls are good, and no longer
  induction calls generalizing s with
  | nil => exact iff_of_true hPs trivial
  | cons call calls ih =>
    have hgood := hP s call hs hPs hlegal.1
    have hs' := hI s call hs hPs hlegal.1
    refine ⟨?_, ?_⟩
    · rintro ⟨-, hrest⟩
      have hcall := hgood.mp hrest.head
      exact ⟨hcall, (ih (hs' hcall) hrest.head hlegal.2).mp hrest⟩
    · rintro ⟨hcall, hrest⟩
      exact ⟨hPs, (ih (hs' hcall) (hgood.mpr hcall) hlegal.2).mpr hrest⟩

section Record

variable (step)

/-- The machine that keeps the calls made so far with its state. -/
def record (s : σ × List κ) (call : κ) : σ × List κ := (step s.1 call, s.2 ++ [call])

variable {step}

/-- A record does not change what a run does. -/
theorem after_record (s : σ × List κ) (calls : List κ) :
    after (record step) s calls = (after step s.1 calls, s.2 ++ calls) := by
  induction calls generalizing s with
  | nil => exact Prod.ext rfl (List.append_nil s.2).symm
  | cons call calls ih =>
    refine (ih (record step s call)).trans (Prod.ext rfl ?_)
    exact List.append_cons s.2 call calls ▸ rfl

/-- A record does not change which calls are good. -/
theorem each_record (good : σ → κ → Prop) (s : σ × List κ) {calls : List κ} :
    Each (record step) (fun s call => good s.1 call) s calls ↔ Each step good s.1 calls := by
  induction calls generalizing s with
  | nil => exact Iff.rfl
  | cons call calls ih => exact and_congr_right fun _ => ih (record step s call)

end Record

end Runs
