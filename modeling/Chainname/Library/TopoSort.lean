import Mathlib.Data.Finset.Basic
import Mathlib.Data.Finset.Lattice.Lemmas
import Mathlib.Data.List.Perm.Basic
import Mathlib.Data.List.Nodup
import Mathlib.Order.WellFounded

/-!
# Multi-pass topological sort

`passes ready n remaining emitted out` walks a list over and over, emitting in each pass
every item that `ready` accepts against what has been emitted so far, and appends the
rest as it stands once a pass emits nothing.

The output is always a rearrangement of the input (`passes_perm`). When `ready` asks for
the item's dependencies among the members, and the dependency relation is well founded,
every pass makes progress and no item is emitted before one of its dependencies
(`passes_pairwise`).
-/

namespace TopoSort

variable {α : Type} [DecidableEq α]

/-- What one pass accumulates: the emitted set, the output, the items left for the next
pass, and whether anything was emitted. -/
structure Pass (α : Type) where
  emitted : Finset α
  out : List α
  waiting : List α
  progressed : Bool

/-- One pass over the remaining items. -/
def pass (ready : Finset α → α → Bool) : List α → Pass α → Pass α
  | [], st => st
  | x :: xs, st =>
    if ready st.emitted x then
      pass ready xs ⟨insert x st.emitted, st.out ++ [x], st.waiting, true⟩
    else pass ready xs { st with waiting := st.waiting ++ [x] }

/-- Passes until nothing remains or a pass emits nothing. -/
def passes (ready : Finset α → α → Bool) : ℕ → List α → Finset α → List α → List α
  | 0, remaining, _, out => out ++ remaining
  | _ + 1, [], _, out => out
  | n + 1, x :: xs, emitted, out =>
    let st := pass ready (x :: xs) ⟨emitted, out, [], false⟩
    if st.progressed then passes ready n st.waiting st.emitted st.out
    else st.out ++ st.waiting

section Perm

variable (ready : Finset α → α → Bool)

/-- A pass splits its input between the output and the waiting list. -/
theorem pass_perm : ∀ (xs : List α) (st : Pass α),
    ((pass ready xs st).out ++ (pass ready xs st).waiting).Perm (st.out ++ st.waiting ++ xs) := by
  intro xs
  -- the elements still to be looked at; each goes out or waits
  induction xs with
  | nil => intro st; simp [pass]
  | cons x xs ih =>
    intro st
    unfold pass
    split
    · refine (ih _).trans ?_
      rw [List.append_assoc, List.append_assoc, List.append_assoc, List.singleton_append]
      exact List.Perm.append_left _ List.perm_middle.symm
    · refine (ih _).trans ?_
      simp only [List.append_assoc, List.singleton_append]
      exact List.Perm.refl _

/-- The items a pass leaves waiting are items it was given. -/
theorem waiting_length_le : ∀ (xs : List α) (st : Pass α),
    (pass ready xs st).waiting.length ≤ st.waiting.length + xs.length := by
  intro xs
  induction xs with
  | nil => intro st; simp [pass]
  | cons x xs ih =>
    intro st
    unfold pass
    split
    · exact (ih _).trans (by simp)
    · exact (ih _).trans (by simp; omega)

theorem mem_of_mem_waiting {y : α} : ∀ (xs : List α) (st : Pass α),
    y ∈ (pass ready xs st).waiting → y ∈ st.waiting ∨ y ∈ xs := by
  intro xs
  induction xs with
  | nil => exact fun st h => Or.inl h
  | cons x xs ih =>
    intro st h
    unfold pass at h
    split at h
    · exact (ih _ h).imp_right (List.mem_cons_of_mem x)
    · rcases ih _ h with h | h
      · rcases List.mem_append.mp h with h | h
        · exact Or.inl h
        · exact Or.inr (List.mem_singleton.mp h ▸ List.mem_cons_self)
      · exact Or.inr (List.mem_cons_of_mem x h)

theorem passes_perm : ∀ (n : ℕ) (remaining : List α) (emitted : Finset α) (out : List α),
    (passes ready n remaining emitted out).Perm (out ++ remaining) := by
  intro n
  -- pass by pass, as long as one makes progress
  induction n with
  | zero => intro remaining emitted out; exact List.Perm.refl _
  | succ n ih =>
    intro remaining emitted out
    cases remaining with
    | nil => simp [passes]
    | cons x xs =>
      have hp := pass_perm ready (x :: xs) ⟨emitted, out, [], false⟩
      rw [List.append_nil] at hp
      unfold passes
      dsimp only
      split
      · exact (ih _ _ _).trans hp
      · exact hp

end Perm

/-! ### Dependencies come first -/

section Order

variable (dep : α → α → Prop) (members : Finset α) (ready : Finset α → α → Bool)

/-- `ready` asks a member exactly for its dependencies among the members. -/
def Asks : Prop :=
  ∀ emitted, ∀ x ∈ members, (ready emitted x = true ↔ ∀ p ∈ members, dep p x → p ∈ emitted)

/-- The invariant of the emission: the emitted set is the output, the output lists no
item before one of its dependencies, and the dependencies of what is out are out. -/
structure Ordered (emitted : Finset α) (out rest : List α) : Prop where
  mem_emitted : ∀ x, x ∈ emitted ↔ x ∈ out
  nodup : (out ++ rest).Nodup
  mem_rest : ∀ x ∈ rest, x ∈ members
  closed : ∀ x ∈ out, ∀ p ∈ members, dep p x → p ∈ out
  pairwise : out.Pairwise fun a b => ¬ dep b a

variable {dep members ready}

/-- Emitting a ready item keeps the invariant: an earlier item cannot depend on it, as
its dependencies were out before. -/
theorem Ordered.emit {emitted : Finset α} {out rest rest' : List α} {x : α}
    (h : Ordered dep members emitted out rest) (hperm : rest.Perm (x :: rest'))
    (hx : ∀ p ∈ members, dep p x → p ∈ emitted) :
    Ordered dep members (insert x emitted) (out ++ [x]) rest' := by
  have hnd : (out ++ (x :: rest')).Nodup := (hperm.append_left out).nodup_iff.mp h.nodup
  have hxm : x ∈ members := h.mem_rest x (hperm.mem_iff.mpr List.mem_cons_self)
  -- what is emitted now was not emitted before
  have hxo : x ∉ out := fun hmem =>
    (List.nodup_append.mp hnd).2.2 x hmem x List.mem_cons_self rfl
  refine ⟨?_, ?_, ?_, ?_, ?_⟩
  · intro y
    rw [Finset.mem_insert, h.mem_emitted, List.mem_append, List.mem_singleton, or_comm]
  · simpa using hnd
  · exact fun y hy => h.mem_rest y (hperm.mem_iff.mpr (List.mem_cons_of_mem x hy))
  · intro y hy p hp hd
    refine List.mem_append_left _ ?_
    rcases List.mem_append.mp hy with hy | hy
    · exact h.closed y hy p hp hd
    · rw [List.mem_singleton.mp hy] at hd
      exact (h.mem_emitted p).mp (hx p hp hd)
  · -- nothing emitted earlier depends on `x`
    refine List.pairwise_append.mpr ⟨h.pairwise, List.pairwise_singleton _ _, ?_⟩
    intro a ha b hb hd
    rw [List.mem_singleton.mp hb] at hd
    exact hxo (h.closed a ha x hxm hd)

/-- One pass keeps the invariant, emits whatever was ready at its start, and reports
progress exactly when the waiting list got shorter. -/
theorem pass_ordered (hask : Asks dep members ready) : ∀ (xs : List α) (st : Pass α),
    Ordered dep members st.emitted st.out (st.waiting ++ xs) →
    let st' := pass ready xs st
    Ordered dep members st'.emitted st'.out st'.waiting ∧ st.emitted ⊆ st'.emitted ∧
      (∀ x ∈ xs, (∀ p ∈ members, dep p x → p ∈ st.emitted) → st'.progressed = true) ∧
      (st.progressed = true → st'.progressed = true) ∧
      (st.progressed = false → st'.progressed = true →
        st'.waiting.length < st.waiting.length + xs.length) := by
  intro xs
  induction xs with
  | nil =>
    intro st h
    rw [List.append_nil] at h
    refine ⟨h, Finset.Subset.refl _, fun x hx => absurd hx List.not_mem_nil, id, ?_⟩
    intro h1 h2
    exact absurd (h1.symm.trans h2) (by decide)
  | cons x xs ih =>
    intro st h
    unfold pass
    split
    · next hr =>
      have hxm : x ∈ members := h.mem_rest x (List.mem_append_right _ List.mem_cons_self)
      have hx := (hask _ x hxm).mp hr
      -- ready, and emitted
      have h' : Ordered dep members (insert x st.emitted) (st.out ++ [x]) (st.waiting ++ xs) :=
        h.emit List.perm_middle hx
      obtain ⟨h1, h2, -, h4, -⟩ := ih ⟨insert x st.emitted, st.out ++ [x], st.waiting, true⟩ h'
      refine ⟨h1, (Finset.subset_insert x st.emitted).trans h2, fun _ _ _ => h4 rfl,
        fun _ => h4 rfl, fun _ _ => ?_⟩
      refine lt_of_le_of_lt (waiting_length_le ready xs _) ?_
      simp
    · next hr =>
      -- not ready, and set aside for the next pass
      have h' : Ordered dep members st.emitted st.out (st.waiting ++ [x] ++ xs) := by
        simpa using h
      obtain ⟨h1, h2, h3, h4, h5⟩ := ih { st with waiting := st.waiting ++ [x] } h'
      refine ⟨h1, h2, ?_, h4, ?_⟩
      · intro y hy hyr
        rcases List.mem_cons.mp hy with rfl | hy
        · have hym : y ∈ members := h.mem_rest y (List.mem_append_right _ List.mem_cons_self)
          exact absurd ((hask _ y hym).mpr hyr) hr
        · exact h3 y hy hyr
      · intro hp hp'
        refine lt_of_lt_of_le (h5 hp hp') ?_
        simp
        omega

/-- Over a well-founded dependency relation the passes never get stuck, and the output
lists no item before one of its dependencies. -/
theorem passes_pairwise (hask : Asks dep members ready) (hwf : WellFounded dep) :
    ∀ (n : ℕ) (remaining : List α) (emitted : Finset α) (out : List α),
      Ordered dep members emitted out remaining →
      (∀ p ∈ members, p ∈ out ∨ p ∈ remaining) → remaining.length ≤ n →
      (passes ready n remaining emitted out).Pairwise fun a b => ¬ dep b a := by
  intro n
  induction n with
  | zero =>
    intro remaining emitted out h _ hn
    obtain rfl : remaining = [] := List.length_eq_zero_iff.mp (by omega)
    simpa [passes] using h.pairwise
  | succ n ih =>
    intro remaining emitted out h hcov hn
    cases remaining with
    | nil => exact h.pairwise
    | cons x xs =>
      obtain ⟨h1, -, h3, -, h5⟩ := pass_ordered hask (x :: xs) ⟨emitted, out, [], false⟩ h
      -- a minimal remaining item depends on nothing that remains
      obtain ⟨y, hy, hmin⟩ := hwf.has_min {y | y ∈ x :: xs} ⟨x, List.mem_cons_self⟩
      have hprog := h3 y hy (fun p hp hd => (h.mem_emitted p).mpr
        ((hcov p hp).resolve_right fun hr => hmin p hr hd))
      have hlt := h5 rfl hprog
      have hperm := pass_perm ready (x :: xs) ⟨emitted, out, [], false⟩
      unfold passes
      dsimp only
      rw [if_pos hprog]
      refine ih _ _ _ h1 ?_ ?_
      · intro p hp
        rw [← List.mem_append, hperm.mem_iff, List.append_nil, List.mem_append]
        exact hcov p hp
      · simp only [List.length_nil, List.length_cons] at hlt hn
        omega

end Order

/-! ### The greedy order -/

section Greedy

/-- The members are listed once each, and the next one is always the least of those whose
dependencies among the members have been listed. -/
structure Greedy (le dep : α → α → Prop) (members : α → Prop) (out : List α) : Prop where
  nodup : out.Nodup
  mem_iff : ∀ {x}, x ∈ out ↔ members x
  ready : ∀ {before x after}, out = before ++ x :: after → ∀ p, members p → dep p x → p ∈ before
  least : ∀ {before x after}, out = before ++ x :: after →
    ∀ y ∈ after, (∀ p, members p → dep p y → p ∈ before) → le x y

variable {le dep : α → α → Prop} {members : α → Prop} {out out' : List α}

omit [DecidableEq α] in
/-- There is only one greedy order: where two of them part, each has the least item next. -/
theorem Greedy.unique (hantisymm : ∀ {x y}, le x y → le y x → x = y)
    (h : Greedy le dep members out) (h' : Greedy le dep members out') : out = out' := by
  suffices hsuffix : ∀ (l l' before : List α), out = before ++ l → out' = before ++ l' → l = l' by
    exact hsuffix out out' [] rfl rfl
  have hsame : ∀ x, x ∈ out ↔ x ∈ out' := fun x => h.mem_iff.trans h'.mem_iff.symm
  -- what is in one order and not in the common part is in the rest of the other
  have hrest : ∀ {l l' before : List α} {x}, out = before ++ l → out' = before ++ l' →
      x ∈ l → x ∈ l' := by
    intro l l' before x ho ho' hx
    have hmem : x ∈ out' := (hsame x).mp (ho ▸ List.mem_append_right before hx)
    rw [ho'] at hmem
    refine (List.mem_append.mp hmem).resolve_left fun hbefore => ?_
    exact List.disjoint_of_nodup_append (ho ▸ h.nodup) hbefore hx
  intro l
  induction l with
  | nil =>
    intro l' before ho ho'
    cases l' with
    | nil => rfl
    | cons y l' =>
      have hmem : y ∈ before := by
        have := (hsame y).mpr (ho' ▸ List.mem_append_right before List.mem_cons_self)
        rwa [ho, List.append_nil] at this
      exact absurd List.mem_cons_self (List.disjoint_of_nodup_append (ho' ▸ h'.nodup) hmem)
  | cons x l ih =>
    intro l' before ho ho'
    cases l' with
    | nil => exact absurd (hrest ho ho' List.mem_cons_self) List.not_mem_nil
    | cons y l' =>
      have hxy : x = y := by
        by_contra hne
        have hx : x ∈ l' := (List.mem_cons.mp (hrest ho ho' List.mem_cons_self)).resolve_left hne
        have hin : y ∈ out := (hsame y).mpr (ho' ▸ List.mem_append_right before List.mem_cons_self)
        have hy : y ∈ l := by
          rw [ho] at hin
          obtain hbefore | hin := List.mem_append.mp hin
          · exact absurd List.mem_cons_self
              (List.disjoint_of_nodup_append (ho' ▸ h'.nodup) hbefore)
          · exact (List.mem_cons.mp hin).resolve_left (Ne.symm hne)
        exact hne (hantisymm (h.least ho y hy (h'.ready ho')) (h'.least ho' x hx (h.ready ho)))
      obtain rfl := hxy
      rw [ih l' (before ++ [x]) (by rw [ho, List.append_cons]) (by rw [ho', List.append_cons])]

omit [DecidableEq α] in
/-- A sorted list is the greedy order, when dependencies are smaller. -/
theorem greedy_of_sorted (hantisymm : ∀ {x y}, le x y → le y x → x = y) (hnodup : out.Nodup)
    (hmem : ∀ {x}, x ∈ out ↔ members x) (hsorted : out.Pairwise le)
    (hdep : ∀ {p x}, members p → members x → dep p x → le p x ∧ p ≠ x) :
    Greedy le dep members out := by
  -- whatever stands after an element is not smaller
  have hsplit : ∀ {before x after}, out = before ++ x :: after → ∀ y ∈ after, le x y := by
    rintro before x after rfl y hy
    exact List.rel_of_pairwise_cons (List.pairwise_append.mp hsorted).2.1 hy
  refine ⟨hnodup, hmem, fun {before x after} ho p hp hd => ?_, fun ho y hy _ => hsplit ho y hy⟩
  have hx : members x := hmem.mp (ho ▸ List.mem_append_right before List.mem_cons_self)
  obtain ⟨hle, hne⟩ := hdep hp hx hd
  have hin := hmem.mpr hp
  rw [ho, List.mem_append, List.mem_cons] at hin
  -- what it depends on is smaller, so it stands before
  obtain hbefore | rfl | hafter := hin
  · exact hbefore
  · exact absurd rfl hne
  · exact absurd (hantisymm hle (hsplit ho p hafter)) hne

/-- When every item is ready once those before it are out, one pass emits them all as they
stand. -/
theorem pass_of_ready {ready : Finset α → α → Bool} : ∀ (xs : List α) (st : Pass α),
    (∀ before x after, xs = before ++ x :: after →
      ready (before.toFinset ∪ st.emitted) x = true) →
    (pass ready xs st).out = st.out ++ xs ∧ (pass ready xs st).waiting = st.waiting ∧
      (st.progressed = true ∨ xs ≠ [] → (pass ready xs st).progressed = true) := by
  intro xs
  induction xs with
  | nil =>
    intro st _
    exact ⟨(List.append_nil _).symm, rfl, fun h => h.resolve_right fun hne => hne rfl⟩
  | cons x xs ih =>
    intro st h
    -- with everything before it emitted the element is ready
    have hx : ready st.emitted x = true := by
      have := h [] x xs rfl
      rwa [List.toFinset_nil, Finset.empty_union] at this
    unfold pass
    rw [if_pos hx]
    obtain ⟨hout, hwaiting, hprogressed⟩ := ih ⟨insert x st.emitted, st.out ++ [x], st.waiting, true⟩
      fun before y after hsplit => by
        have := h (x :: before) y after (by rw [hsplit, List.cons_append])
        rwa [List.toFinset_cons, Finset.insert_union, ← Finset.union_insert] at this
    refine ⟨?_, hwaiting, fun _ => hprogressed (Or.inl rfl)⟩
    rw [hout, List.append_assoc, List.singleton_append]

/-- Then the passes leave the list as it is. -/
theorem passes_of_ready {ready : Finset α → α → Bool} {xs : List α} (n : ℕ)
    (h : ∀ before x after, xs = before ++ x :: after → ready before.toFinset x = true) :
    passes ready n xs ∅ [] = xs := by
  cases n with
  | zero => rfl
  | succ n =>
    cases xs with
    | nil => rfl
    | cons x xs =>
      obtain ⟨hout, hwaiting, hprogressed⟩ := pass_of_ready (x :: xs) ⟨∅, [], [], false⟩
        fun before y after hsplit => by
          rw [Finset.union_empty]
          exact h before y after hsplit
      unfold passes
      dsimp only
      rw [if_pos (hprogressed (Or.inr (List.cons_ne_nil _ _))), hout, hwaiting, List.nil_append]
      -- nothing waits after the first pass, so the second has nothing to do
      cases n with
      | zero => exact List.append_nil _
      | succ n => rfl

end Greedy

/-! ### What the order depends on, and what it says about indirect dependencies -/

section Congr

variable {ready ready' : Finset α → α → Bool}

theorem pass_congr : ∀ (xs : List α) (st : Pass α),
    (∀ emitted, ∀ x ∈ xs, ready emitted x = ready' emitted x) →
    pass ready xs st = pass ready' xs st := by
  intro xs
  induction xs with
  | nil => intro st _; rfl
  | cons x xs ih =>
    intro st h
    have hxs : ∀ emitted, ∀ y ∈ xs, ready emitted y = ready' emitted y :=
      fun emitted y hy => h emitted y (List.mem_cons_of_mem x hy)
    unfold pass
    rw [h _ x List.mem_cons_self, ih _ hxs, ih _ hxs]

/-- The passes consult `ready` on the remaining items only. -/
theorem passes_congr : ∀ (n : ℕ) (remaining : List α) (emitted : Finset α) (out : List α),
    (∀ emitted, ∀ x ∈ remaining, ready emitted x = ready' emitted x) →
    passes ready n remaining emitted out = passes ready' n remaining emitted out := by
  intro n
  induction n with
  | zero => intro _ _ _ _; rfl
  | succ n ih =>
    intro remaining emitted out h
    cases remaining with
    | nil => rfl
    | cons x xs =>
      have hpass := pass_congr (x :: xs) ⟨emitted, out, [], false⟩ h
      unfold passes
      rw [hpass]
      dsimp only
      split
      · -- the next pass takes only what waited in this one
        refine ih _ _ _ fun emitted' y hy => h emitted' y ?_
        exact (mem_of_mem_waiting ready' _ _ hy).resolve_left List.not_mem_nil
      · rfl

end Congr

section Indirect

variable {dep : α → α → Prop} {out : List α}

/-- In an order that lists no item before one of its dependencies, a dependency has the
smaller index. -/
theorem idxOf_lt (hpw : out.Pairwise fun a b => ¬ dep b a) {a b : α} (ha : a ∈ out)
    (hb : b ∈ out) (hd : dep a b) (hne : a ≠ b) : out.idxOf a < out.idxOf b := by
  by_contra hle
  have hlt : out.idxOf b < out.idxOf a := by
    refine lt_of_le_of_ne (not_lt.mp hle) fun he => hne ?_
    exact ((List.idxOf_inj hb).mp he).symm
  have hrel := List.pairwise_iff_getElem.mp hpw _ _ (List.idxOf_lt_length_of_mem hb)
    (List.idxOf_lt_length_of_mem ha) hlt
  rw [List.getElem_idxOf, List.getElem_idxOf] at hrel
  exact hrel hd

/-- If the items between two items of the list are in the list, then indirect
dependencies come first as well. -/
theorem pairwise_reflTransGen (hnd : out.Nodup) (hpw : out.Pairwise fun a b => ¬ dep b a)
    (hconv : ∀ a b c, a ∈ out → dep a b → Relation.ReflTransGen dep b c → c ∈ out → b ∈ out) :
    out.Pairwise fun a b => ¬ Relation.ReflTransGen dep b a := by
  -- along a path no element stands after the next one
  have hle : ∀ {a c}, Relation.ReflTransGen dep a c → a ∈ out → c ∈ out →
      out.idxOf a ≤ out.idxOf c := by
    intro a c hac
    induction hac using Relation.ReflTransGen.head_induction_on with
    | refl => exact fun _ _ => le_rfl
    | @head a b hab hbc ih =>
      intro ha hc
      have hb := hconv a b _ ha hab hbc hc
      refine le_trans ?_ (ih hb hc)
      by_cases he : a = b
      · rw [he]
      · exact (idxOf_lt hpw ha hb hab he).le
  refine List.pairwise_iff_getElem.mpr fun i j hi hj hij hdep => ?_
  have h := hle hdep (List.getElem_mem hj) (List.getElem_mem hi)
  rw [hnd.idxOf_getElem, hnd.idxOf_getElem] at h
  exact absurd hij (not_lt.mpr h)

end Indirect

end TopoSort
