import Mathlib.Algebra.Order.Ring.Nat
import Mathlib.Data.Finmap
import Mathlib.Data.Finset.Sort
import Mathlib.Data.List.Sort

/-!
# Finite maps and ordered iteration

Hash maps and ordered maps are both modelled by Mathlib's `Finmap`, at a constant
family of value types (`Map`). Two such maps are equal as soon as they answer every
lookup alike (`Finmap.ext_lookup`), so a statement about the contents of a map does not
mention an iteration order.

Where a program does iterate, it iterates in key order: `sortedKeys` lists a finite set
in increasing order by insertion sort, which unlike `Finset.sort` evaluates inside the
kernel, and `Maps.toList` lists the bindings of a map the same way. `Maps.retain` keeps
the bindings that satisfy a test.
-/

/-- Finite maps from `α` to `β`. -/
abbrev Map (α β : Type) := Finmap fun _ : α => β

namespace Maps

section Ordered

variable {α : Type} [LinearOrder α]

/-- The members of a finite set, in increasing order. -/
def sortedKeys (s : Finset α) : List α :=
  Quot.liftOn s.val (fun l => l.insertionSort (· ≤ ·)) fun l₁ l₂ h =>
    List.Perm.eq_of_pairwise (fun _ _ _ _ h₁ h₂ => le_antisymm h₁ h₂)
      (List.pairwise_insertionSort _ _) (List.pairwise_insertionSort _ _)
      (((List.perm_insertionSort _ l₁).trans h).trans (List.perm_insertionSort _ l₂).symm)

/-- `sortedKeys` is a permutation of the set's own enumeration. -/
theorem coe_sortedKeys (s : Finset α) : (sortedKeys s : Multiset α) = s.val := by
  obtain ⟨⟨l⟩, hl⟩ := s
  exact Quot.sound (List.perm_insertionSort _ l)

@[simp] theorem mem_sortedKeys {s : Finset α} {a : α} : a ∈ sortedKeys s ↔ a ∈ s := by
  rw [← Multiset.mem_coe, coe_sortedKeys]
  rfl

theorem nodup_sortedKeys (s : Finset α) : (sortedKeys s).Nodup := by
  rw [← Multiset.coe_nodup, coe_sortedKeys]
  exact s.nodup

theorem length_sortedKeys (s : Finset α) : (sortedKeys s).length = s.card := by
  rw [← Multiset.coe_card, coe_sortedKeys]
  rfl

theorem pairwise_sortedKeys (s : Finset α) : (sortedKeys s).Pairwise (· ≤ ·) := by
  obtain ⟨⟨l⟩, hl⟩ := s
  exact List.pairwise_insertionSort _ l

end Ordered

section Lookup

variable {α β : Type} [DecidableEq α]

/-- Reading a map after an insertion. -/
theorem lookup_insert (m : Map α β) (a b : α) (v : β) :
    (m.insert a v).lookup b = if b = a then some v else m.lookup b := by
  split
  · next h => rw [h, Finmap.lookup_insert]
  · next h => rw [Finmap.lookup_insert_of_ne _ h]

/-- Reading a map after an erasure. -/
theorem lookup_erase (m : Map α β) (a b : α) :
    (m.erase a).lookup b = if b = a then none else m.lookup b := by
  split
  · next h => rw [h, Finmap.lookup_erase]
  · next h => rw [Finmap.lookup_erase_ne h]

/-- A binding of the map after an insertion is the new one or was there before. -/
theorem lookup_insert_eq_some {m : Map α β} {a b : α} {v w : β} :
    (m.insert a v).lookup b = some w ↔ b = a ∧ w = v ∨ b ≠ a ∧ m.lookup b = some w := by
  rw [lookup_insert]
  by_cases hb : b = a
  · simp [hb, eq_comm]
  · simp [hb]

theorem lookup_erase_eq_some {m : Map α β} {a b : α} {v : β} :
    (m.erase a).lookup b = some v ↔ b ≠ a ∧ m.lookup b = some v := by
  rw [lookup_erase]
  by_cases hb : b = a
  · simp [hb]
  · simp [hb]

/-- What a binding of the map after an insertion at a new key satisfies. -/
theorem exists_lookup_insert {m : Map α β} {a b : α} {v : β} (ha : m.lookup a = none)
    {P : β → Prop} : (∃ w, (m.insert a v).lookup b = some w ∧ P w) ↔
      b = a ∧ P v ∨ ∃ w, m.lookup b = some w ∧ P w := by
  rw [lookup_insert]
  by_cases hb : b = a
  · subst hb
    simp [ha]
  · simp [hb]

/-- What a binding of the map after a removal satisfies. -/
theorem exists_lookup_erase {m : Map α β} {a b : α} {P : β → Prop} :
    (∃ w, (m.erase a).lookup b = some w ∧ P w) ↔ b ≠ a ∧ ∃ w, m.lookup b = some w ∧ P w := by
  simp only [lookup_erase_eq_some, and_assoc, exists_and_left]

/-- A key is bound exactly when its lookup succeeds. -/
theorem mem_iff_exists_lookup {m : Map α β} {a : α} : a ∈ m ↔ ∃ v, m.lookup a = some v := by
  rw [← Finmap.lookup_isSome, Option.isSome_iff_exists]

theorem mem_of_lookup {m : Map α β} {a : α} {v : β} (h : m.lookup a = some v) : a ∈ m :=
  mem_iff_exists_lookup.mpr ⟨v, h⟩

theorem keys_insert (m : Map α β) (a : α) (v : β) : (m.insert a v).keys = insert a m.keys := by
  ext b
  rw [Finmap.mem_keys, Finmap.mem_insert, Finset.mem_insert, Finmap.mem_keys]

theorem card_keys_insert {m : Map α β} {a : α} (v : β) (h : a ∉ m) :
    (m.insert a v).keys.card = m.keys.card + 1 := by
  rw [keys_insert, Finset.card_insert_of_notMem fun hmem => h (Finmap.mem_keys.mp hmem)]

theorem card_keys_erase {m : Map α β} {a : α} (h : a ∈ m) :
    (m.erase a).keys.card + 1 = m.keys.card := by
  rw [Finmap.keys_erase, Finset.card_erase_add_one (Finmap.mem_keys.mpr h)]

/-- The bindings of `m` that pass the test. -/
def retain (p : α → β → Bool) (m : Map α β) : Map α β where
  entries := m.entries.filter fun e => p e.1 e.2
  nodupKeys := Multiset.nodup_keys.mp
    (Multiset.nodup_of_le (Multiset.map_le_map (Multiset.filter_le _ _))
      (Multiset.nodup_keys.mpr m.nodupKeys))

theorem lookup_retain (p : α → β → Bool) (m : Map α β) (a : α) :
    (retain p m).lookup a = (m.lookup a).filter (p a) := by
  refine Option.ext fun v => ?_
  rw [← Option.mem_def, Finmap.mem_lookup_iff, Option.filter_eq_some_iff,
    ← Option.mem_def, Finmap.mem_lookup_iff]
  exact Multiset.mem_filter

theorem lookup_retain_eq_some {p : α → β → Bool} {m : Map α β} {a : α} {v : β} :
    (retain p m).lookup a = some v ↔ m.lookup a = some v ∧ p a v := by
  rw [lookup_retain, Option.filter_eq_some_iff]

/-- **Reading after a loop of insertions**, when every key is inserted once. -/
theorem lookup_foldl_insert {l : List (α × β)} (hnodup : (l.map Prod.fst).Nodup) (m : Map α β)
    {a : α} {v : β} :
    (l.foldl (fun m e => m.insert e.1 e.2) m).lookup a = some v ↔
      (a, v) ∈ l ∨ a ∉ l.map Prod.fst ∧ m.lookup a = some v := by
  induction l generalizing m with
  | nil => simp
  | cons e l ih =>
    obtain ⟨b, w⟩ := e
    obtain ⟨hb, hnodup⟩ := List.nodup_cons.mp hnodup
    rw [List.foldl_cons, ih hnodup, lookup_insert]
    by_cases hab : a = b
    · -- the key is not inserted again
      subst hab
      have hnot : ∀ v, (a, v) ∉ l := fun v hv => hb (List.mem_map.mpr ⟨_, hv, rfl⟩)
      simp [hnot, show a ∉ l.map Prod.fst from hb, eq_comm]
    · rw [if_neg hab, List.map_cons, List.mem_cons, List.mem_cons]
      simp [hab]

/-- The keys after a loop of erasures. -/
theorem mem_foldl_erase {l : List α} {m : Map α β} {a : α} :
    a ∈ l.foldl (fun m k => m.erase k) m ↔ a ∈ m ∧ a ∉ l := by
  induction l generalizing m with
  | nil => simp
  | cons k l ih =>
    rw [List.foldl_cons, ih, Finmap.mem_erase, List.mem_cons, not_or]
    tauto

/-- **Reading after a loop that appends** one value under each key of a list. -/
theorem getD_foldl_append (keys : List α) (x : β) (m : Map α (List β)) (a : α) :
    ((keys.foldl (fun m k => m.insert k ((m.lookup k).getD [] ++ [x])) m).lookup a).getD []
      = (m.lookup a).getD [] ++ List.replicate (keys.count a) x := by
  induction keys generalizing m with
  | nil => exact (List.append_nil _).symm
  | cons k keys ih =>
    rw [List.foldl_cons, ih, lookup_insert]
    by_cases h : a = k
    · rw [if_pos h, h, Option.getD_some, List.count_cons_self, List.replicate_succ,
        List.append_assoc, List.singleton_append]
    · rw [if_neg h, List.count_cons_of_ne (Ne.symm h)]

theorem mem_foldl_append {keys : List α} {x : β} {m : Map α (List β)} {a : α} :
    a ∈ keys.foldl (fun m k => m.insert k ((m.lookup k).getD [] ++ [x])) m ↔
      a ∈ keys ∨ a ∈ m := by
  induction keys generalizing m with
  | nil => exact (or_iff_right List.not_mem_nil).symm
  | cons k keys ih =>
    rw [List.foldl_cons, ih, Finmap.mem_insert, List.mem_cons]
    exact or_left_comm.trans or_assoc.symm

end Lookup

section Iterate

variable {α β : Type} [LinearOrder α]

/-- The bindings of `m` in increasing key order. -/
def toList (m : Map α β) : List (α × β) :=
  (sortedKeys m.keys).filterMap fun a => (m.lookup a).map (Prod.mk a)

theorem mem_toList {m : Map α β} {a : α} {v : β} :
    (a, v) ∈ toList m ↔ m.lookup a = some v := by
  unfold toList
  rw [List.mem_filterMap]
  refine ⟨?_, ?_⟩
  · rintro ⟨b, -, hb⟩
    obtain ⟨w, hw, he⟩ := Option.map_eq_some_iff.mp hb
    obtain ⟨rfl, rfl⟩ := Prod.mk.inj he
    exact hw
  · intro h
    exact ⟨a, mem_sortedKeys.mpr (Finmap.mem_keys.mpr (mem_of_lookup h)),
      Option.map_eq_some_iff.mpr ⟨v, h, rfl⟩⟩

/-- The keys of the bindings, in order, are the sorted keys. -/
theorem map_fst_toList (m : Map α β) : (toList m).map Prod.fst = sortedKeys m.keys := by
  unfold toList
  rw [List.map_filterMap]
  have hall : ∀ a ∈ sortedKeys m.keys,
      ((m.lookup a).map (Prod.mk a)).map Prod.fst = some a := by
    intro a ha
    obtain ⟨v, hv⟩ := mem_iff_exists_lookup.mp (Finmap.mem_keys.mp (mem_sortedKeys.mp ha))
    rw [hv]
    rfl
  rw [List.filterMap_congr hall, List.filterMap_some]

theorem nodup_keys_toList (m : Map α β) : ((toList m).map Prod.fst).Nodup := by
  rw [map_fst_toList]
  exact nodup_sortedKeys _

omit [LinearOrder α] in
/-- A loop over bindings that never touches `a` leaves what is read at `a` alone. -/
theorem foldl_get_of_notMem {σ γ : Type} {get : σ → α → γ} {f : σ → α × β → σ} {a : α}
    (hne : ∀ s b v, a ≠ b → get (f s (b, v)) a = get s a) :
    ∀ (l : List (α × β)) (s : σ), (∀ v, (a, v) ∉ l) → get (l.foldl f s) a = get s a := by
  intro l
  induction l with
  | nil => intro s _; rfl
  | cons e l ih =>
    obtain ⟨b, v⟩ := e
    intro s h
    have hab : a ≠ b := by
      rintro rfl
      exact h v List.mem_cons_self
    rw [List.foldl_cons, ih _ fun w hw => h w (List.mem_cons_of_mem _ hw), hne s b v hab]

omit [LinearOrder α] in
/-- A loop over bindings of distinct keys acts on what is read at a key as the binding of the key
does. -/
theorem foldl_get_of_mem {σ γ : Type} {get : σ → α → γ} {f : σ → α × β → σ} {act : β → γ → γ}
    (hself : ∀ s a v, get (f s (a, v)) a = act v (get s a))
    (hne : ∀ s a b v, a ≠ b → get (f s (b, v)) a = get s a) {l : List (α × β)}
    (hnodup : (l.map Prod.fst).Nodup) {a : α} {v : β} (hmem : (a, v) ∈ l) (s : σ) :
    get (l.foldl f s) a = act v (get s a) := by
  obtain ⟨l₁, l₂, rfl⟩ := List.append_of_mem hmem
  rw [List.map_append, List.map_cons] at hnodup
  -- the key occurs once, so nothing before or after this entry touches it
  have hkey : ∀ {l : List (α × β)} {w : β}, (a, w) ∈ l → a ∈ l.map Prod.fst := fun hw =>
    List.mem_map.mpr ⟨_, hw, rfl⟩
  have h₁ : ∀ w, (a, w) ∉ l₁ := fun w hw =>
    (List.nodup_append.mp hnodup).2.2 a (hkey hw) a List.mem_cons_self rfl
  have h₂ : ∀ w, (a, w) ∉ l₂ := fun w hw =>
    (List.nodup_cons.mp (List.nodup_append.mp hnodup).2.1).1 (hkey hw)
  rw [List.foldl_append, List.foldl_cons, foldl_get_of_notMem (fun s b v => hne s a b v) _ _ h₂,
    hself, foldl_get_of_notMem (fun s b v => hne s a b v) _ _ h₁]

/-- **Reading after a loop over a map**, in whatever order it is iterated. If one turn of the loop
acts on its own key only, what is read at a key after the loop is the action of that key's own
binding. -/
theorem foldl_get_of_perm {σ γ : Type} (get : σ → α → γ) {f : σ → α × β → σ}
    (act : β → γ → γ) (hself : ∀ s a v, get (f s (a, v)) a = act v (get s a))
    (hne : ∀ s a b v, a ≠ b → get (f s (b, v)) a = get s a) {m : Map α β} {l : List (α × β)}
    (hl : l.Perm (toList m)) (s : σ) (a : α) :
    get (l.foldl f s) a = (m.lookup a).elim (get s a) fun v => act v (get s a) := by
  cases hv : m.lookup a with
  | none =>
    refine foldl_get_of_notMem (fun s b v => hne s a b v) _ _ fun v hmem => ?_
    rw [hl.mem_iff, mem_toList, hv] at hmem
    exact absurd hmem (by simp)
  | some v =>
    have hnodup : (l.map Prod.fst).Nodup := (hl.map Prod.fst).nodup_iff.mpr (nodup_keys_toList m)
    exact foldl_get_of_mem hself hne hnodup (hl.mem_iff.mpr (mem_toList.mpr hv)) s

theorem foldl_toList_get {σ γ : Type} (get : σ → α → γ) {f : σ → α × β → σ}
    (act : β → γ → γ) (hself : ∀ s a v, get (f s (a, v)) a = act v (get s a))
    (hne : ∀ s a b v, a ≠ b → get (f s (b, v)) a = get s a) (m : Map α β) (s : σ) (a : α) :
    get ((toList m).foldl f s) a = (m.lookup a).elim (get s a) fun v => act v (get s a) :=
  foldl_get_of_perm get act hself hne (List.Perm.refl _) s a

end Iterate

end Maps
