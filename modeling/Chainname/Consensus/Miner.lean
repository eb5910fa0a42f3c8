import Chainname.Consensus.Validate

/-!
# The mining loop

A search over consecutive nonces from a start, for a header whose hash meets its target. The
budget may run out, which is no error. Budgets add up (`mine_add`): two miners who take one
stretch of nonces each find what one miner finds who takes both, so a range can be shared out.

What is found differs from the template in its nonce alone, so a template that is good in all
but its proof of work becomes a header that validation accepts (`mined_accepted`).
-/

namespace Chainname

/-- Result of a mining attempt. -/
inductive MineOutcome where
  /-- The sealed header, and how many nonces were tried. -/
  | found (header : Header) (attempts : ℕ)
  | exhausted (attempts : ℕ)
  deriving DecidableEq

/-- The header of an attempt: nonces wrap around. -/
def attempted (template : Header) (startNonce : UInt64) (attempt : ℕ) : Header :=
  { template with nonce := startNonce + UInt64.ofNat attempt }

/-- The first of so many attempts, from one on, that meets a target. -/
def searchFrom (pow : PowHash) (template : Header) (startNonce : UInt64) (target : ℕ) :
    ℕ → ℕ → Option ℕ
  | 0, _ => none
  | attempts + 1, attempt =>
    if (pow.hashHeader (attempted template startNonce attempt)).val ≤ target then some attempt
    else searchFrom pow template startNonce target attempts (attempt + 1)

/-- The first attempt of so many that meets a target. -/
def firstSolution (pow : PowHash) (template : Header) (startNonce : UInt64) (target : ℕ)
    (maxAttempts : ℕ) : Option ℕ :=
  searchFrom pow template startNonce target maxAttempts 0

/-- Searches for a nonce from `startNonce` on, trying at most `maxAttempts`. -/
def mine (pow : PowHash) (template : Header) (startNonce : UInt64) (maxAttempts : ℕ) :
    Except CompactError MineOutcome :=
  match CompactTarget.toTarget template.bits with
  | .error e => .error e
  | .ok target =>
    match firstSolution pow template startNonce target maxAttempts with
    | some attempt => .ok (.found (attempted template startNonce attempt) (attempt + 1))
    | none => .ok (.exhausted maxAttempts)

namespace MineOutcome

/-- The outcome of a search that comes after `spent` attempts in vain. -/
def after (spent : ℕ) : MineOutcome → MineOutcome
  | .found header attempts => .found header (spent + attempts)
  | .exhausted attempts => .exhausted (spent + attempts)

end MineOutcome

section Search

variable {pow : PowHash} {template : Header} {startNonce : UInt64} {target : ℕ}

/-- Attempts after an offset are those of a later start. -/
theorem attempted_add (template : Header) (startNonce : UInt64) (a b : ℕ) :
    attempted template startNonce (a + b) = attempted template (startNonce + UInt64.ofNat a) b := by
  unfold attempted
  rw [UInt64.ofNat_add, UInt64.add_assoc]

theorem searchFrom_eq (attempts attempt : ℕ) :
    searchFrom pow template startNonce target attempts attempt
      = (List.range' attempt attempts).find? fun attempt =>
          (pow.hashHeader (attempted template startNonce attempt)).val ≤ target := by
  induction attempts generalizing attempt with
  | zero => rfl
  | succ attempts ih =>
    unfold searchFrom
    rw [List.range'_succ, List.find?_cons]
    split
    · next hle => rw [decide_eq_true hle]
    · next hnot => rw [decide_eq_false hnot, ih]

/-- The search goes through the attempts in order. -/
theorem firstSolution_eq (maxAttempts : ℕ) :
    firstSolution pow template startNonce target maxAttempts
      = (List.range maxAttempts).find? fun attempt =>
          (pow.hashHeader (attempted template startNonce attempt)).val ≤ target := by
  rw [List.range_eq_range']
  exact searchFrom_eq maxAttempts 0

theorem firstSolution_eq_some {maxAttempts attempt : ℕ} :
    firstSolution pow template startNonce target maxAttempts = some attempt ↔
      attempt < maxAttempts ∧
      (pow.hashHeader (attempted template startNonce attempt)).val ≤ target ∧
      ∀ earlier < attempt,
        ¬ (pow.hashHeader (attempted template startNonce earlier)).val ≤ target := by
  rw [firstSolution_eq, List.find?_range_eq_some]
  simp only [List.mem_range, decide_eq_true_eq, Bool.not_eq_eq_eq_not, Bool.not_true,
    decide_eq_false_iff_not]
  tauto

theorem firstSolution_eq_none {maxAttempts : ℕ} :
    firstSolution pow template startNonce target maxAttempts = none ↔
      ∀ attempt < maxAttempts,
        ¬ (pow.hashHeader (attempted template startNonce attempt)).val ≤ target := by
  rw [firstSolution_eq, List.find?_eq_none]
  simp only [List.mem_range, decide_eq_true_eq]

/-- **A search in two parts.** -/
theorem firstSolution_add (a b : ℕ) :
    firstSolution pow template startNonce target (a + b)
      = (firstSolution pow template startNonce target a).or
          ((firstSolution pow template (startNonce + UInt64.ofNat a) target b).map (a + ·)) := by
  rw [firstSolution_eq, firstSolution_eq, firstSolution_eq, List.range_add, List.find?_append, List.find?_map]
  refine congrArg _ (congrArg _ (congrArg (fun p => List.find? p (List.range b)) ?_))
  funext attempt
  simp only [Function.comp_apply, attempted_add]

theorem mine_add (template : Header) (startNonce : UInt64) (a b : ℕ) :
    mine pow template startNonce (a + b) =
      match mine pow template startNonce a with
      | .ok (.exhausted _) =>
        (mine pow template (startNonce + UInt64.ofNat a) b).map (MineOutcome.after a)
      | outcome => outcome := by
  unfold mine
  cases CompactTarget.toTarget template.bits with
  | error e => rfl
  | ok target =>
    dsimp only
    rw [firstSolution_add]
    cases firstSolution pow template startNonce target a with
    | some attempt => rfl
    -- nothing in the first `a` attempts: the second range starts where they end
    | none =>
      cases firstSolution pow template (startNonce + UInt64.ofNat a) target b with
      | some attempt =>
        show Except.ok _ = Except.ok (MineOutcome.found _ (a + (attempt + 1)))
        rw [← Nat.add_assoc]
        exact congrArg (fun header => Except.ok (MineOutcome.found header (a + attempt + 1)))
          (attempted_add template startNonce a attempt)
      | none => rfl

end Search

/-! ### What is found -/

/-- The header of an attempt solves its own target exactly when it meets that of the template. -/
theorem solves_attempted (pow : PowHash) {template : Header} {target : ℕ}
    (htarget : CompactTarget.toTarget template.bits = .ok target) (startNonce : UInt64)
    (attempt : ℕ) :
    Solves pow (attempted template startNonce attempt) ↔
      (pow.hashHeader (attempted template startNonce attempt)).val ≤ target := by
  constructor
  · rintro ⟨target', htarget', hle⟩
    obtain rfl : target = target' := Except.ok.inj (htarget.symm.trans htarget')
    exact hle
  · exact fun hle => ⟨target, htarget, hle⟩

section Outcome

variable {pow : PowHash} {template : Header} {target : ℕ} {startNonce : UInt64} {maxAttempts : ℕ}

/-- What is found is the first attempt that solves. -/
theorem mine_eq_found (htarget : CompactTarget.toTarget template.bits = .ok target)
    {header : Header} {attempts : ℕ} :
    mine pow template startNonce maxAttempts = .ok (.found header attempts) ↔
      ∃ attempt < maxAttempts, attempts = attempt + 1 ∧
        header = attempted template startNonce attempt ∧ Solves pow header ∧
        ∀ earlier < attempt, ¬ Solves pow (attempted template startNonce earlier) := by
  have hsolves := solves_attempted pow htarget startNonce
  unfold mine
  rw [htarget]
  dsimp only
  cases hfirst : firstSolution pow template startNonce target maxAttempts with
  | some attempt =>
    obtain ⟨hlt, hle, hearlier⟩ := firstSolution_eq_some.mp hfirst
    constructor
    · intro h
      obtain ⟨rfl, rfl⟩ := MineOutcome.found.inj (Except.ok.inj h)
      exact ⟨attempt, hlt, rfl, rfl, (hsolves attempt).mpr hle,
        fun earlier hlt' hs => hearlier earlier hlt' ((hsolves earlier).mp hs)⟩
    · rintro ⟨attempt', hlt', rfl, rfl, hs, hbefore⟩
      -- there is only one first solution
      have hsame := firstSolution_eq_some.mpr ⟨hlt', (hsolves attempt').mp hs,
        fun earlier hlt'' hle' => hbefore earlier hlt'' ((hsolves earlier).mpr hle')⟩
      obtain rfl := Option.some.inj (hfirst.symm.trans hsame)
      rfl
  | none =>
    refine iff_of_false nofun ?_
    rintro ⟨attempt, hlt, -, rfl, hs, -⟩
    exact firstSolution_eq_none.mp hfirst attempt hlt ((hsolves attempt).mp hs)

/-- The budget is exhausted exactly when no attempt in it solves. -/
theorem mine_eq_exhausted (htarget : CompactTarget.toTarget template.bits = .ok target) :
    mine pow template startNonce maxAttempts = .ok (.exhausted maxAttempts) ↔
      ∀ attempt < maxAttempts, ¬ Solves pow (attempted template startNonce attempt) := by
  have hsolves := solves_attempted pow htarget startNonce
  unfold mine
  rw [htarget]
  dsimp only
  -- the first solution, or none within the range
  cases hfirst : firstSolution pow template startNonce target maxAttempts with
  | some attempt =>
    obtain ⟨hlt, hle, -⟩ := firstSolution_eq_some.mp hfirst
    exact iff_of_false nofun fun h => h attempt hlt ((hsolves attempt).mpr hle)
  | none =>
    exact iff_of_true rfl fun attempt hlt hs =>
      firstSolution_eq_none.mp hfirst attempt hlt ((hsolves attempt).mp hs)

/-- A search ends in one way or the other. -/
theorem mine_outcome (pow : PowHash)
    (htarget : CompactTarget.toTarget template.bits = .ok target) (startNonce : UInt64)
    (maxAttempts : ℕ) :
    mine pow template startNonce maxAttempts = .ok (.exhausted maxAttempts) ∨
      ∃ header attempts,
        mine pow template startNonce maxAttempts = .ok (.found header attempts) := by
  unfold mine
  rw [htarget]
  dsimp only
  cases firstSolution pow template startNonce target maxAttempts with
  | some attempt => exact Or.inr ⟨_, _, rfl⟩
  | none => exact Or.inl rfl

end Outcome

/-- **What mining does**, for a template whose target decodes: the first attempt that solves is
returned, with the number of attempts up to it, and the budget is exhausted exactly when no
attempt in it solves. A range of nonces can be searched in parts. -/
theorem mine_spec (pow : PowHash) (template : Header) {target : ℕ}
    (htarget : CompactTarget.toTarget template.bits = .ok target) (startNonce : UInt64) :
    (∀ maxAttempts header attempts,
      mine pow template startNonce maxAttempts = .ok (.found header attempts) ↔
        ∃ attempt < maxAttempts, attempts = attempt + 1 ∧
          header = attempted template startNonce attempt ∧ Solves pow header ∧
          ∀ earlier < attempt, ¬ Solves pow (attempted template startNonce earlier)) ∧
    (∀ maxAttempts, mine pow template startNonce maxAttempts = .ok (.exhausted maxAttempts) ↔
      ∀ attempt < maxAttempts, ¬ Solves pow (attempted template startNonce attempt)) ∧
    (∀ maxAttempts, mine pow template startNonce maxAttempts = .ok (.exhausted maxAttempts) ∨
      ∃ header attempts, mine pow template startNonce maxAttempts = .ok (.found header attempts)) ∧
    ∀ a b, mine pow template startNonce (a + b) =
      match mine pow template startNonce a with
      | .ok (.exhausted _) =>
        (mine pow template (startNonce + UInt64.ofNat a) b).map (MineOutcome.after a)
      | outcome => outcome :=
  ⟨fun _ _ _ => mine_eq_found htarget, fun _ => mine_eq_exhausted htarget,
    mine_outcome pow htarget startNonce, mine_add template startNonce⟩

namespace Sample

/-- One header in four solves, whatever its target. -/
def pickyPow : PowHash := ⟨fun bytes =>
  if (bytes.foldl (fun n byte => n + byte.toNat) 0) % 4 = 0 then 0 else Fin.ofNat _ U256.max⟩

end Sample

open Sample in
/-- A search that finds a nonce after two in vain, in one go and in two parts. -/
theorem mine_spec_picky :
    mine pickyPow timedFirst 9 10 = .ok (.found (attempted timedFirst 9 2) 3) ∧
      mine pickyPow timedFirst 9 2 = .ok (.exhausted 2) ∧
      mine pickyPow timedFirst 9 10 = (mine pickyPow timedFirst 11 8).map (.after 2) := by
  have htarget : CompactTarget.toTarget timedFirst.bits = .ok (2 ^ 200) := by decide +kernel
  obtain ⟨hfound, hexhausted, -, hparts⟩ := mine_spec pickyPow timedFirst htarget 9
  have hsolves := solves_attempted pickyPow htarget 9
  -- neither of the first two nonces solves
  have hvain : ∀ attempt < 2, ¬ Solves pickyPow (attempted timedFirst 9 attempt) := by
    intro attempt hlt
    rw [hsolves]
    revert hlt attempt
    decide +kernel
  have htwo := (hexhausted 2).mpr hvain
  refine ⟨(hfound 10 _ 3).mpr ⟨2, by decide, rfl, rfl, ?_, hvain⟩, htwo, ?_⟩
  · rw [hsolves]
    decide +kernel
  · have hsplit := hparts 2 8
    rw [htwo] at hsplit
    exact hsplit

/-- **Mined, then validated.** From a well-formed template whose time is neither too late nor
before its parent's and which carries the difficulty the rule demands there, whatever nonce is
found, validation accepts the header. -/
theorem mined_accepted (pow : PowHash) (ctx : ValidationContext) (template : Header)
    (hsane : Asert.Sane ctx.asert ctx.anchorTarget) (hheight : 1 ≤ ctx.height.toNat)
    (hwellFormed : template.WellFormed) (hfuture : template.timestampMs ≤ ctx.limitMs)
    (hparent : ctx.parentTimestampMs ≤ template.timestampMs)
    (hbits : Asert.expectedBits ctx.toValidationContext template.timestampMs = some template.bits)
    (startNonce : UInt64) (maxAttempts : ℕ) :
    mine pow template startNonce maxAttempts = .ok (.exhausted maxAttempts) ∨
      ∃ header attempts, mine pow template startNonce maxAttempts = .ok (.found header attempts) ∧
        header = { template with nonce := header.nonce } ∧ attempts ≤ maxAttempts ∧
        validateHeader pow ctx header = some (.ok ()) := by
  obtain ⟨bits, hexpected, htarget⟩ := hsane.expectedBits hheight template.timestampMs
  obtain rfl : template.bits = bits := Option.some.inj (hbits.symm.trans hexpected)
  rcases mine_outcome pow htarget startNonce maxAttempts with hexhausted | ⟨header, attempts, hmine⟩
  · exact Or.inl hexhausted
  · refine Or.inr ⟨header, attempts, hmine, ?_⟩
    -- all but the nonce is the template's, which was good
    obtain ⟨attempt, hlt, rfl, rfl, hsolves, -⟩ := (mine_eq_found htarget).mp hmine
    refine ⟨rfl, hlt, (validateHeader_ok_iff pow ctx _).mpr ?_⟩
    exact ⟨hwellFormed.withNonce _, hfuture, hparent, hbits, hsolves⟩

open Sample in
/-- A template on schedule. -/
theorem mined_accepted_on_schedule :
    mine easyPow timedFirst 7 10 = .ok (.exhausted 10) ∨
      ∃ found attempts, mine easyPow timedFirst 7 10 = .ok (.found found attempts) ∧
        found = { timedFirst with nonce := found.nonce } ∧ attempts ≤ 10 ∧
        validateHeader easyPow (timedAnchor.context 1 timedGenesis 1700000001000) found
          = some (.ok ()) :=
  mined_accepted easyPow (timedAnchor.context 1 timedGenesis 1700000001000) timedFirst
    timedAnchor_sane (by decide) ⟨rfl, List.cons_ne_nil _ _, List.pairwise_singleton _ _⟩
    (by decide) (by decide) (by decide +kernel) 7 10

end Chainname
