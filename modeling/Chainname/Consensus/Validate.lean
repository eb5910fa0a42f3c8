import Chainname.Net.Codec
import Chainname.Primitives.Asert
import Chainname.Primitives.Structure

/-!
# Block validation

A header is checked in the order of the cost of the checks: its structure, its timestamp against
the clock and against its selected parent, its difficulty against the retarget rule, and last
its proof of work.

The difficulty is a function of the height and of the timestamp the header itself claims, so
that a miner who wants an easier target has to claim a later time. `Validated` is a chain of
headers each accepted after the one before it, and `Validated.blockAt` says how far a claimed time
goes: the target of a block lies between those of its ancestors' times and that of the latest time
the clock lets pass. Timestamps ascend along a chain, and what it demands of a height and a
timestamp does not depend on what came before (`Validated.bits_eq`).
-/

namespace Chainname

open Rlp (encode)

/-- A proof-of-work hash function, which takes the encoded header. -/
structure PowHash where
  hash : List UInt8 → B256

/-- Hashes a header. -/
def PowHash.hashHeader (pow : PowHash) (header : Header) : B256 := pow.hash (encode header)

/-- How far into the future a block's timestamp may be, in milliseconds. -/
def maxFutureDriftMs : UInt64 := 2 * 60 * 1000

/-- Addition of 64-bit numbers that stops at the greatest. -/
def saturatingAdd64 (a b : UInt64) : UInt64 :=
  if a.toNat + b.toNat < 2 ^ 64 then a + b else UInt64.ofNat (2 ^ 64 - 1)

theorem toNat_saturatingAdd64 (a b : UInt64) :
    (saturatingAdd64 a b).toNat = min (a.toNat + b.toNat) (2 ^ 64 - 1) := by
  unfold saturatingAdd64
  split
  · next h =>
    rw [UInt64.toNat_add, Nat.mod_eq_of_lt h]
    omega
  · next h =>
    show 2 ^ 64 - 1 = _
    omega

/-- Everything validation needs to know about a block's position in the chain. -/
structure ValidationContext extends Asert.ValidationContext where
  /-- Timestamp of the selected parent. -/
  parentTimestampMs : UInt64
  /-- Current wall-clock time. -/
  nowMs : UInt64

/-- The latest timestamp that is accepted. -/
def ValidationContext.limitMs (ctx : ValidationContext) : UInt64 :=
  saturatingAdd64 ctx.nowMs maxFutureDriftMs

/-- Reasons a block is invalid. -/
inductive ValidationError where
  | structure (error : HeaderError)
  /-- The declared target could not be decoded. -/
  | target (error : CompactError)
  | insufficientWork (hash : B256) (bits : UInt32)
  | wrongDifficulty (found expected : UInt32)
  | timestampTooFarInFuture (timestampMs limitMs : UInt64)
  | timestampWentBackwards (timestampMs parentTimestampMs : UInt64)
  deriving DecidableEq

/-- Checks that the header's proof of work meets its declared target. -/
def checkPow (pow : PowHash) (header : Header) : Except ValidationError Unit :=
  match CompactTarget.toTarget header.bits with
  | .error e => .error (.target e)
  | .ok target =>
    if target < (pow.hashHeader header).val then
      .error (.insufficientWork (pow.hashHeader header) header.bits)
    else .ok ()

/-- Validates a header completely. There is no answer when the retarget overflows. -/
def validateHeader (pow : PowHash) (ctx : ValidationContext) (header : Header) :
    Option (Except ValidationError Unit) :=
  match header.validateStructure with
  | .error e => some (.error (.structure e))
  | .ok _ =>
    if ctx.limitMs < header.timestampMs then
      some (.error (.timestampTooFarInFuture header.timestampMs ctx.limitMs))
    else if header.timestampMs < ctx.parentTimestampMs then
      some (.error (.timestampWentBackwards header.timestampMs ctx.parentTimestampMs))
    else
      match Asert.expectedBits ctx.toValidationContext header.timestampMs with
      | none => none
      | some expected =>
        if header.bits ≠ expected then some (.error (.wrongDifficulty header.bits expected))
        else some (checkPow pow header)

/-! ### What is accepted -/

/-- The hash of the header is within the target it declares. -/
def Solves (pow : PowHash) (header : Header) : Prop :=
  ∃ target, CompactTarget.toTarget header.bits = .ok target ∧ (pow.hashHeader header).val ≤ target

theorem checkPow_ok_iff (pow : PowHash) (header : Header) :
    checkPow pow header = .ok () ↔ Solves pow header := by
  unfold checkPow Solves
  cases CompactTarget.toTarget header.bits with
  | error e => exact iff_of_false nofun fun ⟨target, h, _⟩ => nomatch h
  | ok target =>
    dsimp only
    constructor
    · intro h
      split at h
      · cases h
      · next hle => exact ⟨target, rfl, not_lt.mp hle⟩
    · rintro ⟨_, ⟨rfl⟩, hle⟩
      exact if_neg (not_lt.mpr hle)

/-- What a header is that validation accepts. -/
structure ValidHeader (pow : PowHash) (ctx : ValidationContext) (header : Header) : Prop where
  wellFormed : header.WellFormed
  not_future : header.timestampMs ≤ ctx.limitMs
  not_backwards : ctx.parentTimestampMs ≤ header.timestampMs
  bits : Asert.expectedBits ctx.toValidationContext header.timestampMs = some header.bits
  solves : Solves pow header

theorem validateHeader_ok_iff (pow : PowHash) (ctx : ValidationContext) (header : Header) :
    validateHeader pow ctx header = some (.ok ()) ↔ ValidHeader pow ctx header := by
  unfold validateHeader
  constructor
  · -- the checks in the source's order, each passed before the next is made
    intro h
    cases hstructure : header.validateStructure with
    | error e =>
      rw [hstructure] at h
      cases h
    | ok _ =>
      rw [hstructure] at h
      dsimp only at h
      split at h
      · cases h
      · next hfuture =>
        split at h
        · cases h
        · next hbackwards =>
          cases hexpected : Asert.expectedBits ctx.toValidationContext header.timestampMs with
          | none =>
            rw [hexpected] at h
            cases h
          | some expected =>
            rw [hexpected] at h
            dsimp only at h
            split at h
            · cases h
            · next hbits =>
              refine ⟨header.validateStructure_ok_iff.mp hstructure, ?_, ?_, ?_, ?_⟩
              · exact UInt64.not_lt.mp hfuture
              · exact UInt64.not_lt.mp hbackwards
              · rw [hexpected, not_not.mp hbits]
              · exact (checkPow_ok_iff pow header).mp (Option.some.inj h)
  · -- every check passes
    intro h
    rw [header.validateStructure_ok_iff.mpr h.wellFormed]
    dsimp only
    rw [if_neg (UInt64.not_lt.mpr h.not_future), if_neg (UInt64.not_lt.mpr h.not_backwards), h.bits]
    dsimp only
    rw [if_neg (not_not.mpr rfl), (checkPow_ok_iff pow header).mpr h.solves]

/-! ### How far a timestamp goes -/

/-- Parameters whose retarget is bounded and free of overflow. -/
structure Asert.Sane (params : AsertParams) (anchorTarget : ℕ) : Prop where
  halflife : 0 < params.halflifeSecs
  limit_pos : 1 ≤ params.powLimit
  limit_le : params.powLimit ≤ U256.max
  anchor_le : anchorTarget ≤ U256.max
  ideal_nonneg : 0 ≤ params.idealBlockTimeSecs
  ideal_le : params.idealBlockTimeSecs ≤ 2 ^ 46

/-- The target a block must meet that claims this time. -/
def Asert.targetAt (ctx : Asert.ValidationContext) (timestampMs : UInt64) : ℕ :=
  Asert.decodedTarget ctx.asert ctx.anchorTarget ctx.height.toNat
    (Asert.elapsedSecs ctx.anchorTimestampMs timestampMs)

section Target

variable {actx : Asert.ValidationContext}

/-- A retarget has an answer at every timestamp, and it encodes the target of this time. Genesis,
at height zero, is not validated. -/
theorem Asert.Sane.expectedBits (h : Asert.Sane actx.asert actx.anchorTarget)
    (hheight : 1 ≤ actx.height.toNat) (timestampMs : UInt64) :
    ∃ bits, Asert.expectedBits actx timestampMs = some bits ∧
      CompactTarget.toTarget bits = .ok (Asert.targetAt actx timestampMs) := by
  have hrange := Asert.inRange_of_uint64 h.ideal_nonneg h.ideal_le actx.height
    actx.anchorTimestampMs timestampMs
  exact ⟨_, Asert.nextTarget_eq h.halflife h.anchor_le hheight hrange,
    Asert.toTarget_limited h.limit_pos h.limit_le actx.anchorTarget actx.height.toNat _⟩

theorem Asert.elapsedSecs_mono (anchorMs : UInt64) {a b : UInt64} (h : a ≤ b) :
    Asert.elapsedSecs anchorMs a ≤ Asert.elapsedSecs anchorMs b := by
  have hle : a.toNat ≤ b.toNat := UInt64.le_iff_toNat_le.mp h
  exact Int.tdiv_le_tdiv (by decide) (by omega)

/-- A later time is an easier target. -/
theorem Asert.Sane.targetAt_mono (h : Asert.Sane actx.asert actx.anchorTarget) {a b : UInt64}
    (hle : a ≤ b) : Asert.targetAt actx a ≤ Asert.targetAt actx b := by
  have helapsed := Asert.elapsedSecs_mono actx.anchorTimestampMs hle
  exact Asert.decodedTarget_mono h.halflife h.limit_pos (by omega)

theorem Asert.Sane.targetAt_bounds (h : Asert.Sane actx.asert actx.anchorTarget)
    (timestampMs : UInt64) :
    1 ≤ Asert.targetAt actx timestampMs ∧ Asert.targetAt actx timestampMs ≤ actx.asert.powLimit :=
  Asert.decodedTarget_bounds h.limit_pos h.limit_le

end Target

/-- The target an accepted header has met is that of the time it claims. -/
theorem ValidHeader.target_eq {pow : PowHash} {ctx : ValidationContext} {header : Header}
    (hsane : Asert.Sane ctx.asert ctx.anchorTarget) (hheight : 1 ≤ ctx.height.toNat)
    (h : ValidHeader pow ctx header) :
    CompactTarget.toTarget header.bits
        = .ok (Asert.targetAt ctx.toValidationContext header.timestampMs) ∧
      (pow.hashHeader header).val ≤ Asert.targetAt ctx.toValidationContext header.timestampMs := by
  obtain ⟨bits, hbits, htarget⟩ := hsane.expectedBits hheight header.timestampMs
  obtain rfl : header.bits = bits := Option.some.inj (h.bits.symm.trans hbits)
  obtain ⟨target, hok, hle⟩ := h.solves
  obtain rfl : target = Asert.targetAt ctx.toValidationContext header.timestampMs :=
    Except.ok.inj (hok.symm.trans htarget)
  exact ⟨hok, hle⟩

/-! ### Chains -/

/-- What all blocks of a network are validated against. -/
structure Anchor where
  asert : AsertParams
  target : ℕ
  timestampMs : UInt64

/-- Where a block of a height stands. -/
def Anchor.at (anchor : Anchor) (height : ℕ) : Asert.ValidationContext where
  asert := anchor.asert
  anchorTarget := anchor.target
  anchorTimestampMs := anchor.timestampMs
  height := UInt64.ofNat height

/-- The context of the block at a height after a parent, at a reading of the clock. -/
def Anchor.context (anchor : Anchor) (height : ℕ) (parent : Header) (nowMs : UInt64) :
    ValidationContext where
  toValidationContext := anchor.at height
  parentTimestampMs := parent.timestampMs
  nowMs := nowMs

/-- A chain on top of `genesis`, newest first: each header was accepted at its height, after the
one before it, at some reading of a clock that does not run past `nowMs`. -/
inductive Validated (pow : PowHash) (anchor : Anchor) (genesis : Header) (nowMs : UInt64) :
    List Header → Prop where
  | genesis : Validated pow anchor genesis nowMs [genesis]
  | extend {header parent : Header} {rest : List Header} {clockMs : UInt64} :
      Validated pow anchor genesis nowMs (parent :: rest) → clockMs ≤ nowMs →
      validateHeader pow (anchor.context (rest.length + 1) parent clockMs) header
        = some (.ok ()) →
      Validated pow anchor genesis nowMs (header :: parent :: rest)

namespace Validated

variable {pow : PowHash} {anchor : Anchor} {genesis : Header} {nowMs : UInt64}

/-- Time does not go backwards along a chain. -/
theorem timestamps {chain : List Header} (h : Validated pow anchor genesis nowMs chain) :
    chain.Pairwise fun later earlier => earlier.timestampMs ≤ later.timestampMs := by
  induction h with
  | genesis => exact List.pairwise_singleton _ _
  | @extend header parent rest clockMs _ _ hok ih =>
    have hstep : parent.timestampMs ≤ header.timestampMs :=
      ((validateHeader_ok_iff _ _ _).mp hok).not_backwards
    refine List.pairwise_cons.mpr ⟨fun earlier hmem => ?_, ih⟩
    rcases List.mem_cons.mp hmem with rfl | hmem
    · exact hstep
    · exact UInt64.le_trans ((List.pairwise_cons.mp ih).1 earlier hmem) hstep

/-- What was accepted at a height. -/
theorem accepted {chain : List Header} (h : Validated pow anchor genesis nowMs chain) :
    ∀ {later earlier : List Header} {header : Header}, chain = later ++ header :: earlier →
      earlier ≠ [] → ∃ parent clockMs, clockMs ≤ nowMs ∧ earlier.head? = some parent ∧
        ValidHeader pow (anchor.context earlier.length parent clockMs) header := by
  induction h with
  | genesis =>
    intro later earlier header hsplit hne
    -- the header on top was validated on the rest; one further down, in the chain it stood on
    cases later with
    | nil => exact absurd (List.cons.inj hsplit).2.symm hne
    | cons first later => exact absurd (List.cons.inj hsplit).2.symm (by simp)
  | @extend header parent rest clockMs _ hclock hok ih =>
    intro later earlier header' hsplit hne
    cases later with
    | nil =>
      obtain ⟨rfl, rfl⟩ := List.cons.inj hsplit
      exact ⟨parent, clockMs, hclock, rfl, (validateHeader_ok_iff _ _ _).mp hok⟩
    | cons first later => exact ih (List.cons.inj hsplit).2 hne

/-- What is known of a block of a chain, after those of `earlier`. -/
structure BlockAt (pow : PowHash) (anchor : Anchor) (nowMs : UInt64) (header : Header)
    (earlier : List Header) : Prop where
  wellFormed : header.WellFormed
  /-- It is not further in the future than the latest clock allowed. -/
  in_time : header.timestampMs ≤ saturatingAdd64 nowMs maxFutureDriftMs
  /-- No time but that of the header itself enters into its difficulty. -/
  bits : Asert.expectedBits (anchor.at earlier.length) header.timestampMs = some header.bits
  target : CompactTarget.toTarget header.bits
    = .ok (Asert.targetAt (anchor.at earlier.length) header.timestampMs)
  solves : (pow.hashHeader header).val ≤ Asert.targetAt (anchor.at earlier.length) header.timestampMs
  in_limits : 1 ≤ Asert.targetAt (anchor.at earlier.length) header.timestampMs ∧
    Asert.targetAt (anchor.at earlier.length) header.timestampMs ≤ anchor.asert.powLimit
  /-- The target is not below that of the time of any block before it. -/
  not_harder : ∀ below ∈ earlier, Asert.targetAt (anchor.at earlier.length) below.timestampMs
    ≤ Asert.targetAt (anchor.at earlier.length) header.timestampMs
  /-- Nor is it above that of the latest time a clock could let pass. -/
  not_easier : Asert.targetAt (anchor.at earlier.length) header.timestampMs
    ≤ Asert.targetAt (anchor.at earlier.length) (saturatingAdd64 nowMs maxFutureDriftMs)

theorem saturatingAdd64_mono {a b c : UInt64} (h : a ≤ b) :
    saturatingAdd64 a c ≤ saturatingAdd64 b c := by
  have hle := UInt64.le_iff_toNat_le.mp h
  rw [UInt64.le_iff_toNat_le, toNat_saturatingAdd64, toNat_saturatingAdd64]
  omega

/-- **Every block of a chain has met the target of its own height and time**, which is neither
harder than at its ancestors' times nor easier than two minutes after the clock. -/
theorem blockAt {chain later earlier : List Header} {header : Header}
    (hsane : Asert.Sane anchor.asert anchor.target) (hlen : chain.length < 2 ^ 64)
    (h : Validated pow anchor genesis nowMs chain) (hsplit : chain = later ++ header :: earlier)
    (hne : earlier ≠ []) : BlockAt pow anchor nowMs header earlier := by
  obtain ⟨parent, clockMs, hclock, hparent, haccepted⟩ := h.accepted hsplit hne
  have hheight : 1 ≤ (anchor.at earlier.length).height.toNat := by
    have hpos := List.length_pos_iff.mpr hne
    have hbound : earlier.length < 2 ^ 64 := by
      refine lt_of_le_of_lt ?_ hlen
      rw [hsplit, List.length_append, List.length_cons]
      omega
    show 1 ≤ (UInt64.ofNat earlier.length).toNat
    rw [UInt64.toNat_ofNat_of_lt' hbound]
    exact hpos
  have hactx : Asert.Sane (anchor.at earlier.length).asert (anchor.at earlier.length).anchorTarget :=
    hsane
  obtain ⟨htarget, hsolves⟩ := haccepted.target_eq hsane hheight
  -- its own clock had not run past the latest one
  have hintime : header.timestampMs ≤ saturatingAdd64 nowMs maxFutureDriftMs :=
    UInt64.le_trans haccepted.not_future (saturatingAdd64_mono hclock)
  refine ⟨haccepted.wellFormed, hintime, haccepted.bits, htarget, hsolves,
    hactx.targetAt_bounds _, ?_, hactx.targetAt_mono hintime⟩
  intro below hmem
  refine hactx.targetAt_mono ?_
  have hordered := h.timestamps
  rw [hsplit] at hordered
  exact (List.pairwise_cons.mp (List.pairwise_append.mp hordered).2.1).1 below hmem

/-- Two chains of one network, whatever they are made of, demand the same of blocks at one height
that claim one time. -/
theorem bits_eq {genesis' : Header} {nowMs' : UInt64} {chain chain' later later' earlier
    earlier' : List Header} {header header' : Header}
    (h : Validated pow anchor genesis nowMs chain) (hsplit : chain = later ++ header :: earlier)
    (hne : earlier ≠ []) (h' : Validated pow anchor genesis' nowMs' chain')
    (hsplit' : chain' = later' ++ header' :: earlier')
    (hheight : earlier.length = earlier'.length)
    (htime : header.timestampMs = header'.timestampMs) : header.bits = header'.bits := by
  have hne' : earlier' ≠ [] := by
    rw [← List.length_pos_iff, ← hheight]
    exact List.length_pos_iff.mpr hne
  obtain ⟨_, _, _, _, haccepted⟩ := h.accepted hsplit hne
  obtain ⟨_, _, _, _, haccepted'⟩ := h'.accepted hsplit' hne'
  refine Option.some.inj ?_
  -- the bits expected depend on anchor, height and time alone
  calc some header.bits
      = Asert.expectedBits (anchor.at earlier.length) header.timestampMs := haccepted.bits.symm
    _ = Asert.expectedBits (anchor.at earlier'.length) header'.timestampMs := by rw [hheight, htime]
    _ = some header'.bits := haccepted'.bits

end Validated

/-- **The difficulty of a validated chain.** Timestamps ascend, each block above genesis is in time
and has met the target of its height and time, and this depends on nothing else, so that what one chain
demands at a height and a time is what every other demands. -/
theorem validated_difficulty (pow : PowHash) (anchor : Anchor) (genesis : Header) (nowMs : UInt64)
    (hsane : Asert.Sane anchor.asert anchor.target) (chain : List Header)
    (hlen : chain.length < 2 ^ 64) (h : Validated pow anchor genesis nowMs chain) :
    (chain.Pairwise fun later earlier => earlier.timestampMs ≤ later.timestampMs) ∧
    ∀ later header earlier, chain = later ++ header :: earlier → earlier ≠ [] →
      Validated.BlockAt pow anchor nowMs header earlier ∧
      ∀ genesis' nowMs' chain' later' header' earlier',
        Validated pow anchor genesis' nowMs' chain' → chain' = later' ++ header' :: earlier' →
        earlier.length = earlier'.length → header.timestampMs = header'.timestampMs →
        header.bits = header'.bits := by
  refine ⟨h.timestamps, fun later header earlier hsplit hne => ⟨h.blockAt hsane hlen hsplit hne, ?_⟩⟩
  intro genesis' nowMs' chain' later' header' earlier' h' hsplit' hheight htime
  exact h.bits_eq hsplit hne h' hsplit' hheight htime

/-! ### A network with an easy target -/

namespace Sample

/-- Every header solves any target. -/
def easyPow : PowHash := ⟨fun _ => 0⟩

/-- Blocks a second apart, a half-life of two hours, and an anchor on schedule. -/
def timedAnchor : Anchor := ⟨⟨1, 7200, 2 ^ 248⟩, 2 ^ 200, 1700000000000⟩

theorem timedAnchor_sane : Asert.Sane timedAnchor.asert timedAnchor.target :=
  ⟨by decide, by decide +kernel, by decide +kernel, by decide +kernel, by decide, by decide⟩

/-- A header over one parent. -/
def timedHeader (parent : BlockHash) (timestampMs : UInt64) (bits : UInt32) : Header where
  version := 1
  parents := [parent]
  timestampMs := timestampMs
  bits := bits
  nonce := 0
  miner := 0
  txsRoot := 0
  deferredHeight := 0
  deferredStateRoot := 0
  deferredReceiptsRoot := 0
  deferredGasUsed := 0

/-- Where the anchor stands. -/
def timedGenesis : Header := timedHeader 0 1700000000000 0x1a010000

/-- A block on schedule, and a half-life behind schedule the next one. -/
def timedFirst : Header := timedHeader 1 1700000001000 0x1a010000

def timedSecond : Header := timedHeader 2 1700007202000 0x1a020000

/-- Another chain, whose first block is late as well. -/
def lateFirst : Header := timedHeader 4 1700007201000 0x1a020000

def lateSecond : Header := timedHeader 5 1700007202000 0x1a020000

theorem validated_timed :
    Validated easyPow timedAnchor timedGenesis 1700007202000 [timedSecond, timedFirst, timedGenesis] :=
  @Validated.extend _ _ _ _ _ _ [timedGenesis] 1700007202000
    (@Validated.extend _ _ _ _ _ _ [] 1700000001000 .genesis (by decide) (by decide +kernel))
    (by decide) (by decide +kernel)

theorem validated_late : Validated easyPow timedAnchor (timedHeader 3 0 0) 1700009000000
    [lateSecond, lateFirst, timedHeader 3 0 0] :=
  @Validated.extend _ _ _ _ _ _ [timedHeader 3 0 0] 1700007202000
    (@Validated.extend _ _ _ _ _ _ [] 1700007201000 .genesis (by decide) (by decide +kernel))
    (by decide) (by decide +kernel)

end Sample

open Sample in
/-- A chain whose second block is easier than its first, since it is behind schedule, and another
one that asks for the same bits at its height and time. -/
theorem validated_difficulty_behind :
    ([timedSecond, timedFirst, timedGenesis].Pairwise fun later earlier =>
      earlier.timestampMs ≤ later.timestampMs) ∧
    Validated.BlockAt easyPow timedAnchor 1700007202000 timedFirst [timedGenesis] ∧
    Validated.BlockAt easyPow timedAnchor 1700007202000 timedSecond [timedFirst, timedGenesis] ∧
    timedSecond.bits = lateSecond.bits ∧
    CompactTarget.toTarget timedFirst.bits = .ok (2 ^ 200) ∧
    CompactTarget.toTarget timedSecond.bits = .ok (2 ^ 201) := by
  obtain ⟨hordered, hblocks⟩ := validated_difficulty easyPow timedAnchor timedGenesis 1700007202000
    timedAnchor_sane _ (by decide) validated_timed
  obtain ⟨hsecond, hsame⟩ := hblocks [] timedSecond _ rfl (List.cons_ne_nil _ _)
  refine ⟨hordered, ?_, hsecond, ?_, by decide +kernel, by decide +kernel⟩
  · exact (hblocks [timedSecond] timedFirst _ rfl (List.cons_ne_nil _ _)).1
  · exact hsame _ _ _ [] lateSecond _ validated_late rfl rfl rfl

end Chainname
