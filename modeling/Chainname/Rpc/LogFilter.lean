import Chainname.Rpc.Logs

/-!
# What a log filter asks for

A filter asks for the logs of the executed blocks within its bounds, of the addresses it names,
with topics that satisfy the constraint of every position (`requestedLogs`). `getLogs` cuts both
bounds at the tip before it compares them, takes addresses of which none can be read for none at
all, and a topic that cannot be read for no constraint.

Such a filter asks for nothing, and may be answered with logs all the same. `get_logs_exact_iff`
finds no other way for an answer to be wrong.
-/

namespace Chainname

open Json (Value)

section Constraints

variable [EthPrimitives]

/-- The entries of an address constraint: the elements of a list, or one value. -/
def addressEntries : Option Value → List Value
  | none | some .null => []
  | some (.array many) => many
  | some one => [one]

/-- The address is among those named, if any entry is given. -/
def AddressWanted (constraint : Option Value) (address : Address) : Prop :=
  addressEntries constraint ≠ [] →
    ∃ entry ∈ addressEntries constraint, asAddress entry = some address

/-- The constraints of the positions. -/
def topicPositions : Option Value → List Value
  | some (.array positions) => positions
  | _ => []

/-- The entries of the constraint of a position, which is none where it is null. -/
def topicEntries : Value → Option (List Value)
  | .null => none
  | .array many => some many
  | one => some [one]

/-- There is a topic, and it is among those named, if there is a constraint. -/
def TopicAllowed (position : Value) (topic : Option B256) : Prop :=
  ∀ entries ∈ topicEntries position, topic ≠ none ∧ ∃ entry ∈ entries, asB256 entry = topic

/-- The topics satisfy the constraint of every position. -/
def TopicsWanted (constraint : Option Value) (topics : List B256) : Prop :=
  ∀ position ∈ (topicPositions constraint).zipIdx,
    TopicAllowed position.1 topics[position.2]?

instance decidableAddressWanted (constraint : Option Value) (address : Address) :
    Decidable (AddressWanted constraint address) := inferInstanceAs (Decidable (_ → _))

instance decidableTopicAllowed (position : Value) (topic : Option B256) :
    Decidable (TopicAllowed position topic) :=
  inferInstanceAs (Decidable (∀ entries ∈ topicEntries position, _))

instance decidableTopicsWanted (constraint : Option Value) (topics : List B256) :
    Decidable (TopicsWanted constraint topics) :=
  inferInstanceAs (Decidable (∀ position ∈ (topicPositions constraint).zipIdx, _))

variable {constraint : Option Value}

/-- Some entry of the address constraint can be read, if it has any. -/
def ReadableAddress (constraint : Option Value) : Prop :=
  addressEntries constraint ≠ [] → ∃ entry ∈ addressEntries constraint, (asAddress entry).isSome

/-- The constraint of a position can be read: there is none, or a list, or a topic. -/
def ReadableTopic : Value → Prop
  | .null | .array _ => True
  | one => (asB256 one).isSome

/-- The addresses that are read are those of the entries. -/
theorem parseAddresses_eq (constraint : Option Value) :
    parseAddresses constraint = (addressEntries constraint).filterMap asAddress := by
  cases constraint with
  | none => rfl
  | some value =>
    cases value with
    -- any other shape of value is no constraint
    | null | bool | number | array | object => rfl
    | string one =>
      have htext : asAddress (.string one) = EthPrimitives.parseAddress one := rfl
      show (EthPrimitives.parseAddress one).toList = [Value.string one].filterMap asAddress
      rw [List.filterMap_cons, htext]
      cases EthPrimitives.parseAddress one with
      | none => rfl
      | some address => rfl

theorem mem_parseAddresses {address : Address} :
    address ∈ parseAddresses constraint ↔
      ∃ entry ∈ addressEntries constraint, asAddress entry = some address := by
  rw [parseAddresses_eq, List.mem_filterMap]

/-- Where some entry can be read, the test is the constraint. -/
theorem passes_iff_addressWanted (h : ReadableAddress constraint) (address : Address) :
    ((parseAddresses constraint).isEmpty || (parseAddresses constraint).contains address) = true ↔
      AddressWanted constraint address := by
  rw [Bool.or_eq_true, List.isEmpty_iff, List.contains_iff_mem, mem_parseAddresses]
  unfold AddressWanted
  refine ⟨?_, fun hwanted => ?_⟩
  · rintro (hnil | hmem) hne
    · -- an entry that can be read is an address to pass
      obtain ⟨entry, hentry, hsome⟩ := h hne
      obtain ⟨a, ha⟩ := Option.isSome_iff_exists.mp hsome
      have hin : a ∈ parseAddresses constraint := mem_parseAddresses.mpr ⟨entry, hentry, ha⟩
      rw [hnil] at hin
      exact absurd hin List.not_mem_nil
    · exact hmem
  · by_cases hnil : addressEntries constraint = []
    · -- without entries nothing is read, and every address passes
      left
      rw [parseAddresses_eq, hnil]
      rfl
    · exact Or.inr (hwanted hnil)

/-- Where no entry can be read, no address is wanted. -/
theorem not_addressWanted (h : ¬ ReadableAddress constraint) (address : Address) :
    ¬ AddressWanted constraint address := by
  intro hwanted
  refine h fun hne => ?_
  obtain ⟨entry, hentry, ha⟩ := hwanted hne
  exact ⟨entry, hentry, by rw [ha]; rfl⟩

/-! ### Topics -/

/-- The test of one position. -/
def topicPasses (allowed : Option (List B256)) (topic : Option B256) : Bool :=
  match allowed with
  | none => true
  | some allowed =>
    match topic with
    | none => false
    | some topic => allowed.contains topic

omit [EthPrimitives] in
theorem topicsMatch_iff {wanted : List (Option (List B256))} {topics : List B256} :
    topicsMatch wanted topics = true ↔
      ∀ entry ∈ wanted.zipIdx, topicPasses entry.1 topics[entry.2]? = true :=
  List.all_eq_true

/-- Where the constraint can be read, the topics that are read are those of the entries. -/
theorem parseTopic_eq {position : Value} (h : ReadableTopic position) :
    parseTopic position = (topicEntries position).map (List.filterMap asB256) := by
  cases position with
  | null | array => rfl
  -- a shape that could not be read is excluded by the hypothesis
  | bool | number | object => exact absurd h Bool.false_ne_true
  | string one =>
    have htext : asB256 (.string one) = EthPrimitives.parseB256 one := rfl
    change (asB256 (.string one)).isSome = true at h
    show (EthPrimitives.parseB256 one).map _ = some ([Value.string one].filterMap asB256)
    rw [List.filterMap_cons, htext]
    rw [htext] at h
    obtain ⟨topic, htopic⟩ := Option.isSome_iff_exists.mp h
    rw [htopic]
    rfl

/-- Where the constraint can be read, the test is the constraint. -/
theorem topicPasses_iff {position : Value} (h : ReadableTopic position) (topic : Option B256) :
    topicPasses (parseTopic position) topic = true ↔ TopicAllowed position topic := by
  rw [parseTopic_eq h]
  unfold TopicAllowed
  cases topicEntries position with
  | none => exact iff_of_true rfl fun entries hentries => absurd hentries (by simp)
  | some entries =>
    -- a log without a topic at this position passes only if nothing is asked of it
    cases topic with
    | none =>
      refine iff_of_false Bool.false_ne_true fun hallowed => ?_
      exact (hallowed entries rfl).1 rfl
    | some t =>
      show (entries.filterMap asB256).contains t = true ↔ _
      rw [List.contains_iff_mem, List.mem_filterMap]
      refine ⟨?_, fun hallowed => (hallowed entries rfl).2⟩
      rintro hentry _ ⟨⟩
      exact ⟨Option.some_ne_none t, hentry⟩

/-- Where the constraint cannot be read, no topic is allowed. -/
theorem not_topicAllowed {position : Value} (h : ¬ ReadableTopic position) (topic : Option B256) :
    ¬ TopicAllowed position topic := by
  -- such a constraint names one topic, which is none at all
  have hone : topicEntries position = some [position] ∧ asB256 position = none := by
    cases position with
    | null | array => exact absurd trivial h
    | bool | number | object => exact ⟨rfl, rfl⟩
    | string one => exact ⟨rfl, Option.not_isSome_iff_eq_none.mp h⟩
  intro hallowed
  obtain ⟨hne, entry, hmem, he⟩ := hallowed [position] hone.1
  rw [List.mem_singleton.mp hmem, hone.2] at he
  exact hne he.symm

theorem parseTopics_eq (constraint : Option Value) :
    parseTopics constraint = (topicPositions constraint).map parseTopic := by
  cases constraint with
  | none => rfl
  | some value =>
    cases value with
    | null | bool | number | string | array | object => rfl

/-- Where all constraints can be read, the test is that of all positions. -/
theorem topicsMatch_parseTopics_iff
    (h : ∀ position ∈ topicPositions constraint, ReadableTopic position) (topics : List B256) :
    topicsMatch (parseTopics constraint) topics = true ↔ TopicsWanted constraint topics := by
  rw [topicsMatch_iff, parseTopics_eq, List.zipIdx_map, List.forall_mem_map]
  refine forall₂_congr fun position hposition => ?_
  exact topicPasses_iff (h position.1 (List.fst_mem_of_mem_zipIdx hposition)) _

/-- Where some constraint cannot be read, no topics are wanted. -/
theorem not_topicsWanted (h : ¬ ∀ position ∈ topicPositions constraint, ReadableTopic position)
    (topics : List B256) : ¬ TopicsWanted constraint topics := by
  intro hwanted
  refine h fun position hposition => ?_
  obtain ⟨place, hplace⟩ := List.mem_iff_getElem?.mp hposition
  have hallowed := hwanted (position, place) (List.mem_zipIdx_iff_getElem?.mpr hplace)
  by_contra hno
  exact not_topicAllowed hno _ hallowed

end Constraints

namespace EthApiImpl

section Requested

variable [EthPrimitives]

/-- The log satisfies the address constraint and the topics constraint of the filter. -/
def Wanted (filter : Value) (log : Log) : Prop :=
  AddressWanted (filter.get "address") log.address ∧ TopicsWanted (filter.get "topics") log.topics

instance decidableWanted (filter : Value) (log : Log) : Decidable (Wanted filter log) :=
  inferInstanceAs (Decidable (_ ∧ _))

/-- The logs that a filter asks for, in chain order: those wanted, of the executed blocks within
the bounds. -/
def requestedLogs (api : EthApiImpl) (filter : Value) (lo hi : ℕ) : List LogView :=
  let heights := (List.range (api.backend.executor.height + 1)).filter fun h => lo ≤ h ∧ h ≤ hi
  (heights.flatMap api.blockLogs).filter fun view => Wanted filter view.log

/-- A filter that is accepted returns exactly the logs it asks for. -/
def LogsExact (api : EthApiImpl) (filter : Value) : Prop :=
  ∀ lo hi logs, api.resolveHeight (filter.get "fromBlock") = .ok lo →
    api.resolveHeight (filter.get "toBlock") = .ok hi → api.getLogs filter = .ok logs →
    logs = api.requestedLogs filter lo hi

/-- The filter begins no later than the tip, and its constraints can be read. -/
structure WellAsked (api : EthApiImpl) (filter : Value) (lo : ℕ) : Prop where
  started : lo ≤ api.backend.executor.height
  address : ReadableAddress (filter.get "address")
  topics : ∀ position ∈ topicPositions (filter.get "topics"), ReadableTopic position

/-- No log of the blocks within the cut bounds passes the tests. -/
def Quiet (api : EthApiImpl) (filter : Value) (lo hi : ℕ) : Prop :=
  ∀ height, min lo api.backend.executor.height ≤ height →
    height ≤ min hi api.backend.executor.height → ∀ outcome,
    api.backend.executor.results.lookup height = some outcome → ∀ receipt ∈ outcome.receipts,
      ∀ log ∈ receipt.logs, passes filter log = false

variable {api : EthApiImpl} {filter : Value} {lo hi : ℕ}

omit [EthPrimitives] in
/-- The heights of a chain within bounds. -/
theorem filter_range (n lo hi : ℕ) :
    ((List.range n).filter fun h => lo ≤ h ∧ h ≤ hi) = List.range' lo (min n (hi + 1) - lo) := by
  induction n with
  | zero => rw [Nat.zero_min, Nat.zero_sub]; rfl
  | succ n ih =>
    rw [List.range_succ, List.filter_append, ih]
    by_cases hin : lo ≤ n ∧ n ≤ hi
    · have hlen : min (n + 1) (hi + 1) - lo = min n (hi + 1) - lo + 1 := by omega
      have hlast : lo + 1 * (min n (hi + 1) - lo) = n := by omega
      rw [List.filter_cons_of_pos (by simpa using hin), hlen, List.range'_concat, hlast]
      rfl
    · have hlen : min (n + 1) (hi + 1) - lo = min n (hi + 1) - lo := by omega
      rw [List.filter_cons_of_neg (by simpa using hin), hlen, List.filter_nil, List.append_nil]

theorem WellAsked.passes_iff (h : api.WellAsked filter lo) (log : Log) :
    passes filter log = true ↔ Wanted filter log := by
  unfold passes logMatches Wanted
  rw [Bool.and_eq_true, passes_iff_addressWanted h.address, topicsMatch_parseTopics_iff h.topics]

/-- **A filter that is well asked** is answered with what it asks for. -/
theorem WellAsked.getLogs (h : api.WellAsked filter lo) (hacc : api.Accepts filter lo hi) :
    api.getLogs filter = .ok (api.requestedLogs filter lo hi) := by
  rw [getLogs_of_accepts hacc]
  unfold requestedLogs scanned
  -- a lower bound up to the tip is not cut, so the heights are those asked for
  have hlo := h.started
  have hlen : min (api.backend.executor.height + 1) (hi + 1) - lo
      = min hi api.backend.executor.height + 1 - lo := by omega
  dsimp only
  rw [filter_range, hlen, Nat.min_eq_left hlo]
  refine congrArg Except.ok (List.filter_congr fun view _ => ?_)
  rw [Bool.eq_iff_iff, h.passes_iff, decide_eq_true_iff]

/-- Any other asks for nothing. -/
theorem requestedLogs_eq_nil (h : ¬ api.WellAsked filter lo) :
    api.requestedLogs filter lo hi = [] := by
  unfold requestedLogs
  rw [List.filter_eq_nil_iff]
  intro view hview
  rw [decide_eq_true_iff]
  rintro ⟨haddress, htopics⟩
  obtain ⟨height, hheight, -⟩ := List.mem_flatMap.mp hview
  -- a log that is asked for shows that the filter begins in time and can be read
  obtain ⟨hrange, hbounds⟩ := List.mem_filter.mp hheight
  have hlt := List.mem_range.mp hrange
  have hlo := (of_decide_eq_true hbounds).1
  refine h ⟨by omega, ?_, ?_⟩
  · by_contra hno
    exact not_addressWanted hno _ haddress
  · by_contra hno
    exact not_topicsWanted hno _ htopics

/-- Nothing is returned where the scanned blocks are quiet, and only there. -/
theorem filter_scanned_eq_nil :
    (((api.scanned lo hi).flatMap api.blockLogs).filter fun view => passes filter view.log) = [] ↔
      api.Quiet filter lo hi := by
  rw [List.filter_eq_nil_iff]
  -- one way: a log in the range would be among those scanned
  refine ⟨fun h height hlo hhi outcome hout receipt hreceipt log hlog => ?_, fun h view hview => ?_⟩
  · have hheight : height ∈ api.scanned lo hi := mem_scanned.mpr ⟨hlo, hhi⟩
    have hmem : log ∈ (outcomeLogs outcome height).map LogView.log := by
      rw [map_log_outcomeLogs]
      exact List.mem_flatMap.mpr ⟨receipt, hreceipt, hlog⟩
    obtain ⟨view, hview, rfl⟩ := List.mem_map.mp hmem
    refine Bool.eq_false_of_not_eq_true (h view (List.mem_flatMap.mpr ⟨height, hheight, ?_⟩))
    unfold blockLogs
    rw [hout]
    exact hview
  · -- other way: what is scanned lies in the range
    obtain ⟨height, hheight, hview⟩ := List.mem_flatMap.mp hview
    unfold blockLogs at hview
    cases hout : api.backend.executor.results.lookup height with
    | none =>
      rw [hout] at hview
      exact absurd hview List.not_mem_nil
    | some outcome =>
      rw [hout] at hview
      have hlog := List.mem_map_of_mem (f := LogView.log) hview
      rw [Option.elim_some, map_log_outcomeLogs] at hlog
      obtain ⟨receipt, hreceipt, hlog⟩ := List.mem_flatMap.mp hlog
      obtain ⟨hlo, hhi⟩ := mem_scanned.mp hheight
      exact ne_true_of_eq_false (h height hlo hhi outcome hout receipt hreceipt _ hlog)

/-- **Every accepted filter returns exactly the logs it asks for** if and only if it is well asked
or no log of the scanned blocks passes its tests. -/
theorem get_logs_exact_iff (api : EthApiImpl) (filter : Value) :
    api.LogsExact filter ↔
      ∀ lo hi, api.Accepts filter lo hi → api.WellAsked filter lo ∨ api.Quiet filter lo hi := by
  refine ⟨fun h lo hi hacc => ?_, fun h lo hi logs hlo hhi hlogs => ?_⟩
  · by_cases hwell : api.WellAsked filter lo
    · exact Or.inl hwell
    · -- nothing is asked for, so nothing may be found
      have hnil := h lo hi _ hacc.lower hacc.upper (getLogs_of_accepts hacc)
      rw [requestedLogs_eq_nil hwell] at hnil
      exact Or.inr (filter_scanned_eq_nil.mp hnil)
  · -- the bounds the call accepts are those it was asked for
    obtain ⟨lo', hi', hacc⟩ := accepts_of_getLogs hlogs
    obtain rfl : lo' = lo := Except.ok.inj (hacc.lower.symm.trans hlo)
    obtain rfl : hi' = hi := Except.ok.inj (hacc.upper.symm.trans hhi)
    by_cases hwell : api.WellAsked filter lo'
    · exact Except.ok.inj (hlogs.symm.trans (hwell.getLogs hacc))
    · have hquiet := (h lo' hi' hacc).resolve_left hwell
      rw [requestedLogs_eq_nil hwell, ← filter_scanned_eq_nil.mpr hquiet]
      exact Except.ok.inj (hlogs.symm.trans (getLogs_of_accepts hacc))

end Requested

open Events in
/-- A caller that asks for what comes after the tip is given the logs of the tip again. -/
theorem logs_of_tip_repeated : ¬ node.LogsExact (.object [("fromBlock", .number (.posInt 2))]) := by
  intro h
  have hheight : node.backend.executor.height = 1 := by decide +kernel
  have hupper : node.resolveHeight none = .ok 1 := congrArg Except.ok hheight
  have hacc : node.Accepts (.object [("fromBlock", .number (.posInt 2))]) 2 1 :=
    ⟨rfl, hupper, by rw [hheight]; decide, by rw [hheight]; decide⟩
  have hlogs := h 2 1 _ rfl hupper (getLogs_of_accepts hacc)
  revert hlogs
  decide +kernel

end EthApiImpl

end Chainname
