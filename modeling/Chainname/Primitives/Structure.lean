import Mathlib.Data.List.Sort
import Mathlib.Data.Finset.Dedup
import Chainname.Primitives.Work

/-!
# Structural validation of headers

What can be checked of a header alone: its version, that it names parents, and that these are
strictly ascending, so that none is named twice.
-/

namespace Chainname

/-- Current header version. -/
def headerVersion : UInt16 := 1

/-- Reasons a header is structurally invalid. -/
inductive HeaderError where
  | unknownVersion (version : UInt16)
  | noParents
  | parentsNotStrictlyAscending
  deriving DecidableEq

/-- The text of a structural error. -/
def HeaderError.text : HeaderError → String
  | .unknownVersion version => "unknown header version " ++ toString version.toNat
  | .noParents => "header has no parents"
  | .parentsNotStrictlyAscending => "parents must be strictly ascending with no duplicates"

/-- Each parent is below the next one. -/
def strictlyAscending : List BlockHash → Bool
  | first :: second :: rest => first < second && strictlyAscending (second :: rest)
  | _ => true

/-- Structural validation that needs no DAG context and no state. -/
def Header.validateStructure (header : Header) : Except HeaderError Unit :=
  if header.version ≠ headerVersion then .error (.unknownVersion header.version)
  else if header.parents = [] then .error .noParents
  else if strictlyAscending header.parents then .ok ()
  else .error .parentsNotStrictlyAscending

theorem strictlyAscending_iff (hashes : List BlockHash) :
    strictlyAscending hashes = true ↔ hashes.Pairwise (· < ·) := by
  rw [← List.isChain_iff_pairwise]
  induction hashes using strictlyAscending.induct with
  | case1 first second rest ih =>
    rw [strictlyAscending, Bool.and_eq_true, decide_eq_true_eq, ih, List.isChain_cons_cons]
  | case2 hashes hshort =>
    refine iff_of_true (by rw [strictlyAscending]; exact hshort) ?_
    match hashes, hshort with
    | [], _ => exact List.IsChain.nil
    | [hash], _ => exact List.IsChain.singleton hash
    | first :: second :: rest, hshort => exact absurd rfl (hshort first second rest)

/-- What a structurally valid header is. -/
structure Header.WellFormed (header : Header) : Prop where
  version : header.version = headerVersion
  parents_ne_nil : header.parents ≠ []
  ascending : header.parents.Pairwise (· < ·)

theorem Header.validateStructure_ok_iff (header : Header) :
    header.validateStructure = .ok () ↔ header.WellFormed := by
  unfold Header.validateStructure
  constructor
  · intro h
    -- the three checks in the source's order
    split at h
    · cases h
    · next hversion =>
      split at h
      · cases h
      · next hparents =>
        split at h
        · next hascending =>
          exact ⟨not_not.mp hversion, hparents, (strictlyAscending_iff _).mp hascending⟩
        · cases h
  · rintro ⟨hversion, hparents, hascending⟩
    rw [if_neg (not_not.mpr hversion), if_neg hparents,
      if_pos ((strictlyAscending_iff _).mpr hascending)]

/-- A search that changes the nonce leaves the structure as it is. -/
theorem Header.WellFormed.withNonce {header : Header} (h : header.WellFormed) (nonce : UInt64) :
    ({ header with nonce := nonce } : Header).WellFormed :=
  ⟨h.version, h.parents_ne_nil, h.ascending⟩

end Chainname
