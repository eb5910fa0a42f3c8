import Chainname.Library.Runs
import Chainname.Net.Effects

/-!
# The handshake

A peer that has not completed the handshake has no say: its messages are answered with our
opening message and change nothing. It should be ready only after it has sent our protocol
version and our genesis since it connected (`Greeted`).

Two messages make a peer ready, a fitting `Version` and a `Verack`, and the second is not
checked against the first. `handshake_safe_iff` is the account: the handshake is safe
throughout a run exactly when no `Verack` comes from a connected peer that is not ready.
-/

namespace Chainname

open DagSync

/-- The peer announces our protocol version and our genesis. -/
def Greets (genesis : BlockHash) (peer : PeerId) (call : SyncCall) : Prop :=
  ∃ tips now, call = .message peer (.version protocolVersion genesis tips) now

/-- Since its latest `on_connect` the peer has announced our version and our genesis. -/
def Greeted (genesis : BlockHash) (calls : List SyncCall) (peer : PeerId) : Prop :=
  ∃ before greeting after, calls = before ++ greeting :: after ∧
    Greets genesis peer greeting ∧ SyncCall.connect peer ∉ after

section Greeted

variable {genesis : BlockHash} {peer : PeerId}

/-- What the last call does to a greeting. -/
theorem greeted_concat (calls : List SyncCall) (call : SyncCall) :
    Greeted genesis (calls ++ [call]) peer ↔
      Greets genesis peer call ∨ call ≠ .connect peer ∧ Greeted genesis calls peer := by
  refine ⟨?_, ?_⟩
  · rintro ⟨before, greeting, after, he, hgreets, hafter⟩
    -- the greeting is the last call, or it lies before it
    obtain rfl | ⟨rest, last, rfl⟩ := after.eq_nil_or_concat
    · obtain ⟨-, rfl⟩ := List.append_inj' he rfl |>.imp id List.singleton_inj.mp
      exact Or.inl hgreets
    · rw [List.concat_eq_append, ← List.cons_append, ← List.append_assoc] at he
      obtain ⟨rfl, rfl⟩ := List.append_inj' he rfl |>.imp id List.singleton_inj.mp
      rw [List.concat_eq_append, List.mem_append, not_or, List.mem_singleton] at hafter
      exact Or.inr ⟨fun heq => hafter.2 heq.symm, before, greeting, rest, rfl, hgreets, hafter.1⟩
  · rintro (hgreets | ⟨hne, before, greeting, after, rfl, hgreets, hafter⟩)
    · exact ⟨calls, call, [], rfl, hgreets, List.not_mem_nil⟩
    · refine ⟨before, greeting, after ++ [call], by simp, hgreets, ?_⟩
      rw [List.mem_append, List.mem_singleton, not_or]
      exact ⟨hafter, fun heq => hne heq.symm⟩

end Greeted

namespace DagSync

/-! ### What a call does to a peer's readiness -/

/-- The messages that complete a handshake. -/
def Completes (S : DagSync) (peer : PeerId) (call : SyncCall) : Prop :=
  peer ∈ S.peers ∧
    (Greets S.config.genesis peer call ∨ ∃ now, call = .message peer .verack now)

/-- A connection starts afresh or ends. -/
def Restarts (peer : PeerId) (call : SyncCall) : Prop :=
  call = .connect peer ∨ call = .disconnect peer

section Ready

variable {S : DagSync}

/-- Making the handshake of one peer complete. -/
theorem isReady_modifyPeer_ready {peer q : PeerId} {f : PeerState → PeerState}
    (hf : ∀ state, (f state).handshake = .ready) :
    (S.modifyPeer peer f).isReady q = true ↔ q = peer ∧ peer ∈ S.peers ∨ S.isReady q = true := by
  unfold isReady
  rw [lookup_modifyPeer, ← Finmap.lookup_isSome]
  have hready : ∀ state, (f state).isReady = true := fun state => by
    simp [PeerState.isReady, hf state]
  by_cases hq : q = peer
  · rw [if_pos hq, hq]
    -- an entry that was not there is not made
    cases S.peers.lookup peer with
    | none => simp
    | some state => simp [hready state]
  · rw [if_neg hq]
    simp [hq]

theorem isReady_onVersion {peer q : PeerId} {version : UInt32} {genesis : BlockHash}
    {tips : List BlockHash} {now : ℕ} :
    (S.onVersion peer version genesis tips now).1.isReady q = true ↔
      (q = peer ∧ peer ∈ S.peers ∧ version = protocolVersion ∧ genesis = S.config.genesis) ∨
        S.isReady q = true := by
  unfold onVersion
  -- the guards of the source: version, genesis, then the entry of the peer
  split
  · next hversion => simp [(sameHandshakes_penalise peer _ _).isReady q, hversion]
  · next hversion =>
    split
    · next hgenesis => simp [(sameHandshakes_penalise peer _ _).isReady q, hgenesis]
    · next hgenesis =>
      split
      · next hpeer => simp [hpeer]
      · next hpeer =>
        -- the peer is marked ready before it is asked for the tips it does not know
        dsimp only
        unfold requestUnknown
        rw [(SameHandshakes.of_eq (peers_requestFrom _ _ _)).isReady q,
          isReady_modifyPeer_ready fun state => PeerState.steady_handshake.foldl_noteKnown tips _]
        simp [not_not.mp hversion, not_not.mp hgenesis]

variable [HeaderHash]

omit [HeaderHash] in
theorem samePeers_onVersion {γ : Type} {view : PeerState → γ} (hview : PeerState.Steady view)
    (hready : ∀ state, view { state with handshake := .ready } = view state) (peer : PeerId)
    (version : UInt32) (genesis : BlockHash) (tips : List BlockHash) (now : ℕ) :
    S.SamePeers view (S.onVersion peer version genesis tips now).1 := by
  unfold onVersion
  split
  · exact samePeers_penalise hview peer _ _
  · split
    · exact samePeers_penalise hview peer _ _
    · split
      · exact SamePeers.refl S
      · refine (samePeers_modifyPeer peer fun state => ?_).trans
          (SamePeers.of_eq (peers_requestFrom _ _ _))
        rw [hview.foldl_noteKnown, hready]

/-- A message keeps what is steady about the peers, but for the handshake. -/
theorem samePeers_onMessage {γ : Type} {view : PeerState → γ} (hview : PeerState.Steady view)
    (peer : PeerId) {message : Message} (now : ℕ) (hready : message.isHandshake = false ∨
      ∀ state, view { state with handshake := .ready } = view state) :
    S.SamePeers view (S.onMessage peer message now).1 := by
  unfold onMessage
  split
  · exact SamePeers.refl S
  · split
    · exact SamePeers.refl S
    · -- only the two messages of the handshake touch what they set
      cases message with
      | version version genesis tips =>
        exact samePeers_onVersion hview (hready.resolve_left nofun) peer version genesis tips now
      | verack => exact samePeers_modifyPeer peer (hready.resolve_left nofun)
      | tips hashes => exact SamePeers.of_eq (peers_requestFrom _ _ _)
      | invBlocks hashes => exact samePeers_onInvBlocks hview peer hashes now
      | getBlocks hashes => exact samePeers_onGetBlocks hview peer hashes
      | blocks blocks => exact samePeers_onBlocks hview peer blocks now
      | ping _ => exact SamePeers.refl S
      | pong _ => exact SamePeers.refl S
      | getTips => exact SamePeers.refl S
      | invTxs _ => exact SamePeers.refl S
      | getTxs _ => exact SamePeers.refl S

/-- The messages that say nothing about the handshake leave it where it is. -/
theorem sameHandshakes_onMessage (peer : PeerId) {message : Message} (now : ℕ)
    (hmessage : message.isHandshake = false) : S.SameHandshakes (S.onMessage peer message now).1 :=
  samePeers_onMessage PeerState.steady_handshake peer now (Or.inl hmessage)

/-- **Who is ready after a call**: whoever completes the handshake by it, and whoever was
ready and neither starts afresh nor leaves. -/
theorem isReady_step (call : SyncCall) (q : PeerId) :
    (S.step call).isReady q = true ↔
      S.Completes q call ∨ S.isReady q = true ∧ ¬ Restarts q call := by
  -- calls that leave the handshakes alone: the right side is then readiness before
  have hsame : ∀ {T : DagSync}, S.SameHandshakes T → ¬ S.Completes q call → ¬ Restarts q call →
      (T.isReady q = true ↔ S.Completes q call ∨ S.isReady q = true ∧ ¬ Restarts q call) := by
    intro T hT hcompletes hrestarts
    rw [hT.isReady q, or_iff_right hcompletes, and_iff_left hrestarts]
  cases call with
  | connect peer =>
    have hlookup : (S.step (.connect peer)).peers.lookup q
        = if q = peer then some (PeerState.new peer) else S.peers.lookup q :=
      Maps.lookup_insert _ _ _ _
    unfold isReady
    rw [hlookup]
    by_cases hq : q = peer
    · simp [hq, Completes, Greets, Restarts, PeerState.isReady, PeerState.new]
    · simp [hq, Completes, Greets, Restarts, Ne.symm hq]
  | disconnect peer =>
    have hlookup : (S.step (.disconnect peer)).peers.lookup q
        = if q = peer then none else S.peers.lookup q := Maps.lookup_erase _ _ _
    unfold isReady
    rw [hlookup]
    by_cases hq : q = peer
    · simp [hq, Completes, Greets, Restarts]
    · simp [hq, Completes, Greets, Restarts, Ne.symm hq]
  | tick now =>
    refine hsame (SameHandshakes.of_eq (peers_onTick now)) ?_ ?_
    · simp [Completes, Greets]
    · simp [Restarts]
  | localBlock block =>
    refine hsame (sameHandshakes_onLocalBlock block) ?_ ?_
    · simp [Completes, Greets]
    · simp [Restarts]
  | message peer message now =>
    by_cases hmessage : message.isHandshake = false
    · refine hsame (sameHandshakes_onMessage peer now hmessage) ?_ ?_
      · rintro ⟨-, ⟨tips, now', he⟩ | ⟨now', he⟩⟩
        · cases he
          cases hmessage
        · cases he
          cases hmessage
      · simp [Restarts]
    · change (S.onMessage peer message now).1.isReady q = true ↔ _
      unfold onMessage
      rw [Bool.not_eq_false] at hmessage
      rw [hmessage, Bool.not_true, Bool.and_false, if_neg Bool.false_ne_true]
      by_cases hpeer : peer ∈ S.peers
      · rw [if_neg (not_not.mpr hpeer)]
        cases message with
        | version version genesis tips =>
          dsimp only
          rw [isReady_onVersion]
          simp only [Completes, Greets, Restarts]
          grind
        | verack =>
          dsimp only
          rw [isReady_modifyPeer_ready fun _ => rfl]
          simp only [Completes, Greets, Restarts]
          grind
        | _ => cases hmessage
      · rw [if_pos hpeer]
        simp only [Completes, Greets, Restarts]
        grind

end Ready

/-! ### Runs -/

section Runs

variable [HeaderHash]

/-- The handshake is safe: whoever has not announced our version and our genesis since it
connected is not ready, and nothing it sends but handshake messages has an effect. -/
def HandshakeSafe (genesis : BlockHash) (session : DagSync × List SyncCall) : Prop :=
  ∀ peer, ¬ Greeted genesis session.2 peer → session.1.isReady peer = false ∧
    ∀ message now, message.isHandshake = false →
      (session.1.onMessage peer message now).1 = session.1

/-- A `Verack` from a connected peer that is not ready. -/
def EarlyVerack (S : DagSync) (call : SyncCall) : Prop :=
  ∃ peer now, call = .message peer .verack now ∧ peer ∈ S.peers ∧ S.isReady peer = false

theorem handshakeSafe_iff {genesis : BlockHash} {session : DagSync × List SyncCall} :
    HandshakeSafe genesis session ↔
      ∀ peer, session.1.isReady peer = true → Greeted genesis session.2 peer := by
  refine ⟨?_, ?_⟩
  · intro h peer hready
    by_contra hgreeted
    rw [(h peer hgreeted).1] at hready
    cases hready
  · intro h peer hgreeted
    have hready : session.1.isReady peer = false := by
      rw [← Bool.not_eq_true]
      exact fun htrue => hgreeted (h peer htrue)
    exact ⟨hready, fun message now => onMessage_of_not_ready now hready⟩

/-- What holds of every session: the genesis is ours, and a connected peer that has announced
our version and our genesis is ready. -/
def Welcoming (genesis : BlockHash) (session : DagSync × List SyncCall) : Prop :=
  session.1.config.genesis = genesis ∧
    ∀ peer, peer ∈ session.1.peers → Greeted genesis session.2 peer →
      session.1.isReady peer = true

/-- Nobody becomes connected but by connecting. -/
theorem mem_peers_of_step {S : DagSync} {call : SyncCall} {q : PeerId}
    (hcall : call ≠ .connect q) (h : q ∈ (S.step call).peers) : q ∈ S.peers := by
  cases call with
  | connect peer =>
    obtain rfl | h := Finmap.mem_insert.mp h
    · exact absurd rfl hcall
    · exact h
  | disconnect peer => exact (Finmap.mem_erase.mp h).2
  | tick now => exact ((SameHandshakes.of_eq (peers_onTick now)).mem_peers q).mp h
  | localBlock block => exact ((sameHandshakes_onLocalBlock block).mem_peers q).mp h
  | message peer message now =>
    exact ((samePeers_onMessage PeerState.steady_id peer now (Or.inr fun _ => rfl)).mem_peers q).mp h

theorem Welcoming.record {genesis : BlockHash} {session : DagSync × List SyncCall}
    (h : Welcoming genesis session) (call : SyncCall) :
    Welcoming genesis (Runs.record step session call) := by
  obtain ⟨hgenesis, hready⟩ := h
  have hconfig : (session.1.step call).config = session.1.config := (sameSetup_step call).config
  refine ⟨(congrArg SyncConfig.genesis hconfig).trans hgenesis, fun peer hmem hgreeted => ?_⟩
  have hgreeted' := (greeted_concat session.2 call).mp hgreeted
  refine (isReady_step call peer).mpr ?_
  obtain hgreets | ⟨hne, hold⟩ := hgreeted'
  · -- the greeting itself makes a connected peer ready
    have hconnect : call ≠ .connect peer := by
      rintro rfl
      obtain ⟨tips, now, he⟩ := hgreets
      cases he
    exact Or.inl ⟨mem_peers_of_step hconnect hmem, Or.inl (hgenesis ▸ hgreets)⟩
  · -- an earlier greeting: still connected, as neither connect nor disconnect came since
    refine Or.inr ⟨hready peer (mem_peers_of_step hne hmem) hold, ?_⟩
    rintro (rfl | rfl)
    · exact hne rfl
    · exact (Finmap.mem_erase.mp hmem).1 rfl

/-- **One call keeps the handshake safe exactly when it is no early `Verack`.** -/
theorem handshakeSafe_record_iff {genesis : BlockHash} {session : DagSync × List SyncCall}
    (hwelcoming : Welcoming genesis session) (hsafe : HandshakeSafe genesis session)
    (call : SyncCall) :
    HandshakeSafe genesis (Runs.record step session call) ↔ ¬ EarlyVerack session.1 call := by
  rw [handshakeSafe_iff] at hsafe ⊢
  refine ⟨?_, ?_⟩
  · rintro h ⟨peer, now, rfl, hmem, hready⟩
    have hnow : (session.1.step (.message peer .verack now)).isReady peer = true :=
      (isReady_step _ peer).mpr (Or.inl ⟨hmem, Or.inr ⟨now, rfl⟩⟩)
    -- it is ready now, and had it been greeted it would have been ready before
    obtain ⟨tips, now', he⟩ | ⟨-, hold⟩ := (greeted_concat session.2 _).mp (h peer hnow)
    · cases he
    · rw [hwelcoming.2 peer hmem hold] at hready
      cases hready
  · intro hcall peer hready
    refine (greeted_concat session.2 call).mpr ?_
    obtain ⟨hmem, hgreets | ⟨now, rfl⟩⟩ | ⟨hold, hrestarts⟩ := (isReady_step call peer).mp hready
    · exact Or.inl (hwelcoming.1 ▸ hgreets)
    · refine Or.inr ⟨by simp, hsafe peer ?_⟩
      by_contra hnot
      rw [Bool.not_eq_true] at hnot
      exact hcall ⟨peer, now, rfl, hmem, hnot⟩
    · exact Or.inr ⟨fun he => hrestarts (Or.inl he), hsafe peer hold⟩

/-- **When the handshake is safe.** In every run of a node, whoever is ready has announced our
version and our genesis since it connected, and nobody else's inventory, blocks or tips have
an effect, exactly when no `Verack` comes from a connected peer that is not ready. -/
theorem handshake_safe_iff (dag : DagStore) (gate : Header → Except String Unit)
    (config : SyncConfig) (calls : List SyncCall) :
    Runs.Throughout (Runs.record step) (HandshakeSafe config.genesis)
        (new dag gate config, []) calls ↔
      Runs.Each step (fun S call => ¬ EarlyVerack S call) (new dag gate config) calls := by
  have hwelcoming : Welcoming config.genesis (new dag gate config, []) :=
    ⟨rfl, fun peer hmem _ => absurd hmem Finmap.notMem_empty⟩
  -- at the start nobody is ready
  have hsafe : HandshakeSafe config.genesis (new dag gate config, []) := by
    refine handshakeSafe_iff.mpr fun peer hready => ?_
    exact absurd (mem_peers_of_isReady hready) Finmap.notMem_empty
  have hlegal : Runs.Each (Runs.record step) (fun _ _ => True) (new dag gate config, []) calls :=
    Runs.each_of_forall (fun _ _ => trivial) _ _
  refine Iff.trans ?_ (Runs.each_record (fun S call => ¬ EarlyVerack S call)
    (new dag gate config, []))
  -- a call keeps the handshake safe if and only if it is no early verack
  refine Runs.throughout_iff_each (I := Welcoming config.genesis)
    (fun session call hI _ _ _ => hI.record call) ?_ hwelcoming hsafe hlegal
  exact fun session call hI hP _ => handshakeSafe_record_iff hI hP call

end Runs

section Unchecked

open Sample

/-- A node that knows genesis only. -/
def lone : DagSync := new (DagStore.new root 2 10) (fun _ => .ok ()) ⟨4096, 2000, hashOf 0⟩

/-- **A `Verack` is enough.** The peer sends nothing else; it is ready, and the node asks it for
the block it announces. -/
theorem verack_alone_suffices :
    (Runs.after step lone [.connect 7, .message 7 .verack 0]).isReady 7 = true ∧
      ¬ Greeted (hashOf 0) [.connect 7, .message 7 .verack 0] 7 ∧
      ((Runs.after step lone [.connect 7, .message 7 .verack 0]).onMessage 7
        (.invBlocks [hashOf 1]) 0).2 = [.send 7 (.getBlocks [hashOf 1])] := by
  refine ⟨by decide +kernel, ?_, by decide +kernel⟩
  rintro ⟨before, greeting, after, he, ⟨tips, now, rfl⟩, -⟩
  have hmem : SyncCall.message 7 (.version protocolVersion (hashOf 0) tips) now
      ∈ before ++ .message 7 (.version protocolVersion (hashOf 0) tips) now :: after :=
    List.mem_append_right _ List.mem_cons_self
  rw [← he] at hmem
  simp at hmem

end Unchecked

end DagSync

end Chainname
