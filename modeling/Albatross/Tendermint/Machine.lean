import Albatross.Lib.AssocMap

/- The Tendermint state machine of tendermint/src: the state (state.rs), the
   protocol it is generic over (protocol.rs), and the steps `poll_next` runs
   (tendermint.rs, states/propose.rs, states/await_proposal.rs,
   states/aggregate.rs). An aggregation is what the machine reads of it: the
   number of all contributors, of those for one vote, and the proposals with their
   counts. The machine's futures (the timer, the requested proposals, the started
   aggregations) are kept by what the machine knows of them; when they are ready is
   the environment's choice, made in Poll.lean. A panic is `none`; `usize`
   arithmetic panics below zero and the `u32` round past its maximum, as in a
   debug build. -/
namespace Albatross

inductive Step where
  | propose
  | prevote
  | precommit
  deriving DecidableEq, Repr

instance : LawfulBEq (Nat × Step) := inferInstance

structure ProposalMessage (P : Type) where
  round : Nat
  validRound : Option Nat
  proposal : P

structure SignedProposalMessage (P S : Type) where
  message : ProposalMessage P
  signature : S

structure Aggregate (PH : Type) where
  allContributors : Nat
  contributorsFor : Option PH → Nat
  proposals : List (PH × Nat)

inductive ProtocolError where
  | abort
  deriving DecidableEq, Repr

inductive ProposalError where
  | invalidProposal
  deriving DecidableEq, Repr

/-- The `Protocol` trait as the machine calls it, with `Proposal::hash`,
    `Proposal::inherent_hash` and `Inherent::hash`. Broadcasting, requesting a
    proposal and running an aggregation only start work outside the machine. -/
structure Protocol (P PH IH S I D : Type) where
  twoFPlusOne : Nat
  fPlusOne : Nat
  isProposer : Nat → Except ProtocolError Bool
  createProposal : Nat → Except ProtocolError (ProposalMessage P × I)
  signProposal : ProposalMessage P → S
  verifyProposal : SignedProposalMessage P S → Option I → Except ProposalError I
  createDecision : P → I → Aggregate PH → Nat → D
  proposalHash : P → PH
  inherentHash : P → IH
  hashInherent : I → IH

variable {P PH IH S I D : Type}

structure State (P PH IH S I : Type) where
  currentRound : Nat
  currentStep : Step
  knownProposals : List (PH × P)
  /-- The inner maps are iterated, so they are kept in hash order. -/
  roundProposals : List (Nat × List (PH × Option Nat × S))
  votes : List ((Nat × Step) × Option PH)
  bestVotes : List ((Nat × Step) × Aggregate PH)
  inherents : List (IH × I)
  locked : Option (Nat × PH)
  valid : Option (Nat × PH)

instance : Inhabited (State P PH IH S I) :=
  ⟨⟨0, .propose, [], [], [], [], [], none, none⟩⟩

inductive Return (P PH IH S I D : Type) where
  | decision (d : D)
  | update (state : State P PH IH S I)
  | proposalAccepted (proposal : SignedProposalMessage P S)
  | proposalIgnored (proposal : SignedProposalMessage P S)
  | proposalRejected (proposal : SignedProposalMessage P S)

/-- The `Tendermint` struct. Each started aggregation has its sender and its stream
    in the `SelectAll`, so both are the list of started ids. `timeout` is the sleep
    and whether it has elapsed. The queues of future-round messages sit behind the
    level updates, which Poll.lean leaves to the environment. -/
structure Tendermint (P PH IH S I : Type) where
  state : State P PH IH S I
  requestedProposals : List (PH × Nat)
  pendingProposalRequests : List (PH × Nat)
  aggregationSenders : List (Nat × Step)
  timeout : Option Bool
  stateReturnPending : Bool
  pendingAggregationStarts : List (Nat × Step)
  decision : Bool

/-- `Tendermint::new` with `init`: every aggregation this node has voted in is
    restarted, except the current one. -/
def Tendermint.new (state : State P PH IH S I) : Tendermint P PH IH S I :=
  ⟨state, [], [], (state.votes.map Prod.fst).filter (· ≠ (state.currentRound, state.currentStep)),
    none, false, [], false⟩

/-- The round's entry of `round_proposals`, made empty where there is none. -/
def State.touchRound (st : State P PH IH S I) (round : Nat) : State P PH IH S I :=
  { st with roundProposals := modifyKey round [] id st.roundProposals }

def State.proposalsOf (st : State P PH IH S I) (round : Nat) : List (PH × Option Nat × S) :=
  (findKey round st.roundProposals).getD []

@[simp] theorem State.touchRound_currentRound (st : State P PH IH S I) (r : Nat) :
    (st.touchRound r).currentRound = st.currentRound := rfl

@[simp] theorem State.touchRound_currentStep (st : State P PH IH S I) (r : Nat) :
    (st.touchRound r).currentStep = st.currentStep := rfl

@[simp] theorem State.touchRound_bestVotes (st : State P PH IH S I) (r : Nat) :
    (st.touchRound r).bestVotes = st.bestVotes := rfl

@[simp] theorem State.touchRound_votes (st : State P PH IH S I) (r : Nat) :
    (st.touchRound r).votes = st.votes := rfl

@[simp] theorem State.proposalsOf_touchRound (st : State P PH IH S I) (r : Nat) :
    (st.touchRound r).proposalsOf r = st.proposalsOf r := by
  simp [touchRound, proposalsOf]

/-- The vote of a Prevote, and the step to Prevote, that ends `await_proposal`. -/
def State.prevote (st : State P PH IH S I) (vote : Option PH) : State P PH IH S I :=
  { st with votes := insertKey (st.currentRound, .prevote) vote st.votes, currentStep := .prevote }

namespace Tendermint

/-- `create_aggregation`: a new aggregation starts with this node's vote, which must exist. -/
def createAggregation (m : Tendermint P PH IH S I) (id : Nat × Step) : Option (Tendermint P PH IH S I) :=
  if id ∈ m.aggregationSenders then some m
  else match findKey id m.state.votes with
    | none => none
    | some _ => some { m with aggregationSenders := m.aggregationSenders ++ [id] }

/-- Starting an aggregation leaves the state as it is. -/
theorem createAggregation_state {m m' : Tendermint P PH IH S I} {id : Nat × Step}
    (h : createAggregation m id = some m') : m'.state = m.state := by
  unfold createAggregation at h
  split at h
  · cases h
    rfl
  · split at h
    · cases h
    · cases h
      rfl

/-- `start_timeout`: a new sleep has not elapsed when it is made. -/
def startTimeout (m : Tendermint P PH IH S I) : Tendermint P PH IH S I :=
  match m.timeout with
  | none => { m with timeout := some false }
  | some _ => m

@[simp] theorem startTimeout_state (m : Tendermint P PH IH S I) : (startTimeout m).state = m.state := by
  unfold startTimeout
  split <;> rfl

def timeoutElapsed (m : Tendermint P PH IH S I) : Bool := m.timeout == some true

section Machine

variable [LinearOrder PH] [DecidableEq IH] (π : Protocol P PH IH S I D)

/-- `is_allowed_to_vote_on`; `Some(locked_round) < vr` holds only of a later `Some`. -/
def isAllowedToVoteOn (st : State P PH IH S I) (h : PH) (vr : Option Nat) : Bool :=
  match st.locked with
  | none => true
  | some (lockedRound, lockedHash) => lockedHash = h || vr.any (lockedRound < ·)

def hasTwoFPlusOne (st : State P PH IH S I) (h : PH) (round : Nat) : Bool :=
  match findKey (round, .prevote) st.bestVotes with
  | some aggregate => π.twoFPlusOne ≤ aggregate.contributorsFor (some h)
  | none => false

/-- `process_proposal`: a proposal that verifies, or whose hash is known with its
    inherent, joins the proposals of its round, and its hash is returned. The
    assert that a proposal with an unknown inherent is unknown too is the `none`. -/
def processProposal (m : Tendermint P PH IH S I) (sp : SignedProposalMessage P S) :
    Option (Tendermint P PH IH S I × Option PH) :=
  let st := m.state
  let proposal := sp.message.proposal
  let h := π.proposalHash proposal
  let verified : Option (Option (State P PH IH S I)) :=
    match findKey (π.inherentHash proposal) st.inherents with
    | none =>
      match π.verifyProposal sp none with
      | .error _ => some none
      | .ok inherent =>
        if (findKey h st.knownProposals).isSome then none
        else some (some { st with
          inherents := insertKey (π.inherentHash proposal) inherent st.inherents,
          knownProposals := insertKey h proposal st.knownProposals })
    | some inherent =>
      match findKey h st.knownProposals with
      | some _ => some (some st)
      | none =>
        match π.verifyProposal sp (some inherent) with
        | .error _ => some none
        | .ok _ => some (some { st with knownProposals := insertKey h proposal st.knownProposals })
  verified.map fun
    | none => (m, none)
    | some st =>
      let entry := insertSorted h (sp.message.validRound, sp.signature)
      ({ m with state := { st with roundProposals := modifyKey sp.message.round [] entry st.roundProposals } },
        some h)

/-- `process_next_proposal` for a proposal the gossip stream yields: only the first
    proposal of a round is processed. -/
def processNextProposal (m : Tendermint P PH IH S I) :
    Option (SignedProposalMessage P S) → Option (Tendermint P PH IH S I × Option (Return P PH IH S I D))
  | none => some (m, none)
  | some sp =>
    let m := { m with state := m.state.touchRound sp.message.round }
    if (m.state.proposalsOf sp.message.round).isEmpty then
      (processProposal π m sp).map fun (m, h) =>
        match h with
        | some _ => ({ m with stateReturnPending := true }, some (.proposalAccepted sp))
        | none => (m, some (.proposalRejected sp))
    else some (m, some (.proposalIgnored sp))

def receivedProposalWithVr (st : State P PH IH S I) (h : PH) (vr : Nat) : State P PH IH S I :=
  st.prevote (if vr < st.currentRound && isAllowedToVoteOn st h (some vr) && hasTwoFPlusOne π st h vr
    then some h else none)

def receivedProposalWithoutVr (st : State P PH IH S I) (h : PH) : State P PH IH S I :=
  st.prevote (if isAllowedToVoteOn st h none then some h else none)

/-- A state the machine yields: the timer is reset and the state returned. -/
def yieldState (m : Tendermint P PH IH S I) (st : State P PH IH S I) :
    Tendermint P PH IH S I × Option (Return P PH IH S I D) :=
  ({ m with state := st, timeout := none }, some (.update st))

/-- `await_proposal`, the Propose step of a node that is not the proposer. -/
def awaitProposal (m : Tendermint P PH IH S I) :
    Option (Tendermint P PH IH S I × Option (Return P PH IH S I D)) :=
  let r := m.state.currentRound
  if (findKey (r, .prevote) m.state.votes).isSome then none
  else
    let m := startTimeout m
    let m := { m with state := m.state.touchRound r }
    match (m.state.proposalsOf r).head? with
    | some (h, some vr, _) => some (yieldState m (receivedProposalWithVr π m.state h vr))
    | some (h, none, _) => some (yieldState m (receivedProposalWithoutVr m.state h))
    -- `check_proposal_timeout`
    | none => if timeoutElapsed m then some (yieldState m (m.state.prevote none)) else some (m, none)

/-- `propose`, the Propose step of the proposer: broadcast the round's proposal,
    or else set one, the valid proposal or a new one. -/
def propose (m : Tendermint P PH IH S I) :
    Option (Except ProtocolError (Tendermint P PH IH S I × Return P PH IH S I D)) :=
  let r := m.state.currentRound
  let st := m.state.touchRound r
  match (st.proposalsOf r).head? with
  | some (h, vr, _) =>
    match findKey h st.knownProposals with
    | none => none
    | some _ =>
      -- `Some(locked_round) <= vr` holds only of a `Some` no earlier
      let vote := match st.locked with
        | none => some h
        | some (lockedRound, lockedHash) => if lockedHash = h || vr.any (lockedRound ≤ ·) then some h else none
      if (findKey (r, .prevote) st.votes).isSome then none
      else
        let st := { st with currentStep := .prevote, votes := insertKey (r, .prevote) vote st.votes }
        some (.ok ({ m with state := st }, .update st))
  | none =>
    match st.valid with
    | some (validRound, h) =>
      match findKey h st.knownProposals with
      | none => none
      | some proposal =>
        let signature := π.signProposal ⟨r, some validRound, proposal⟩
        let st := { st with roundProposals := modifyKey r [] (insertSorted h (some validRound, signature)) st.roundProposals }
        some (.ok ({ m with state := st }, .update st))
    | none =>
      match π.createProposal r with
      | .error e => some (.error e)
      | .ok (message, inherent) =>
        let h := π.proposalHash message.proposal
        let st := { st with
          inherents := insertKey (π.hashInherent inherent) inherent st.inherents,
          knownProposals := insertKey h message.proposal st.knownProposals,
          roundProposals := modifyKey r [] (insertSorted h (none, π.signProposal message)) st.roundProposals }
        some (.ok ({ m with state := st }, .update st))

/-- `on_polka`: 2f+1 votes for a known proposal. In Precommit the source has
    `unreachable!()`, reasoning that such an aggregate gave a decision first. -/
def onPolka (st : State P PH IH S I) (h : PH) : Option (State P PH IH S I) :=
  match st.currentStep with
  | .prevote =>
    let id := (st.currentRound, Step.precommit)
    if (findKey id st.votes).isSome then none
    else some { st with
      currentStep := .precommit,
      votes := insertKey id (some h) st.votes,
      locked := some (st.currentRound, h) }
  | .precommit => none
  | .propose => none

def onNonePolka (st : State P PH IH S I) : Option (State P PH IH S I) :=
  match st.currentStep with
  | .prevote =>
    let id := (st.currentRound, Step.precommit)
    if (findKey id st.votes).isSome then none
    else some { st with currentStep := .precommit, votes := insertKey id none st.votes }
  | .precommit =>
    -- `current_round += 1` on the `u32` round
    if st.currentRound + 1 < 2 ^ 32 then some { st with currentRound := st.currentRound + 1, currentStep := .propose }
    else none
  | .propose => none

/-- The loop of `aggregate` over the hashes of the round's proposals in key order:
    the first with 2f+1 votes is a polka. Below that, each leaves its votes off the
    remaining count and may show that the aggregate can still improve. -/
def scanProposals (best : Aggregate PH) (total : Nat) :
    List PH → Bool → Nat → Option (PH ⊕ Bool × Nat)
  | [], canImprove, remaining => some (.inr (canImprove, remaining))
  | h :: rest, canImprove, remaining =>
    let count := best.contributorsFor (some h)
    if count < π.twoFPlusOne then
      if total < count ∨ remaining < count then none
      else scanProposals best total rest (canImprove || decide (total - count < π.fPlusOne)) (remaining - count)
    else some (.inl h)

/-- `aggregate`, the Prevote and Precommit steps. -/
def aggregate (m : Tendermint P PH IH S I) :
    Option (Tendermint P PH IH S I × Option (Return P PH IH S I D)) := do
  let roundAndStep := (m.state.currentRound, m.state.currentStep)
  let m ← createAggregation m roundAndStep
  match findKey roundAndStep m.state.bestVotes with
  | none => some (m, none)
  | some best =>
    let total := best.allContributors
    if total < π.twoFPlusOne then some (m, none)
    else
      let m := { m with state := m.state.touchRound m.state.currentRound }
      let hashes := (m.state.proposalsOf m.state.currentRound).map Prod.fst
      match ← scanProposals π best total hashes false total with
      | .inl h => (onPolka m.state h).map (yieldState m)
      | .inr (canImprove, remaining) =>
        let noneCount := best.contributorsFor none
        if π.twoFPlusOne ≤ noneCount then (onNonePolka m.state).map (yieldState m)
        else if remaining < noneCount then none
        else if !canImprove && π.fPlusOne ≤ total - (remaining - noneCount) then
          (onNonePolka m.state).map (yieldState m)
        else
          let m := startTimeout m
          if timeoutElapsed m then (onNonePolka m.state).map (yieldState m) else some (m, none)

end Machine

end Tendermint

end Albatross
