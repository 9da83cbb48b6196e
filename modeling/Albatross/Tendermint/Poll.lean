import Albatross.Tendermint.Machine

/- `poll_next` of tendermint.rs. What is ready when the machine is polled is the
   environment's choice, a `Wakeup`: a gossiped proposal, answers to requested
   proposals, aggregates of the started aggregations (at the first poll of the
   streams and at the one the end of `poll_next` makes), whether the sleep has
   run out, and whether a verified aggregation of a future round brings that
   round to f+1 contributors. That skip ahead is the one state change
   `dispatch_messages` makes; the level updates it forwards only feed the
   aggregations, whose output is the environment's. -/
namespace Albatross

variable {P PH IH S I D : Type}

structure Wakeup (P PH S : Type) where
  gossip : Option (SignedProposalMessage P S)
  responses : List ((PH × Nat) × Option (SignedProposalMessage P S))
  -- the round of a verified future-round aggregation, a `u32`
  skipTo : Option UInt32
  aggregates : List ((Nat × Step) × Aggregate PH)
  lateAggregates : List ((Nat × Step) × Aggregate PH)
  timeoutElapsed : Bool

/-- What the `Aggregation` trait promises: the contributors of a vote are among all
    contributors, and a proposal's count is the number of its contributors. -/
def Aggregate.WellFormed (a : Aggregate PH) : Prop :=
  (∀ v, a.contributorsFor v ≤ a.allContributors) ∧ ∀ p ∈ a.proposals, p.2 = a.contributorsFor (some p.1)

def Wakeup.Admissible (w : Wakeup P PH S) : Prop :=
  ∀ x ∈ w.aggregates ++ w.lateAggregates, x.2.WellFormed

inductive PollResult (P PH IH S I D : Type) where
  | pending
  | ready (item : Option (Return P PH IH S I D))

namespace Tendermint

section Poll

variable [LinearOrder PH] [DecidableEq IH] (π : Protocol P PH IH S I D)

/-- The loop over `requested_proposals` that are ready: each answer is processed. -/
def takeResponses (m : Tendermint P PH IH S I) (shouldExportState : Bool) :
    List ((PH × Nat) × Option (SignedProposalMessage P S)) → Option (Tendermint P PH IH S I × Bool)
  | [] => some (m, shouldExportState)
  | (id, response) :: rest =>
    -- only a request that was made can be answered
    if id ∉ m.requestedProposals then takeResponses m shouldExportState rest
    else
      let m := { m with
        requestedProposals := m.requestedProposals.erase id,
        pendingProposalRequests := m.pendingProposalRequests.erase id }
      match response with
      | none => takeResponses m shouldExportState rest
      | some sp => do
        let (m, h) ← processProposal π m sp
        takeResponses m (shouldExportState || h.isSome) rest

def voteNoneIfVacant (m : Tendermint P PH IH S I) (id : Nat × Step) : Tendermint P PH IH S I :=
  if (findKey id m.state.votes).isSome then m
  else { m with
    state := { m.state with votes := insertKey id none m.state.votes },
    pendingAggregationStarts :=
      if id ∈ m.pendingAggregationStarts then m.pendingAggregationStarts
      else m.pendingAggregationStarts ++ [id] }

/-- The skip ahead of `dispatch_messages`: vote None in every aggregation of the
    rounds passed over and start the later round. -/
def skipAhead (m : Tendermint P PH IH S I) (round : Nat) : Tendermint P PH IH S I :=
  let passed := List.range' m.state.currentRound (round - m.state.currentRound)
  let m := passed.foldl (fun m r => voteNoneIfVacant (voteNoneIfVacant m (r, .prevote)) (r, .precommit)) m
  { m with state := { m.state with currentRound := round, currentStep := .propose } }

def dispatchMessages (m : Tendermint P PH IH S I) (shouldExportState : Bool) :
    Option UInt32 → Tendermint P PH IH S I × Bool
  | some round =>
    if m.state.currentRound < round.toNat then (skipAhead m round.toNat, true) else (m, shouldExportState)
  | none => (m, shouldExportState)

def raiseValid (valid : Option (Nat × PH)) (round : Nat) (h : PH) : Option (Nat × PH) :=
  match valid with
  | some (validRound, validHash) => if validRound < round then some (round, h) else some (validRound, validHash)
  | none => some (round, h)

def requestProposal (m : Tendermint P PH IH S I) (id : PH × Nat) : Tendermint P PH IH S I :=
  if id ∈ m.pendingProposalRequests then m
  else { m with
    pendingProposalRequests := m.pendingProposalRequests ++ [id],
    requestedProposals := m.requestedProposals ++ [id] }

/-- A proposal with 2f+1 votes in the best aggregate of `roundAndStep`: a known one
    raises `valid` (Prevote) or is the decision (Precommit). -/
def takePolka (best : Aggregate PH) (roundAndStep : Nat × Step) (h : PH) (m : Tendermint P PH IH S I) :
    Option (Tendermint P PH IH S I × Option D) :=
  match findKey h m.state.knownProposals with
  | some proposal =>
    match roundAndStep.2 with
    | .prevote =>
      some ({ m with state := { m.state with valid := raiseValid m.state.valid roundAndStep.1 h } }, none)
    | .precommit =>
      -- `expect("")` on the inherent of the proposal
      (findKey (π.inherentHash proposal) m.state.inherents).map fun inherent =>
        (m, some (π.createDecision proposal inherent best roundAndStep.1))
    | .propose => none
  -- an unknown one is only logged
  | none => some (m, none)

/-- The loop of `poll_aggregations` over the proposals of the best aggregate of
    `roundAndStep`: after a polka, an unknown proposal with more than f votes, where
    the rest have at most f, is requested. -/
def checkProposals (best : Aggregate PH) (roundAndStep : Nat × Step) :
    List (PH × Nat) → Tendermint P PH IH S I → Option (Tendermint P PH IH S I × Option D)
  | [], m => some (m, none)
  | (h, count) :: rest, m =>
    let polka := if π.twoFPlusOne ≤ count then takePolka π best roundAndStep h m else some (m, none)
    polka.bind fun
      | (m, some d) => some (m, some d)
      | (m, none) =>
        if π.fPlusOne ≤ count then
          if best.allContributors < count then none
          else if best.allContributors - count < π.fPlusOne && (findKey h m.state.knownProposals).isNone then
            checkProposals best roundAndStep rest (requestProposal m (h, roundAndStep.1))
          else checkProposals best roundAndStep rest m
        else checkProposals best roundAndStep rest m

/-- The best aggregate of an id after a new one: the one with more contributors.
    The flag says whether the state changed. -/
def keepBest (m : Tendermint P PH IH S I) (shouldExportState : Bool) (roundAndStep : Nat × Step) (agg : Aggregate PH) :
    Tendermint P PH IH S I × Bool × Aggregate PH :=
  let withBest (best : Aggregate PH) : Tendermint P PH IH S I :=
    { m with state := { m.state with bestVotes := insertKey roundAndStep best m.state.bestVotes } }
  match findKey roundAndStep m.state.bestVotes with
  | some old => if old.allContributors < agg.allContributors then (withBest agg, true, agg) else (m, shouldExportState, old)
  | none => (withBest agg, true, agg)

/-- `poll_aggregations` over the aggregates that are ready; only a started
    aggregation has a stream. -/
def pollAggregations (m : Tendermint P PH IH S I) (shouldExportState : Bool) :
    List ((Nat × Step) × Aggregate PH) → Option (Tendermint P PH IH S I × Bool × Option D)
  | [] => some (m, shouldExportState, none)
  | (roundAndStep, agg) :: items =>
    if roundAndStep ∉ m.aggregationSenders then pollAggregations m shouldExportState items
    else
      let (m, shouldExportState, best) := keepBest m shouldExportState roundAndStep agg
      match checkProposals π best roundAndStep best.proposals m with
      | none => none
      | some (m, some d) => some (m, shouldExportState, some d)
      | some (m, none) => pollAggregations m shouldExportState items

/-- The state machine of `poll_next`, by step. -/
def runStateMachine (m : Tendermint P PH IH S I) :
    Option (Except ProtocolError (Tendermint P PH IH S I × Option (Return P PH IH S I D))) :=
  match m.state.currentStep with
  | .propose =>
    match π.isProposer m.state.currentRound with
    | .error e => some (.error e)
    | .ok true => (propose π m).map (Except.map fun r => (r.1, some r.2))
    | .ok false => (awaitProposal π m).map .ok
  | .prevote | .precommit => (aggregate π m).map .ok

def startAggregations (m : Tendermint P PH IH S I) : Option (Tendermint P PH IH S I) :=
  m.pendingAggregationStarts.foldlM createAggregation { m with pendingAggregationStarts := [] }

def exportState (m : Tendermint P PH IH S I) : Tendermint P PH IH S I × PollResult P PH IH S I D :=
  ({ m with stateReturnPending := false }, .ready (some (.update m.state)))

def returnDecision (m : Tendermint P PH IH S I) (d : D) : Tendermint P PH IH S I × PollResult P PH IH S I D :=
  ({ m with decision := true }, .ready (some (.decision d)))

/-- The end of `poll_next`, after the state machine of the machine `m`: its item, or
    else a pending state export, or a second poll of the aggregations just started. -/
def finishPoll (m : Tendermint P PH IH S I) (shouldExportState : Bool) (late : List ((Nat × Step) × Aggregate PH)) :
    Except ProtocolError (Tendermint P PH IH S I × Option (Return P PH IH S I D)) →
      Option (Tendermint P PH IH S I × PollResult P PH IH S I D)
  | .error _ => some ({ m with decision := true }, .ready none)
  | .ok (m, some ret) =>
    match ret with
    | .update _ => some ({ m with stateReturnPending := false }, .ready (some ret))
    | _ => some (m, .ready (some ret))
  | .ok (m, none) =>
    if shouldExportState || m.stateReturnPending then some (exportState m)
    else
      let created := !m.pendingAggregationStarts.isEmpty
      (startAggregations m).bind fun m =>
        let current := (m.state.currentRound, m.state.currentStep)
        if created || (m.state.currentStep ≠ .propose && (findKey current m.state.bestVotes).isNone &&
            current ∈ m.aggregationSenders) then
          -- the aggregations just started are polled once more
          (pollAggregations π m shouldExportState late).bind fun
            | (m, _, some d) => some (returnDecision m d)
            | (m, shouldExportState, none) => if shouldExportState then some (exportState m) else some (m, .pending)
        else some (m, .pending)

/-- `poll_next`. -/
def pollNext (m : Tendermint P PH IH S I) (w : Wakeup P PH S) :
    Option (Tendermint P PH IH S I × PollResult P PH IH S I D) :=
  if m.decision then some (m, .ready none)
  else
    -- a sleep made in an earlier poll may have run out since
    let m := { m with timeout := m.timeout.map (· || w.timeoutElapsed) }
    (processNextProposal π m w.gossip).bind fun
      | (m, some ret) => some (m, .ready (some ret))
      | (m, none) =>
        (takeResponses π m false w.responses).bind fun (m, shouldExportState) =>
          let (m, shouldExportState) := dispatchMessages m shouldExportState w.skipTo
          (pollAggregations π m shouldExportState w.aggregates).bind fun
            | (m, _, some d) => some (returnDecision m d)
            | (m, shouldExportState, none) =>
              (runStateMachine π m).bind (finishPoll π m shouldExportState w.lateAggregates)

/-- The machine after a run of polls, or `none` where one of them panics. -/
def runPolls (m : Tendermint P PH IH S I) : List (Wakeup P PH S) → Option (Tendermint P PH IH S I)
  | [] => some m
  | w :: ws => (pollNext π m w).bind fun r => runPolls r.1 ws

end Poll

end Tendermint

end Albatross
