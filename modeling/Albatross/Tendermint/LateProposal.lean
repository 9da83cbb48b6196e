import Albatross.Tendermint.Poll
import Mathlib.Data.Nat.Basic

/- A round in which `poll_next` reaches the `unreachable!()` of `on_polka`. The
   source reasons that 2f+1 precommits for a known proposal always give a decision
   in `poll_aggregations` first. But `poll_aggregations` looks at an aggregate only
   when its stream yields it: when the precommits for a proposal come in while the
   proposal is unknown, and the proposal comes in afterwards as the answer to its
   request, the next `aggregate` finds the polka in the Precommit step. Nothing in
   the round needs a faulty validator: the proposal only has to be late. -/
namespace Albatross

variable {P PH IH S I D : Type}

/-- An aggregate in which `forHash` contributors vote for `h` and `forNone` for None. -/
def Aggregate.split [DecidableEq PH] (h : PH) (forHash forNone : Nat) : Aggregate PH :=
  ⟨forHash + forNone, fun v => if v = some h then forHash else if v = none then forNone else 0, [(h, forHash)]⟩

theorem Aggregate.split_wellFormed [DecidableEq PH] (h : PH) (forHash forNone : Nat) :
    (Aggregate.split h forHash forNone).WellFormed := by
  refine ⟨fun v => ?_, by simp [Aggregate.split]⟩
  simp only [Aggregate.split]
  split_ifs <;> omega

def Wakeup.quiet : Wakeup P PH S := ⟨none, [], none, [], [], false⟩

/-- Round 0 seen by a node that is not its proposer, where the proposal `sp`, of
    hash `h`, reaches the node late and only as the answer to its request: the
    node prevotes None at the proposal timeout, sees 2f of 2f+1 prevotes for `h`
    and requests it, precommits None at the next timeout, and then sees 2f+1
    precommits for `h` before the answer comes. -/
def precommitRace [DecidableEq PH] (h : PH) (sp : SignedProposalMessage P S) (f : Nat) : List (Wakeup P PH S) :=
  [Wakeup.quiet,
    { Wakeup.quiet with timeoutElapsed := true },
    { Wakeup.quiet with lateAggregates := [((0, .prevote), .split h (2 * f) 1)] },
    Wakeup.quiet,
    { Wakeup.quiet with timeoutElapsed := true },
    { Wakeup.quiet with lateAggregates := [((0, .precommit), .split h (2 * f + 1) 1)] },
    { Wakeup.quiet with responses := [((h, 0), some sp)] }]

namespace Tendermint

section Panic

variable (π : Protocol P PH IH S I D)

/-- In the Precommit step, 2f+1 precommits for the first proposal of the round
    take `aggregate` to `on_polka`, which panics. -/
theorem aggregate_eq_none_of_precommit_polka {m : Tendermint P PH IH S I} {best : Aggregate PH} {h : PH}
    {entry : Option Nat × S} {rest : List (PH × Option Nat × S)}
    (precommit : m.state.currentStep = .precommit)
    (stored : findKey (m.state.currentRound, .precommit) m.state.bestVotes = some best)
    (enough : π.twoFPlusOne ≤ best.allContributors)
    (first : m.state.proposalsOf m.state.currentRound = (h, entry) :: rest)
    (polka : π.twoFPlusOne ≤ best.contributorsFor (some h)) :
    aggregate π m = none := by
  cases started : createAggregation m (m.state.currentRound, m.state.currentStep) with
  | none => simp [aggregate, started]
  | some m' =>
    have same := createAggregation_state started
    have scan : scanProposals π best best.allContributors (h :: rest.map Prod.fst) false best.allContributors =
        some (.inl h) := by
      simp [scanProposals, Nat.not_lt.mpr polka]
    simp only [aggregate, started, Option.bind_eq_bind, Option.bind_some]
    simp [same, precommit, stored, Nat.not_lt.mpr enough, first, scan, onPolka]

end Panic

section Race

variable [LinearOrder PH] [DecidableEq IH] (π : Protocol P PH IH S I D)

/-- The machine in round 0 before any proposal has come in: the requests it made
    are still pending. -/
def roundZero (step : Step) (votes : List ((Nat × Step) × Option PH))
    (bestVotes : List ((Nat × Step) × Aggregate PH)) (requested : List (PH × Nat)) (started : List (Nat × Step))
    (timeout : Option Bool) : Tendermint P PH IH S I :=
  ⟨{ (default : State P PH IH S I) with currentStep := step, roundProposals := [(0, [])], votes, bestVotes },
    requested, requested, started, timeout, false, [], false⟩

theorem runPolls_cons_of_poll {m m' : Tendermint P PH IH S I} {w : Wakeup P PH S} (ws : List (Wakeup P PH S))
    (poll : (pollNext π m w).map Prod.fst = some m') : runPolls π m (w :: ws) = runPolls π m' ws := by
  cases h : pollNext π m w with
  | none => simp [h] at poll
  | some r =>
    simp only [h, Option.map_some, Option.some.injEq] at poll
    simp [runPolls, h, poll]

theorem poll_arms_timer (notProposer : π.isProposer 0 = .ok false) :
    (pollNext π (Tendermint.new (default : State P PH IH S I)) Wakeup.quiet).map Prod.fst =
      some (roundZero .propose [] [] [] [] (some false)) := by
  simp [pollNext, finishPoll, Tendermint.new, Wakeup.quiet, processNextProposal, takeResponses, dispatchMessages,
    pollAggregations, runStateMachine, notProposer, awaitProposal, startTimeout, timeoutElapsed, State.touchRound,
    State.proposalsOf, default, startAggregations, findKey, modifyKey, roundZero]

theorem poll_prevotes_none (notProposer : π.isProposer 0 = .ok false) :
    (pollNext π (roundZero .propose [] [] [] [] (some false)) { Wakeup.quiet with timeoutElapsed := true }).map
      Prod.fst = some (roundZero .prevote [((0, .prevote), none)] [] [] [] none) := by
  simp [pollNext, finishPoll, Wakeup.quiet, processNextProposal, takeResponses, dispatchMessages,
    pollAggregations, runStateMachine, notProposer, awaitProposal, startTimeout, timeoutElapsed, State.touchRound,
    State.proposalsOf, default, findKey, modifyKey, roundZero, yieldState, State.prevote, insertKey]

/-- A late prevote aggregate in which an unknown proposal has more than f votes and
    the rest fewer than f+1 makes the node request it, whether or not it is a polka. -/
theorem poll_requests_unknown_proposal (h : PH) (a b : Nat) (potential : π.fPlusOne ≤ a)
    (room : b < π.fPlusOne) :
    (pollNext π (roundZero .prevote [((0, .prevote), none)] [] [] [] none)
        { Wakeup.quiet with lateAggregates := [((0, .prevote), .split h a b)] }).map Prod.fst =
      some (roundZero .prevote [((0, .prevote), none)] [((0, .prevote), .split h a b)] [(h, 0)]
        [(0, .prevote)] none) := by
  have within : ¬a + b < a := by omega
  simp [potential, room, within, pollNext, finishPoll, Wakeup.quiet, processNextProposal, takeResponses,
    dispatchMessages, pollAggregations, runStateMachine, aggregate, createAggregation, startTimeout, timeoutElapsed,
    State.touchRound, State.proposalsOf, default, startAggregations, findKey, modifyKey, roundZero, keepBest, insertKey,
    checkProposals, takePolka, Aggregate.split, requestProposal, exportState]

theorem poll_waits_for_more_votes (h : PH) (f : Nat) (faulty : 0 < f) (two : π.twoFPlusOne = 2 * f + 1)
    (one : π.fPlusOne = f + 1) :
    (pollNext π (roundZero .prevote [((0, .prevote), none)] [((0, .prevote), .split h (2 * f) 1)] [(h, 0)]
        [(0, .prevote)] none) Wakeup.quiet).map Prod.fst =
      some (roundZero .prevote [((0, .prevote), none)] [((0, .prevote), .split h (2 * f) 1)] [(h, 0)]
        [(0, .prevote)] (some false)) := by
  -- the thresholds stay as the protocol's constants, compared with the aggregate's counts
  have quorum : ¬2 * f + 1 < π.twoFPlusOne := by omega
  have noPolka : ¬π.twoFPlusOne ≤ 1 := by omega
  have noRoom : ¬π.fPlusOne ≤ 1 := by omega
  simp [quorum, noPolka, noRoom, pollNext, finishPoll, Wakeup.quiet, processNextProposal, takeResponses, dispatchMessages,
    pollAggregations, runStateMachine, aggregate, createAggregation, startTimeout, timeoutElapsed, State.touchRound,
    State.proposalsOf, default, startAggregations, findKey, modifyKey, roundZero, scanProposals,
    Aggregate.split]

theorem poll_precommits_none (h : PH) (f : Nat) (faulty : 0 < f) (two : π.twoFPlusOne = 2 * f + 1)
    (one : π.fPlusOne = f + 1) :
    (pollNext π (roundZero .prevote [((0, .prevote), none)] [((0, .prevote), .split h (2 * f) 1)] [(h, 0)]
        [(0, .prevote)] (some false)) { Wakeup.quiet with timeoutElapsed := true }).map Prod.fst =
      some (roundZero .precommit [((0, .prevote), none), ((0, .precommit), none)]
        [((0, .prevote), .split h (2 * f) 1)] [(h, 0)] [(0, .prevote)] none) := by
  have quorum : ¬2 * f + 1 < π.twoFPlusOne := by omega
  have noPolka : ¬π.twoFPlusOne ≤ 1 := by omega
  simp [quorum, noPolka, pollNext, finishPoll, Wakeup.quiet, processNextProposal, takeResponses, dispatchMessages,
    pollAggregations, runStateMachine, aggregate, createAggregation, startTimeout, timeoutElapsed, State.touchRound,
    State.proposalsOf, default, findKey, modifyKey, roundZero, scanProposals,
    Aggregate.split, onNonePolka, yieldState, insertKey]

theorem poll_takes_precommits (h : PH) (f : Nat) (faulty : 0 < f) (two : π.twoFPlusOne = 2 * f + 1)
    (one : π.fPlusOne = f + 1) :
    (pollNext π (roundZero .precommit [((0, .prevote), none), ((0, .precommit), none)]
        [((0, .prevote), .split h (2 * f) 1)] [(h, 0)] [(0, .prevote)] none)
        { Wakeup.quiet with lateAggregates := [((0, .precommit), .split h (2 * f + 1) 1)] }).map Prod.fst =
      some (roundZero .precommit [((0, .prevote), none), ((0, .precommit), none)]
        [((0, .prevote), .split h (2 * f) 1), ((0, .precommit), .split h (2 * f + 1) 1)] [(h, 0)]
        [(0, .prevote), (0, .precommit)] none) := by
  have potential : f + 1 ≤ 2 * f + 1 := by omega
  have within : ¬2 * f + 1 + 1 < 2 * f + 1 := by omega
  simp [potential, within, faulty, pollNext, finishPoll, Wakeup.quiet, processNextProposal, takeResponses, dispatchMessages,
    pollAggregations, runStateMachine, aggregate, createAggregation, startTimeout, timeoutElapsed, State.touchRound,
    State.proposalsOf, default, startAggregations, findKey, modifyKey, roundZero, keepBest, insertKey,
    checkProposals, takePolka, Aggregate.split, requestProposal, exportState, two, one]

theorem poll_panics_on_answer (sp : SignedProposalMessage P S) {inherent : I} (f : Nat)
    (two : π.twoFPlusOne = 2 * f + 1) (verifies : π.verifyProposal sp none = .ok inherent) (firstRound : sp.message.round = 0) :
    pollNext π (roundZero .precommit [((0, .prevote), none), ((0, .precommit), none)]
        [((0, .prevote), .split (π.proposalHash sp.message.proposal) (2 * f) 1),
          ((0, .precommit), .split (π.proposalHash sp.message.proposal) (2 * f + 1) 1)]
        [(π.proposalHash sp.message.proposal, 0)] [(0, .prevote), (0, .precommit)] none)
        { Wakeup.quiet with responses := [((π.proposalHash sp.message.proposal, 0), some sp)] } = none := by
  simp [pollNext, finishPoll, Wakeup.quiet, processNextProposal, takeResponses, dispatchMessages,
    pollAggregations, runStateMachine, processProposal, verifies, firstRound, default, findKey, modifyKey, roundZero, insertKey, insertSorted]
  intro _ _ _ answered
  rw [aggregate_eq_none_of_precommit_polka π] at answered
  case stored => rfl
  case first => rfl
  case precommit => rfl
  case enough => simp [Aggregate.split, two]
  case polka => simp [Aggregate.split, two]
  · cases answered

theorem poll_next_panics_on_late_proposal (sp : SignedProposalMessage P S) {inherent : I} (f : Nat)
    (faulty : 0 < f) (two : π.twoFPlusOne = 2 * f + 1) (one : π.fPlusOne = f + 1)
    (notProposer : π.isProposer 0 = .ok false) (verifies : π.verifyProposal sp none = .ok inherent)
    (firstRound : sp.message.round = 0) :
    (∀ w ∈ precommitRace (π.proposalHash sp.message.proposal) sp f, w.Admissible) ∧
      runPolls π (Tendermint.new default) (precommitRace (π.proposalHash sp.message.proposal) sp f) = none := by
  constructor
  · intro w mem
    simp only [precommitRace, List.mem_cons, List.not_mem_nil, or_false] at mem
    rcases mem with rfl | rfl | rfl | rfl | rfl | rfl | rfl <;>
      simp [Wakeup.Admissible, Wakeup.quiet, Aggregate.split_wellFormed]
  · -- one poll lemma per wake-up, the last of which panics
    rw [precommitRace, runPolls_cons_of_poll π _ (poll_arms_timer π notProposer),
      runPolls_cons_of_poll π _ (poll_prevotes_none π notProposer),
      runPolls_cons_of_poll π _ (poll_requests_unknown_proposal π _ (2 * f) 1 (by omega) (by omega)),
      runPolls_cons_of_poll π _ (poll_waits_for_more_votes π _ f faulty two one),
      runPolls_cons_of_poll π _ (poll_precommits_none π _ f faulty two one),
      runPolls_cons_of_poll π _ (poll_takes_precommits π _ f faulty two one)]
    simp [runPolls, poll_panics_on_answer π sp f two verifies firstRound]

end Race

/-- A protocol of four validators under which this node never proposes and every
    proposal verifies, its own inherent being the proposal. -/
def lateProposalProtocol : Protocol Nat Nat Nat Unit Nat Unit where
  twoFPlusOne := 3
  fPlusOne := 2
  isProposer _ := .ok false
  createProposal r := .ok (⟨r, none, 0⟩, 0)
  signProposal _ := ()
  verifyProposal sp _ := .ok sp.message.proposal
  createDecision _ _ _ _ := ()
  proposalHash p := p
  inherentHash p := p
  hashInherent i := i

theorem four_validators_panic_on_late_proposal :
    (∀ w ∈ precommitRace 7 (⟨⟨0, none, 7⟩, ()⟩ : SignedProposalMessage Nat Unit) 1, w.Admissible) ∧
      runPolls lateProposalProtocol (Tendermint.new default) (precommitRace 7 ⟨⟨0, none, 7⟩, ()⟩ 1) = none :=
  poll_next_panics_on_late_proposal lateProposalProtocol ⟨⟨0, none, 7⟩, ()⟩ 1 (by decide) rfl rfl rfl rfl rfl

end Tendermint

end Albatross
