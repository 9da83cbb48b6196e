import Albatross.Tendermint.LateProposal

/- A node can lock on a proposal that is not valid for it. `on_polka` sets `locked`
   from the stored best prevotes, while `valid` is raised only in
   `poll_aggregations`, for a proposal known when a new aggregate comes in. When
   the 2f+1 prevotes for a proposal come in before the proposal, which the node
   then requests, the answer makes the next `aggregate` lock on it, and no new
   aggregate raises `valid`. -/
namespace Albatross

variable {P PH IH S I D : Type}

/-- Round 0 seen by a node that is not its proposer, where the proposal `sp`, of
    hash `h`, reaches it only as the answer to its request: it prevotes None at
    the proposal timeout, sees 2f+1 prevotes for `h`, requests it, and gets it. -/
def prevoteRace [DecidableEq PH] (h : PH) (sp : SignedProposalMessage P S) (f : Nat) : List (Wakeup P PH S) :=
  [Wakeup.quiet,
    { Wakeup.quiet with timeoutElapsed := true },
    { Wakeup.quiet with lateAggregates := [((0, .prevote), .split h (2 * f + 1) 0)] },
    { Wakeup.quiet with responses := [((h, 0), some sp)] }]

namespace Tendermint

section Polka

variable (π : Protocol P PH IH S I D)

/-- In the Prevote step of a started aggregation, 2f+1 prevotes for the first
    proposal of the round take `aggregate` to `on_polka`. -/
theorem aggregate_eq_of_prevote_polka {m : Tendermint P PH IH S I} {best : Aggregate PH} {h : PH}
    {entry : Option Nat × S} {rest : List (PH × Option Nat × S)}
    (prevote : m.state.currentStep = .prevote)
    (started : (m.state.currentRound, m.state.currentStep) ∈ m.aggregationSenders)
    (stored : findKey (m.state.currentRound, .prevote) m.state.bestVotes = some best)
    (enough : π.twoFPlusOne ≤ best.allContributors)
    (first : m.state.proposalsOf m.state.currentRound = (h, entry) :: rest)
    (polka : π.twoFPlusOne ≤ best.contributorsFor (some h)) :
    aggregate π m = (onPolka (m.state.touchRound m.state.currentRound) h).map
      (yieldState { m with state := m.state.touchRound m.state.currentRound }) := by
  have same : createAggregation m (m.state.currentRound, m.state.currentStep) = some m := by
    simp [createAggregation, started]
  have scan : scanProposals π best best.allContributors (h :: rest.map Prod.fst) false best.allContributors =
      some (.inl h) := by
    simp [scanProposals, Nat.not_lt.mpr polka]
  simp only [aggregate, same, Option.bind_eq_bind, Option.bind_some]
  simp [prevote, stored, Nat.not_lt.mpr enough, first, scan]

/-- `on_polka` locks on the proposal and leaves `valid` as it was. -/
theorem onPolka_locked {st st' : State P PH IH S I} {h : PH} (polka : onPolka st h = some st') :
    st'.locked = some (st.currentRound, h) ∧ st'.valid = st.valid := by
  unfold onPolka at polka
  split at polka
  · dsimp only at polka
    split at polka
    · cases polka
    · cases polka
      exact ⟨rfl, rfl⟩
  · cases polka
  · cases polka

end Polka

section Race

variable [LinearOrder PH] [DecidableEq IH] (π : Protocol P PH IH S I D)

theorem poll_locks_on_answer (sp : SignedProposalMessage P S) {inherent : I} (a b : Nat)
    (enough : π.twoFPlusOne ≤ a) (verifies : π.verifyProposal sp none = .ok inherent)
    (firstRound : sp.message.round = 0) :
    ∃ m', (pollNext π (roundZero .prevote [((0, .prevote), none)]
        [((0, .prevote), .split (π.proposalHash sp.message.proposal) a b)]
        [(π.proposalHash sp.message.proposal, 0)] [(0, .prevote)] none)
        { Wakeup.quiet with responses := [((π.proposalHash sp.message.proposal, 0), some sp)] }).map Prod.fst =
        some m' ∧ m'.state.locked = some (0, π.proposalHash sp.message.proposal) ∧ m'.state.valid = none := by
  simp [pollNext, Wakeup.quiet, processNextProposal, takeResponses, dispatchMessages,
    pollAggregations, runStateMachine, processProposal, verifies, firstRound, default, findKey, modifyKey, roundZero,
    insertKey, insertSorted]
  -- the answer makes the proposal the first of the round, and the stored prevotes a polka for it
  rw [aggregate_eq_of_prevote_polka π]
  case prevote => rfl
  case started => simp
  case stored => rfl
  case first => rfl
  case enough => simp [Aggregate.split]; omega
  case polka => simp [Aggregate.split, enough]
  simp [onPolka, yieldState, finishPoll, State.touchRound, findKey, modifyKey, insertKey]


theorem poll_next_locks_without_valid (sp : SignedProposalMessage P S) {inherent : I} (f : Nat)
    (two : π.twoFPlusOne = 2 * f + 1) (one : π.fPlusOne = f + 1) (notProposer : π.isProposer 0 = .ok false)
    (verifies : π.verifyProposal sp none = .ok inherent) (firstRound : sp.message.round = 0) :
    (∀ w ∈ prevoteRace (π.proposalHash sp.message.proposal) sp f, w.Admissible) ∧
      ∃ m, runPolls π (Tendermint.new default) (prevoteRace (π.proposalHash sp.message.proposal) sp f) = some m ∧
        m.state.locked = some (0, π.proposalHash sp.message.proposal) ∧ m.state.valid = none := by
  constructor
  · intro w mem
    simp only [prevoteRace, List.mem_cons, List.not_mem_nil, or_false] at mem
    rcases mem with rfl | rfl | rfl | rfl <;>
      simp [Wakeup.Admissible, Wakeup.quiet, Aggregate.split_wellFormed]
  · obtain ⟨m, answered, locked, valid⟩ :=
      poll_locks_on_answer π sp (2 * f + 1) 0 (by omega) verifies firstRound
    refine ⟨m, ?_, locked, valid⟩
    -- one poll lemma per wake-up; no aggregate comes in after the answer
    rw [prevoteRace, runPolls_cons_of_poll π _ (poll_arms_timer π notProposer),
      runPolls_cons_of_poll π _ (poll_prevotes_none π notProposer),
      runPolls_cons_of_poll π _ (poll_requests_unknown_proposal π _ (2 * f + 1) 0 (by omega) (by omega)),
      runPolls_cons_of_poll π _ answered]
    rfl

end Race

theorem four_validators_lock_without_valid :
    (∀ w ∈ prevoteRace 7 (⟨⟨0, none, 7⟩, ()⟩ : SignedProposalMessage Nat Unit) 1, w.Admissible) ∧
      ∃ m, runPolls lateProposalProtocol (Tendermint.new default) (prevoteRace 7 ⟨⟨0, none, 7⟩, ()⟩ 1) = some m ∧
        m.state.locked = some (0, 7) ∧ m.state.valid = none :=
  poll_next_locks_without_valid lateProposalProtocol ⟨⟨0, none, 7⟩, ()⟩ 1 rfl rfl rfl rfl rfl

end Tendermint

end Albatross
