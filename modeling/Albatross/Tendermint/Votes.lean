import Albatross.Tendermint.Voting

/- A node never changes a vote it has cast. Every move of its voting casts a vote
   only where there is none, and nothing else writes `votes` (Voting.lean). So
   from any machine and under any sequence of wake-ups, a run that does not panic
   keeps every vote already cast, for the same proposal: the node does not
   equivocate. -/
namespace Albatross

variable {P PH IH S I D : Type}

/-- Every vote cast in `st` is still cast in `st'`, for the same proposal. -/
def State.KeepsVotes (st st' : State P PH IH S I) : Prop :=
  ∀ id v, findKey id st.votes = some v → findKey id st'.votes = some v

namespace Voting

theorem Move.keeps_votes {b b' : Voting PH} (move : Move b b') {id : Nat × Step} {v : Option PH}
    (cast : findKey id b.votes = some v) : findKey id b'.votes = some v := by
  cases move with
  | prevote w propose vacant =>
    have other : (b.round, Step.prevote) ≠ id := by
      rintro rfl
      simp [vacant] at cast
    rw [findKey_insertKey_of_ne other]
    exact cast
  | precommit w prevote vacant =>
    have other : (b.round, Step.precommit) ≠ id := by
      rintro rfl
      simp [vacant] at cast
    rw [findKey_insertKey_of_ne other]
    exact cast
  | nextRound => exact cast
  | skip later propose locked filled => rw [filled, cast, Option.some_or]

theorem keeps_votes_of_moves {b b' : Voting PH} (moves : Relation.ReflTransGen Move b b') {id : Nat × Step}
    {v : Option PH} (cast : findKey id b.votes = some v) : findKey id b'.votes = some v := by
  induction moves with
  | refl => exact cast
  | tail _ move ih => exact move.keeps_votes ih

end Voting

namespace Tendermint

section Votes

variable [LinearOrder PH] [DecidableEq IH] (π : Protocol P PH IH S I D)

/-- Over any run of polls, whatever each one is woken by, a vote once cast is never
    changed: the node does not equivocate. -/
theorem runPolls_keeps_votes {m m' : Tendermint P PH IH S I} (ws : List (Wakeup P PH S))
    (ran : runPolls π m ws = some m') : m.state.KeepsVotes m'.state :=
  fun _ _ cast => Voting.keeps_votes_of_moves (runPolls_refines_voting π ws ran) cast

end Votes

theorem votes_kept_through_none_polka :
    (roundZero .prevote [((0, .prevote), none)] [] [] [] none : Tendermint Nat Nat Nat Unit Nat).state.KeepsVotes
      (roundZero .precommit [((0, .prevote), none), ((0, .precommit), none)] [((0, .prevote), .split 7 2 1)]
        [(7, 0)] [(0, .prevote)] none).state :=
  runPolls_keeps_votes lateProposalProtocol
    [{ Wakeup.quiet with lateAggregates := [((0, .prevote), .split 7 2 1)] }, Wakeup.quiet,
      { Wakeup.quiet with timeoutElapsed := true }] (by rfl)

end Tendermint

end Albatross
