import Albatross.Tendermint.LateProposal

/- One node's voting, apart from the rest of its state: its round and step, its
   votes and its lock. It moves in four ways: the Prevote of the round
   (`await_proposal`, `propose`), the Precommit (`on_polka`, which locks on the
   proposal, and `on_none_polka`), the next round (`on_none_polka` in Precommit),
   and the skip ahead of `dispatch_messages`, which votes None wherever the node
   has not voted in the rounds it passes. Every run of `poll_next` moves the voting
   only so, and from that follows where the node has voted and what it is locked on. -/
namespace Albatross

variable {P PH IH S I D : Type}

/-- The discriminant of `Step` (`#[repr(u8)]`), whose order the derived `Ord` follows. -/
def Step.toNat : Step → Nat
  | .propose => 0
  | .prevote => 1
  | .precommit => 2

/-- The derived order of `(u32, Step)`, by round and then by step. -/
def AtOrBefore (id point : Nat × Step) : Prop :=
  id.1 < point.1 ∨ id.1 = point.1 ∧ id.2.toNat ≤ point.2.toNat

instance (id point : Nat × Step) : Decidable (AtOrBefore id point) :=
  inferInstanceAs (Decidable (_ ∨ _))

theorem AtOrBefore.refl (point : Nat × Step) : AtOrBefore point point :=
  .inr ⟨rfl, le_rfl⟩

theorem AtOrBefore.trans {a b c : Nat × Step} (first : AtOrBefore a b) (second : AtOrBefore b c) :
    AtOrBefore a c := by
  unfold AtOrBefore at *
  omega

/-- Where and how the node has voted. -/
structure Voting (PH : Type) where
  round : Nat
  step : Step
  votes : List ((Nat × Step) × Option PH)
  locked : Option (Nat × PH)

namespace Voting

def point (b : Voting PH) : Nat × Step := (b.round, b.step)

/-- The moves of the node's voting. A vote is cast only where there is none. -/
inductive Move : Voting PH → Voting PH → Prop
  /-- the Prevote of the round, and the step to Prevote -/
  | prevote {b : Voting PH} (v : Option PH) (propose : b.step = .propose)
      (vacant : findKey (b.round, .prevote) b.votes = none) :
      Move b ⟨b.round, .prevote, insertKey (b.round, .prevote) v b.votes, b.locked⟩
  /-- the Precommit of the round, and the step to Precommit: one for a proposal locks on it -/
  | precommit {b : Voting PH} (v : Option PH) (prevote : b.step = .prevote)
      (vacant : findKey (b.round, .precommit) b.votes = none) :
      Move b ⟨b.round, .precommit, insertKey (b.round, .precommit) v b.votes, (v.map (b.round, ·)).or b.locked⟩
  /-- from the Precommit to the next round -/
  | nextRound {b : Voting PH} (precommit : b.step = .precommit) : Move b ⟨b.round + 1, .propose, b.votes, b.locked⟩
  /-- to the Propose of a later round, with None in each Prevote and Precommit of the
      rounds passed that has no vote -/
  | skip {b b' : Voting PH} (later : b.round < b'.round) (propose : b'.step = .propose)
      (locked : b'.locked = b.locked)
      (filled : ∀ id, findKey id b'.votes =
        (findKey id b.votes).or (if b.round ≤ id.1 ∧ id.1 < b'.round ∧ id.2 ≠ .propose then some none else none)) :
      Move b b'

/-- Where the node has voted and what it is locked on: in the Prevote and the
    Precommit of every round up to its point and nowhere else, and locked on its
    latest Precommit for a proposal ("Tendermint considers itself locked on a
    proposal whenever it is sending a precommit message for that proposal"). -/
structure Consistent (b : Voting PH) : Prop where
  placed : ∀ id, (findKey id b.votes).isSome ↔ id.2 ≠ .propose ∧ AtOrBefore id b.point
  backed : ∀ r h, b.locked = some (r, h) → findKey (r, .precommit) b.votes = some (some h)
  latest : ∀ r h, findKey (r, .precommit) b.votes = some (some h) → ∃ r' h', b.locked = some (r', h') ∧ r ≤ r'

theorem consistent_start : (⟨0, .propose, [], none⟩ : Voting PH).Consistent where
  placed := by
    rintro ⟨r, s⟩
    cases s <;> simp [point, AtOrBefore, Step.toNat]
  backed := by simp
  latest := by simp

theorem Move.atOrBefore {b b' : Voting PH} (move : Move b b') : AtOrBefore b.point b'.point := by
  cases move with
  | prevote _ propose => simp [point, AtOrBefore, propose, Step.toNat]
  | precommit _ prevote => simp [point, AtOrBefore, prevote, Step.toNat]
  | nextRound => simp [point, AtOrBefore]
  | skip later => exact .inl later

section Consistent

variable {b : Voting PH}

theorem placed_insert {k : Nat × Step} {point' : Nat × Step} (v : Option PH) (inv : b.Consistent)
    (here : k.2 ≠ .propose ∧ AtOrBefore k point')
    (elsewhere : ∀ id, id ≠ k → (id.2 ≠ .propose ∧ AtOrBefore id b.point ↔ id.2 ≠ .propose ∧ AtOrBefore id point')) :
    ∀ id, (findKey id (insertKey k v b.votes)).isSome ↔ id.2 ≠ .propose ∧ AtOrBefore id point' := by
  intro id
  rw [findKey_insertKey]
  split
  · rename_i same
    subst same
    simpa using here
  · rename_i other
    rw [inv.placed, elsewhere id other]

theorem Consistent.prevote (inv : b.Consistent) (v : Option PH) (propose : b.step = .propose) :
    (⟨b.round, .prevote, insertKey (b.round, .prevote) v b.votes, b.locked⟩ : Voting PH).Consistent where
  placed := by
    refine placed_insert v inv (by simp [point, AtOrBefore, Step.toNat]) ?_
    rintro ⟨r, s⟩ other
    simp only [point, propose]
    cases s <;> simp_all [AtOrBefore, Step.toNat]
  backed := by
    intro r h locked
    rw [findKey_insertKey, if_neg (by simp)]
    exact inv.backed r h locked
  latest := by
    intro r h cast
    rw [findKey_insertKey, if_neg (by simp)] at cast
    exact inv.latest r h cast

theorem Consistent.precommit (inv : b.Consistent) (v : Option PH) (prevote : b.step = .prevote)
    (vacant : findKey (b.round, .precommit) b.votes = none) :
    (⟨b.round, .precommit, insertKey (b.round, .precommit) v b.votes, (v.map (b.round, ·)).or b.locked⟩ :
      Voting PH).Consistent where
  placed := by
    refine placed_insert v inv (by simp [point, AtOrBefore, Step.toNat]) ?_
    rintro ⟨r, s⟩ other
    simp only [point, prevote]
    cases s <;> simp_all [AtOrBefore, Step.toNat]
  backed := by
    intro r h locked
    cases v with
    | some h' =>
      obtain ⟨rfl, rfl⟩ : b.round = r ∧ h' = h := by simpa using locked
      simp
    | none =>
      have old := inv.backed r h (by simpa using locked)
      -- the lock is older than this round's Precommit, which had no vote
      have other : r ≠ b.round := by
        rintro rfl
        simp [vacant] at old
      rw [findKey_insertKey, if_neg (by simp [other])]
      exact old
  latest := by
    intro r h cast
    rw [findKey_insertKey] at cast
    split at cast
    · rename_i here
      obtain ⟨rfl, -⟩ := Prod.mk.inj here
      obtain rfl : v = some h := Option.some.inj cast
      exact ⟨_, h, rfl, le_rfl⟩
    · obtain ⟨r', h', locked, below⟩ := inv.latest r h cast
      cases v with
      | none => exact ⟨r', h', by simpa using locked, below⟩
      | some h'' =>
        -- every earlier Precommit is of an earlier round
        have earlier := (inv.placed (r, .precommit)).mp (by simp [cast])
        simp only [point, prevote, AtOrBefore, Step.toNat] at earlier
        exact ⟨b.round, h'', rfl, by omega⟩

theorem Consistent.nextRound (inv : b.Consistent) (precommit : b.step = .precommit) :
    (⟨b.round + 1, .propose, b.votes, b.locked⟩ : Voting PH).Consistent where
  placed := by
    rintro ⟨r, s⟩
    rw [inv.placed, point, point, precommit]
    cases s <;> simp [AtOrBefore, Step.toNat] <;> omega
  backed := inv.backed
  latest := inv.latest

theorem Consistent.skip {b' : Voting PH} (inv : b.Consistent) (later : b.round < b'.round)
    (propose : b'.step = .propose) (locked : b'.locked = b.locked)
    (filled : ∀ id, findKey id b'.votes =
      (findKey id b.votes).or (if b.round ≤ id.1 ∧ id.1 < b'.round ∧ id.2 ≠ .propose then some none else none)) :
    b'.Consistent where
  placed := by
    rintro ⟨r, s⟩
    rw [filled, Option.isSome_or, Bool.or_eq_true, inv.placed, point, point, propose]
    -- the rounds before the old point were voted in, and those passed are now
    have bounded : b.step.toNat ≤ 2 := by cases b.step <;> simp [Step.toNat]
    cases s <;> split <;> simp_all [AtOrBefore, Step.toNat] <;> omega
  backed := by
    intro r h isLocked
    rw [filled, inv.backed r h (locked ▸ isLocked), Option.some_or]
  latest := by
    intro r h cast
    rw [filled, Option.or_eq_some_iff] at cast
    rcases cast with old | ⟨-, fill⟩
    · rw [locked]
      exact inv.latest r h old
    · -- what the skip fills in is None
      split at fill <;> simp at fill

theorem Move.consistent {b' : Voting PH} (move : Move b b') (inv : b.Consistent) : b'.Consistent := by
  cases move with
  | prevote v propose => exact inv.prevote v propose
  | precommit v prevote vacant => exact inv.precommit v prevote vacant
  | nextRound precommit => exact inv.nextRound precommit
  | skip later propose locked filled => exact inv.skip later propose locked filled

theorem consistent_of_moves {b' : Voting PH} (moves : Relation.ReflTransGen Move b b') (inv : b.Consistent) :
    b'.Consistent := by
  induction moves with
  | refl => exact inv
  | tail _ move ih => exact move.consistent ih

theorem atOrBefore_of_moves {b' : Voting PH} (moves : Relation.ReflTransGen Move b b') :
    AtOrBefore b.point b'.point := by
  induction moves with
  | refl => exact .refl _
  | tail _ move ih => exact ih.trans move.atOrBefore

end Consistent

end Voting

namespace State

def voting (st : State P PH IH S I) : Voting PH := ⟨st.currentRound, st.currentStep, st.votes, st.locked⟩

@[simp] theorem touchRound_voting (st : State P PH IH S I) (r : Nat) : (st.touchRound r).voting = st.voting := rfl

theorem default_consistent : (default : State P PH IH S I).voting.Consistent := Voting.consistent_start

theorem prevote_move {st : State P PH IH S I} (v : Option PH) (propose : st.currentStep = .propose)
    (vacant : findKey (st.currentRound, .prevote) st.votes = none) : Voting.Move st.voting (st.prevote v).voting :=
  .prevote v propose vacant

end State

namespace Tendermint

section Frame

theorem voteNoneIfVacant_findKey (m : Tendermint P PH IH S I) (id j : Nat × Step) :
    findKey j (voteNoneIfVacant m id).state.votes =
      (findKey j m.state.votes).or (if j = id then some none else none) := by
  unfold voteNoneIfVacant
  by_cases here : j = id
  · subst here
    split
    · rename_i cast
      obtain ⟨v, found⟩ := Option.isSome_iff_exists.mp cast
      simp [found]
    · rename_i vacant
      simp [Option.not_isSome_iff_eq_none.mp vacant]
  · split
    · simp
    · simp [findKey_insertKey, here]

theorem voteNoneIfVacant_state (m : Tendermint P PH IH S I) (id : Nat × Step) :
    ∃ votes, (voteNoneIfVacant m id).state = { m.state with votes := votes } := by
  unfold voteNoneIfVacant
  split
  · exact ⟨m.state.votes, rfl⟩
  · exact ⟨_, rfl⟩

/-- The loop of the skip ahead over the rounds passed: each Prevote and Precommit of
    them without a vote gets None, and nothing else of the state changes. -/
theorem voteNoneThrough (rounds : List Nat) (m : Tendermint P PH IH S I) :
    ∃ votes, (rounds.foldl (fun m r => voteNoneIfVacant (voteNoneIfVacant m (r, .prevote)) (r, .precommit)) m).state =
        { m.state with votes := votes } ∧
      ∀ j, findKey j votes = (findKey j m.state.votes).or (if j.1 ∈ rounds ∧ j.2 ≠ .propose then some none else none) := by
  induction rounds generalizing m with
  | nil => exact ⟨m.state.votes, rfl, fun j => by simp⟩
  | cons r rest ih =>
    obtain ⟨votes, folded, filled⟩ := ih (voteNoneIfVacant (voteNoneIfVacant m (r, .prevote)) (r, .precommit))
    obtain ⟨v₁, first⟩ := voteNoneIfVacant_state m (r, .prevote)
    obtain ⟨v₂, second⟩ := voteNoneIfVacant_state (voteNoneIfVacant m (r, .prevote)) (r, .precommit)
    refine ⟨votes, by rw [List.foldl_cons, folded, second, first], fun j => ?_⟩
    rw [filled, voteNoneIfVacant_findKey, voteNoneIfVacant_findKey, Option.or_assoc, Option.or_assoc]
    congr 1
    -- the round's two votes, then those of the later rounds
    obtain ⟨i, s⟩ := j
    by_cases same : i = r
    · subst same
      cases s <;> simp
    · cases s <;> simp [same]

theorem skipAhead_move (m : Tendermint P PH IH S I) {round : Nat} (later : m.state.currentRound < round) :
    Voting.Move m.state.voting (skipAhead m round).state.voting := by
  obtain ⟨votes, folded, filled⟩ := voteNoneThrough (List.range' m.state.currentRound (round - m.state.currentRound)) m
  have skipped : (skipAhead m round).state.voting = ⟨round, .propose, votes, m.state.locked⟩ := by
    simp only [skipAhead, folded]
    rfl
  rw [skipped]
  refine .skip later rfl rfl fun j => ?_
  rw [filled]
  -- the rounds passed are those from the current one up to the later one
  have passed : j.1 ∈ List.range' m.state.currentRound (round - m.state.currentRound) ↔
      m.state.currentRound ≤ j.1 ∧ j.1 < round := by
    rw [List.mem_range'_1]
    omega
  exact congrArg _ (if_congr (by rw [passed, and_assoc]; exact Iff.rfl) rfl rfl)

theorem startAggregations_state {m m' : Tendermint P PH IH S I} (started : startAggregations m = some m') :
    m'.state = m.state := by
  unfold startAggregations at started
  -- each aggregation started leaves the state as it is
  suffices each : ∀ (ids : List (Nat × Step)) (m : Tendermint P PH IH S I),
      ids.foldlM createAggregation m = some m' → m'.state = m.state by
    rw [each _ _ started]
  intro ids
  induction ids with
  | nil =>
    intro m done
    cases done
    rfl
  | cons id rest ih =>
    intro m run
    obtain ⟨m₁, first, next⟩ := Option.bind_eq_some_iff.mp run
    rw [ih m₁ next, createAggregation_state first]

theorem dispatchMessages_moves (m : Tendermint P PH IH S I) (flag : Bool) (skipTo : Option UInt32) :
    Relation.ReflTransGen Voting.Move m.state.voting (dispatchMessages m flag skipTo).1.state.voting := by
  cases skipTo with
  | none => exact .refl
  | some round =>
    simp only [dispatchMessages]
    split
    · rename_i later
      exact .single (skipAhead_move m later)
    · exact .refl

end Frame

section Moves

variable [LinearOrder PH] [DecidableEq IH] (π : Protocol P PH IH S I D)

theorem processProposal_voting {m m' : Tendermint P PH IH S I} {sp : SignedProposalMessage P S} {h : Option PH}
    (processed : processProposal π m sp = some (m', h)) : m'.state.voting = m.state.voting := by
  unfold processProposal at processed
  obtain ⟨verified, found, done⟩ := Option.map_eq_some_iff.mp processed
  cases verified with
  | none =>
    cases done
    rfl
  | some st =>
    cases done
    -- a proposal that verifies adds to the inherents and the known proposals only
    show st.voting = m.state.voting
    repeat' split at found
    all_goals cases found
    all_goals rfl

theorem processNextProposal_voting {m m' : Tendermint P PH IH S I} {gossip : Option (SignedProposalMessage P S)}
    {r : Option (Return P PH IH S I D)} (processed : processNextProposal π m gossip = some (m', r)) :
    m'.state.voting = m.state.voting := by
  cases gossip with
  | none =>
    cases processed
    rfl
  | some sp =>
    simp only [processNextProposal] at processed
    split at processed
    · obtain ⟨⟨m'', h⟩, answer, done⟩ := Option.map_eq_some_iff.mp processed
      have kept := processProposal_voting π answer
      cases h <;> cases done <;> exact kept
    · cases processed
      rfl

theorem takeResponses_voting {m m' : Tendermint P PH IH S I} {flag flag' : Bool}
    (responses : List ((PH × Nat) × Option (SignedProposalMessage P S)))
    (taken : takeResponses π m flag responses = some (m', flag')) : m'.state.voting = m.state.voting := by
  induction responses generalizing m flag with
  | nil =>
    cases taken
    rfl
  | cons response rest ih =>
    obtain ⟨id, answer⟩ := response
    simp only [takeResponses] at taken
    split at taken
    · exact ih taken
    · cases answer with
      | none =>
        dsimp only at taken
        rw [ih taken]
      | some sp =>
        obtain ⟨⟨m₁, h⟩, processed, next⟩ := Option.bind_eq_some_iff.mp taken
        rw [ih next, processProposal_voting π processed]

theorem takePolka_voting (best : Aggregate PH) (roundAndStep : Nat × Step) (h : PH)
    {m m' : Tendermint P PH IH S I} {d : Option D} (taken : takePolka π best roundAndStep h m = some (m', d)) :
    m'.state.voting = m.state.voting := by
  -- a polka raises `valid`, and nothing else of the voting
  unfold takePolka at taken
  split at taken
  · split at taken
    · cases taken
      rfl
    · obtain ⟨_, -, found⟩ := Option.map_eq_some_iff.mp taken
      cases found
      rfl
    · cases taken
  · cases taken
    rfl

omit [DecidableEq IH] in
theorem requestProposal_state (m : Tendermint P PH IH S I) (id : PH × Nat) :
    (requestProposal m id).state = m.state := by
  unfold requestProposal
  split <;> rfl

theorem checkProposals_voting (best : Aggregate PH) (roundAndStep : Nat × Step) (proposals : List (PH × Nat))
    {m m' : Tendermint P PH IH S I} {d : Option D}
    (checked : checkProposals π best roundAndStep proposals m = some (m', d)) : m'.state.voting = m.state.voting := by
  induction proposals generalizing m with
  | nil =>
    cases checked
    rfl
  | cons p rest ih =>
    obtain ⟨h, count⟩ := p
    obtain ⟨⟨m₁, decision⟩, polka, next⟩ := Option.bind_eq_some_iff.mp checked
    have same : m₁.state.voting = m.state.voting := by
      split at polka
      · exact takePolka_voting π best roundAndStep h polka
      · cases polka
        rfl
    cases decision with
    | some _ =>
      cases next
      exact same
    | none =>
      dsimp only at next
      split at next
      · split at next
        · cases next
        · split at next
          · rw [ih next, requestProposal_state, same]
          · rw [ih next, same]
      · rw [ih next, same]

omit [LinearOrder PH] [DecidableEq IH] in
theorem keepBest_voting (m : Tendermint P PH IH S I) (flag : Bool) (roundAndStep : Nat × Step) (agg : Aggregate PH) :
    (keepBest m flag roundAndStep agg).1.state.voting = m.state.voting := by
  unfold keepBest
  split
  · split <;> rfl
  · rfl

theorem pollAggregations_voting {m m' : Tendermint P PH IH S I} {flag flag' : Bool} {d : Option D}
    (items : List ((Nat × Step) × Aggregate PH))
    (polled : pollAggregations π m flag items = some (m', flag', d)) : m'.state.voting = m.state.voting := by
  induction items generalizing m flag with
  | nil =>
    cases polled
    rfl
  | cons item rest ih =>
    obtain ⟨roundAndStep, agg⟩ := item
    simp only [pollAggregations] at polled
    split at polled
    · exact ih polled
    · split at polled
      · cases polled
      · rename_i checked
        cases polled
        rw [checkProposals_voting π _ _ _ checked, keepBest_voting]
      · rename_i checked
        rw [ih polled, checkProposals_voting π _ _ _ checked, keepBest_voting]

omit [LinearOrder PH] [DecidableEq IH] in
theorem moves_of_yield {b : Voting PH} {m m' : Tendermint P PH IH S I} {st : State P PH IH S I}
    {r : Option (Return P PH IH S I D)} (moved : Relation.ReflTransGen Voting.Move b st.voting)
    (yielded : (yieldState m st : Tendermint P PH IH S I × _) = (m', r)) :
    Relation.ReflTransGen Voting.Move b m'.state.voting := by
  simp only [yieldState, Prod.mk.injEq] at yielded
  rw [← yielded.1]
  exact moved

omit [LinearOrder PH] [DecidableEq IH] in
/-- A state the machine yields, if a step gives one, where every state the step
    gives is reached by moves. -/
theorem moves_of_map_yield {b : Voting PH} {m m' : Tendermint P PH IH S I} {o : Option (State P PH IH S I)}
    {r : Option (Return P PH IH S I D)} (moved : ∀ st, o = some st → Relation.ReflTransGen Voting.Move b st.voting)
    (yielded : o.map (yieldState m) = some (m', r)) : Relation.ReflTransGen Voting.Move b m'.state.voting := by
  obtain ⟨st, found, done⟩ := Option.map_eq_some_iff.mp yielded
  exact moves_of_yield (moved st found) done

omit [LinearOrder PH] [DecidableEq IH] in
theorem onPolka_move {st st' : State P PH IH S I} {h : PH} (polka : onPolka st h = some st') :
    Voting.Move st.voting st'.voting := by
  unfold onPolka at polka
  split at polka
  · rename_i prevote
    dsimp only at polka
    split at polka
    · cases polka
    · rename_i vacant
      cases polka
      exact .precommit (some h) prevote (Option.not_isSome_iff_eq_none.mp vacant)
  · cases polka
  · cases polka

omit [LinearOrder PH] [DecidableEq IH] in
theorem onNonePolka_move {st st' : State P PH IH S I} (polka : onNonePolka st = some st') :
    Voting.Move st.voting st'.voting := by
  unfold onNonePolka at polka
  split at polka
  · rename_i prevote
    dsimp only at polka
    split at polka
    · cases polka
    · rename_i vacant
      cases polka
      exact .precommit none prevote (Option.not_isSome_iff_eq_none.mp vacant)
  · rename_i precommit
    split at polka
    · cases polka
      exact .nextRound precommit
    · cases polka
  · cases polka

omit [DecidableEq IH] in
theorem awaitProposal_moves {m m' : Tendermint P PH IH S I} {r : Option (Return P PH IH S I D)}
    (propose : m.state.currentStep = .propose) (awaited : awaitProposal π m = some (m', r)) :
    Relation.ReflTransGen Voting.Move m.state.voting m'.state.voting := by
  unfold awaitProposal at awaited
  simp only [startTimeout_state] at awaited
  split at awaited
  · cases awaited
  · rename_i vacant
    -- the Prevote, if one is cast, is cast where the assert found none
    have prevote (v : Option PH) : Relation.ReflTransGen Voting.Move m.state.voting
        ((m.state.touchRound m.state.currentRound).prevote v).voting :=
      .single (State.prevote_move v propose (Option.not_isSome_iff_eq_none.mp vacant))
    split at awaited
    · exact moves_of_yield (prevote _) (Option.some.inj awaited)
    · exact moves_of_yield (prevote _) (Option.some.inj awaited)
    · split at awaited
      · exact moves_of_yield (prevote _) (Option.some.inj awaited)
      · cases awaited
        exact .refl

theorem propose_moves {m m' : Tendermint P PH IH S I} {r : Return P PH IH S I D}
    (propose : m.state.currentStep = .propose) (proposed : Tendermint.propose π m = some (.ok (m', r))) :
    Relation.ReflTransGen Voting.Move m.state.voting m'.state.voting := by
  unfold Tendermint.propose at proposed
  dsimp only at proposed
  split at proposed
  · -- the round's proposal is broadcast and voted on in the Prevote
    split at proposed
    · cases proposed
    · split at proposed
      · cases proposed
      · rename_i vacant
        cases proposed
        exact .single (.prevote _ propose (Option.not_isSome_iff_eq_none.mp vacant))
  · -- a proposal is set, and nothing voted
    split at proposed
    · split at proposed
      · cases proposed
      · cases proposed
        exact .refl
    · split at proposed
      · cases proposed
      · cases proposed
        exact .refl

omit [LinearOrder PH] [DecidableEq IH] in
theorem aggregate_moves {m m' : Tendermint P PH IH S I} {r : Option (Return P PH IH S I D)}
    (aggregated : aggregate π m = some (m', r)) : Relation.ReflTransGen Voting.Move m.state.voting m'.state.voting := by
  unfold aggregate at aggregated
  obtain ⟨m₁, started, next⟩ := Option.bind_eq_some_iff.mp aggregated
  have same : m₁.state.voting = m.state.voting := by rw [createAggregation_state started]
  -- the aggregation started and the round touched, only a polka moves the voting
  have touched : (m₁.state.touchRound m₁.state.currentRound).voting = m.state.voting := by
    rw [State.touchRound_voting, same]
  have polka {st : State P PH IH S I} (move : Voting.Move (m₁.state.touchRound m₁.state.currentRound).voting st.voting) :
      Relation.ReflTransGen Voting.Move m.state.voting st.voting :=
    .single (touched ▸ move)
  split at next
  · cases next
    rw [same]
  · dsimp only at next
    split at next
    · cases next
      rw [same]
    · obtain ⟨scan, -, decided⟩ := Option.bind_eq_some_iff.mp next
      split at decided
      · exact moves_of_map_yield (fun _ moved => polka (onPolka_move moved)) decided
      · split at decided
        · exact moves_of_map_yield (fun _ moved => polka (onNonePolka_move moved)) decided
        · split at decided
          · cases decided
          · split at decided
            · exact moves_of_map_yield (fun _ moved => polka (onNonePolka_move moved)) decided
            · split at decided
              · exact moves_of_map_yield (fun _ moved => polka (onNonePolka_move (by simpa using moved))) decided
              · cases decided
                rw [startTimeout_state, State.touchRound_voting, same]

theorem runStateMachine_moves {m m' : Tendermint P PH IH S I} {r : Option (Return P PH IH S I D)}
    (ran : runStateMachine π m = some (.ok (m', r))) :
    Relation.ReflTransGen Voting.Move m.state.voting m'.state.voting := by
  unfold runStateMachine at ran
  split at ran
  · rename_i propose
    split at ran
    · cases ran
    · obtain ⟨result, proposed, mapped⟩ := Option.map_eq_some_iff.mp ran
      cases result with
      | error => cases mapped
      | ok pair =>
        simp only [Except.map, Except.ok.injEq, Prod.mk.injEq] at mapped
        rw [← mapped.1]
        exact propose_moves π propose proposed
    · obtain ⟨pair, awaited, mapped⟩ := Option.map_eq_some_iff.mp ran
      cases mapped
      exact awaitProposal_moves π propose awaited
  all_goals
    obtain ⟨pair, aggregated, mapped⟩ := Option.map_eq_some_iff.mp ran
    cases mapped
    exact aggregate_moves π aggregated

/-- The end of a poll moves no vote: the machine it returns has the voting of the
    one before the state machine, or of the one the state machine left. -/
theorem finishPoll_voting {m₀ m' : Tendermint P PH IH S I} {flag : Bool}
    {late : List ((Nat × Step) × Aggregate PH)} {r : PollResult P PH IH S I D}
    {result : Except ProtocolError (Tendermint P PH IH S I × Option (Return P PH IH S I D))}
    (finished : finishPoll π m₀ flag late result = some (m', r)) :
    m'.state.voting = m₀.state.voting ∨ ∃ m₁ x, result = .ok (m₁, x) ∧ m'.state.voting = m₁.state.voting := by
  unfold finishPoll at finished
  split at finished
  · cases finished
    exact .inl rfl
  · rename_i m₁ ret
    right
    refine ⟨m₁, some ret, rfl, ?_⟩
    split at finished <;> cases finished <;> rfl
  · rename_i m₁
    right
    refine ⟨m₁, none, rfl, ?_⟩
    split at finished
    · cases finished
      rfl
    · obtain ⟨m₂, started, next⟩ := Option.bind_eq_some_iff.mp finished
      -- starting aggregations and polling them again leave the voting as it is
      have after : m₂.state.voting = m₁.state.voting := by rw [startAggregations_state started]
      dsimp only at next
      split at next
      · obtain ⟨⟨m₃, flag₃, decision⟩, polled, last⟩ := Option.bind_eq_some_iff.mp next
        have again : m₃.state.voting = m₁.state.voting := (pollAggregations_voting π late polled).trans after
        cases decision with
        | some _ =>
          cases last
          exact again
        | none =>
          dsimp only at last
          split at last <;> cases last <;> exact again
      · cases next
        exact after

/-- One poll moves the voting only by the moves of the protocol: at most a skip
    ahead and then one move of the state machine. -/
theorem pollNext_moves {m m' : Tendermint P PH IH S I} {w : Wakeup P PH S} {r : PollResult P PH IH S I D}
    (polled : pollNext π m w = some (m', r)) : Relation.ReflTransGen Voting.Move m.state.voting m'.state.voting := by
  unfold pollNext at polled
  split at polled
  · cases polled
    exact .refl
  · dsimp only at polled
    obtain ⟨⟨m₁, gossiped⟩, processed, next⟩ := Option.bind_eq_some_iff.mp polled
    have first : m₁.state.voting = m.state.voting := by
      rw [processNextProposal_voting π processed]
    cases gossiped with
    | some _ =>
      cases next
      rw [first]
    | none =>
      obtain ⟨⟨m₂, flag₂⟩, taken, next⟩ := Option.bind_eq_some_iff.mp next
      have answered : m₂.state.voting = m.state.voting := (takeResponses_voting π _ taken).trans first
      have dispatched := answered ▸ dispatchMessages_moves m₂ flag₂ w.skipTo
      generalize dispatchMessages m₂ flag₂ w.skipTo = d at next dispatched
      obtain ⟨m₃, flag₃⟩ := d
      obtain ⟨⟨m₄, flag₄, decision⟩, aggregated, next⟩ := Option.bind_eq_some_iff.mp next
      have polledAgain : Relation.ReflTransGen Voting.Move m.state.voting m₄.state.voting :=
        (pollAggregations_voting π _ aggregated) ▸ dispatched
      cases decision with
      | some _ =>
        cases next
        exact polledAgain
      | none =>
        obtain ⟨result, ran, finished⟩ := Option.bind_eq_some_iff.mp next
        rcases finishPoll_voting π finished with same | ⟨m₅, x, rfl, left⟩
        · exact same ▸ polledAgain
        · exact left ▸ polledAgain.trans (runStateMachine_moves π ran)

/-- Every run of polls, whatever wakes each one, moves the node's voting only by
    the moves of the protocol. -/
theorem runPolls_refines_voting {m m' : Tendermint P PH IH S I} (ws : List (Wakeup P PH S))
    (ran : runPolls π m ws = some m') : Relation.ReflTransGen Voting.Move m.state.voting m'.state.voting := by
  induction ws generalizing m with
  | nil =>
    cases ran
    exact .refl
  | cons w rest ih =>
    obtain ⟨⟨m₁, r⟩, polled, next⟩ := Option.bind_eq_some_iff.mp ran
    exact (pollNext_moves π polled).trans (ih next)

/-- Over every run of polls, the node's votes stay exactly at the Prevotes and the
    Precommits up to its point, which never moves back, and its lock stays on its
    latest Precommit for a proposal. -/
theorem runPolls_voting_consistent {m m' : Tendermint P PH IH S I} (ws : List (Wakeup P PH S))
    (ran : runPolls π m ws = some m') (inv : m.state.voting.Consistent) :
    m'.state.voting.Consistent ∧ AtOrBefore m.state.voting.point m'.state.voting.point := by
  induction ws generalizing m with
  | nil =>
    cases ran
    exact ⟨inv, .refl _⟩
  | cons w rest ih =>
    obtain ⟨⟨m₁, r⟩, polled, next⟩ := Option.bind_eq_some_iff.mp ran
    have moved := pollNext_moves π polled
    obtain ⟨consistent, later⟩ := ih next (Voting.consistent_of_moves moved inv)
    exact ⟨consistent, (Voting.atOrBefore_of_moves moved).trans later⟩

end Moves

/-- Round 0 of a node that is not its proposer and sees no proposal: it prevotes
    None at the proposal timeout, sees split prevotes, and precommits None at the
    next timeout. -/
def timedOutRound : List (Wakeup Nat Nat Unit) :=
  [Wakeup.quiet,
    { Wakeup.quiet with timeoutElapsed := true },
    { Wakeup.quiet with lateAggregates := [((0, .prevote), .split 7 2 1)] },
    Wakeup.quiet,
    { Wakeup.quiet with timeoutElapsed := true }]

theorem timed_out_round_moves :
    runPolls lateProposalProtocol (Tendermint.new default) timedOutRound =
        some (roundZero .precommit [((0, .prevote), none), ((0, .precommit), none)] [((0, .prevote), .split 7 2 1)]
          [(7, 0)] [(0, .prevote)] none) ∧
      Relation.ReflTransGen Voting.Move (Tendermint.new (default : State Nat Nat Nat Unit Nat)).state.voting
        (roundZero .precommit [((0, .prevote), none), ((0, .precommit), none)] [((0, .prevote), .split 7 2 1)]
          [(7, 0)] [(0, .prevote)] none : Tendermint Nat Nat Nat Unit Nat).state.voting := by
  have run : runPolls lateProposalProtocol (Tendermint.new default) timedOutRound =
      some (roundZero .precommit [((0, .prevote), none), ((0, .precommit), none)] [((0, .prevote), .split 7 2 1)]
        [(7, 0)] [(0, .prevote)] none) := by
    rfl
  exact ⟨run, runPolls_refines_voting lateProposalProtocol timedOutRound run⟩

theorem timed_out_round_consistent :
    runPolls lateProposalProtocol (Tendermint.new default) timedOutRound =
        some (roundZero .precommit [((0, .prevote), none), ((0, .precommit), none)] [((0, .prevote), .split 7 2 1)]
          [(7, 0)] [(0, .prevote)] none) ∧
      (Tendermint.new (default : State Nat Nat Nat Unit Nat)).state.voting.Consistent ∧
      (roundZero .precommit [((0, .prevote), none), ((0, .precommit), none)] [((0, .prevote), .split 7 2 1)]
          [(7, 0)] [(0, .prevote)] none : Tendermint Nat Nat Nat Unit Nat).state.voting.Consistent ∧
      AtOrBefore (Tendermint.new (default : State Nat Nat Nat Unit Nat)).state.voting.point
        (roundZero .precommit [((0, .prevote), none), ((0, .precommit), none)] [((0, .prevote), .split 7 2 1)]
          [(7, 0)] [(0, .prevote)] none : Tendermint Nat Nat Nat Unit Nat).state.voting.point := by
  have run : runPolls lateProposalProtocol (Tendermint.new default) timedOutRound =
      some (roundZero .precommit [((0, .prevote), none), ((0, .precommit), none)] [((0, .prevote), .split 7 2 1)]
        [(7, 0)] [(0, .prevote)] none) := by
    rfl
  exact ⟨run, State.default_consistent,
    runPolls_voting_consistent lateProposalProtocol timedOutRound run State.default_consistent⟩

end Tendermint

end Albatross
