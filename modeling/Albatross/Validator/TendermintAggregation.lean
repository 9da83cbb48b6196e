import Mathlib.Data.Finset.Card
import Albatross.Handel.Aggregation
import Albatross.Handel.Store
import Albatross.Validator.Registry
import Albatross.Tendermint.Votes
import Albatross.Policy

/- The aggregations a validator gives its Tendermint instance (`create_aggregation`
   of validator/src/tendermint.rs): Handel streams of `TendermintContribution`s
   (validator/src/aggregation/tendermint/contribution.rs) whose protocol counts an
   aggregate complete once every slot signed or one vote has 2f+1 signers
   (protocol.rs). A multisignature is kept by its signers, the slots set in its
   `BitSet`. Tendermint reads a contribution through its `Aggregation` trait, which
   is `toAggregate`. -/
namespace Albatross

/-- `TendermintContribution`: the signers of each vote, a proposal hash or none, in
    a `BTreeMap`, whose keys are distinct. -/
structure TendermintContribution (PH : Type) where
  contributions : List (Option PH × Finset Nat)
  distinct : (contributions.map Prod.fst).Nodup

namespace TendermintContribution

variable {PH : Type} [DecidableEq PH] (c : TendermintContribution PH)

def contributors : Finset Nat :=
  c.contributions.foldl (fun aggregatedSet multiSig => aggregatedSet ∪ multiSig.2) ∅

def allContributors : Finset Nat := c.contributors

def contributorsFor (vote : Option PH) : Finset Nat :=
  (findKey vote c.contributions).getD ∅

def proposals : List (PH × Nat) :=
  c.contributions.filterMap fun (hashOpt, sig) => hashOpt.map fun hash => (hash, sig.card)

/-- The contribution as the `Aggregation` trait gives it to Tendermint. -/
def toAggregate : Aggregate PH :=
  ⟨c.allContributors.card, fun vote => (c.contributorsFor vote).card, c.proposals⟩

/-- The `is_complete` closure of `TendermintAggregationProtocol::new`. -/
def isComplete : Bool :=
  c.allContributors.card == Policy.SLOTS ||
    c.contributions.any fun (_, sig) => Policy.TWO_F_PLUS_ONE ≤ sig.card

omit [DecidableEq PH] in
theorem mem_foldl_union {x : Nat} (entries : List (Option PH × Finset Nat)) (acc : Finset Nat) :
    x ∈ entries.foldl (fun aggregatedSet multiSig => aggregatedSet ∪ multiSig.2) acc ↔
      x ∈ acc ∨ ∃ e ∈ entries, x ∈ e.2 := by
  induction entries generalizing acc with
  | nil => simp
  | cons e rest ih => simp [ih, or_assoc]

omit [DecidableEq PH] in
theorem mem_contributors {x : Nat} : x ∈ c.contributors ↔ ∃ e ∈ c.contributions, x ∈ e.2 := by
  simp [contributors, mem_foldl_union]

omit [DecidableEq PH] in
theorem entry_subset_contributors {e : Option PH × Finset Nat} (mem : e ∈ c.contributions) :
    e.2 ⊆ c.contributors :=
  fun _ signed => c.mem_contributors.mpr ⟨e, mem, signed⟩

omit [DecidableEq PH] in
theorem mem_proposals {p : PH × Nat} (mem : p ∈ c.proposals) :
    ∃ sig, (some p.1, sig) ∈ c.contributions ∧ p.2 = sig.card := by
  obtain ⟨⟨hashOpt, sig⟩, entry, found⟩ := List.mem_filterMap.mp mem
  obtain ⟨hash, rfl, rfl⟩ := Option.map_eq_some_iff.mp found
  exact ⟨sig, entry, rfl⟩

theorem isComplete_of_conclusive {vote : Option PH}
    (conclusive : Policy.TWO_F_PLUS_ONE ≤ (c.contributorsFor vote).card) : c.isComplete = true := by
  cases found : findKey vote c.contributions with
  | none => simp [contributorsFor, found, Policy.two_f_plus_one_eq] at conclusive
  | some sig =>
    simp only [contributorsFor, found, Option.getD_some] at conclusive
    simp only [isComplete, Bool.or_eq_true, List.any_eq_true, decide_eq_true_eq]
    exact .inr ⟨_, mem_of_findKey_eq_some found, conclusive⟩

omit [DecidableEq PH] in
theorem entry_card_lt_of_incomplete (incomplete : c.isComplete = false) {e : Option PH × Finset Nat}
    (mem : e ∈ c.contributions) : e.2.card < Policy.TWO_F_PLUS_ONE := by
  simp only [isComplete, Bool.or_eq_false_iff, List.any_eq_false, decide_eq_true_eq] at incomplete
  exact Nat.lt_of_not_le (incomplete.2 e mem)

theorem contributorsFor_card_lt_of_incomplete (incomplete : c.isComplete = false) (vote : Option PH) :
    (c.contributorsFor vote).card < Policy.TWO_F_PLUS_ONE := by
  cases found : findKey vote c.contributions with
  | none => simp [contributorsFor, found, Policy.two_f_plus_one_eq]
  | some sig =>
    simpa [contributorsFor, found] using c.entry_card_lt_of_incomplete incomplete (mem_of_findKey_eq_some found)

theorem proposals_below_of_incomplete (incomplete : c.isComplete = false) {p : PH × Nat}
    (mem : p ∈ c.proposals) : p.2 < Policy.TWO_F_PLUS_ONE ∧ p.2 ≤ c.toAggregate.allContributors := by
  obtain ⟨sig, entry, count⟩ := c.mem_proposals mem
  rw [count]
  exact ⟨c.entry_card_lt_of_incomplete incomplete entry,
    Finset.card_le_card (c.entry_subset_contributors entry)⟩

/-- The signatures of a contribution: the pairs of a vote and a slot that signed it. -/
def signatures : Finset (Option PH × Nat) :=
  c.contributions.toFinset.biUnion fun entry => entry.2.image (Prod.mk entry.1)

theorem mem_signatures {x : Option PH × Nat} :
    x ∈ c.signatures ↔ ∃ entry ∈ c.contributions, x.1 = entry.1 ∧ x.2 ∈ entry.2 := by
  obtain ⟨vote, slot⟩ := x
  simp only [signatures, Finset.mem_biUnion, List.mem_toFinset, Finset.mem_image, Prod.mk.injEq]
  constructor
  · rintro ⟨entry, member, slot', signed, rfl, rfl⟩
    exact ⟨entry, member, rfl, signed⟩
  · rintro ⟨entry, member, rfl, signed⟩
    exact ⟨entry, member, slot, signed, rfl, rfl⟩

theorem image_snd_signatures : c.signatures.image Prod.snd = c.allContributors := by
  ext slot
  simp only [Finset.mem_image, mem_signatures, allContributors, mem_contributors]
  constructor
  · rintro ⟨⟨vote, slot⟩, ⟨entry, member, -, signed⟩, rfl⟩
    exact ⟨entry, member, signed⟩
  · rintro ⟨entry, member, signed⟩
    exact ⟨(entry.1, slot), ⟨entry, member, rfl, signed⟩, rfl⟩

end TendermintContribution

namespace Tendermint

variable {P PH IH S I D : Type}

section Best

variable [LinearOrder PH] [DecidableEq IH] (π : Protocol P PH IH S I D)

omit [DecidableEq IH] in
theorem requestProposal_aggregationSenders (m : Tendermint P PH IH S I) (id : PH × Nat) :
    (requestProposal m id).aggregationSenders = m.aggregationSenders := by
  unfold requestProposal
  split <;> rfl

/-- Below a polka, reading the proposals of a best aggregate at most requests some of
    them: no state changes and nothing panics. -/
theorem checkProposals_below_polka (best : Aggregate PH) (roundAndStep : Nat × Step) (props : List (PH × Nat))
    (below : ∀ p ∈ props, p.2 < π.twoFPlusOne ∧ p.2 ≤ best.allContributors) (m : Tendermint P PH IH S I) :
    ∃ m', checkProposals π best roundAndStep props m = some (m', none) ∧ m'.state = m.state ∧
      m'.aggregationSenders = m.aggregationSenders := by
  induction props generalizing m with
  | nil => exact ⟨m, rfl, rfl, rfl⟩
  | cons p rest ih =>
    obtain ⟨h, count⟩ := p
    obtain ⟨noPolka, within⟩ := below (h, count) List.mem_cons_self
    have later : ∀ q ∈ rest, q.2 < π.twoFPlusOne ∧ q.2 ≤ best.allContributors :=
      fun q mem => below q (List.mem_cons_of_mem _ mem)
    simp only [checkProposals, if_neg (Nat.not_le.mpr noPolka), Option.bind_some]
    split_ifs with potential overflow request
    · omega
    -- an unknown proposal with f+1 votes is requested
    · obtain ⟨m', checked, same, senders⟩ := ih later (requestProposal m (h, roundAndStep.1))
      exact ⟨m', checked, by rw [same, requestProposal_state],
        by rw [senders, requestProposal_aggregationSenders]⟩
    · exact ih later m
    · exact ih later m

omit [LinearOrder PH] [DecidableEq IH] in
theorem keepBest_of_larger {m : Tendermint P PH IH S I} (flag : Bool) {roundAndStep : Nat × Step} {agg : Aggregate PH}
    (larger : ∀ old, findKey roundAndStep m.state.bestVotes = some old → old.allContributors < agg.allContributors) :
    keepBest m flag roundAndStep agg =
      ({ m with state := { m.state with bestVotes := insertKey roundAndStep agg m.state.bestVotes } }, true, agg) := by
  unfold keepBest
  cases found : findKey roundAndStep m.state.bestVotes with
  | none => rfl
  | some old => simp [larger old found]

omit [LinearOrder PH] [DecidableEq IH] in
theorem keepBest_of_not_larger {m : Tendermint P PH IH S I} (flag : Bool) {roundAndStep : Nat × Step}
    {old agg : Aggregate PH} (kept : findKey roundAndStep m.state.bestVotes = some old)
    (notLarger : agg.allContributors ≤ old.allContributors) :
    keepBest m flag roundAndStep agg = (m, flag, old) := by
  simp [keepBest, kept, Nat.not_lt.mpr notLarger]

theorem pollAggregations_cons_of_checked {m m₁ m₂ : Tendermint P PH IH S I} {flag flag₁ : Bool}
    {roundAndStep : Nat × Step} {agg best : Aggregate PH} (items : List ((Nat × Step) × Aggregate PH))
    (started : roundAndStep ∈ m.aggregationSenders) (kept : keepBest m flag roundAndStep agg = (m₁, flag₁, best))
    (checked : checkProposals π best roundAndStep best.proposals m₁ = some (m₂, none)) :
    pollAggregations π m flag ((roundAndStep, agg) :: items) = pollAggregations π m₂ flag₁ items := by
  simp [pollAggregations, started, kept, checked]

end Best

end Tendermint

section ReplaceStore

variable {PH : Type} [LinearOrder PH]

/-- The keys of a `BTreeMap<Option<_>, _>` in its order, `Option`'s: none first, then the
proposals in increasing order. -/
def orderVotes (votes : Finset (Option PH)) : List (Option PH) :=
  (if none ∈ votes then [none] else []) ++ ((votes.biUnion Option.toFinset).sort (· ≤ ·)).map some

theorem orderVotes_nodup (votes : Finset (Option PH)) : (orderVotes votes).Nodup := by
  have proposals : (((votes.biUnion Option.toFinset).sort (· ≤ ·)).map some).Nodup :=
    (Finset.sort_nodup _ _).map (Option.some_injective PH)
  unfold orderVotes
  split_ifs
  · exact List.nodup_cons.mpr ⟨by simp, proposals⟩
  · exact proposals

omit [LinearOrder PH] in
theorem map_some_filterMap_id {l : List (Option PH)} (noNone : none ∉ l) : (l.filterMap id).map some = l := by
  induction l with
  | nil => rfl
  | cons vote rest ih =>
    rw [List.mem_cons, not_or] at noNone
    obtain ⟨notFirst, notRest⟩ := noNone
    obtain ⟨proposal, rfl⟩ := Option.ne_none_iff_exists'.mp (Ne.symm notFirst)
    show some proposal :: (rest.filterMap id).map some = some proposal :: rest
    rw [ih notRest]

theorem orderVotes_of_proposals {l : List (Option PH)} (ordered : l.Pairwise (· < ·)) (noNone : none ∉ l) :
    ((l.toFinset.biUnion Option.toFinset).sort (· ≤ ·)).map some = l := by
  have strict : (l.filterMap id).Pairwise (· < ·) :=
    ordered.filterMap id fun a a' less b found b' found' => by
      simp only [id] at found found'
      subst found found'
      exact less
  have proposals : l.toFinset.biUnion Option.toFinset = (l.filterMap id).toFinset := by
    ext proposal
    simp
  rw [proposals, (List.toFinset_sort _ (strict.imp ne_of_lt)).mpr (strict.imp le_of_lt),
    map_some_filterMap_id noNone]

theorem orderVotes_toFinset {l : List (Option PH)} (ordered : l.Pairwise (· < ·)) : orderVotes l.toFinset = l := by
  cases l with
  | nil => simp [orderVotes]
  | cons first rest =>
    obtain ⟨above, restOrdered⟩ := List.pairwise_cons.mp ordered
    -- nothing sorts below `none`, so `none` can only be the first key
    have restNoNone : none ∉ rest := fun member => by simpa using above none member
    cases first with
    | none =>
      have toFinset : (none :: rest).toFinset.biUnion Option.toFinset = rest.toFinset.biUnion Option.toFinset := by
        simp
      simp only [orderVotes, List.mem_toFinset, List.mem_cons_self, if_true, toFinset,
        orderVotes_of_proposals restOrdered restNoNone, List.singleton_append]
    | some proposal =>
      have noNone : none ∉ some proposal :: rest := by simpa using restNoNone
      simp only [orderVotes, List.mem_toFinset, noNone, if_false, List.nil_append]
      exact orderVotes_of_proposals ordered noNone

/-- The contribution that a set of signatures spells, its votes in the order of the map. -/
def TendermintContribution.ofSignatures (sigs : Finset (Option PH × Nat)) : TendermintContribution PH :=
  ⟨(orderVotes (sigs.image Prod.fst)).map fun vote => (vote, (sigs.filter (·.1 = vote)).image Prod.snd),
    by simpa [List.map_map, Function.comp_def] using orderVotes_nodup (sigs.image Prod.fst)⟩

/-- A contribution whose votes are in the order of the map, each with a signer, is the one its
signatures spell. -/
theorem TendermintContribution.ofSignatures_signatures (c : TendermintContribution PH)
    (ordered : (c.contributions.map Prod.fst).Pairwise (· < ·)) (signed : ∀ entry ∈ c.contributions, entry.2.Nonempty) :
    ofSignatures c.signatures = c := by
  have votes : c.signatures.image Prod.fst = (c.contributions.map Prod.fst).toFinset := by
    ext vote
    simp only [Finset.mem_image, mem_signatures, List.mem_toFinset, List.mem_map]
    constructor
    · rintro ⟨x, ⟨entry, member, same, -⟩, rfl⟩
      exact ⟨entry, member, same.symm⟩
    · rintro ⟨entry, member, rfl⟩
      obtain ⟨slot, signer⟩ := signed entry member
      exact ⟨(entry.1, slot), ⟨entry, member, rfl, signer⟩, rfl⟩
  -- a vote is the key of one entry only, so the signatures for it are that entry's signers
  have slots : ∀ entry ∈ c.contributions, (c.signatures.filter (·.1 = entry.1)).image Prod.snd = entry.2 := by
    intro entry member
    ext slot
    simp only [Finset.mem_image, Finset.mem_filter, mem_signatures]
    constructor
    · rintro ⟨x, ⟨⟨other, otherMember, same, signer⟩, key⟩, rfl⟩
      rw [List.inj_on_of_nodup_map c.distinct otherMember member (same.symm.trans key)] at signer
      exact signer
    · intro signer
      exact ⟨(entry.1, slot), ⟨⟨entry, member, rfl, signer⟩, rfl⟩, rfl⟩
  obtain ⟨contributions, distinct⟩ := c
  simp only [ofSignatures, mk.injEq]
  rw [votes, orderVotes_toFinset ordered, List.map_map]
  conv_rhs => rw [← List.map_id contributions]
  exact List.map_congr_left fun entry member => by simp [slots entry member]

/-- The `ReplaceStore` of handel/src/store.rs behind the calls `apply_contribution` makes, for
`TendermintContribution`s. A contribution is stored as its signatures, the contributors of the
store, and the identity of a set of signatures is that of its slots, as the registry gives it for
`contributors()`. A store that panicked is `none`, and nothing comes out of it. -/
def replaceStore (signersIdentity : Finset Nat → Finset Nat) :
    Handel.ContributionStore (Option (Handel.ReplaceStore (Option PH × Nat))) (TendermintContribution PH) where
  put store contribution level := store.bind fun s =>
    Handel.ReplaceStore.put (fun sigs => signersIdentity (sigs.image Prod.snd)) s contribution.signatures level
  combined store level := (store.bind fun s => (Handel.ReplaceStore.combined s level).join).map
    TendermintContribution.ofSignatures

/-- A contribution of more than one identity, put into a new store, is what the store combines
from its level up. -/
theorem replaceStore_combined_put_new (signersIdentity : Finset Nat → Finset Nat) (p : Handel.BinomialPartitioner)
    {c : TendermintContribution PH} {l k : Nat} (many : 1 < (signersIdentity c.allContributors).card) (le : l ≤ k)
    (ordered : (c.contributions.map Prod.fst).Pairwise (· < ·)) (signed : ∀ entry ∈ c.contributions, entry.2.Nonempty) :
    (replaceStore signersIdentity).combined ((replaceStore signersIdentity).put (some (Handel.ReplaceStore.new p)) c l) k =
      some c := by
  simp only [replaceStore, Option.bind_some]
  rw [Handel.ReplaceStore.put_new_of_many (by simpa only [c.image_snd_signatures] using many), Option.bind_some,
    Handel.ReplaceStore.combined_setBest_new _ le]
  simp only [Option.join_some, Option.map_some, c.ofSignatures_signatures ordered signed]

end ReplaceStore

section Lost

variable {P PH IH S I D St : Type} [LinearOrder PH] [DecidableEq IH] (π : Protocol P PH IH S I D)

open Tendermint in
/-- A conclusive vote can be lost between Handel and Tendermint. Handel yields the
    aggregate of its store, below completion, and then a full aggregation from a peer,
    which has 2f+1 signers for one vote but no more signers in all; that one is the
    final result, and the stream yields nothing after it. Tendermint keeps the first
    as the best vote, since the second has no more contributors, and the vote stays
    below 2f+1 there. -/
theorem conclusive_vote_lost_between_handel_and_tendermint
    (cs : Handel.ContributionStore St (TendermintContribution PH)) (agg : Handel.Aggregation St (TendermintContribution PH))
    (fresh : agg.finalResult = none) (own : Handel.PendingContribution (TendermintContribution PH))
    (below : own.level ≠ agg.numLevels) {best full : TendermintContribution PH}
    (combined : cs.combined (cs.put agg.store own.contribution own.level) (agg.numLevels - 1) = some best)
    (incomplete : best.isComplete = false) (vote : Option PH)
    (conclusive : Policy.TWO_F_PLUS_ONE ≤ (full.contributorsFor vote).card)
    (fewer : full.allContributors.card ≤ best.allContributors.card)
    (two : π.twoFPlusOne = Policy.TWO_F_PLUS_ONE) (m : Tendermint P PH IH S I) (flag : Bool) (id : Nat × Step)
    (started : id ∈ m.aggregationSenders)
    (smaller : ∀ old, findKey id m.state.bestVotes = some old → old.allContributors < best.allContributors.card) :
    (∃ agg', Handel.runYields cs TendermintContribution.isComplete agg [some own, some ⟨full, agg.numLevels⟩] =
        some (agg', [best, full]) ∧
      ∀ polls later, Handel.runYields cs TendermintContribution.isComplete agg' polls = some later → later.2 = []) ∧
    ∃ m' flag', pollAggregations π m flag [(id, best.toAggregate), (id, full.toAggregate)] = some (m', flag', none) ∧
      findKey id m'.state.bestVotes = some best.toAggregate ∧
      best.toAggregate.contributorsFor vote < π.twoFPlusOne ∧ π.twoFPlusOne ≤ full.toAggregate.contributorsFor vote := by
  have complete := full.isComplete_of_conclusive conclusive
  -- the Handel side: the store's aggregate, then the full aggregation as the final result
  have handel : ∃ agg', Handel.runYields cs TendermintContribution.isComplete agg
      [some own, some ⟨full, agg.numLevels⟩] = some (agg', [best, full]) ∧ agg'.finalResult = some full := by
    have first := Handel.pollNext_applies_to_store cs TendermintContribution.isComplete fresh below combined incomplete
    have second := @Handel.pollNext_applies_full St _ cs TendermintContribution.isComplete
      { agg with store := cs.put agg.store own.contribution own.level } full fresh complete
    refine ⟨{ { agg with store := cs.put agg.store own.contribution own.level } with finalResult := some full }, ?_, rfl⟩
    simp only [Handel.runYields, first, second, Option.bind_some, Option.map_some]
    rfl
  obtain ⟨agg', yields, final⟩ := handel
  refine ⟨⟨agg', yields, fun polls later run => Handel.runYields_after_final cs _ final polls run⟩, ?_⟩
  -- the Tendermint side: the first aggregate becomes the best vote and the second is dropped
  have proposalsBelow : ∀ p ∈ best.toAggregate.proposals, p.2 < π.twoFPlusOne ∧ p.2 ≤ best.toAggregate.allContributors := by
    intro p mem
    rw [two]
    exact best.proposals_below_of_incomplete incomplete mem
  let m₁ : Tendermint P PH IH S I :=
    { m with state := { m.state with bestVotes := insertKey id best.toAggregate m.state.bestVotes } }
  obtain ⟨m₂, checked₁, state₂, senders₂⟩ :=
    checkProposals_below_polka π best.toAggregate id best.toAggregate.proposals proposalsBelow m₁
  have bestKept : findKey id m₂.state.bestVotes = some best.toAggregate := by
    rw [state₂]
    exact findKey_insertKey_self _ _ _
  obtain ⟨m₃, checked₂, state₃, -⟩ :=
    checkProposals_below_polka π best.toAggregate id best.toAggregate.proposals proposalsBelow m₂
  refine ⟨m₃, true, ?_, by rw [state₃]; exact bestKept, ?_, ?_⟩
  · rw [pollAggregations_cons_of_checked π _ started (keepBest_of_larger flag smaller) checked₁,
      pollAggregations_cons_of_checked π _ (by rw [senders₂]; exact started)
        (keepBest_of_not_larger true bestKept fewer) checked₂]
    rfl
  · rw [two]
    exact best.contributorsFor_card_lt_of_incomplete incomplete vote
  · rw [two]
    exact conclusive

/-- Four validators, of 341, 2, 1 and 168 slots. -/
def fourValidators : Validators Nat := [⟨0, 0, 341⟩, ⟨1, 341, 343⟩, ⟨2, 343, 344⟩, ⟨3, 344, 512⟩]

theorem fourValidators_bands : Validators.Partition 0 Policy.SLOTS fourValidators :=
  .cons rfl (by decide) (.cons rfl (by decide) (.cons rfl (by decide) (.cons rfl (by decide) (.nil _))))

/-- The registry's identity of a set of slots of the four validators, the empty identity where
it panics, which the slots of the run below never make it do. -/
def fourValidatorsIdentity (slots : Finset Nat) : Finset Nat :=
  (Validators.signersIdentity fourValidators slots).getD ∅

theorem fourValidatorsIdentity_first_two : fourValidatorsIdentity (Finset.range 343) = {0, 1} := by
  have slots : Finset.range 343 = ({0, 1} : Finset Nat).biUnion (Validators.getSlots fourValidators) := by
    simp only [Finset.biUnion_insert, Finset.singleton_biUnion, Validators.getSlots, fourValidators,
      List.getElem?_cons_zero, List.getElem?_cons_succ]
    rw [Finset.Ico_union_Ico_eq_Ico (by decide) (by decide), Finset.range_eq_Ico]
  rw [fourValidatorsIdentity, slots,
    Validators.signersIdentity_of_union fourValidators_bands (by decide) (by decide)]
  rfl

/-- Validators 0 and 1 of the four: 341 slots for none and 2 for proposal 7. -/
def splitVotes : TendermintContribution Nat := ⟨[(none, Finset.range 341), (some 7, {341, 342})], by decide⟩

/-- Validators 0 and 2 of the four: 342 slots for none. -/
def noneQuorum : TendermintContribution Nat := ⟨[(none, insert 343 (Finset.range 341))], by decide⟩

/-- The validator's constants in the protocol of the late proposal runs. -/
def validatorProtocol : Protocol Nat Nat Nat Unit Nat Unit :=
  { Tendermint.lateProposalProtocol with twoFPlusOne := Policy.TWO_F_PLUS_ONE, fPlusOne := Policy.F_PLUS_ONE }

theorem none_quorum_lost_after_split_votes :
    (∃ agg', Handel.runYields (replaceStore fourValidatorsIdentity) TendermintContribution.isComplete
        ⟨3, some (Handel.ReplaceStore.new Handel.nodeThreeOfFour), none⟩
        [some ⟨splitVotes, 2⟩, some ⟨noneQuorum, 3⟩] = some (agg', [splitVotes, noneQuorum]) ∧
      ∀ polls later, Handel.runYields (replaceStore fourValidatorsIdentity) TendermintContribution.isComplete agg' polls =
        some later → later.2 = []) ∧
    ∃ m' flag', Tendermint.pollAggregations validatorProtocol
        { Tendermint.new default with aggregationSenders := [(0, .prevote)] } false
        [((0, .prevote), splitVotes.toAggregate), ((0, .prevote), noneQuorum.toAggregate)] = some (m', flag', none) ∧
      findKey (0, .prevote) m'.state.bestVotes = some splitVotes.toAggregate ∧
      splitVotes.toAggregate.contributorsFor none < validatorProtocol.twoFPlusOne ∧
      validatorProtocol.twoFPlusOne ≤ noneQuorum.toAggregate.contributorsFor none := by
  have splitAll : splitVotes.allContributors = Finset.range 343 := by
    ext x
    simp [splitVotes, TendermintContribution.allContributors, TendermintContribution.contributors]
    omega
  have quorumAll : noneQuorum.allContributors = insert 343 (Finset.range 341) := by
    simp [noneQuorum, TendermintContribution.allContributors, TendermintContribution.contributors]
  -- validator 3 puts the votes of validators 0 and 1, its level 2, into its new store
  have combined : (replaceStore fourValidatorsIdentity).combined
      ((replaceStore fourValidatorsIdentity).put (some (Handel.ReplaceStore.new Handel.nodeThreeOfFour)) splitVotes 2)
      (3 - 1) = some splitVotes := by
    have many : 1 < (fourValidatorsIdentity splitVotes.allContributors).card := by
      rw [splitAll, fourValidatorsIdentity_first_two]
      decide
    exact replaceStore_combined_put_new _ _ many (le_refl 2) (List.pairwise_pair.mpr trivial) (by simp [splitVotes])
  have incomplete : splitVotes.isComplete = false := by
    rw [TendermintContribution.isComplete, splitAll]
    simp [splitVotes, Policy.SLOTS, Policy.two_f_plus_one_eq]
  have conclusive : Policy.TWO_F_PLUS_ONE ≤ (noneQuorum.contributorsFor none).card := by
    simp [noneQuorum, TendermintContribution.contributorsFor, findKey, Policy.two_f_plus_one_eq]
  have fewer : noneQuorum.allContributors.card ≤ splitVotes.allContributors.card := by
    simp [splitAll, quorumAll]
  exact conclusive_vote_lost_between_handel_and_tendermint validatorProtocol (replaceStore fourValidatorsIdentity)
    ⟨3, some (Handel.ReplaceStore.new Handel.nodeThreeOfFour), none⟩ rfl ⟨splitVotes, 2⟩ (by decide) combined
    incomplete none conclusive fewer rfl _ false (0, .prevote) (by simp) (fun _ found => by cases found)

end Lost

end Albatross
