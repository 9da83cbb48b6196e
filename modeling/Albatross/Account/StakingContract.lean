import Albatross.Vrf.AliasTable
import Albatross.Policy
import Albatross.Lib.OptionList

/- `StakingContract::select_validators` (primitives/account/src/account/staking_contract/mod.rs):
   one alias-table sample per slot from the seed's random source. The active validators are
   the contract's map from address to stake, in address order. The result is the slots in
   draw order, the address each pushes into the `ValidatorsBuilder`. The random source is a
   parameter; the probability of a slot's validator is counted over the draws that a
   uniform source makes, two per slot. -/
namespace Albatross

namespace StakingContract

open Finset DiscreteDistribution Counting

variable {A R : Type}

/-- The `for _ in 0..Policy::SLOTS` loop: `lookup.sample`, that is its two draws and
    `choose`, then the address at the sampled index. An index past the addresses panics. -/
def selectLoop (addresses : List A) (lookup : DiscreteDistribution) (nextU64Below : R → Nat → Nat × R) :
    Nat → R → Option (List A)
  | 0, _ => some []
  | slots + 1, rng =>
    let (x, rng) := nextU64Below rng lookup.n
    let (y, rng) := nextU64Below rng lookup.T
    match lookup.choose x y >>= (addresses[·]?) with
    | none => none
    | some address => (selectLoop addresses lookup nextU64Below slots rng).map (address :: ·)

/-- `select_validators`, the slots in draw order; `none` where `new` or an index panics. -/
def selectValidators (activeValidators : List (A × Nat)) (nextU64Below : R → Nat → Nat × R) (rng : R) :
    Option (List A) :=
  let validatorAddresses := activeValidators.map Prod.fst
  let validatorStakes := activeValidators.map Prod.snd
  (new validatorStakes).bind fun lookup => selectLoop validatorAddresses lookup nextU64Below Policy.SLOTS rng

/-- A random source that replays a list of draws. -/
def replay (draws : List Nat) (_ : Nat) : Nat × List Nat := (draws.headD 0, draws.tail)

/-- The draws of the slots, two per slot: a column, then a height in it. -/
def drawStream (draws : List (Nat × Nat)) : List Nat := draws.flatMap fun d => [d.1, d.2]

/-- Run lemma: over replayed draws the loop picks each slot's address from that slot's two
    draws alone. -/
theorem selectLoop_replay (addresses : List A) (lookup : DiscreteDistribution) :
    ∀ draws : List (Nat × Nat), selectLoop addresses lookup replay draws.length (drawStream draws) =
      draws.mapM fun d => lookup.choose d.1 d.2 >>= (addresses[·]?)
  | [] => rfl
  | d :: draws => by
    simp only [List.length_cons, drawStream, List.flatMap_cons, List.cons_append, List.nil_append,
      List.mapM_cons]
    rw [selectLoop]
    simp only [replay, List.headD_cons, List.tail_cons]
    rw [← drawStream, selectLoop_replay addresses lookup draws]
    cases lookup.choose d.1 d.2 >>= (addresses[·]?) with
    | none => rfl
    | some address => cases draws.mapM fun d => lookup.choose d.1 d.2 >>= (addresses[·]?) <;> rfl

/-- The share of uniform draw vectors, two draws per slot, for which slot j goes to
    `address`. -/
def slotShare [DecidableEq A] (activeValidators : List (A × Nat)) (j : Nat) (address : A) : ℚ :=
  let box := range activeValidators.length ×ˢ range (activeValidators.map Prod.snd).sum
  (((Fintype.piFinset fun _ : Fin Policy.SLOTS => box).filter fun draws =>
      (selectValidators activeValidators replay (drawStream (List.ofFn draws))).bind (·[j]?) = some address).card : ℚ) /
    (box.card ^ Policy.SLOTS : ℚ)

section Exact

variable {p : List Nat} {lookup : DiscreteDistribution} {addresses : List A}

theorem pick_isSome (exact : lookup.Exact p) (length : addresses.length = p.length) {d : Nat × Nat}
    (inBox : d ∈ range lookup.n ×ˢ range lookup.T) : (lookup.choose d.1 d.2 >>= (addresses[·]?)).isSome := by
  obtain ⟨x, y⟩ := d
  simp only [mem_product, mem_range] at inBox
  obtain ⟨i, lt, picked⟩ := exact.inRange x inBox.1 y inBox.2
  rw [exact.n_eq, ← length] at lt
  simp [picked, lt]

theorem pick_eq_iff (nodup : addresses.Nodup) {i : Nat} (lt : i < addresses.length) (x y : Nat) :
    lookup.choose x y >>= (addresses[·]?) = some addresses[i] ↔ lookup.choose x y = some i := by
  cases lookup.choose x y with
  | none => simp
  | some k =>
    simp only [Option.bind_eq_bind, Option.bind_some, Option.some.injEq]
    constructor
    · intro found
      obtain ⟨klt, same⟩ := List.getElem?_eq_some_iff.mp found
      exact (nodup.getElem_inj_iff.mp same)
    · rintro rfl
      simp [lt]

/-- Slot j of k replayed draw pairs in the box goes to the address at index i for
    `n * p[i] * (n * T)^(k - 1)` of the draw vectors. -/
theorem card_slot [DecidableEq A] (exact : lookup.Exact p) (nodup : addresses.Nodup) (length : addresses.length = p.length)
    {i : Nat} (lt : i < addresses.length) {k : Nat} (j : Fin k) :
    ((Fintype.piFinset fun _ : Fin k => range lookup.n ×ˢ range lookup.T).filter fun draws =>
        (selectLoop addresses lookup replay k (drawStream (List.ofFn draws))).bind (·[j.val]?) =
          some addresses[i]).card =
      lookup.n * p.getD i 0 * (lookup.n * lookup.T) ^ (k - 1) := by
  set box := range lookup.n ×ˢ range lookup.T
  have inTable : i < lookup.n := by rw [exact.n_eq, ← length]; exact lt
  -- slot j reads draw j alone
  have slot : ∀ draws ∈ Fintype.piFinset fun _ : Fin k => box,
      (selectLoop addresses lookup replay k (drawStream (List.ofFn draws))).bind (·[j.val]?) =
          some addresses[i] ↔ draws j ∈ box.filter fun d => lookup.choose d.1 d.2 = some i := by
    intro draws mem
    have inBox : ∀ k, draws k ∈ box := Fintype.mem_piFinset.mp mem
    have run := selectLoop_replay addresses lookup (List.ofFn draws)
    rw [List.length_ofFn] at run
    have picks : ∀ d ∈ List.ofFn draws, (lookup.choose d.1 d.2 >>= (addresses[·]?)).isSome := by
      intro d member
      obtain ⟨k, rfl⟩ := List.mem_ofFn.mp member
      exact pick_isSome exact length (inBox k)
    rw [run, mapM_bind_index _ picks, List.getElem?_ofFn, mem_filter]
    simp only [Fin.eta, j.isLt, dite_true, Option.bind_some, pick_eq_iff nodup lt, inBox j, true_and]
  rw [filter_congr slot, card_filter_piFinset_eval (filter_subset _ _) j, exact.count i inTable,
    Fintype.card_fin, card_product, card_range, card_range]

/-- Over the contract's validators with distinct addresses, slot j goes to the address at
    index i for the share `p[i] / T` of the uniform draw vectors. -/
theorem slotShare_eq [DecidableEq A] {d : DiscreteDistribution} (positive : 0 < p.sum) (made : new p = some d)
    (exact : d.Exact p) (nodup : addresses.Nodup) (length : addresses.length = p.length) {i : Nat}
    (lt : i < addresses.length) (j : Fin Policy.SLOTS) :
    slotShare (addresses.zip p) j addresses[i] = (p.getD i 0 : ℚ) / p.sum := by
  have fst : (addresses.zip p).map Prod.fst = addresses := List.map_fst_zip length.le
  have snd : (addresses.zip p).map Prod.snd = p := List.map_snd_zip length.ge
  have zipLength : (addresses.zip p).length = p.length := by simp [length]
  have count := card_slot exact nodup length lt j
  have nPos : (0 : ℚ) < d.n := by
    rw [exact.n_eq]
    exact_mod_cast List.length_pos_iff.mpr fun empty => by simp [empty] at positive
  have tPos : (0 : ℚ) < d.T := by rw [exact.T_eq]; exact_mod_cast positive
  have slots : ((d.n : ℚ) * d.T) ^ Policy.SLOTS = ((d.n : ℚ) * d.T) ^ (Policy.SLOTS - 1) * (d.n * d.T) := by
    rw [← pow_succ, Nat.sub_add_cancel (by decide : 1 ≤ Policy.SLOTS)]
  simp only [slotShare, selectValidators, fst, snd, zipLength, made, Option.bind_some]
  rw [← exact.n_eq, ← exact.T_eq, count, card_product, card_range, card_range]
  push_cast
  rw [slots]
  field_simp

end Exact

theorem alias_sampler_exact (p : List Nat) (positive : 0 < p.sum) :
    ∃ d, new p = some d ∧ d.Exact p ∧
      (∀ x < d.n, ∀ y < d.T, ∀ i, d.choose x y = some i → 0 < p.getD i 0) ∧
      ∀ {A : Type} [DecidableEq A] (addresses : List A), addresses.Nodup → addresses.length = p.length →
        ∀ (i : Nat) (lt : i < addresses.length), ∀ j < Policy.SLOTS,
          slotShare (addresses.zip p) j addresses[i] = (p.getD i 0 : ℚ) / p.sum := by
  obtain ⟨d, made, exact⟩ := new_exact p positive
  refine ⟨d, made, exact, fun x hx y hy i chosen => exact.weight_pos hx hy chosen, ?_⟩
  intro A _ addresses nodup length i lt j slot
  exact slotShare_eq positive made exact nodup length lt ⟨j, slot⟩

theorem one_two_sampled_exactly : 0 < [1, 2].sum ∧ ∃ d, new [1, 2] = some d ∧ d.Exact [1, 2] := by
  obtain ⟨d, made, exact, -⟩ := alias_sampler_exact [1, 2] (by decide)
  exact ⟨by decide, d, made, exact⟩

end StakingContract

end Albatross
