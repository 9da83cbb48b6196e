import Mathlib

/- The alias-method distribution of vrf/src/discrete.rs. Weights are u64 counts that
   stay far below 2^64 where they are used (slot counts); the two index stacks are
   lists with their top at the head. A panic is `none`. -/
namespace Albatross

structure DiscreteDistribution where
  T : Nat
  n : Nat
  K : List Nat
  U : List Nat
  deriving DecidableEq, Repr

namespace DiscreteDistribution

/-- The `while let (Some(i_u), Some(i_o)) = (U_underfull.pop(), U_overfull.pop())` loop
    and the assert after it. Both stacks are popped before the pattern is matched, so
    when one is empty the other loses its top. Every round settles one underfull index
    for good, so `n + 1` rounds are enough. -/
def aliasLoop (T : Nat) : Nat → List Nat → List Nat → List Nat → List Nat →
    Option (List Nat × List Nat)
  | 0, _, _, _, _ => none
  | fuel + 1, U, K, iu :: underfull, io :: overfull =>
    let K := K.set iu io
    let uo := U.getD io 0 + U.getD iu 0 - T
    let U := U.set io uo
    if uo = T then aliasLoop T fuel U K underfull overfull
    else if uo > T then aliasLoop T fuel U K underfull (io :: overfull)
    else aliasLoop T fuel U K (io :: underfull) overfull
  | _ + 1, U, K, underfull, overfull =>
    if underfull.drop 1 = [] ∧ overfull.drop 1 = [] then some (U, K) else none

/-- `DiscreteDistribution::new`: panics unless some weight is positive. -/
def new (p : List Nat) : Option DiscreteDistribution :=
  let n := p.length
  let T := p.sum
  let U := p.map (· * n)
  if T = 0 then none
  else
    let underfull := ((U.zipIdx.filter fun e => e.1 < T).map Prod.snd).reverse
    let overfull := ((U.zipIdx.filter fun e => e.1 > T).map Prod.snd).reverse
    (aliasLoop T (n + 1) U (List.range n) underfull overfull).map fun (U, K) => ⟨T, n, K, U⟩

/-- `sample`: two draws below `n` and below `T` from the random source. -/
def sample {R : Type} (d : DiscreteDistribution) (nextU64Below : R → Nat → Nat × R) (rng : R) :
    Option Nat :=
  let (x, rng) := nextU64Below rng d.n
  let (y, _) := nextU64Below rng d.T
  match d.U[x]? with
  | none => none
  | some ux => if y < ux then some x else d.K[x]?

/-- `sample` once its two draws are made: below `U[x]` the column's own index, from there its
    alias. -/
def choose (d : DiscreteDistribution) (x y : Nat) : Option Nat :=
  match d.U[x]? with
  | none => none
  | some ux => if y < ux then some x else d.K[x]?

/-- Inside the tables a draw pair always picks: the column below `U[x]`, its alias above. -/
theorem choose_of_lt {d : DiscreteDistribution} {x : Nat} (y : Nat) (inU : x < d.U.length) (inK : x < d.K.length) :
    d.choose x y = some (if y < d.U.getD x 0 then x else d.K.getD x 0) := by
  simp only [choose, List.getD_eq_getElem?_getD, List.getElem?_eq_getElem inU, List.getElem?_eq_getElem inK,
    Option.getD_some]
  split <;> rfl

theorem new_eq_none_of_sum_eq_zero {p : List Nat} (zero : p.sum = 0) : new p = none := by
  simp [new, zero]

end DiscreteDistribution

end Albatross
