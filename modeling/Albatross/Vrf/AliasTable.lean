import Albatross.Vrf.Discrete
import Albatross.Lib.Counting

/- The alias table of `DiscreteDistribution::new` is exact. Between rounds of its loop the
   indices on the two stacks are still their own alias and their weights add up to T
   apiece, so the stacks run empty together; every other column is settled, full with
   itself as alias or short with an alias; and for every index i its own weight plus what
   the columns aliased to it lack of T is n * p[i]. A settled column's T draws give
   exactly these shares, so once the stacks are empty index i is drawn for n * p[i] of
   the n * T draw pairs. -/
namespace Albatross

namespace DiscreteDistribution

open Counting Finset

/-- A column the loop is done with: full with itself as alias, or short with an alias. -/
def Settled (T n u k x : Nat) : Prop := (k = x ∧ u = T) ∨ (k ≠ x ∧ u < T ∧ k < n)

/-- What column x is meant to give index i: its weight if it is column i, and what it
    lacks of T if i is its alias. -/
def share (T : Nat) (U K : List Nat) (x i : Nat) : Nat :=
  (if x = i then U.getD x 0 else 0) + (if K.getD x 0 ≠ x ∧ K.getD x 0 = i then T - U.getD x 0 else 0)

/-- The loop's facts about the indices S still on the stacks and the columns off them. -/
structure Pending (p U K S : List Nat) : Prop where
  length_U : U.length = p.length
  length_K : K.length = p.length
  nodup : S.Nodup
  own : ∀ x ∈ S, x < p.length ∧ K.getD x 0 = x
  settled : ∀ x < p.length, x ∉ S → Settled p.sum p.length (U.getD x 0) (K.getD x 0) x
  mass : (S.map (U.getD · 0)).sum = S.length * p.sum
  exact : ∀ i < p.length, ∑ x ∈ range p.length, share p.sum U K x i = p.length * p.getD i 0

/-- Between rounds: the pending facts, and each stack on its side of T. -/
structure Invariant (p U K underfull overfull : List Nat) : Prop
    extends Pending p U K (underfull ++ overfull) where
  under_lt : ∀ x ∈ underfull, U.getD x 0 < p.sum
  over_gt : ∀ x ∈ overfull, p.sum < U.getD x 0

theorem share_congr {T : Nat} {U K U' K' : List Nat} {x : Nat} (i : Nat)
    (sameU : U'.getD x 0 = U.getD x 0) (sameK : K'.getD x 0 = K.getD x 0) :
    share T U' K' x i = share T U K x i := by
  simp only [share, sameU, sameK]

theorem share_of_own {T : Nat} {U K : List Nat} {x : Nat} (i : Nat) (own : K.getD x 0 = x) :
    share T U K x i = if x = i then U.getD x 0 else 0 := by
  simp only [share, own, ne_eq, not_true_eq_false, false_and, if_false, Nat.add_zero]

section Pending

variable {p U K S : List Nat}

theorem Pending.perm {S' : List Nat} (pending : Pending p U K S) (perm : S.Perm S') :
    Pending p U K S' where
  length_U := pending.length_U
  length_K := pending.length_K
  nodup := perm.nodup_iff.mp pending.nodup
  own x mem := pending.own x (perm.mem_iff.mpr mem)
  settled x lt out := pending.settled x lt fun mem => out (perm.mem_iff.mp mem)
  mass := by
    rw [← (perm.map _).sum_eq, ← perm.length_eq]
    exact pending.mass
  exact := pending.exact

variable {iu io : Nat}

theorem Pending.popped (pending : Pending p U K (iu :: io :: S)) :
    iu ≠ io ∧ iu ∉ S ∧ io ∉ S ∧ S.Nodup ∧ iu < p.length ∧ io < p.length ∧
      K.getD iu 0 = iu ∧ K.getD io 0 = io := by
  have nodup := pending.nodup
  simp only [List.nodup_cons, List.mem_cons, not_or] at nodup
  obtain ⟨⟨apart, iuOut⟩, ioOut, nodupS⟩ := nodup
  obtain ⟨iuLt, iuOwn⟩ := pending.own iu (by simp)
  obtain ⟨ioLt, ioOwn⟩ := pending.own io (by simp)
  exact ⟨apart, iuOut, ioOut, nodupS, iuLt, ioLt, iuOwn, ioOwn⟩

/-- One round: `iu` gets `io` as alias, `io` gives up what `iu` lacks of T and goes back
    on a stack unless it is now full. -/
theorem pending_step (pending : Pending p U K (iu :: io :: S)) (short : U.getD iu 0 < p.sum)
    (full : p.sum < U.getD io 0) :
    Pending p (U.set io (U.getD io 0 + U.getD iu 0 - p.sum)) (K.set iu io)
      ((if U.getD io 0 + U.getD iu 0 - p.sum = p.sum then [] else [io]) ++ S) := by
  obtain ⟨apart, iuOut, ioOut, nodupS, iuLt, ioLt, iuOwn, ioOwn⟩ := pending.popped
  set uo := U.getD io 0 + U.getD iu 0 - p.sum with uo_eq
  have iuK : iu < K.length := pending.length_K ▸ iuLt
  have ioU : io < U.length := pending.length_U ▸ ioLt
  -- the two written places, and every other one unchanged
  have kIu : (K.set iu io).getD iu 0 = io := getD_set_self iuK
  have kIo : (K.set iu io).getD io 0 = io := by rw [getD_set_ne (Ne.symm apart), ioOwn]
  have uIu : (U.set io uo).getD iu 0 = U.getD iu 0 := getD_set_ne apart
  have uIo : (U.set io uo).getD io 0 = uo := getD_set_self ioU
  have uOut : ∀ x ∈ S, (U.set io uo).getD x 0 = U.getD x 0 :=
    fun x mem => getD_set_ne fun (same : x = io) => ioOut (same ▸ mem)
  refine ⟨by simp [pending.length_U], by simp [pending.length_K], ?nodup, ?own, ?settled, ?mass, ?exact⟩
  case nodup =>
    split
    · exact nodupS
    · exact List.nodup_cons.mpr ⟨ioOut, nodupS⟩
  case own =>
    intro x mem
    have onStack : x = io ∨ x ∈ S := by
      split at mem
      · exact Or.inr (by simpa using mem)
      · simpa using mem
    rcases onStack with rfl | inS
    · exact ⟨ioLt, kIo⟩
    · obtain ⟨lt, own⟩ := pending.own x (by simp [inS])
      exact ⟨lt, by rw [getD_set_ne fun (same : x = iu) => iuOut (same ▸ inS), own]⟩
  case settled =>
    intro x lt out
    by_cases atIu : x = iu
    · subst atIu
      exact Or.inr ⟨by rw [kIu]; exact Ne.symm apart, by rw [uIu]; exact short, by rw [kIu]; exact ioLt⟩
    by_cases atIo : x = io
    · subst atIo
      -- `io` is off the stacks only when the round filled it
      have filled : uo = p.sum := by
        by_contra notFull
        simp [notFull] at out
      exact Or.inl ⟨kIo, by rw [uIo, filled]⟩
    · have notS : x ∉ S := fun mem => out (by simp [mem])
      have before := pending.settled x lt (by simp [atIu, atIo, notS])
      rwa [getD_set_ne atIo, getD_set_ne atIu]
  case mass =>
    have before := pending.mass
    simp only [List.map_cons, List.sum_cons, List.length_cons, Nat.add_mul, Nat.one_mul] at before
    have rest : (S.map ((U.set io uo).getD · 0)).sum = (S.map (U.getD · 0)).sum :=
      congrArg List.sum (List.map_congr_left uOut)
    split
    · rename_i filled
      simp only [List.nil_append, rest]
      omega
    · simp only [List.singleton_append, List.map_cons, List.sum_cons, List.length_cons, Nat.add_mul,
        Nat.one_mul, rest, uIo]
      omega
  case exact =>
    intro i lt
    rw [← pending.exact i lt]
    refine sum_congr_off_pair (mem_range.mpr iuLt) (mem_range.mpr ioLt) apart ?_ ?_
    · intro x _ notIu notIo
      exact share_congr i (getD_set_ne notIo) (getD_set_ne notIu)
    · -- `iu` now sends what it lacks to `io`, and `io` keeps that much less
      simp only [share, kIu, kIo, uIu, uIo, iuOwn, ioOwn, ne_eq, not_true_eq_false, false_and,
        if_false, Ne.symm apart, not_false_eq_true, true_and]
      split_ifs <;> omega

end Pending

section Round

variable {p U K underfull overfull : List Nat} {iu io : Nat}

/-- A round over the invariant: the pending facts of `pending_step` on the stacks below the
    two popped tops, which keep their weights and so their sides of T. -/
theorem Invariant.round (inv : Invariant p U K (iu :: underfull) (io :: overfull)) :
    Pending p (U.set io (U.getD io 0 + U.getD iu 0 - p.sum)) (K.set iu io)
      ((if U.getD io 0 + U.getD iu 0 - p.sum = p.sum then [] else [io]) ++ (underfull ++ overfull)) ∧
    (∀ x ∈ underfull, (U.set io (U.getD io 0 + U.getD iu 0 - p.sum)).getD x 0 < p.sum) ∧
    (∀ x ∈ overfull, p.sum < (U.set io (U.getD io 0 + U.getD iu 0 - p.sum)).getD x 0) := by
  have pending := inv.toPending.perm (List.perm_middle.cons iu)
  obtain ⟨-, -, ioOut, -⟩ := pending.popped
  refine ⟨pending_step pending (inv.under_lt iu (by simp)) (inv.over_gt io (by simp)), ?_, ?_⟩
  · intro x mem
    rw [getD_set_ne fun (same : x = io) => ioOut (by simp [← same, mem])]
    exact inv.under_lt x (by simp [mem])
  · intro x mem
    rw [getD_set_ne fun (same : x = io) => ioOut (by simp [← same, mem])]
    exact inv.over_gt x (by simp [mem])

/-- Run lemma: with more rounds of fuel than indices on the stacks, the loop empties both
    stacks together, passes the assert after it, and leaves every column settled. -/
theorem aliasLoop_spec (fuel : Nat) : ∀ U K underfull overfull, (underfull ++ overfull).length < fuel →
    Invariant p U K underfull overfull →
      ∃ U' K', aliasLoop p.sum fuel U K underfull overfull = some (U', K') ∧ Pending p U' K' [] := by
  induction fuel with
  | zero => intro _ _ _ _ bound; omega
  | succ fuel ih =>
    intro U K underfull overfull bound inv
    cases underfull with
    | nil =>
      cases overfull with
      | nil => exact ⟨U, K, by simp [aliasLoop], by simpa using inv.toPending⟩
      | cons io overfull =>
        -- overfull weights alone would hold more than their share of T
        have heavy := length_mul_lt_sum (List.cons_ne_nil io overfull) inv.over_gt
        have mass := inv.mass
        simp only [List.nil_append] at mass
        omega
    | cons iu underfull =>
      cases overfull with
      | nil =>
        have light := sum_lt_length_mul (List.cons_ne_nil iu underfull) inv.under_lt
        have mass := inv.mass
        simp only [List.append_nil] at mass
        omega
      | cons io overfull =>
        obtain ⟨pending, under_lt, over_gt⟩ := inv.round
        have ioU : io < U.length := inv.length_U ▸ (inv.own io (by simp)).1
        have uIo := getD_set_self (d := 0) (v := U.getD io 0 + U.getD iu 0 - p.sum) ioU
        simp only [List.cons_append, List.length_cons, List.length_append] at bound
        rw [aliasLoop]
        split_ifs with filled above
        · rw [if_pos filled, List.nil_append] at pending
          exact ih _ _ underfull overfull (by simp; omega) ⟨pending, under_lt, over_gt⟩
        · refine ih _ _ underfull (io :: overfull) (by simp; omega) ⟨?_, under_lt, ?_⟩
          · rw [if_neg filled, List.singleton_append] at pending
            exact pending.perm List.perm_middle.symm
          · intro x mem
            rcases List.mem_cons.mp mem with rfl | deeper
            · rwa [uIo]
            · exact over_gt x deeper
        · refine ih _ _ (io :: underfull) overfull (by simp; omega) ⟨?_, ?_, over_gt⟩
          · rw [if_neg filled, List.singleton_append] at pending
            exact pending
          · intro x mem
            rcases List.mem_cons.mp mem with rfl | deeper
            · rw [uIo]; omega
            · exact under_lt x deeper

end Round

theorem Pending.length_le {p U K S : List Nat} (pending : Pending p U K S) : S.length ≤ p.length := by
  simpa using (pending.nodup.subperm fun x mem => List.mem_range.mpr (pending.own x mem).1).length_le

section New

variable {l : List Nat} {x : Nat}

theorem mem_stack {q : Nat → Prop} [DecidablePred q] :
    x ∈ ((l.zipIdx.filter fun e => decide (q e.1)).map Prod.snd).reverse ↔ x < l.length ∧ q (l.getD x 0) := by
  simp only [List.mem_reverse, List.mem_map, List.mem_filter, List.mem_zipIdx_iff_getElem?, decide_eq_true_eq]
  constructor
  · rintro ⟨⟨u, i⟩, ⟨found, holds⟩, rfl⟩
    obtain ⟨lt, -⟩ := List.getElem?_eq_some_iff.mp found
    exact ⟨lt, by simpa [List.getD_eq_getElem?_getD, found] using holds⟩
  · rintro ⟨lt, holds⟩
    exact ⟨⟨l[x], x⟩, ⟨by simp [lt], by simpa [List.getD_eq_getElem?_getD, lt] using holds⟩, rfl⟩

theorem nodup_stack (f : Nat × Nat → Bool) : ((l.zipIdx.filter f).map Prod.snd).reverse.Nodup := by
  rw [List.nodup_reverse]
  have all : (l.zipIdx.map Prod.snd).Nodup := by
    rw [List.zipIdx_map_snd]
    exact List.nodup_range'
  exact all.sublist (List.filter_sublist.map _)

theorem getD_map_mul (p : List Nat) (n : Nat) : (p.map (· * n)).getD x 0 = p.getD x 0 * n := by
  simp only [List.getD_eq_getElem?_getD, List.getElem?_map]
  cases p[x]? <;> simp

/-- `new`'s tables and stacks before the loop: weights `p[i] * n`, every index its own alias,
    the short indices on one stack and the long ones on the other. -/
theorem invariant_new (p : List Nat) :
    Invariant p (p.map (· * p.length)) (List.range p.length)
      ((((p.map (· * p.length)).zipIdx.filter fun e => e.1 < p.sum).map Prod.snd).reverse)
      ((((p.map (· * p.length)).zipIdx.filter fun e => e.1 > p.sum).map Prod.snd).reverse) := by
  set n := p.length
  set U := p.map (· * n) with U_def
  have lengthU : U.length = n := List.length_map _
  have memUnder : ∀ x, x ∈ ((U.zipIdx.filter fun e => e.1 < p.sum).map Prod.snd).reverse ↔
      x < n ∧ U.getD x 0 < p.sum := fun x => by
    rw [← lengthU]
    exact mem_stack (q := (· < p.sum))
  have memOver : ∀ x, x ∈ ((U.zipIdx.filter fun e => e.1 > p.sum).map Prod.snd).reverse ↔
      x < n ∧ p.sum < U.getD x 0 := fun x => by
    rw [← lengthU]
    exact mem_stack (q := (· > p.sum))
  have own : ∀ x < n, (List.range n).getD x 0 = x := by
    intro x lt
    simp [List.getD_eq_getElem?_getD, lt]
  -- off the stacks a weight is exactly T
  have full : ∀ x < n, x ∉ ((U.zipIdx.filter fun e => e.1 < p.sum).map Prod.snd).reverse ++
      ((U.zipIdx.filter fun e => e.1 > p.sum).map Prod.snd).reverse → U.getD x 0 = p.sum := by
    intro x lt out
    simp only [List.mem_append, memUnder, memOver, not_or, not_and] at out
    have notBelow := out.1 lt
    have notAbove := out.2 lt
    omega
  have inside : ∀ x ∈ ((U.zipIdx.filter fun e => e.1 < p.sum).map Prod.snd).reverse ++
      ((U.zipIdx.filter fun e => e.1 > p.sum).map Prod.snd).reverse, x < n := by
    intro x mem
    rcases List.mem_append.mp mem with below | above
    · exact ((memUnder x).mp below).1
    · exact ((memOver x).mp above).1
  have nodup := List.nodup_append.mpr ⟨nodup_stack _, nodup_stack _, fun x below y above same => by
    have short := ((memUnder x).mp below).2
    have long := ((memOver y).mp above).2
    subst same
    omega⟩
  refine ⟨⟨lengthU, List.length_range, nodup, fun x mem => ⟨inside x mem, own x (inside x mem)⟩,
    fun x lt out => Or.inl ⟨own x lt, full x lt out⟩, ?mass, ?exact⟩,
    fun x mem => ((memUnder x).mp mem).2, fun x mem => ((memOver x).mp mem).2⟩
  case mass =>
    refine sum_map_eq_length_mul nodup inside full ?_
    simp only [U_def, getD_map_mul]
    rw [← sum_mul, sum_range_getD, Nat.mul_comm]
  case exact =>
    intro i lt
    rw [sum_congr rfl fun x mem => share_of_own i (own x (mem_range.mp mem)), sum_ite_eq', if_pos (mem_range.mpr lt),
      U_def, getD_map_mul, Nat.mul_comm]

end New

/-- What `new` is for: a table over the indices of p whose draw pairs (x, y) in
    [0, n) × [0, T) give index i for exactly n * p[i] of them. -/
structure Exact (p : List Nat) (d : DiscreteDistribution) : Prop where
  n_eq : d.n = p.length
  T_eq : d.T = p.sum
  aliased : ∀ i < d.n, (d.U.getD i 0 < d.T ↔ d.K.getD i 0 ≠ i)
  inRange : ∀ x < d.n, ∀ y < d.T, ∃ i < d.n, d.choose x y = some i
  count : ∀ i < d.n,
    ((range d.n ×ˢ range d.T).filter fun xy => d.choose xy.1 xy.2 = some i).card = d.n * p.getD i 0

theorem card_column {T n u k x : Nat} (settled : Settled T n u k x) (i : Nat) :
    ((range T).filter fun y => (if y < u then x else k) = i).card =
      (if x = i then u else 0) + (if k ≠ x ∧ k = i then T - u else 0) := by
  rcases settled with ⟨rfl, rfl⟩ | ⟨other, short, -⟩
  · rw [card_filter_range_ite k k i le_rfl]
    simp
  · rw [card_filter_range_ite x k i short.le]
    simp [other]

theorem Pending.exact_table {p U K : List Nat} (pending : Pending p U K []) :
    Exact p ⟨p.sum, p.length, K, U⟩ := by
  have settled : ∀ x < p.length, Settled p.sum p.length (U.getD x 0) (K.getD x 0) x :=
    fun x lt => pending.settled x lt List.not_mem_nil
  have picks : ∀ x < p.length, ∀ y,
      (⟨p.sum, p.length, K, U⟩ : DiscreteDistribution).choose x y =
        some (if y < U.getD x 0 then x else K.getD x 0) :=
    fun x lt y => choose_of_lt y (pending.length_U ▸ lt) (pending.length_K ▸ lt)
  refine ⟨rfl, rfl, ?aliased, ?inRange, ?count⟩
  case aliased =>
    intro i lt
    show U.getD i 0 < p.sum ↔ K.getD i 0 ≠ i
    rcases settled i lt with ⟨own, full⟩ | ⟨other, short, -⟩
    · rw [own, full]
      exact ⟨fun below => absurd below (Nat.lt_irrefl _), fun ne => absurd rfl ne⟩
    · exact ⟨fun _ => other, fun _ => short⟩
  case inRange =>
    intro x lt y _
    refine ⟨_, ?_, picks x lt y⟩
    rcases settled x lt with ⟨own, -⟩ | ⟨-, -, aliasLt⟩
    · split <;> omega
    · split <;> omega
  case count =>
    intro i lt
    rw [card_filter_product, ← pending.exact i lt]
    refine sum_congr rfl fun x mem => ?_
    simp only [picks x (mem_range.mp mem), Option.some.injEq]
    exact card_column (settled x (mem_range.mp mem)) i

theorem Exact.weight_pos {p : List Nat} {d : DiscreteDistribution} (exact : d.Exact p) {x y i : Nat}
    (hx : x < d.n) (hy : y < d.T) (chosen : d.choose x y = some i) : 0 < p.getD i 0 := by
  obtain ⟨j, lt, picked⟩ := exact.inRange x hx y hy
  obtain rfl : i = j := Option.some_inj.mp (chosen.symm.trans picked)
  have mem : (x, y) ∈ (range d.n ×ˢ range d.T).filter fun xy => d.choose xy.1 xy.2 = some i := by
    simp [hx, hy, chosen]
  have pos := card_pos.mpr ⟨_, mem⟩
  rw [exact.count i lt] at pos
  exact Nat.pos_of_mul_pos_left pos

theorem new_exact (p : List Nat) (positive : 0 < p.sum) : ∃ d, new p = some d ∧ d.Exact p := by
  have start := invariant_new p
  obtain ⟨U, K, run, pending⟩ :=
    aliasLoop_spec (p.length + 1) _ _ _ _ (Nat.lt_succ_of_le start.length_le) start
  refine ⟨_, ?_, pending.exact_table⟩
  simp only [new, Nat.pos_iff_ne_zero.mp positive, if_false, run, Option.map_some]

-- index 0 keeps 2 of its column's 3 heights and lends the last to index 1
example : new [1, 2] = some ⟨3, 2, [1, 1], [2, 3]⟩ := by decide

end DiscreteDistribution

end Albatross
