import Mathlib

/- Strictly increasing lists of numbers: how many entries fall below a bound. -/
namespace Albatross

variable {l : List Nat} {lower bound : Nat}

theorem mem_takeWhile_of_increasing (increasing : l.Pairwise (· < ·)) {x : Nat} (mem : x ∈ l)
    (below : x < bound) : x ∈ l.takeWhile (· < bound) := by
  induction l with
  | nil => cases mem
  | cons y ys ih =>
    rw [List.pairwise_cons] at increasing
    by_cases lt : y < bound
    · rw [List.takeWhile_cons_of_pos (by simpa using lt)]
      rcases List.mem_cons.mp mem with rfl | mem
      · exact List.mem_cons_self
      · exact List.mem_cons_of_mem _ (ih increasing.2 mem)
    · rcases List.mem_cons.mp mem with rfl | mem
      · exact absurd below lt
      · have := increasing.1 x mem
        omega

theorem takeWhile_subset_Ico (above : ∀ x ∈ l, lower ≤ x) :
    (l.takeWhile (· < bound)).toFinset ⊆ Finset.Ico lower bound := by
  intro x mem
  rw [List.mem_toFinset] at mem
  have below := List.mem_takeWhile_imp mem
  simp only [decide_eq_true_eq] at below
  exact Finset.mem_Ico.mpr ⟨above x ((List.takeWhile_sublist _).subset mem), below⟩

/-- A strictly increasing list has at most `bound - lower` entries below `bound` when
    none is below `lower`. -/
theorem length_takeWhile_le (increasing : l.Pairwise (· < ·)) (above : ∀ x ∈ l, lower ≤ x) :
    (l.takeWhile (· < bound)).length ≤ bound - lower := by
  have nodup : (l.takeWhile (· < bound)).Nodup :=
    (increasing.sublist (List.takeWhile_sublist _)).imp (ne_of_lt) |> List.nodup_iff_pairwise_ne.mpr
  calc (l.takeWhile (· < bound)).length
      = (l.takeWhile (· < bound)).toFinset.card := (List.toFinset_card_of_nodup nodup).symm
    _ ≤ (Finset.Ico lower bound).card := Finset.card_le_card (takeWhile_subset_Ico above)
    _ = bound - lower := Nat.card_Ico lower bound

theorem length_takeWhile_eq (increasing : l.Pairwise (· < ·)) (above : ∀ x ∈ l, lower ≤ x)
    (full : ∀ x, lower ≤ x → x < bound → x ∈ l) :
    (l.takeWhile (· < bound)).length = bound - lower := by
  have nodup : (l.takeWhile (· < bound)).Nodup :=
    (increasing.sublist (List.takeWhile_sublist _)).imp (ne_of_lt) |> List.nodup_iff_pairwise_ne.mpr
  have same : (l.takeWhile (· < bound)).toFinset = Finset.Ico lower bound := by
    refine Finset.Subset.antisymm (takeWhile_subset_Ico above) fun x mem => ?_
    obtain ⟨low, high⟩ := Finset.mem_Ico.mp mem
    exact List.mem_toFinset.mpr (mem_takeWhile_of_increasing increasing (full x low high) high)
  rw [← List.toFinset_card_of_nodup nodup, same, Nat.card_Ico]

theorem le_of_mem_dropWhile (increasing : l.Pairwise (· < ·)) {x : Nat}
    (mem : x ∈ l.dropWhile (· < bound)) : bound ≤ x := by
  induction l with
  | nil => cases mem
  | cons y ys ih =>
    rw [List.pairwise_cons] at increasing
    by_cases lt : y < bound
    · rw [List.dropWhile_cons_of_pos (by simpa using lt)] at mem
      exact ih increasing.2 mem
    · rw [List.dropWhile_cons_of_neg (by simpa using lt)] at mem
      rcases List.mem_cons.mp mem with rfl | mem
      · omega
      · have := increasing.1 x mem
        omega

theorem mem_dropWhile_of_le {x : Nat} (mem : x ∈ l) (above : bound ≤ x) :
    x ∈ l.dropWhile (· < bound) := by
  rw [← List.takeWhile_append_dropWhile (p := (· < bound)) (l := l)] at mem
  rcases List.mem_append.mp mem with taken | dropped
  · have below := List.mem_takeWhile_imp taken
    simp only [decide_eq_true_eq] at below
    omega
  · exact dropped

section Split

variable {α : Type} {f : α → Nat} {t : Nat}

/-- In a list sorted by `f`, the entries before the first one past `t` are those at or below
    `t`, and the entries from it on those past `t`. -/
theorem take_drop_findIdx_sorted :
    ∀ {l : List α}, l.Pairwise (fun a b => f a ≤ f b) →
      l.take ((l.findIdx? fun x => t < f x).getD l.length) = l.filter (fun x => f x ≤ t) ∧
        l.drop ((l.findIdx? fun x => t < f x).getD l.length) = l.filter (fun x => t < f x)
  | [], _ => by simp
  | a :: l, sorted => by
    rw [List.pairwise_cons] at sorted
    by_cases past : t < f a
    · have later : ∀ b ∈ a :: l, t < f b := by
        intro b mem
        rcases List.mem_cons.mp mem with rfl | mem
        · exact past
        · exact Nat.lt_of_lt_of_le past (sorted.1 b mem)
      have none : (a :: l).filter (fun x => f x ≤ t) = [] :=
        List.filter_eq_nil_iff.mpr fun b mem => by simpa using later b mem
      have all : (a :: l).filter (fun x => t < f x) = a :: l :=
        List.filter_eq_self.mpr fun b mem => by simpa using later b mem
      simp [List.findIdx?_cons, past, none, all]
    · obtain ⟨taken, dropped⟩ := take_drop_findIdx_sorted sorted.2
      have index : ((a :: l).findIdx? fun x => t < f x).getD (a :: l).length =
          (l.findIdx? fun x => t < f x).getD l.length + 1 := by
        rw [List.findIdx?_cons, if_neg (by simpa using past)]
        cases l.findIdx? fun x => t < f x <;> rfl
      rw [index, List.take_succ_cons, List.drop_succ_cons, taken, dropped]
      simp [past, Nat.le_of_not_lt past]

end Split

end Albatross
