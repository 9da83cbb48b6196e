import Mathlib

/- Prefixes of lists as the keys of a radix tree see them: the longest common
   prefix of two lists, and a list extended by one more element, `p ++ [a] <+: k`,
   which is how a key `k` lies below `p` through the branch `a`. -/
namespace Albatross

section CommonPrefix

variable {α : Type} [DecidableEq α]

/-- The longest common prefix of two lists. -/
def commonPrefix : List α → List α → List α
  | a :: as, b :: bs => if a = b then a :: commonPrefix as bs else []
  | _, _ => []

theorem commonPrefix_prefix_left : ∀ l₁ l₂ : List α, commonPrefix l₁ l₂ <+: l₁
  | [], _ => by simp [commonPrefix]
  | _ :: _, [] => by simp [commonPrefix]
  | a :: as, b :: bs => by
    unfold commonPrefix
    split
    · exact List.cons_prefix_cons.mpr ⟨rfl, commonPrefix_prefix_left as bs⟩
    · exact List.nil_prefix

theorem commonPrefix_prefix_right : ∀ l₁ l₂ : List α, commonPrefix l₁ l₂ <+: l₂
  | [], _ => by simp [commonPrefix]
  | _ :: _, [] => by simp [commonPrefix]
  | a :: as, b :: bs => by
    unfold commonPrefix
    split
    · rename_i same
      exact List.cons_prefix_cons.mpr ⟨same, commonPrefix_prefix_right as bs⟩
    · exact List.nil_prefix

theorem prefix_commonPrefix : ∀ {l l₁ l₂ : List α}, l <+: l₁ → l <+: l₂ → l <+: commonPrefix l₁ l₂
  | [], _, _, _, _ => List.nil_prefix
  | c :: cs, a :: as, b :: bs, h₁, h₂ => by
    obtain ⟨rfl, rest₁⟩ := List.cons_prefix_cons.mp h₁
    obtain ⟨rfl, rest₂⟩ := List.cons_prefix_cons.mp h₂
    rw [commonPrefix, if_pos rfl]
    exact List.cons_prefix_cons.mpr ⟨rfl, prefix_commonPrefix rest₁ rest₂⟩
  | _ :: _, [], _, h₁, _ => absurd h₁ (by simp)
  | _ :: _, _ :: _, [], _, h₂ => absurd h₂ (by simp)

/-- Two lists of which neither is a prefix of the other part right after their
    common prefix, through two different elements. -/
theorem commonPrefix_fork : ∀ {l₁ l₂ : List α}, ¬ l₁ <+: l₂ → ¬ l₂ <+: l₁ →
    ∃ a b, a ≠ b ∧ commonPrefix l₁ l₂ ++ [a] <+: l₁ ∧ commonPrefix l₁ l₂ ++ [b] <+: l₂
  | [], _, h₁, _ => absurd List.nil_prefix h₁
  | _ :: _, [], _, h₂ => absurd List.nil_prefix h₂
  | a :: as, b :: bs, h₁, h₂ => by
    by_cases same : a = b
    · subst same
      have h₁' : ¬ as <+: bs := fun h => h₁ (List.cons_prefix_cons.mpr ⟨rfl, h⟩)
      have h₂' : ¬ bs <+: as := fun h => h₂ (List.cons_prefix_cons.mpr ⟨rfl, h⟩)
      obtain ⟨x, y, ne, left, right⟩ := commonPrefix_fork h₁' h₂'
      refine ⟨x, y, ne, ?_, ?_⟩
      · simpa [commonPrefix] using left
      · simpa [commonPrefix] using right
    · exact ⟨a, b, same, by simp [commonPrefix, same], by simp [commonPrefix, same]⟩

/-- The common prefix is the first `d` elements where the lists agree below `d` and `d` is
    the end of one of them or a place where they differ. The induction is on the first list. -/
theorem commonPrefix_eq_take : ∀ {l₁ l₂ : List α} {d : Nat}, d ≤ l₁.length → d ≤ l₂.length →
    (∀ i < d, l₁[i]? = l₂[i]?) → (d < l₁.length → d < l₂.length → l₁[d]? ≠ l₂[d]?) →
    commonPrefix l₁ l₂ = l₁.take d
  | [], _, d, le₁, _, _, _ => by simp [commonPrefix]
  | _ :: _, [], d, _, le₂, _, _ => by
    obtain rfl : d = 0 := by simpa using le₂
    simp [commonPrefix]
  | a :: as, b :: bs, 0, _, _, _, parts => by
    have differ : a ≠ b := fun same => parts (by simp) (by simp) (by simp [same])
    simp [commonPrefix, differ]
  | a :: as, b :: bs, d + 1, le₁, le₂, agree, parts => by
    have same : a = b := by simpa using agree 0 (by omega)
    rw [commonPrefix, if_pos same, List.take_succ_cons,
      commonPrefix_eq_take (by simpa using le₁) (by simpa using le₂)
        (fun i below => by simpa using agree (i + 1) (by omega))
        (fun short₁ short₂ => by simpa using parts (by simp; omega) (by simp; omega))]

end CommonPrefix

variable {α : Type} {p k l : List α} {a b : α}

theorem exists_concat_of_ne (h : p <+: k) (ne : p ≠ k) : ∃ a, p ++ [a] <+: k := by
  obtain ⟨t, rfl⟩ := h
  cases t with
  | nil => simp at ne
  | cons a t => exact ⟨a, by simp⟩

theorem concat_prefix_inj (ha : p ++ [a] <+: k) (hb : p ++ [b] <+: k) : a = b := by
  have := List.prefix_of_prefix_length_le ha hb (by simp)
  simpa using this

theorem prefix_of_concat (h : p ++ [a] <+: k) : p <+: k :=
  (List.prefix_append p [a]).trans h

theorem ne_of_concat (h : p ++ [a] <+: k) : p ≠ k := by
  rintro rfl
  have := h.length_le
  simp only [List.length_append, List.length_singleton] at this
  omega

theorem length_lt_of_concat (h : p ++ [a] <+: k) : p.length < k.length := by
  have := h.length_le
  simp only [List.length_append, List.length_singleton] at this
  omega

/-- Between a list and its extension by `a`, there is nothing: a prefix of `k`
    that extends `p` either is `p` or extends `p ++ [a]`. -/
theorem concat_prefix_of_between (h : p ++ [a] <+: k) (hl : l <+: k) (hp : p <+: l) (ne : l ≠ p) :
    p ++ [a] <+: l := by
  obtain ⟨c, hc⟩ := exists_concat_of_ne hp (Ne.symm ne)
  have hck : p ++ [c] <+: k := hc.trans hl
  rwa [concat_prefix_inj h hck]

theorem getElem?_of_concat (h : p ++ [a] <+: k) : k[p.length]? = some a := by
  obtain ⟨t, rfl⟩ := h
  simp

theorem concat_prefix_of_getElem? (h : p <+: k) (get : k[p.length]? = some a) : p ++ [a] <+: k := by
  obtain ⟨t, rfl⟩ := h
  cases t with
  | nil => simp at get
  | cons b t =>
    simp only [List.getElem?_append_right (Nat.le_refl _), Nat.sub_self, List.getElem?_cons_zero,
      Option.some.injEq] at get
    subst get
    exact ⟨t, by simp⟩

section Order

variable {β : Type} [LinearOrder β] {c k q r : List β} {x y : β}

/-- Keys below two branches of one prefix compare as the branches do. -/
theorem lt_of_concat_lt {p : List β} (hx : p ++ [x] <+: q) (hy : p ++ [y] <+: r) (lt : x < y) : q < r := by
  obtain ⟨s, rfl⟩ := hx
  obtain ⟨t, rfl⟩ := hy
  induction p with
  | nil => exact List.cons_lt_cons_iff.mpr (Or.inl lt)
  | cons z p ih => exact List.cons_lt_cons_iff.mpr (Or.inr ⟨rfl, ih⟩)

theorem lt_of_lt_of_not_isPrefix (hc : c <+: k) (lt : q < k) (out : ¬ c <+: q) : q < c := by
  induction c generalizing k q with
  | nil => exact absurd List.nil_prefix out
  | cons z c ih =>
    obtain ⟨t, rfl⟩ := hc
    cases q with
    | nil => exact List.nil_lt_cons z c
    | cons w q =>
      rcases List.cons_lt_cons_iff.mp lt with below | ⟨rfl, rest⟩
      · exact List.cons_lt_cons_iff.mpr (Or.inl below)
      · have out' : ¬ c <+: q := fun h => out (List.cons_prefix_cons.mpr ⟨rfl, h⟩)
        exact List.cons_lt_cons_iff.mpr (Or.inr ⟨rfl, ih (List.prefix_append c t) rest out'⟩)

theorem lt_of_prefix_of_lt (lt : c < k) (off : ¬ c <+: k) (hq : c <+: q) : q < k := by
  induction c generalizing k q with
  | nil => exact absurd List.nil_prefix off
  | cons z c ih =>
    obtain ⟨t, rfl⟩ := hq
    cases k with
    | nil => exact absurd lt (List.not_lt_nil _)
    | cons w k =>
      rcases List.cons_lt_cons_iff.mp lt with below | ⟨rfl, rest⟩
      · exact List.cons_lt_cons_iff.mpr (Or.inl below)
      · have off' : ¬ c <+: k := fun h => off (List.cons_prefix_cons.mpr ⟨rfl, h⟩)
        exact List.cons_lt_cons_iff.mpr (Or.inr ⟨rfl, ih rest off' (List.prefix_append c t)⟩)

theorem lt_of_concat_isPrefix (h : c ++ [x] <+: k) : c < k := by
  obtain ⟨t, rfl⟩ := h
  induction c with
  | nil => exact List.nil_lt_cons x t
  | cons z c ih => exact List.cons_lt_cons_iff.mpr (Or.inr ⟨rfl, ih⟩)

theorem le_of_isPrefix (h : c <+: k) : c ≤ k := by
  by_cases same : c = k
  · exact le_of_eq same
  · obtain ⟨x, hx⟩ := exists_concat_of_ne h same
    exact (lt_of_concat_isPrefix hx).le

end Order

end Albatross
