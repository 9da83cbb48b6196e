import Mathlib

/- Maps kept as lists of keys and values, as a `BTreeMap` or `BTreeSet` is used by
   code that looks entries up, changes them in place or adds them, and iterates in
   key order only where the list is kept sorted. -/
namespace Albatross

variable {K V : Type}

section Keyed

variable [DecidableEq K]

def findKey (k : K) : List (K × V) → Option V
  | [] => none
  | (k', v) :: rest => if k' = k then some v else findKey k rest

/-- `entry(k).or_default()` followed by a change of the value: the entry of `k`, or
    `d` where there is none, is replaced by its image under `f`. -/
def modifyKey (k : K) (d : V) (f : V → V) : List (K × V) → List (K × V)
  | [] => [(k, f d)]
  | (k', v) :: rest => if k' = k then (k', f v) :: rest else (k', v) :: modifyKey k d f rest

/-- `insert`: the value of `k` becomes `v`, whether or not there was one. -/
def insertKey (k : K) (v : V) (m : List (K × V)) : List (K × V) := modifyKey k v (fun _ => v) m

/-- `remove`: the entry of `k` is dropped. -/
def eraseKey (k : K) : List (K × V) → List (K × V)
  | [] => []
  | (k', v) :: rest => if k' = k then eraseKey k rest else (k', v) :: eraseKey k rest

@[simp] theorem findKey_nil (k : K) : findKey k ([] : List (K × V)) = none := rfl

theorem findKey_cons (k k' : K) (v : V) (rest : List (K × V)) :
    findKey k ((k', v) :: rest) = if k' = k then some v else findKey k rest := rfl

@[simp] theorem findKey_modifyKey_self (k : K) (d : V) (f : V → V) (m : List (K × V)) :
    findKey k (modifyKey k d f m) = some (f ((findKey k m).getD d)) := by
  induction m with
  | nil => simp [modifyKey, findKey]
  | cons e rest ih =>
    obtain ⟨k', v⟩ := e
    by_cases same : k' = k
    · simp [modifyKey, findKey, same]
    · simp [modifyKey, findKey_cons, same, ih]

@[simp] theorem findKey_modifyKey_of_ne {k j : K} (ne : k ≠ j) (d : V) (f : V → V) (m : List (K × V)) :
    findKey j (modifyKey k d f m) = findKey j m := by
  induction m with
  | nil => simp [modifyKey, findKey, ne]
  | cons e rest ih =>
    obtain ⟨k', v⟩ := e
    by_cases same : k' = k
    · subst same
      simp [modifyKey, findKey_cons, ne]
    · simp only [modifyKey, if_neg same, findKey_cons, ih]

@[simp] theorem findKey_insertKey_self (k : K) (v : V) (m : List (K × V)) :
    findKey k (insertKey k v m) = some v := by
  simp [insertKey]

@[simp] theorem findKey_insertKey_of_ne {k j : K} (ne : k ≠ j) (v : V) (m : List (K × V)) :
    findKey j (insertKey k v m) = findKey j m := by
  simp [insertKey, ne]

@[simp] theorem findKey_eraseKey_self (k : K) (m : List (K × V)) : findKey k (eraseKey k m) = none := by
  induction m with
  | nil => rfl
  | cons e rest ih =>
    obtain ⟨k', v⟩ := e
    by_cases same : k' = k
    · simp [eraseKey, same, ih]
    · simp [eraseKey, same, findKey_cons, ih]

@[simp] theorem findKey_eraseKey_of_ne {k j : K} (ne : k ≠ j) (m : List (K × V)) :
    findKey j (eraseKey k m) = findKey j m := by
  induction m with
  | nil => rfl
  | cons e rest ih =>
    obtain ⟨k', v⟩ := e
    by_cases same : k' = k
    · subst same
      simp [eraseKey, findKey_cons, ne, ih]
    · rw [eraseKey, if_neg same, findKey_cons, findKey_cons, ih]

theorem keys_eraseKey_sublist (k : K) (m : List (K × V)) : ((eraseKey k m).map Prod.fst).Sublist (m.map Prod.fst) := by
  induction m with
  | nil => exact List.Sublist.slnil
  | cons e rest ih =>
    obtain ⟨k', v⟩ := e
    unfold eraseKey
    split
    · exact ih.cons _
    · exact ih.cons_cons _

theorem not_mem_keys_eraseKey (k : K) (m : List (K × V)) : k ∉ (eraseKey k m).map Prod.fst := by
  induction m with
  | nil => simp [eraseKey]
  | cons e rest ih =>
    obtain ⟨k', v⟩ := e
    unfold eraseKey
    split
    · exact ih
    · rename_i other
      simp only [List.map_cons, List.mem_cons, not_or]
      exact ⟨fun same => other same.symm, ih⟩

theorem keys_insertKey_of_not_mem {k : K} {v : V} {m : List (K × V)} (absent : k ∉ m.map Prod.fst) :
    (insertKey k v m).map Prod.fst = m.map Prod.fst ++ [k] := by
  induction m with
  | nil => rfl
  | cons e rest ih =>
    obtain ⟨k', v'⟩ := e
    simp only [List.map_cons, List.mem_cons, not_or] at absent
    simp only [insertKey, modifyKey, if_neg (Ne.symm absent.1), List.map_cons, List.cons_append]
    exact congrArg _ (ih absent.2)

theorem findKey_map_value {W : Type} (f : V → W) (k : K) (m : List (K × V)) :
    findKey k (m.map fun e => (e.1, f e.2)) = (findKey k m).map f := by
  induction m with
  | nil => rfl
  | cons e rest ih =>
    obtain ⟨k', v⟩ := e
    simp only [List.map_cons, findKey_cons]
    split
    · rfl
    · exact ih

theorem findKey_eq_none_of_not_mem {k : K} {m : List (K × V)} (absent : k ∉ m.map Prod.fst) : findKey k m = none := by
  induction m with
  | nil => rfl
  | cons e rest ih =>
    obtain ⟨k', v⟩ := e
    simp only [List.map_cons, List.mem_cons, not_or] at absent
    rw [findKey_cons, if_neg (Ne.symm absent.1), ih absent.2]

theorem mem_of_findKey_eq_some {k : K} {v : V} {m : List (K × V)} (found : findKey k m = some v) : (k, v) ∈ m := by
  induction m with
  | nil => cases found
  | cons e rest ih =>
    obtain ⟨k', v'⟩ := e
    rw [findKey_cons] at found
    split at found
    · cases found
      subst k'
      exact List.mem_cons_self
    · exact List.mem_cons_of_mem _ (ih found)

/-- In a map whose keys are distinct, as those of a `BTreeMap`, every entry is found. -/
theorem findKey_of_mem {k : K} {v : V} {m : List (K × V)} (distinct : (m.map Prod.fst).Nodup)
    (mem : (k, v) ∈ m) : findKey k m = some v := by
  induction m with
  | nil => cases mem
  | cons e rest ih =>
    obtain ⟨k', v'⟩ := e
    simp only [List.map_cons, List.nodup_cons] at distinct
    rw [findKey_cons]
    rcases List.mem_cons.mp mem with same | later
    · cases same
      simp
    · have other : k' ≠ k := by
        rintro rfl
        exact distinct.1 (List.mem_map.mpr ⟨_, later, rfl⟩)
      rw [if_neg other, ih distinct.2 later]

theorem findKey_insertKey (j k : K) (v : V) (m : List (K × V)) :
    findKey j (insertKey k v m) = if j = k then some v else findKey j m := by
  by_cases here : j = k
  · subst here
    simp
  · simp [here, Ne.symm here]

theorem findKey_eraseKey (j k : K) (m : List (K × V)) :
    findKey j (eraseKey k m) = if j = k then none else findKey j m := by
  by_cases here : j = k
  · subst here
    simp
  · simp [here, Ne.symm here]

theorem eraseKey_eq_filter (k : K) (m : List (K × V)) : eraseKey k m = m.filter fun e => e.1 ≠ k := by
  induction m with
  | nil => rfl
  | cons e rest ih =>
    obtain ⟨k', v⟩ := e
    by_cases same : k' = k
    · simp [eraseKey, same, ih]
    · simp [eraseKey, same, ih]

theorem eraseKey_sublist (k : K) (m : List (K × V)) : (eraseKey k m).Sublist m := by
  rw [eraseKey_eq_filter]
  exact List.filter_sublist

@[simp] theorem eraseKey_eraseKey_self (k : K) (m : List (K × V)) : eraseKey k (eraseKey k m) = eraseKey k m := by
  simp [eraseKey_eq_filter, List.filter_filter]

theorem findKey_eq_none_iff {k : K} {m : List (K × V)} : findKey k m = none ↔ k ∉ m.map Prod.fst := by
  constructor
  · intro absent
    induction m with
    | nil => simp
    | cons e rest ih =>
      obtain ⟨k', v⟩ := e
      rw [findKey_cons] at absent
      split at absent
      · cases absent
      · rename_i other
        simp only [List.map_cons, List.mem_cons, not_or]
        exact ⟨fun same => other same.symm, ih absent⟩
  · exact findKey_eq_none_of_not_mem

theorem findKey_isSome_of_mem {k : K} {v : V} {m : List (K × V)} (mem : (k, v) ∈ m) : (findKey k m).isSome := by
  cases found : findKey k m with
  | none => exact absurd (List.mem_map.mpr ⟨_, mem, rfl⟩) (findKey_eq_none_iff.mp found)
  | some _ => rfl

theorem eraseKey_of_findKey_eq_none {k : K} {m : List (K × V)} (absent : findKey k m = none) : eraseKey k m = m := by
  rw [eraseKey_eq_filter, List.filter_eq_self]
  intro e mem
  have other : e.1 ≠ k := fun same => findKey_eq_none_iff.mp absent (List.mem_map.mpr ⟨e, mem, same⟩)
  simpa using other

theorem insertKey_of_findKey_eq_none {k : K} {v : V} {m : List (K × V)} (absent : findKey k m = none) :
    insertKey k v m = m ++ [(k, v)] := by
  induction m with
  | nil => rfl
  | cons e rest ih =>
    obtain ⟨k', v'⟩ := e
    rw [findKey_cons] at absent
    split at absent
    · cases absent
    · rename_i other
      simp only [insertKey, modifyKey, if_neg other, List.cons_append]
      exact congrArg _ (ih absent)

theorem length_eraseKey_lt {k : K} {v : V} {m : List (K × V)} (found : findKey k m = some v) :
    (eraseKey k m).length < m.length := by
  rw [eraseKey_eq_filter]
  apply List.length_filter_lt_length_iff_exists.mpr
  exact ⟨(k, v), mem_of_findKey_eq_some found, by simp⟩

theorem keys_nodup_insertKey {k : K} {v : V} {m : List (K × V)} (distinct : (m.map Prod.fst).Nodup)
    (absent : findKey k m = none) : ((insertKey k v m).map Prod.fst).Nodup := by
  rw [insertKey_of_findKey_eq_none absent, List.map_append, List.nodup_append]
  refine ⟨distinct, List.pairwise_singleton _ k, ?_⟩
  intro a mem b single same
  simp only [List.map_cons, List.map_nil, List.mem_singleton] at single
  subst single same
  exact findKey_eq_none_iff.mp absent mem

/-- Over distinct keys, taking an entry out of the map takes its term out of a sum
    over the entries. -/
theorem sum_map_eraseKey (g : K × V → Nat) {k : K} {v : V} {m : List (K × V)}
    (distinct : (m.map Prod.fst).Nodup) (found : findKey k m = some v) :
    ((eraseKey k m).map g).sum + g (k, v) = (m.map g).sum := by
  induction m with
  | nil => cases found
  | cons e rest ih =>
    obtain ⟨k', v'⟩ := e
    simp only [List.map_cons, List.nodup_cons] at distinct
    rw [findKey_cons] at found
    split at found
    · rename_i same
      cases found
      subst same
      have gone : findKey k' rest = none := findKey_eq_none_iff.mpr distinct.1
      rw [eraseKey, if_pos rfl, eraseKey_of_findKey_eq_none gone]
      simp only [List.map_cons, List.sum_cons]
      omega
    · rename_i other
      simp only [eraseKey, if_neg other, List.map_cons, List.sum_cons]
      have := ih distinct.2 found
      omega

theorem sum_map_insertKey (g : K × V → Nat) {k : K} {v : V} {m : List (K × V)} (absent : findKey k m = none) :
    ((insertKey k v m).map g).sum = (m.map g).sum + g (k, v) := by
  simp [insertKey_of_findKey_eq_none absent]

end Keyed

/-- `std::cmp::Reverse`: its contents ordered the other way round. -/
structure Reverse (α : Type) where
  val : α
  deriving DecidableEq, Repr

instance {α : Type} [Ord α] : Ord (Reverse α) := ⟨fun a b => compare b.val a.val⟩

section Priority

variable {P : Type} [Ord P]

/-- `peek` of a `KeyedPriorityQueue` kept as a list with distinct keys: an entry of
    greatest priority, the earliest one in the list where several are greatest (the
    heap's own choice among equals is not modelled). -/
def peekMax : List (K × P) → Option (K × P)
  | [] => none
  | e :: rest =>
    match peekMax rest with
    | none => some e
    | some best => if compare e.2 best.2 = .lt then some best else some e

/-- `pop`: the entry that `peek` shows leaves the queue. -/
def popMax [DecidableEq K] (q : List (K × P)) : Option ((K × P) × List (K × P)) :=
  (peekMax q).map fun e => (e, eraseKey e.1 q)

theorem peekMax_mem {q : List (K × P)} {e : K × P} (peeked : peekMax q = some e) : e ∈ q := by
  induction q generalizing e with
  | nil => cases peeked
  | cons first rest ih =>
    simp only [peekMax] at peeked
    split at peeked
    · cases peeked
      exact List.mem_cons_self
    · rename_i best restBest
      split at peeked
      · cases peeked
        exact List.mem_cons_of_mem _ (ih restBest)
      · cases peeked
        exact List.mem_cons_self

@[simp] theorem peekMax_eq_none_iff {q : List (K × P)} : peekMax q = none ↔ q = [] := by
  cases q with
  | nil => simp [peekMax]
  | cons first rest =>
    simp only [peekMax, reduceCtorEq, iff_false]
    split
    · simp
    · split <;> simp

end Priority

/-- `insert` into a map that is iterated in key order, kept sorted. -/
def insertSorted [LinearOrder K] (k : K) (v : V) : List (K × V) → List (K × V)
  | [] => [(k, v)]
  | (k', v') :: rest =>
    if k < k' then (k, v) :: (k', v') :: rest
    else if k = k' then (k, v) :: rest
    else (k', v') :: insertSorted k v rest

end Albatross
