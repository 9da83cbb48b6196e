import Albatross.Lib.Nibbles
import Albatross.Trie.Node

/- The packed `KeyNibbles` of primitives/src/key_nibbles.rs: 63 bytes holding two nibbles
   each, the high half first, and a length in nibbles; the nibbles past the length are meant
   to be zero. The operations are modelled on the bytes as the source computes them; a panic
   (a range that runs backwards or past the array, an index past it) is `none`, and the `u8`
   length wraps, as in a release build. The nibbles a key spells are a key of the list model
   in `Trie.Node`. -/
namespace Albatross

namespace Packed

open Nibbles

structure KeyNibbles where
  bytes : Vector UInt8 63
  length : UInt8
  deriving DecidableEq

/-- `bytes[start..stop]`, which panics when the range runs backwards or past the array. -/
def byteRange (bytes : Vector UInt8 63) (start stop : Nat) : Option (List UInt8) :=
  if start ≤ stop ∧ stop ≤ 63 then some ((bytes.toList.drop start).take (stop - start)) else none

/-- `bytes[index] = byte`, which panics past the array. -/
def setByte (bytes : Vector UInt8 63) (index : Nat) (byte : UInt8) : Option (Vector UInt8 63) :=
  if h : index < 63 then some (bytes.set index byte h) else none

/-- `bytes[offset..offset + src.len()].copy_from_slice(src)`. -/
def copyInto (bytes : Vector UInt8 63) (offset : Nat) (src : List UInt8) : Option (Vector UInt8 63) :=
  if fits : offset + src.length ≤ 63 then
    some ⟨(bytes.toList.take offset ++ src ++ bytes.toList.drop (offset + src.length)).toArray, by
      simp only [List.size_toArray, List.length_append, List.length_take, List.length_drop,
        Vector.length_toList]
      omega⟩
  else none

namespace KeyNibbles

/-- `KeyNibbles::ROOT`. -/
def root : KeyNibbles := ⟨Vector.replicate 63 0, 0⟩

def len (k : KeyNibbles) : Nat := k.length.toNat

/-- `bytes_len`: the bytes that hold the key's nibbles. -/
def bytesLen (k : KeyNibbles) : Nat := (k.len + 1) / 2

/-- The key as the list of its nibbles. -/
def toList (k : KeyNibbles) : Albatross.KeyNibbles := (List.range k.len).map (nibble k.bytes.toList)

local instance : NeZero 16 := inferInstance

/-- The representation invariant: at most 126 nibbles, and the unused nibbles zeroed. -/
def Valid (k : KeyNibbles) : Prop := k.len ≤ 126 ∧ ∀ i < 126, k.len ≤ i → nibble k.bytes.toList i = 0

instance (k : KeyNibbles) : Decidable k.Valid := inferInstanceAs (Decidable (_ ∧ _))

/-- `get`: `Some` nibble below the length, `None` past it. -/
def get (k : KeyNibbles) (index : Nat) : Option (Option Nat) :=
  if index ≥ k.len then some none
  else do
    let byte ← k.bytes[index / 2]?
    pure (some ((byte >>> ((1 - index % 2) * 4).toUInt8) &&& 0xf).toNat)

/-- `successor`: the same bytes, one nibble longer. It never panics: the length wraps. -/
def successor (k : KeyNibbles) : Option KeyNibbles := some { k with length := k.length + 1 }

/-- For a key ending inside a byte, whether the high half of that byte differs from
`other`'s. -/
def lastHalfDiffers (k other : KeyNibbles) : Option Bool :=
  if k.length % 2 = 1 then do
    let own ← k.bytes[k.len / 2]?
    let theirs ← other.bytes[k.len / 2]?
    pure ((own >>> 4) &&& (0xf : UInt8) != (theirs >>> 4) &&& 0xf)
  else some false

def isPrefixOf (k other : KeyNibbles) : Option Bool :=
  if k.length > other.length then some false
  else
    (lastHalfDiffers k other).bind fun differs =>
      if differs then some false
      else do
        -- then the whole bytes below
        let ours ← byteRange k.bytes 0 (k.len / 2)
        let theirs ← byteRange other.bytes 0 (k.len / 2)
        pure (ours == theirs)

/-- One turn of the shifting loop of `slice`: the byte written takes the low half of the
byte before, kept in `current`, and the high half of its own. -/
def shiftStep (acc : Vector UInt8 63 × Nat × UInt8) (byte : UInt8) :
    Option (Vector UInt8 63 × Nat × UInt8) := do
  let newBytes ← setByte acc.1 acc.2.1 (acc.2.2 ||| ((byte >>> 4) &&& 0xf))
  pure (newBytes, acc.2.1 + 1, (byte &&& 0xf) <<< 4)

/-- The bytes of `slice` up to its last whole or half byte, with their number: whole bytes
copied for an even `start`, bytes shifted by a nibble for an odd one. -/
def sliceBytes (k : KeyNibbles) (start stop : Nat) : Option (Vector UInt8 63 × Nat) :=
  let byteStart := start / 2
  let byteEnd := stop / 2
  if start % 2 = 0 then do
    let src ← byteRange k.bytes byteStart byteEnd
    let newBytes ← copyInto root.bytes 0 src
    pure (newBytes, byteEnd - byteStart)
  else do
    let first ← k.bytes[byteStart]?
    let src ← byteRange k.bytes (byteStart + 1) byteEnd
    let (newBytes, newBytesLength, current) ←
      src.foldlM shiftStep (root.bytes, 0, (first &&& 0xf) <<< 4)
    let newBytes ← setByte newBytes newBytesLength current
    pure (newBytes, newBytesLength + 1)

/-- For an odd end, the high half of the byte it ends in: a byte of its own after an even
start, the low half of the last byte after an odd one. -/
def addLastNibble (k : KeyNibbles) (start stop : Nat) (newBytes : Vector UInt8 63)
    (newBytesLength : Nat) : Option (Vector UInt8 63) :=
  if stop % 2 = 1 then do
    let lastNibble := (← k.bytes[stop / 2]?) &&& 0xf0
    if start % 2 = 0 then setByte newBytes newBytesLength lastNibble
    else do
      let previous ← newBytes[newBytesLength - 1]?
      setByte newBytes (newBytesLength - 1) (previous ||| (lastNibble >>> 4))
  else pure newBytes

/-- `slice(start, end)`: nibbles `start` up to `end` (cut at the length). -/
def slice (k : KeyNibbles) (start stop : Nat) : Option KeyNibbles :=
  if start > k.len ∨ stop < start then some root
  else do
    let stop := min stop k.len
    let (newBytes, newBytesLength) ← sliceBytes k start stop
    let newBytes ← addLastNibble k start stop newBytes newBytesLength
    pure ⟨newBytes, (stop - start).toUInt8⟩

/-- `suffix(start)`: the nibbles from `start` on. -/
def suffix (k : KeyNibbles) (start : UInt8) : Option KeyNibbles := k.slice start.toNat k.len

/-- The first nibble index below `minLen` at which the keys differ, scanning the bytes
`js`; `minLen` when none does. -/
def firstDifference (k other : KeyNibbles) (minLen : Nat) : List Nat → Option Nat
  | [] => some minLen
  | j :: js => do
    let ours ← k.bytes[j]?
    let theirs ← other.bytes[j]?
    if ours ≠ theirs then
      let high ← k.get (j * 2)
      let otherHigh ← other.get (j * 2)
      if high ≠ otherHigh then some (j * 2) else some (j * 2 + 1)
    else firstDifference k other minLen js

def commonPrefix (k other : KeyNibbles) : Option KeyNibbles := do
  let minLen := min k.len other.len
  let byteLen := minLen / 2 + minLen % 2
  let firstDifferenceNibble ← firstDifference k other minLen (List.range byteLen)
  k.slice 0 firstDifferenceNibble

/-- One turn of the loop of `add` over `other`'s bytes: the byte at `base + count` joins
`next_byte` and the high half of `byte`, whose low half becomes `next_byte`. -/
def addStep (base : Nat) (acc : Vector UInt8 63 × Nat × UInt8) (entry : UInt8 × Nat) :
    Option (Vector UInt8 63 × Nat × UInt8) := do
  let bytes ← setByte acc.1 (base + entry.2) (acc.2.2 ||| (entry.1 >>> 4))
  pure (bytes, acc.2.1 + 1, (entry.1 &&& 0xf) <<< 4)

/-- The bytes of `k + other`. An even `k` takes `other`'s bytes whole; an odd one shifts them
by a nibble into the half byte it ends in. -/
def addBytes (k other : KeyNibbles) : Option (Vector UInt8 63) :=
  if k.len % 2 = 0 then do
    let src ← byteRange other.bytes 0 other.bytesLen
    copyInto k.bytes k.bytesLen src
  else do
    let next ← k.bytes[k.bytesLen - 1]?
    let src ← byteRange other.bytes 0 other.bytesLen
    let (bytes, bytesLength, next) ← src.zipIdx.foldlM (addStep (k.bytesLen - 1)) (k.bytes, k.bytesLen - 1, next)
    if other.length % 2 = 0 then setByte bytes bytesLength next else pure bytes

/-- `k + other`. -/
def add (k other : KeyNibbles) : Option KeyNibbles := do
  let bytes ← addBytes k other
  pure ⟨bytes, k.length + other.length⟩

/-- The derived `Ord`: the bytes lexicographically, then the length. -/
def cmp (a b : KeyNibbles) : Ordering :=
  (compare a.bytes.toList b.bytes.toList).then (compare a.length b.length)

/-- `post_order_cmp`: a key comes after every key it prefixes, and keys of which neither
prefixes the other are in the derived order. -/
def postOrderCmp (k other : KeyNibbles) : Option Ordering := do
  let forward ← k.isPrefixOf other
  let backward ← other.isPrefixOf k
  pure (match forward, backward with
    | true, true => .eq
    | true, false => .gt
    | false, true => .lt
    | false, false => k.cmp other)

@[simp] theorem length_toList (k : KeyNibbles) : k.toList.length = k.len := by
  simp [toList]

theorem getElem_toList (k : KeyNibbles) (i : Nat) (h : i < k.toList.length) :
    k.toList[i] = nibble k.bytes.toList i := by
  simp [toList]

@[simp] theorem length_bytes (k : KeyNibbles) : k.bytes.toList.length = 63 := by
  simp

theorem getElem?_bytes (bytes : Vector UInt8 63) {i : Nat} (h : i < 63) :
    bytes[i]? = some (bytes.toList.getD i 0) := by
  simp [h]

theorem byteRange_eq (bytes : Vector UInt8 63) {start stop : Nat} (ordered : start ≤ stop)
    (inside : stop ≤ 63) : byteRange bytes start stop = some ((bytes.toList.drop start).take (stop - start)) := by
  simp [byteRange, ordered, inside]

theorem length_odd_iff (k : KeyNibbles) : k.length % 2 = 1 ↔ k.len % 2 = 1 := by
  simp [UInt8.ext_iff, len]

theorem length_lt_iff (a b : KeyNibbles) : a.length < b.length ↔ a.len < b.len :=
  UInt8.lt_iff_toNat_lt

namespace Valid

variable {k : KeyNibbles}

theorem len_le (valid : k.Valid) : k.len ≤ 126 := valid.1

/-- Every nibble at or past the length is zero, up to the array's end by the invariant and
past it because nothing is there. -/
theorem nibble_eq_zero (valid : k.Valid) {i : Nat} (past : k.len ≤ i) : nibble k.bytes.toList i = 0 := by
  by_cases inside : i < 126
  · exact valid.2 i inside past
  · exact nibble_of_length_le _ (by simp; omega)

end Valid

theorem unpack_bytes {k : KeyNibbles} (valid : k.Valid) :
    unpack k.bytes.toList = k.toList ++ List.replicate (126 - k.len) 0 := by
  have short := valid.len_le
  apply List.ext_getElem (by simp; omega)
  intro i inUnpack inPadded
  rw [getElem_unpack]
  by_cases below : i < k.len
  · rw [List.getElem_append_left (by simpa using below), getElem_toList]
  · rw [List.getElem_append_right (by simp; omega), List.getElem_replicate]
    exact valid.nibble_eq_zero (by omega)

/-- The derived order of valid keys is the lexicographic order of their nibbles: the bytes
compare as the nibbles padded with zeros, and the lengths settle a tie. -/
theorem cmp_eq_compare {a b : KeyNibbles} (va : a.Valid) (vb : b.Valid) :
    a.cmp b = compare a.toList b.toList := by
  have lengths : compare a.length b.length = compare a.toList.length b.toList.length := by
    rw [UInt8.compare_eq_toNat_compare_toNat, length_toList, length_toList]
    rfl
  have shortA := va.len_le
  have shortB := vb.len_le
  rw [cmp, ← compare_unpack, unpack_bytes va, unpack_bytes vb, lengths]
  exact compare_pad_then_length _ _ (by simp; omega)

theorem get_eq {k : KeyNibbles} (short : k.len ≤ 126) (i : Nat) :
    k.get i = some (k.toList[i]?.map Fin.val) := by
  by_cases past : i ≥ k.len
  · have none : k.toList[i]? = none := List.getElem?_eq_none (by simpa using past)
    simp [get, past]
  · have inside : i / 2 < 63 := by omega
    have found : k.toList[i]? = some (nibble k.bytes.toList i) := by
      rw [List.getElem?_eq_getElem (by simp; omega), getElem_toList]
    simp only [get, past, if_false, getElem?_bytes _ inside, found, Option.map_some,
      Option.bind_eq_bind, Option.bind_some, Option.pure_def]
    -- the shift is four bits for the high half and none for the low one
    rcases Nat.mod_two_eq_zero_or_one i with even | odd
    · have shift : ((1 - i % 2) * 4).toUInt8 = 4 := by rw [even]; rfl
      rw [shift, toNat_shiftRight_four_and]
      simp [nibble, even]
    · have shift : ((1 - i % 2) * 4).toUInt8 = 0 := by rw [odd]; rfl
      rw [shift, UInt8.shiftRight_zero, toNat_and_fifteen]
      simp [nibble, odd]

/-- The list model of one key prefixes another's exactly when the nibbles below its length
agree. -/
theorem toList_prefix_iff (a b : KeyNibbles) (longer : a.len ≤ b.len) :
    a.toList <+: b.toList ↔ ∀ i < a.len, nibble a.bytes.toList i = nibble b.bytes.toList i := by
  rw [List.prefix_iff_eq_take, length_toList, toList, toList, ← List.map_take, List.take_range,
    min_eq_left longer, List.map_inj_left]
  simp only [List.mem_range]

theorem lastHalfDiffers_eq {k : KeyNibbles} (other : KeyNibbles) (short : k.len ≤ 126) :
    k.lastHalfDiffers other = some (decide (k.len % 2 = 1 ∧
      nibble k.bytes.toList (2 * (k.len / 2)) ≠ nibble other.bytes.toList (2 * (k.len / 2)))) := by
  by_cases odd : k.len % 2 = 1
  · have inside : k.len / 2 < 63 := by omega
    have halves : ∀ x y : UInt8, ((x >>> 4) &&& (0xf : UInt8) != (y >>> 4) &&& 0xf) = !decide (high x = high y) := by
      intro x y
      rw [bne, Bool.not_inj_iff, Bool.eq_iff_iff, beq_iff_eq, decide_eq_true_iff, UInt8.ext_iff,
        toNat_shiftRight_four_and, toNat_shiftRight_four_and, Fin.val_inj]
    simp only [lastHalfDiffers, (length_odd_iff k).mpr odd, if_true, getElem?_bytes _ inside,
      Option.bind_eq_bind, Option.bind_some, Option.pure_def, halves, nibble_two_mul, odd, true_and,
      decide_not]
  · have even : ¬ k.length % 2 = 1 := fun h => odd ((length_odd_iff k).mp h)
    simp [lastHalfDiffers, even, odd]

/-- `is_prefix_of` of valid keys is the prefix relation of the list model: the high half of
the byte an odd key ends in, then the whole bytes below, compare as their nibbles. -/
theorem isPrefixOf_eq {a : KeyNibbles} (va : a.Valid) (b : KeyNibbles) :
    a.isPrefixOf b = some (decide (a.toList <+: b.toList)) := by
  by_cases longer : a.len > b.len
  · have notPrefix : ¬ a.toList <+: b.toList := fun below => by
      have := below.length_le
      simp at this
      omega
    have : a.length > b.length := (length_lt_iff b a).mpr longer
    simp [isPrefixOf, this, notPrefix]
  · have notLonger : ¬ a.length > b.length := fun h => longer ((length_lt_iff b a).mp h)
    have short := va.len_le
    have agree := toList_prefix_iff a b (by omega)
    rw [isPrefixOf, if_neg notLonger, lastHalfDiffers_eq b short, Option.bind_some]
    by_cases differs : a.len % 2 = 1 ∧
        nibble a.bytes.toList (2 * (a.len / 2)) ≠ nibble b.bytes.toList (2 * (a.len / 2))
    · -- the key ends inside a byte whose high half differs
      rw [decide_eq_true differs, if_pos rfl]
      congr 1
      symm
      rw [decide_eq_false_iff_not, agree]
      exact fun same => differs.2 (same _ (by omega))
    · rw [decide_eq_false differs, if_neg Bool.false_ne_true]
      have ranges : ∀ k : KeyNibbles,
          byteRange k.bytes 0 (a.len / 2) = some (k.bytes.toList.take (a.len / 2)) := by
        intro k
        rw [byteRange_eq _ (Nat.zero_le _) (by omega)]
        simp
      simp only [ranges, Option.bind_eq_bind, Option.bind_some, Option.pure_def]
      congr 1
      rw [Bool.eq_iff_iff, beq_iff_eq, decide_eq_true_iff, agree,
        take_eq_take_iff _ _ (by simp; omega) (by simp; omega)]
      -- below the whole bytes lies every nibble but, for an odd key, the last, which agrees
      constructor
      · intro same i below
        by_cases last : i = 2 * (a.len / 2)
        · rw [last]
          by_contra unequal
          exact differs ⟨by omega, unequal⟩
        · exact same i (by omega)
      · intro same i below
        exact same i (by omega)

/-- `successor` of a valid key shorter than the array's 126 nibbles is the key with a zero
nibble appended, again valid. -/
theorem successor_eq {k : KeyNibbles} (valid : k.Valid) (room : k.len < 126) :
    ∃ s, k.successor = some s ∧ s.Valid ∧ s.toList = k.toList ++ [0] := by
  have fits : k.len + 1 < 256 := by omega
  have grown : ({ k with length := k.length + 1 } : KeyNibbles).len = k.len + 1 := by
    simp only [len, UInt8.toNat_add, UInt8.toNat_one]
    exact Nat.mod_eq_of_lt fits
  refine ⟨{ k with length := k.length + 1 }, rfl, ⟨by omega, ?_⟩, ?_⟩
  · intro i inside past
    exact valid.nibble_eq_zero (by rw [grown] at past; omega)
  · rw [toList, grown, List.range_succ, List.map_append, List.map_singleton,
      valid.nibble_eq_zero (le_refl _)]
    rfl

/-- The successor of a valid key is the next key in the derived order: above it, and at or
below every valid key above it. -/
theorem successor_immediate {k : KeyNibbles} (valid : k.Valid) (room : k.len < 126) :
    ∃ s, k.successor = some s ∧ s.Valid ∧ s.toList = k.toList ++ [0] ∧ k.cmp s = .lt ∧
      ∀ m : KeyNibbles, m.Valid → k.cmp m = .lt → s.cmp m ≠ .gt := by
  obtain ⟨s, found, validS, nibbles⟩ := successor_eq valid room
  refine ⟨s, found, validS, nibbles, ?_, fun m validM above => ?_⟩
  · rw [cmp_eq_compare valid validS, nibbles]
    exact compare_append_zero _
  · rw [cmp_eq_compare valid validM] at above
    rw [cmp_eq_compare validS validM, nibbles]
    exact compare_append_zero_ne_gt above

/-- A key whose bytes unpack to `nibbles` and then zeros, with the length of `nibbles`, is
valid and spells `nibbles`. -/
theorem valid_of_unpack {s : KeyNibbles} {nibbles : List (Fin 16)} (length : s.len = nibbles.length)
    (bytes : unpack s.bytes.toList = nibbles ++ List.replicate (126 - nibbles.length) 0) :
    s.Valid ∧ s.toList = nibbles := by
  have fits : nibbles.length ≤ 126 := by
    have := congrArg List.length bytes
    simp at this
    omega
  -- every nibble of the bytes is read off the unpacked string
  have read : ∀ t < 126, some (nibble s.bytes.toList t) = (nibbles ++ List.replicate (126 - nibbles.length) 0)[t]? := by
    intro t inside
    rw [← bytes, getElem?_unpack _ (by simpa using inside)]
  constructor
  · refine ⟨by omega, fun t inside past => ?_⟩
    have := read t inside
    rw [List.getElem?_append_right (by omega), List.getElem?_replicate, if_pos (by omega)] at this
    exact Option.some_injective _ this
  · apply List.ext_getElem (by simp [length])
    intro t inToList inNibbles
    have := read t (by omega)
    rw [List.getElem?_append_left inNibbles, List.getElem?_eq_getElem inNibbles] at this
    rw [getElem_toList]
    exact Option.some_injective _ this

theorem window_eq {k : KeyNibbles} (valid : k.Valid) {i j : Nat} (within : j ≤ k.len) :
    ((unpack k.bytes.toList).drop i).take (j - i) = (k.toList.take j).drop i := by
  rw [unpack_bytes valid, List.drop_append, List.take_append_of_le_length (by simp; omega),
    List.drop_take]

theorem setByte_eq {bytes : Vector UInt8 63} {index : Nat} (inside : index < 63) (byte : UInt8) :
    setByte bytes index byte = some (bytes.set index byte inside) := by
  simp [setByte, inside]

theorem set_length_append_replicate {α : Type} (written : List α) (x zero : α) (m : Nat) :
    (written ++ List.replicate (m + 1) zero).set written.length x = written ++ x :: List.replicate m zero := by
  rw [List.set_append_right _ _ (le_refl _), Nat.sub_self, List.replicate_succ, List.set_cons_zero]

/-- The bytes the shifting loop writes from `current` on. -/
def shifted (current : UInt8) : List UInt8 → List UInt8
  | [] => []
  | byte :: rest => (current ||| ((byte >>> 4) &&& 0xf)) :: shifted ((byte &&& 0xf) <<< 4) rest

/-- The `current` the shifting loop ends with. -/
def lastLowHalf (current : UInt8) : List UInt8 → UInt8
  | [] => current
  | byte :: rest => lastLowHalf ((byte &&& 0xf) <<< 4) rest

@[simp] theorem length_shifted (current : UInt8) (src : List UInt8) :
    (shifted current src).length = src.length := by
  induction src generalizing current with
  | nil => rfl
  | cons byte rest ih => simp [shifted, ih]

theorem foldlM_shiftStep_window (src : List UInt8) :
    ∀ (bytes : Vector UInt8 63) (start : Nat) (current : UInt8), start + src.length ≤ 63 →
      ∃ result : Vector UInt8 63,
        src.foldlM shiftStep (bytes, start, current) =
          some (result, start + src.length, lastLowHalf current src) ∧
        result.toList = bytes.toList.take start ++ shifted current src ++
          bytes.toList.drop (start + src.length) := by
  induction src with
  | nil =>
    intro bytes start current _
    exact ⟨bytes, rfl, by simp [shifted]⟩
  | cons byte rest ih =>
    intro bytes start current room
    have inside : start < 63 := by simp at room; omega
    obtain ⟨result, run, final⟩ := ih (bytes.set start (current ||| ((byte >>> 4) &&& 0xf)) inside)
      (start + 1) ((byte &&& 0xf) <<< 4) (by simp at room ⊢; omega)
    refine ⟨result, ?_, ?_⟩
    · rw [List.foldlM_cons]
      simp only [shiftStep, setByte_eq inside, Option.bind_eq_bind, Option.bind_some, Option.pure_def]
      rw [run]
      simp [lastLowHalf, Nat.add_assoc, Nat.add_comm 1]
    · rw [final, Vector.toList_set, List.set_eq_take_append_cons_drop, if_pos (by simp; omega)]
      have taken : (bytes.toList.take start).length = start := by simp; omega
      have whole : (bytes.toList.take start).take (start + 1) = bytes.toList.take start :=
        List.take_of_length_le (by omega)
      have past : (bytes.toList.take start).drop (start + (rest.length + 1)) = [] :=
        List.drop_eq_nil_of_le (by omega)
      simp [shifted, List.take_append, List.drop_append, taken, whole, past, Nat.add_assoc, Nat.add_comm 1]

/-- The shifting loop writes `shifted` after what is already written, in an otherwise zero
array. -/
theorem foldlM_shiftStep (src : List UInt8) :
    ∀ (written : List UInt8) (bytes : Vector UInt8 63) (current : UInt8),
      bytes.toList = written ++ List.replicate (63 - written.length) 0 →
      written.length + src.length ≤ 63 →
      ∃ result : Vector UInt8 63,
        src.foldlM shiftStep (bytes, written.length, current) =
          some (result, written.length + src.length, lastLowHalf current src) ∧
        result.toList = (written ++ shifted current src) ++
          List.replicate (63 - (written ++ shifted current src).length) 0 := by
  intro written bytes current zeros room
  -- the window of the loop is the zeros after what is written
  obtain ⟨result, run, final⟩ := foldlM_shiftStep_window src bytes written.length current room
  refine ⟨result, run, ?_⟩
  rw [final, zeros]
  simp [List.drop_append, List.drop_replicate, Nat.sub_sub]

/-- Shifting by a nibble: the written bytes and the final `current` hold the nibbles of the
source bytes but the first, and a zero. -/
theorem unpack_shifted (first : UInt8) (src : List UInt8) :
    unpack (shifted ((first &&& 0xf) <<< 4) src) ++ [high (lastLowHalf ((first &&& 0xf) <<< 4) src)] =
      (unpack (first :: src)).drop 1 ∧ low (lastLowHalf ((first &&& 0xf) <<< 4) src) = 0 := by
  induction src generalizing first with
  | nil => simp [shifted, lastLowHalf]
  | cons byte rest ih =>
    obtain ⟨bytesOfRest, lowOfRest⟩ := ih byte
    -- the byte written joins the low half of `first` and the high half of `byte`
    have fitsLow : ((byte >>> 4) &&& 0xf).toNat < 16 := by
      rw [toNat_shiftRight_four_and]
      exact (high byte).isLt
    have joinedHigh := high_or_of_low_zero ((first &&& 0xf) <<< 4) _ (low_low_shiftLeft first) fitsLow
    have joinedLow := low_or_of_low_zero ((first &&& 0xf) <<< 4) _ (low_low_shiftLeft first) fitsLow
    rw [toNat_shiftRight_four_and] at joinedLow
    refine ⟨?_, lowOfRest⟩
    simp only [shifted, lastLowHalf, unpack_cons, joinedHigh, high_low_shiftLeft, List.cons_append,
      bytesOfRest, List.drop_one, List.tail_cons, Fin.ext joinedLow]

@[simp] theorem toList_root_bytes : root.bytes.toList = List.replicate 63 0 := by
  simp [root]

theorem sliceBytes_even {k : KeyNibbles} (valid : k.Valid) {i j : Nat} (even : i % 2 = 0)
    (ordered : i ≤ j) (within : j ≤ k.len) :
    ∃ newBytes, k.sliceBytes i j = some (newBytes, j / 2 - i / 2) ∧
      unpack newBytes.toList = ((unpack k.bytes.toList).drop i).take (2 * (j / 2) - i) ++
        List.replicate (126 - (2 * (j / 2) - i)) 0 := by
  have short := valid.len_le
  have range := byteRange_eq k.bytes (Nat.div_le_div_right ordered) (by omega : j / 2 ≤ 63)
  have fits : 0 + ((k.bytes.toList.drop (i / 2)).take (j / 2 - i / 2)).length ≤ 63 := by simp
  simp only [sliceBytes, even, if_true, range, copyInto, dif_pos fits, Option.bind_eq_bind,
    Option.bind_some, Option.pure_def]
  refine ⟨_, rfl, ?_⟩
  -- the copied bytes, then the zeros of the fresh array
  have copied : 2 * (j / 2 - i / 2) = 2 * (j / 2) - i := by omega
  have rest : 2 * (63 - (j / 2 - i / 2)) = 126 - (2 * (j / 2) - i) := by omega
  simp only [Vector.toList_mk, toList_root_bytes, List.take_zero, List.nil_append,
    List.drop_replicate, unpack_append, unpack_take, unpack_drop, unpack_replicate_zero,
    List.length_take, List.length_drop, Vector.length_toList, Nat.zero_add]
  rw [show 2 * (i / 2) = i by omega, show min (j / 2 - i / 2) (63 - i / 2) = j / 2 - i / 2 by omega,
    copied, show 63 - (j / 2 - i / 2) = 63 - (j / 2 - i / 2) from rfl, rest]

/-- For an odd start the bytes from `start / 2` on are shifted by a nibble: the loop writes
all but the last, whose low half it keeps in `current` and writes after the loop. -/
theorem sliceBytes_odd {k : KeyNibbles} (valid : k.Valid) {i j : Nat} (odd : i % 2 = 1)
    (ordered : i < j) (within : j ≤ k.len) :
    ∃ newBytes, k.sliceBytes i j = some (newBytes, j / 2 - i / 2) ∧
      unpack newBytes.toList = ((unpack k.bytes.toList).drop i).take (2 * (j / 2) - i) ++
        List.replicate (126 - (2 * (j / 2) - i)) 0 := by
  have short := valid.len_le
  have firstInside : i / 2 < 63 := by omega
  have range := byteRange_eq k.bytes (by omega : i / 2 + 1 ≤ j / 2) (by omega : j / 2 ≤ 63)
  obtain ⟨first, hfirst⟩ : ∃ first, k.bytes.toList.getD (i / 2) 0 = first := ⟨_, rfl⟩
  obtain ⟨src, hsrc⟩ : ∃ src, (k.bytes.toList.drop (i / 2 + 1)).take (j / 2 - (i / 2 + 1)) = src :=
    ⟨_, rfl⟩
  rw [hsrc] at range
  have srcLength : src.length = j / 2 - (i / 2 + 1) := by rw [← hsrc]; simp; omega
  obtain ⟨looped, run, final⟩ := foldlM_shiftStep src [] root.bytes ((first &&& 0xf) <<< 4)
    (by simp) (by simp; omega)
  simp only [List.length_nil, Nat.zero_add, List.nil_append] at run final
  have lastInside : src.length < 63 := by omega
  simp only [sliceBytes, odd, one_ne_zero, if_false, getElem?_bytes _ firstInside, hfirst, range,
    run, setByte_eq lastInside, Option.bind_eq_bind, Option.bind_some, Option.pure_def]
  refine ⟨looped.set src.length (lastLowHalf ((first &&& 0xf) <<< 4) src) lastInside, ?_, ?_⟩
  · rw [show src.length + 1 = j / 2 - i / 2 by omega]
  -- the shifted bytes, the last low half, and the zeros of the fresh array
  obtain ⟨m, hm⟩ : ∃ m, 63 - src.length = m + 1 := ⟨62 - src.length, by omega⟩
  have whole : (k.bytes.toList.drop (i / 2)).take (j / 2 - i / 2) = first :: src := by
    rw [List.drop_eq_getElem_cons (by simp; omega), show j / 2 - i / 2 = j / 2 - (i / 2 + 1) + 1 by omega,
      List.take_succ_cons, ← hsrc, ← hfirst, List.getD_eq_getElem]
  have setLast : (shifted ((first &&& 0xf) <<< 4) src ++ List.replicate (m + 1) 0).set src.length
      (lastLowHalf ((first &&& 0xf) <<< 4) src) = shifted ((first &&& 0xf) <<< 4) src ++
        lastLowHalf ((first &&& 0xf) <<< 4) src :: List.replicate m 0 := by
    have := set_length_append_replicate (shifted ((first &&& 0xf) <<< 4) src)
      (lastLowHalf ((first &&& 0xf) <<< 4) src) 0 m
    rwa [length_shifted] at this
  obtain ⟨nibbles, lowLast⟩ := unpack_shifted first src
  rw [Vector.toList_set, final, length_shifted, hm, setLast, ← List.singleton_append, ← List.append_assoc,
    unpack_append, unpack_append, unpack_cons, unpack_nil, lowLast]
  have pair : [high (lastLowHalf ((first &&& 0xf) <<< 4) src), (0 : Fin 16)] =
      [high (lastLowHalf ((first &&& 0xf) <<< 4) src)] ++ [0] := rfl
  rw [pair, ← List.append_assoc, nibbles, ← whole, unpack_take, unpack_drop, List.drop_take,
    List.drop_drop, show 2 * (i / 2) + 1 = i by omega, show 2 * (j / 2 - i / 2) - 1 = 2 * (j / 2) - i by omega,
    unpack_replicate_zero, List.append_assoc, List.singleton_append, ← List.replicate_succ,
    show 2 * m + 1 = 126 - (2 * (j / 2) - i) by omega]

/-- For an odd end the high half of the byte it ends in comes right after the nibbles
written so far: as a byte of its own after an even start, as the low half of the last byte
after an odd one. -/
theorem addLastNibble_spec {k : KeyNibbles} (valid : k.Valid) {i j : Nat} (ordered : i ≤ j)
    (within : j ≤ k.len) (notEmptyOdd : ¬ (i % 2 = 1 ∧ i = j)) {newBytes : Vector UInt8 63}
    (before : unpack newBytes.toList = ((unpack k.bytes.toList).drop i).take (2 * (j / 2) - i) ++
        List.replicate (126 - (2 * (j / 2) - i)) 0) :
    ∃ result, k.addLastNibble i j newBytes (j / 2 - i / 2) = some result ∧
      unpack result.toList = ((unpack k.bytes.toList).drop i).take (j - i) ++
        List.replicate (126 - (j - i)) 0 := by
  have short := valid.len_le
  by_cases oddEnd : j % 2 = 1
  · have lastInside : j / 2 < 63 := by omega
    obtain ⟨last, hlast⟩ : ∃ last, k.bytes.toList.getD (j / 2) 0 = last := ⟨_, rfl⟩
    obtain ⟨written, hwritten⟩ : ∃ written,
        ((unpack k.bytes.toList).drop i).take (2 * (j / 2) - i) = written := ⟨_, rfl⟩
    have writtenLength : written.length = 2 * (j / 2) - i := by
      rw [← hwritten]
      simp
      omega
    -- the nibbles up to the end: those written so far and the high half of `last`
    have upToEnd : ((unpack k.bytes.toList).drop i).take (j - i) = written ++ [high last] := by
      rw [show j - i = (2 * (j / 2) - i) + 1 by omega, List.take_add_one, List.getElem?_drop,
        show i + (2 * (j / 2) - i) = 2 * (j / 2) by omega, getElem?_unpack _ (by simp; omega),
        nibble_two_mul, hlast, hwritten]
      rfl
    obtain ⟨m, hm⟩ : ∃ m, 126 - (2 * (j / 2) - i) = m + 2 := ⟨124 - (2 * (j / 2) - i), by omega⟩
    have rest : 126 - (j - i) = m + 1 := by omega
    rw [hwritten, hm] at before
    rw [upToEnd, rest]
    by_cases evenStart : i % 2 = 0
    · have inside : j / 2 - i / 2 < 63 := by omega
      simp only [addLastNibble, oddEnd, if_true, getElem?_bytes _ lastInside, hlast, evenStart,
        setByte_eq inside, Option.bind_eq_bind, Option.bind_some]
      refine ⟨_, rfl, ?_⟩
      have position : 2 * (j / 2 - i / 2) = written.length := by omega
      rw [Vector.toList_set, unpack_set, before, high_and_high_mask, low_and_high_mask, position,
        set_length_append_replicate, ← List.singleton_append, ← List.append_assoc,
        show written.length + 1 = (written ++ [high last]).length by simp,
        set_length_append_replicate, ← List.replicate_succ]
    · -- `start` is odd, so the slice holds at least one whole byte whose low half is still free
      have previousInside : j / 2 - i / 2 - 1 < 63 := by omega
      obtain ⟨previous, hprevious⟩ : ∃ previous, newBytes.toList.getD (j / 2 - i / 2 - 1) 0 = previous :=
        ⟨_, rfl⟩
      have position : 2 * (j / 2 - i / 2 - 1) + 1 = written.length := by omega
      have lowFree : low previous = 0 := by
        have := getElem?_unpack newBytes.toList (i := 2 * (j / 2 - i / 2 - 1) + 1) (by simp; omega)
        rw [nibble_two_mul_add_one, hprevious, before, position,
          List.getElem?_append_right (le_refl _), Nat.sub_self, List.getElem?_replicate, if_pos (by omega)] at this
        exact (Option.some_injective _ this).symm
      have fitsLow : ((last &&& 0xf0) >>> 4).toNat < 16 := by
        rw [toNat_and_high_mask_shiftRight]
        exact (high last).isLt
      have keepsHigh := high_or_of_low_zero previous _ lowFree fitsLow
      have addsLow := low_or_of_low_zero previous _ lowFree fitsLow
      rw [toNat_and_high_mask_shiftRight] at addsLow
      simp only [addLastNibble, oddEnd, if_true, getElem?_bytes _ lastInside, hlast, evenStart,
        if_false, getElem?_bytes _ previousInside, hprevious, setByte_eq previousInside,
        Option.bind_eq_bind, Option.bind_some]
      refine ⟨_, rfl, ?_⟩
      rw [Vector.toList_set, unpack_set_low _ (by simp; omega) _ (by rw [keepsHigh, hprevious]), before,
        position, Fin.ext addsLow, set_length_append_replicate, ← List.singleton_append,
        ← List.append_assoc]
  · have evenEnd : ¬ j % 2 = 1 := oddEnd
    simp only [addLastNibble, evenEnd, if_false]
    exact ⟨newBytes, rfl, by rwa [show 2 * (j / 2) = j by omega] at before⟩

/-- `slice(i, j)` of a valid key is the slice of its list model, and valid, for every
`i ≤ j ≤ len` but an empty slice at an odd nibble. -/
theorem slice_eq {k : KeyNibbles} (valid : k.Valid) {i j : Nat} (ordered : i ≤ j) (within : j ≤ k.len)
    (notEmptyOdd : ¬ (i % 2 = 1 ∧ i = j)) :
    ∃ s, k.slice i j = some s ∧ s.Valid ∧ s.toList = (k.toList.take j).drop i := by
  have short := valid.len_le
  -- the bytes up to the last whole or half byte, by the parity of the start
  obtain ⟨newBytes, sliced, before⟩ : ∃ newBytes, k.sliceBytes i j = some (newBytes, j / 2 - i / 2) ∧
      unpack newBytes.toList = ((unpack k.bytes.toList).drop i).take (2 * (j / 2) - i) ++
        List.replicate (126 - (2 * (j / 2) - i)) 0 := by
    rcases Nat.mod_two_eq_zero_or_one i with even | odd
    · exact sliceBytes_even valid even ordered within
    · exact sliceBytes_odd valid odd (by omega) within
  obtain ⟨result, added, after⟩ := addLastNibble_spec valid ordered within notEmptyOdd before
  simp only [slice, show ¬ (i > k.len ∨ j < i) by omega, if_false, min_eq_left within, sliced, added,
    Option.bind_eq_bind, Option.bind_some, Option.pure_def]
  refine ⟨_, rfl, ?_⟩
  have count : ((k.toList.take j).drop i).length = j - i := by
    simp
    omega
  rw [window_eq valid within, ← count] at after
  refine valid_of_unpack ?_ after
  rw [count]
  exact UInt8.toNat_ofNat_of_lt' (by rw [UInt8.size]; omega)

/-- A slice that starts and ends at the same odd nibble panics: the shifting branch reads the
bytes `start / 2 + 1 .. start / 2`, a range that runs backwards. -/
theorem slice_odd_empty_panics (k : KeyNibbles) (i : Nat) (odd : i % 2 = 1) (within : i ≤ k.len) :
    k.slice i i = none := by
  have backwards : byteRange k.bytes (i / 2 + 1) (i / 2) = none := by
    simp [byteRange]
  have shifting : sliceBytes k i i = none := by
    simp only [sliceBytes, odd, one_ne_zero, if_false, backwards]
    cases k.bytes[i / 2]? <;> rfl
  simp only [slice, show ¬ (i > k.len ∨ i < i) by omega, if_false, min_eq_left within, shifting]
  rfl

/-- `slice(i, i)` at an odd `i` within the key panics, and so does `suffix(len)` of a key of
odd length: the empty slices the list model allows are not all computed. -/
theorem slice_empty_at_odd_nibble_panics (k : KeyNibbles) (i : Nat) (odd : i % 2 = 1)
    (within : i ≤ k.len) : k.slice i i = none ∧ (k.len = i → k.suffix k.length = none) := by
  refine ⟨slice_odd_empty_panics k i odd within, fun whole => ?_⟩
  have atLength : k.length.toNat = i := whole
  rw [suffix, atLength, ← whole, slice_odd_empty_panics k k.len (whole ▸ odd) (le_refl _)]

theorem take_append_replicate {α : Type} (l : List α) (x : α) {n m : Nat} (within : l.length ≤ m)
    (short : m ≤ l.length + n) : (l ++ List.replicate n x).take m = l ++ List.replicate (m - l.length) x := by
  rw [List.take_append, List.take_of_length_le within, List.take_replicate, min_eq_left (by omega)]

theorem drop_append_replicate {α : Type} (l : List α) (x : α) {n m : Nat} (past : l.length ≤ m) :
    (l ++ List.replicate n x).drop m = List.replicate (l.length + n - m) x := by
  rw [List.drop_append, List.drop_eq_nil_of_le past, List.nil_append, List.drop_replicate]
  congr 1
  omega

/-- The loop of `add` is the shifting loop of `slice`: it writes at `base + count`, which is
where the count of bytes written stands. -/
theorem foldlM_addStep (base : Nat) (src : List UInt8) :
    ∀ (n : Nat) (bytes : Vector UInt8 63) (current : UInt8),
      (src.zipIdx n).foldlM (addStep base) (bytes, base + n, current) =
        src.foldlM shiftStep (bytes, base + n, current) := by
  induction src with
  | nil => intro n bytes current; rfl
  | cons byte rest ih =>
    intro n bytes current
    -- `byte >> 4` has no bits above the low four
    have half : (byte >>> 4) &&& (0xf : UInt8) = byte >>> 4 :=
      UInt8.toNat_inj.mp (by rw [toNat_shiftRight_four_and, toNat_shiftRight_four])
    rw [List.zipIdx_cons, List.foldlM_cons, List.foldlM_cons]
    simp only [addStep, shiftStep, half]
    cases setByte bytes (base + n) (current ||| byte >>> 4) with
    | none => rfl
    | some next =>
      simp only [Option.bind_eq_bind, Option.bind_some, Option.pure_def]
      rw [show base + n + 1 = base + (n + 1) by omega, ih]

theorem addBytes_even {a b : KeyNibbles} (va : a.Valid) (vb : b.Valid) (even : a.len % 2 = 0)
    (fits : a.len + b.len ≤ 126) :
    ∃ bytes, a.addBytes b = some bytes ∧
      unpack bytes.toList = a.toList ++ b.toList ++ List.replicate (126 - (a.len + b.len)) 0 := by
  have range := byteRange_eq b.bytes (Nat.zero_le b.bytesLen) (by unfold bytesLen; omega)
  have room : a.bytesLen + ((b.bytes.toList.drop 0).take (b.bytesLen - 0)).length ≤ 63 := by
    simp [bytesLen]; omega
  simp only [addBytes, even, if_true, range, copyInto, dif_pos room, Option.bind_eq_bind, Option.bind_some]
  refine ⟨_, rfl, ?_⟩
  simp only [Vector.toList_mk, unpack_append, unpack_take, unpack_drop, unpack_bytes va, unpack_bytes vb,
    List.drop_zero, Nat.sub_zero, List.length_take, length_bytes]
  have short := va.len_le
  have shortB := vb.len_le
  -- `a`'s whole bytes, `b`'s bytes with the half byte it may end in, and `a`'s zeros after them
  have wholeA : 2 * a.bytesLen = a.len := by unfold bytesLen; omega
  have coverB : b.len ≤ 2 * b.bytesLen ∧ a.len + 2 * b.bytesLen ≤ 126 := by unfold bytesLen; omega
  rw [wholeA, min_eq_left (by unfold bytesLen; omega), take_append_replicate _ _ (by simp) (by simp),
    take_append_replicate _ _ (by simp; omega) (by simp; omega), drop_append_replicate _ _ (by simp; omega)]
  simp only [length_toList, Nat.sub_self, List.replicate_zero, List.append_nil, List.append_assoc,
    List.replicate_append_replicate]
  congr 3
  omega

/-- For an odd `k`, `other`'s bytes are shifted by a nibble into the half byte `k` ends in: the
loop writes all but the low half of `other`'s last byte, which is written after it for an
even `other` and is zero for an odd one. -/
theorem addBytes_odd {a b : KeyNibbles} (va : a.Valid) (vb : b.Valid) (odd : a.len % 2 = 1)
    (fits : a.len + b.len ≤ 126) :
    ∃ bytes, a.addBytes b = some bytes ∧
      unpack bytes.toList = a.toList ++ b.toList ++ List.replicate (126 - (a.len + b.len)) 0 := by
  have short := va.len_le
  have shortB := vb.len_le
  have lastInside : a.bytesLen - 1 < 63 := by unfold bytesLen; omega
  have range := byteRange_eq b.bytes (Nat.zero_le b.bytesLen) (by unfold bytesLen; omega)
  obtain ⟨next, hnext⟩ : ∃ next, a.bytes.toList.getD (a.bytesLen - 1) 0 = next := ⟨_, rfl⟩
  obtain ⟨src, hsrc⟩ : ∃ src, (b.bytes.toList.drop 0).take (b.bytesLen - 0) = src := ⟨_, rfl⟩
  rw [hsrc] at range
  have srcLength : src.length = b.bytesLen := by rw [← hsrc]; simp [bytesLen]; omega
  obtain ⟨looped, run, final⟩ := foldlM_shiftStep_window src a.bytes (a.bytesLen - 1) next
    (by rw [srcLength]; unfold bytesLen; omega)
  have loop : src.zipIdx.foldlM (addStep (a.bytesLen - 1)) (a.bytes, a.bytesLen - 1, next) =
      some (looped, a.bytesLen - 1 + src.length, lastLowHalf next src) := by
    have same := foldlM_addStep (a.bytesLen - 1) src 0 a.bytes next
    rw [Nat.add_zero] at same
    rw [← run, ← same]
  simp only [addBytes, show ¬ a.len % 2 = 0 by omega, if_false, getElem?_bytes _ lastInside, hnext, range,
    loop, Option.bind_eq_bind, Option.bind_some]
  have twiceA : 2 * (a.bytesLen - 1) = a.len - 1 := by unfold bytesLen; omega
  -- `next` holds the last nibble of `a` in its high half and a zero in its low one
  have highNext : nibble a.bytes.toList (a.len - 1) = high next := by
    rw [← twiceA, nibble_two_mul, hnext]
  have lowNext : low next = 0 := by
    have zero := va.nibble_eq_zero (le_refl _)
    rwa [show a.len = 2 * (a.bytesLen - 1) + 1 by omega, nibble_two_mul_add_one, hnext] at zero
  have headA : unpack (a.bytes.toList.take (a.bytesLen - 1)) = a.toList.take (a.len - 1) := by
    rw [unpack_take, unpack_bytes va, twiceA, List.take_append_of_le_length (by simp)]
  have lastA : a.toList = a.toList.take (a.len - 1) ++ [high next] := by
    have grow := List.take_add_one (l := a.toList) (i := a.len - 1)
    rw [show a.len - 1 + 1 = a.len by omega, List.take_of_length_le (by simp),
      List.getElem?_eq_getElem (by simp; omega), getElem_toList, highNext] at grow
    exact grow
  have zerosA : ∀ m, a.bytesLen ≤ m → unpack (a.bytes.toList.drop m) = List.replicate (126 - 2 * m) 0 := by
    intro m past
    rw [unpack_drop, unpack_bytes va, drop_append_replicate _ _ (by simp; unfold bytesLen at past; omega)]
    congr 1
    simp only [length_toList]
    omega
  have nibblesSrc : unpack src = (b.toList ++ List.replicate (126 - b.len) 0).take (2 * b.bytesLen) := by
    rw [← hsrc, List.drop_zero, Nat.sub_zero, unpack_take, unpack_bytes vb]
  obtain ⟨shiftedNibbles, lowLast⟩ := unpack_shifted (next >>> 4) src
  rw [shiftLeft_shiftRight_of_low_zero lowNext, unpack_cons, List.drop_one, List.tail_cons] at shiftedNibbles
  rw [shiftLeft_shiftRight_of_low_zero lowNext] at lowLast
  have lowShifted : low (next >>> 4) = high next := by
    apply Fin.ext
    have := next.toNat_lt
    rw [low_val, toNat_shiftRight_four, high_val]
    omega
  rw [lowShifted] at shiftedNibbles
  have evenIff : b.length % 2 = 0 ↔ b.len % 2 = 0 := by simp [UInt8.ext_iff, len]
  by_cases evenB : b.len % 2 = 0
  · -- the low half of `b`'s last byte is written in a byte of its own
    have inside : a.bytesLen - 1 + src.length < 63 := by rw [srcLength]; unfold bytesLen; omega
    have nibblesB : unpack src = b.toList := by
      rw [nibblesSrc, show 2 * b.bytesLen = b.len by unfold bytesLen; omega,
        List.take_append_of_le_length (by simp), List.take_of_length_le (by simp)]
    have padding : (0 : Fin 16) :: List.replicate (126 - 2 * (a.bytesLen - 1 + src.length + 1)) 0 =
        List.replicate (126 - (a.len + b.len)) 0 := by
      rw [← List.replicate_succ]
      congr 1
      rw [srcLength]
      unfold bytesLen
      omega
    rw [if_pos (evenIff.mpr evenB), setByte_eq inside]
    refine ⟨_, rfl, ?_⟩
    rw [Vector.toList_set, final, List.set_append_right _ _ (by simp), List.length_append,
      List.length_take, length_bytes, length_shifted, min_eq_left (by omega), Nat.sub_self,
      List.drop_eq_getElem_cons (by simp; omega), List.set_cons_zero]
    calc unpack (a.bytes.toList.take (a.bytesLen - 1) ++ shifted next src ++
          lastLowHalf next src :: a.bytes.toList.drop (a.bytesLen - 1 + src.length + 1))
        = a.toList.take (a.len - 1) ++ ((unpack (shifted next src) ++ [high (lastLowHalf next src)]) ++
            (0 : Fin 16) :: List.replicate (126 - 2 * (a.bytesLen - 1 + src.length + 1)) 0) := by
          rw [unpack_append, unpack_append, unpack_cons, headA, lowLast, zerosA _ (by omega)]
          simp
      _ = (a.toList.take (a.len - 1) ++ [high next]) ++ b.toList ++ List.replicate (126 - (a.len + b.len)) 0 := by
          rw [shiftedNibbles, nibblesB, padding]
          simp
      _ = a.toList ++ b.toList ++ List.replicate (126 - (a.len + b.len)) 0 := by rw [← lastA]
  · -- `b`'s last byte ends in a zero half, which the loop keeps in `next_byte`
    have nibblesSrcOdd : unpack src = b.toList ++ [0] := by
      rw [nibblesSrc, show 2 * b.bytesLen = b.len + 1 by unfold bytesLen; omega,
        take_append_replicate _ _ (by simp) (by simp; omega)]
      simp
    obtain ⟨nibblesShifted, -⟩ := List.append_inj' (shiftedNibbles.trans
      (by rw [nibblesSrcOdd]; rfl : high next :: unpack src = (high next :: b.toList) ++ [0])) rfl
    rw [if_neg (fun even => evenB (evenIff.mp even))]
    refine ⟨looped, rfl, ?_⟩
    have past : a.bytesLen ≤ a.bytesLen - 1 + src.length := by rw [srcLength]; unfold bytesLen; omega
    rw [final, unpack_append, unpack_append, headA, nibblesShifted, zerosA _ past,
      show 126 - 2 * (a.bytesLen - 1 + src.length) = 126 - (a.len + b.len) by rw [srcLength]; unfold bytesLen; omega]
    conv_rhs => rw [lastA]
    simp

theorem add_eq {a b : KeyNibbles} (va : a.Valid) (vb : b.Valid) (fits : a.len + b.len ≤ 126) :
    ∃ s, a.add b = some s ∧ s.Valid ∧ s.toList = a.toList ++ b.toList := by
  obtain ⟨bytes, added, nibbles⟩ : ∃ bytes, a.addBytes b = some bytes ∧
      unpack bytes.toList = a.toList ++ b.toList ++ List.replicate (126 - (a.len + b.len)) 0 := by
    rcases Nat.mod_two_eq_zero_or_one a.len with even | odd
    · exact addBytes_even va vb even fits
    · exact addBytes_odd va vb odd fits
  have length : (⟨bytes, a.length + b.length⟩ : KeyNibbles).len = (a.toList ++ b.toList).length := by
    simp only [len, UInt8.toNat_add, List.length_append, length_toList]
    exact Nat.mod_eq_of_lt (by unfold len at fits; omega)
  refine ⟨⟨bytes, a.length + b.length⟩, by simp [add, added], valid_of_unpack length ?_⟩
  rw [List.length_append, length_toList, length_toList]
  exact nibbles

theorem getElem?_toList {k : KeyNibbles} {i : Nat} (inside : i < k.len) :
    k.toList[i]? = some (nibble k.bytes.toList i) := by
  rw [List.getElem?_eq_getElem (by simpa using inside), getElem_toList]

/-- The scan of `common_prefix` from byte `j` on, with the nibbles below `2 * j` agreeing: it
finds the first nibble at which the keys differ, or the shorter length. -/
theorem firstDifference_spec {a b : KeyNibbles} (va : a.Valid) (vb : b.Valid) (n : Nat) :
    ∀ j, j + n = min a.len b.len / 2 + min a.len b.len % 2 →
      (∀ i < 2 * j, nibble a.bytes.toList i = nibble b.bytes.toList i) →
      ∃ d, firstDifference a b (min a.len b.len) (List.range' j n) = some d ∧ d ≤ min a.len b.len ∧
        (∀ i < d, nibble a.bytes.toList i = nibble b.bytes.toList i) ∧
        (d < min a.len b.len → nibble a.bytes.toList d ≠ nibble b.bytes.toList d) := by
  have shortA := va.len_le
  have shortB := vb.len_le
  induction n with
  | zero =>
    intro j all agree
    exact ⟨min a.len b.len, rfl, le_rfl, fun i below => agree i (by omega), fun short => absurd short (lt_irrefl _)⟩
  | succ n ih =>
    intro j all agree
    have inside : j < 63 := by omega
    have within : 2 * j < min a.len b.len := by omega
    -- the high nibble of byte `j`, read by `get`
    have highA : a.get (j * 2) = some (some (nibble a.bytes.toList (2 * j)).val) := by
      rw [get_eq shortA, Nat.mul_comm, getElem?_toList (by omega)]
      rfl
    have highB : b.get (j * 2) = some (some (nibble b.bytes.toList (2 * j)).val) := by
      rw [get_eq shortB, Nat.mul_comm, getElem?_toList (by omega)]
      rfl
    rw [List.range'_succ, firstDifference, getElem?_bytes _ inside, getElem?_bytes _ inside]
    simp only [Option.bind_eq_bind, Option.bind_some, highA, highB]
    by_cases same : a.bytes.toList.getD j 0 = b.bytes.toList.getD j 0
    · -- the byte agrees, so do both of its nibbles
      rw [if_neg (not_not.mpr same)]
      refine ih (j + 1) (by omega) fun i below => ?_
      rcases Nat.lt_or_ge i (2 * j) with low | high
      · exact agree i low
      · obtain ⟨same_high, same_low⟩ := (eq_iff_high_low _ _).mp same
        rcases (show i = 2 * j ∨ i = 2 * j + 1 by omega) with rfl | rfl
        · rw [nibble_two_mul, nibble_two_mul, same_high]
        · rw [nibble_two_mul_add_one, nibble_two_mul_add_one, same_low]
    · rw [if_pos same]
      by_cases differ : nibble a.bytes.toList (2 * j) = nibble b.bytes.toList (2 * j)
      · -- the high halves agree, so the low ones differ
        have lowDiffer : nibble a.bytes.toList (2 * j + 1) ≠ nibble b.bytes.toList (2 * j + 1) := by
          rw [nibble_two_mul_add_one, nibble_two_mul_add_one]
          rw [nibble_two_mul, nibble_two_mul] at differ
          exact fun low => same ((eq_iff_high_low _ _).mpr ⟨differ, low⟩)
        have sameVal : (some (nibble a.bytes.toList (2 * j)).val : Option Nat) = some (nibble b.bytes.toList (2 * j)).val := by
          rw [differ]
        simp only [sameVal, ne_eq, not_true_eq_false, if_false]
        refine ⟨2 * j + 1, by rw [Nat.mul_comm], by omega, fun i below => ?_, fun _ => lowDiffer⟩
        rcases Nat.lt_or_ge i (2 * j) with low | high
        · exact agree i low
        · rw [show i = 2 * j by omega]
          exact differ
      · have differVal : (some (nibble a.bytes.toList (2 * j)).val : Option Nat) ≠ some (nibble b.bytes.toList (2 * j)).val := by
          intro eq
          exact differ (Fin.ext (Option.some_injective _ eq))
        simp only [ne_eq, differVal, not_false_eq_true, if_true]
        exact ⟨2 * j, by rw [Nat.mul_comm], by omega, agree, fun _ => differ⟩

theorem commonPrefix_eq {a b : KeyNibbles} (va : a.Valid) (vb : b.Valid) :
    ∃ s, a.commonPrefix b = some s ∧ s.Valid ∧ s.toList = Albatross.commonPrefix a.toList b.toList := by
  obtain ⟨d, found, le, agree, parts⟩ := firstDifference_spec va vb
    (min a.len b.len / 2 + min a.len b.len % 2) 0 (by simp) (by simp)
  obtain ⟨s, sliced, valid, nibbles⟩ := slice_eq va (Nat.zero_le d) (by omega) (by simp)
  refine ⟨s, ?_, valid, ?_⟩
  · simp only [commonPrefix, List.range_eq_range', Option.bind_eq_bind]
    rw [found, Option.bind_some, sliced]
  · rw [nibbles, List.drop_zero, eq_comm]
    refine commonPrefix_eq_take (by simp; omega) (by simp; omega) (fun i below => ?_) (fun shortA shortB => ?_)
    · rw [getElem?_toList (by omega), getElem?_toList (by omega), agree i below]
    · rw [getElem?_toList (by simpa using shortA), getElem?_toList (by simpa using shortB)]
      exact fun same => parts (by simp at shortA shortB; omega) (Option.some_injective _ same)

/-- The key of the single nibble `5`. -/
def fiveKey : KeyNibbles := ⟨(Vector.replicate 63 0).set 0 0x50, 1⟩

theorem five_key_slice_panics :
    fiveKey.Valid ∧ fiveKey.toList = [5] ∧ fiveKey.slice 1 1 = none :=
  ⟨by decide, by decide, (slice_empty_at_odd_nibble_panics fiveKey 1 (by decide) (by decide)).1⟩

/-- The packed keys refine the list model on what the trie reads of them: `get`,
`is_prefix_of`, the derived order and `successor` of valid keys are those of their nibble
lists, and so is `slice` wherever it does not panic. -/
theorem packed_keys_refine_nibble_lists :
    (∀ k : KeyNibbles, k.Valid → ∀ i, k.get i = some (k.toList[i]?.map Fin.val)) ∧
    (∀ a b : KeyNibbles, a.Valid → a.isPrefixOf b = some (decide (a.toList <+: b.toList))) ∧
    (∀ a b : KeyNibbles, a.Valid → b.Valid → a.cmp b = compare a.toList b.toList) ∧
    (∀ k : KeyNibbles, k.Valid → k.len < 126 →
      ∃ s, k.successor = some s ∧ s.Valid ∧ s.toList = k.toList ++ [0] ∧ k.cmp s = .lt ∧
        ∀ m : KeyNibbles, m.Valid → k.cmp m = .lt → s.cmp m ≠ .gt) ∧
    (∀ k : KeyNibbles, k.Valid → ∀ i j, i ≤ j → j ≤ k.len → ¬ (i % 2 = 1 ∧ i = j) →
      ∃ s, k.slice i j = some s ∧ s.Valid ∧ s.toList = (k.toList.take j).drop i) :=
  ⟨fun _ valid => get_eq valid.len_le, fun _ b valid => isPrefixOf_eq valid b,
    fun _ _ => cmp_eq_compare, fun _ => successor_immediate,
    fun _ valid _ _ => slice_eq valid⟩

end KeyNibbles

end Packed

end Albatross
