import Mathlib

/- Ideal aggregate signatures. An aggregate signature is the multiset of the
   individual (key, message) signatures it combines, and an aggregate public key
   the multiset of its keys; the empty aggregate is the point at infinity, the sum
   of no keys (with no rogue keys, no other sum is). Verification rejects the point
   at infinity and otherwise accepts exactly the aggregate of the keys' signatures
   on the message. Nothing else, in particular no forgery, can satisfy it. -/
namespace IdealAggregate

variable {K M : Type}

abbrev AggregatePublicKey (K : Type) := Multiset K

abbrev AggregateSignature (K M : Type) := Multiset (K × M)

def AggregatePublicKey.new : AggregatePublicKey K := 0

def AggregatePublicKey.aggregate (agg : AggregatePublicKey K) (pk : K) : AggregatePublicKey K :=
  agg + {pk}

/-- The individual signature of key `k` on message `m`. -/
def sign (k : K) (m : M) : AggregateSignature K M := {(k, m)}

/-- The aggregate of the signatures of every key of `keys` on `m`. -/
def aggregateOf (keys : AggregatePublicKey K) (m : M) : AggregateSignature K M :=
  keys.map fun k => (k, m)

/-- `PublicKey::verify_g1`, which returns false for the point at infinity. -/
def verify [DecidableEq K] [DecidableEq M] (agg : AggregatePublicKey K) (m : M)
    (sig : AggregateSignature K M) : Bool :=
  decide (agg ≠ 0 ∧ sig = aggregateOf agg m)

/-- Key `k` contributed its own signature on `m` to `sig`. -/
def Signed (sig : AggregateSignature K M) (k : K) (m : M) : Prop := (k, m) ∈ sig

theorem signed_aggregateOf (agg : AggregatePublicKey K) (k : K) (m : M) :
    Signed (aggregateOf agg m) k m ↔ k ∈ agg := by
  simp [Signed, aggregateOf]

section
variable [DecidableEq K] [DecidableEq M]

theorem verify_iff (agg : AggregatePublicKey K) (m : M) (sig : AggregateSignature K M) :
    verify agg m sig = true ↔ agg ≠ 0 ∧ sig = aggregateOf agg m := by
  simp [verify]

theorem verify_aggregateOf {agg : AggregatePublicKey K} (nonempty : agg ≠ 0) (m : M) :
    verify agg m (aggregateOf agg m) = true :=
  (verify_iff agg m _).mpr ⟨nonempty, rfl⟩

theorem signed_of_verify {agg : AggregatePublicKey K} {m : M} {sig : AggregateSignature K M}
    (ok : verify agg m sig = true) (k : K) : Signed sig k m ↔ k ∈ agg := by
  rw [((verify_iff agg m sig).mp ok).2]
  exact signed_aggregateOf agg k m

end

end IdealAggregate
