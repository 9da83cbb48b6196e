import Albatross.Account.Interaction

/- The transaction side of the hashed time-locked contract
   (primitives/transaction/src/account/htlc_contract.rs): the creation data, the
   outgoing proof and its `verify`. Byte strings are a type `B`; the three hashers
   are one function `digest` of the algorithm; a signature proof is a value of `S`
   read through the two methods of `SignatureProof` the code calls. The `u8` fields
   `hash_depth` and `hash_count` are Nat: nothing here can overflow them. -/
namespace Albatross.Htlc

variable {A B S M : Type}

inductive HashAlgorithm
  | blake2b
  | sha256
  | sha512
  deriving DecidableEq, Repr

/-- `AnyHash`: the variant names the algorithm, the payload holds the digest bytes. -/
structure AnyHash (B : Type) where
  algorithm : HashAlgorithm
  bytes : B
  deriving DecidableEq

/-- `SignatureProof::compute_signer` and `SignatureProof::verify(message)`. -/
structure SignatureScheme (A S M : Type) where
  computeSigner : S → A
  verify : S → M → Bool

def SignatureScheme.isSignedBy [DecidableEq A] (σ : SignatureScheme A S M) (proof : S)
    (address : A) : Bool :=
  σ.computeSigner proof = address

structure CreationTransactionData (A B : Type) where
  sender : A
  recipient : A
  hashRoot : AnyHash B
  hashCount : Nat
  timeout : Nat

def CreationTransactionData.verify (data : CreationTransactionData A B) :
    Except TransactionError Unit :=
  if data.hashCount = 0 then .error .invalidData else .ok ()

inductive OutgoingHTLCTransactionProof (B S : Type)
  | regularTransfer (hashDepth : Nat) (hashRoot : AnyHash B) (preImage : B) (signatureProof : S)
  | earlyResolve (signatureProofRecipient signatureProofSender : S)
  | timeoutResolve (signatureProofSender : S)

/-- The fields of `Transaction` the HTLC code reads. `recipientData` and `proof` are
    what `deserialize_all` makes of those byte fields (`none`: they do not parse), and
    `content` is `serialize_content()`, the message the signature proofs sign. -/
structure Transaction (A B S M : Type) where
  sender : A
  recipient : A
  value : Coin
  fee : Coin
  recipientData : Option (CreationTransactionData A B)
  proof : Option (OutgoingHTLCTransactionProof B S)
  content : M

/-- `total_value`: saturating, since it may be called before `verify`. -/
def Transaction.totalValue (tx : Transaction A B S M) : Coin := tx.value.saturatingAdd tx.fee

/-- The hashing loop of `verify`: `hash_depth` rounds of the root's algorithm. -/
def hashChain (digest : HashAlgorithm → B → B) (algorithm : HashAlgorithm) (depth : Nat)
    (preImage : B) : B :=
  (digest algorithm)^[depth] preImage

/-- `OutgoingHTLCTransactionProof::verify`. The regular transfer compares only the
    bytes of the root with the hashed pre-image, and nothing bounds `hash_depth`. -/
def OutgoingHTLCTransactionProof.verify [DecidableEq B] (digest : HashAlgorithm → B → B)
    (σ : SignatureScheme A S M) (p : OutgoingHTLCTransactionProof B S)
    (tx : Transaction A B S M) : Except TransactionError Unit :=
  match p with
  | .regularTransfer hashDepth hashRoot preImage signatureProof =>
    if hashRoot.bytes ≠ hashChain digest hashRoot.algorithm hashDepth preImage then
      .error .invalidProof
    else if !σ.verify signatureProof tx.content then .error .invalidProof
    else .ok ()
  | .earlyResolve signatureProofRecipient signatureProofSender =>
    if !σ.verify signatureProofRecipient tx.content || !σ.verify signatureProofSender tx.content
    then .error .invalidProof
    else .ok ()
  | .timeoutResolve signatureProofSender =>
    if !σ.verify signatureProofSender tx.content then .error .invalidProof else .ok ()

theorem hashChain_succ (digest : HashAlgorithm → B → B) (algorithm : HashAlgorithm) (depth : Nat)
    (preImage : B) :
    hashChain digest algorithm (depth + 1) preImage =
      hashChain digest algorithm depth (digest algorithm preImage) := rfl

/-- The regular transfer accepts exactly a pre-image that hashes to the root's bytes
    and a signature valid for the transaction. -/
theorem verify_regularTransfer [DecidableEq B] (digest : HashAlgorithm → B → B)
    (σ : SignatureScheme A S M) (tx : Transaction A B S M) (hashDepth : Nat) (hashRoot : AnyHash B)
    (preImage : B) (signatureProof : S) :
    (OutgoingHTLCTransactionProof.regularTransfer hashDepth hashRoot preImage signatureProof).verify
        digest σ tx = .ok () ↔
      hashChain digest hashRoot.algorithm hashDepth preImage = hashRoot.bytes ∧
        σ.verify signatureProof tx.content = true := by
  unfold OutgoingHTLCTransactionProof.verify
  by_cases root : hashRoot.bytes = hashChain digest hashRoot.algorithm hashDepth preImage
  · cases valid : σ.verify signatureProof tx.content <;> simp [root, valid]
  · simp [root, Ne.symm root]

end Albatross.Htlc
