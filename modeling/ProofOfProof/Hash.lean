import ProofOfProof.Hash.Sha256

/-! The hashes that ids, checksums, merkle paths and headers are built from. -/

namespace ProofOfProof

def sha256 (bytes : Bytes) : Hash := Sha256.hash bytes

/-- SHA-256 of the SHA-256. -/
def sha256d (bytes : Bytes) : Hash := sha256 (sha256 bytes).val

/-- SHA-256 of `a` followed by `b`. -/
def sha256Pair (a b : Bytes) : Hash := sha256 (a ++ b)

def sha256dPair (a b : Bytes) : Hash := sha256d (a ++ b)

/-- The hash of a raw VeriBlock header. The chain's own hash is not fixed here. -/
abbrev HeaderHash := Bytes → Fixed 24

/-- Double SHA-256, cut to the width of a header hash. -/
def defaultHeaderHash : HeaderHash := fun header => (sha256d header).first 24 (by decide)

end ProofOfProof
