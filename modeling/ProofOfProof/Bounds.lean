/-! The fixed sizes and limits of the protocol. -/

namespace ProofOfProof

def btcHeaderSize : Nat := 80

def vbkHeaderSize : Nat := 65

def maxBtcTxSize : Nat := 4000000

def maxMerkleLayers : Nat := 40

/-- The width in bytes of the sizes inside a Bitcoin merkle path. -/
def merkleSizeWidth : Nat := 4

def maxOutputs : Nat := 255

def maxSignatureSize : Nat := 72

def maxPublicKeySize : Nat := 88

def addressLength : Nat := 30

/-- How many bytes of a decoded address a publication embeds. -/
def addressExcerptLength : Nat := 15

def maxPublicationHeader : Nat := 1024

def maxPublicationContext : Nat := 10000

def maxPublicationPayout : Nat := 10000

/-- The most bytes an encoded publication may take: the identifier, and three fields of full size,
each behind one length byte. -/
def maxPublicationSize : Nat :=
  1 + 8 + 1 + maxPublicationHeader + 1 + maxPublicationContext + 1 + maxPublicationPayout

def maxBodySize : Nat := 5500000

def maxContextBlocks : Nat := 50000

def maxVtbs : Nat := 50000

def maxAtvs : Nat := 50000

/-- The most endorsements of one block, which come from its ATVs or from its VTBs. -/
def maxEndorsements : Nat := max maxAtvs maxVtbs

def maxBtcContext : Nat := 15000

def maxPayouts : Nat := 50000

def minAltHash : Nat := 0

def maxAltHash : Nat := 1024

def maxBtcReferences : Nat := 65536

def payloadVersion : UInt32 := 1

/-- The largest nonce of five bytes. -/
def maxVbkNonce : UInt64 := 1099511627775

end ProofOfProof
