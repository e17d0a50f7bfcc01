/-!
# Vocabularies

The tokens in common use for paddings, digests and block modes. Descriptors keep any token; these lists are for callers that want to know the usual ones.
-/

namespace HardwareKeys

/-- What a token is about. -/
inductive Vocabulary where
  | encryptionPadding
  | signaturePadding
  | digest
  | blockMode
deriving DecidableEq

namespace Vocabulary

def all : List Vocabulary := [encryptionPadding, signaturePadding, digest, blockMode]

def tokens : Vocabulary → List String
  | encryptionPadding => ["NoPadding", "PKCS7Padding", "PKCS1Padding", "OAEPPadding"]
  | signaturePadding => ["PKCS1", "PSS"]
  | digest => ["NONE", "MD5", "SHA-1", "SHA-224", "SHA-256", "SHA-384", "SHA-512"]
  | blockMode => ["ECB", "CBC", "CTR", "GCM"]

end Vocabulary

end HardwareKeys
