import RangeKeys.Aes.Encryption
import RangeKeys.BigEndian
import RangeKeys.BlockEncryption
import RangeKeys.CipherError
import RangeKeys.Derivation
import RangeKeys.Gcm.Sealing
import RangeKeys.Masking
import RangeKeys.Metered
import RangeKeys.StreamKeys
import RangeKeys.Text.Quoted
import RangeKeys.Tree.Cover
import RangeKeys.Tree.KeyTree
import RangeKeys.Proofs.BlockEncryption.RoundTrip
import RangeKeys.Proofs.Cover.Exactness
import RangeKeys.Proofs.Derivation.Agreement
import RangeKeys.Proofs.Derivation.Steps
import RangeKeys.Proofs.KeyTree.Construction
import RangeKeys.Proofs.KeyTree.Derivation
import RangeKeys.Proofs.KeyTree.Genuine
import RangeKeys.Proofs.KeyTree.LeafKeys
import RangeKeys.Proofs.KeyTree.Reveal
import RangeKeys.Proofs.KeyTree.Sharing
import RangeKeys.Proofs.SeedNode.Codec
import RangeKeys.Proofs.Masking.Aggregation
import RangeKeys.Proofs.Position.Notation
import RangeKeys.Proofs.StreamKeys.Paths
import RangeKeys.Word.Checked
import RangeKeys.Word.Config
import RangeKeys.Word.Cover
import RangeKeys.Word.WordTree
import RangeKeys.Proofs.Word.Exactness
import RangeKeys.Proofs.Word.Climb
import RangeKeys.Proofs.Word.Refusing
import RangeKeys.Proofs.Word.Agreement
import RangeKeys.Proofs.Word.Construction
import RangeKeys.Proofs.Word.FaultFree
import RangeKeys.Proofs.Word.Notation
import RangeKeys.Proofs.Secrecy.Alike
import RangeKeys.Proofs.Secrecy.Shares
import RangeKeys.Session
import RangeKeys.Proofs.Secrecy.Trees
import RangeKeys.Proofs.Secrecy.Encodings
import RangeKeys.Proofs.Secrecy.Sessions
import RangeKeys.Proofs.BinaryField.Irreducible
import RangeKeys.Proofs.Gcm.Field
import RangeKeys.Proofs.Aes.Permutation
import RangeKeys.Proofs.BlockEncryption.Integrity
import RangeKeys.Proofs.KeyTree.Failures
import RangeKeys.Proofs.BlockEncryption.Checks
import RangeKeys.Proofs.Metered.Failures
import RangeKeys.Proofs.StreamKeys.InputErrors
import RangeKeys.Proofs.Expansion.Calls
import RangeKeys.Proofs.KeyTree.RangeCost
import RangeKeys.Proofs.Masking.Boundary
import RangeKeys.Proofs.Masking.Regrouping
import RangeKeys.Proofs.Masking.Batches
import RangeKeys.Proofs.Metered.Cost
import RangeKeys.Proofs.KeyTree.PointCost
import RangeKeys.Proofs.Masking.Cost
import RangeKeys.Proofs.StreamKeys.OtherCipher
import RangeKeys.Proofs.StreamKeys.Cost
import RangeKeys.Proofs.Derivation.Inputs
import RangeKeys.Proofs.Derivation.Separation
import RangeKeys.Proofs.StreamKeys.Siblings
