import WitnessSigning.Main
import WitnessSigning.SecretStore
import WitnessSigning.Proofs.Transaction.RoundTrip
import WitnessSigning.Proofs.Signature.Der
import WitnessSigning.Proofs.Spend.Matching
import WitnessSigning.Proofs.Spend.Collecting
import WitnessSigning.Proofs.Spend.Signing
import WitnessSigning.Proofs.Curve.Field
import WitnessSigning.Proofs.Curve.Group
import WitnessSigning.Proofs.Key.Public
import WitnessSigning.Proofs.Spend.Session
import WitnessSigning.Proofs.Signature.Equation
import WitnessSigning.Proofs.Spend.Commitment
import WitnessSigning.Proofs.Spend.Interleaving
import WitnessSigning.Proofs.Script.Layout
import WitnessSigning.Proofs.Text.Base58
import WitnessSigning.Proofs.Text.Regroup
import WitnessSigning.Proofs.Text.Checksum
import WitnessSigning.Proofs.Text.Bech32
import WitnessSigning.Proofs.Spend.Refusing
import WitnessSigning.Proofs.Curve.Order
import WitnessSigning.Proofs.Signature.Twin
import WitnessSigning.Proofs.Script.Address
import WitnessSigning.Proofs.Transaction.Identifier
import WitnessSigning.Proofs.Text.Register
import WitnessSigning.Proofs.Text.Syndrome
import WitnessSigning.Proofs.Text.Distance
import WitnessSigning.Proofs.Text.Typo
import WitnessSigning.Proofs.Document.Exchange
import WitnessSigning.Proofs.Spend.Finding
import WitnessSigning.Proofs.Spend.Reassembling
import WitnessSigning.Proofs.Key.Wif
import WitnessSigning.Proofs.Spend.Revealing
import WitnessSigning.Proofs.Wire.Local
import WitnessSigning.Proofs.Transaction.PrefixFree
import WitnessSigning.Proofs.Wire.Answering
import WitnessSigning.Proofs.Wire.Stream
import WitnessSigning.Proofs.Signature.Normalizing
import WitnessSigning.Proofs.Spend.Pinning
import WitnessSigning.Proofs.Text.Leftover
import WitnessSigning.Proofs.Signature.LowForm
import WitnessSigning.Proofs.Text.Buffer
import WitnessSigning.Proofs.Script.Places
