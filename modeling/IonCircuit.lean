import IonCircuit.About
import IonCircuit.Circuit.Fourier
import IonCircuit.Circuit.Json
import IonCircuit.Circuit.Text
import IonCircuit.Error.Message
import IonCircuit.NativeSet.Json
import IonCircuit.Pass
import IonCircuit.Proofs.Acceptance
import IonCircuit.Proofs.Drift
import IonCircuit.Proofs.Preservation
import IonCircuit.Random.Words
import IonCircuit.Settings.Json
import IonCircuit.Proofs.Equality
import IonCircuit.Proofs.Idempotence
import IonCircuit.Proofs.Adjoint
import IonCircuit.Proofs.GlobalPhase
import IonCircuit.Proofs.SelfCheck
import IonCircuit.Proofs.Execution
import IonCircuit.Proofs.Locality
import IonCircuit.Proofs.Binary64.Order
import IonCircuit.Proofs.Tolerance
import IonCircuit.History
import IonCircuit.Proofs.History
import IonCircuit.Proofs.Folding
import IonCircuit.Proofs.Conservation
import IonCircuit.Proofs.RoundTrip
import IonCircuit.Proofs.Fourier
import IonCircuit.Proofs.Equatorial
import IonCircuit.Proofs.Composite
import IonCircuit.Proofs.Interruption
import IonCircuit.Proofs.Lowering
import IonCircuit.Proofs.Agreement
import IonCircuit.Proofs.Commutation
import IonCircuit.Proofs.Renaming
import IonCircuit.Proofs.Exchange
import IonCircuit.Proofs.Symmetry
import IonCircuit.Proofs.Random.Layers
import IonCircuit.Proofs.Random.Words
import IonCircuit.Proofs.SettingsReading
import IonCircuit.Proofs.FourierCost
