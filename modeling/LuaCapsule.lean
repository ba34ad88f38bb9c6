import LuaCapsule.Device.Checkpoint
import LuaCapsule.Device.Compute
import LuaCapsule.Proofs.Canonical
import LuaCapsule.Proofs.Confinement
import LuaCapsule.Proofs.Isolation
import LuaCapsule.Proofs.Passage
import LuaCapsule.Proofs.Runs
import LuaCapsule.Proofs.StringMethods
import LuaCapsule.Proofs.Noninterference
import LuaCapsule.Proofs.StoredSnapshots
import LuaCapsule.Proofs.JsonValues
import LuaCapsule.Proofs.HostRuns
import LuaCapsule.Proofs.EncodedReading
import LuaCapsule.Proofs.UncheckedObjects
import LuaCapsule.Proofs.UncheckedContents
import LuaCapsule.Proofs.Acceptance
import LuaCapsule.Proofs.Loading
import LuaCapsule.Proofs.Refusal
import LuaCapsule.Proofs.Removal
import LuaCapsule.Proofs.Containment
import LuaCapsule.Proofs.StoredArtifacts
import LuaCapsule.Proofs.ListingShape
import LuaCapsule.Proofs.Reencoding
import LuaCapsule.Proofs.Calls
import LuaCapsule.Proofs.ContentAddress
import LuaCapsule.Proofs.PolicySpelling
import LuaCapsule.Proofs.PolicyEffect
import LuaCapsule.Proofs.InvocationOutcome
import LuaCapsule.Proofs.SortedKeys
import LuaCapsule.Proofs.CodePoints
import LuaCapsule.Proofs.ScalarReferences
import LuaCapsule.Proofs.CarriedSnapshots
