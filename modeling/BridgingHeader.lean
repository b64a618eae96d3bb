import BridgingHeader.Main
import BridgingHeader.Simulation.Script
import BridgingHeader.Proofs.PropertyList.RoundTrip
import BridgingHeader.Proofs.PropertyList.ReadErrors
import BridgingHeader.Proofs.Project.Requirements
import BridgingHeader.Proofs.Patch.Original
import BridgingHeader.Proofs.Patch.Registration
import BridgingHeader.Proofs.CompilerFlags.Invocation
import BridgingHeader.Proofs.CompilerFlags.Scanning
import BridgingHeader.Proofs.CompilerFlags.PickedFlags
import BridgingHeader.Proofs.Path.Relative
import BridgingHeader.Proofs.Generation.Footprint
import BridgingHeader.Proofs.Patch.References
import BridgingHeader.Proofs.BuildSettings.Dump
import BridgingHeader.Proofs.CompilerFlags.DryRun
import BridgingHeader.Proofs.Json.RoundTrip
import BridgingHeader.Proofs.Patch.Failures
import BridgingHeader.Proofs.Project.WrittenLines
import BridgingHeader.Proofs.Generation.Names
import BridgingHeader.Proofs.Patch.Cloning
import BridgingHeader.Proofs.Config.Layers
import BridgingHeader.Proofs.Project.Identifiers
import BridgingHeader.Proofs.Simulation.Cleanup
