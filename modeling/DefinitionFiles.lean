import DefinitionFiles.Main
import DefinitionFiles.Proofs.Row.RoundTrip
import DefinitionFiles.Proofs.Mapping.Resolution
import DefinitionFiles.Proofs.Feed.Physical
import DefinitionFiles.Proofs.Row.Joining
import DefinitionFiles.Proofs.Reading.Fingerprint
import DefinitionFiles.Proofs.Mapping.Isolation
import DefinitionFiles.Proofs.Columns.Header
import DefinitionFiles.Proofs.Columns.Pairing
import DefinitionFiles.Proofs.Mapping.WrittenFile
import DefinitionFiles.Proofs.Feed.Whole
import DefinitionFiles.Proofs.Row.Steps
import DefinitionFiles.Proofs.Row.Limits
import DefinitionFiles.Proofs.Reading.Concatenation
import DefinitionFiles.Proofs.Reading.Trims
import DefinitionFiles.Proofs.Reading.Padding
import DefinitionFiles.Proofs.Mapping.Renumbering
import DefinitionFiles.Proofs.Mapping.Padding
import DefinitionFiles.Proofs.Row.ReadBack
import DefinitionFiles.Proofs.Mapping.Shape
import DefinitionFiles.Proofs.DeviceName
import DefinitionFiles.Proofs.Mapping.Heard
import DefinitionFiles.Proofs.Command.Dump
import DefinitionFiles.Proofs.Command.Check
import DefinitionFiles.Proofs.DeviceName.Convention
import DefinitionFiles.Proofs.Row.TwoPhases
import DefinitionFiles.Proofs.Reading.OpenQuotes
import DefinitionFiles.Proofs.Columns.Runs
import DefinitionFiles.Proofs.Reading.Progress
import DefinitionFiles.Proofs.Row.LineBreaks
import DefinitionFiles.Proofs.Row.Marked
import DefinitionFiles.Proofs.Mapping.Marked
import DefinitionFiles.Proofs.Columns.Listing
import DefinitionFiles.Proofs.Defaults.Merging
import DefinitionFiles.Proofs.Defaults.Filling
import DefinitionFiles.Proofs.Mapping.FillingLayers
import DefinitionFiles.Proofs.DeviceName.Parts
import DefinitionFiles.Proofs.Fingerprint
import DefinitionFiles.Proofs.DeviceName.Category
import DefinitionFiles.Proofs.Row.Cutting
import DefinitionFiles.Proofs.Mapping.Session
import DefinitionFiles.Proofs.Mapping.Stored
