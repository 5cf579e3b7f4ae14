import UrReplay.Text.Basic
import UrReplay.Text.Blank
import UrReplay.Text.Lines
import UrReplay.Text.Order
import UrReplay.Text.Utf8
import UrReplay.Text.Hex
import UrReplay.Text.Decimal
import UrReplay.Bytes
import UrReplay.Crc32
import UrReplay.Bytewords.Alphabet
import UrReplay.Bytewords.Codec
import UrReplay.Cbor.Head
import UrReplay.Cbor.Item
import UrReplay.Random.Sha256
import UrReplay.Random.Xoshiro
import UrReplay.Random.AliasTable
import UrReplay.Random.RankTree
import UrReplay.Random.Sampling
import UrReplay.Fountain.IndexSet
import UrReplay.Fountain.Mix
import UrReplay.Fountain.FragmentLength
import UrReplay.Fountain.Part
import UrReplay.Fountain.Encoder
import UrReplay.Fountain.Decoder
import UrReplay.Fountain.InPlace
import UrReplay.Resource.Basic
import UrReplay.Resource.Decoder
import UrReplay.Resource.InPlace
import UrReplay.Resource.Encoder
import UrReplay.Capture.Fragment
import UrReplay.Session.Basic
import UrReplay.Session.Resource
import UrReplay.Session.Scripted
import UrReplay.Files.Path
import UrReplay.Files.Access
import UrReplay.Files.Tree.Basic
import UrReplay.Files.Tree.Walk
import UrReplay.Files.Tree.Access
import UrReplay.Capture.Outcome
import UrReplay.Golden.Naming
import UrReplay.Golden.Content
import UrReplay.Golden.Check
import UrReplay.Golden.Recorder
import UrReplay.Discovery.Pattern
import UrReplay.Discovery.Basic
import UrReplay.Suite.Settings
import UrReplay.Suite.Report
import UrReplay.Suite.Verify
import UrReplay.Report.Document
import UrReplay.Report.Lines
import UrReplay.CommandLine.Arguments
import UrReplay.CommandLine.Run
import UrReplay.Main
import UrReplay.Proofs.BigEndian
import UrReplay.Proofs.Xor
import UrReplay.Proofs.Except
import UrReplay.Proofs.InPlace
import UrReplay.Proofs.Loop
import UrReplay.Proofs.Crc32
import UrReplay.Proofs.Crc32.Bitwise
import UrReplay.Proofs.Text.Lower
import UrReplay.Proofs.Text.Split
import UrReplay.Proofs.Text.Lines
import UrReplay.Proofs.Text.Decimal
import UrReplay.Proofs.Text.Utf8
import UrReplay.Proofs.Text.Hex
import UrReplay.Proofs.Text.Trim
import UrReplay.Proofs.Bytewords.Alphabet
import UrReplay.Proofs.Bytewords.Minimal
import UrReplay.Proofs.Bytewords.Image
import UrReplay.Proofs.Bytewords.Damage
import UrReplay.Proofs.Cbor.Head
import UrReplay.Proofs.Cbor.Item
import UrReplay.Proofs.Random.RankTree
import UrReplay.Proofs.Random.Sampling
import UrReplay.Proofs.Random.Removal
import UrReplay.Proofs.Random.RankTree.InPlace
import UrReplay.Proofs.Random.RankTree.Calls
import UrReplay.Proofs.Random.AliasTable
import UrReplay.Proofs.Random.AliasTable.InPlace
import UrReplay.Proofs.Random.AliasTable.Choice
import UrReplay.Proofs.Fountain.IndexSet
import UrReplay.Proofs.Fountain.Mix
import UrReplay.Proofs.Fountain.Header
import UrReplay.Proofs.Fountain.Canonical
import UrReplay.Proofs.Fountain.Choice
import UrReplay.Proofs.Fountain.FragmentLength
import UrReplay.Proofs.Fountain.Step
import UrReplay.Proofs.Fountain.Run
import UrReplay.Proofs.Fountain.Atomicity
import UrReplay.Proofs.Fountain.Count
import UrReplay.Proofs.Fountain.Derivation
import UrReplay.Proofs.Fountain.Invariant
import UrReplay.Proofs.Fountain.Integrity
import UrReplay.Proofs.Fountain.Duration
import UrReplay.Proofs.Fountain.FullStore
import UrReplay.Proofs.Fountain.Admission
import UrReplay.Proofs.Fountain.Feed
import UrReplay.Proofs.Fountain.Peeling
import UrReplay.Proofs.Fountain.Order
import UrReplay.Proofs.Fountain.Progress
import UrReplay.Proofs.Fountain.Encoder
import UrReplay.Proofs.Fountain.Emission
import UrReplay.Proofs.Fountain.Transmission
import UrReplay.Proofs.Fountain.CutError
import UrReplay.Proofs.Resource.Grammar
import UrReplay.Proofs.Resource.Parse
import UrReplay.Proofs.Resource.Receive
import UrReplay.Proofs.Resource.Run
import UrReplay.Proofs.Resource.Atomicity
import UrReplay.Proofs.Resource.Observables
import UrReplay.Proofs.Resource.Emission
import UrReplay.Proofs.Resource.Transport
import UrReplay.Proofs.Resource.RoundTrip
import UrReplay.Proofs.Resource.Acceptance
import UrReplay.Proofs.Resource.Interleaving
import UrReplay.Proofs.Resource.Whole
import UrReplay.Proofs.Resource.ReadBack
import UrReplay.Proofs.Session.Log
import UrReplay.Proofs.Session.Contract
import UrReplay.Proofs.Session.Influence
import UrReplay.Proofs.Session.Delivery
import UrReplay.Proofs.Session.Threshold
import UrReplay.Proofs.Capture.Fragment
import UrReplay.Proofs.Capture.Marker
import UrReplay.Proofs.Capture.Extent
import UrReplay.Proofs.Capture.Lines
import UrReplay.Proofs.Capture.Delivery
import UrReplay.Proofs.Files.Path
import UrReplay.Proofs.Files.Walk
import UrReplay.Proofs.Files.Write
import UrReplay.Proofs.Files.ReadBack
import UrReplay.Proofs.Files.Listing
import UrReplay.Proofs.Golden.Content
import UrReplay.Proofs.Golden.Layout
import UrReplay.Proofs.Golden.Recorder
import UrReplay.Proofs.Golden.Comparison
import UrReplay.Proofs.Golden.Recording
import UrReplay.Proofs.Discovery.Language
import UrReplay.Proofs.Discovery.Expression
import UrReplay.Proofs.Discovery.Pattern
import UrReplay.Proofs.Discovery.Captures
import UrReplay.Proofs.Discovery.Answer
import UrReplay.Proofs.Golden.Naming
import UrReplay.Proofs.Suite.Verify
import UrReplay.Proofs.Suite.Site
import UrReplay.Proofs.Suite.Generation
import UrReplay.Proofs.Report.Lines
import UrReplay.Proofs.CommandLine.Status
