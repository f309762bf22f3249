import RegisterMap.Document.Encode
import RegisterMap.Main
import RegisterMap.Walk.Preorder
import RegisterMap.Walk.Trace
import RegisterMap.Proofs.Step
import RegisterMap.Proofs.Walk
import RegisterMap.Proofs.Occurrence
import RegisterMap.Proofs.Valid
import RegisterMap.Proofs.RowMajor
import RegisterMap.Proofs.ElementNames
import RegisterMap.Proofs.Produce
import RegisterMap.Proofs.Ensures
import RegisterMap.Proofs.Guards
import RegisterMap.Proofs.AddressSpace
import RegisterMap.Proofs.Overflow
import RegisterMap.Proofs.KeepsWords
import RegisterMap.Proofs.FieldOverlap
import RegisterMap.Proofs.FieldMasks
import RegisterMap.Proofs.FirstFault
import RegisterMap.Proofs.Pruned
import RegisterMap.Proofs.Skipping
import RegisterMap.Proofs.Text.Identifier
import RegisterMap.Proofs.Header.Export
import RegisterMap.Proofs.Uvm.MemberNames
import RegisterMap.Proofs.Uvm.Declared
import RegisterMap.Proofs.Uvm.Mapped
import RegisterMap.Proofs.Uvm.Widths
import RegisterMap.Proofs.Ipxact.Read
import RegisterMap.Proofs.Ipxact.Outline
import RegisterMap.Proofs.Ipxact.Mirror
import RegisterMap.Proofs.Ipxact.RoundTrip
import RegisterMap.Proofs.Ipxact.Widths
import RegisterMap.Proofs.Document.RoundTrip
import RegisterMap.Proofs.Html.Assets
import RegisterMap.Proofs.Html.Index
import RegisterMap.Proofs.Html.Pages
import RegisterMap.Proofs.Html.Reference
import RegisterMap.Proofs.Html.Addresses
import RegisterMap.Proofs.Html.AnyText
import RegisterMap.Proofs.Html.Lossless
import RegisterMap.Proofs.Html.PairedHeadings
import RegisterMap.Proofs.Html.HeadingMoves
import RegisterMap.Proofs.Html.FaithfulText
import RegisterMap.Proofs.Html.Bundling
import RegisterMap.Proofs.Html.KeptImages
import RegisterMap.Proofs.Html.OwnFields
import RegisterMap.Proofs.Html.Offsets
import RegisterMap.Proofs.Html.OffsetColumn
import RegisterMap.Proofs.ReadAsGiven
import RegisterMap.Proofs.Agreement
import RegisterMap.Proofs.Unrolled
import RegisterMap.Proofs.DerivedSize
import RegisterMap.Proofs.Messages
import RegisterMap.Proofs.Storage.Atomic
