import RegionLayout.Rect.Lemmas
import RegionLayout.Layout.Placement
import RegionLayout.Layout.Cached
import RegionLayout.Layout.Decode
import RegionLayout.Program.Listing
import RegionLayout.Proofs.Layout.RoundTrip
import RegionLayout.Proofs.Access.Session
import RegionLayout.Proofs.Rect.Counting
import RegionLayout.Proofs.Program.Coverage
import RegionLayout.Proofs.Placement.Elements
import RegionLayout.Proofs.Program.Decisions
import RegionLayout.Proofs.Program.Relocation
import RegionLayout.Proofs.Program.Segments
import RegionLayout.Proofs.Program.Usage
import RegionLayout.Proofs.Layout.Caching
import RegionLayout.Proofs.Access.Confinement
import RegionLayout.Proofs.Program.Safety
import RegionLayout.Proofs.Program.Choice
import RegionLayout.Proofs.Program.Division
import RegionLayout.Proofs.Program.Order
import RegionLayout.Proofs.Layout.Checked
import RegionLayout.Proofs.Layout.NormalForm
import RegionLayout.Proofs.Placement.Sizes
import RegionLayout.Proofs.Access.View
import RegionLayout.Proofs.Transform.Results
import RegionLayout.Proofs.Transform.Bounds
import RegionLayout.Proofs.Access.ChosenOrder
import RegionLayout.Proofs.Access.RectWalk
import RegionLayout.Proofs.Rect.Walk
import RegionLayout.Proofs.Rect.Operations
import RegionLayout.Proofs.IndexSpace
import RegionLayout.Proofs.Program.Memory
