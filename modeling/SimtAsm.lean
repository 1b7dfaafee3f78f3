import SimtAsm.Assembly.Trace
import SimtAsm.Disassembly.Source
import SimtAsm.Main
import SimtAsm.Proofs.AddressSpace
import SimtAsm.Proofs.AllOrNothing
import SimtAsm.Proofs.ControlFlow
import SimtAsm.Proofs.IgnoringCase
import SimtAsm.Proofs.Isolation
import SimtAsm.Proofs.Layout
import SimtAsm.Proofs.Linking
import SimtAsm.Proofs.Loading
import SimtAsm.Proofs.Messages
import SimtAsm.Proofs.Reassembly
import SimtAsm.Proofs.Renaming
import SimtAsm.Proofs.SameFlow
import SimtAsm.Proofs.Writing
import SimtAsm.Proofs.FirstDefinition
import SimtAsm.Proofs.Overflow
import SimtAsm.Proofs.EntryOrder
import SimtAsm.Proofs.Immediates
import SimtAsm.Proofs.Naming
import SimtAsm.Proofs.BreadthFirst
import SimtAsm.Proofs.ReachedListing
import SimtAsm.Proofs.RegisterNames
import SimtAsm.Proofs.Settling
import SimtAsm.Proofs.Windows
import SimtAsm.Proofs.Renderings
import SimtAsm.Proofs.FieldLists
import SimtAsm.Proofs.SignedRange
