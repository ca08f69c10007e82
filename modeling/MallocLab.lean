import MallocLab.Lib.Bytes
import MallocLab.Lib.Links
import MallocLab.Lib.Blocks
import MallocLab.Lib.Bins
import MallocLab.Lib.Owned
import MallocLab.Lib.Triple
import MallocLab.Lib.Scan
import MallocLab.Lib.Trail
import MallocLab.Lib.Intervals
import MallocLab.Lib.Interact
import MallocLab.Lib.Least
import MallocLab.Model.Machine
import MallocLab.Model.Tags
import MallocLab.Model.Segregate
import MallocLab.Model.Implicit
import MallocLab.Model.Copies
import MallocLab.Model.Client
import MallocLab.Model.LinkWrites
import MallocLab.Model.Walk
import MallocLab.Model.Driver
import MallocLab.Model.Trace
import MallocLab.Model.Passes
import MallocLab.Model.Programs
import MallocLab.Model.Fcyc
import MallocLab.Spec.Segregated
import MallocLab.Spec.Implicit
import MallocLab.Spec.Driver
import MallocLab.Spec.Trace
import MallocLab.Spec.Files
import MallocLab.Spec.Store
import MallocLab.Spec.Arrays
import MallocLab.Spec.Fcyc
import MallocLab.Proofs.Tiled
import MallocLab.Proofs.Walk
import MallocLab.Proofs.Runs
import MallocLab.Proofs.Reads
import MallocLab.Proofs.Contained
import MallocLab.Proofs.Raised
import MallocLab.Proofs.Houses
import MallocLab.Proofs.Arrays
import MallocLab.Proofs.Segregate.SizeClass
import MallocLab.Proofs.Segregate.Filed
import MallocLab.Proofs.Segregate.Release
import MallocLab.Proofs.Segregate.Calls
import MallocLab.Proofs.Segregate.Serve
import MallocLab.Proofs.Segregate.Runs
import MallocLab.Proofs.Segregate.Complete
import MallocLab.Proofs.Segregate.SlotZero
import MallocLab.Proofs.Segregate.Refused
import MallocLab.Proofs.Segregate.Forgets
import MallocLab.Proofs.Segregate.Acyclic
import MallocLab.Proofs.Segregate.Capacity
import MallocLab.Proofs.Segregate.FreeOrder
import MallocLab.Proofs.Segregate.LinkWrites
import MallocLab.Proofs.Segregate.Canonical
import MallocLab.Proofs.Segregate.GoodFit
import MallocLab.Proofs.Implicit.Search
import MallocLab.Proofs.Implicit.Place
import MallocLab.Proofs.Implicit.Calls
import MallocLab.Proofs.Implicit.Resize
import MallocLab.Proofs.Implicit.Serve
import MallocLab.Proofs.Implicit.Runs
import MallocLab.Proofs.Implicit.Coalesced
import MallocLab.Proofs.Implicit.Canonical
import MallocLab.Proofs.Implicit.Rover
import MallocLab.Proofs.Implicit.Capacity
import MallocLab.Proofs.Implicit.Declined
import MallocLab.Proofs.Implicit.EndWord
import MallocLab.Proofs.Implicit.Agree
import MallocLab.Proofs.Implicit.Refused
import MallocLab.Proofs.Implicit.Tail
import MallocLab.Proofs.Implicit.Spill
import MallocLab.Proofs.Implicit.Copies
import MallocLab.Proofs.Implicit.Strays
import MallocLab.Proofs.Capacity
import MallocLab.Proofs.Driver.Rounds
import MallocLab.Proofs.Driver.Watch
import MallocLab.Proofs.Driver.Sound
import MallocLab.Proofs.Driver.Complete
import MallocLab.Proofs.Driver.Totals
import MallocLab.Proofs.Driver.Serves
import MallocLab.Proofs.Driver.Verdict
import MallocLab.Proofs.Driver.Passes
import MallocLab.Proofs.Trace
import MallocLab.Proofs.Files
import MallocLab.Proofs.Fcyc
import MallocLab.Proofs.Driver.Program
import MallocLab.Proofs.Driver.Room
import MallocLab.Proofs.Driver.Linked
import MallocLab.Proofs.Segregate.Arrays
import MallocLab.Proofs.Segregate.Service
import MallocLab.Proofs.Segregate.Traces
import MallocLab.Proofs.Implicit.Service
import MallocLab.Proofs.Implicit.Traces
import MallocLab.Proofs.Implicit.Arrays
