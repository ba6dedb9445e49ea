import NosqlFS.Interaction.Program
import NosqlFS.Interaction.Execution
import NosqlFS.Interaction.Environment
import NosqlFS.Interaction.Termination
import NosqlFS.Interaction.Offering
import NosqlFS.Interaction.Obligation
import NosqlFS.Interaction.Pool
import NosqlFS.Interaction.SharedBuffer
import NosqlFS.Interaction.Slots
import NosqlFS.Text.Printf
import NosqlFS.Text.Memory
import NosqlFS.Text.Records
import NosqlFS.Paths.Space
import NosqlFS.Host.Types
import NosqlFS.Host.Calls
import NosqlFS.Source.Log
import NosqlFS.Source.Handlers
import NosqlFS.Source.Main
import NosqlFS.Runs.Outcomes
import NosqlFS.Runs.Logging
import NosqlFS.Runs.Files
import NosqlFS.Runs.Calls
import NosqlFS.Errors.SingleCall
import NosqlFS.Errors.Open
import NosqlFS.Errors.Transfer
import NosqlFS.Names.Namespace
import NosqlFS.Errors.Mknod
import NosqlFS.Names.Rename
import NosqlFS.Stateless.Files
import NosqlFS.Stateless.Handles
import NosqlFS.Confinement.Root
import NosqlFS.Concurrency.Descriptors
import NosqlFS.Concurrency.LogRecords
import NosqlFS.Log.Framing
import NosqlFS.Log.DayName
import NosqlFS.Listing.Stream
import NosqlFS.Listing.Readdir
import NosqlFS.Links.Readlink
import NosqlFS.Interaction.LinearHash
import NosqlFS.Interaction.LockWord
import NosqlFS.Interaction.Paging
import NosqlFS.Libfuse.Nodes
import NosqlFS.Libfuse.Tree
import NosqlFS.Libfuse.References
import NosqlFS.Libfuse.Numbers
import NosqlFS.Libfuse.Naming
import NosqlFS.Libfuse.Operations
import NosqlFS.Libfuse.Renaming
import NosqlFS.Libfuse.Lookups
import NosqlFS.Libfuse.Paths
import NosqlFS.Libfuse.PathBuffer
import NosqlFS.Libfuse.Walks
import NosqlFS.Libfuse.Locking
import NosqlFS.Libfuse.Session
import NosqlFS.Libfuse.Protocol
import NosqlFS.Libfuse.Interleavings
import NosqlFS.Libfuse.Guarantees
import NosqlFS.Libfuse.Direntries
import NosqlFS.Libfuse.Directories
import NosqlFS.Libfuse.Filling
import NosqlFS.Libfuse.Replies
import NosqlFS.Libfuse.Listings
import NosqlFS.Libfuse.Delivery
import NosqlFS.Libfuse.FileLocks
import NosqlFS.Libfuse.Buffers
