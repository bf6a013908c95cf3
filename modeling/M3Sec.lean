import M3Sec.Library.Fallible
import M3Sec.Library.Runs
import M3Sec.Basic
import M3Sec.Sqlite.Database
import M3Sec.Sqlite.Query
import M3Sec.Library.Joins
import M3Sec.Sqlite.Resolution
import M3Sec.Sqlite.Connection
import M3Sec.Library.Directories
import M3Sec.Vfs.Builder
import M3Sec.Vfs.Mounted
import M3Sec.Vfs.Views
import M3Sec.Library.Scripts
import M3Sec.Berkeley.Store
import M3Sec.Berkeley.Commands
import M3Sec.Berkeley.Calls
import M3Sec.Berkeley.Lockstep
import M3Sec.Berkeley.Mirror
import M3Sec.Berkeley.Integrity
import M3Sec.Berkeley.Handles
import M3Sec.Berkeley.AllOrNothing
import M3Sec.Afsfuse.Paths
import M3Sec.Library.Memory
import M3Sec.Afsfuse.Requests
import M3Sec.Afsfuse.Server
import M3Sec.Afsfuse.Mediation
import M3Sec.Afsfuse.Client
import M3Sec.Library.Locks
import M3Sec.Afsfuse.Exclusion
import M3Sec.Afsfuse.CallLife
import M3Sec.Afsfuse.Receiving
import M3Sec.Afsfuse.Remote
import M3Sec.Afsfuse.Listing
import M3Sec.Afsfuse.OpenFiles
import M3Sec.Afsfuse.Links
import M3Sec.Afsfuse.Reading
import M3Sec.Afsfuse.Writing
import M3Sec.Afsfuse.ErrorCodes
import M3Sec.Sqlite.RowOrder
import M3Sec.Sqlite.Fidelity
import M3Sec.Vfs.Lookup
import M3Sec.Berkeley.Encoding
import M3Sec.Berkeley.Menu
import M3Sec.TestFs.Reading
import M3Sec.Afsfuse.Widths
import M3Sec.Afsfuse.Scanning
import M3Sec.Library.CStrings
import M3Sec.Afsfuse.PathBuffers
import M3Sec.Afsfuse.Assembly
import M3Sec.Afsfuse.Bulk
import M3Sec.TestFs.Bounds
import M3Sec.Library.SecondaryIndexes
import M3Sec.Library.Delimiters
import M3Sec.Library.LittleEndian
import M3Sec.TripleDb.Inventory
import M3Sec.TripleDb.Loading
import M3Sec.Library.FixedFields
import M3Sec.TripleDb.Vendors
import M3Sec.TripleDb.Showing
import M3Sec.TripleDb.Loaded
import M3Sec.Hip.Echo
import M3Sec.Berkeley.Access
import M3Sec.Afsfuse.Connection
import M3Sec.Afsfuse.Sessions
import M3Sec.Vfs.Trees
import M3Sec.Sqlite.Sibfs
import M3Sec.Library.Renamings
import M3Sec.Vfs.Remounting
import M3Sec.Berkeley.Mounts
import M3Sec.Berkeley.Testfs
import M3Sec.Afsfuse.Interleavings
import M3Sec.TestFs.Tree
