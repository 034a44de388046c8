import SysProg.Logic.StateOption
import SysProg.Logic.ByteMemory
import SysProg.Logic.LinkedNodes
import SysProg.Malloc.Program
import SysProg.Malloc.Blocks
import SysProg.Malloc.Layout
import SysProg.Malloc.Coalesce
import SysProg.Malloc.Release
import SysProg.Malloc.Allocate
import SysProg.Malloc.Operations
import SysProg.Malloc.Isolation
import SysProg.Malloc.Realloc
import SysProg.Logic.Runs
import SysProg.Malloc.Client
import SysProg.Malloc.Walks
import SysProg.Malloc.Contract
import SysProg.Proxy.Cache
import SysProg.Proxy.CacheRuns
import SysProg.Proxy.Relay
import SysProg.Proxy.Threads
import SysProg.Shell.Jobs
import SysProg.Shell.Program
import SysProg.Shell.Resume
import SysProg.Csim.Program
import SysProg.Csim.Refinement
import SysProg.Memtrace.Memlist
import SysProg.Memtrace.Tracer
import SysProg.Shell.Children
import SysProg.Shell.Forwarding
import SysProg.Shell.Interrupts
import SysProg.Shell.Reports
import SysProg.Logic.SizedRecency
import SysProg.Proxy.CacheLru
import SysProg.Proxy.Duplicates
import SysProg.Memtrace.Balance
import SysProg.Malloc.Equivalence
import SysProg.Malloc.Placement
import SysProg.Malloc.Slack
import SysProg.Malloc.Resizing
import SysProg.Malloc.Bounds
import SysProg.Malloc.HugeSizes
import SysProg.Ptree.Output
import SysProg.Shell.Dispatch
import SysProg.Csim.Steering
import SysProg.Csim.Uninitialised
import SysProg.Csim.Trace
import SysProg.Csim.Transcript
import SysProg.Csim.Layouts
import SysProg.Proxy.RoundTrip
import SysProg.Implicit.Program
import SysProg.Implicit.Tiling
import SysProg.Implicit.Operations
import SysProg.Implicit.Interface
import SysProg.Implicit.Client
import SysProg.Implicit.Contract
import SysProg.Proxy.ReadErrors
import SysProg.Logic.Scanning
import SysProg.Proxy.Request
import SysProg.Proxy.Url
import SysProg.Proxy.Headers
import SysProg.Proxy.Buffers
import SysProg.Memtrace.Failures
import SysProg.Memtrace.Stages
import SysProg.Malloc.Fits
import SysProg.Malloc.FreeOrder
import SysProg.Malloc.Failure
import SysProg.Csim.Decomposition
import SysProg.Csim.Inclusion
import SysProg.Csim.Conservation
import SysProg.Logic.Loops
import SysProg.Transpose.Program
import SysProg.Transpose.Correctness
import SysProg.Logic.Chains
import SysProg.Memtrace.Nodes
import SysProg.Logic.Buffers
import SysProg.Ptree.Input
import SysProg.Logic.LittleEndian
import SysProg.Paddr.Codec
import SysProg.Logic.CStrings
import SysProg.Logic.Quoting
import SysProg.Shell.Parse
import SysProg.Shell.CommandLine
import SysProg.Logic.Devices
import SysProg.Rio.Program
import SysProg.Rio.Calls
import SysProg.Rio.Streams
import SysProg.Logic.Numerals
import SysProg.Logic.Parts
import SysProg.Proxy.Service
import SysProg.Proxy.Fetching
import SysProg.Proxy.Provenance
import SysProg.Proxy.Hits
import SysProg.Mdriver.Program
import SysProg.Mdriver.Checker
import SysProg.Logic.Within
import SysProg.Malloc.Growth
import SysProg.Mdriver.Promises
import SysProg.Mdriver.Verdicts
import SysProg.Mdriver.Repeats
import SysProg.Mdriver.Main
import SysProg.Logic.Smallest
import SysProg.Mdriver.Fcyc
import SysProg.Malloc.Copying
import SysProg.Malloc.Listing
import SysProg.Mdriver.Versions
import SysProg.Mdriver.Tracefile
import SysProg.Mdriver.Reading
import SysProg.Mdriver.TraceTexts
import SysProg.Logic.Lines
import SysProg.Shell.Script
import SysProg.Transpose.Tracegen
import SysProg.Transpose.Evaluation
import SysProg.Rio.Sio
