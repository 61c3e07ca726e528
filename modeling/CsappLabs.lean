import CsappLabs.Lib.Transition
import CsappLabs.Lib.Tiling
import CsappLabs.Malloc.Allocator
import CsappLabs.Malloc.BlockList
import CsappLabs.Malloc.Representation
import CsappLabs.Malloc.Coalesce
import CsappLabs.Malloc.Exhausted
import CsappLabs.Cache.Decode
import CsappLabs.Cache.Modify
import CsappLabs.Cache.Victim
import CsappLabs.Shell.JobIds
import CsappLabs.Shell.MissingJob
import CsappLabs.Shell.Slots
import CsappLabs.Shell.Foreground
import CsappLabs.Proxy.Sbuf
import CsappLabs.Proxy.Worker
import CsappLabs.Recitation.Harmless
import CsappLabs.Lib.TreePath
import CsappLabs.Lib.SortedMap
import CsappLabs.Lib.SearchTree
import CsappLabs.Splay.Refinement
import CsappLabs.Malloc.RequestSize
import CsappLabs.Malloc.Checker
import CsappLabs.Lib.LinkedList
import CsappLabs.Driver.Overlap
import CsappLabs.Driver.FlatMemory
import CsappLabs.Lib.Loop
import CsappLabs.Cache.Transpose
import CsappLabs.Cache.TiledTranspose
import CsappLabs.Shell.Bgfg
import CsappLabs.Lib.Quoting
import CsappLabs.Lib.CharBuffer
import CsappLabs.Shell.Parseline
import CsappLabs.Shell.CommandLine
import CsappLabs.Lib.Decimal
import CsappLabs.Proxy.Uri
import CsappLabs.Proxy.Formatting
import CsappLabs.Lib.WrapCounter
import CsappLabs.Proxy.Counters
import CsappLabs.Lib.BinaryFloat
import CsappLabs.Datalab.Single
import CsappLabs.Datalab.FloatScale2
import CsappLabs.Datalab.FloatFloat2Int
import CsappLabs.Datalab.FloatPower2
import CsappLabs.Lib.BitWidth
import CsappLabs.Datalab.HowManyBits
import CsappLabs.Recitation.Calloc
import CsappLabs.Lib.Interval
import CsappLabs.Mdriver.Ranges
import CsappLabs.Mdriver.EvalMmValid
import CsappLabs.Mdriver.Client
import CsappLabs.Mdriver.NoFalseAlarm
import CsappLabs.Splay.Amortized
import CsappLabs.Cache.Competitive
import CsappLabs.Mdriver.MmClient
import CsappLabs.Mdriver.EvalMmUtil
import CsappLabs.Proxy.Session
import CsappLabs.Tiny.Chain
import CsappLabs.Shell.Terminal
import CsappLabs.Datalab.Integers
