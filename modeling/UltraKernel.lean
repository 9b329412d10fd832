import UltraKernel.Lib.Outcome
import UltraKernel.Lib.Word
import UltraKernel.Lib.SegmentMap
import UltraKernel.Lib.Run
import UltraKernel.Lib.Positional
import UltraKernel.Lib.PairGrammar
import UltraKernel.Lib.Transducer
import UltraKernel.Lib.LinkedList
import UltraKernel.Lib.Program
import UltraKernel.Lib.RowTable
import UltraKernel.Lib.LongDivision
import UltraKernel.Lib.Leb128
import UltraKernel.Lib.CellCopy
import UltraKernel.Lib.Bisection
import UltraKernel.Lib.WordStack
import UltraKernel.Lib.Along
import UltraKernel.Lib.Comparator
import UltraKernel.Lib.TaggedRecords
import UltraKernel.Common.Numerals
import UltraKernel.Common.Classification
import UltraKernel.Common.Memory
import UltraKernel.Common.CharTypes
import UltraKernel.Common.StringSearch
import UltraKernel.BootAlloc.Interface
import UltraKernel.BootAlloc.Runs
import UltraKernel.BootAlloc.ErrorCodes
import UltraKernel.BootAlloc.Termination
import UltraKernel.BootAlloc.Arguments
import UltraKernel.BootAlloc.Coalesced
import UltraKernel.BootAlloc.Init
import UltraKernel.BootAlloc.FindRange
import UltraKernel.BootAlloc.EntryBytes
import UltraKernel.Format.Truncation
import UltraKernel.Format.Termination
import UltraKernel.Format.ReadBack
import UltraKernel.Format.Directive
import UltraKernel.Format.Layout
import UltraKernel.Format.Stars
import UltraKernel.Format.Pieces
import UltraKernel.Symbols.Kernel
import UltraKernel.Symbols.Compression
import UltraKernel.Symbols.RoundTrip
import UltraKernel.Symbols.Lookup
import UltraKernel.Symbols.Attribution
import UltraKernel.Symbols.Substitution
import UltraKernel.Symbols.Listing
import UltraKernel.Param.ReadBack
import UltraKernel.Param.Sized
import UltraKernel.Param.Truncation
import UltraKernel.Cmdline.Parsing
import UltraKernel.Cmdline.UnknownParams
import UltraKernel.Cmdline.Lexer
import UltraKernel.Cmdline.Terminator
import UltraKernel.Cmdline.Respelling
import UltraKernel.Cmdline.Checked
import UltraKernel.Console.Registry
import UltraKernel.Console.Earlycon
import UltraKernel.Unwind.Errors
import UltraKernel.Unwind.Bounds
import UltraKernel.Unwind.Rows
import UltraKernel.Unwind.SignalFrames
import UltraKernel.Unwind.Restore
import UltraKernel.Unwind.Coverage
import UltraKernel.Unwind.Leb128
import UltraKernel.Unwind.SearchTable
import UltraKernel.Unwind.SearchHeader
import UltraKernel.Unwind.CallStack
import UltraKernel.X86.Builtins
import UltraKernel.X86.PageTable
import UltraKernel.X86.Interrupts
import UltraKernel.X86.InterruptRows
import UltraKernel.X86.InterruptEntry
import UltraKernel.X86.InterruptUnwind
import UltraKernel.Log.Model
import UltraKernel.Log.Print
import UltraKernel.Log.Conversions
import UltraKernel.Log.Trace
import UltraKernel.Log.CallTrace
import UltraKernel.Log.Panic
import UltraKernel.Log.Exceptions
import UltraKernel.Boot.Context
import UltraKernel.Boot.Protocol
import UltraKernel.Boot.Entry
import UltraKernel.Boot.Messages
import UltraKernel.Boot.Parameters
import UltraKernel.Boot.Transcript
import UltraKernel.Io.Windows
