import Xv6.Guarantees.ArgumentWords
import Xv6.Guarantees.BitmapSet
import Xv6.Guarantees.BuiltImage
import Xv6.Guarantees.ChunkReservation
import Xv6.Guarantees.ConsoleOutput
import Xv6.Guarantees.CrashAtomicity
import Xv6.Guarantees.ExecAllOrNothing
import Xv6.Guarantees.ExecArguments
import Xv6.Guarantees.ExitWait
import Xv6.Guarantees.FailedReads
import Xv6.Guarantees.FlatMemory
import Xv6.Guarantees.ForkDuplicates
import Xv6.Guarantees.GrepLines
import Xv6.Guarantees.GrepMatcher
import Xv6.Guarantees.GroupCommit
import Xv6.Guarantees.KilledMarks
import Xv6.Guarantees.LineBounds
import Xv6.Guarantees.LineDiscipline
import Xv6.Guarantees.LogReservation
import Xv6.Guarantees.LostWakeup
import Xv6.Guarantees.MallocHonest
import Xv6.Guarantees.OneCpu
import Xv6.Guarantees.OnlyShellReturns
import Xv6.Guarantees.PageTableMap
import Xv6.Guarantees.PipeSleepers
import Xv6.Guarantees.PipeStream
import Xv6.Guarantees.PipelineWiring
import Xv6.Guarantees.PrintfAgree
import Xv6.Guarantees.RedirectionOrder
import Xv6.Guarantees.SbrkExact
import Xv6.Guarantees.SerialComposition
import Xv6.Guarantees.SerialOrder
import Xv6.Guarantees.SharedWrites
import Xv6.Guarantees.ShellsAgree
import Xv6.Guarantees.ShortWrites
import Xv6.Guarantees.SnapshotCopy
import Xv6.Guarantees.StatBytes
import Xv6.Guarantees.TokenStrings
import Xv6.Guarantees.TypedLines
import Xv6.Guarantees.UserCopies
import Xv6.Guarantees.WriteProtect
