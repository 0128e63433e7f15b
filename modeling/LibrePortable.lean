import LibrePortable.Lib.Prog
import LibrePortable.Lib.Hoare
import LibrePortable.Lib.Transition
import LibrePortable.Lib.Threads
import LibrePortable.Lib.SafeWalk
import LibrePortable.Lib.Lines
import LibrePortable.Lib.Regex
import LibrePortable.Lib.Words
import LibrePortable.Win.Calls
import LibrePortable.Win.Posix
import LibrePortable.Win.Shims
import LibrePortable.Win.Tables
import LibrePortable.Win.Poll
import LibrePortable.Win.PollSetup
import LibrePortable.Win.PollWait
import LibrePortable.Win.PollResults
import LibrePortable.Win.PollReturns
import LibrePortable.Win.PollRuns
import LibrePortable.Win.PollAlign
import LibrePortable.Win.PollBits
import LibrePortable.Win.PollReady
import LibrePortable.Win.PollTrust
import LibrePortable.Win.PollInts
import LibrePortable.Win.Consumers
import LibrePortable.Win.Dirent
import LibrePortable.Win.DirentOwn
import LibrePortable.Win.DirentRuns
import LibrePortable.Win.Position
import LibrePortable.Sync.Mutex
import LibrePortable.Sync.MutexPoints
import LibrePortable.Sync.MutexProof
import LibrePortable.Sync.MutexSafety
import LibrePortable.Sync.MutexLife
import LibrePortable.Sync.Once
import LibrePortable.Sync.AddLock
import LibrePortable.Sync.Alarm
import LibrePortable.Sync.AlarmRuns
import LibrePortable.Sock.Sentinels
import LibrePortable.Sock.SentinelsLeak
import LibrePortable.Sock.Socketpair
import LibrePortable.Sock.SocketpairProof
import LibrePortable.Sock.Ledger
import LibrePortable.Sock.Ends
import LibrePortable.Sock.EndsProof
import LibrePortable.Sock.SockInit
import LibrePortable.Stdio.Getdelim
import LibrePortable.Stdio.GetdelimProof
import LibrePortable.Stdio.GetdelimSafety
import LibrePortable.Stdio.Mkstemp
import LibrePortable.Stdio.Fgets
import LibrePortable.Stdio.Asprintf
import LibrePortable.Lib.Cycle
import LibrePortable.Getopt.Permute
import LibrePortable.Getopt.Getopt
import LibrePortable.Getopt.Reference
import LibrePortable.Getopt.Outcome
import LibrePortable.Getopt.Option
import LibrePortable.Getopt.Scan
import LibrePortable.Getopt.Order
import LibrePortable.Getopt.Turn
import LibrePortable.Getopt.Plays
import LibrePortable.Getopt.Posix
import LibrePortable.Getopt.Rescan
import LibrePortable.Getopt.Dash
import LibrePortable.Getopt.Resolve
import LibrePortable.Getopt.Swaps
import LibrePortable.Getopt.Safety
import LibrePortable.Getopt.Progress
import LibrePortable.Getopt.Allargs
import LibrePortable.Getopt.Reset
import LibrePortable.Nc.Readpassphrase
import LibrePortable.Nc.ReadpassphraseProof
import LibrePortable.Nc.Descriptors
import LibrePortable.Build.CMake
import LibrePortable.Build.FindLibreSSL
import LibrePortable.Build.FindLibreSSLProof
import LibrePortable.Build.ExportList
import LibrePortable.Win.Console
import LibrePortable.Win.ConsoleLock
import LibrePortable.Win.ConsoleLines
import LibrePortable.Win.ConsoleEcho
import LibrePortable.Lib.RedBlack
import LibrePortable.Lib.Compare
import LibrePortable.Lib.Fuel
import LibrePortable.Lib.Holdings
import LibrePortable.Lib.Splay
import LibrePortable.Lib.SplayCost
import LibrePortable.Lib.Metered
import LibrePortable.Sys.Tree
import LibrePortable.Sys.TreeFuel
import LibrePortable.Sys.TreeView
import LibrePortable.Sys.TreeColor
import LibrePortable.Sys.TreeRemove
import LibrePortable.Sys.TreeSearch
import LibrePortable.Sys.TreeWalk
import LibrePortable.Sys.TreeRuns
import LibrePortable.Sys.TreeSound
import LibrePortable.Sys.Splay
import LibrePortable.Sys.SplayView
import LibrePortable.Sys.SplayLoop
import LibrePortable.Sys.SplayOps
import LibrePortable.Sys.SplayRuns
import LibrePortable.Sys.TailQueue
import LibrePortable.Sys.TailQueueProof
import LibrePortable.Sys.TailQueueRuns
import LibrePortable.Sys.Lists
import LibrePortable.Sys.ListsProof
import LibrePortable.Sys.ListsRuns
import LibrePortable.Sys.XorQueue
import LibrePortable.Sys.XorQueueProof
import LibrePortable.Sys.XorQueueRuns
import LibrePortable.Sys.SafeForeach
import LibrePortable.Sys.Endian
