import Xv6Hacks.BufferCache
import Xv6Hacks.BusyIndirect
import Xv6Hacks.CopyOut
import Xv6Hacks.CowRefinement
import Xv6Hacks.Directories
import Xv6Hacks.FileHoles
import Xv6Hacks.ForkFailure
import Xv6Hacks.GrowProc
import Xv6Hacks.IdeDriver
import Xv6Hacks.InodePlacement
import Xv6Hacks.KillTargets
import Xv6Hacks.LogAdmission
import Xv6Hacks.LotteryAccounting
import Xv6Hacks.Memmove
import Xv6Hacks.PageRuns
import Xv6Hacks.PathResolution
import Xv6Hacks.Pipes
import Xv6Hacks.ProcessLedger
import Xv6Hacks.ReadBounds
import Xv6Hacks.ReferenceCounting
import Xv6Hacks.ShellStrings
import Xv6Hacks.StatisticsAtBoot
import Xv6Hacks.Teardown
import Xv6Hacks.TicketSearch
import Xv6Hacks.UserHeapRuns
import Xv6Hacks.WriteTransactions
import Xv6Hacks.GrepMatch
import Xv6Hacks.MpTable
