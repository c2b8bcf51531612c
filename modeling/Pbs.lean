import Pbs.Lib.Walks
import Pbs.Lib.StableSort
import Pbs.Lib.LinkedList
import Pbs.Lib.TreeLinks
import Pbs.Lib.MakeSyntax
import Pbs.Lib.MakeText
import Pbs.Lib.Schedule
import Pbs.Lib.MakeRun
import Pbs.Lib.FileSystem
import Pbs.Lib.CNumber
import Pbs.Lib.Regex
import Pbs.Lib.Awk
import Pbs.Lib.Descent
import Pbs.Lib.Spine
import Pbs.Lib.StateSpec
import Pbs.Lib.CInteger
import Pbs.Lib.CLines
import Pbs.Kconfig.Symbol
import Pbs.Kconfig.Menu
import Pbs.Kconfig.ExprRewrite
import Pbs.Kconfig.ExprMeaning
import Pbs.Kconfig.ExprDups
import Pbs.Kconfig.MenuFold
import Pbs.Kconfig.MenuFinalize
import Pbs.Kconfig.SymCheck
import Pbs.Kconfig.MenuTree
import Pbs.Kconfig.MenuWalk
import Pbs.Kconfig.Source
import Pbs.Kconfig.GlobSource
import Pbs.Kconfig.ConfigM4
import Pbs.Kconfig.ConfigValues
import Pbs.Kconfig.SymCalc
import Pbs.Kconfig.SymValue
import Pbs.Kconfig.SymSolve
import Pbs.Kconfig.SymRun
import Pbs.Kconfig.SymUnique
import Pbs.Kconfig.SymFacts
import Pbs.Kconfig.SymUser
import Pbs.Kconfig.SymSession
import Pbs.Kconfig.SymRequests
import Pbs.Kconfig.SymDefault
import Pbs.Kconfig.SymFlags
import Pbs.Kconfig.ConfigWrite
import Pbs.Kconfig.ConfigRead
import Pbs.Kconfig.ConfigReload
import Pbs.Kconfig.ConfigRoundTrip
import Pbs.Kconfig.ConfigNew
import Pbs.Deps.Package
import Pbs.Deps.BuildDeps
import Pbs.Deps.ResolveDeps
import Pbs.Deps.Writers
import Pbs.Deps.ListSort
import Pbs.Deps.Closure
import Pbs.Deps.Order
import Pbs.Deps.Counting
import Pbs.Deps.Platforms
import Pbs.Deps.Duplicates
import Pbs.Deps.Selects
import Pbs.Deps.Evaluation
import Pbs.Deps.Transparency
import Pbs.Deps.Accepted
import Pbs.Deps.Makefile
import Pbs.Build.Incremental
import Pbs.Build.Stages
import Pbs.Download.Lock
import Pbs.Download.Urls
import Pbs.Download.Checksums
import Pbs.Rootfs.Extract
import Pbs.MacSerial.ParseMask
import Pbs.MacSerial.ListNotation
import Pbs.MacSerial.Serial
import Pbs.Watch.Script
import Pbs.Watch.FailedScan
import Pbs.Watch.AllVersions
