import NyaZygisk.FlagReads
import NyaZygisk.FlagHistory
import NyaZygisk.ModuleIndex
import NyaZygisk.ModuleRefresh
import NyaZygisk.EarlyInjection
import NyaZygisk.TraceTarget
import NyaZygisk.LateInjection
import NyaZygisk.RelocTargets
import NyaZygisk.SymbolCount
import NyaZygisk.SegmentAlignment
import NyaZygisk.ProgramHeaders
import NyaZygisk.Protections
import NyaZygisk.ExcludeReload
import NyaZygisk.MountPass
import NyaZygisk.ZnStateFile
import NyaZygisk.TimedReads
import NyaZygisk.InitTracing
import NyaZygisk.CandidatePool
import NyaZygisk.CrashLoop
import NyaZygisk.DaemonStatus
import NyaZygisk.ControlDatagrams
import NyaZygisk.PropRewriting
import NyaZygisk.AtexitArray
import NyaZygisk.JniHooks
import NyaZygisk.PltHooks
import NyaZygisk.Interpose
import NyaZygisk.SymbolResolvers
import NyaZygisk.ShownExclusions
import NyaZygisk.ConfigLines
import NyaZygisk.SpoofProps
import NyaZygisk.Seccomp
import NyaZygisk.ZnPlan
import NyaZygisk.Descriptors
import NyaZygisk.CfiShadow
import NyaZygisk.AnonymousRanges
import NyaZygisk.ElfReads
import NyaZygisk.DropSoPath
import NyaZygisk.TrackedFds
import NyaZygisk.FossilRoundTrip
import NyaZygisk.TracerField
