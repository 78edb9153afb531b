import GrapheneLtp.BoolExpr.Rendering
import GrapheneLtp.Buffers.Guarded
import GrapheneLtp.Checkpoint.WakeLoop
import GrapheneLtp.Checksum.Crc32c
import GrapheneLtp.Clock.RtcRoundTrip
import GrapheneLtp.Cpuset.SchedDomains
import GrapheneLtp.Doio.Forker
import GrapheneLtp.Doio.Pattern
import GrapheneLtp.Doio.StringToTokens
import GrapheneLtp.Fsx.LogDump
import GrapheneLtp.Fuzzing.CpuTopology
import GrapheneLtp.Fuzzing.ShellOutput
import GrapheneLtp.Kconfig.Validation
import GrapheneLtp.Kconfig.VariableTable
import GrapheneLtp.Kvercmp.Comparison
import GrapheneLtp.Metadata.ArrayLength
import GrapheneLtp.Metadata.DocComments
import GrapheneLtp.Metadata.Initializer
import GrapheneLtp.Metadata.JsonOutput
import GrapheneLtp.Metadata.Normalization
import GrapheneLtp.Mounts.MountFlags
import GrapheneLtp.Net.IfacePrefix
import GrapheneLtp.Net.PrefixMask
import GrapheneLtp.Net.UnusedAddress
import GrapheneLtp.Pan.Collection
import GrapheneLtp.Pan.CommandFiles
import GrapheneLtp.Pan.RandomChoice
import GrapheneLtp.Pan.SplitString
import GrapheneLtp.Pan.ZooTags
import GrapheneLtp.RandomRange.Divider
import GrapheneLtp.RandomRange.Parsing
import GrapheneLtp.RandomRange.RandomBit
import GrapheneLtp.Rtnetlink.Growth
import GrapheneLtp.Rtnetlink.Lengths
import GrapheneLtp.Rtnetlink.Received
import GrapheneLtp.Rtnetlink.RoundTrip
import GrapheneLtp.SafeFile.ScanfConversions
import GrapheneLtp.ShellTest.Cleanup
import GrapheneLtp.ShellTest.TestData
import GrapheneLtp.Statistics.Container
import GrapheneLtp.Statistics.Histogram
import GrapheneLtp.Statistics.Median
import GrapheneLtp.StressNg.Results
import GrapheneLtp.SysConf.SaveRestore
import GrapheneLtp.TestLtp.ErrorOutput
import GrapheneLtp.TestLtp.MustPass
import GrapheneLtp.TestLtp.WokenUp
import GrapheneLtp.Timer.TimerVerdict
import GrapheneLtp.Timer.Timespec
import GrapheneLtp.Tlibio.StrideBounds
import GrapheneLtp.TmpDir.Removal
import GrapheneLtp.TstRes.HexDump
import GrapheneLtp.TstTest.FileSize
import GrapheneLtp.TstTest.Retry
import GrapheneLtp.TstTest.SearchDriver
import GrapheneLtp.TstTest.Watchdog
