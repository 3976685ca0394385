import ThermalPlacement.PyText
import ThermalPlacement.TextFile
import ThermalPlacement.OrderedDict
import ThermalPlacement.PairSum
import ThermalPlacement.VcdReader
import ThermalPlacement.VcdRun
import ThermalPlacement.VcdSyntax
import ThermalPlacement.HeaderForest
import ThermalPlacement.ToggleDelta
import ThermalPlacement.WaveCounts
import ThermalPlacement.Respelling
import ThermalPlacement.NonInterference
import ThermalPlacement.TokenReader
import ThermalPlacement.LineLayout
import ThermalPlacement.StableSort
import ThermalPlacement.PyDocument
import ThermalPlacement.CategoryTerms
import ThermalPlacement.FirstMatch
import ThermalPlacement.Inventory
import ThermalPlacement.Outputs
import ThermalPlacement.ReportTotals
import ThermalPlacement.HotspotInputs
import ThermalPlacement.StableBlocks
import ThermalPlacement.Buckets
import ThermalPlacement.DeclarationOrder
import ThermalPlacement.ActivityBound
import ThermalPlacement.Backtracking
import ThermalPlacement.ModuleScan
import ThermalPlacement.ModuleNames
import ThermalPlacement.MalformedLines
import ThermalPlacement.NetChange
import ThermalPlacement.MapExtension
import ThermalPlacement.ClockFilter
import ThermalPlacement.InventoryReport
import ThermalPlacement.Ways
import ThermalPlacement.TimeMarks
import ThermalPlacement.JobLimits
import ThermalPlacement.PrintedNumbers
import ThermalPlacement.ReportReading
import ThermalPlacement.Stripes
import ThermalPlacement.FloorplanTiling
import ThermalPlacement.TraceAlignment
import ThermalPlacement.HierarchyWalk
import ThermalPlacement.SignificantDigits
import ThermalPlacement.FloatText
import ThermalPlacement.RelativeError
import ThermalPlacement.Csv
import ThermalPlacement.Script
import ThermalPlacement.RoundedReports
import ThermalPlacement.PowerAccuracy
import ThermalPlacement.ActivityCsv
import ThermalPlacement.PowerTrace
import ThermalPlacement.SmokeFlow
import ThermalPlacement.TruncatedDump
import ThermalPlacement.Recording
import ThermalPlacement.SourcedEnvironment
import ThermalPlacement.RtlGeneration
