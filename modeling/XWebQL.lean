import XWebQL.OptionFold
import XWebQL.FrontFill
import XWebQL.FloatFormat
import XWebQL.FortranArray
import XWebQL.OptimalSegmentation
import XWebQL.SentinelSegmentation
import XWebQL.ForkJoin
import XWebQL.Quicksort
import XWebQL.QuicksortTasks
import XWebQL.QuicksortIntegers
import XWebQL.RunLength
import XWebQL.CountBetweenEdges
import XWebQL.ConquerBinning
import XWebQL.DistinctCounts
import XWebQL.DivideBinning
import XWebQL.DivideTasks
import XWebQL.BayesianBinning
import XWebQL.HistogramDensity
import XWebQL.BinningAgreement
import XWebQL.FloatValues
import XWebQL.SingleBinning
import XWebQL.SingleCounts
import XWebQL.SingleBounds
import XWebQL.InBounds
import XWebQL.FitnessSentinel
import XWebQL.ReferenceBinning
import XWebQL.UnitGrid
import XWebQL.EventSelection
import XWebQL.Registration
import XWebQL.VideoBands
import XWebQL.WorldCoordinates
import XWebQL.JsString
import XWebQL.Utf8
import XWebQL.MaskCodec
import XWebQL.DataView
import XWebQL.ImageResponse
import XWebQL.Transition
import XWebQL.HeapProgram
import XWebQL.RowAlignment
import XWebQL.DatasetStore
import XWebQL.DatasetIdentity
import XWebQL.ConcurrentRequests
import XWebQL.GarbageCollector
import XWebQL.LoadEvents
import XWebQL.VideoSession
import XWebQL.VideoHandles
import XWebQL.VideoEnd
import XWebQL.VideoPlanes
import XWebQL.VideoSizes
import XWebQL.VideoQueue
import XWebQL.VideoWorker
import XWebQL.AsciiText
import XWebQL.DocumentPath
import XWebQL.SingleFloat
import XWebQL.FitsTable
import XWebQL.BinaryTable
import XWebQL.SxsReader
import XWebQL.SxsHeader
import XWebQL.SxsEvents
import XWebQL.SxsLines
import XWebQL.SxsSafety
import XWebQL.EventPlaces
import XWebQL.SxsColumns
import XWebQL.SxsAddresses
import XWebQL.Colourmap
import XWebQL.ColourTables
import XWebQL.ZigReader
import XWebQL.ZigCards
import XWebQL.ZigStrings
import XWebQL.ColumnSizes
import XWebQL.ZigHeader
import XWebQL.ZigTableHeader
import XWebQL.ZigThreads
import XWebQL.ZigSchedules
import XWebQL.ZigEvents
import XWebQL.ZigLines
import XWebQL.ZigColumns
import XWebQL.ReaderAgreement
import XWebQL.ImageScale
import XWebQL.CircleSpectrum
import XWebQL.BoundingBox
import XWebQL.LinearKalman
import XWebQL.KalmanTracking
import XWebQL.BitStream
import XWebQL.JsNumber
import XWebQL.BucketSort
import XWebQL.BurrowsWheeler
import XWebQL.PrefixCode
import XWebQL.MoveToFront
import XWebQL.Bzip2Reader
import XWebQL.Bzip2Decoder
import XWebQL.Bzip2Tables
import XWebQL.Bzip2Symbols
import XWebQL.Bzip2Rotations
import XWebQL.Bzip2Fields
import XWebQL.Bzip2Safety
import XWebQL.Bzip2Archive
import XWebQL.Bzip2Compressor
import XWebQL.LiveMessages
import XWebQL.LiveSession
import XWebQL.LiveOrder
import XWebQL.LiveAnswers
import XWebQL.LinearTriangle
import XWebQL.DigitalLine
import XWebQL.LineDrawing
import XWebQL.Conrec
import XWebQL.ContourFloats
import XWebQL.ContourMap
