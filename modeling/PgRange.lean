import PgRange.Math.Binary
import PgRange.Math.BinarySearch
import PgRange.Math.Bytes
import PgRange.Math.CFloat
import PgRange.Math.CInt
import PgRange.Math.Cut
import PgRange.Math.EquiDepth
import PgRange.Math.FirstRun
import PgRange.Math.FloatQ
import PgRange.Math.Join
import PgRange.Math.KeyVector
import PgRange.Math.LexLeast
import PgRange.Math.Loop
import PgRange.Math.Offsets
import PgRange.Math.PiecewiseLinear
import PgRange.Math.RoutedTree
import PgRange.Math.SearchTree
import PgRange.Math.SortBy
import PgRange.Math.Staircase
import PgRange.Math.Sweep
import PgRange.Math.Tiling
import PgRange.Range.Basic
import PgRange.Range.Construct
import PgRange.Range.Operators
import PgRange.Range.WellFormed
import PgRange.Range.Canonical
import PgRange.Range.Hash
import PgRange.Range.Parse
import PgRange.Range.Deparse
import PgRange.Range.InOut
import PgRange.Range.SetOps
import PgRange.Range.Obtainable
import PgRange.Range.Elements
import PgRange.Range.IntSets
import PgRange.Range.SetMeaning
import PgRange.Range.UnionMerge
import PgRange.Range.Int4Normal
import PgRange.Range.Datum
import PgRange.Range.Layout
import PgRange.Gist.Consistent
import PgRange.Gist.Union
import PgRange.Gist.Split
import PgRange.Gist.DoubleSort
import PgRange.Gist.PickSplit
import PgRange.Gist.Penalty
import PgRange.Gist.Columns
import PgRange.Gist.Choose
import PgRange.Gist.SplitByKey
import PgRange.Gist.PageSplit
import PgRange.Gist.PlaceToPage
import PgRange.Gist.Insertion
import PgRange.Gist.IndexScan
import PgRange.Gist.RangeIndex
import PgRange.Spgist.Quad
import PgRange.Spgist.Insert
import PgRange.Spgist.Consistent
import PgRange.Spgist.Scan
import PgRange.Stats.Grid
import PgRange.Stats.CountFrequencies
import PgRange.Stats.ComputeRangeStats
import PgRange.Stats.FrequencyCall
import PgRange.Stats.Frequencies
import PgRange.Stats.Addresses
import PgRange.Stats.IntColumn
import PgRange.Stats.Exactness
import PgRange.Stats.Reads
import PgRange.Stats.Translation
import PgRange.Stats.RowOrder
import PgRange.Stats.DownSample
import PgRange.Selectivity.CalcRangesel
import PgRange.Selectivity.Restriction
import PgRange.Selectivity.Commute
import PgRange.Selectivity.OverlapBuckets
import PgRange.Selectivity.Share
import PgRange.Selectivity.RestEstimate
import PgRange.Selectivity.InfiniteConstant
import PgRange.Selectivity.Join
import PgRange.Selectivity.Merge
import PgRange.Selectivity.Trim
import PgRange.Selectivity.IntWidth
import PgRange.Selectivity.Release
import PgRange.Selectivity.HistSelectivity
import PgRange.Selectivity.HistScalar
import PgRange.Selectivity.HistOperators
import PgRange.Selectivity.LengthHist
import PgRange.Selectivity.HistSearch
import PgRange.Selectivity.Containment
import PgRange.Selectivity.LengthAverage
import PgRange.Selectivity.BoundsHistogram
