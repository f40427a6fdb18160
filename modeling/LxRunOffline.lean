import LxRunOffline.Program
import LxRunOffline.PrefixTrie
import LxRunOffline.Units
import LxRunOffline.PrefixMatcher
import LxRunOffline.MatcherRuns
import LxRunOffline.Error
import LxRunOffline.Messages
import LxRunOffline.FilePath
import LxRunOffline.PathCode
import LxRunOffline.Components
import LxRunOffline.LinuxName
import LxRunOffline.PathRoundTrip
import LxRunOffline.DiskName
import LxRunOffline.DiskEscapes
import LxRunOffline.EntryName
import LxRunOffline.FoldedTable
import LxRunOffline.Registry
import LxRunOffline.Distro
import LxRunOffline.DistroSpec
import LxRunOffline.DistroStep
import LxRunOffline.DistroInvariant
import LxRunOffline.DistroMap
import LxRunOffline.RegisterFailure
import LxRunOffline.FileAttr
import LxRunOffline.FileSystem
import LxRunOffline.EnumDirectory
import LxRunOffline.Depth
import LxRunOffline.Writer
import LxRunOffline.WslReader
import LxRunOffline.ArchiveReader
import LxRunOffline.WriterEffects
import LxRunOffline.HardLinks
import LxRunOffline.HardLinkRuns
import LxRunOffline.Works
import LxRunOffline.Shape
import LxRunOffline.BaseDir
import LxRunOffline.CopyBelow
import LxRunOffline.MoveSafety
import LxRunOffline.Volume
import LxRunOffline.DeleteDirectory
import LxRunOffline.DeleteSafety
import LxRunOffline.DeleteWhole
import LxRunOffline.DeleteReturns
import LxRunOffline.Extents
import LxRunOffline.Contents
import LxRunOffline.LegacyLayout
import LxRunOffline.Config
import LxRunOffline.DistroRead
import LxRunOffline.Commands
import LxRunOffline.CommandReads
import LxRunOffline.Reconfigure
import LxRunOffline.CopyErrors
import LxRunOffline.RegErrors
import LxRunOffline.Rejection
import LxRunOffline.RejectedRuns
import LxRunOffline.Postponed
import LxRunOffline.DirAttr
import LxRunOffline.WriterLife
import LxRunOffline.Walk
import LxRunOffline.SourceNames
import LxRunOffline.Landing
import LxRunOffline.VisitTargets
import LxRunOffline.CopyReturns
import LxRunOffline.Grouping
import LxRunOffline.FileGroups
import LxRunOffline.ReadMode
import LxRunOffline.ParentTargets
import LxRunOffline.WalkVisits
import LxRunOffline.Parents
import LxRunOffline.Moves
import LxRunOffline.PostponedOrder
import LxRunOffline.Immediate
import LxRunOffline.EntryTexts
import LxRunOffline.VisitOrder
import LxRunOffline.TreeCalls
import LxRunOffline.TargetOrder
import LxRunOffline.DirAttrOrder
import LxRunOffline.ContentsFirst
import LxRunOffline.Adds
import LxRunOffline.MoveStores
import LxRunOffline.MoveOrder
import LxRunOffline.FileTimes
import LxRunOffline.NameLoop
import LxRunOffline.DeviceNumber
import LxRunOffline.FormatChain
import LxRunOffline.ReadRecord
import LxRunOffline.StoredEas
import LxRunOffline.LinkTargets
import LxRunOffline.TargetLoop
import LxRunOffline.Relates
import LxRunOffline.Matched
import LxRunOffline.MatchedWriters
import LxRunOffline.MatchedReader
import LxRunOffline.Unassigned
import LxRunOffline.StoredConfig
import LxRunOffline.EnvEdits
import LxRunOffline.Utf16
import LxRunOffline.SaveConfig
import LxRunOffline.Marks
import LxRunOffline.DetectVersion
import LxRunOffline.ExportArchive
import LxRunOffline.Wmain
import LxRunOffline.CommandErrors
import LxRunOffline.Reports
import LxRunOffline.ExactWalk
import LxRunOffline.LinkedStore
import LxRunOffline.DiskImage
import LxRunOffline.DistinctTargets
import LxRunOffline.NodeOwner
import LxRunOffline.CopyEffects
import LxRunOffline.Picture
import LxRunOffline.Original
import LxRunOffline.CopyImage
import LxRunOffline.VisitSteps
import LxRunOffline.ImageRuns
import LxRunOffline.Members
import LxRunOffline.ExtractImage
import LxRunOffline.ExportMembers
import LxRunOffline.ArchiveTrip
import LxRunOffline.Advances
import LxRunOffline.OwnSteps
import LxRunOffline.OwnRuns
import LxRunOffline.OwnCommands
import LxRunOffline.Creations
import LxRunOffline.CreationImages
import LxRunOffline.InstallImage
import LxRunOffline.DistroTrip
import LxRunOffline.Removals
