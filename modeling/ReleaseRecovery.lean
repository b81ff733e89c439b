import ReleaseRecovery.Apply
import ReleaseRecovery.CommandLine
import ReleaseRecovery.CrossReference
import ReleaseRecovery.Failure
import ReleaseRecovery.Files
import ReleaseRecovery.Files.Path
import ReleaseRecovery.Git.Commit
import ReleaseRecovery.Git.Id
import ReleaseRecovery.Git.Log
import ReleaseRecovery.Git.Loose
import ReleaseRecovery.Git.Object
import ReleaseRecovery.Git.RefName
import ReleaseRecovery.Git.Signature
import ReleaseRecovery.Git.Store
import ReleaseRecovery.Git.Store.Directory
import ReleaseRecovery.Git.Store.Refs
import ReleaseRecovery.Git.Tree
import ReleaseRecovery.Git.Workspace
import ReleaseRecovery.Git.Zlib
import ReleaseRecovery.Heap
import ReleaseRecovery.History
import ReleaseRecovery.Index
import ReleaseRecovery.Index.Filling
import ReleaseRecovery.Index.Format
import ReleaseRecovery.Install
import ReleaseRecovery.Install.Search
import ReleaseRecovery.Instant
import ReleaseRecovery.Json.Decode
import ReleaseRecovery.Json.Number
import ReleaseRecovery.Json.Problem
import ReleaseRecovery.Json.Reader
import ReleaseRecovery.Json.Text
import ReleaseRecovery.Json.Value
import ReleaseRecovery.Main
import ReleaseRecovery.Plan
import ReleaseRecovery.Plan.Format
import ReleaseRecovery.Program
import ReleaseRecovery.Proofs.Ancestry
import ReleaseRecovery.Proofs.Applying
import ReleaseRecovery.Proofs.AscendingPlans
import ReleaseRecovery.Proofs.Bookkeeping
import ReleaseRecovery.Proofs.Calculations
import ReleaseRecovery.Proofs.Collapse
import ReleaseRecovery.Proofs.Completion
import ReleaseRecovery.Proofs.Copies
import ReleaseRecovery.Proofs.CopyNames
import ReleaseRecovery.Proofs.Endpoints
import ReleaseRecovery.Proofs.ExistingRefs
import ReleaseRecovery.Proofs.Exploration
import ReleaseRecovery.Proofs.Files
import ReleaseRecovery.Proofs.FilledGaps
import ReleaseRecovery.Proofs.Filling
import ReleaseRecovery.Proofs.FreshTags
import ReleaseRecovery.Proofs.GitGrowth
import ReleaseRecovery.Proofs.GitInstalls
import ReleaseRecovery.Proofs.GitNames
import ReleaseRecovery.Proofs.GitResumption
import ReleaseRecovery.Proofs.GitWriting
import ReleaseRecovery.Proofs.Heaps
import ReleaseRecovery.Proofs.Incremental
import ReleaseRecovery.Proofs.IndexText
import ReleaseRecovery.Proofs.Indexing
import ReleaseRecovery.Proofs.JsonRendering
import ReleaseRecovery.Proofs.JsonText
import ReleaseRecovery.Proofs.KeyedContents
import ReleaseRecovery.Proofs.LegacyChain
import ReleaseRecovery.Proofs.LineGrowth
import ReleaseRecovery.Proofs.ListedRefs
import ReleaseRecovery.Proofs.MissingRecords
import ReleaseRecovery.Proofs.Numerals
import ReleaseRecovery.Proofs.OtherMarkers
import ReleaseRecovery.Proofs.Placing
import ReleaseRecovery.Proofs.PlainAnswers
import ReleaseRecovery.Proofs.PlanText
import ReleaseRecovery.Proofs.Planning
import ReleaseRecovery.Proofs.Readings
import ReleaseRecovery.Proofs.Records
import ReleaseRecovery.Proofs.ReferenceLine
import ReleaseRecovery.Proofs.Refusals
import ReleaseRecovery.Proofs.ReleaseNames
import ReleaseRecovery.Proofs.Renaming
import ReleaseRecovery.Proofs.Repeating
import ReleaseRecovery.Proofs.Reporting
import ReleaseRecovery.Proofs.Rerunning
import ReleaseRecovery.Proofs.Resolution
import ReleaseRecovery.Proofs.Resumption
import ReleaseRecovery.Proofs.Rounds
import ReleaseRecovery.Proofs.Runs
import ReleaseRecovery.Proofs.Scans
import ReleaseRecovery.Proofs.Search
import ReleaseRecovery.Proofs.SeparateInstalls
import ReleaseRecovery.Proofs.ShallowestInstalls
import ReleaseRecovery.Proofs.SharedKeys
import ReleaseRecovery.Proofs.ShortSnapshots
import ReleaseRecovery.Proofs.ShortTexts
import ReleaseRecovery.Proofs.Snapshots
import ReleaseRecovery.Proofs.Soundness
import ReleaseRecovery.Proofs.StoppedFilling
import ReleaseRecovery.Proofs.StoppedSaves
import ReleaseRecovery.Proofs.Stopping
import ReleaseRecovery.Proofs.Subhistories
import ReleaseRecovery.Proofs.Tags
import ReleaseRecovery.Proofs.TemporaryNames
import ReleaseRecovery.Proofs.TidyDirectories
import ReleaseRecovery.Proofs.Truncation
import ReleaseRecovery.Proofs.Untouched
import ReleaseRecovery.Proofs.Utf8
import ReleaseRecovery.Proofs.Versions
import ReleaseRecovery.Proofs.VisitedDirectories
import ReleaseRecovery.Proofs.WriteSequence
import ReleaseRecovery.Proofs.Writings
import ReleaseRecovery.Report
import ReleaseRecovery.Repository
import ReleaseRecovery.Repository.Memory
import ReleaseRecovery.Run
import ReleaseRecovery.Settings
import ReleaseRecovery.Sha1
import ReleaseRecovery.Snapshot
import ReleaseRecovery.SortedMap
import ReleaseRecovery.Subhistory
import ReleaseRecovery.Text.Ascii
import ReleaseRecovery.Text.Decimal
import ReleaseRecovery.Text.Quoted
import ReleaseRecovery.Text.Unprintable
import ReleaseRecovery.Text.Utf8
import ReleaseRecovery.Version
