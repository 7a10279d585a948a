import AdaptiveHls.Bitrate.Selector
import AdaptiveHls.Main
import AdaptiveHls.Proofs.Bitrate.Cooldown
import AdaptiveHls.Proofs.Session.FailedLoad
import AdaptiveHls.Proofs.Session.Freshness
import AdaptiveHls.Proofs.Session.Pace
import AdaptiveHls.Proofs.Session.Refresh
import AdaptiveHls.Proofs.Session.Snapshots
import AdaptiveHls.Proofs.Timeline.DeltaUpdate
import AdaptiveHls.Proofs.Timeline.Numbers
import AdaptiveHls.Proofs.Url.FormText
import AdaptiveHls.Proofs.Bitrate.Ascent
import AdaptiveHls.Proofs.Timeline.Ended
import AdaptiveHls.Proofs.Playlist.Ignored
import AdaptiveHls.Proofs.Playlist.Sets
import AdaptiveHls.Proofs.Bitrate.Flight
import AdaptiveHls.Proofs.Bitrate.StartingOver
import AdaptiveHls.Proofs.Timeline.Gap
import AdaptiveHls.Proofs.Playlist.Choice
import AdaptiveHls.Proofs.Session.LiveEdge
import AdaptiveHls.Proofs.Session.Remaining
import AdaptiveHls.Proofs.Tracker.Window
import AdaptiveHls.Proofs.Session.FailureClock
import AdaptiveHls.Proofs.Session.Hints
import AdaptiveHls.Proofs.Session.Peek
import AdaptiveHls.Proofs.Timeline.Ranges
import AdaptiveHls.Proofs.Timeline.KeySets
import AdaptiveHls.Proofs.Timeline.Lifetimes
import AdaptiveHls.Proofs.Playlist.Origins
import AdaptiveHls.Proofs.Playlist.Rearranged
import AdaptiveHls.Proofs.Timeline.Covering
import AdaptiveHls.Proofs.Tracker.LiveStart
import AdaptiveHls.Proofs.Bitrate.Speeds
import AdaptiveHls.Proofs.Bitrate.Targets
import AdaptiveHls.Proofs.Bitrate.Reports
import AdaptiveHls.Proofs.Bitrate.Thresholds
import AdaptiveHls.Proofs.Playlist.AttributeLists
import AdaptiveHls.Proofs.Timeline.Vectors
import AdaptiveHls.Proofs.Text.Lines
import AdaptiveHls.Proofs.Timeline.Tiling
