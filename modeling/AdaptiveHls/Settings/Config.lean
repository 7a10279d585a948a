/-!
# Settings

What can be tuned about following a playlist and about choosing bitrates. Times are in
milliseconds.
-/

namespace AdaptiveHls

structure TrackerConfig where
  /-- Where playback of a live playlist starts, in segments behind the last one; negative values
  count from one past it. -/
  liveStartIndex : Int := -3
  /-- The time between reloads of a playlist that states no target duration. -/
  defaultTarget : Nat := 10000
  /-- The time between reloads if that is zero. -/
  defaultPartTarget : Nat := 1000
  /-- How long the server may hold a request. -/
  blockingTimeout : Nat := 30000
  /-- After how long reloads that keep failing count as stalled. -/
  failureTimeout : Nat := 15000
  minReloadInterval : Nat := 500
  deriving DecidableEq, Repr

structure BitrateConfig where
  /-- Below this much buffered media a falling trend switches down. -/
  lowerBuffer : Nat := 15000
  /-- From this much on a rising trend switches up. -/
  upperBuffer : Nat := 30000
  /-- Down to this much a switch down needs no trend. -/
  starvationBuffer : Nat := 100
  /-- The buffer is full when it is this near to its maximum. -/
  fullMargin : Nat := 1000
  trendWindow : Nat := 10
  speedWindow : Nat := 30
  historyWindow : Nat := 3
  cooldownAfterDown : Nat := 60000
  cooldownAfterUp : Nat := 9000
  deriving DecidableEq, Repr

structure Config where
  tracker : TrackerConfig := {}
  bitrate : BitrateConfig := {}
  deriving DecidableEq, Repr

end AdaptiveHls
