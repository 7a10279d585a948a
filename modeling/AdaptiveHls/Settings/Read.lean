import AdaptiveHls.Settings.Config
import AdaptiveHls.Toml.Document

/-!
# Reading settings

Settings are a TOML document with a table for each group. What is not mentioned keeps its default,
and what is not known is passed over. A group may also be an array of its settings in order. A value
that does not fit refuses the whole document.
-/

namespace AdaptiveHls.Config

/-- How to find the settings of a group by their names. -/
def fields? (names : List String) : Toml → Option (String → Option Toml)
  | .table _ entries => some fun name => Toml.lookup name entries
  | .array items => some fun name => (names.idxOf? name).bind (items[·]?)
  | .tables items => some fun name =>
      ((names.idxOf? name).bind (items[·]?)).map (Toml.table .headed)
  | .dateTime => some fun _ => none
  | _ => none

def integer? (value : Option Toml) (default : Int) : Option Int :=
  match value with
  | none => some default
  | some (.integer n) => some n
  | some _ => none

def count? (value : Option Toml) (default : Nat) : Option Nat :=
  match value with
  | none => some default
  | some (.integer n) => if 0 ≤ n then some n.toNat else none
  | some _ => none

def trackerNames : List String :=
  ["live_start_index", "default_target_duration", "default_part_target_duration",
    "blocking_reload_timeout", "reload_failure_timeout", "min_reload_interval"]

def readTracker? (value : Toml) : Option TrackerConfig := do
  let field ← fields? trackerNames value
  let d : TrackerConfig := {}
  return {
    liveStartIndex := ← integer? (field "live_start_index") d.liveStartIndex
    defaultTarget := ← count? (field "default_target_duration") d.defaultTarget
    defaultPartTarget := ← count? (field "default_part_target_duration") d.defaultPartTarget
    blockingTimeout := ← count? (field "blocking_reload_timeout") d.blockingTimeout
    failureTimeout := ← count? (field "reload_failure_timeout") d.failureTimeout
    minReloadInterval := ← count? (field "min_reload_interval") d.minReloadInterval }

def bitrateNames : List String :=
  ["lower_switch_buffer", "upper_switch_buffer", "starvation_buffer", "full_buffer_margin",
    "trend_window", "speed_window", "history_window", "up_cooldown_after_down",
    "up_cooldown_after_up"]

def readBitrate? (value : Toml) : Option BitrateConfig := do
  let field ← fields? bitrateNames value
  let d : BitrateConfig := {}
  return {
    lowerBuffer := ← count? (field "lower_switch_buffer") d.lowerBuffer
    upperBuffer := ← count? (field "upper_switch_buffer") d.upperBuffer
    starvationBuffer := ← count? (field "starvation_buffer") d.starvationBuffer
    fullMargin := ← count? (field "full_buffer_margin") d.fullMargin
    trendWindow := ← count? (field "trend_window") d.trendWindow
    speedWindow := ← count? (field "speed_window") d.speedWindow
    historyWindow := ← count? (field "history_window") d.historyWindow
    cooldownAfterDown := ← count? (field "up_cooldown_after_down") d.cooldownAfterDown
    cooldownAfterUp := ← count? (field "up_cooldown_after_up") d.cooldownAfterUp }

def group? {α : Type} (read : Toml → Option α) (value : Option Toml) (default : α) : Option α :=
  match value with
  | none => some default
  | some v => read v

def read? (s : String) : Option Config := do
  let document ← Toml.read? s
  let field ← fields? [] document
  return {
    tracker := ← group? readTracker? (field "tracker") {}
    bitrate := ← group? readBitrate? (field "abr") {} }

end AdaptiveHls.Config
