import AdaptiveHls.Bitrate.Window
import AdaptiveHls.Number.Bounds
import AdaptiveHls.Settings.Config

/-!
# Choosing bitrates by the buffer

A selector is told now and then how playback stands. It keeps whether the buffer rose or fell as
samples of one and minus one, and the download speeds next to them. A buffer that runs low with a
falling trend, or that is all but empty, makes it ask for a lower bitrate, and a full one with a
rising trend for a higher one; how far it goes depends on the speeds. After asking it waits until
the owner confirms the bitrate that is played now. After a switch down it is slow to go up again.

What the owner is to be told is the list of events that an operation gives beside the new state.
Sums and bounds are worked out in 32 or 64 bits; where one of them overflows the call breaks off, and
what it has changed by then stays. Times are in milliseconds.
-/

namespace AdaptiveHls

inductive SwitchStatus where
  | idle
  /-- A switch was asked for and has not been confirmed. -/
  | switching
  | lowestAlready
  | highestAlready
  deriving DecidableEq, Repr

/-- How playback stands. Speeds are in bits a second. -/
structure Playback where
  buffer : Nat := 0
  maxBuffer : Nat := 0
  rebuffering : Bool := false
  connected : Bool := false
  remaining : Nat := 0
  speed : Nat := 0
  completed : Bool := false
  deriving DecidableEq, Repr

structure Stream where
  bitrate : Nat
  index : Int
  deriving DecidableEq, Repr

inductive SwitchEvent where
  | status (s : SwitchStatus)
  /-- The stream to switch to. -/
  | switch (index : Int)
  /-- A number has left its range, and the call has broken off. -/
  | overflow
  deriving DecidableEq, Repr

structure Selector where
  config : BitrateConfig
  /-- Whether the owner wants to be told of the status. -/
  reportsStatus : Bool := true
  /-- Whether there is somebody to ask how playback stands. -/
  attached : Bool := false
  /-- By rising bitrate, each of which occurs once. -/
  streams : List Stream := []
  current : Option Nat := none
  previous : Option Nat := none
  /-- The duration of the content; zero for live streams. -/
  duration : Nat := 0
  status : SwitchStatus := .idle
  switching : Bool := false
  /-- When the present bitrate was confirmed. -/
  confirmed : Option Int := none
  lastBuffer : Option Nat := none
  /-- One for a rise and minus one for a fall. -/
  trend : Window Int
  speeds : Window Nat
  /-- The directions of the newest switches; true is up. -/
  history : Window Bool
  upCooldown : Nat

namespace Selector

def ofConfig (config : BitrateConfig) (reportsStatus : Bool) : Selector where
  config := config
  reportsStatus := reportsStatus
  trend := Window.ofCapacity config.trendWindow
  speeds := Window.ofCapacity config.speedWindow
  history := Window.ofCapacity config.historyWindow
  upCooldown := config.cooldownAfterUp

def bitrates (s : Selector) : List Nat := s.streams.map (·.bitrate)

/-- The streams with one more, in its place; a stream of the same bitrate gives way. -/
def insertStream (new : Stream) : List Stream → List Stream
  | [] => [new]
  | a :: rest =>
    if new.bitrate < a.bitrate then new :: a :: rest
    else if new.bitrate = a.bitrate then new :: rest
    else a :: insertStream new rest

def addStream (s : Selector) (index : Int) (bitrate : Nat) : Selector :=
  { s with streams := insertStream ⟨bitrate, index⟩ s.streams }

def maxSpeed (s : Selector) : Nat := s.speeds.items.foldl max 0

/-- The mean of the fastest two thirds of the speeds, unless their sum overflows. -/
def averageSpeed? (s : Selector) : Option Nat :=
  let speeds := s.speeds.items.mergeSort (fun a b => b ≤ a)
  let kept := speeds.take (speeds.length - speeds.length / 3)
  if kept.isEmpty then some 0 else (Count.sum? kept).map (· / kept.length)

def breakOff (s : Selector) : List SwitchEvent × Selector := ([.overflow], s)

/-- Changes the status and tells of it; unless `force`, only if it is another one. -/
def setStatus (s : Selector) (status : SwitchStatus) (force : Bool) :
    List SwitchEvent × Selector :=
  if !force && s.status = status then ([], s)
  else (if s.reportsStatus then [.status status] else [], { s with status })

def commit (s : Selector) (source target : Nat) (up : Bool) : List SwitchEvent × Selector :=
  let s := { s with
    previous := some source
    current := some target
    switching := true
    trend := s.trend.clear
    history := s.history.push up
    upCooldown := if up then s.config.cooldownAfterUp else s.config.cooldownAfterDown }
  let (events, s) := s.setStatus .switching true
  let stream := s.streams.find? (·.bitrate == target)
  (events ++ (stream.map fun a => SwitchEvent.switch a.index).toList, s)

/-- The bitrate to go up to, of those above the present one: the next, or the greatest of the
others that the speed allows. -/
def upTarget (speed next : Nat) (others : List Nat) : Nat :=
  others.foldl (fun target b => if b ≤ speed then b else target) next

/-- The bitrate to go down to, of those below the present one: the greatest that the speed allows,
or the lowest. -/
def downTarget (speed : Nat) (anySpeed : Bool) (lowest : Nat) (below : List Nat) : Nat :=
  if anySpeed then (below.reverse.find? (· ≤ speed)).getD lowest else lowest

def wentDown (s : Selector) : Bool := s.history.last? == some false

def switchBitrate (s : Selector) (up : Bool) : List SwitchEvent × Selector :=
  match s.current with
  | none => ([], s)
  | some current =>
    match s.bitrates.idxOf? current with
    | none => ([], s)
    | some position =>
      match s.averageSpeed? with
      | none => s.breakOff
      | some speed =>
        if up then
          match s.bitrates.drop (position + 1) with
          | [] => s.setStatus .highestAlready false
          | next :: others =>
            if 0 < speed && s.wentDown && s.maxSpeed < next then ([], s)
            else s.commit current (upTarget speed next others) true
        else
          match s.bitrates.take position with
          | [] => s.setStatus .lowestAlready false
          | lowest :: rest =>
            s.commit current (downTarget speed (0 < s.maxSpeed) lowest (lowest :: rest)) false

/-- Whether no more can be buffered: the buffer is near its maximum, or a live stream has nothing
left to fetch. -/
def isFull (s : Selector) (p : Playback) : Bool :=
  (p.maxBuffer != 0 && p.maxBuffer - s.config.fullMargin ≤ p.buffer) ||
    (s.duration == 0 && p.connected && p.remaining == 0)

def sample (s : Selector) (p : Playback) (lastBuffer : Nat) : Selector :=
  let full := s.isFull p
  let rising := !p.rebuffering && (full || lastBuffer < p.buffer)
  { s with
    speeds := if full then s.speeds else s.speeds.push p.speed
    trend := s.trend.push (if rising then 1 else -1) }

/-- The time since the present bitrate was confirmed; none has passed before it was. -/
def elapsed (confirmed now : Int) : Nat := (now - confirmed).toNat

/-- What the trend has to reach for a switch up. -/
def riseBound? (s : Selector) : Option Int :=
  Window.checked32 (Window.wrap32 s.config.trendWindow - 2)

def fallBound? (s : Selector) : Option Int := s.riseBound?.bind fun bound => Window.checked32 (-bound)

/-- Whether the buffer and a trend of this sum ask for a switch down. -/
def falls? (s : Selector) (p : Playback) (sum : Int) : Option Bool :=
  if p.buffer ≤ s.config.starvationBuffer then some true
  else if p.buffer < s.config.lowerBuffer then s.fallBound?.map fun bound => decide (sum ≤ bound)
  else some false

def rises? (s : Selector) (p : Playback) (sum : Int) : Option Bool :=
  if s.config.upperBuffer ≤ p.buffer || s.isFull p then
    s.riseBound?.map fun bound => decide (bound ≤ sum)
  else some false

/-- Switches if the buffer and the trend ask for it. -/
def respond (s : Selector) (p : Playback) (sinceConfirmed : Nat) : List SwitchEvent × Selector :=
  match s.trend.sum? with
  | none => s.breakOff
  | some sum =>
    match s.falls? p sum with
    | none => s.breakOff
    | some true => s.switchBitrate false
    | some false =>
      match s.rises? p sum with
      | none => s.breakOff
      | some false => ([], s)
      | some true =>
        if s.wentDown &&
            (sinceConfirmed < s.upCooldown || sum < Window.wrap32 s.config.trendWindow) then
          ([], s)
        else s.switchBitrate true

def tick (s : Selector) (now : Int) (p : Playback) : List SwitchEvent × Selector :=
  if s.switching || s.streams.length < 2 || !s.attached || p.completed then ([], s)
  else match s.confirmed with
    | none => ([], s)
    | some confirmed =>
      let sampled := { s with lastBuffer := some p.buffer }
      match s.lastBuffer with
      | none => ([], sampled)
      | some lastBuffer => (sampled.sample p lastBuffer).respond p (elapsed confirmed now)

def process (s : Selector) (now : Int) (p : Playback) : List SwitchEvent × Selector :=
  if s.current.isNone then ([], s) else s.tick now p

/-- Confirms that a bitrate is played now. -/
def setCurrent (s : Selector) (now : Int) (bitrate : Nat) : List SwitchEvent × Selector :=
  let s := { s with current := some bitrate, confirmed := some now, lastBuffer := none }
  if s.switching then { s with switching := false }.setStatus .idle false else ([], s)

def setDuration (s : Selector) (duration : Nat) : Selector := { s with duration }

def attach (s : Selector) : Selector := { s with attached := true }

/-- Forgets samples and switches but not the streams. -/
def reset (s : Selector) : Selector :=
  { s with
    switching := false
    confirmed := none
    lastBuffer := none
    trend := s.trend.clear
    speeds := s.speeds.clear
    history := s.history.clear
    upCooldown := s.config.cooldownAfterUp
    status := .idle }

def clear (s : Selector) : Selector :=
  { s.reset with streams := [], current := none, previous := none }

/-! ## What the newest switch was like -/

def optionText (n : Option Nat) : String :=
  match n with
  | some n => toString n
  | none => "null"

def arrayText (items : List Int) : String :=
  "[" ++ ",".intercalate (items.map fun n => toString n) ++ "]"

/-- The newest switch and the samples, as a JSON text. -/
def summary (s : Selector) : String :=
  "\x7b\"fb\":" ++ optionText s.previous ++ ",\"tb\":" ++ optionText s.current ++
    ",\"spd\":" ++ arrayText (s.speeds.items.map Int.ofNat) ++
    ",\"buf\":" ++ arrayText s.trend.items ++ "\x7d"

end Selector

end AdaptiveHls
