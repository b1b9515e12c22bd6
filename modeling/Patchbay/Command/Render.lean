import Patchbay.Command.Basic
import Patchbay.Command.Console
import Patchbay.Compile.Target
import Patchbay.NodeType.Builtin
import Patchbay.Render.Analysis
import Patchbay.Render.Readout
import Patchbay.Render.Wave
import Patchbay.Text.Column

/-!
# Rendering a preset to a wave file

The patch is compiled, its gates and constants are set, and the channels are rendered as a whole.
The levels of both channels and of all meters are printed before anything is written.
-/

set_option autoImplicit false

namespace Patchbay

namespace Rendering

/-- A node stands for its gate. -/
def gateKey (gate : String) : String := if gate.contains ':' then gate else gate ++ ":gate"

/-- The least and the greatest value that each meter saw. -/
abbrev Levels := Table (Float32 × Float32)

def addLevel (levels : Levels) (d : Delivery) : Levels :=
  match d.event with
  | .meter name low high =>
    let (least, greatest) := (levels.find? name).getD (Single.infinity, Single.negInfinity)
    levels.insert name (Single.min least low, Single.max greatest high)
  | _ => levels

def levelsOf (ds : List Delivery) : Levels := ds.foldl addLevel .empty

def statsLine (s : CompileStats) : String :=
  "  " ++ digitText s.compiled ++ " compiled, " ++ digitText s.skipped ++ " skipped, "
    ++ digitText s.failed ++ " failed, " ++ digitText s.dropped ++ " dropped, "
    ++ digitText s.probes ++ " probes"

def channelLine (label : String) (samples : List Float32) (sampleRate : Float32) : String :=
  let r := Analysis.analyze samples sampleRate
  "  " ++ Column.left 5 label ++ "  " ++
    if r.hasSignal then
      "RMS " ++ fixedText (Analysis.rmsDecibels samples) 1 ++ " dB, Peak "
        ++ fixedText (Analysis.peakDecibels samples) 1 ++ " dB, ~" ++ Readout.compact r.frequency
        ++ " Hz"
    else "silent"

def channelLines (s : Stereo) (sampleRate : Float32) : List String :=
  ["", "Stats:", channelLine "Left" s.left.toList sampleRate,
    channelLine "Right" s.right.toList sampleRate]

def levelLine (name : String) (low high : Float32) : String :=
  "  " ++ Column.left 28 name ++ " [" ++ Readout.compact low ++ ", " ++ Readout.compact high ++ "]"

def levelLines (levels : Levels) : List String :=
  match levels.entries with
  | [] => []
  | entries => ["", "Meters:"] ++ entries.map fun (name, low, high) => levelLine name low high

/-- The whole number of frames nearest to a length in seconds. -/
def frameCount (seconds sampleRate : Float32) : Nat :=
  Single.toNat (Single.round (seconds * sampleRate))

/-- Listens to all meters, once for each. -/
def listen (r : Renderer) : Renderer :=
  (r.taps.filter (·.kind = .meter)).zipIdx.foldl (fun r (tag, i) => r.subscribe tag i) r

variable {m : Type → Type} [Monad m]

def orThrow {α : Type} : Except RenderError α → Console m α
  | .ok x => return x
  | .error e => throw (.rendering e)

def setAll (e : String → CommandError) : Renderer → List (String × Float32) → Console m Renderer
  | r, [] => return r
  | r, (key, value) :: rest =>
    match r.setConst? key value with
    | some r => setAll e r rest
    | none => throw (e key)

/-- The renderer for a target, with gates open and constants set. -/
def prepare (o : RenderOptions) (t : RenderTarget) (sampleRate : Float32) :
    Console m Renderer := do
  let r ← orThrow (Renderer.new sampleRate)
  let r ← orThrow ((r.withBlockSize o.blockSize).load t.left t.right)
  let r ← setAll .noGate r (o.gates.map fun g => (gateKey g, 1.0))
  let r ← setAll .noConstant r o.settings
  return listen r

/-- All frames, and what the meters heard, the last block included even if it is not full. -/
def play (r : Renderer) (frames : Nat) : Except RenderError (Heard Stereo) :=
  match r.process frames with
  | .ok (heard, r) => .ok { heard with deliveries := heard.deliveries ++ r.flush.1 }
  | .error f => .error (.fault f)

def check (o : RenderOptions) : Console m Unit := do
  if !((0.0 : Float32) < o.seconds && o.seconds.isFinite) then throw .invalidSeconds
  if o.blockSize = 0 then throw .invalidBlockSize

def writeWave [FileAccess m] (o : RenderOptions) (rate : Nat) (s : Stereo) :
    Console m Unit := do
  if Wave.bitDepths.contains o.bitDepth then
    match ← FileAccess.write o.output (Wave.ofStereo rate o.bitDepth s).encode with
    | .ok () => return
    | .error f => throw (.writing f)
  else throw (.unsupportedDepth o.bitDepth)

def run [FileAccess m] (places : PresetPlaces) (o : RenderOptions) : Console m Unit := do
  check o
  let p ← Console.loadPreset places o.preset
  let rate := o.sampleRate.getD p.sampleRate.toNat
  Console.print ("Rendering '" ++ p.name ++ "' at " ++ digitText rate ++ " Hz")
  let options := if o.noProbes then CompileOptions.bare else .full
  let c := Compile.patch .builtin options p.nodes p.edges
  match c.target with
  | none => throw (.noOutput p.name)
  | some t => do
    Console.print (statsLine c.stats)
    let sampleRate := Single.ofNat rate
    let r ← prepare o t sampleRate
    let heard ← orThrow (play r (frameCount o.seconds sampleRate))
    Console.printAll (channelLines heard.value sampleRate)
    Console.printAll (levelLines (levelsOf heard.deliveries))
    Console.printAll ["", "Writing " ++ o.output ++ "..."]
    writeWave o rate heard.value
    Console.print "Done!"

end Rendering

end Patchbay
