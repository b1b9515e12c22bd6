import Patchbay.Render.Renderer

/-!
# Wave files

Interleaved samples with a header, either single precision numbers or signed integers of 16 or 24
bits. All numbers in a file have their lowest byte first.
-/

set_option autoImplicit false

namespace Patchbay

inductive WaveSamples where
  | singles (xs : List Float32)
  | integers (bits : Nat) (xs : List Int)

structure Wave where
  channels : Nat
  rate : Nat
  samples : WaveSamples

namespace WaveSamples

def bits : WaveSamples → Nat
  | singles _ => 32
  | integers bits _ => bits

/-- The tag of the kind of samples in a header. -/
def tag : WaveSamples → Nat
  | singles _ => 3
  | integers _ _ => 1

end WaveSamples

namespace Wave

/-- The bit depths that can be written; 32 bits are numbers in single precision. -/
def bitDepths : List Nat := [16, 24, 32]

/-- A number without its fraction; NaN counts as 0. -/
def truncate (x : Float32) : Int :=
  if x < 0.0 then -(Single.toNat (-x) : Int) else Single.toNat x

/-- A sample as an integer with full scale at the ends of the range. -/
def quantize (bits : Nat) (x : Float32) : Int :=
  let scale := Single.ofNat (1 <<< (bits - 1))
  truncate (Single.clamp (x * scale) (-scale) (scale - 1.0))

def ofStereo (rate bits : Nat) (s : Stereo) : Wave :=
  let xs := s.interleaved.toList
  ⟨2, rate, if bits = 32 then .singles xs else .integers bits (xs.map (quantize bits))⟩

/-! ## Bytes -/

/-- The lowest `count` bytes of a number. -/
def littleEndian : Nat → Nat → List UInt8
  | 0, _ => []
  | count + 1, n => n.toUInt8 :: littleEndian count (n / 256)

/-- Negative numbers count downwards from the end of the range. -/
def signedBytes (count : Nat) (n : Int) : List UInt8 :=
  littleEndian count (n % ((1 <<< (8 * count) : Nat) : Int)).toNat

def sampleBytes : WaveSamples → List UInt8
  | .singles xs => xs.flatMap fun x => littleEndian 4 x.toBits.toNat
  | .integers bits xs => xs.flatMap (signedBytes (bits / 8))

def chunk (name : String) (content : List UInt8) : List UInt8 :=
  name.toUTF8.toList ++ littleEndian 4 content.length ++ content

def header (w : Wave) : List UInt8 :=
  let frame := w.channels * (w.samples.bits / 8)
  littleEndian 2 w.samples.tag ++ littleEndian 2 w.channels ++ littleEndian 4 w.rate
    ++ littleEndian 4 (w.rate * frame) ++ littleEndian 2 frame ++ littleEndian 2 w.samples.bits

def encode (w : Wave) : ByteArray :=
  let content := "WAVE".toUTF8.toList ++ chunk "fmt " w.header ++ chunk "data" (sampleBytes w.samples)
  ByteArray.mk (chunk "RIFF" content).toArray

/-! ## Reading -/

def ofLittleEndian (bytes : List UInt8) : Nat := bytes.foldr (fun b n => n * 256 + b.toNat) 0

def ofSigned (bytes : List UInt8) : Int :=
  let n := ofLittleEndian bytes
  let range := 1 <<< (8 * bytes.length)
  if 2 * n < range then n else (n : Int) - (range : Int)

/-- The number in some of the bytes of a header. -/
def field (bytes : List UInt8) (start count : Nat) : Nat :=
  ofLittleEndian ((bytes.drop start).take count)

/-- Groups of `count` bytes; what is left over at the end is dropped. -/
def groups (count : Nat) : Nat → List UInt8 → List (List UInt8)
  | 0, _ => []
  | fuel + 1, bytes =>
    let group := bytes.take count
    if count = 0 ∨ group.length < count then []
    else group :: groups count fuel (bytes.drop count)

/-- The chunks of a file by name. -/
def chunks : Nat → List UInt8 → List (List UInt8 × List UInt8)
  | 0, _ => []
  | fuel + 1, bytes =>
    if bytes.length < 8 then []
    else
      let size := field bytes 4 4
      (bytes.take 4, (bytes.drop 8).take size) :: chunks fuel (bytes.drop (8 + size + size % 2))

def samplesOf? (tag bits : Nat) (content : List UInt8) : Option WaveSamples :=
  let parts := groups (bits / 8) content.length content
  if tag = 3 ∧ bits = 32 then
    some (.singles (parts.map fun b => Float32.ofBits (ofLittleEndian b).toUInt32))
  else if tag = 1 ∧ (bits = 16 ∨ bits = 24 ∨ bits = 32) then
    some (.integers bits (parts.map ofSigned))
  else none

def decode? (file : ByteArray) : Option Wave := do
  let bytes := file.toList
  if bytes.take 4 ≠ "RIFF".toUTF8.toList ∨ (bytes.drop 8).take 4 ≠ "WAVE".toUTF8.toList then none
  else do
    let parts := chunks bytes.length (bytes.drop 12)
    let (_, head) ← parts.find? (·.1 = "fmt ".toUTF8.toList)
    let (_, content) ← parts.find? (·.1 = "data".toUTF8.toList)
    let samples ← samplesOf? (field head 0 2) (field head 14 2) content
    return ⟨field head 2 2, field head 4 4, samples⟩

end Wave

end Patchbay
