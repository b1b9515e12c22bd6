import Mathlib
import Patchbay.Proofs.Voice

/-!
# Calls and frames

A host asks for frames in calls of any size, into new buffers or into its own. A renderer counts
frames and not calls: samples, deliveries and the state it is left in are those of one call for all
frames, and the samples are up to neither the blocks nor the listeners.
-/

set_option autoImplicit false

namespace Patchbay

/-- A call for the next frames, in new buffers or in two given ones of equal length. -/
inductive Request where
  | process (frames : Nat)
  | block (left right : Array Float32) (equal : left.size = right.size)

namespace Request

def frames : Request → Nat
  | process n => n
  | block left _ _ => left.size

def total (requests : List Request) : Nat := (requests.map frames).sum

theorem total_cons (request : Request) (rest : List Request) :
    total (request :: rest) = request.frames + total rest := List.sum_cons

end Request

/-- What is heard in two stretches of time one after the other. -/
def Heard.append (a b : Heard Stereo) : Heard Stereo :=
  ⟨a.value.append b.value, a.deliveries ++ b.deliveries⟩

namespace Renderer

def answer (r : Renderer) : Request → Except KernelFault (Heard Stereo × Renderer)
  | .process n => r.process n
  | .block left right _ =>
    (r.processBlock left right).map fun (heard, r) =>
      (⟨⟨heard.value.1, heard.value.2⟩, heard.deliveries⟩, r)

/-- All that is heard in answer to some requests. -/
def serve (r : Renderer) : List Request → Except KernelFault (Heard Stereo × Renderer)
  | [] => .ok (⟨.empty, []⟩, r)
  | request :: rest =>
    match r.answer request with
    | .error f => .error f
    | .ok (heard, r) => (r.serve rest).map fun (later, r) => (heard.append later, r)

/-- The samples in answer to some requests while the bus is what the host makes of it before each
of them. -/
def serveUnder (r : Renderer) : List (ProbeBus × Request) → Except KernelFault Stereo
  | [] => .ok .empty
  | (bus, request) :: rest =>
    match { r with bus := bus }.answer request with
    | .error f => .error f
    | .ok (heard, r) => (r.serveUnder rest).map heard.value.append

/-- A run of which something has been heard before, the deliveries last first. -/
def Run.after (out : Stereo) (delivered : List Delivery) (run : Run) : Run :=
  { run with out := out.append run.out, delivered := run.delivered ++ delivered }

theorem route_append (raised : List Raised) (bus : ProbeBus) (later before : List Delivery) :
    route raised bus (later ++ before) =
      ((route raised bus later).1 ++ before, (route raised bus later).2) := by
  induction raised generalizing bus later with
  | nil => rfl
  | cons e raised ih =>
    simp only [route]
    rw [← List.append_assoc]
    exact ih _ _

theorem append_push (a b : Stereo) (x y : Float32) :
    a.append (b.push x y) = (a.append b).push x y := by
  simp [Stereo.append, Stereo.push]

theorem append_assoc (a b c : Stereo) : (a.append b).append c = a.append (b.append c) := by
  simp [Stereo.append, Array.append_assoc]

/-- What has been heard before makes no difference to a frame. -/
theorem frame_after (blockSize : Nat) (out : Stereo) (delivered : List Delivery) (run : Run) :
    (run.after out delivered).frame blockSize =
      (run.frame blockSize).map (Run.after out delivered) := by
  obtain ⟨⟨cells, values, constants, taps, left, right, rate⟩, bus, pos, out', delivered'⟩ := run
  simp only [Run.after, Run.frame]
  cases Program.step rate cells 0 values Program.scratch with
  | error e => rfl
  | ok f =>
    simp only [route_append]
    split
    · simp only [Except.map, Run.after, append_push]
    · simp only [Except.map, Run.after, append_push]

theorem frames_after (blockSize n : Nat) (out : Stereo) (delivered : List Delivery) (run : Run) :
    Run.frames blockSize n (run.after out delivered) =
      (Run.frames blockSize n run).map (Run.after out delivered) := by
  induction n generalizing run with
  | zero => rfl
  | succ n ih =>
    rw [Run.frames, Run.frames, frame_after]
    cases run.frame blockSize with
    | error e => rfl
    | ok run' => exact ih run'

theorem frames_add (blockSize m n : Nat) (run : Run) :
    Run.frames blockSize (m + n) run =
      (Run.frames blockSize m run).bind (Run.frames blockSize n) := by
  induction m generalizing run with
  | zero =>
    rw [Nat.zero_add]
    rfl
  | succ m ih =>
    rw [Nat.add_right_comm, Run.frames, Run.frames]
    cases run.frame blockSize with
    | error e => rfl
    | ok run' => exact ih run'

theorem frames_size {blockSize n : Nat} {run run' : Run}
    (h : Run.frames blockSize n run = .ok run') :
    run'.out.left.size = run.out.left.size + n ∧ run'.out.right.size = run.out.right.size + n := by
  induction n generalizing run with
  | zero =>
    cases h
    exact ⟨rfl, rfl⟩
  | succ n ih =>
    rw [Run.frames] at h
    cases hf : run.frame blockSize with
    | error e =>
      rw [hf] at h
      cases h
    | ok next =>
      rw [hf] at h
      obtain ⟨f, -, hout, -⟩ := frame_ok hf
      obtain ⟨hleft, hright⟩ := ih h
      rw [hleft, hright, hout]
      simp only [Stereo.push, Array.size_push]
      omega

theorem process_size {r r' : Renderer} {n : Nat} {heard : Heard Stereo}
    (h : r.process n = .ok (heard, r')) :
    heard.value.left.size = n ∧ heard.value.right.size = n := by
  obtain ⟨rate, blockSize, pos, loaded, bus, frames⟩ := r
  cases loaded with
  | none =>
    cases h
    simp
  | some l =>
    obtain ⟨leftRoot, rightRoot, program, overrides⟩ := l
    rw [process] at h
    cases hrun : Run.frames blockSize n ⟨program, bus, pos, .empty, []⟩ with
    | error e =>
      rw [hrun] at h
      cases h
    | ok run =>
      rw [hrun] at h
      cases h
      simpa [Stereo.empty] using frames_size hrun

theorem process_zero (r : Renderer) : r.process 0 = .ok (⟨.empty, []⟩, r) := by
  obtain ⟨rate, blockSize, pos, loaded, bus, frames⟩ := r
  cases loaded with
  | none => rfl
  | some l => rfl

theorem process_add (r : Renderer) (m n : Nat) :
    r.process (m + n) = (r.process m).bind fun (heard, r) =>
      (r.process n).map fun (later, r) => (heard.append later, r) := by
  obtain ⟨rate, blockSize, pos, loaded, bus, frames⟩ := r
  cases loaded with
  | none =>
    simp only [process, Except.bind, Except.map, Heard.append, Stereo.append, List.append_nil,
      Array.replicate_append_replicate]
  | some l =>
    obtain ⟨leftRoot, rightRoot, program, overrides⟩ := l
    simp only [process, frames_add]
    cases hm : Run.frames blockSize m ⟨program, bus, pos, .empty, []⟩ with
    | error e => rfl
    | ok run =>
      obtain ⟨program', bus', pos', out, delivered⟩ := run
      have hafter := frames_after blockSize n out delivered ⟨program', bus', pos', .empty, []⟩
      rw [Run.after] at hafter
      simp only [append_empty, List.nil_append] at hafter
      simp only [Except.bind, hafter]
      cases hn : Run.frames blockSize n ⟨program', bus', pos', .empty, []⟩ with
      | error e => rfl
      | ok run =>
        simp [Except.map, Run.after, Heard.append, Nat.add_assoc]

theorem answer_eq (r : Renderer) (request : Request) :
    r.answer request = r.process request.frames := by
  cases request with
  | process n => rfl
  | block left right equal =>
    rw [answer, Request.frames, processBlock, ← equal, Nat.min_self]
    have hsilence (xs : Array Float32) :
        xs.map (fun _ => (0.0 : Float32)) = .replicate xs.size 0.0 := Array.map_const'
    obtain ⟨rate, blockSize, pos, loaded, bus, frames⟩ := r
    cases loaded with
    | none => simp [isLoaded, process, Except.map, hsilence, equal]
    | some l =>
      simp only [isLoaded, Option.isSome_some, if_true]
      cases hp : process ⟨rate, blockSize, pos, some l, bus, frames⟩ left.size with
      | error e => rfl
      | ok result =>
        obtain ⟨hleft, hright⟩ := process_size hp
        simp [Except.map, hleft, hright, equal, bind, Except.bind, pure, Except.pure]

theorem serve_eq (r : Renderer) (requests : List Request) :
    r.serve requests = r.process (Request.total requests) := by
  induction requests generalizing r with
  | nil => exact (process_zero r).symm
  | cons request requests ih =>
    rw [serve, answer_eq, Request.total_cons, process_add]
    cases r.process request.frames with
    | error f => rfl
    | ok result =>
      simp only [ih]
      rfl

/-- Whoever listens before each request, the samples are those of one call of a renderer that
sounds alike. -/
theorem serveUnder_eq {r r' : Renderer} (h : r.voice = r'.voice)
    (script : List (ProbeBus × Request)) :
    r.serveUnder script =
      (r'.process (Request.total (script.map Prod.snd))).map fun result => result.1.value := by
  induction script generalizing r r' with
  | nil =>
    rw [List.map_nil]
    show _ = (r'.process 0).map _
    rw [process_zero]
    rfl
  | cons first script ih =>
    obtain ⟨bus, request⟩ := first
    rw [serveUnder, answer_eq, List.map_cons, Request.total_cons, process_add]
    -- the renderers no longer agree on the bus, but they still sound alike
    have hbus : ({ r with bus := bus } : Renderer).voice = r'.voice := h
    rcases map_eq_map (process_alike hbus request.frames)
      with ⟨e, hp, hp'⟩ | ⟨result, result', hp, hp', heq⟩
    · rw [hp, hp']
      rfl
    · rw [Prod.mk.injEq] at heq
      rw [hp, hp']
      simp only [Except.bind, ih heq.2, heq.1]
      cases result'.2.process (Request.total (script.map Prod.snd)) with
      | error e => rfl
      | ok later => rfl

/-- Only the number of frames counts: in whatever calls they are asked for, samples, deliveries and
the renderer that is left are those of one call. The samples do not even change with the length
of blocks, the position in them and the listeners. -/
theorem serve_eq_process (r : Renderer) :
    (∀ requests, r.serve requests = r.process (Request.total requests)) ∧
    ∀ script blockSize blockPos,
      ({ r with blockSize := blockSize, blockPos := blockPos } : Renderer).serveUnder script =
        (r.process (Request.total (script.map Prod.snd))).map fun result => result.1.value := by
  constructor
  · exact serve_eq r
  · intro script blockSize blockPos
    apply serveUnder_eq
    rfl

end Renderer

end Patchbay
