import Mathlib
import Patchbay.Proofs.Literal
import Patchbay.Proofs.Tap
import Patchbay.Proofs.WholeNumber

/-!
# What is heard of a sink

A sink passes its left signal on, and its right one or the left in its place, each multiplied with
a factor of one or zero. A factor of one changes nothing and an exact zero silences even what is
infinite or not a number, so what is heard at a frame is a matter of the three signals at that
frame alone, whatever has been added to the left channel.
-/

set_option autoImplicit false

namespace Patchbay

open Patchbay.Expr

/-! ## The factors -/

namespace Single

open Float.Model Float.Model.UnpackedFloat

/-- A factor of one changes nothing: the product is rounded to what the format holds already. -/
theorem mul_one (x : Float32) : x * 1.0 = x := by
  have hone : (1.0 : Float32).toModel.unpack = .finite .positive (2 ^ 23) (-23) (by decide) := by
    rfl
  have hsign (s : Sign) : s * .positive = s := by cases s <;> rfl
  have hcanonical : Rounding.Canonical x.toModel.unpack := Rounding.canonical_unpack _
  have hmul : UnpackedFloat.mul Format.binary32 x.toModel.unpack
      (.finite .positive (2 ^ 23) (-23) (by decide)) = x.toModel.unpack := by
    cases hu : x.toModel.unpack with
    | notANumber => rfl
    | infinity s => rw [UnpackedFloat.mul, hsign]
    | zero s => rw [UnpackedFloat.mul, hsign]
    | finite s m e hm =>
      rw [hu] at hcanonical
      rw [UnpackedFloat.mul, hsign]
      have hshift : (e - (e + -23)).toNat = 23 := by omega
      exact Rounding.Canonical.round hcanonical (by omega) (by rw [hshift])
  rw [mul_eq, hone, hmul]
  exact pack_unpack x

theorem same_mulAnnihilating_one (x : Float32) : Same (mulAnnihilating x 1.0) x := by
  rw [mulAnnihilating]
  split
  · next hzero =>
    have hx : (x == 0.0) = true := by
      rw [Bool.or_eq_true] at hzero
      exact hzero.resolve_right (by decide)
    exact (same_iff _ _).2 (.inr ⟨by decide, hx⟩)
  · rw [mul_one]
    exact same_refl x

theorem mulAnnihilating_zero_right (x : Float32) : mulAnnihilating x 0.0 = 0.0 := by
  rw [mulAnnihilating, if_pos]
  rw [Bool.or_eq_true]
  exact .inr (by decide)

end Single

/-! ## The signals -/

/-- What a signal is at each frame, as long as nobody sets a constant. -/
def Signal.stream (rate : Float32) : Signal → Samples
  | .literal v => fun _ => some v
  | .expr e => e.stream rate quiet

/-- Wherever an expression has a sample, it is that of a signal. -/
def Follows (e : Expr) (s : Signal) : Prop :=
  ∀ rate t z, e.stream rate quiet t = some z → s.stream rate t = some z

/-- Wherever an expression has a sample, it tells that a signal is zero there. -/
def Gates (e : Expr) (muted : Signal) : Prop :=
  ∀ rate t z, e.stream rate quiet t = some z →
    ∃ m, muted.stream rate t = some m ∧ z = truth (m == 0.0)

/-- Wherever an expression has a sample, it is that of a signal with the factor that another one
leaves to it. -/
def Gated (e : Expr) (s muted : Signal) : Prop :=
  ∀ rate t z, e.stream rate quiet t = some z →
    ∃ v m, s.stream rate t = some v ∧ muted.stream rate t = some m ∧
      z = mulAnnihilating v (truth (m == 0.0))

theorem follows_expr (e : Expr) : Follows e (.expr e) := fun _ _ _ h => h

theorem follows_liftKeyed (key : String) (s : Signal) :
    Build.Yields (Build.liftKeyed key s) (Follows · s) := by
  cases s with
  | literal v =>
    intro l rate t z hz
    have hsteady : Expr.Steady rate v (Build.keyedConst key v l).1 := steady_const l (some key) v
    rw [← hz]
    exact (congrFun hsteady.stream t).symm
  | expr e => exact fun _ => follows_expr e

theorem follows_meter {e : Expr} {s : Signal} (h : Follows e s) (name : String) :
    Build.Yields (Build.meter name (.expr e)) (Follows · s) := by
  intro l rate t z hz
  have hpassed : (node l (.tap (.meter name)) none [e]).stream rate quiet = e.stream rate quiet :=
    stream_tap (t := .meter name) trivial none [e]
  exact h rate t z (hpassed ▸ hz)

theorem gated_product {e g : Expr} {s muted : Signal} (he : Follows e s) (hg : Gates g muted) :
    Build.Yields (Build.binary .mul (.expr e) (.expr g)) (Gated · s muted) := by
  intro l rate t z hz
  obtain ⟨v, factor, hv, hfactor, rfl⟩ := stream_binary hz
  obtain ⟨m, hm, rfl⟩ := hg rate t factor hfactor
  exact ⟨v, m, he rate t v hv, hm, rfl⟩

namespace NodeType

/-- What is heard on the right: the left signal, if nothing is connected there. -/
def heardRight (left : Signal) : Signal → Signal
  | .literal _ => left
  | .expr e => .expr e

theorem follows_rightChannel (id : String) {left : Expr} {s : Signal} (h : Follows left s)
    (right : Signal) :
    Build.Yields (rightChannel id left right) (Follows · (heardRight s right)) := by
  cases right with
  | literal v => exact .pure h
  | expr e => exact follows_meter (follows_expr e) (id ++ ":R")

/-- The factor is the same whether it is taken from a number at once or at every frame. -/
theorem gates_muteGain (id : String) (muted : Signal) :
    Build.Yields (muteGain id muted) (Gates · muted) := by
  cases muted with
  | literal v =>
    intro l rate t z hz
    have hsteady : Expr.Steady rate (if v != 0.0 then 0.0 else 1.0)
        (muteGain id (.literal v) l).1 := steady_const l (some (id ++ ":mute")) _
    have hvalue : z = if v != 0.0 then 0.0 else 1.0 :=
      Option.some.inj (hz.symm.trans (congrFun hsteady.stream t))
    refine ⟨v, rfl, ?_⟩
    rw [hvalue, bne, truth]
    cases v == 0.0 <;> rfl
  | expr e =>
    intro l rate t z hz
    obtain ⟨m, zero, hm, hzero, rfl⟩ := stream_binary hz
    have hsteady : Expr.Steady rate 0.0 (Build.constant 0.0 l).1 := steady_const l none 0.0
    have hvalue : zero = 0.0 :=
      Option.some.inj (hzero.symm.trans (congrFun hsteady.stream t))
    rw [hvalue]
    exact ⟨m, hm, rfl⟩

theorem output_yields {i : Inputs} {left right muted : Signal} (hl : i.signal "left" = .ok left)
    (hr : i.signal "right" = .ok right) (hm : i.signal "muted" = .ok muted) (id : String) :
    NodeBuild.Yields (output.compile i id) fun o =>
      ∃ x y, o.find? "left" = some (.expr x) ∧ o.find? "right" = some (.expr y) ∧
        Gated x left muted ∧ Gated y (heardRight left right) muted := by
  have hget {name : String} {s : Signal} (h : i.signal name = .ok s) :
      NodeBuild.Yields (i.get name) (· = s) := fun _ => ⟨s, h, rfl⟩
  have hleft : NodeBuild.Yields (i.keyed "left" id) (Follows · left) := by
    refine .bind (hget hl) fun s hs => ?_
    rw [hs]
    exact .lift (follows_liftKeyed _ left)
  refine .bind hleft fun e he => ?_
  refine .bind (.lift (follows_meter he _)) fun l hl => ?_
  refine .bind (hget hr) fun s hs => ?_
  rw [hs]
  refine .bind (.lift (follows_rightChannel id hl right)) fun r hr => ?_
  refine .bind (hget hm) fun s hs => ?_
  rw [hs]
  refine .bind (.lift (gates_muteGain id muted)) fun g hg => ?_
  refine .bind (.lift (gated_product hl hg)) fun x hx => ?_
  refine .bind (.lift (gated_product hr hg)) fun y hy => ?_
  exact .pure ⟨x, y, rfl, rfl, hx, hy⟩

end NodeType

/-! ## The law of the sink -/

/-- What a sink sounds like at a frame by what its signals are there: like nothing if it is muted,
and else like its left signal, on the right like what is connected there or like the left side. -/
inductive SinkSample (rate : Float32) (left right muted : Signal) (t : Nat) (y z : Float32) : Prop
  | muted {m : Float32} (value : muted.stream rate t = some m) (nonzero : (m == 0.0) = false)
      (silentLeft : Single.Same y 0.0) (silentRight : Single.Same z 0.0)
  | heard {m v : Float32} (value : muted.stream rate t = some m) (zero : (m == 0.0) = true)
      (leftValue : left.stream rate t = some v) (sameLeft : Single.Same y v)
      (sameRight : match right with
        | .literal _ => Single.Same z y
        | .expr e => ∃ w, e.stream rate quiet t = some w ∧ Single.Same z w)

theorem sinkSample_of_gated {rate : Float32} {left right muted : Signal} {x x' : Expr} {t : Nat}
    {a y z : Float32} (hx : Gated x left muted)
    (hx' : Gated x' (NodeType.heardRight left right) muted)
    (ha : x.stream rate quiet t = some a) (hy : Single.Same y a)
    (hz : x'.stream rate quiet t = some z) : SinkSample rate left right muted t y z := by
  obtain ⟨v, m, hv, hm, rfl⟩ := hx rate t a ha
  obtain ⟨w, m', hw, hm', rfl⟩ := hx' rate t z hz
  obtain rfl : m' = m := Option.some.inj (hm'.symm.trans hm)
  cases hzero : m' == 0.0 with
  | false =>
    have hsilent (u : Float32) : mulAnnihilating u (truth false) = 0.0 :=
      Single.mulAnnihilating_zero_right u
    rw [hzero, hsilent] at hy
    rw [hsilent]
    exact .muted hm hzero hy (Single.same_refl _)
  | true =>
    have hpassed (u : Float32) : Single.Same (mulAnnihilating u (truth true)) u :=
      Single.same_mulAnnihilating_one u
    rw [hzero] at hy
    have hleft := Single.same_trans hy (hpassed v)
    refine .heard hm hzero hv hleft ?_
    cases right with
    | literal u =>
      obtain rfl : v = w := Option.some.inj (hv.symm.trans hw)
      exact Single.same_trans (hpassed v) (Single.same_symm hleft)
    | expr e => exact ⟨w, hw, hpassed w⟩

/-- What a sink is given for its inlets. -/
structure SinkSignals (edges : List Edge) (seen : OutletMap) (sink : Node)
    (left right muted : Signal) : Prop where
  left : ∀ l, (Resolve.inputs sink NodeType.output.info edges seen l).1.signal "left" = .ok left
  right : ∀ l, (Resolve.inputs sink NodeType.output.info edges seen l).1.signal "right" = .ok right
  muted : ∀ l, (Resolve.inputs sink NodeType.output.info edges seen l).1.signal "muted" = .ok muted

namespace Compile

variable {nodes : List Node} {edges : List Edge} {sink : Node} {i : Nat} {seen : OutletMap}

theorem builtin_sinks :
    Registry.builtin.types.filter (·.info.category = .sink) = [NodeType.output] := rfl

theorem find?_sink (h : findSink? .builtin nodes = some sink) :
    Registry.builtin.find? sink.type = some NodeType.output := by
  have hsink : (Registry.builtin.find? sink.type).any (·.info.category = .sink) = true := by
    rw [← (List.mem_filter.1 (smallest?_spec h).1).2, isSink]
    cases Registry.builtin.find? sink.type <;> rfl
  obtain ⟨t, hmem, ht⟩ := Registry.find?_of_category hsink
  rw [builtin_sinks] at hmem
  rw [ht, List.mem_singleton.1 hmem]

/-- An inlet is given an expression or a number, whatever label the construction has come to. -/
theorem Turn.signal (h : Turn .builtin nodes edges i sink seen) {info : NodeInfo}
    (distinct : (info.inlets.map Inlet.name).Nodup) (inlet : Inlet) (hi : inlet ∈ info.inlets) :
    ∃ s, ∀ l, (Resolve.inputs sink info edges seen l).1.signal inlet.name = .ok s := by
  cases hc : Resolve.connection? edges seen sink inlet with
  | none =>
    exact ⟨_, Resolve.inputs_signal_of_mem distinct hi (Resolve.inletSignal_of_none hc)⟩
  | some c =>
    obtain ⟨edge, s⟩ := c
    have hsource : ∃ e, Resolve.sourceOf seen e = some s := by
      simp only [Resolve.connection?, Option.bind_eq_bind, Option.bind_eq_some_iff,
        Option.pure_def, Option.some.injEq, Prod.mk.injEq] at hc
      obtain ⟨e, -, s', hs', -, rfl⟩ := hc
      exact ⟨e, hs'⟩
    obtain ⟨e, he⟩ := hsource
    obtain ⟨x, rfl⟩ := h.sourceOf_expr builtin_sound he
    exact ⟨_, Resolve.inputs_signal_of_mem distinct hi (Resolve.inletSignal_of_connection hc)⟩

theorem exists_sinkSignals (h : Turn .builtin nodes edges i sink seen) :
    ∃ left right muted, SinkSignals edges seen sink left right muted := by
  have hdistinct : (NodeType.output.info.inlets.map Inlet.name).Nodup := by decide
  obtain ⟨left, hl⟩ := h.signal hdistinct ⟨"left", 0.0⟩ (by simp [NodeType.output])
  obtain ⟨right, hr⟩ := h.signal hdistinct ⟨"right", 0.0⟩ (by simp [NodeType.output])
  obtain ⟨muted, hm⟩ := h.signal hdistinct ⟨"muted", 0.0⟩ (by simp [NodeType.output])
  exact ⟨left, right, muted, hl, hr, hm⟩

/-- The channels of the bare target are what the sink gives at the last turn of its id. -/
theorem channels_gated (hsink : findSink? .builtin nodes = some sink)
    (hturn : LastTurn .builtin nodes edges i sink seen) {left right muted : Signal}
    (hs : SinkSignals edges seen sink left right muted) :
    ∃ x y, channels (compileAll .builtin nodes edges (Order.topological nodes edges)).outlets
        sink.id = ⟨x, y⟩ ∧ Gated x left muted ∧ Gated y (NodeType.heardRight left right) muted := by
  have hinputs : Build.Yields (Resolve.inputs sink NodeType.output.info edges seen) fun inputs =>
      inputs.signal "left" = .ok left ∧ inputs.signal "right" = .ok right ∧
        inputs.signal "muted" = .ok muted :=
    fun l => ⟨hs.left l, hs.right l, hs.muted l⟩
  obtain ⟨given, hgiven, x, y, hx, hy, hgated⟩ := compileNode_yields (find?_sink hsink) hinputs
    (fun inputs h => NodeType.output_yields h.1 h.2.1 h.2.2 sink.id)
    (by rintro o ⟨x, y, hx, hy, -⟩; simp [NodeType.output, hx, hy]) (copyAt nodes i sink.id)
  refine ⟨x, y, ?_, hgated⟩
  simp only [channels, channel, hturn.found hgiven, Option.bind_some, hx, hy]
  rfl

/-- Frame by frame what is heard of a patch follows from the signals that its sink is given at the
last turn of its id, as long as nobody sets a constant. -/
theorem sink_heard (options : CompileOptions) (nodes : List Node) (edges : List Edge)
    (t : RenderTarget) (sink : Node) (i : Nat) (seen : OutletMap)
    (h : (patch .builtin options nodes edges).target = some t)
    (hsink : findSink? .builtin nodes = some sink)
    (hturn : LastTurn .builtin nodes edges i sink seen) :
    ∃ left right muted, SinkSignals edges seen sink left right muted ∧
      ∀ (r r' : Renderer) (calls : List Call) (out : Stereo),
        (∀ key v, Call.setConst key v ∉ calls) → r.load t.left t.right = .ok r' →
        r'.play calls = .ok out → ∀ k < Call.frames calls,
          ∃ y z, out.left[k]? = some y ∧ out.right[k]? = some z ∧
            SinkSample r.sampleRate left right muted k y z := by
  obtain ⟨left, right, muted, hs⟩ := exists_sinkSignals hturn.turn
  refine ⟨left, right, muted, hs, fun r r' calls out hcalls hload hplay k hk => ?_⟩
  obtain ⟨x, x', hchannels, hx, hx'⟩ := channels_gated hsink hturn hs
  obtain ⟨bare, hb, hi⟩ := patch_spec builtin_sound h
  obtain rfl : bare = ⟨x, x'⟩ := by
    rw [patch, hsink] at hb
    rw [← hchannels]
    exact (Option.some.inj hb).symm
  obtain ⟨known, hg, hl, hr⟩ := hi.grown
  have hcoherent : Coherent (under [t.left, t.right]) := coherent_of_grown hg (by simp [hl, hr])
  have hquiet : Call.settings (fun _ => none) calls = quiet := by
    funext t key
    exact Call.settings_of_not_set (hcalls key) _ t
  have hears := play_hears hcoherent hload hplay
  rw [hquiet] at hears
  obtain ⟨y, z, hy, hz, hyAt, hzAt⟩ := hears_sample hears hk
  refine ⟨y, z, hy, hz, ?_⟩
  obtain ⟨a, ha, hsame⟩ := muted_stream hi.left (fun _ _ _ _ _ => rfl) hyAt
  rw [hi.right] at hzAt
  exact sinkSample_of_gated hx hx' ha hsame hzAt

theorem sink_heard_shown :
    let sink : Node := ⟨"out", "output", none, .empty⟩
    let seen := (compileAll .builtin shownNodes shownEdges [0]).outlets
    LastTurn .builtin shownNodes shownEdges 2 sink seen ∧
      ∃ left right muted, SinkSignals shownEdges seen sink left right muted ∧
        ∃ rt out, Renderer.load ⟨48000.0, 512, 0, none, .empty, 0⟩ shownTarget.left
            shownTarget.right = .ok rt ∧
          rt.play [.process 1, .process 2] = .ok out ∧
          ∀ k < 3, ∃ y z, out.left[k]? = some y ∧ out.right[k]? = some z ∧
            SinkSample 48000.0 left right muted k y z := by
  intro sink seen
  have hturn : LastTurn .builtin shownNodes shownEdges 2 sink seen := by
    refine ⟨rfl, [0], [1], rfl, rfl, fun j hj m hm hid => ?_⟩
    rw [List.mem_singleton.1 hj] at hm
    cases hm
    exact absurd hid (by decide)
  have hcalls : ∀ key v, Call.setConst key v ∉ [Call.process 1, .process 2] := by simp
  obtain ⟨rt, hrt, out, hout⟩ : ∃ rt,
      Renderer.load ⟨48000.0, 512, 0, none, .empty, 0⟩ shownTarget.left shownTarget.right =
        .ok rt ∧ ∃ out, rt.play [.process 1, .process 2] = .ok out := ⟨_, rfl, _, rfl⟩
  obtain ⟨left, right, muted, hs, hsample⟩ :=
    sink_heard ⟨true, false⟩ shownNodes shownEdges shownTarget sink 2 seen rfl rfl hturn
  exact ⟨hturn, left, right, muted, hs, rt, out, hrt, hout, hsample _ rt _ out hcalls hrt hout⟩

/-- A sink with a number for its left side, and a node of another type behind it under its id. -/
def twinSink : Node := ⟨"out", "output", none, .ofList [("left", .number 0.5)]⟩

def twinNodes : List Node := [twinSink, ⟨"out", "gain", none, .empty⟩]

def twinTarget : RenderTarget :=
  (patch .builtin .bare twinNodes []).target.getD ⟨Renderer.silentRoot, Renderer.silentRoot⟩

/-- Nothing is heard of what the sink is given where its turn is not the last one of its id. -/
theorem sink_heard_twin :
    (patch .builtin .bare twinNodes []).target = some twinTarget ∧
      findSink? .builtin twinNodes = some twinSink ∧ Turn .builtin twinNodes [] 0 twinSink .empty ∧
      SinkSignals [] .empty twinSink (.literal 0.5) (.literal 0.0) (.literal 0.0) ∧
      ∃ rt out, Renderer.load ⟨48000.0, 512, 0, none, .empty, 0⟩ twinTarget.left twinTarget.right =
          .ok rt ∧
        rt.play [.process 1] = .ok out ∧ out.left[0]? = some (0.0 : Float32) ∧
        ∀ z, ¬ SinkSample 48000.0 (.literal 0.5) (.literal 0.0) (.literal 0.0) 0 0.0 z := by
  have hsignal (inlet : Inlet) (hi : inlet ∈ NodeType.output.info.inlets) :=
    Resolve.inputs_signal_of_mem (by decide) hi
      (@Resolve.inletSignal_of_none [] .empty twinSink inlet rfl)
  have hsignals : SinkSignals [] .empty twinSink (.literal 0.5) (.literal 0.0) (.literal 0.0) :=
    ⟨hsignal ⟨"left", 0.0⟩ (by simp [NodeType.output]),
      hsignal ⟨"right", 0.0⟩ (by simp [NodeType.output]),
      hsignal ⟨"muted", 0.0⟩ (by simp [NodeType.output])⟩
  obtain ⟨rt, hrt, out, hout, hleft⟩ :
      ∃ rt, Renderer.load ⟨48000.0, 512, 0, none, .empty, 0⟩ twinTarget.left twinTarget.right =
          .ok rt ∧
        ∃ out, rt.play [.process 1] = .ok out ∧ out.left[0]? = some (0.0 : Float32) :=
    ⟨_, rfl, _, rfl, rfl⟩
  refine ⟨rfl, rfl, ⟨rfl, [], [1], rfl, rfl⟩, hsignals, rt, out, hrt, hout, hleft, ?_⟩
  intro z h
  cases h with
  | muted value nonzero =>
    cases value
    exact absurd nonzero (by decide)
  | heard _ _ leftValue sameLeft =>
    cases leftValue
    exact absurd ((Single.same_iff _ _).1 sameLeft) (by decide)

end Compile

end Patchbay
