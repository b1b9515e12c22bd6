import Mathlib
import Patchbay.Proofs.Attained
import Patchbay.Proofs.Rebuild
import Patchbay.Proofs.VisitOrder

/-!
# Calls that fail

The calls of a renderer that may fail once more as they work on one renderer: the rate is taken over
before the program is rebuilt for it, and whatever has been changed when a call fails stays changed.
On a renderer in use they come to the same as the calls that give a new renderer. Loading is refused
for the first tap over no samples that a visit of the roots comes to, a rate if it is not finite and
positive, and a key if no constant under the loaded roots has it. What is refused might as well not
have been asked for.
-/

set_option autoImplicit false

namespace Patchbay

open Patchbay.Expr

variable {rate : Float32} {left right : Expr}

namespace Renderer

/-- A call that works on the renderer itself. -/
abbrev InPlace (α : Type) := ExceptT RenderError (StateM Renderer) α

namespace InPlace

/-- What is answered to a call, and the renderer it leaves behind. -/
def on {α : Type} (x : InPlace α) (r : Renderer) : Except RenderError α × Renderer :=
  (x.run.run r).run

section Laws

variable {α β : Type} {r : Renderer}

@[simp] theorem on_pure (a : α) : (pure a : InPlace α).on r = (.ok a, r) := rfl

@[simp] theorem on_get : (get : InPlace Renderer).on r = (.ok r, r) := rfl

@[simp] theorem on_modify (f : Renderer → Renderer) :
    (modify f : InPlace Unit).on r = (.ok (), f r) := rfl

@[simp] theorem on_ofExcept (x : Except RenderError α) :
    (MonadExcept.ofExcept x : InPlace α).on r = (x, r) := by
  cases x <;> rfl

@[simp] theorem on_bind (x : InPlace α) (f : α → InPlace β) :
    (x >>= f).on r =
      match x.on r with
      | (.ok a, r) => (f a).on r
      | (.error e, r) => (.error e, r) := by
  change (match x.on r with | (a, r') => InPlace.on (ExceptT.mk (ExceptT.bindCont f a)) r') = _
  rcases x.on r with ⟨e | a, r'⟩ <;> rfl

end Laws

def load (left right : Expr) : InPlace Unit := do
  let program ← MonadExcept.ofExcept (buildProgram left right (← get).sampleRate)
  modify fun r => { r with loaded := some ⟨left, right, program, []⟩ }
  modify fun r => { r with blockPos := 0 }
  modify fun r => { r with frames := 0 }

def setConst (key : String) (value : Float32) : InPlace Bool := do
  match (← get).loaded with
  | none => return false
  | some l =>
    match l.program.setConst? key value with
    | none => return false
    | some program =>
      modify fun r => { r with loaded := some { l with program := program } }
      modify fun r => { r with loaded := r.loaded.map fun l =>
        { l with overrides := override key value l.overrides } }
      return true

/-- The rate is there before the program that runs at it. -/
def setSampleRate (rate : Float32) : InPlace Unit := do
  MonadExcept.ofExcept (checkSampleRate rate)
  modify fun r => { r with sampleRate := rate }
  match (← get).loaded with
  | none => pure ()
  | some l =>
    let program ← MonadExcept.ofExcept (buildProgram l.leftRoot l.rightRoot rate)
    let program := l.overrides.foldl (fun p (key, value) => p.setConst key value) program
    modify fun r => { r with loaded := some { l with program := program } }
  modify fun r => { r with blockPos := 0 }

/-- A kernel that cannot run ends the session. -/
def answered {α : Type} (answer : α → Answer) :
    Except RenderError α × Renderer → Except KernelFault (Answer × Renderer)
  | (.ok a, r) => .ok (answer a, r)
  | (.error (.fault f), _) => .error f
  | (.error e, r) => .ok (.refused e, r)

def obey (r : Renderer) : Control → Except KernelFault (Answer × Renderer)
  | .load left right => answered (fun _ => .done) ((load left right).on r)
  | .setConst key value => answered .found ((setConst key value).on r)
  | .setSampleRate rate => answered (fun _ => .done) ((setSampleRate rate).on r)
  | c => r.obey c

def perform (r : Renderer) :
    List Control → Except KernelFault (List (Control × Answer) × Renderer)
  | [] => .ok ([], r)
  | c :: rest =>
    match obey r c with
    | .error f => .error f
    | .ok (a, r) => (perform r rest).map fun (log, r) => ((c, a) :: log, r)

theorem answered_load (r : Renderer) (left right : Expr) :
    answered (fun _ => .done) ((load left right).on r) = r.settle (r.load left right) := by
  simp only [load, on_bind, on_get, on_ofExcept, Renderer.load]
  cases buildProgram left right r.sampleRate with
  | error e => cases e <;> rfl
  | ok p => rfl

theorem answered_setConst (r : Renderer) (key : String) (value : Float32) :
    answered .found ((setConst key value).on r) = r.obey (.setConst key value) := by
  obtain ⟨sampleRate, blockSize, pos, loaded, bus, frames⟩ := r
  cases loaded with
  | none => rfl
  | some l =>
    simp only [setConst, on_bind, on_get, Renderer.obey, Renderer.setConst?, Option.bind_eq_bind,
      Option.bind_some]
    cases l.program.setConst? key value with
    | none => rfl
    | some p => rfl

theorem answered_setSampleRate {m : Memory} {r : Renderer} (h : Kept m r) (rate : Float32) :
    answered (fun _ => .done) ((setSampleRate rate).on r) = r.settle (r.setSampleRate rate) := by
  obtain ⟨sampleRate, blockSize, pos, loaded, bus, frames⟩ := r
  simp only [setSampleRate, on_bind, on_get, on_ofExcept, on_modify, Renderer.setSampleRate]
  cases checkSampleRate rate with
  | error e => cases e <;> rfl
  | ok _ =>
    cases loaded with
    | none => rfl
    | some l =>
      simp only [on_bind, on_ofExcept]
      obtain ⟨rate₀, p₀, hb₀⟩ := h.built _ _ rfl
      simp only [buildProgram]
      cases hb : Program.build l.leftRoot l.rightRoot rate with
      | ok p => rfl
      | error e =>
        -- the roots have been built before, so that the rate alone can be at fault
        obtain ⟨f, rfl⟩ := build_fault_of_ok hb₀ hb
        rfl

theorem obey_eq {m : Memory} {r : Renderer} (h : Kept m r) (c : Control) :
    obey r c = r.obey c := by
  cases c with
  | load left right => exact answered_load r left right
  | setConst key value => exact answered_setConst r key value
  | setSampleRate rate => exact answered_setSampleRate h rate
  | _ => rfl

theorem perform_eq (calls : List Control) {m : Memory} {r : Renderer} (h : Kept m r) :
    perform r calls = r.perform calls := by
  induction calls generalizing m r with
  | nil => rfl
  | cons c calls ih =>
    rw [perform, Renderer.perform, obey_eq h c]
    cases hc : r.obey c with
    | error f => rfl
    | ok result => simp only [ih (obey_kept h hc)]

end InPlace

/-! ## When a call fails -/

theorem settle_refused_iff {r : Renderer} {x : Except RenderError Renderer} {e : RenderError} :
    (∃ r', r.settle x = .ok (.refused e, r')) ↔ x = .error e ∧ ∀ f, e ≠ .fault f := by
  cases x with
  | ok r' => simp [settle]
  | error e' =>
    cases e' with
    | fault f => simp +contextual [settle, eq_comm]
    | invalidSampleRate rate => simp +contextual [settle, eq_comm]
    | emptyWindow tag => simp +contextual [settle, eq_comm]

theorem settle_error_iff {r : Renderer} {x : Except RenderError Renderer} {f : KernelFault} :
    r.settle x = .error f ↔ x = .error (.fault f) := by
  cases x with
  | ok r' => simp [settle]
  | error e' => cases e' <;> simp [settle]

theorem load_error_iff (shared : Coherent (under [left, right])) (r : Renderer) (e : RenderError) :
    r.load left right = .error e ↔ ∃ n, Reached r.sampleRate [left, right] n ∧
      ((∃ tag, n.hollow? = some tag ∧ e = .emptyWindow tag) ∨
        ∃ f, n.fault? r.sampleRate = some f ∧ e = .fault f) := by
  simp only [load_eq_error_iff, build_error_iff shared, failure?_eq_some_iff, obstacle?_eq_some_iff]
  constructor
  · rintro ⟨err, ⟨n, hn, ⟨tag, htag, rfl⟩ | ⟨f, hf, rfl⟩⟩, rfl⟩
    · exact ⟨n, hn, .inl ⟨tag, htag, rfl⟩⟩
    · exact ⟨n, hn, .inr ⟨f, hf, rfl⟩⟩
  · rintro ⟨n, hn, ⟨tag, htag, rfl⟩ | ⟨f, hf, rfl⟩⟩
    · exact ⟨.emptyWindow tag, ⟨n, hn, .inl ⟨tag, htag, rfl⟩⟩, rfl⟩
    · exact ⟨.fault f, ⟨n, hn, .inr ⟨f, hf, rfl⟩⟩, rfl⟩

theorem setSampleRate_refused_iff {m : Memory} {r : Renderer} (h : Kept m r) (rate : Float32)
    (e : RenderError) :
    (∃ r', r.settle (r.setSampleRate rate) = .ok (.refused e, r')) ↔
      e = .invalidSampleRate rate ∧ ¬(rate.isFinite = true ∧ (0.0 : Float32) < rate) := by
  rw [settle_refused_iff]
  constructor
  · rintro ⟨herror, hfault⟩
    rcases h.setSampleRate_error herror with ⟨rfl, hrate⟩ | ⟨f, rfl⟩
    · refine ⟨rfl, fun hok => ?_⟩
      rw [checkSampleRate, if_pos (by simpa using hok)] at hrate
      cases hrate
    · exact absurd rfl (hfault f)
  · rintro ⟨rfl, hrate⟩
    have hcheck : checkSampleRate rate = .error (.invalidSampleRate rate) := by
      rw [checkSampleRate, if_neg (by simpa using hrate)]
    refine ⟨?_, fun f => by simp⟩
    rw [setSampleRate, hcheck]
    rfl

/-- The keys of a program are those of the constants under its roots. -/
def Keyed (r : Renderer) : Prop :=
  ∀ l, r.loaded = some l →
    l.program.constants = Program.keyedSlots (nodesOf [l.leftRoot, l.rightRoot])

theorem setConst_constants (p : Program) (key : String) (value : Float32) :
    (p.setConst key value).constants = p.constants := by
  rw [Program.setConst_eq]

theorem build_constants {p : Program} (h : Program.build left right rate = .ok p) :
    p.constants = Program.keyedSlots (nodesOf [left, right]) := by
  obtain ⟨cells, -, rfl⟩ := (build_eq_ok_iff p).1 h
  rfl

theorem attained_constants {p : Program} (h : Attained left right p) :
    p.constants = Program.keyedSlots (nodesOf [left, right]) := by
  induction h with
  | build built => exact build_constants built
  | setConst before key value ih => rw [setConst_constants, ih]
  | frame before stepped ih => exact ih
  | endBlock before ih => exact ih
  | reset before ih => exact ih

theorem Grown.keyed {r : Renderer} (h : r.Grown) : Keyed r := fun l hl =>
  attained_constants (h l hl)

theorem setConst?_eq_none_iff (p : Program) (key : String) (value : Float32) :
    p.setConst? key value = none ↔ key ∉ p.constants.map Prod.fst := by
  have hslots : p.slotsOf key = [] ↔ key ∉ p.constants.map Prod.fst := by
    simp only [Program.slotsOf, List.map_eq_nil_iff, List.filter_eq_nil_iff, decide_eq_true_eq,
      List.mem_map, not_exists, not_and]
  rw [← hslots, Program.setConst?]
  cases p.slotsOf key <;> simp

theorem mem_keys_iff (nodes : List Expr) (key : String) :
    key ∈ (Program.keyedSlots nodes).map Prod.fst ↔
      ∃ n ∈ nodes, ∃ v, n.op = .const v ∧ n.key = some key := by
  have hkey (n : Expr) :
      Program.constKey? n = some key ↔ ∃ v, n.op = .const v ∧ n.key = some key := by
    rw [Program.constKey?]
    split <;> simp_all
  simp only [Program.keyedSlots, ← hkey, List.mem_map, List.mem_filterMap, Option.map_eq_some_iff]
  constructor
  · rintro ⟨-, ⟨n, hn, key', hk, rfl⟩, rfl⟩
    exact ⟨n, hn, hk⟩
  · rintro ⟨n, hn, hk⟩
    exact ⟨_, ⟨n, hn, key, hk, rfl⟩, rfl⟩

theorem found_false_iff {m : Memory} {r : Renderer} (h : Kept m r) (keyed : Keyed r)
    (shared : ∀ left right, m.roots = some (left, right) → Coherent (under [left, right]))
    (key : String) (value : Float32) :
    (∃ r', r.obey (.setConst key value) = .ok (.found false, r')) ↔
      ∀ left right, m.roots = some (left, right) →
        ¬∃ n ∈ under [left, right], ∃ v, n.op = .const v ∧ n.key = some key := by
  obtain ⟨-, -, -, overrides, hasked, -, -⟩ := h
  have hnone : (∃ r', r.obey (.setConst key value) = .ok (.found false, r')) ↔
      r.setConst? key value = none := by
    rw [obey]
    cases r.setConst? key value <;> simp
  rw [hnone, setConst?]
  cases hl : r.loaded with
  | none =>
    rw [asked, hl, Option.map_none, eq_comm, Option.map_eq_none_iff] at hasked
    simp [hasked]
  | some l =>
    rw [asked, hl, Option.map_some, eq_comm, Option.map_eq_some_iff] at hasked
    obtain ⟨roots, hroots, heq⟩ := hasked
    rw [Prod.mk.injEq] at heq
    obtain ⟨rfl, -⟩ := heq
    have hconst : l.program.setConst? key value = none ↔
        ¬∃ n ∈ under [l.leftRoot, l.rightRoot], ∃ v, n.op = .const v ∧ n.key = some key := by
      simp only [setConst?_eq_none_iff, keyed l hl, mem_keys_iff, mem_nodesOf _ (shared _ _ hroots)]
    rw [Option.bind_eq_bind, Option.bind_some]
    constructor
    · rintro hset left right hlr
      cases hroots.symm.trans hlr
      refine hconst.1 ?_
      cases hp : l.program.setConst? key value with
      | none => rfl
      | some p =>
        rw [hp] at hset
        cases hset
    · intro hall
      rw [hconst.2 (hall _ _ hroots)]
      rfl

end Renderer

/-- A call that fails. -/
def Answer.failed : Answer → Bool
  | .refused _ => true
  | .found known => !known
  | _ => false

/-- The entries of a log that are left when the calls that failed are struck out. -/
def effective (log : List (Control × Answer)) : List (Control × Answer) :=
  log.filter fun entry => !entry.2.failed

namespace Renderer

theorem obey_of_failed {r r' : Renderer} {c : Control} {a : Answer}
    (hc : r.obey c = .ok (a, r')) (h : a.failed = true) : r' = r := by
  cases c with
  | load left right =>
    obtain ⟨rfl, -⟩ | ⟨-, rfl⟩ := settle_eq hc
    · cases h
    · rfl
  | setConst key value =>
    rw [obey] at hc
    split at hc
    · cases hc
      cases h
    · cases hc
      rfl
  | setSampleRate rate =>
    obtain ⟨rfl, -⟩ | ⟨-, rfl⟩ := settle_eq hc
    · cases h
    · rfl
  | process n =>
    obtain ⟨result, -, heq⟩ := map_eq_ok hc
    cases heq
    cases h
  | processBlock left right =>
    obtain ⟨result, -, heq⟩ := map_eq_ok hc
    cases heq
    cases h
  | _ =>
    cases hc
    cases h

/-- Calls that fail can be struck out of a session. -/
theorem perform_effective (calls : List Control) {r r' : Renderer} {log : List (Control × Answer)}
    (hp : r.perform calls = .ok (log, r')) :
    r.perform ((effective log).map Prod.fst) = .ok (effective log, r') := by
  induction calls generalizing r log with
  | nil =>
    cases hp
    rfl
  | cons c calls ih =>
    obtain ⟨a, next, rest, hc, hrest, rfl⟩ := perform_cons_eq hp
    have hlater := ih hrest
    cases hfailed : a.failed with
    | true =>
      rw [obey_of_failed hc hfailed] at hlater
      rwa [effective, List.filter_cons_of_neg (by simp [hfailed])]
    | false =>
      rw [effective, List.filter_cons_of_pos (by simp [hfailed]), List.map_cons, perform, hc]
      rw [effective] at hlater
      simp only [hlater]
      rfl

theorem load_refused_iff (shared : Coherent (under [left, right])) (r : Renderer)
    (e : RenderError) :
    (∃ r', r.settle (r.load left right) = .ok (.refused e, r')) ↔
      ∃ n tag, Reached r.sampleRate [left, right] n ∧ n.hollow? = some tag ∧
        e = .emptyWindow tag := by
  rw [settle_refused_iff, load_error_iff shared]
  constructor
  · rintro ⟨⟨n, hn, ⟨tag, htag, rfl⟩ | ⟨f, -, rfl⟩⟩, hfault⟩
    · exact ⟨n, tag, hn, htag, rfl⟩
    · exact absurd rfl (hfault f)
  · rintro ⟨n, tag, hn, htag, rfl⟩
    exact ⟨⟨n, hn, .inl ⟨tag, htag, rfl⟩⟩, fun f => by simp⟩

theorem load_fault_iff (shared : Coherent (under [left, right])) (r : Renderer) (f : KernelFault) :
    r.settle (r.load left right) = .error f ↔
      ∃ n, Reached r.sampleRate [left, right] n ∧ n.fault? r.sampleRate = some f := by
  rw [settle_error_iff, load_error_iff shared]
  constructor
  · rintro ⟨n, hn, ⟨tag, -, hf⟩ | ⟨f', hfault, hf⟩⟩
    · cases hf
    · cases hf
      exact ⟨n, hn, hfault⟩
  · rintro ⟨n, hn, hfault⟩
    exact ⟨n, hn, .inr ⟨f, hfault, rfl⟩⟩

/-- Where no node asks for too much memory every tap over no samples is an obstacle. -/
theorem exists_reached_iff {roots : List Expr} (h : ∀ n ∈ under roots, n.fault? rate = none) :
    (∃ n tag, Reached rate roots n ∧ n.hollow? = some tag) ↔
      ∃ n ∈ under roots, ∃ tag, n.hollow? = some tag := by
  constructor
  · rintro ⟨n, tag, hn, htag⟩
    exact ⟨n, hn.mem_under, tag, htag⟩
  · rintro ⟨n, hn, tag, htag⟩
    have hstuck : n.obstacle? rate = some (.emptyWindow tag) :=
      obstacle?_eq_some_iff.2 (.inl ⟨tag, htag, rfl⟩)
    obtain ⟨first, err, hfirst, herr⟩ := exists_reached hn (by rw [hstuck]; exact nofun)
    rcases obstacle?_eq_some_iff.1 herr with ⟨tag, htag, -⟩ | ⟨f, hf, -⟩
    · exact ⟨first, tag, hfirst, htag⟩
    · rw [h first hfirst.mem_under] at hf
      cases hf

end Renderer

open Renderer in
/-- A call in place fails exactly if it has to, and then leaves the renderer as it was; so whatever
fails in a session can be struck out of it, and nothing else that is answered, heard or reported
changes. To load is refused if a visit of the roots, the left one first, comes to a tap over no
samples, and the first such tap is named, unless a node is met before that asks for more memory than
there can be, which ends the session. A rate is refused if it is not finite and positive. A key is
not found if no constant under the loaded roots has it. -/
theorem failing_calls {start r : Renderer} (new : Renderer.new rate = .ok start)
    (history : List Control) {log : List (Control × Answer)}
    (performed : InPlace.perform start history = .ok (log, r))
    (shared : ∀ left right, (Memory.ofLog log).roots = some (left, right) →
      Coherent (under [left, right])) :
    (∀ calls, InPlace.perform r calls = r.perform calls) ∧
    (∀ left right, Coherent (under [left, right]) →
      (∀ e, (∃ r', InPlace.obey r (.load left right) = .ok (.refused e, r')) ↔
        ∃ n tag, Reached r.sampleRate [left, right] n ∧ n.hollow? = some tag ∧
          e = .emptyWindow tag) ∧
      (∀ f, InPlace.obey r (.load left right) = .error f ↔
        ∃ n, Reached r.sampleRate [left, right] n ∧ n.fault? r.sampleRate = some f) ∧
      ((∀ n ∈ under [left, right], n.fault? r.sampleRate = none) →
        ((∃ e r', InPlace.obey r (.load left right) = .ok (.refused e, r')) ↔
          ∃ n ∈ under [left, right], ∃ tag, n.hollow? = some tag))) ∧
    (∀ rate' e, (∃ r', InPlace.obey r (.setSampleRate rate') = .ok (.refused e, r')) ↔
      e = .invalidSampleRate rate' ∧ ¬(rate'.isFinite = true ∧ (0.0 : Float32) < rate')) ∧
    (∀ key value, (∃ r', InPlace.obey r (.setConst key value) = .ok (.found false, r')) ↔
      ∀ left right, (Memory.ofLog log).roots = some (left, right) →
        ¬∃ n ∈ under [left, right], ∃ v, n.op = .const v ∧ n.key = some key) ∧
    (∀ call answer r', InPlace.obey r call = .ok (answer, r') → answer.failed = true → r' = r ∧
      ∀ later, InPlace.perform r (call :: later) =
        (InPlace.perform r later).map fun (log, r) => ((call, answer) :: log, r)) ∧
    InPlace.perform start ((effective log).map Prod.fst) = .ok (effective log, r) := by
  have hstart := new_kept new
  rw [InPlace.perform_eq history hstart] at performed
  have hkept : Kept (Memory.ofLog log) r := perform_kept history hstart performed
  have hkeyed := (perform_grown history (new_grown new) performed).keyed
  have hload (left right : Expr) :
      InPlace.obey r (.load left right) = r.settle (r.load left right) := InPlace.obey_eq hkept _
  refine ⟨fun calls => InPlace.perform_eq calls hkept,
    fun left right hlr => ⟨fun e => ?_, fun f => ?_, fun hsized => ?_⟩, fun rate' e => ?_,
    fun key value => ?_, fun call answer r' hcall hfailed => ?_, ?_⟩
  · rw [hload, load_refused_iff hlr]
  · rw [hload, load_fault_iff hlr]
  · rw [← exists_reached_iff hsized]
    simp only [hload, load_refused_iff hlr]
    constructor
    · rintro ⟨e, n, tag, hn, htag, -⟩
      exact ⟨n, tag, hn, htag⟩
    · rintro ⟨n, tag, hn, htag⟩
      exact ⟨_, n, tag, hn, htag, rfl⟩
  · rw [InPlace.obey_eq hkept]
    exact setSampleRate_refused_iff hkept rate' e
  · rw [InPlace.obey_eq hkept]
    exact found_false_iff hkept hkeyed shared key value
  · obtain rfl := obey_of_failed ((InPlace.obey_eq hkept call).symm.trans hcall) hfailed
    refine ⟨rfl, fun later => ?_⟩
    rw [InPlace.perform, hcall]
  · rw [InPlace.perform_eq _ hstart]
    exact perform_effective history performed

/-- A scope over no samples, where no argument of the meter above it is looked for. -/
def unread : Expr :=
  .node ⟨.free, 3⟩ (.tap (.meter "m")) none
    [dial, .node ⟨.free, 2⟩ (.tap (.scope "s" 0)) none [dial]]

theorem coherent_unread : Coherent (under [swell, unread]) :=
  coherent_of_subset [dial, swell, .node ⟨.free, 2⟩ (.tap (.scope "s" 0)) none [dial], unread]
    (by decide) (by simp [partsAll, parts, dial, swell, unread])

open Renderer in
theorem failing_calls_unread : ∃ (start r : Renderer) (log : List (Control × Answer)),
    Renderer.new 48000.0 = .ok start ∧
    InPlace.perform start [.load dial swell, .load swell unread, .setSampleRate 0.0,
      .setConst "knob" 0.5, .setConst "dial" 0.5, .process 1] = .ok (log, r) ∧
    log.map (fun entry => entry.2.failed) = [false, true, true, true, false, false] ∧
    (∃ r', InPlace.obey r (.load swell unread) =
      .ok (.refused (.emptyWindow ⟨.scope, "s"⟩), r')) ∧
    (∃ r', InPlace.obey r (.setSampleRate 0.0) = .ok (.refused (.invalidSampleRate 0.0), r')) ∧
    (∃ r', InPlace.obey r (.setConst "knob" 0.5) = .ok (.found false, r')) ∧
    InPlace.perform start [.load dial swell, .setConst "dial" 0.5, .process 1] =
      .ok (effective log, r) := by
  have hnew : Renderer.new 48000.0 = .ok _ := rfl
  have hshared : ∀ left right, some (dial, swell) = some (left, right) →
      Coherent (under [left, right]) := by
    rintro left right ⟨⟩
    exact coherent_swell
  obtain ⟨-, hload, hrate, hkey, -, heffective⟩ := failing_calls hnew [.load dial swell,
    .load swell unread, .setSampleRate 0.0, .setConst "knob" 0.5, .setConst "dial" 0.5, .process 1]
    rfl hshared
  refine ⟨_, _, _, hnew, rfl, rfl, ?_, ?_, ?_, heffective⟩
  · refine ((hload swell unread coherent_unread).1 _).2
      ⟨.node ⟨.free, 2⟩ (.tap (.scope "s" 0)) none [dial], ⟨.scope, "s"⟩, ?_, rfl, rfl⟩
    refine ⟨[dial, dial, dial, dial, dial, swell, dial, dial], [unread], rfl, fun f hf => ?_⟩
    obtain rfl | rfl | rfl : f = dial ∨ f = swell ∨ f = dial := by simpa using hf
    all_goals exact ⟨rfl, rfl⟩
  · exact (hrate 0.0 _).2 ⟨rfl, by decide⟩
  · refine (hkey "knob" 0.5).2 ?_
    rintro left right ⟨⟩ ⟨n, hn, v, -, hkey⟩
    have hknob : ∀ n ∈ partsAll [dial, swell], n.key ≠ some "knob" := by decide
    exact hknob n hn hkey

/-- A delay line of a length beyond counting. -/
def bottomless : Expr := .node ⟨.free, 1⟩ (.delay 1e30) none [dial, dial, dial]

def beneath : Expr := .node ⟨.free, 2⟩ (.tap (.scope "s" 0)) none [bottomless]

theorem coherent_beneath : Coherent (under [beneath, beneath]) :=
  coherent_of_subset [dial, bottomless, beneath] (by decide)
    (by simp [partsAll, parts, dial, bottomless, beneath])

open Renderer in
/-- A tap over no samples is not named if a visit comes to such a delay line before. -/
theorem load_beneath : ∃ start : Renderer, Renderer.new 48000.0 = .ok start ∧
    (∃ n ∈ under [beneath, beneath], n.hollow? = some ⟨.scope, "s"⟩) ∧
    ¬∃ e r', InPlace.obey start (.load beneath beneath) = .ok (.refused e, r') := by
  obtain ⟨start, hnew, hrate⟩ : ∃ start : Renderer,
    Renderer.new 48000.0 = .ok start ∧ start.sampleRate = 48000.0 := ⟨_, rfl, rfl⟩
  have hreached : Reached 48000.0 [beneath, beneath] bottomless := by
    refine ⟨[dial, dial, dial], [beneath, dial, dial, dial, bottomless, beneath], rfl,
      fun f hf => ?_⟩
    obtain rfl : f = dial := by simpa using hf
    exact ⟨rfl, rfl⟩
  have hend : bottomless.fault? 48000.0 = some .emptyDelayLine := by
    rw [fault?, bottomless]
    exact if_pos (by decide +kernel)
  rw [← hrate] at hreached hend
  refine ⟨start, hnew, ⟨beneath, by simp [under, partsAll, parts, beneath], rfl⟩, ?_⟩
  rintro ⟨e, r', h⟩
  rw [InPlace.obey, InPlace.answered_load,
    (load_fault_iff coherent_beneath start _).2 ⟨bottomless, hreached, hend⟩] at h
  cases h

end Patchbay
