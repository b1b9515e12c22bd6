import Mathlib
import Patchbay.Preset.Basic
import Patchbay.Proofs.Fallible
import Patchbay.Proofs.FiniteDouble
import Patchbay.Proofs.Table

/-!
# Numbers of a preset

What a text can say about a number is bounded: every double of a value that was read is finite, and
so is every number of a preset that was decoded from it.
-/

set_option autoImplicit false

namespace Patchbay

open Rounding

namespace JsonNumber

def IsFinite : JsonNumber → Prop
  | .double x => x.isFinite = true
  | _ => True

end JsonNumber

namespace Json

theorem Significand.isFinite_toDouble? {s : Significand} {x : Float} (h : s.toDouble? = some x) :
    x.isFinite = true := by
  have hword := below_toFloat s.value.toUInt64
  rw [toDouble?] at h
  split at h
  · cases h
    exact isFinite_scaleDown (by decide) 4 (by decide) hword _
  · split at h
    · cases h
      exact isFinite_of_below hword
    · split at h
      · cases h
      · dsimp only at h
        split at h
        · next hfinite =>
          cases h
          exact hfinite
        · cases h

end Json

namespace JsonNumber

theorem isFinite_ofDouble? (negative : Bool) {x : Option Float}
    (h : ∀ y, x = some y → y.isFinite = true) : (ofDouble? negative x).IsFinite := by
  cases x with
  | none => trivial
  | some y =>
    cases negative with
    | false => exact h y rfl
    | true => exact isFinite_neg (h y rfl)

theorem isFinite_ofSignificand (negative : Bool) (s : Json.Significand) :
    (ofSignificand negative s).IsFinite := by
  have hword := isFinite_of_below (below_toFloat s.value.toUInt64)
  rw [ofSignificand]
  split
  · exact isFinite_ofDouble? negative fun y hy => Json.Significand.isFinite_toDouble? hy
  · split
    · split
      · exact isFinite_neg hword
      · trivial
    · trivial

theorem isFinite_ofScientific (negative : Bool) (s : Json.Significand) (down : Bool) (k : Nat) :
    (ofScientific negative s down k).IsFinite := by
  rw [ofScientific]
  split
  · split
    · trivial
    · refine isFinite_ofDouble? negative fun y hy => ?_
      cases hy
      rfl
  · exact isFinite_ofDouble? negative fun y hy => Json.Significand.isFinite_toDouble? hy

end JsonNumber

namespace Json

/-! ## Values -/

mutual

/-- Every double of the value is finite. -/
def IsFinite : Json → Prop
  | number n => n.IsFinite
  | array items => FiniteItems items
  | object members => FiniteMembers members
  | _ => True

def FiniteItems : JsonItems → Prop
  | .done _ => True
  | .item v rest => IsFinite v ∧ FiniteItems rest

def FiniteMembers : JsonMembers → Prop
  | .done _ => True
  | .member _ v rest => IsFinite v ∧ FiniteMembers rest

end

theorem isFinite_brokenNumber (cs : List Char) : IsFinite (brokenNumber cs).1 := by
  rw [brokenNumber]
  trivial

theorem isFinite_readExponent (negative : Bool) (s : Significand) (cs : List Char) :
    IsFinite (readExponent negative s cs).1 := by
  rw [readExponent.eq_def]
  split
  dsimp only
  split
  · exact isFinite_brokenNumber _
  · exact JsonNumber.isFinite_ofScientific _ _ _ _

theorem isFinite_readFraction (negative : Bool) (s : Significand) (cs : List Char) :
    IsFinite (readFraction negative s cs).1 := by
  rw [readFraction.eq_def]
  dsimp only
  split
  · split
    · exact isFinite_brokenNumber _
    · split
      · exact isFinite_readExponent _ _ _
      · exact isFinite_readExponent _ _ _
      · exact JsonNumber.isFinite_ofDouble? _ fun y hy => Significand.isFinite_toDouble? hy
  · exact isFinite_readExponent _ _ _
  · exact isFinite_readExponent _ _ _
  · exact JsonNumber.isFinite_ofSignificand _ _

theorem isFinite_readNumber (negative : Bool) (cs : List Char) :
    IsFinite (readNumber negative cs).1 := by
  rw [readNumber]
  split
  · exact isFinite_brokenNumber _
  · trivial
  · exact isFinite_readFraction _ _ _

theorem isFinite_readWord {v : Json} (h : IsFinite v) (word cs : List Char) :
    IsFinite (readWord v word cs).1 := by
  induction word generalizing cs with
  | nil => exact h
  | cons w ws ih =>
    cases cs with
    | nil => trivial
    | cons c rest =>
      rw [readWord]
      split
      · exact ih rest
      · trivial

/-- All the readers, by what one unit of fuel less reads. -/
theorem finite_read (fuel : Nat) :
    (∀ cs, IsFinite (readValue fuel cs).1) ∧ (∀ cs, FiniteItems (readItems fuel cs).1) ∧
    (∀ cs, FiniteItems (readMoreItems fuel cs).1) ∧ (∀ cs, FiniteMembers (readMembers fuel cs).1) ∧
    (∀ cs, FiniteMembers (readMoreMembers fuel cs).1) ∧
    ∀ cs, FiniteMembers (readMember fuel cs).1 := by
  induction fuel with
  | zero => exact ⟨fun _ => trivial, fun _ => trivial, fun _ => trivial, fun _ => trivial,
      fun _ => trivial, fun _ => trivial⟩
  | succ fuel ih =>
    obtain ⟨hvalue, hitems, hmore, hmembers, hmoreMembers, hmember⟩ := ih
    refine ⟨fun cs => ?_, fun cs => ?_, fun cs => ?_, fun cs => ?_, fun cs => ?_, fun cs => ?_⟩
    · rw [readValue.eq_def]
      dsimp only
      split
      · trivial
      · trivial
      · exact hitems _
      · exact hmembers _
      · exact isFinite_readWord (v := null) trivial _ _
      · exact isFinite_readWord (v := bool true) trivial _ _
      · exact isFinite_readWord (v := bool false) trivial _ _
      · exact isFinite_readNumber _ _
      · split
        · exact isFinite_readNumber _ _
        · trivial
    · rw [readItems.eq_def]
      dsimp only
      split
      · trivial
      · trivial
      · exact ⟨hvalue _, hmore _⟩
    · rw [readMoreItems.eq_def]
      dsimp only
      split
      · trivial
      · trivial
      · exact ⟨hvalue _, hmore _⟩
      · trivial
    · rw [readMembers.eq_def]
      dsimp only
      split
      · trivial
      · exact hmember _
    · rw [readMoreMembers.eq_def]
      dsimp only
      split
      · trivial
      · trivial
      · exact hmember _
      · trivial
    · rw [readMember.eq_def]
      split
      · trivial
      · trivial
      · next heq =>
        cases heq
        dsimp only
        split
        · exact ⟨trivial, trivial⟩
        · exact ⟨hvalue _, hmoreMembers _⟩
        · exact ⟨trivial, trivial⟩
      · trivial

theorem isFinite_read (text : String) : IsFinite (read text).1 :=
  (finite_read (3 * text.toList.length + 3)).1 text.toList

/-! ## Decoding -/

/-- What the decoder makes of a value with finite numbers has a property. -/
def Yields {α : Type} (decode : Json → Decoded α) (P : α → Prop) : Prop :=
  ∀ j x, j.IsFinite → decode j = .ok x → P x

theorem yields_true {α : Type} (decode : Json → Decoded α) : Yields decode fun _ => True :=
  fun _ _ _ _ => trivial

theorem wrongType_ne_ok {α : Type} (expected : String) (j : Json) (x : α) :
    wrongType expected j ≠ .ok x := by
  rw [wrongType.eq_def]
  split <;> exact fun h => nomatch h

theorem isFinite_toDouble? {n : JsonNumber} (hn : n.IsFinite) {x : Float}
    (h : toDouble? n = some x) : x.isFinite = true := by
  cases n with
  | natural n =>
    cases h
    exact isFinite_of_below (below_toFloat _)
  | negative n =>
    cases h
    exact isFinite_neg (isFinite_of_below (below_toFloat _))
  | double x =>
    cases h
    exact hn
  | tooLarge => cases h

theorem yields_double : Yields double fun x => x.isFinite = true := by
  intro j x hj h
  rw [double.eq_def] at h
  split at h
  · split at h
    · next hx =>
      cases h
      exact isFinite_toDouble? hj hx
    · cases h
  · exact absurd h (wrongType_ne_ok _ _ _)

variable {α : Type} {decode : Json → Decoded α} {P : α → Prop}

theorem Yields.optional (hd : Yields decode P) :
    Yields (Json.optional decode) fun x => ∀ y, x = some y → P y := by
  intro j x hj h y hy
  rw [Json.optional.eq_def] at h
  split at h
  · cases h
    cases hy
  · obtain ⟨z, hz, h⟩ := map_eq_ok h
    cases h
    cases hy
    exact hd j y hj hz

theorem Yields.listItems (hd : Yields decode P) : (items : JsonItems) → FiniteItems items →
    ∀ xs, Json.listItems decode items = .ok xs → ∀ x ∈ xs, P x
  | .done none, _, xs, h => by
    cases h
    simp
  | .done (some f), _, xs, h => nomatch h
  | .item v rest, hitems, xs, h => by
    rw [Json.listItems] at h
    obtain ⟨x, hx, h⟩ := ok_of_bind h
    obtain ⟨ys, hys, h⟩ := ok_of_bind h
    cases h
    have ih := Yields.listItems hd rest hitems.2 ys hys
    exact List.forall_mem_cons.2 ⟨hd v x hitems.1 hx, ih⟩

theorem Yields.list (hd : Yields decode P) : Yields (Json.list decode) fun xs => ∀ x ∈ xs, P x := by
  intro j xs hj h
  rw [Json.list.eq_def] at h
  split at h
  · exact Yields.listItems hd _ hj xs h
  · exact absurd h (wrongType_ne_ok _ _ _)

theorem Yields.mapMembers (hd : Yields decode P) : (members : JsonMembers) →
    FiniteMembers members → ∀ es, Json.mapMembers decode members = .ok es → ∀ e ∈ es, P e.2
  | .done none, _, es, h => by
    cases h
    simp
  | .done (some f), _, es, h => nomatch h
  | .member k v rest, hmembers, es, h => by
    rw [Json.mapMembers] at h
    obtain ⟨name, -, h⟩ := ok_of_bind h
    obtain ⟨x, hx, h⟩ := ok_of_bind h
    obtain ⟨fs, hfs, h⟩ := ok_of_bind h
    cases h
    have ih := Yields.mapMembers hd rest hmembers.2 fs hfs
    exact List.forall_mem_cons.2 ⟨hd v x hmembers.1 hx, ih⟩

theorem Yields.map (hd : Yields decode P) : Yields (Json.map decode) fun es => ∀ e ∈ es, P e.2 := by
  intro j es hj h
  rw [Json.map.eq_def] at h
  split at h
  · exact Yields.mapMembers hd _ hj es h
  · exact absurd h (wrongType_ne_ok _ _ _)

/-! ## Records -/

section Records

variable {σ : Type} {I : σ → Prop} {fields : List (FieldReader σ)}

/-- Reading the field keeps what is known of the fields read so far. -/
def Keeps (I : σ → Prop) (f : FieldReader σ) : Prop := ∀ s, I s → Yields (fun j => f.decode j s) I

theorem keeps_of {name : String} {get : σ → Option α} {set : σ → α → σ} (hd : Yields decode P)
    (hset : ∀ s x, I s → P x → I (set s x)) : Keeps I (FieldReader.of name get set decode) := by
  intro s hs j s' hj h
  obtain ⟨x, hx, rfl⟩ := map_eq_ok h
  exact hset s x hs (hd j x hj hx)

theorem recordMembers_keeps (hfields : ∀ f ∈ fields, Keeps I f) : (members : JsonMembers) →
    FiniteMembers members → ∀ s s', I s → recordMembers fields members s = .ok s' → I s'
  | .done none, _, s, s', hs, h => by
    cases h
    exact hs
  | .done (some f), _, s, s', _, h => nomatch h
  | .member k v rest, hmembers, s, s', hs, h => by
    rw [recordMembers] at h
    obtain ⟨name, -, h⟩ := ok_of_bind h
    split at h
    · next f hfind =>
      split at h
      · cases h
      · obtain ⟨t, ht, h⟩ := ok_of_bind h
        have hf := hfields f (List.mem_of_find?_eq_some hfind)
        exact recordMembers_keeps hfields rest hmembers.2 t s' (hf s hs v t hmembers.1 ht) h
    · obtain ⟨-, -, h⟩ := ok_of_bind h
      exact recordMembers_keeps hfields rest hmembers.2 s s' hs h

theorem recordItems_keeps : (fields : List (FieldReader σ)) → (∀ f ∈ fields, Keeps I f) →
    (items : JsonItems) → FiniteItems items →
    ∀ s s', I s → recordItems fields items s = .ok s' → I s'
  | fields, _, .done none, _, s, s', hs, h => by
    rw [recordItems] at h
    cases h
    exact hs
  | fields, _, .done (some f), _, s, s', _, h => by
    rw [recordItems] at h
    cases h
  | [], _, .item v rest, _, s, s', _, h => nomatch h
  | f :: fields, hfields, .item v rest, hitems, s, s', hs, h => by
    rw [recordItems] at h
    obtain ⟨t, ht, h⟩ := ok_of_bind h
    obtain ⟨hf, hrest⟩ := List.forall_mem_cons.1 hfields
    exact recordItems_keeps fields hrest rest hitems.2 t s' (hf s hs v t hitems.1 ht) h

theorem yields_record {name : String} {init : σ}
    {finish : (String → JsonMismatch) → σ → Except JsonMismatch α}
    (hfields : ∀ f ∈ fields, Keeps I f) (hinit : I init)
    (hfinish : ∀ missing s x, I s → finish missing s = .ok x → P x) :
    Yields (record name fields init finish) P := by
  intro j x hj h
  rw [record.eq_def] at h
  dsimp only at h
  split at h
  · obtain ⟨s, hs, h⟩ := ok_of_bind h
    have hI := recordMembers_keeps hfields _ hj _ _ hinit hs
    split at h
    · next hx =>
      cases h
      exact hfinish _ s x hI hx
    · cases h
  · obtain ⟨s, hs, h⟩ := ok_of_bind h
    have hI := recordItems_keeps _ hfields _ hj _ _ hinit hs
    split at h
    · next hx =>
      cases h
      exact hfinish _ s x hI hx
    · cases h
  · exact absurd h (wrongType_ne_ok _ _ _)

end Records

end Json

/-! ## Documents -/

def Param.numbers : Param → List Float
  | number x => [x]
  | list xs => xs
  | _ => []

def Position.numbers (p : Position) : List Float := [p.x, p.y]

def NodeData.numbers (d : NodeData) : List Float := d.entries.flatMap fun e => e.2.numbers

def Node.numbers (n : Node) : List Float :=
  n.position.toList.flatMap Position.numbers ++ n.data.numbers

def Preset.numbers (p : Preset) : List Float := p.nodes.flatMap Node.numbers

open Json (Yields FieldReader keeps_of)

theorem Param.isFinite_itemNumbers? : (items : JsonItems) → Json.FiniteItems items →
    ∀ xs, itemNumbers? items = some xs → ∀ x ∈ xs, x.isFinite = true
  | .done _, _, xs, h => by
    cases h
    simp
  | .item v rest, hitems, xs, h => by
    rw [itemNumbers?, Option.bind_eq_bind, Option.bind_eq_some_iff] at h
    obtain ⟨x, hx, h⟩ := h
    rw [Option.bind_eq_bind, Option.bind_eq_some_iff] at h
    obtain ⟨ys, hys, h⟩ := h
    cases h
    have hv : x.isFinite = true := by
      rw [itemNumber?.eq_def] at hx
      split at hx
      · exact Json.isFinite_toDouble? hitems.1 hx
      · cases hx
    have ih := isFinite_itemNumbers? rest hitems.2 ys hys
    exact List.forall_mem_cons.2 ⟨hv, ih⟩

theorem Param.isFinite_ofHeld? {j : Json} (hj : j.IsFinite) {p : Param} (h : ofHeld? j = some p) :
    ∀ x ∈ p.numbers, x.isFinite = true := by
  rw [ofHeld?.eq_def] at h
  split at h
  · cases h
    simp [numbers]
  · rw [Option.map_eq_map, Option.map_eq_some_iff] at h
    obtain ⟨x, hx, rfl⟩ := h
    simpa [numbers] using Json.isFinite_toDouble? hj hx
  · cases h
    simp [numbers]
  · rw [Option.map_eq_map, Option.map_eq_some_iff] at h
    obtain ⟨xs, hxs, rfl⟩ := h
    exact isFinite_itemNumbers? _ hj xs hxs
  · cases h

theorem Param.yields_ofJson (depth : Nat) :
    Yields (ofJson depth) fun p => ∀ x ∈ p.numbers, x.isFinite = true := by
  intro j p hj h
  rw [ofJson] at h
  obtain ⟨-, -, h⟩ := ok_of_bind h
  split at h
  · next hp =>
    cases h
    exact isFinite_ofHeld? hj hp
  · cases h

theorem need_eq_ok {α : Type} {missing : String → JsonMismatch} {name : String} {o : Option α}
    {x : α} (h : FieldReader.need missing name o = .ok x) : o = some x := by
  cases o with
  | none => cases h
  | some y =>
    cases h
    rfl

theorem Position.yields_ofJson : Yields ofJson fun p => ∀ x ∈ p.numbers, x.isFinite = true := by
  refine Json.yields_record (I := fun s => ∀ x, s.x = some x ∨ s.y = some x → x.isFinite = true)
    ?_ (by simp) ?_
  · simp only [fields, List.forall_mem_cons]
    refine ⟨?_, ?_, by simp⟩
    · refine keeps_of Json.yields_double fun s x hs hx z hz => ?_
      rcases hz with hz | hz
      · cases hz
        exact hx
      · exact hs z (.inr hz)
    · refine keeps_of Json.yields_double fun s y hs hy z hz => ?_
      rcases hz with hz | hz
      · exact hs z (.inl hz)
      · cases hz
        exact hy
  · intro missing s p hs h
    obtain ⟨x, hx, h⟩ := ok_of_bind h
    obtain ⟨y, hy, h⟩ := ok_of_bind h
    cases h
    have hx := hs x (.inl (need_eq_ok hx))
    have hy := hs y (.inr (need_eq_ok hy))
    simp [numbers, hx, hy]

theorem NodeData.yields_ofJson (depth : Nat) :
    Yields (ofJson depth) fun d => ∀ x ∈ d.numbers, x.isFinite = true := by
  intro j d hj h
  rw [ofJson] at h
  obtain ⟨es, hes, rfl⟩ := map_eq_ok h
  have hentries := (Param.yields_ofJson (depth + 1)).map j es hj hes
  intro x hx
  obtain ⟨e, he, hx⟩ := List.mem_flatMap.1 hx
  exact hentries e (Table.mem_of_mem_ofList he) x hx

theorem Node.yields_ofJson (depth : Nat) :
    Yields (ofJson depth) fun n => ∀ x ∈ n.numbers, x.isFinite = true := by
  refine Json.yields_record (I := fun s =>
    (∀ p, s.position = some (some p) → ∀ x ∈ p.numbers, x.isFinite = true) ∧
    ∀ d, s.data = some d → ∀ x ∈ d.numbers, x.isFinite = true) ?_ (by simp) ?_
  · simp only [fields, List.forall_mem_cons]
    refine ⟨?_, ?_, ?_, ?_, by simp⟩
    · exact keeps_of (Json.yields_true _) fun s x hs _ => hs
    · exact keeps_of (Json.yields_true _) fun s x hs _ => hs
    · refine keeps_of Position.yields_ofJson.optional fun s o hs ho => ⟨fun p hp => ?_, hs.2⟩
      cases hp
      exact ho p rfl
    · refine keeps_of (NodeData.yields_ofJson _) fun s d hs hd => ⟨hs.1, fun d' hd' => ?_⟩
      cases hd'
      exact hd
  · intro missing s n hs h
    obtain ⟨id, -, h⟩ := ok_of_bind h
    obtain ⟨type, -, h⟩ := ok_of_bind h
    cases h
    intro x hx
    rcases List.mem_append.1 hx with hx | hx
    · obtain ⟨p, hp, hx⟩ := List.mem_flatMap.1 hx
      have hp : s.position.getD none = some p := Option.mem_toList.1 hp
      cases hposition : s.position with
      | none =>
        rw [hposition] at hp
        cases hp
      | some o =>
        rw [hposition] at hp
        cases hp
        exact hs.1 p hposition x hx
    · cases hdata : s.data with
      | none =>
        rw [hdata] at hx
        cases hx
      | some d =>
        rw [hdata] at hx
        exact hs.2 d hdata x hx

theorem Preset.yields_ofJson : Yields ofJson fun p => ∀ x ∈ p.numbers, x.isFinite = true := by
  refine Json.yields_record (I := fun s => ∀ ns, s.nodes = some ns → ∀ n ∈ ns,
    ∀ x ∈ n.numbers, x.isFinite = true) ?_ (by simp) ?_
  · simp only [fields, List.forall_mem_cons]
    refine ⟨?_, ?_, ?_, ?_, ?_, by simp⟩
    · exact keeps_of (Json.yields_true _) fun s x hs _ => hs
    · exact keeps_of (Json.yields_true _) fun s x hs _ => hs
    · exact keeps_of (Json.yields_true _) fun s x hs _ => hs
    · refine keeps_of (Node.yields_ofJson 2).list fun s ns hs hns ns' h => ?_
      cases h
      exact hns
    · exact keeps_of (Json.yields_true _) fun s x hs _ => hs
  · intro missing s p hs h
    obtain ⟨name, -, h⟩ := ok_of_bind h
    cases h
    intro x hx
    obtain ⟨n, hn, hx⟩ := List.mem_flatMap.1 hx
    cases hnodes : s.nodes with
    | none =>
      rw [hnodes] at hn
      cases hn
    | some ns =>
      rw [hnodes] at hn
      exact hs ns hnodes n hn x hx

/-- No text makes a preset with a number that is not finite. -/
theorem Preset.isFinite_of_readJson {text : String} {p : Preset} (h : readJson text = .ok p) :
    ∀ x ∈ p.numbers, x.isFinite = true := by
  rw [readJson, Json.document] at h
  obtain ⟨q, hq, h⟩ := ok_of_bind h
  split at h
  · cases h
    exact yields_ofJson _ _ (Json.isFinite_read text) hq
  · cases h

end Patchbay
