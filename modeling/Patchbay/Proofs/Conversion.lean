import Mathlib
import Patchbay.Proofs.RoundTrip
import Patchbay.Proofs.TomlNumber

/-!
# From TOML to JSON

TOML has infinities and NaN, JSON has not: a number that is not finite is written as `null`, and no
decoder of a document takes `null` for a number. So a preset that was read from TOML can be read
from its JSON form exactly if all its numbers are finite, and then it is the same preset.
-/

set_option autoImplicit false

namespace Patchbay

namespace Json

/-! ## What a decoder has taken -/

section Taken

variable {α σ : Type} {decode : Json → Decoded α} {fields : List (FieldReader σ)}

theorem listItems_taken {vs : List Json} {xs : List α}
    (h : listItems decode (.ofList vs) = .ok xs) : ∀ v ∈ vs, ∃ x, decode v = .ok x := by
  induction vs generalizing xs with
  | nil => simp
  | cons v vs ih =>
    rw [JsonItems.ofList, listItems] at h
    obtain ⟨x, hx, h⟩ := ok_of_bind h
    obtain ⟨ys, hys, -⟩ := ok_of_bind h
    exact List.forall_mem_cons.2 ⟨⟨x, hx⟩, ih hys⟩

theorem mapMembers_taken {ms : List (String × Json)} {es : List (String × α)}
    (h : mapMembers decode (.ofList ms) = .ok es) : ∀ m ∈ ms, ∃ x, decode m.2 = .ok x := by
  induction ms generalizing es with
  | nil => simp
  | cons m ms ih =>
    rw [JsonMembers.ofList, mapMembers, key, ok_bind] at h
    obtain ⟨x, hx, h⟩ := ok_of_bind h
    obtain ⟨fs, hfs, -⟩ := ok_of_bind h
    exact List.forall_mem_cons.2 ⟨⟨x, hx⟩, ih hfs⟩

theorem recordMembers_taken {ms : List (String × Json)} {s s' : σ}
    (h : recordMembers fields (.ofList ms) s = .ok s') :
    ∀ m ∈ ms, ∀ f, fields.find? (·.name = m.1) = some f → ∃ t t', f.decode m.2 t = .ok t' := by
  induction ms generalizing s with
  | nil => simp
  | cons m ms ih =>
    rw [JsonMembers.ofList, recordMembers, key, ok_bind] at h
    cases hfind : fields.find? (·.name = m.1) with
    | none =>
      simp only [hfind] at h
      obtain ⟨-, -, h⟩ := ok_of_bind h
      exact List.forall_mem_cons.2 ⟨by simp [hfind], ih h⟩
    | some f =>
      simp only [hfind] at h
      split at h
      · cases h
      · obtain ⟨t, ht, h⟩ := ok_of_bind h
        refine List.forall_mem_cons.2 ⟨fun g hg => ?_, ih h⟩
        rw [hfind] at hg
        cases hg
        exact ⟨s, t, ht⟩

/-- Each member of a record that was decoded went through the decoder of its field. -/
theorem record_taken {name : String} {init : σ}
    {finish : (String → JsonMismatch) → σ → Except JsonMismatch α} {ms : List (String × Json)}
    {a : α} (h : record name fields init finish (ofMembers ms) = .ok a) :
    ∀ m ∈ ms, ∀ f, fields.find? (·.name = m.1) = some f → ∃ t t', f.decode m.2 t = .ok t' := by
  rw [ofMembers, record] at h
  obtain ⟨s, hs, -⟩ := ok_of_bind h
  exact recordMembers_taken hs

theorem of_taken {name : String} {get : σ → Option α} {set : σ → α → σ} {v : Json}
    (h : ∃ t t', (FieldReader.of name get set decode).decode v t = .ok t') :
    ∃ x, decode v = .ok x := by
  obtain ⟨t, t', h⟩ := h
  obtain ⟨x, hx, -⟩ := map_eq_ok h
  exact ⟨x, hx⟩

end Taken

theorem double_taken {x y : Float} (h : double (ofDouble x) = .ok y) : x.isFinite = true := by
  rw [ofDouble] at h
  split at h
  · assumption
  · cases h

end Json

open Json

theorem Param.itemNumbers?_taken {xs ys : List Float}
    (h : itemNumbers? (.ofList (xs.map ofDouble)) = some ys) : ∀ x ∈ xs, x.isFinite = true := by
  induction xs generalizing ys with
  | nil => simp
  | cons x xs ih =>
    rw [List.map_cons, JsonItems.ofList, itemNumbers?] at h
    obtain ⟨y, hy, h⟩ := Option.bind_eq_some_iff.1 h
    obtain ⟨zs, hzs, -⟩ := Option.bind_eq_some_iff.1 h
    refine List.forall_mem_cons.2 ⟨?_, ih hzs⟩
    rw [ofDouble] at hy
    split at hy
    · assumption
    · cases hy

theorem Param.ofJson_taken {depth : Nat} {p q : Param} (h : ofJson depth p.toJson = .ok q) :
    ∀ x ∈ p.numbers, x.isFinite = true := by
  rw [ofJson] at h
  obtain ⟨-, -, h⟩ := ok_of_bind h
  split at h
  · next hheld =>
    cases p with
    | bool b => simp [numbers]
    | text s => simp [numbers]
    | number x =>
      rw [toJson, ofDouble] at hheld
      split at hheld
      · simpa [numbers]
      · cases hheld
    | list xs =>
      obtain ⟨ys, hys, -⟩ := Option.map_eq_some_iff.1 hheld
      exact itemNumbers?_taken hys
  · cases h

theorem Position.ofJson_taken {p q : Position} (h : ofJson p.toJson = .ok q) :
    ∀ x ∈ p.numbers, x.isFinite = true := by
  have hfields := record_taken h
  simp only [List.forall_mem_cons] at hfields
  obtain ⟨hx, hy, -⟩ := hfields
  obtain ⟨x, hx⟩ := of_taken (hx _ rfl)
  obtain ⟨y, hy⟩ := of_taken (hy _ rfl)
  simp only [numbers, List.forall_mem_cons]
  exact ⟨double_taken hx, double_taken hy, by simp⟩

theorem NodeData.ofJson_taken {depth : Nat} {d e : NodeData} (h : ofJson depth d.toJson = .ok e) :
    ∀ x ∈ d.numbers, x.isFinite = true := by
  obtain ⟨es, hes, -⟩ := map_eq_ok h
  intro x hx
  obtain ⟨entry, hentry, hx⟩ := List.mem_flatMap.1 hx
  obtain ⟨p, hp⟩ := mapMembers_taken hes _ (List.mem_map_of_mem hentry)
  exact Param.ofJson_taken hp x hx

theorem Node.ofJson_taken {depth : Nat} {n m : Node} (h : ofJson depth n.toJson = .ok m) :
    ∀ x ∈ n.numbers, x.isFinite = true := by
  obtain ⟨id, type, position, data⟩ := n
  have hfields := record_taken h
  intro x hx
  rcases List.mem_append.1 hx with hx | hx
  · cases position with
    | none => cases hx
    | some p =>
      obtain ⟨o, ho⟩ := of_taken (hfields ("position", p.toJson) (by simp) _ rfl)
      obtain ⟨q, hq, -⟩ := map_eq_ok (show (Position.ofJson p.toJson).map some = .ok o from ho)
      exact Position.ofJson_taken hq x (by simpa using hx)
  · obtain ⟨d, hd⟩ := of_taken (hfields ("data", data.toJson) (by simp) _ rfl)
    exact NodeData.ofJson_taken hd x hx

namespace Preset

/-- What is decoded from the form of a preset can only be there if all its numbers are finite. -/
theorem ofJson_taken {p q : Preset} (h : ofJson p.toJson = .ok q) :
    ∀ x ∈ p.numbers, x.isFinite = true := by
  have hfields := record_taken h
  obtain ⟨ns, hns⟩ :=
    of_taken (hfields ("nodes", .ofList (p.nodes.map Node.toJson)) (by simp) _ rfl)
  intro x hx
  obtain ⟨n, hn, hx⟩ := List.mem_flatMap.1 hx
  obtain ⟨m, hm⟩ := listItems_taken hns _ (List.mem_map_of_mem hn)
  exact Node.ofJson_taken hm x hx

theorem readJson_written {p : Preset} (digits : ∀ x ∈ p.numbers, x.isFinite = true → ReadsBack x) :
    readJson p.writeJson = ofJson p.toJson := by
  rw [readJson, writeJson, Json.read_pretty (plain_toJson digits), Json.document]
  cases ofJson p.toJson <;> rfl

/-- A preset read from a TOML text is read back from its JSON form exactly if its numbers are
finite, which they are unless some double of the text is not. Otherwise its JSON form cannot be
read at all. -/
theorem readJson_writeJson_of_readToml? (text : String) (p : Preset) (h : readToml? text = some p)
    (digits : ∀ x ∈ p.numbers, x.isFinite = true → ReadsBack x) :
    (readJson p.writeJson = .ok p ↔ ∀ x ∈ p.numbers, x.isFinite = true) ∧
    (readJson p.writeJson = .ok p ∨ ∃ e, readJson p.writeJson = .error e) ∧
    ∀ es, Toml.read? text = some es →
      (∀ x, Toml.Occurs (.double x) (.table .opened es) → x.isFinite = true) →
      readJson p.writeJson = .ok p := by
  have hfinite : (∀ x ∈ p.numbers, x.isFinite = true) → readJson p.writeJson = .ok p := fun hx =>
    (readJson_written digits).trans (ofJson_toJson hx)
  have htaken (q : Preset) (hq : readJson p.writeJson = .ok q) :
      ∀ x ∈ p.numbers, x.isFinite = true := by
    rw [readJson_written digits] at hq
    exact ofJson_taken hq
  refine ⟨⟨htaken p, hfinite⟩, ?_, fun es hes hd => hfinite (isFinite_of_readToml? h hes hd)⟩
  cases hread : readJson p.writeJson with
  | error e => exact .inr ⟨e, rfl⟩
  | ok q => exact .inl (hread ▸ hfinite (htaken q hread))

/-- Integers and doubles, in an entry of their own, in a list and in braces. -/
def tame : String :=
  "name = \"Tame\"\n\n[[nodes]]\nid = \"n\"\ntype = \"number\"\n"
    ++ "position = \x7b x = 3, y = -0.5 \x7d\n\n"
    ++ "[nodes.data]\nlevels = [0.25, -2e3, 0x10]\nvalue = 7\n"

/-- The numbers read from a text, compared by their words. -/
theorem exists_of_words {text : String} {xs : List Float}
    (h : ((readToml? text).any fun p => p.numbers.map Float.toBits = xs.map Float.toBits) = true) :
    ∃ p, readToml? text = some p ∧ p.numbers = xs := by
  obtain ⟨p, hp, hwords⟩ := (Option.any_eq_true _ _).1 h
  have hinj : Function.Injective Float.toBits :=
    Function.LeftInverse.injective Float.ofBits_toBits
  exact ⟨p, hp, List.map_injective_iff.2 hinj (of_decide_eq_true hwords)⟩

theorem readJson_writeJson_of_readToml?_tame :
    ∃ p, readToml? tame = some p ∧ (∀ x ∈ p.numbers, x.isFinite = true → ReadsBack x) ∧
      readJson p.writeJson = .ok p := by
  obtain ⟨p, hp, hnumbers⟩ : ∃ p, readToml? tame = some p ∧
      p.numbers = [3.0, -0.5, 0.25, -2000.0, 16.0, 7.0] := exists_of_words (by decide +kernel)
  have digits : ∀ x ∈ p.numbers, x.isFinite = true → ReadsBack x := by
    rw [hnumbers]
    simp only [List.forall_mem_cons]
    exact ⟨fun _ => rfl, fun _ => rfl, fun _ => rfl, fun _ => rfl, fun _ => rfl, fun _ => rfl,
      by simp⟩
  have finite : ∀ x ∈ p.numbers, x.isFinite = true := by
    rw [hnumbers]
    simp only [List.forall_mem_cons]
    exact ⟨rfl, rfl, rfl, rfl, rfl, rfl, by simp⟩
  exact ⟨p, hp, digits, (readJson_writeJson_of_readToml? tame p hp digits).1.2 finite⟩

/-- A number node whose value is infinite. -/
def hot : String :=
  "name = \"Hot\"\n\n[[nodes]]\nid = \"n\"\ntype = \"number\"\n\n[nodes.data]\nvalue = inf\n"

theorem hot_refused :
    ∃ p, readToml? hot = some p ∧ (∀ x ∈ p.numbers, x.isFinite = true → ReadsBack x) ∧
      ∃ e, readJson p.writeJson = .error e := by
  obtain ⟨p, hp, hnumbers⟩ : ∃ p, readToml? hot = some p ∧ p.numbers = [1.0 / 0.0] :=
    exists_of_words (by decide +kernel)
  have infinite : ∀ x ∈ p.numbers, ¬x.isFinite = true := by
    rw [hnumbers, List.forall_mem_singleton]
    decide
  have digits : ∀ x ∈ p.numbers, x.isFinite = true → ReadsBack x :=
    fun x hx hfinite => absurd hfinite (infinite x hx)
  refine ⟨p, hp, digits, ?_⟩
  rw [readJson_written digits]
  cases hq : ofJson p.toJson with
  | error e => exact ⟨e, rfl⟩
  | ok q =>
    have hmem : 1.0 / 0.0 ∈ p.numbers := by simp [hnumbers]
    exact absurd (ofJson_taken hq _ hmem) (infinite _ hmem)

end Preset

end Patchbay
