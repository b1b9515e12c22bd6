import Mathlib
import Patchbay.Proofs.FiniteReading

/-!
# Numbers of a TOML document

A preset draws all its numbers from numbers that stand somewhere in the document it was decoded
from. The integers among these are read within 64 bits and so become finite doubles: only a double
of the document can bring a number that is not finite into a preset.
-/

set_option autoImplicit false

namespace Patchbay

namespace Toml

/-! ## Values inside values -/

/-- A value stands somewhere in another one. -/
inductive Occurs (u : Toml) : Toml → Prop
  | refl : Occurs u u
  | item {items : List Toml} {w : Toml} : w ∈ items → Occurs u w → Occurs u (.array items)
  | entry {form : TomlForm} {es : TomlEntries} {e : String × Toml} :
    e ∈ es → Occurs u e.2 → Occurs u (.table form es)
  | element {each : List TomlEntries} {es : TomlEntries} :
    es ∈ each → Occurs u (.table .opened es) → Occurs u (.tables each)

/-- All integers of a value have room in 64 bits. -/
def Bounded (v : Toml) : Prop := ∀ n, Occurs (.integer n) v → n.natAbs ≤ 2 ^ 63

def BoundedEntries (es : TomlEntries) : Prop := ∀ e ∈ es, Bounded e.2

theorem bounded_string (s : String) : Bounded (.string s) := by
  rintro n ⟨⟩

theorem bounded_double (x : Float) : Bounded (.double x) := by
  rintro n ⟨⟩

theorem bounded_boolean (b : Bool) : Bounded (.boolean b) := by
  rintro n ⟨⟩

theorem bounded_moment (t : String) : Bounded (.moment t) := by
  rintro n ⟨⟩

theorem bounded_integer {n : Int} (h : n.natAbs ≤ 2 ^ 63) : Bounded (.integer n) := by
  rintro k ⟨⟩
  exact h

theorem bounded_array {items : List Toml} (h : ∀ w ∈ items, Bounded w) :
    Bounded (.array items) := by
  rintro n (_ | ⟨hw, hn⟩)
  exact h _ hw n hn

theorem bounded_table_iff {form : TomlForm} {es : TomlEntries} :
    Bounded (.table form es) ↔ BoundedEntries es := by
  constructor
  · exact fun h e he n hn => h n (.entry he hn)
  · rintro h n (_ | _ | ⟨he, hn⟩)
    exact h _ he n hn

theorem bounded_tables_iff {each : List TomlEntries} :
    Bounded (.tables each) ↔ ∀ es ∈ each, BoundedEntries es := by
  constructor
  · exact fun h es hes => bounded_table_iff.1 fun n hn => h n (.element hes hn)
  · rintro h n (_ | _ | _ | ⟨hes, hn⟩)
    exact bounded_table_iff.2 (h _ hes) n hn

/-! ## Scalars -/

theorem bounded_integerOf? (negative : Bool) (n : Nat) :
    Ensures (integerOf? negative n) Bounded := by
  rw [integerOf?]
  split
  · next h =>
    refine ensures_some (bounded_integer ?_)
    simp only [Nat.one_shiftLeft] at h
    split <;> omega
  · exact ensures_none

theorem bounded_based? (base : Nat) (cs : Chars) : Ensures (based? base cs) Bounded :=
  ensures_bind fun _ => ensures_bind fun _ => bounded_integerOf? _ _

theorem bounded_doubleOf? (negative : Bool) (d : Decimal) :
    Ensures (doubleOf? negative d) Bounded := by
  rw [doubleOf?]
  split
  · exact ensures_none
  · exact ensures_some (bounded_double _)

theorem bounded_double? (negative : Bool) (cs : Chars) : Ensures (double? negative cs) Bounded := by
  rw [double?]
  dsimp only
  -- with or without an exponent, with or without decimals
  split
  all_goals
    refine ensures_bind fun _ => ensures_bind fun _ => ?_
    split
    all_goals exact ensures_bind fun _ => bounded_doubleOf? _ _

theorem bounded_unsigned? (negative : Bool) (cs : Chars) :
    Ensures (unsigned? negative cs) Bounded := by
  rw [unsigned?.eq_def]
  split
  · exact ensures_some (bounded_double _)
  · exact ensures_some (bounded_double _)
  · split
    · exact bounded_integerOf? _ _
    · exact bounded_double? _ _

theorem bounded_numeral? (cs : Chars) : Ensures (numeral? cs) Bounded := by
  rw [numeral?.eq_def]
  split
  · exact bounded_based? _ _
  · exact bounded_based? _ _
  · exact bounded_based? _ _
  · exact bounded_unsigned? _ _

theorem bounded_moment? (cs : Chars) : Ensures (moment? cs) Bounded := by
  rw [moment?]
  split
  · exact ensures_some (bounded_moment _)
  · split
    · exact Ensures.map (P := fun _ => True) (fun _ _ => trivial) fun _ _ => bounded_moment _
    · exact ensures_none
  · split
    · exact ensures_some (bounded_moment _)
    · exact ensures_none

theorem bounded_ofToken? (cs : Chars) : Ensures (ofToken? cs) Bounded := by
  rw [ofToken?.eq_def]
  split
  · exact ensures_some (bounded_boolean _)
  · exact ensures_some (bounded_boolean _)
  · intro v hv
    cases hm : moment? cs with
    | some w =>
      rw [hm] at hv
      cases hv
      exact bounded_moment? cs v hm
    | none =>
      rw [hm] at hv
      exact bounded_numeral? cs v hv

theorem bounded_token? (cs : Chars) : Ensures (token? cs) fun r => Bounded r.1 := by
  rw [token?]
  dsimp only
  split
  · split
    · exact ensures_some (bounded_moment _)
    · exact ensures_bind fun _ => ensures_some (bounded_moment _)
  · exact (bounded_ofToken? _).bind fun v hv => ensures_some hv

/-! ## Tables -/

theorem mem_put {key : String} {v : Toml} {es : TomlEntries} {e : String × Toml}
    (h : e ∈ es.put key v) : e.2 = v ∨ e ∈ es := by
  induction es with
  | nil =>
    rw [TomlEntries.put, List.mem_singleton] at h
    exact .inl (by rw [h])
  | cons f es ih =>
    obtain ⟨k, w⟩ := f
    rw [TomlEntries.put] at h
    split at h
    · rcases List.mem_cons.1 h with rfl | h
      · exact .inl rfl
      · exact .inr (by simp [h])
    · rcases List.mem_cons.1 h with rfl | h
      · exact .inr (by simp)
      · exact (ih h).imp_right fun he => by simp [he]

theorem boundedEntries_put {key : String} {v : Toml} {es : TomlEntries} (hes : BoundedEntries es)
    (hv : Bounded v) : BoundedEntries (es.put key v) := by
  intro e he
  rcases mem_put he with rfl | he
  · exact hv
  · exact hes e he

theorem exists_of_find? {key : String} {v : Toml} {es : TomlEntries} (h : es.find? key = some v) :
    ∃ e ∈ es, e.2 = v := by
  obtain ⟨e, he, rfl⟩ := Option.map_eq_some_iff.1 h
  exact ⟨e, List.mem_of_find?_eq_some he, rfl⟩

theorem BoundedEntries.find? {key : String} {v : Toml} {es : TomlEntries}
    (hes : BoundedEntries es) (h : es.find? key = some v) : Bounded v := by
  obtain ⟨e, he, rfl⟩ := exists_of_find? h
  exact hes e he

theorem boundedEntries_nil : BoundedEntries [] := by
  intro e he
  cases he

/-- A change at the end of a path keeps what it keeps there. -/
theorem bounded_update? {dotted : Bool} {f : TomlForm → TomlEntries → Option TomlEntries}
    (hf : ∀ form es, BoundedEntries es → Ensures (f form es) BoundedEntries) (path : List String) :
    ∀ form es, BoundedEntries es → Ensures (update? dotted f path form es) BoundedEntries := by
  induction path with
  | nil => exact hf
  | cons key path ih =>
    intro form es hes
    rw [update?.eq_def]
    dsimp only
    split
    · refine (ih _ _ boundedEntries_nil).bind fun inner hinner => ensures_some ?_
      exact boundedEntries_put hes (bounded_table_iff.2 hinner)
    · next hfind =>
      split
      · refine (ih _ _ (bounded_table_iff.1 (hes.find? hfind))).bind fun inner hinner => ?_
        exact ensures_some (boundedEntries_put hes (bounded_table_iff.2 hinner))
      · exact ensures_none
    · next each hfind =>
      have heach := bounded_tables_iff.1 (hes.find? hfind)
      have hlast : Ensures each.getLast? BoundedEntries := fun last h =>
        heach last (List.mem_of_getLast? h)
      refine hlast.bind fun last hl => (ih _ _ hl).bind fun inner hinner => ensures_some ?_
      refine boundedEntries_put hes (bounded_tables_iff.2 fun es' hes' => ?_)
      rcases List.mem_append.1 hes' with hes' | hes'
      · exact heach es' (List.dropLast_subset _ hes')
      · rw [List.mem_singleton.1 hes']
        exact hinner
    · exact ensures_none

theorem bounded_openTable? (key : String) (form : TomlForm) (es : TomlEntries)
    (hes : BoundedEntries es) : Ensures (openTable? key form es) BoundedEntries := by
  rw [openTable?]
  split
  · exact ensures_some (boundedEntries_put hes (bounded_table_iff.2 boundedEntries_nil))
  · next hfind =>
    have hinner := bounded_table_iff.1 (hes.find? hfind)
    exact ensures_some (boundedEntries_put hes (bounded_table_iff.2 hinner))
  · exact ensures_none

theorem bounded_openElement? (key : String) (form : TomlForm) (es : TomlEntries)
    (hes : BoundedEntries es) : Ensures (openElement? key form es) BoundedEntries := by
  rw [openElement?]
  split
  · refine ensures_some (boundedEntries_put hes (bounded_tables_iff.2 fun es' hes' => ?_))
    rw [List.mem_singleton.1 hes']
    exact boundedEntries_nil
  · next hfind =>
    refine ensures_some (boundedEntries_put hes (bounded_tables_iff.2 fun es' hes' => ?_))
    rcases List.mem_append.1 hes' with hes' | hes'
    · exact bounded_tables_iff.1 (hes.find? hfind) es' hes'
    · rw [List.mem_singleton.1 hes']
      exact boundedEntries_nil
  · exact ensures_none

theorem bounded_addAt? {v : Toml} (hv : Bounded v) (path : List String) (key : String) :
    ∀ form es, BoundedEntries es → Ensures (addAt? path key v form es) BoundedEntries := by
  refine bounded_update? (fun form es hes => ?_) path
  rw [addLast?]
  split
  · exact ensures_none
  · rw [TomlEntries.add?]
    split
    · exact ensures_none
    · refine ensures_some fun e he => ?_
      rcases List.mem_append.1 he with he | he
      · exact hes e he
      · rw [List.mem_singleton.1 he]
        exact hv

theorem bounded_inline? {values : List (List String × String × Toml)}
    (h : ∀ e ∈ values, Bounded e.2.2) : Ensures (inline? values) Bounded := by
  refine Ensures.map (P := BoundedEntries) ?_ fun es hes => bounded_table_iff.2 hes
  exact ensures_foldlM values _ boundedEntries_nil fun e he es hes =>
    bounded_addAt? (h e he) e.1 e.2.1 .inlined es hes

/-! ## Texts -/

theorem bounded_read (fuel : Nat) :
    (∀ depth cs, Ensures (value? fuel depth cs) fun r => Bounded r.1) ∧
    (∀ depth cs, Ensures (arrayItems? fuel depth cs) fun r => ∀ v ∈ r.1, Bounded v) ∧
    ∀ depth cs, Ensures (inlineValues? fuel depth cs) fun r => ∀ e ∈ r.1, Bounded e.2.2 := by
  induction fuel with
  | zero => exact ⟨fun _ _ => ensures_none, fun _ _ => ensures_none, fun _ _ => ensures_none⟩
  | succ fuel ih =>
    obtain ⟨hvalue, hitems, hinline⟩ := ih
    refine ⟨fun depth cs => ?_, fun depth cs => ?_, fun depth cs => ?_⟩
    · rw [value?.eq_def]
      dsimp only
      split
      · split
        · exact ensures_none
        · exact (hitems _ _).bind fun r hr => ensures_some (bounded_array hr)
      · split
        · exact ensures_none
        · split
          · exact ensures_some (bounded_table_iff.2 boundedEntries_nil)
          · exact (hinline _ _).bind fun r hr =>
              (bounded_inline? hr).bind fun v hv => ensures_some hv
      · split
        · exact ensures_bind fun _ => ensures_some (bounded_string _)
        · exact bounded_token? _
      · exact ensures_none
    · rw [arrayItems?.eq_def]
      dsimp only
      split
      · exact ensures_some (by simp)
      · refine (hvalue _ _).bind fun r hr => ?_
        split
        · exact ensures_some (by simpa using hr)
        · exact (hitems _ _).bind fun s hs => ensures_some (List.forall_mem_cons.2 ⟨hr, hs⟩)
        · exact ensures_none
    · rw [inlineValues?.eq_def]
      dsimp only
      refine ensures_bind fun _ => ensures_bind fun _ => (hvalue _ _).bind fun r hr => ?_
      split
      · exact ensures_some (by simpa using hr)
      · exact (hinline _ _).bind fun s hs => ensures_some (List.forall_mem_cons.2 ⟨hr, hs⟩)
      · exact ensures_none

/-- The value of a statement has bounded integers. -/
def BoundedStatement : TomlStatement → Prop
  | .value _ _ v => Bounded v
  | _ => True

theorem bounded_statement? (cs : Chars) :
    Ensures (statement? cs) fun r => BoundedStatement r.1 := by
  rw [statement?.eq_def]
  split
  · exact ensures_bind fun _ => ensures_bind fun _ => ensures_bind fun _ => ensures_some trivial
  · exact ensures_bind fun _ => ensures_bind fun _ => ensures_some trivial
  · exact ensures_bind fun _ => ensures_bind fun _ =>
      ((bounded_read _).1 _ _).bind fun r hr => ensures_some hr

theorem bounded_statements? (fuel : Nat) (cs : Chars) :
    Ensures (statements? fuel cs) fun ss => ∀ s ∈ ss, BoundedStatement s := by
  induction fuel generalizing cs with
  | zero => exact ensures_none
  | succ fuel ih =>
    rw [statements?]
    split
    · exact ensures_some (by simp)
    · split
      · exact ensures_some (by simp)
      · exact (bounded_statement? _).bind fun r hr => ensures_bind fun _ =>
          (ih _).bind fun ss hss => ensures_some (List.forall_mem_cons.2 ⟨hr, hss⟩)

theorem bounded_add? {a : Assembly} (ha : BoundedEntries a.root) {s : TomlStatement}
    (hs : BoundedStatement s) : Ensures (a.add? s) fun b => BoundedEntries b.root := by
  cases s with
  | value path key v =>
    exact (bounded_update? (bounded_addAt? hs path key) _ _ _ ha).bind fun _ h => ensures_some h
  | openTable path key =>
    exact (bounded_update? (bounded_openTable? key) _ _ _ ha).bind fun _ h => ensures_some h
  | openElement path key =>
    exact (bounded_update? (bounded_openElement? key) _ _ _ ha).bind fun _ h => ensures_some h

theorem bounded_ofStatements? {ss : List TomlStatement} (h : ∀ s ∈ ss, BoundedStatement s) :
    Ensures (ofStatements? ss) BoundedEntries := by
  refine Ensures.map (P := fun a => BoundedEntries a.root) ?_ fun _ ha => ha
  exact ensures_foldlM ss _ boundedEntries_nil fun s hs a ha => bounded_add? ha (h s hs)

/-- Every integer of a document was read within 64 bits. -/
theorem bounded_read? (text : String) : Ensures (read? text) BoundedEntries :=
  (bounded_statements? _ _).bind fun _ hss => bounded_ofStatements? hss

theorem isFinite_ofInteger {n : Int} (h : n.natAbs ≤ 2 ^ 63) : (ofInteger n).isFinite = true :=
  Rounding.isFinite_signed (BinaryFormat.round_lt h) _

/-! ## Decoding -/

/-- A number that stands somewhere in the value. -/
def Offers (v : Toml) (x : Float) : Prop := ∃ u, Occurs u v ∧ u.number? = some x

theorem offers_number {v : Toml} {x : Float} (h : v.number? = some x) : v.Offers x := ⟨v, .refl, h⟩

theorem offers_item {items : List Toml} {w : Toml} {x : Float} (hw : w ∈ items)
    (h : w.Offers x) : (Toml.array items).Offers x := by
  obtain ⟨u, hu, hx⟩ := h
  exact ⟨u, .item hw hu, hx⟩

theorem offers_of_items? (v : Toml) :
    Ensures v.items? fun items => ∀ w ∈ items, ∀ x, w.Offers x → v.Offers x := by
  rw [items?.eq_def]
  split
  · exact ensures_some fun w hw x => offers_item hw
  · refine ensures_some fun w hw x ⟨u, hu, hx⟩ => ?_
    obtain ⟨es, hes, rfl⟩ := List.mem_map.1 hw
    exact ⟨u, .element hes hu, hx⟩
  · exact ensures_none

theorem offers_of_entries? (v : Toml) :
    Ensures v.entries? fun es => ∀ e ∈ es, ∀ x, e.2.Offers x → v.Offers x := by
  rw [entries?.eq_def]
  split
  · exact ensures_some fun e he x ⟨u, hu, hx⟩ => ⟨u, .entry he hu, hx⟩
  · -- the entry of a moment is a text
    refine ensures_some fun e he x ⟨u, hu, hx⟩ => ?_
    rw [List.mem_singleton] at he
    subst he
    cases hu
    cases hx
  · exact ensures_none

theorem offers_of_fields? (names : List String) (v : Toml) :
    Ensures (v.fields? names) fun fs => ∀ w, some w ∈ fs → ∀ x, w.Offers x → v.Offers x := by
  rw [fields?]
  split
  · next items hitems =>
    refine ensures_some fun w hw x => ?_
    obtain ⟨i, -, hi⟩ := List.mem_map.1 hw
    exact offers_of_items? v items hitems w (List.mem_of_getElem? hi) x
  · refine (offers_of_entries? v).map fun es hes w hw x => ?_
    obtain ⟨name, -, hname⟩ := List.mem_map.1 hw
    obtain ⟨e, he, rfl⟩ := exists_of_find? hname
    exact hes e he x

theorem ensures_optional? {α : Type} (decode : Toml → Option α) (o : Option Toml) :
    Ensures (optional? decode o) fun r =>
      ∀ a, r = some a → ∃ w, o = some w ∧ decode w = some a := by
  cases o with
  | none => exact ensures_some (by simp)
  | some w =>
    intro r hr a ha
    obtain ⟨b, hb, rfl⟩ := Option.map_eq_some_iff.1 hr
    cases ha
    exact ⟨w, rfl, hb⟩

theorem ensures_required? {α : Type} (decode : Toml → Option α) (o : Option Toml) :
    Ensures (required? decode o) fun a => ∃ w, o = some w ∧ decode w = some a :=
  fun _ => Option.bind_eq_some_iff.1

theorem offers_of_list? {α : Type} {decode : Toml → Option α} {numbers : α → List Float}
    (hd : ∀ w, Ensures (decode w) fun a => ∀ x ∈ numbers a, w.Offers x) (v : Toml) :
    Ensures (list? decode v) fun as => ∀ a ∈ as, ∀ x ∈ numbers a, v.Offers x := by
  refine (offers_of_items? v).bind fun items hitems => ?_
  refine (ensures_mapM items fun w _ => hd w).mono fun as has a ha x hx => ?_
  obtain ⟨w, hw, hnumbers⟩ := has a ha
  exact hitems w hw x (hnumbers x hx)

end Toml

open Toml

theorem Param.offers_ofToml? (v : Toml) :
    Ensures (ofToml? v) fun p => ∀ x ∈ p.numbers, v.Offers x := by
  rw [ofToml?.eq_def]
  split
  · exact ensures_some (by simp [numbers])
  · exact ensures_some (by simp [numbers])
  · next items =>
    have hitems := ensures_mapM items fun w _ => fun x (hx : w.number? = some x) => hx
    refine hitems.map fun xs hxs x hx => ?_
    obtain ⟨w, hw, hx⟩ := hxs x hx
    exact offers_item hw (offers_number hx)
  · refine Ensures.map (P := fun x => v.number? = some x) (fun _ h => h) fun x hx y hy => ?_
    rw [numbers, List.mem_singleton] at hy
    exact hy ▸ offers_number hx

theorem Position.offers_ofToml? (v : Toml) :
    Ensures (ofToml? v) fun p => ∀ x ∈ p.numbers, v.Offers x := by
  refine (offers_of_fields? ["x", "y"] v).bind fun fs hfs => ?_
  split
  · refine (ensures_required? number? _).bind fun x hx => ?_
    refine (ensures_required? number? _).bind fun y hy => ensures_some ?_
    obtain ⟨u, rfl, hu⟩ := hx
    obtain ⟨w, rfl, hw⟩ := hy
    simp only [numbers, List.forall_mem_cons]
    exact ⟨hfs u (by simp) x (offers_number hu), hfs w (by simp) y (offers_number hw), by simp⟩
  · exact ensures_none

theorem NodeData.offers_ofToml? (v : Toml) :
    Ensures (ofToml? v) fun d => ∀ x ∈ d.numbers, v.Offers x := by
  refine (offers_of_entries? v).bind fun es hes => ?_
  have hentry (e : String × Toml) : Ensures ((Param.ofToml? e.2).map fun p => (e.1, p))
      fun f : String × Param => ∀ x ∈ f.2.numbers, e.2.Offers x :=
    (Param.offers_ofToml? e.2).map fun p hp => hp
  refine (ensures_mapM es fun e _ => hentry e).bind fun fs hfs => ensures_some fun x hx => ?_
  obtain ⟨f, hf, hx⟩ := List.mem_flatMap.1 hx
  obtain ⟨e, he, hoffers⟩ := hfs f (Table.mem_of_mem_ofList hf)
  exact hes e he x (hoffers x hx)

theorem Node.offers_ofToml? (v : Toml) :
    Ensures (ofToml? v) fun n => ∀ x ∈ n.numbers, v.Offers x := by
  refine (offers_of_fields? _ v).bind fun fs hfs => ?_
  split
  · refine ensures_bind fun id => ensures_bind fun type => ?_
    refine (ensures_optional? Position.ofToml? _).bind fun position hposition => ?_
    refine (ensures_optional? NodeData.ofToml? _).bind fun data hdata => ensures_some fun x hx => ?_
    rcases List.mem_append.1 hx with hx | hx
    · obtain ⟨p, hp, hx⟩ := List.mem_flatMap.1 hx
      obtain ⟨w, rfl, hw⟩ := hposition p (Option.mem_toList.1 hp)
      exact hfs w (by simp) x (Position.offers_ofToml? w p hw x hx)
    · cases data with
      | none => cases hx
      | some d =>
        obtain ⟨w, rfl, hw⟩ := hdata d rfl
        exact hfs w (by simp) x (NodeData.offers_ofToml? w d hw x hx)
  · exact ensures_none

/-- A preset has no number that is not in the document. -/
theorem Preset.offers_ofToml? (es : TomlEntries) :
    Ensures (ofToml? es) fun p => ∀ x ∈ p.numbers, (Toml.table .opened es).Offers x := by
  refine ensures_bind fun name => ensures_bind fun description => ensures_bind fun rate => ?_
  refine (ensures_optional? (Toml.list? Node.ofToml?) _).bind fun nodes hnodes => ?_
  refine ensures_bind fun edges => ensures_some fun x hx => ?_
  obtain ⟨n, hn, hxn⟩ := List.mem_flatMap.1 hx
  cases nodes with
  | none => cases hn
  | some ns =>
    obtain ⟨w, hfind, hw⟩ := hnodes ns rfl
    obtain ⟨e, he, rfl⟩ := exists_of_find? hfind
    obtain ⟨u, hu, hux⟩ := offers_of_list? Node.offers_ofToml? e.2 ns hw n hn x hxn
    exact ⟨u, .entry he hu, hux⟩

/-- Only a double of the document can bring a number that is not finite into a preset. -/
theorem Preset.isFinite_of_readToml? {text : String} {p : Preset} (h : readToml? text = some p)
    {es : TomlEntries} (hes : Toml.read? text = some es)
    (hdoubles : ∀ x, Occurs (.double x) (.table .opened es) → x.isFinite = true) :
    ∀ x ∈ p.numbers, x.isFinite = true := by
  rw [readToml?, hes] at h
  intro x hx
  obtain ⟨u, hu, hux⟩ := offers_ofToml? es p h x hx
  rw [Toml.number?.eq_def] at hux
  split at hux
  · next n =>
    cases hux
    exact isFinite_ofInteger (bounded_table_iff.2 (bounded_read? text es hes) n hu)
  · next y =>
    cases hux
    exact hdoubles x hu
  · cases hux

end Patchbay
