import Patchbay.Proofs.Table
import Patchbay.Proofs.TomlStatements

/-!
# Documents that are read back

What the statements of a document build is the table that was written, if in every table the names
differ and the plain values stand before the tables. A place in the document is a hole for the
entries of one of its tables: whatever is done to the table at a path is done in the hole.
-/

set_option autoImplicit false

namespace Patchbay

namespace TomlEntries

variable {es : TomlEntries} {key : String} {v w : Toml}

theorem find?_eq_none_iff : find? es key = none ↔ key ∉ es.map Prod.fst := by
  simp only [find?, Option.map_eq_none_iff, List.find?_eq_none, decide_eq_true_eq, List.mem_map,
    not_exists, not_and]

theorem find?_concat (h : find? es key = none) : find? (es ++ [(key, v)]) key = some v := by
  have h : List.find? (fun e => e.1 = key) es = none := Option.map_eq_none_iff.1 h
  simp [find?, h]

theorem find?_eq_some_iff (distinct : (es.map Prod.fst).Nodup) :
    find? es key = some v ↔ (key, v) ∈ es := by
  constructor
  · intro h
    obtain ⟨e, he, rfl⟩ := Option.map_eq_some_iff.1 h
    exact Table.fst_of_find? he ▸ List.mem_of_find?_eq_some he
  · intro h
    have hfound : List.find? (fun e => e.1 = key) es = some (key, v) :=
      find?_of_distinct distinct (by simp) h
    rw [find?, hfound]
    rfl

theorem find?_perm {es es' : TomlEntries} (h : es.Perm es') (distinct : (es.map Prod.fst).Nodup)
    (key : String) : find? es key = find? es' key := by
  refine Option.ext fun v => ?_
  rw [find?_eq_some_iff distinct, find?_eq_some_iff ((h.map Prod.fst).nodup_iff.1 distinct),
    h.mem_iff]

theorem put_of_none (h : find? es key = none) : put key v es = es ++ [(key, v)] := by
  induction es with
  | nil => rfl
  | cons e es ih =>
    obtain ⟨k, u⟩ := e
    rw [find?_eq_none_iff, List.map_cons, List.mem_cons, not_or] at h
    rw [put, if_neg (Ne.symm h.1), ih (find?_eq_none_iff.2 h.2)]
    rfl

theorem put_concat (h : find? es key = none) :
    put key w (es ++ [(key, v)]) = es ++ [(key, w)] := by
  induction es with
  | nil => simp [put]
  | cons e es ih =>
    obtain ⟨k, u⟩ := e
    rw [find?_eq_none_iff, List.map_cons, List.mem_cons, not_or] at h
    rw [List.cons_append, put, if_neg (Ne.symm h.1), ih (find?_eq_none_iff.2 h.2)]
    rfl

end TomlEntries

namespace Toml

open TomlEntries (find?_eq_none_iff find?_concat put_of_none put_concat)

/-! ## Places -/

variable {p path : List String} {key k : String} {x es : TomlEntries} {v : Toml}

theorem update?_concat (dotted : Bool) (f : TomlForm → TomlEntries → Option TomlEntries)
    (p : List String) (k : String) (form : TomlForm) (es : TomlEntries) :
    update? dotted f (p ++ [k]) form es = update? dotted (update? dotted f [k]) p form es := by
  induction p generalizing form es with
  | nil => rfl
  | cons key p ih => simp only [List.cons_append, update?, ih]

/-- The entries of the table at a path are what is put into a hole of the document. -/
def Place (p : List String) (plug : TomlEntries → TomlEntries) : Prop :=
  ∀ f x, update? false f p .opened (plug x) = (f .opened x).map plug

variable {plug : TomlEntries → TomlEntries}

theorem place_root : Place [] id := fun f x => by simp [update?]

theorem Place.table (h : Place p plug) (hk : x.find? k = none) :
    Place (p ++ [k]) fun y => plug (x ++ [(k, .table .opened y)]) := by
  intro f y
  rw [update?_concat, h, update?, find?_concat hk]
  show ((f .opened y).bind fun z => some (TomlEntries.put k (.table .opened z) _)).map plug = _
  cases f .opened y with
  | none => rfl
  | some z => simp [put_concat hk]

theorem Place.element (h : Place p plug) (hk : x.find? k = none) (done : List TomlEntries) :
    Place (p ++ [k]) fun y => plug (x ++ [(k, .tables (done ++ [y]))]) := by
  intro f y
  rw [update?_concat, h, update?, find?_concat hk]
  simp only [List.getLast?_concat, List.dropLast_concat, Option.bind_eq_bind, Option.bind_some]
  show ((f .opened y).bind fun z =>
    some (TomlEntries.put k (.tables (done ++ [z])) _)).map plug = _
  cases f .opened y with
  | none => rfl
  | some z => simp [put_concat hk]

/-! ## Single statements -/

theorem add?_value (h : Place p plug) (hk : x.find? k = none) :
    Assembly.add? ⟨plug x, p⟩ (.value [] k v) = some ⟨plug (x ++ [(k, v)]), p⟩ := by
  have hadd : addAt? [] k v .opened x = some (x ++ [(k, v)]) := by
    simp [addAt?, update?, addLast?, TomlEntries.add?, hk]
  simp [Assembly.add?, h (addAt? [] k v) x, hadd]

theorem add?_openTable (current : List String) (h : Place p plug) (hk : x.find? k = none) :
    Assembly.add? ⟨plug x, current⟩ (.openTable p k) =
      some ⟨plug (x ++ [(k, .table .opened [])]), p ++ [k]⟩ := by
  have hopen : openTable? k .opened x = some (x ++ [(k, .table .opened [])]) := by
    simp [openTable?, hk, put_of_none hk]
  simp [Assembly.add?, h (openTable? k) x, hopen]

/-- A table before some tables of an array are in it, and after. -/
def withTables (x : TomlEntries) (k : String) (done : List TomlEntries) : TomlEntries :=
  if done.isEmpty then x else x ++ [(k, .tables done)]

theorem withTables_concat (x : TomlEntries) (k : String) (done : List TomlEntries)
    (es : TomlEntries) : withTables x k (done ++ [es]) = x ++ [(k, .tables (done ++ [es]))] := by
  simp [withTables]

theorem add?_openElement (current : List String) (h : Place p plug) (hk : x.find? k = none)
    (done : List TomlEntries) :
    Assembly.add? ⟨plug (withTables x k done), current⟩ (.openElement p k) =
      some ⟨plug (withTables x k (done ++ [[]])), p ++ [k]⟩ := by
  have hopen : openElement? k .opened (withTables x k done) =
      some (withTables x k (done ++ [[]])) := by
    rw [withTables_concat]
    cases done with
    | nil => simp [openElement?, withTables, hk, put_of_none hk]
    | cons es done => simp [openElement?, withTables, find?_concat hk, put_concat hk]
  simp [Assembly.add?, h (openElement? k) (withTables x k done), hopen]

/-! ## Texts -/

/-- Whether reading a text takes a document from one state to another. -/
def Builds (text : Chars) (a b : Assembly) : Prop :=
  ∃ ss, Says text ss ∧ ss.foldlM Assembly.add? a = some b

variable {a b c : Assembly} {s t : Chars}

theorem builds_nil (a : Assembly) : Builds [] a a := ⟨[], says_nil, rfl⟩

theorem builds_newline (a : Assembly) : Builds ['\n'] a a := ⟨[], says_newline, rfl⟩

theorem Builds.append (h₁ : Builds s a b) (h₂ : Builds t b c) : Builds (s ++ t) a c := by
  obtain ⟨ss, hs, hfold⟩ := h₁
  obtain ⟨ts, ht, hfold'⟩ := h₂
  exact ⟨ss ++ ts, hs.append ht, by simp [hfold, hfold']⟩

theorem Builds.one {st : TomlStatement} (hs : Says s [st]) (h : a.add? st = some b) :
    Builds s a b := ⟨[st], hs, by simp [h]⟩

def lineText (e : String × Toml) : Chars := (keyText e.1 ++ " = " ++ valueText e.2 ++ "\n").toList

theorem lines_toList (es : TomlEntries) :
    (lines es).toList = (es.filter fun e => isPlain e.2).flatMap lineText := by
  rw [lines, String.toList_join, List.flatMap_map]
  rfl

theorem builds_lines (h : Place p plug) {es : TomlEntries} (hread : ∀ e ∈ es, Reads 0 e.2)
    (hkeys : ((x ++ es).map Prod.fst).Nodup) :
    Builds (es.flatMap lineText) ⟨plug x, p⟩ ⟨plug (x ++ es), p⟩ := by
  induction es generalizing x with
  | nil => simpa using builds_nil _
  | cons e es ih =>
    have hk : x.find? e.1 = none := by
      rw [find?_eq_none_iff]
      intro hmem
      rw [List.map_append, List.map_cons] at hkeys
      exact List.disjoint_of_nodup_append hkeys hmem List.mem_cons_self
    have hline : Builds (lineText e) ⟨plug x, p⟩ ⟨plug (x ++ [e]), p⟩ :=
      .one (says_value e.1 (hread e List.mem_cons_self)) (add?_value h hk)
    have htail := ih (x := x ++ [e]) (fun d hd => hread d (List.mem_cons_of_mem e hd))
      (by simpa using hkeys)
    simpa using hline.append htail

/-! ## Tables -/

/-- The parts of a document, each after a blank line. -/
def spaced (parts : List String) : Chars := parts.flatMap fun s => '\n' :: s.toList

theorem spaced_append (as bs : List String) : spaced (as ++ bs) = spaced as ++ spaced bs :=
  List.flatMap_append

/-- Whether the names of a table differ and its values stand before its tables. -/
structure Tidy (es : TomlEntries) : Prop where
  distinct : (es.map Prod.fst).Nodup
  plainFirst : (es.filter fun e => isPlain e.2) ++ (es.filter fun e => !isPlain e.2) = es

mutual

/-- Whether an entry of a table at a path of `depth` parts is read back from its text. -/
def Restored (depth : Nat) : Toml → Prop
  | .table .opened es => depth + 1 < depthLimit ∧ Tidy es ∧ RestoredEntries (depth + 1) es
  | .tables each => each ≠ [] ∧ depth + 1 < depthLimit ∧ RestoredElements (depth + 1) each
  | v => Reads 0 v

def RestoredEntries (depth : Nat) : List (String × Toml) → Prop
  | [] => True
  | (_, v) :: rest => Restored depth v ∧ RestoredEntries depth rest

def RestoredElements (depth : Nat) : List (List (String × Toml)) → Prop
  | [] => True
  | es :: rest => (Tidy es ∧ RestoredEntries depth es) ∧ RestoredElements depth rest

end

theorem restoredEntries_iff {depth : Nat} {es : TomlEntries} :
    RestoredEntries depth es ↔ ∀ e ∈ es, Restored depth e.2 := by
  induction es with
  | nil => simp [RestoredEntries]
  | cons e es ih => rw [RestoredEntries, ih, List.forall_mem_cons]

theorem restoredElements_iff {depth : Nat} {each : List TomlEntries} :
    RestoredElements depth each ↔ ∀ es ∈ each, Tidy es ∧ RestoredEntries depth es := by
  induction each with
  | nil => simp [RestoredElements]
  | cons es each ih => rw [RestoredElements, ih, List.forall_mem_cons]

theorem Restored.reads {depth : Nat} (h : Restored depth v) (hplain : isPlain v) : Reads 0 v := by
  cases v with
  | table form es =>
    cases form with
    | opened => cases hplain
    | implied => exact h
    | dotted => exact h
    | inlined => exact h
  | tables each =>
    cases each with
    | nil => exact absurd rfl h.1
    | cons es each => cases hplain
  | string s => exact h
  | integer n => exact h
  | double x => exact h
  | boolean b => exact h
  | moment t => exact h
  | array vs => exact h

theorem RestoredEntries.reads {depth : Nat} {es : TomlEntries} (h : RestoredEntries depth es) :
    ∀ e ∈ es.filter fun e => isPlain e.2, Reads 0 e.2 := by
  intro e he
  obtain ⟨hmem, hplain⟩ := List.mem_filter.1 he
  exact (restoredEntries_iff.1 h e hmem).reads hplain

theorem sections_of_plain (path : List String) (h : isPlain v) : sections path v = [] := by
  unfold isPlain at h
  unfold sections
  split at h
  · cases h
  · cases h
  · next hopened hdeep =>
    split
    · exact absurd rfl (hopened _)
    · next each =>
      cases each with
      | nil => rfl
      | cons es each => exact absurd rfl (hdeep es each)
    · rfl

theorem builds_plain (h : isPlain v) (current : List String) :
    ∃ current', Builds (spaced (sections path v)) ⟨plug x, current⟩
      ⟨plug (x ++ if isPlain v then [] else [(k, v)]), current'⟩ :=
  ⟨current, by simpa [sections_of_plain path h, spaced, h] using builds_nil _⟩

/-- Under a header come the values of a table, in order. -/
theorem builds_table (h : Place p plug) (hes : Tidy es) {depth : Nat}
    (hrestored : RestoredEntries depth es) :
    Builds (lines es).toList ⟨plug [], p⟩ ⟨plug (es.filter fun e => isPlain e.2), p⟩ := by
  rw [lines_toList]
  refine builds_lines (x := []) h hrestored.reads ?_
  exact (List.filter_sublist.map Prod.fst).nodup hes.distinct

mutual

/-- The parts of an entry put it behind what its table has so far. -/
theorem builds_sections {p : List String} {plug : TomlEntries → TomlEntries} {k : String}
    {x : TomlEntries} (h : Place p plug) : (v : Toml) → Restored p.length v →
    (isPlain v = false → x.find? k = none) → (current : List String) →
    ∃ current', Builds (spaced (sections (p ++ [k]) v)) ⟨plug x, current⟩
      ⟨plug (x ++ if isPlain v then [] else [(k, v)]), current'⟩
  | .table .opened es, hv, hk, current => by
    obtain ⟨hdepth, hes, hrestored⟩ := hv
    have hplace := h.table (hk rfl)
    have hheader := Builds.one (says_openTable k hdepth) (add?_openTable current h (hk rfl))
    have hlines := builds_table hplace hes hrestored
    obtain ⟨current', hsections⟩ := builds_entrySections
      (x := es.filter fun e => isPlain e.2) hplace es (by simpa using hrestored)
      (hes.plainFirst.symm ▸ hes.distinct) (p ++ [k])
    rw [hes.plainFirst] at hsections
    refine ⟨current', ?_⟩
    have := ((builds_newline _).append hheader).append (hlines.append hsections)
    simpa [sections, spaced, isPlain] using this
  | .tables [], hv, _, _ => absurd rfl hv.1
  | .tables (es :: each), hv, hk, current => by
    obtain ⟨-, hdepth, hrestored⟩ := hv
    obtain ⟨current', hsections⟩ :=
      builds_elementSections h (hk rfl) hdepth (es :: each) hrestored [] current
    exact ⟨current', by simpa [sections, withTables, isPlain] using hsections⟩
  | .string _, _, _, current => builds_plain rfl current
  | .integer _, _, _, current => builds_plain rfl current
  | .double _, _, _, current => builds_plain rfl current
  | .boolean _, _, _, current => builds_plain rfl current
  | .moment _, _, _, current => builds_plain rfl current
  | .array _, _, _, current => builds_plain rfl current
  | .table .implied _, _, _, current => builds_plain rfl current
  | .table .dotted _, _, _, current => builds_plain rfl current
  | .table .inlined _, _, _, current => builds_plain rfl current
termination_by structural v => v

theorem builds_entrySections {p : List String} {plug : TomlEntries → TomlEntries}
    {x : TomlEntries} (h : Place p plug) : (es : List (String × Toml)) →
    RestoredEntries p.length es →
    ((x ++ es.filter fun e => !isPlain e.2).map Prod.fst).Nodup → (current : List String) →
    ∃ current', Builds (spaced (entrySections p es)) ⟨plug x, current⟩
      ⟨plug (x ++ es.filter fun e => !isPlain e.2), current'⟩
  | [], _, _, current => ⟨current, by simpa [entrySections, spaced] using builds_nil _⟩
  | (k, v) :: rest, hes, hkeys, current => by
    have hfresh : isPlain v = false → x.find? k = none := by
      intro hdeep
      rw [find?_eq_none_iff]
      intro hmem
      simp only [List.filter_cons, hdeep, Bool.not_false, if_true, List.map_append,
        List.map_cons] at hkeys
      exact List.disjoint_of_nodup_append hkeys hmem List.mem_cons_self
    have hsplit : x ++ ((k, v) :: rest).filter (fun e => !isPlain e.2) =
        (x ++ if isPlain v then [] else [(k, v)]) ++ rest.filter fun e => !isPlain e.2 := by
      cases hv : isPlain v <;> simp [hv]
    obtain ⟨middle, hfirst⟩ := builds_sections h v hes.1 hfresh current
    rw [hsplit] at hkeys ⊢
    obtain ⟨current', hrest⟩ := builds_entrySections h rest hes.2 hkeys middle
    exact ⟨current', by simpa [entrySections, spaced_append] using hfirst.append hrest⟩
termination_by structural es => es

theorem builds_elementSections {p : List String} {plug : TomlEntries → TomlEntries} {k : String}
    {x : TomlEntries} (h : Place p plug) (hk : x.find? k = none)
    (hdepth : p.length + 1 < depthLimit) :
    (each : List (List (String × Toml))) → RestoredElements (p.length + 1) each →
    (done : List TomlEntries) → (current : List String) →
    ∃ current', Builds (spaced (elementSections (p ++ [k]) each))
      ⟨plug (withTables x k done), current⟩ ⟨plug (withTables x k (done ++ each)), current'⟩
  | [], _, done, current => ⟨current, by simpa [elementSections, spaced] using builds_nil _⟩
  | es :: rest, hes, done, current => by
    obtain ⟨⟨htidy, hrestored⟩, hrest⟩ := hes
    have hplace := h.element hk done
    simp only [← withTables_concat] at hplace
    have hheader := Builds.one (says_openElement k hdepth)
      (add?_openElement current h hk done)
    have hlines := builds_table hplace htidy hrestored
    obtain ⟨middle, hsections⟩ := builds_entrySections
      (x := es.filter fun e => isPlain e.2) hplace es (by simpa using hrestored)
      (htidy.plainFirst.symm ▸ htidy.distinct) (p ++ [k])
    rw [htidy.plainFirst] at hsections
    obtain ⟨current', htail⟩ :=
      builds_elementSections h hk hdepth rest hrest (done ++ [es]) middle
    refine ⟨current', ?_⟩
    have := (((builds_newline _).append hheader).append (hlines.append hsections)).append htail
    simpa [elementSections, spaced] using this
termination_by structural each => each

end

/-! ## Documents -/

theorem spaced_eq (s : String) (parts : List String) :
    spaced (s :: parts) = '\n' :: ("\n".intercalate (s :: parts)).toList := by
  induction parts generalizing s with
  | nil => simp [spaced]
  | cons t parts ih =>
    have htail : spaced (s :: t :: parts) = '\n' :: s.toList ++ spaced (t :: parts) := rfl
    rw [htail, ih]
    simp [String.intercalate_cons_cons]

theorem Builds.eq_of_nil (h : Builds [] a b) : a = b := by
  obtain ⟨ss, hs, hfold⟩ := h
  obtain rfl : ss = [] := by simpa using hs.size
  exact Option.some_inj.1 hfold

theorem builds_write {es : TomlEntries} (hes : Tidy es) (hrestored : RestoredEntries 0 es) :
    ∃ current, Builds ('\n' :: (write es).toList) ⟨[], []⟩ ⟨es, current⟩ := by
  have htop := builds_table place_root hes hrestored
  obtain ⟨current, hsections⟩ := builds_entrySections (x := es.filter fun e => isPlain e.2)
    place_root es hrestored (hes.plainFirst.symm ▸ hes.distinct) []
  rw [hes.plainFirst] at hsections
  refine ⟨current, ?_⟩
  rw [write]
  dsimp only [id] at htop hsections
  split
  · next hempty =>
    rw [String.isEmpty_iff] at hempty
    rw [hempty] at htop
    rw [← htop.eq_of_nil] at hsections
    rw [List.nil_append]
    cases hparts : entrySections [] es with
    | nil =>
      rw [hparts] at hsections
      simpa [spaced] using (builds_newline _).append hsections
    | cons s parts => rwa [hparts, spaced_eq] at hsections
  · rw [List.singleton_append, ← spaced_eq]
    simpa [spaced] using ((builds_newline _).append htop).append hsections

/-- No statement starts with a byte order mark. -/
theorem statements?_mark (fuel : Nat) (cs : Chars) :
    statements? fuel ('\ufeff' :: cs) = none := by
  cases fuel <;> rfl

/-- A document is read back as it was written. -/
theorem read?_write {es : TomlEntries} (hes : Tidy es) (hrestored : RestoredEntries 0 es) :
    read? (write es) = some es := by
  obtain ⟨current, ss, hs, hfold⟩ := builds_write hes hrestored
  have hread := hs.statements?_eq
  have hbuilt : ofStatements? ss = some es := by rw [ofStatements?, hfold]; rfl
  rw [read?]
  split
  · next heq => rw [heq, statements?_mark] at hread; cases hread
  · rw [hread]
    exact hbuilt

/-! ## Any order of the entries -/

/-- An array of no tables is read as one of no values. -/
def emptied : Toml → Toml
  | .tables [] => .array []
  | v => v

/-- The entries of a document as they come when it is read. -/
def arranged (es : TomlEntries) : TomlEntries :=
  let es := es.map fun e => (e.1, emptied e.2)
  (es.filter fun e => isPlain e.2) ++ es.filter fun e => !isPlain e.2

theorem emptied_eq (v : Toml) : emptied v = v ∨ v = .tables [] ∧ emptied v = .array [] := by
  rw [emptied.eq_def]
  split
  · exact .inr ⟨rfl, rfl⟩
  · exact .inl rfl

@[simp] theorem isPlain_emptied (v : Toml) : isPlain (emptied v) = isPlain v := by
  obtain h | ⟨rfl, h⟩ := emptied_eq v
  · rw [h]
  · rfl

@[simp] theorem valueText_emptied (v : Toml) : valueText (emptied v) = valueText v := by
  obtain h | ⟨rfl, h⟩ := emptied_eq v
  · rw [h]
  · rfl

@[simp] theorem sections_emptied (path : List String) (v : Toml) :
    sections path (emptied v) = sections path v := by
  obtain h | ⟨rfl, h⟩ := emptied_eq v
  · rw [h]
  · rfl

theorem entrySections_eq (path : List String) (es : TomlEntries) :
    entrySections path es = es.flatMap fun e => sections (path ++ [e.1]) e.2 := by
  induction es with
  | nil => rfl
  | cons e es ih => rw [entrySections, ih, List.flatMap_cons]

theorem entrySections_filter (path : List String) (es : TomlEntries) :
    entrySections path (es.filter fun e => !isPlain e.2) = entrySections path es := by
  induction es with
  | nil => rfl
  | cons e es ih =>
    obtain ⟨k, v⟩ := e
    cases hv : isPlain v <;> simp [hv, entrySections, ih, sections_of_plain]

theorem write_arranged (es : TomlEntries) : write (arranged es) = write es := by
  have hlines : lines (arranged es) = lines es := by
    simp [lines, arranged, List.filter_map, Function.comp_def, List.filter_filter]
  have hsections : entrySections [] (arranged es) = entrySections [] es := by
    rw [arranged, entrySections_eq, List.flatMap_append, ← entrySections_eq, ← entrySections_eq,
      entrySections_filter]
    have hplain : entrySections []
        ((es.map fun e => (e.1, emptied e.2)).filter fun e => isPlain e.2) = [] := by
      rw [entrySections_eq, List.flatMap_eq_nil_iff]
      exact fun e he => sections_of_plain _ (List.mem_filter.1 he).2
    rw [hplain, List.nil_append, entrySections_eq, entrySections_eq, List.flatMap_map]
    simp
  rw [write, write, hlines, hsections]

theorem arranged_perm (es : TomlEntries) :
    (arranged es).Perm (es.map fun e => (e.1, emptied e.2)) :=
  List.filter_append_perm _ _

theorem tidy_arranged (distinct : (es.map Prod.fst).Nodup) : Tidy (arranged es) := by
  constructor
  · have hmap := (arranged_perm es).map Prod.fst
    rw [List.map_map] at hmap
    exact hmap.nodup_iff.2 distinct
  · simp [arranged, List.filter_filter]

theorem find?_arranged (distinct : (es.map Prod.fst).Nodup) (key : String) :
    (arranged es).find? key = (es.find? key).map emptied := by
  have hperm := (arranged_perm es)
  rw [TomlEntries.find?_perm hperm (tidy_arranged distinct).distinct, TomlEntries.find?,
    TomlEntries.find?, List.find?_map]
  simp [Function.comp_def]

/-- A document is read back with its entries in order. -/
theorem read?_write_arranged (distinct : (es.map Prod.fst).Nodup)
    (hrestored : ∀ e ∈ es, Restored 0 (emptied e.2)) : read? (write es) = some (arranged es) := by
  rw [← write_arranged]
  refine read?_write (tidy_arranged distinct) (restoredEntries_iff.2 fun e he => ?_)
  obtain ⟨d, hd, rfl⟩ := List.mem_map.1 ((arranged_perm es).mem_iff.1 he)
  exact hrestored d hd

end Toml

end Patchbay
