import Mathlib.Data.List.TakeWhile
import Patchbay.Preset.Storage
import Patchbay.Proofs.Directory

/-!
# Looking a preset up under its listed name

A file is listed if its extension is that of a format, in whatever case, and it is listed under
what stands before the extension. The look-up takes the name and tries it with the extensions as
they are written, or on its own if it already has one.
-/

set_option autoImplicit false

namespace Patchbay

open Patchbay.Path (IsName)

namespace Path

/-! ## The last dot of a name -/

theorem splitName_eq_iff {n stem e : String} :
    splitName n = (stem, some e) ↔
      stem ≠ "" ∧ '.' ∉ e.toList ∧ n = stem ++ "." ++ e := by
  constructor
  · intro h
    unfold splitName at h
    have hsplit := (List.takeWhile_append_dropWhile (p := (· ≠ '.')) (l := n.toList.reverse)).symm
    have hafter : ∀ d ∈ n.toList.reverse.takeWhile (· ≠ '.'), d ≠ '.' := fun d hd =>
      of_decide_eq_true (List.mem_takeWhile_imp (p := (· ≠ '.')) hd)
    generalize n.toList.reverse.takeWhile (· ≠ '.') = after at h hsplit hafter
    split at h
    · rename_i d c before hdrop
      cases h
      have hdot : d = '.' := by
        have := List.head_dropWhile_not (· ≠ '.') (hdrop.trans_ne (List.cons_ne_nil _ _))
        simpa only [hdrop, List.head_cons, decide_eq_false_iff_not, not_not] using this
      rw [hdrop, List.reverse_eq_iff, hdot] at hsplit
      refine ⟨by simp, fun hmem => hafter '.' (by simpa using hmem) rfl, ?_⟩
      rw [← String.toList_inj, hsplit]
      simp
    · cases h
  · rintro ⟨hstem, he, rfl⟩
    obtain ⟨c, before, hc⟩ := List.exists_cons_of_ne_nil
      (mt (List.reverse_eq_nil_iff.1 · |> String.toList_eq_nil_iff.1) hstem)
    have hall : ∀ d ∈ e.toList.reverse, decide (d ≠ '.') = true := fun d hd =>
      decide_eq_true (ne_of_mem_of_not_mem (List.mem_reverse.1 hd) he)
    have hrev : (stem ++ "." ++ e).toList.reverse = e.toList.reverse ++ '.' :: c :: before := by
      simp [hc]
    have hdrop : (e.toList.reverse ++ '.' :: c :: before).dropWhile (· ≠ '.') =
        '.' :: c :: before := by
      rw [List.dropWhile_append_of_pos hall]
      simp
    have htake : (e.toList.reverse ++ '.' :: c :: before).takeWhile (· ≠ '.') =
        e.toList.reverse := by
      rw [List.takeWhile_append_of_pos hall]
      simp
    rw [splitName, hrev, hdrop, htake]
    simp only [← hc, List.reverse_reverse, String.ofList_toList]

theorem splitName_fst_ne {n stem e : String} (h : splitName n = (stem, some e)) : stem ≠ n := by
  obtain ⟨-, -, rfl⟩ := splitName_eq_iff.1 h
  intro heq
  simpa using congrArg List.length (congrArg String.toList heq)

variable {d n : String}

theorem stem?_join (h : IsName n) : stem? (join d n) = some (splitName n).1 := by
  rw [stem?, fileName?_join h, Option.map_some]

theorem extension?_join (h : IsName n) : extension? (join d n) = (splitName n).2 := by
  rw [extension?, fileName?_join h, Option.bind_some]

theorem extension?_of_isName (h : IsName n) : extension? n = (splitName n).2 := by
  rw [extension?, fileName?_of_isName h, Option.bind_some]

/-- A name with an extension put behind it. -/
theorem splitName_append {e : String} (h : n ≠ "") (he : '.' ∉ e.toList) :
    splitName (n ++ "." ++ e) = (n, some e) :=
  splitName_eq_iff.2 ⟨h, he, rfl⟩

theorem isName_append {e : String} (h : n ≠ "") (hslash : '/' ∉ n.toList) (he : e ≠ "")
    (heslash : '/' ∉ e.toList) (hdot : '.' ∉ e.toList) : IsName (n ++ "." ++ e) := by
  have hsplit := splitName_append h hdot
  refine ⟨by simp, fun h => ?_, fun h => ?_, by simp [hslash, heslash]⟩
  · rw [h] at hsplit
    cases hsplit
  · rw [h] at hsplit
    have hpair : (".", some "") = (n, some e) := hsplit
    exact he (by simp_all)

end Path

namespace Storage

open Patchbay.Path

variable {s : FileStore}

/-! ## What is asked of a store -/

theorem run_firstFile? (s : FileStore) (paths : List String) :
    (FileAccess.firstFile? paths : StateM FileStore (Option String)).run s =
      (paths.find? s.hasFile, s) := by
  induction paths with
  | nil => rfl
  | cons path paths ih =>
    have hstep : (FileAccess.firstFile? (path :: paths) : StateM FileStore (Option String)).run s =
      (if s.hasFile path then pure (some path) else FileAccess.firstFile? paths :
        StateM FileStore (Option String)).run s := rfl
    rw [hstep, List.find?_cons]
    cases s.hasFile path with
    | true => rfl
    | false => exact ih

theorem run_filterAuxM (s : FileStore) (paths found : List String) :
    (paths.filterAuxM FileAccess.isFile found : StateM FileStore (List String)).run s =
      ((paths.filter s.hasFile).reverse ++ found, s) := by
  induction paths generalizing found with
  | nil => rfl
  | cons path paths ih =>
    have hstep : ((path :: paths).filterAuxM FileAccess.isFile found :
        StateM FileStore (List String)).run s =
      (paths.filterAuxM FileAccess.isFile (cond (s.hasFile path) (path :: found) found) :
        StateM FileStore (List String)).run s := rfl
    rw [hstep, ih, List.filter_cons]
    cases s.hasFile path <;> simp

theorem run_list (s : FileStore) (d : String) :
    (Storage.list d : StateM FileStore (List String)).run s =
      (((((s.names? d).getD []).mergeSort fun a b => !(b < a)).map (Path.join d)).filter
        hasPresetExtension |>.filter s.hasFile, s) := by
  have hstep : (Storage.list d : StateM FileStore (List String)).run s =
    Prod.map List.reverse id ((List.filterAuxM FileAccess.isFile
      (((((s.names? d).getD []).mergeSort fun a b => !(b < a)).map (Path.join d)).filter
        hasPresetExtension) [] : StateM FileStore (List String)).run s) := rfl
  rw [hstep, run_filterAuxM]
  simp

theorem mem_list_iff {d p : String} :
    p ∈ s.answer (Storage.list d) ↔
      (∃ f ∈ (s.names? d).getD [], Path.join d f = p) ∧ hasPresetExtension p ∧ s.hasFile p := by
  simp only [FileStore.answer, run_list, List.mem_filter, List.mem_map, List.mem_mergeSort,
    and_assoc]

theorem answer_find? (s : FileStore) (places : PresetPlaces) (name : String) :
    s.answer (Storage.find? places name) = (searchPaths places name).find? s.hasFile :=
  congrArg Prod.fst (run_firstFile? s _)

/-! ## Saving -/

theorem keeps_writeText (path text : String) : FileStore.Keeps (Storage.writeText path text) := by
  refine FileStore.keeps_bind (FileStore.keeps_write path _) fun r => ?_
  cases r <;> exact FileStore.keeps_pure _

theorem keeps_ensure (directory : String) : FileStore.Keeps (Storage.ensure directory) := by
  refine FileStore.keeps_bind (FileStore.keeps_bind (FileStore.keeps_kind? directory) fun _ =>
    FileStore.keeps_pure _) fun there => ?_
  split
  · exact FileStore.keeps_pure _
  · refine FileStore.keeps_bind (FileStore.keeps_makeAbove _ directory) fun r => ?_
    cases r <;> exact FileStore.keeps_pure _

/-- Whatever becomes of it, saving a preset leaves names in the store that can be looked up. -/
theorem keeps_save (preset : Preset) (path : String) :
    FileStore.Keeps (Storage.save preset path) := by
  rw [Storage.save]
  split
  · exact keeps_writeText path _
  · refine FileStore.keeps_bind (keeps_ensure _) fun r => ?_
    cases r with
    | ok => exact keeps_writeText path _
    | error e => exact FileStore.keeps_pure _

/-! ## Names and extensions -/

theorem hasPresetExtension_iff {path : String} :
    hasPresetExtension path ↔ ∃ e, extension? path = some e ∧ e.toLower ∈ extensions := by
  simp [hasPresetExtension, Option.any_eq_true]

/-- The extensions are tried as they are listed, and they are plain words. -/
theorem plain_of_mem_extensions {e : String} (h : e ∈ extensions) :
    e.toLower ∈ extensions ∧ e ≠ "" ∧ '/' ∉ e.toList ∧ '.' ∉ e.toList := by
  revert e
  decide +kernel

/-- A listed file stands under a name of its directory, which is the listed name and an
extension. -/
theorem listed_split (proper : s.Proper) {d p name : String}
    (listed : p ∈ s.answer (Storage.list d)) (named : stem? p = some name) :
    ∃ e, e.toLower ∈ extensions ∧ IsName (name ++ "." ++ e) ∧
      splitName (name ++ "." ++ e) = (name, some e) ∧ p = join d (name ++ "." ++ e) := by
  obtain ⟨⟨f, hf, rfl⟩, hext, -⟩ := mem_list_iff.1 listed
  obtain ⟨place, -, content, hcontent⟩ := FileStore.mem_names?_iff.1 hf
  have hname : IsName f := proper.entries _ hcontent f (by simp)
  obtain ⟨e, he, hlow⟩ := hasPresetExtension_iff.1 hext
  rw [extension?_join hname] at he
  rw [stem?_join hname, Option.some_inj] at named
  have hsplit : splitName f = (name, some e) := Prod.ext named he
  obtain ⟨-, -, rfl⟩ := splitName_eq_iff.1 hsplit
  exact ⟨e, hlow, hname, hsplit, rfl⟩

/-- A name that has an extension of its own is not what a file of that name is listed under. -/
theorem stem?_join_ne {d name : String} (hslash : '/' ∉ name.toList)
    (h : hasPresetExtension name) : stem? (join d name) ≠ some name := by
  obtain ⟨e, he, -⟩ := hasPresetExtension_iff.1 h
  have hname : IsName name := by
    refine ⟨?_, ?_, ?_, hslash⟩ <;> rintro rfl <;> cases he
  rw [extension?_of_isName hname] at he
  rw [stem?_join hname, Ne, Option.some_inj]
  exact splitName_fst_ne (Prod.ext rfl he)

theorem mem_searchPaths {places : PresetPlaces} {name q : String}
    (h : q ∈ searchPaths places name) : q = name ∨ ∃ d, ∃ f ∈ fileNames name, q = join d f := by
  rcases List.mem_cons.1 h with rfl | h
  · exact .inl rfl
  · obtain ⟨d, -, hq⟩ := List.mem_flatMap.1 h
    obtain ⟨f, hf, rfl⟩ := List.mem_map.1 hq
    exact .inr ⟨d, f, hf, rfl⟩

/-! ## A name with the extensions of the table -/

section Candidate

variable {places : PresetPlaces} {d name e : String}

theorem isName_candidate (hne : name ≠ "") (hslash : '/' ∉ name.toList) (he : e ∈ extensions) :
    IsName (name ++ "." ++ e) :=
  have ⟨_, hfilled, hplain, hdot⟩ := plain_of_mem_extensions he
  isName_append hne hslash hfilled hplain hdot

/-- A file of such a name is listed, and under this name. -/
theorem listed_of_hasFile {place : Place} (hd : s.kind? d = .ok (place, .directory))
    (hne : name ≠ "") (hslash : '/' ∉ name.toList) (he : e ∈ extensions)
    (hfile : s.hasFile (join d (name ++ "." ++ e))) :
    join d (name ++ "." ++ e) ∈ s.answer (Storage.list d) ∧
      stem? (join d (name ++ "." ++ e)) = some name := by
  have hname := isName_candidate hne hslash he
  obtain ⟨hlow, -, -, hdot⟩ := plain_of_mem_extensions he
  have hsplit := splitName_append hne hdot
  refine ⟨mem_list_iff.2 ⟨⟨_, FileStore.mem_names?_of_hasFile hname hd hfile, rfl⟩, ?_, hfile⟩, ?_⟩
  · exact hasPresetExtension_iff.2 ⟨e, by rw [extension?_join hname, hsplit], hlow⟩
  · rw [stem?_join hname, hsplit]

/-- What the directory of the user has under such a name is found before anything of the
system. -/
theorem find?_candidate (hext : hasPresetExtension name = false) (free : s.hasFile name = false)
    (he : e ∈ extensions) (hfile : s.hasFile (join places.user (name ++ "." ++ e))) :
    ∃ e' ∈ extensions, s.hasFile (join places.user (name ++ "." ++ e')) ∧
      s.answer (Storage.find? places name) = some (join places.user (name ++ "." ++ e')) := by
  let candidates d := extensions.map fun e => join d (name ++ "." ++ e)
  have hpaths : searchPaths places name =
      name :: (candidates places.user ++ candidates PresetPlaces.system) := by
    simp [candidates, searchPaths, fileNames, hext, Function.comp_def]
  obtain ⟨q, hq⟩ : ∃ q, (candidates places.user).find? s.hasFile = some q :=
    Option.isSome_iff_exists.1 (List.find?_isSome.2 ⟨_, List.mem_map.2 ⟨e, he, rfl⟩, hfile⟩)
  obtain ⟨e', he', rfl⟩ := List.mem_map.1 (List.mem_of_find?_eq_some hq)
  refine ⟨e', he', List.find?_some hq, ?_⟩
  rw [answer_find?, hpaths, List.find?_cons, free, List.find?_append, hq]
  rfl

/-- A listed file that is found under its listed name is one of those that are tried. -/
theorem hasFile_of_find? (proper : s.Proper) (free : s.hasFile name = false) {q : String}
    (hq : q ∈ s.answer (Storage.list places.user))
    (hfind : s.answer (Storage.find? places name) = some q) (hstem : stem? q = some name) :
    hasPresetExtension name = false ∧
      ∃ e ∈ extensions, s.hasFile (join places.user (name ++ "." ++ e)) := by
  obtain ⟨e, -, hname, hsplit, rfl⟩ := listed_split proper hq hstem
  obtain ⟨hne, -, -⟩ := splitName_eq_iff.1 hsplit
  have hslash : '/' ∉ name.toList := fun hmem => hname.single (by simp [hmem])
  rw [answer_find?] at hfind
  have hfile := List.find?_some hfind
  rcases mem_searchPaths (List.mem_of_find?_eq_some hfind) with heq | ⟨d, f, hf, heq⟩
  · rw [heq, free] at hfile
    cases hfile
  · unfold fileNames at hf
    split at hf
    · rename_i hext
      obtain rfl := List.mem_singleton.1 hf
      exact absurd (heq ▸ hstem) (stem?_join_ne hslash hext)
    · rename_i hext
      obtain ⟨e', he', rfl⟩ := List.mem_map.1 hf
      have hsame := fileName?_join (d := places.user) hname
      rw [heq, fileName?_join (isName_candidate hne hslash he'), Option.some_inj] at hsame
      exact ⟨eq_false_of_ne_true hext, e', he', by rwa [hsame]⟩

end Candidate

/-- A preset of the user that is listed is found under its name, as a listed file of this name,
exactly if the name does not itself end in an extension of presets and one of the files that it is
tried as, with an extension in the spelling of the table, is there. A file with its extension
spelled so is one of them. -/
theorem find?_listed (proper : s.Proper) {places : PresetPlaces} {p name : String}
    (listed : p ∈ s.answer (Storage.list places.user)) (named : stem? p = some name)
    (free : s.answer (FileAccess.isFile name) = false) :
    ((∃ q ∈ s.answer (Storage.list places.user),
        s.answer (Storage.find? places name) = some q ∧ stem? q = some name) ↔
      hasPresetExtension name = false ∧ ∃ e ∈ extensions,
        s.answer (FileAccess.isFile (join places.user (name ++ "." ++ e))) = true) ∧
    (hasPresetExtension name = false → ∀ e ∈ extensions, extension? p = some e →
      ∃ q ∈ s.answer (Storage.list places.user),
        s.answer (Storage.find? places name) = some q ∧ stem? q = some name) := by
  obtain ⟨e₀, -, hname, hsplit, heq⟩ := listed_split proper listed named
  obtain ⟨hne, -, -⟩ := splitName_eq_iff.1 hsplit
  have hslash : '/' ∉ name.toList := fun hmem => hname.single (by simp [hmem])
  obtain ⟨⟨f, hf, -⟩, -, hfile⟩ := mem_list_iff.1 listed
  obtain ⟨place, hplace, -⟩ := FileStore.mem_names?_iff.1 hf
  have hfound (hext : hasPresetExtension name = false) {e : String} (he : e ∈ extensions)
      (hcandidate : s.hasFile (join places.user (name ++ "." ++ e))) :
      ∃ q ∈ s.answer (Storage.list places.user),
        s.answer (Storage.find? places name) = some q ∧ stem? q = some name := by
    obtain ⟨e', he', hthere, hfind⟩ := find?_candidate hext free he hcandidate
    obtain ⟨hmem, hstem⟩ := listed_of_hasFile hplace hne hslash he' hthere
    exact ⟨_, hmem, hfind, hstem⟩
  refine ⟨⟨fun ⟨q, hq, hfind, hstem⟩ => hasFile_of_find? proper free hq hfind hstem, ?_⟩, ?_⟩
  · rintro ⟨hext, e, he, hcandidate⟩
    exact hfound hext he hcandidate
  · intro hext e he hspelled
    rw [heq, extension?_join hname, hsplit, Option.some_inj] at hspelled
    exact hfound hext he (hspelled ▸ heq ▸ hfile)

/-! ## A shelf with loud files -/

/-- A plain preset, one with a loud extension and one whose name looks like a file. -/
def shelf : FileStore where
  entries := ["my.toml.json", "A.JSON", "bell.toml"].map
      (fun f => (["c", "patchcord", "presets", f], some .empty)) ++
    [(["c", "patchcord", "presets"], none), (["c", "patchcord"], none), (["c"], none)]
  here := []

def homely : PresetPlaces := ⟨"/c"⟩

theorem shelf_proper : shelf.Proper := ⟨by decide, by decide⟩

theorem listed_shelf {f : String} (hf : f ∈ ["A.JSON", "bell.toml", "my.toml.json"]) :
    join homely.user f ∈ shelf.answer (Storage.list homely.user) := by
  refine mem_list_iff.2 ⟨⟨f, ?_, rfl⟩, ?_, ?_⟩ <;> revert f <;> decide +kernel

theorem find?_listed_bell :
    ∃ q ∈ shelf.answer (Storage.list homely.user),
      shelf.answer (Storage.find? homely "bell") = some q ∧ stem? q = some "bell" :=
  (find?_listed shelf_proper
    (listed_shelf (f := "bell.toml") (by decide)) (by decide +kernel) (by decide +kernel)).2
    (by decide +kernel) "toml" (by decide +kernel) (by decide +kernel)

/-- The other two are listed and not found. -/
theorem find?_listed_loud :
    (join homely.user "A.JSON" ∈ shelf.answer (Storage.list homely.user) ∧
      stem? (join homely.user "A.JSON") = some "A" ∧
      shelf.answer (FileAccess.isFile "A") = false ∧
      shelf.answer (Storage.find? homely "A") = none) ∧
    join homely.user "my.toml.json" ∈ shelf.answer (Storage.list homely.user) ∧
      stem? (join homely.user "my.toml.json") = some "my.toml" ∧
      shelf.answer (FileAccess.isFile "my.toml") = false ∧
      shelf.answer (Storage.find? homely "my.toml") = none :=
  ⟨⟨listed_shelf (by decide), by decide +kernel⟩, listed_shelf (by decide), by decide +kernel⟩

end Storage

end Patchbay
