import Mathlib.Data.List.Basic
import Mathlib.Tactic.Common
import Patchbay.Files.Store

/-!
# What stands in a directory

A name joined to a directory is one more step on the way. In a store whose places are made of
names alone, and every change keeps it so, the names of a directory are those that lead from it to
an entry.
-/

set_option autoImplicit false

namespace Patchbay

namespace Path

/-- What an entry of a directory may be called. -/
structure IsName (n : String) : Prop where
  filled : n ≠ ""
  stays : n ≠ "."
  descends : n ≠ ".."
  single : '/' ∉ n.toList

theorem isName_iff (n : String) :
    IsName n ↔ n ≠ "" ∧ n ≠ "." ∧ n ≠ ".." ∧ '/' ∉ n.toList :=
  ⟨fun ⟨h₁, h₂, h₃, h₄⟩ => ⟨h₁, h₂, h₃, h₄⟩, fun ⟨h₁, h₂, h₃, h₄⟩ => ⟨h₁, h₂, h₃, h₄⟩⟩

instance (n : String) : Decidable (IsName n) := decidable_of_iff' _ (isName_iff n)

theorem IsName.isVoid {n : String} (h : IsName n) : isVoid n = false := by
  simp [Path.isVoid, h.filled, h.stays]

theorem IsName.isAbsolute {n : String} (h : IsName n) : isAbsolute n = false := by
  rw [Path.isAbsolute, decide_eq_false_iff_not]
  exact fun hhead => h.single (List.mem_of_mem_head? hhead)

/-! ## Between the slashes -/

theorem pieces_of_notMem {n : String} (h : '/' ∉ n.toList) : pieces n = [n] := by
  simp [pieces, List.splitOn_eq_singleton h]

theorem pieces_append (a b : String) : pieces (a ++ "/" ++ b) = pieces a ++ pieces b := by
  simp [pieces, String.toList_append, List.splitOn_append_cons_self]

theorem notMem_of_mem_splitOn {c : Char} {s piece : List Char} (h : piece ∈ s.splitOn c) :
    c ∉ piece := by
  induction s generalizing piece with
  | nil => simp_all
  | cons d s ih =>
    rw [List.splitOn_cons_eq_if_modifyHead] at h
    obtain ⟨first, rest, hs⟩ := List.exists_cons_of_ne_nil (List.splitOn_ne_nil c s)
    simp only [hs, List.modifyHead_cons, List.mem_cons] at ih h
    split at h
    · rcases List.mem_cons.1 h with rfl | h
      · exact List.not_mem_nil
      · exact ih (by simpa using h)
    · rename_i hd
      rcases List.mem_cons.1 h with rfl | h
      · refine fun hc => (List.mem_cons.1 hc).elim (fun hcd => ?_) (ih (.inl rfl))
        exact hd (beq_iff_eq.2 hcd.symm)
      · exact ih (.inr h)

theorem notMem_of_mem_pieces {path piece : String} (h : piece ∈ pieces path) :
    '/' ∉ piece.toList := by
  obtain ⟨cs, hcs, rfl⟩ := List.mem_map.1 h
  simpa using notMem_of_mem_splitOn hcs

/-! ## A name below a directory -/

variable {d n : String}

theorem join_eq (h : IsName n) :
    (d = "" ∨ ∃ above, d = above ++ "/") ∧ join d n = d ++ n ∨
      d ≠ "" ∧ join d n = d ++ "/" ++ n := by
  by_cases hd : d = ""
  · exact .inl ⟨.inl hd, by simp [join, h.isAbsolute, hd]⟩
  · by_cases hs : asksDirectory d
    · have hlast : d.toList.getLast? = some '/' := of_decide_eq_true hs
      obtain ⟨cs, hcs⟩ := List.getLast?_eq_some_iff.1 hlast
      refine .inl ⟨.inr ⟨String.ofList cs, ?_⟩, by simp [join, h.isAbsolute, hs]⟩
      rw [← String.toList_inj, hcs]
      simp
    · exact .inr ⟨hd, by simp [join, h.isAbsolute, hs, hd]⟩

/-- A filter that lets no empty piece through sees the name as one more piece. -/
theorem filter_pieces_join {keep : String → Bool} (hkeep : keep "" = false) (h : IsName n)
    (hn : keep n) :
    (pieces (join d n)).filter keep = (pieces d).filter keep ++ [n] := by
  have hpieces := pieces_of_notMem h.single
  have hempty : pieces "" = [""] := rfl
  rcases join_eq (d := d) h with ⟨rfl | ⟨above, rfl⟩, hjoin⟩ | ⟨-, hjoin⟩
  · simp [hjoin, hpieces, hempty, hkeep, hn]
  · have habove : pieces (above ++ "/") = pieces above ++ [""] := by
      simpa [hempty] using pieces_append above ""
    simp [hjoin, pieces_append, habove, hpieces, hkeep, hn]
  · simp [hjoin, pieces_append, hpieces, hn]

theorem steps_join (h : IsName n) : steps (join d n) = steps d ++ [n] :=
  filter_pieces_join (by simp) h (by simp [h.filled])

theorem parts_join (h : IsName n) : parts (join d n) = parts d ++ [n] :=
  filter_pieces_join rfl h (by simp [h.isVoid])

theorem fileName?_join (h : IsName n) : fileName? (join d n) = some n := by
  simp [fileName?, parts_join h, h.descends]

theorem fileName?_of_isName (h : IsName n) : fileName? n = some n := by
  simpa [join, h.isAbsolute] using fileName?_join (d := "") h

theorem isAbsolute_join (h : IsName n) : isAbsolute (join d n) = isAbsolute d := by
  have happend {a b : String} (ha : a ≠ "") : isAbsolute (a ++ b) = isAbsolute a := by
    obtain ⟨c, cs, hc⟩ := List.exists_cons_of_ne_nil (mt String.toList_eq_nil_iff.1 ha)
    simp [Path.isAbsolute, hc]
  by_cases hd : d = ""
  · have hjoin : join "" n = n := by simp [join, h.isAbsolute]
    rw [hd, hjoin, h.isAbsolute]
    rfl
  · rcases join_eq (d := d) h with ⟨-, hjoin⟩ | ⟨-, hjoin⟩
    · rw [hjoin, happend hd]
    · rw [hjoin, String.append_assoc, happend hd]

end Path

namespace FileStore

open Patchbay.Path (IsName)

/-- No step of a place leads upwards or stays. -/
structure Proper (s : FileStore) : Prop where
  entries : ∀ e ∈ s.entries, ∀ part ∈ e.1, IsName part
  here : ∀ part ∈ s.here, IsName part

variable {s : FileStore}

/-! ## Following a path -/

theorem locate_eq_ok_iff {path : String} {p : Place} :
    s.locate path = .ok p ↔ '\x00' ∉ path.toList ∧ path ≠ "" ∧
      (Path.steps path).foldlM s.follow (if Path.isAbsolute path then [] else s.here) = .ok p := by
  unfold locate
  split
  · simp_all
  · split <;> simp_all

theorem follow_eq_ok {p q : Place} {part : String} (h : s.follow p part = .ok q) :
    s.kindAt p = some .directory ∧ q = step p part := by
  unfold follow at h
  split at h
  · cases h
  · cases h
  · split at h
    · cases h
    · cases h
      exact ⟨‹_›, rfl⟩

theorem step_proper {p : Place} {part : String} (hp : ∀ n ∈ p, IsName n) (hempty : part ≠ "")
    (hslash : '/' ∉ part.toList) : ∀ n ∈ step p part, IsName n := by
  unfold step
  split
  · exact hp
  · split
    · exact fun n hn => hp n (List.dropLast_subset p hn)
    · intro n hn
      rcases List.mem_append.1 hn with hn | hn
      · exact hp n hn
      · obtain rfl := List.mem_singleton.1 hn
        exact ⟨hempty, ‹_›, ‹_›, hslash⟩

theorem foldlM_follow_proper {parts : List String}
    (hparts : ∀ part ∈ parts, part ≠ "" ∧ '/' ∉ part.toList) {p q : Place}
    (hp : ∀ n ∈ p, IsName n) (h : parts.foldlM s.follow p = .ok q) : ∀ n ∈ q, IsName n := by
  induction parts generalizing p with
  | nil => cases h; exact hp
  | cons part parts ih =>
    rw [List.foldlM_cons] at h
    cases hstep : s.follow p part with
    | error f => rw [hstep] at h; cases h
    | ok r =>
      rw [hstep] at h
      obtain ⟨hempty, hslash⟩ := hparts part List.mem_cons_self
      refine ih (fun t ht => hparts t (List.mem_cons_of_mem _ ht)) ?_ h
      rw [(follow_eq_ok hstep).2]
      exact step_proper hp hempty hslash

theorem locate_proper (proper : s.Proper) {path : String} {p : Place} (h : s.locate path = .ok p) :
    ∀ n ∈ p, IsName n := by
  obtain ⟨-, -, hfold⟩ := locate_eq_ok_iff.1 h
  refine foldlM_follow_proper (fun part hpart => ?_) ?_ hfold
  · obtain ⟨hmem, hne⟩ := List.mem_filter.1 hpart
    exact ⟨of_decide_eq_true hne, Path.notMem_of_mem_pieces hmem⟩
  · split
    · simp
    · exact proper.here

/-! ## Changes -/

theorem put_proper (proper : s.Proper) {p : Place} (hp : ∀ n ∈ p, IsName n)
    (content : Option ByteArray) : (s.put p content).Proper := by
  refine ⟨fun e he => ?_, proper.here⟩
  rcases List.mem_cons.1 he with rfl | he
  · exact hp
  · exact proper.entries e (List.mem_filter.1 he).1

theorem write_proper (proper : s.Proper) {path : String} {content : ByteArray} {t : FileStore}
    (h : s.write path content = .ok t) : t.Proper := by
  unfold write at h
  cases hp : s.locate path with
  | error f => rw [hp] at h; cases h
  | ok p =>
    rw [hp] at h
    simp only [bind, Except.bind] at h
    split at h
    · cases h
    · split at h
      · cases h
        exact put_proper proper (locate_proper proper hp) _
      · cases h
      · cases h

theorem makeDirectory_proper (proper : s.Proper) {path : String} {t : FileStore}
    (h : s.makeDirectory path = .ok t) : t.Proper := by
  unfold makeDirectory at h
  cases hp : s.locate path with
  | error f => rw [hp] at h; cases h
  | ok p =>
    rw [hp] at h
    simp only [bind, Except.bind] at h
    split at h
    · cases h
    · cases h
      exact put_proper proper (locate_proper proper hp) _

theorem changed_proper (proper : s.Proper) {r : Except FileFault FileStore}
    (h : ∀ t, r = .ok t → t.Proper) : (s.changed r).2.Proper := by
  cases r with
  | error f => exact proper
  | ok t => exact h t rfl

/-- What a program on files answers. -/
def answer {α : Type} (s : FileStore) (x : StateM FileStore α) : α := (x.run s).1

/-- What a program on files leaves behind is proper again. -/
def Keeps {α : Type} (x : StateM FileStore α) : Prop :=
  ∀ s : FileStore, s.Proper → (x.run s).2.Proper

section Programs

variable {α β : Type}

theorem keeps_pure (a : α) : Keeps (pure a) := fun _ h => h

theorem keeps_bind {x : StateM FileStore α} {f : α → StateM FileStore β} (hx : Keeps x)
    (hf : ∀ a, Keeps (f a)) : Keeps (x >>= f) :=
  fun s h => hf (x.run s).1 (x.run s).2 (hx s h)

theorem keeps_kind? (path : String) : Keeps (FileAccess.kind? path) := fun _ h => h

theorem keeps_write (path : String) (content : ByteArray) :
    Keeps (FileAccess.write path content) :=
  fun _ h => changed_proper h fun _ => write_proper h

theorem keeps_makeDirectory (path : String) : Keeps (FileAccess.makeDirectory path) :=
  fun _ h => changed_proper h fun _ => makeDirectory_proper h

theorem keeps_unlessDirectory (path : String) (r : Except FileFault Unit) :
    Keeps (FileAccess.unlessDirectory path r) := by
  cases r with
  | ok => exact keeps_pure _
  | error f =>
    exact keeps_bind (keeps_bind (keeps_kind? path) fun _ => keeps_pure _) fun _ => keeps_pure _

theorem keeps_makeAbove (fuel : Nat) (path : String) : Keeps (FileAccess.makeAbove fuel path) := by
  induction fuel generalizing path with
  | zero => exact keeps_pure _
  | succ fuel ih =>
    have hagain : Keeps (FileAccess.makeDirectory path >>= FileAccess.unlessDirectory path) :=
      keeps_bind (keeps_makeDirectory path) (keeps_unlessDirectory path)
    refine keeps_bind (keeps_makeDirectory path) fun r => ?_
    split
    · split
      · exact keeps_pure _
      · exact hagain
      · refine keeps_bind (ih _) fun r => ?_
        split
        · exact keeps_pure _
        · exact hagain
    · exact keeps_unlessDirectory path _

end Programs

theorem addDirectory_proper (proper : s.Proper) (path : String) : (s.addDirectory path).Proper :=
  keeps_makeAbove _ path s proper

theorem addFile_proper (proper : s.Proper) (path content : String) :
    (s.addFile path content).Proper :=
  changed_proper (addDirectory_proper proper _) fun _ => write_proper (addDirectory_proper proper _)

theorem ofFiles_proper {here : String} (hhere : ".." ∉ Path.parts here)
    (files : List (String × String)) (directories : List String) :
    (ofFiles here files directories).Proper := by
  have hempty : (empty (Path.parts here)).Proper := by
    refine ⟨by simp [empty], fun part hpart => ?_⟩
    obtain ⟨hmem, hvoid⟩ := List.mem_filter.1 hpart
    simp only [Path.isVoid, Bool.not_eq_true', Bool.or_eq_false_iff, decide_eq_false_iff_not] at hvoid
    exact ⟨hvoid.1, hvoid.2, ne_of_mem_of_not_mem hpart hhere, Path.notMem_of_mem_pieces hmem⟩
  refine List.foldlRecOn directories _ ?_ fun s h path _ => addDirectory_proper h path
  exact List.foldlRecOn files _ (addDirectory_proper hempty here) fun s h e _ =>
    addFile_proper h e.1 e.2

/-! ## Entries of a directory -/

/-- Whether there is a file at the end of a path. -/
def hasFile (s : FileStore) (path : String) : Bool :=
  (s.kind? path).toOption.map Prod.snd = some .file

theorem hasFile_iff {path : String} : s.hasFile path ↔ ∃ p, s.kind? path = .ok (p, .file) := by
  unfold hasFile
  cases s.kind? path with
  | error f => simp [Except.toOption]
  | ok r => simp [Except.toOption, Prod.ext_iff]

theorem mem_names?_iff {d f : String} : f ∈ (s.names? d).getD [] ↔
    ∃ p, s.kind? d = .ok (p, .directory) ∧ ∃ content, (p ++ [f], content) ∈ s.entries := by
  unfold names?
  split
  · rename_i p hp
    simp only [Option.getD_some, List.mem_filterMap, hp, Except.ok.injEq, Prod.mk.injEq, and_true,
      exists_eq_left']
    constructor
    · rintro ⟨⟨q, content⟩, he, hf⟩
      split at hf
      · rename_i hq
        obtain ⟨above, rfl⟩ := List.getLast?_eq_some_iff.1 hf
        simp only [List.dropLast_concat] at hq
        exact ⟨content, hq ▸ he⟩
      · cases hf
    · rintro ⟨content, he⟩
      exact ⟨_, he, by simp⟩
  · rename_i hno
    simp only [Option.getD_none, List.not_mem_nil, false_iff, not_exists, not_and]
    exact fun p hp => (hno p hp).elim

theorem kind?_eq_ok {path : String} {p : Place} {k : FileKind} (h : s.kind? path = .ok (p, k)) :
    s.locate path = .ok p ∧ s.kindAt p = some k := by
  unfold kind? at h
  cases hp : s.locate path with
  | error f => rw [hp] at h; cases h
  | ok q =>
    rw [hp] at h
    simp only [bind, Except.bind] at h
    split at h
    · cases h
    · split at h <;> cases h
      exact ⟨rfl, ‹_›⟩
    · cases h
      exact ⟨rfl, ‹_›⟩

theorem isSome_of_kindAt {p : Place} (h : s.kindAt p = some .file) :
    ∃ content, (p, content) ∈ s.entries := by
  unfold kindAt at h
  split at h
  · cases h
  · obtain ⟨content, hcontent, -⟩ := Option.map_eq_some_iff.1 h
    obtain ⟨⟨q, c⟩, hfind, rfl⟩ := Option.map_eq_some_iff.1 hcontent
    obtain rfl : q = p := by simpa using List.find?_some hfind
    exact ⟨c, List.mem_of_find?_eq_some hfind⟩

/-- The way to a name below a directory ends where the directory is, one step further. -/
theorem locate_join {d n : String} {p q : Place} (hn : IsName n) (hd : s.locate d = .ok p)
    (h : s.locate (Path.join d n) = .ok q) : q = p ++ [n] := by
  obtain ⟨-, -, hp⟩ := locate_eq_ok_iff.1 hd
  obtain ⟨-, -, hq⟩ := locate_eq_ok_iff.1 h
  rw [Path.steps_join hn, Path.isAbsolute_join hn, List.foldlM_append, hp] at hq
  have hq : [n].foldlM s.follow p = .ok q := hq
  simp only [List.foldlM_cons, List.foldlM_nil, bind_pure] at hq
  rw [(follow_eq_ok hq).2, step, if_neg hn.stays, if_neg hn.descends]

/-- A directory knows the names of its files. -/
theorem mem_names?_of_hasFile {d n : String} {p : Place} (hn : IsName n)
    (hd : s.kind? d = .ok (p, .directory)) (h : s.hasFile (Path.join d n)) :
    n ∈ (s.names? d).getD [] := by
  obtain ⟨q, hq⟩ := hasFile_iff.1 h
  obtain ⟨hlocate, hkind⟩ := kind?_eq_ok hq
  obtain ⟨content, hcontent⟩ := isSome_of_kindAt hkind
  rw [locate_join hn (kind?_eq_ok hd).1 hlocate] at hcontent
  exact mem_names?_iff.2 ⟨p, hd, content, hcontent⟩

end FileStore

end Patchbay
