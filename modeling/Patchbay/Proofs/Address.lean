import Mathlib
import Patchbay.Render.Program

/-!
# Addresses

A host reaches a constant by its key and a tap by its tag. The names in both are put together from
the id of an owner, a node or an edge, and a suffix that starts with a colon or is empty. So an id
without a colon can be read back from the name, and the suffix with it.
-/

set_option autoImplicit false

namespace Patchbay

inductive Address where
  | key (name : String)
  | tag (t : ProbeTag)
  deriving DecidableEq

def Op.address? : Op → Option String → Option Address
  | .const _, some key => some (.key key)
  | .tap t, _ => some (.tag t.tag)
  | _, _ => none

def Expr.address? (e : Expr) : Option Address := e.op.address? e.key

theorem address?_key_iff (e : Expr) (key : String) :
    e.address? = some (.key key) ↔ Program.constKey? e = some key := by
  obtain ⟨l, op, k, cs⟩ := e
  cases op <;> cases k <;>
    simp [Expr.address?, Op.address?, Program.constKey?, Expr.op, Expr.key]

theorem address?_tag_iff (e : Expr) (g : ProbeTag) :
    e.address? = some (.tag g) ↔ e.op.tap?.map Tap.tag = some g := by
  obtain ⟨l, op, k, cs⟩ := e
  cases op <;> cases k <;> simp [Expr.address?, Op.address?, Op.tap?, Expr.op, Expr.key]

/-- An address as its owner sees it. -/
inductive Slot where
  | key (suffix : String)
  /-- A tap named after its owner alone. -/
  | own (kind : ProbeKind)
  | tag (kind : ProbeKind) (suffix : String)
  deriving DecidableEq

namespace Slot

def of (owner : String) : Slot → Address
  | key suffix => .key (owner ++ suffix)
  | own kind => .tag ⟨kind, owner⟩
  | tag kind suffix => .tag ⟨kind, owner ++ suffix⟩

def suffix : Slot → String
  | key suffix => suffix
  | own _ => ""
  | tag _ suffix => suffix

/-- The suffix is set off from the id in front of it; that of a tag has no other colon. -/
def Marked : Slot → Prop
  | key suffix => suffix.toList.head? = some ':'
  | own _ => True
  | tag _ suffix => suffix.toList.head? = some ':' ∧ suffix.toList.count ':' = 1

instance : DecidablePred Marked
  | key suffix => inferInstanceAs (Decidable (suffix.toList.head? = some ':'))
  | own _ => isTrue trivial
  | tag _ _ => inferInstanceAs (Decidable (_ ∧ _))

end Slot

namespace Address

def name : Address → String
  | key name => name
  | tag t => t.name

theorem name_of (owner : String) (s : Slot) : (s.of owner).name = owner ++ s.suffix := by
  cases s <;> simp [Slot.of, Slot.suffix, name]

end Address

theorem takeWhile_append_of_head? {p : Char → Bool} {xs ys : List Char} (hx : ∀ c ∈ xs, p c)
    (hy : ∀ c, ys.head? = some c → ¬p c) : (xs ++ ys).takeWhile p = xs := by
  rw [List.takeWhile_append_of_pos hx]
  cases ys with
  | nil => simp
  | cons c ys => simp [hy c rfl]

namespace Slot

theorem Marked.head? {s : Slot} (h : s.Marked) : ∀ c, s.suffix.toList.head? = some c → c = ':' := by
  intro c hc
  cases s with
  | key suffix => exact Option.some.inj (hc.symm.trans h)
  | own kind => simp [suffix] at hc
  | tag kind suffix => exact Option.some.inj (hc.symm.trans h.1)

/-- What stands in front of the first colon of an address is its owner. -/
theorem takeWhile_of {owner : String} (ho : ':' ∉ owner.toList) {s : Slot} (hs : s.Marked) :
    (s.of owner).name.toList.takeWhile (· ≠ ':') = owner.toList := by
  rw [Address.name_of, String.toList_append]
  refine takeWhile_append_of_head? (fun c hc => ?_) fun c hc => ?_
  · have hne : c ≠ ':' := fun heq => ho (heq ▸ hc)
    simpa using hne
  · simpa using hs.head? c hc

theorem of_inj_right {owner : String} {s u : Slot} (hs : s.Marked) (hu : u.Marked)
    (h : s.of owner = u.of owner) : s = u := by
  have hsuffix : s.suffix = u.suffix := by
    have hname := congrArg (fun a => a.name.toList) h
    simp only [Address.name_of, String.toList_append, List.append_cancel_left_eq] at hname
    exact String.toList_injective hname
  have hempty (x : String) (hx : x.toList.head? = some ':') : x ≠ "" := by
    rintro rfl
    cases hx
  cases s <;> cases u <;> simp_all [of, suffix, Marked]

theorem nodup_of {slots : List Slot} (hn : slots.Nodup) (hm : ∀ s ∈ slots, s.Marked)
    (owner : String) : (slots.map (of owner)).Nodup :=
  hn.map_on fun s hs u hu h => of_inj_right (hm s hs) (hm u hu) h

theorem of_inj {owner owner' : String} (ho : ':' ∉ owner.toList) (ho' : ':' ∉ owner'.toList)
    {s u : Slot} (hs : s.Marked) (hu : u.Marked) (h : s.of owner = u.of owner') :
    owner = owner' ∧ s = u := by
  have howner : owner = owner' := by
    refine String.toList_injective ?_
    rw [← takeWhile_of ho hs, h, takeWhile_of ho' hu]
  subst howner
  exact ⟨rfl, of_inj_right hs hu h⟩

/-- Where the suffixes have as many colons, none is left for the other owner. -/
theorem no_colon {owner owner' : String} (ho : ':' ∉ owner.toList) {s u : Slot}
    (hle : s.suffix.toList.count ':' ≤ u.suffix.toList.count ':')
    (h : s.of owner = u.of owner') : ':' ∉ owner'.toList := by
  have hname := congrArg (fun a => a.name.toList.count ':') h
  simp only [Address.name_of, String.toList_append, List.count_append] at hname
  rw [List.count_eq_zero.2 ho] at hname
  exact List.count_eq_zero.1 (by omega)

end Slot

end Patchbay
